import CTalk.Transition
import CTalk.KeyExchange
import CTalk.Threads
import CTalk.Handler
import CTalk.Session
import CTalk.Server
import CTalk.Peers
import CTalk.Display
import CTalk.DiffieHellman
import CTalk.Reception
import CTalk.ThreadSlots
import CTalk.Console
import CTalk.Connect
import CTalk.Receiving
import CTalk.Overlay
import CTalk.SharedBuffer
import CTalk.Descriptors
import CTalk.CutOff
import CTalk.Slots
import CTalk.PoolLaw
import CTalk.ServerRuns
import CTalk.ServerMemory
import CTalk.Menu
import CTalk.Terminal
import CTalk.LittleEndian
import CTalk.Keystream
import CTalk.ServerKey
import CTalk.PeerWire
import CTalk.TerminalMemory
import CTalk.DisplayOrder
import CTalk.DisplayWhole
import CTalk.PeerServer
import CTalk.PeerDelivery
