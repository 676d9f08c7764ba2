import CTalk.Transition
import CTalk.Session

/-! ui.c: two peers, each of them a server for the other's messages and a client of the
other's server. Both run with the repository's parameters; the process variable
private_key serves the handlers and the sender alike. -/

set_option autoImplicit false

namespace CTalk
open ByteStream Transition

inductive Peer where
  | a | b
  deriving DecidableEq, Repr

def Peer.other : Peer → Peer
  | .a => .b
  | .b => .a

theorem Peer.ne_other (x : Peer) : x ≠ x.other := by
  cases x with
  | a => nofun
  | b => nofun

/-- Bytes of one send, with the key a chat message was encrypted with as history. -/
structure Parcel where
  bytes : List UInt8
  key : Option UInt64
  deriving DecidableEq

structure Connection where
  handler : Handler
  inFlight : List Parcel
  deriving DecidableEq

/-- The last two fields are history: the keys of the chat messages transmitted, and for
each message decrypted the sender's key and the key used. -/
structure Node where
  started : Bool
  exited : Bool
  globals : Globals
  connections : List Connection
  socket : Option Nat
  sentKeys : List UInt64
  received : List (UInt64 × UInt64)

abbrev World := Peer → Node

def World.initial (fresh : Nat → Option Thread) : World := fun _ =>
  ⟨false,false,⟨0,none,createThreadPool fresh⟩,[],none,[],[]⟩

def publicKeyWire : List UInt8 :=
  (sendPublicKey publicParams.1 publicParams.2 privateParams (.accepted 2)).wire

/-- send_message_ returns early on an empty text. -/
def sendMessage_ (key : UInt64) (plaintext : Buffer) (sent : SendResult) : Option Sent :=
  if plaintext.text = [] then none else some (encryptAndSend key plaintext sent)

/-- A blocking send accepts some of the bytes, and at least one where there is one. -/
def SendResult.possible (length : Nat) : SendResult → Prop
  | .error => True
  | .accepted n => n ≤ length ∧ (length = 0 ∨ 0 < n)

instance (length : Nat) : (sent : SendResult) → Decidable (sent.possible length)
  | .error => .isTrue trivial
  | .accepted n => inferInstanceAs (Decidable (n ≤ length ∧ (length = 0 ∨ 0 < n)))

def Node.accept (n : Node) : Node :=
  { n with connections := n.connections ++
      [⟨Handler.start ⟨n.connections.length,n.connections.length,true⟩,[⟨publicKeyWire,none⟩]⟩] }

def Node.enqueue (n : Node) (i : Nat) (parcel : Parcel) : Node :=
  match n.connections[i]? with
  | none => n
  | some c => { n with
      connections := n.connections.set i { c with inFlight := c.inFlight ++ [parcel] } }

def bytesOf (parcels : List Parcel) : List UInt8 := parcels.flatMap Parcel.bytes

def cutParcels : Nat → List Parcel → List Parcel × List Parcel
  | _, [] => ([],[])
  | n, parcel :: later =>
    if n = 0 then ([],parcel :: later)
    else if parcel.bytes.length ≤ n then
      let (read,left) := cutParcels (n - parcel.bytes.length) later
      (parcel :: read,left)
    else
      ([{ parcel with bytes := parcel.bytes.take n }],
        { parcel with bytes := parcel.bytes.drop n } :: later)

/-- The keys that the messages of one recv were encrypted with, each with the key that the
handler decrypts them with. A key exchange decrypts nothing. -/
def Handler.decrypts (h : Handler) (key : UInt64) (read : List Parcel) :
    List (UInt64 × UInt64) :=
  match h.phase with
  | .receiving => read.filterMap (fun parcel => parcel.key.map (fun sent => (sent,key)))
  | _ => []

/-- One recv of the handler of connection i returns the first count bytes under way, which
may be a part of one send or join several. -/
def Node.receive (n : Node) (i count : Nat) : Option Node :=
  match n.connections[i]? with
  | none => none
  | some c =>
    if c.handler.phase = .finished ∨ count = 0 ∨ maxBufferSize - 1 < count ∨
        (bytesOf c.inFlight).length < count then none
    else
      let (read,left) := cutParcels count c.inFlight
      match c.handler.receive n.globals (recv (bytesOf read)) with
      | .error _ => some { n with exited := true }
      | .ok (g,h) => some { n with
          globals := g
          connections := n.connections.set i ⟨h,left⟩
          received := n.received ++ c.handler.decrypts n.globals.privateKey read }

inductive PeerAction where
  | start : Peer → PeerAction
  | connect : Peer → PeerAction
  | send : Peer → Buffer → SendResult → PeerAction
  | receive : Peer → Nat → Nat → PeerAction

def Node.sending (n : Node) (s : Sent) : Node :=
  { n with
    sentKeys := n.sentKeys ++ (if s.wire = [] then [] else [n.globals.privateKey])
    exited := n.exited || !(s.result matches .ok _) }

/-- A client whose server has not started, and a sender without a connection, end at a
failed system call. -/
def World.step (w : World) : PeerAction → Option World
  | .start x =>
    if (w x).exited ∨ (w x).started then none
    else some (Function.update w x { w x with started := true })
  | .connect x =>
    if (w x).exited then none
    else if (w x.other).started ∧ ¬ (w x.other).exited then
      some (Function.update (Function.update w x.other (w x.other).accept) x
        { w x with socket := some (w x.other).connections.length })
    else some (Function.update w x { w x with exited := true })
  | .send x plaintext sent =>
    if (w x).exited then none
    else match sendMessage_ (w x).globals.privateKey plaintext sent with
      | none => some w
      | some s =>
        match (w x).socket with
        | none => some (Function.update w x { w x with exited := true })
        | some i =>
          if ¬ sent.possible (xorKey (w x).globals.privateKey plaintext.text).length then none
          else
            let parcel : Parcel := ⟨s.wire,some (w x).globals.privateKey⟩
            some (Function.update
              (if s.wire = [] then w
                else Function.update w x.other ((w x.other).enqueue i parcel))
              x ((w x).sending s))
  | .receive x i count =>
    if (w x).exited then none
    else ((w x).receive i count).map (Function.update w x)

/-- Every message was decrypted with the key it was encrypted with, and none was sent
under the initial key 0. -/
def SameKey (w : World) : Prop :=
  ∀ x, (∀ p ∈ (w x).received, p.1 = p.2) ∧ ∀ key ∈ (w x).sentKeys, key ≠ 0

/-- A peer transmits only after a handler of its own has completed a key exchange. -/
def SenderKeyed (w : World) : PeerAction → Prop
  | .send x plaintext sent => plaintext.text ≠ [] → sent ≠ .error → (w x).socket ≠ none →
      ∃ c ∈ (w x).connections, c.handler.derived ≠ none
  | _ => True

instance (w : World) : (a : PeerAction) → Decidable (SenderKeyed w a)
  | .start _ => .isTrue trivial
  | .connect _ => .isTrue trivial
  | .receive _ _ _ => .isTrue trivial
  | .send x plaintext sent => inferInstanceAs (Decidable (plaintext.text ≠ [] →
      sent ≠ .error → (w x).socket ≠ none →
        ∃ c ∈ (w x).connections, c.handler.derived ≠ none))

/-- The first recv of a handler returns the text of the public key alone, which is the first
send of its connection. -/
def KeyAlone (w : World) : PeerAction → Prop
  | .receive x i count => ∀ c ∈ (w x).connections[i]?, c.handler.phase = .keyExchange →
      ∀ parcel ∈ c.inFlight.head?, count = parcel.bytes.length
  | _ => True

instance (w : World) : (a : PeerAction) → Decidable (KeyAlone w a)
  | .start _ => .isTrue trivial
  | .connect _ => .isTrue trivial
  | .send _ _ _ => .isTrue trivial
  | .receive x i count => inferInstanceAs (Decidable (∀ c ∈ (w x).connections[i]?,
      c.handler.phase = .keyExchange → ∀ parcel ∈ c.inFlight.head?,
        count = parcel.bytes.length))

section cutParcels

theorem bytesOf_cutParcels (n : Nat) (parcels : List Parcel) :
    bytesOf (cutParcels n parcels).1 = (bytesOf parcels).take n ∧
      bytesOf (cutParcels n parcels).2 = (bytesOf parcels).drop n := by
  induction parcels generalizing n with
  | nil => simp [cutParcels,bytesOf]
  | cons parcel later ih =>
    unfold cutParcels
    split
    · rename_i hn
      simp [hn,bytesOf]
    · split
      · rename_i hle
        obtain ⟨hread,hleft⟩ := ih (n - parcel.bytes.length)
        simp only [bytesOf,List.flatMap_cons,List.take_append,List.drop_append] at hread hleft ⊢
        rw [hread,hleft,List.take_of_length_le hle,List.drop_of_length_le hle]
        exact ⟨rfl,rfl⟩
      · rename_i hgt
        have hrest : n - parcel.bytes.length = 0 := by omega
        simp [bytesOf,List.take_append,List.drop_append,hrest]

theorem key_of_cutParcels {key : Option UInt64} {parcels : List Parcel}
    (h : ∀ p ∈ parcels, p.key = key) (n : Nat) :
    (∀ p ∈ (cutParcels n parcels).1, p.key = key) ∧
      ∀ p ∈ (cutParcels n parcels).2, p.key = key := by
  induction parcels generalizing n with
  | nil => simp [cutParcels]
  | cons parcel later ih =>
    rw [List.forall_mem_cons] at h
    unfold cutParcels
    split
    · simpa using h
    · split
      · obtain ⟨hread,hleft⟩ := ih h.2 (n - parcel.bytes.length)
        exact ⟨List.forall_mem_cons.mpr ⟨h.1,hread⟩,hleft⟩
      · simpa using h

theorem cutParcels_head {n : Nat} (hn : n ≠ 0) {parcel : Parcel} (hlen : n = parcel.bytes.length)
    (later : List Parcel) : cutParcels n (parcel :: later) = ([parcel],later) := by
  have hzero : cutParcels 0 later = ([],later) := by cases later <;> rfl
  rw [cutParcels,if_neg hn,hlen,if_pos (Nat.le_refl _),Nat.sub_self,hzero]

end cutParcels

section sending
variable {key : UInt64} {plaintext : Buffer} {s : Sent}

theorem text_ne_nil_of_some {sent : SendResult} (h : sendMessage_ key plaintext sent = some s) :
    plaintext.text ≠ [] := by
  unfold sendMessage_ at h
  split at h
  · cases h
  · assumption

theorem text_eq_nil_of_none {sent : SendResult}
    (h : sendMessage_ key plaintext sent = none) : plaintext.text = [] := by
  unfold sendMessage_ at h
  split at h
  · assumption
  · cases h

theorem wire_of_error (h : sendMessage_ key plaintext .error = some s) : s.wire = [] := by
  unfold sendMessage_ at h
  split at h
  · cases h
  · cases h
    simp [encryptAndSend,sendMessageClient,sendUnchecked]

theorem wire_ne_nil_of_zero {n : Nat} (h : sendMessage_ 0 plaintext (.accepted n) = some s)
    (hpossible : (SendResult.accepted n).possible (xorKey 0 plaintext.text).length) :
    s.wire ≠ [] := by
  have hne := text_ne_nil_of_some h
  have hid : xorKey 0 plaintext.text = plaintext.text := by
    apply List.ext_getElem?
    intro i
    have hbyte : keyByte 0 (i % 8) = 0 := by simp [keyByte]
    cases hi : plaintext.text[i]? <;> simp [xorKey_getElem?,hi,hbyte]
  rw [hid] at hpossible
  have hlen : 0 < plaintext.text.length := List.length_pos_iff.mpr hne
  unfold sendMessage_ at h
  rw [if_neg hne] at h
  cases h
  simp only [encryptAndSend,encrypt_some,sendMessageClient,sendUnchecked,hid,
    Buffer.text_ofBytes_of_nulFree plaintext.nulFree_text]
  apply List.ne_nil_of_length_pos
  rw [List.length_take]
  have hn := hpossible.2
  omega

end sending

def sharedKey : UInt64 := 8

theorem generatePrivateKey_publicKeyWire :
    generatePrivateKey (recv publicKeyWire) publicParams.1 privateParams = .ok sharedKey := by
  decide +kernel

theorem publicKeyWire_short : publicKeyWire.length ≤ 1023 := by decide +kernel

/-- The public key travels in front of all messages, and these are encrypted with the
shared key. -/
structure ConnectionOk (c : Connection) : Prop where
  exchange : c.handler.phase = .keyExchange → c.handler.derived = none ∧
    ∃ later, c.inFlight = ⟨publicKeyWire,none⟩ :: later ∧
      ∀ p ∈ later, p.key = some sharedKey
  keyed : c.handler.phase ≠ .keyExchange → c.handler.derived ≠ none ∧
    ∀ p ∈ c.inFlight, p.key = some sharedKey

structure NodeOk (n : Node) : Prop where
  connections : ∀ c ∈ n.connections, ConnectionOk c
  keyed : (∃ c ∈ n.connections, c.handler.derived ≠ none) →
    n.globals.privateKey = sharedKey
  unkeyed : (∀ c ∈ n.connections, c.handler.derived = none) → n.globals.privateKey = 0
  received : ∀ p ∈ n.received, p = (sharedKey,sharedKey)
  sent : ∀ key ∈ n.sentKeys, key = sharedKey

def WorldOk (w : World) : Prop := ∀ x, NodeOk (w x)

theorem worldOk_initial (fresh : Nat → Option Thread) : WorldOk (World.initial fresh) :=
  fun _ => ⟨nofun,nofun,fun _ => rfl,nofun,nofun⟩

theorem nodeOk_accept {n : Node} (h : NodeOk n) : NodeOk n.accept where
  connections := by
    intro c hc
    rcases List.mem_append.mp hc with hc | hc
    · exact h.connections c hc
    · rw [List.mem_singleton.mp hc]
      exact ⟨fun _ => ⟨rfl,[],rfl,nofun⟩,fun hp => absurd rfl hp⟩
  keyed := by
    intro hex
    obtain ⟨c,hc,hd⟩ := hex
    rcases List.mem_append.mp hc with hc | hc
    · exact h.keyed ⟨c,hc,hd⟩
    · rw [List.mem_singleton.mp hc] at hd
      exact absurd rfl hd
  unkeyed := fun hall => h.unkeyed (fun c hc => hall c (List.mem_append_left _ hc))
  received := h.received
  sent := h.sent

theorem nodeOk_set {n : Node} (h : NodeOk n) {i : Nat} {c d : Connection}
    (hi : n.connections[i]? = some c) (hd : ConnectionOk d)
    (hderived : d.handler.derived = c.handler.derived) :
    NodeOk { n with connections := n.connections.set i d } := by
  have hc : c ∈ n.connections := List.mem_of_getElem? hi
  obtain ⟨hlt,_⟩ := List.getElem?_eq_some_iff.mp hi
  refine ⟨?_,?_,?_,h.received,h.sent⟩
  · intro x hx
    rcases List.mem_or_eq_of_mem_set hx with hx | hx
    · exact h.connections x hx
    · exact hx ▸ hd
  · intro hex
    obtain ⟨x,hx,hsome⟩ := hex
    rcases List.mem_or_eq_of_mem_set hx with hx | hx
    · exact h.keyed ⟨x,hx,hsome⟩
    · rw [hx,hderived] at hsome
      exact h.keyed ⟨c,hc,hsome⟩
  · intro hall
    apply h.unkeyed
    intro x hx
    obtain ⟨j,hj⟩ := List.mem_iff_getElem?.mp hx
    by_cases hij : i = j
    · subst hij
      rw [hi] at hj
      cases hj
      rw [← hderived]
      exact hall d (List.mem_set hlt _)
    · exact hall x (List.mem_of_getElem? (by rw [List.getElem?_set_ne hij,hj]))

theorem connectionOk_enqueue {c : Connection} (h : ConnectionOk c) {parcel : Parcel}
    (hkey : parcel.key = some sharedKey) :
    ConnectionOk { c with inFlight := c.inFlight ++ [parcel] } where
  exchange := by
    intro hp
    obtain ⟨hd,later,hfl,hlater⟩ := h.exchange hp
    refine ⟨hd,later ++ [parcel],by simp [hfl],?_⟩
    intro p hp
    rcases List.mem_append.mp hp with hp | hp
    · exact hlater p hp
    · rw [List.mem_singleton.mp hp]
      exact hkey
  keyed := by
    intro hp
    obtain ⟨hd,hall⟩ := h.keyed hp
    refine ⟨hd,?_⟩
    intro p hp
    rcases List.mem_append.mp hp with hp | hp
    · exact hall p hp
    · rw [List.mem_singleton.mp hp]
      exact hkey

theorem nodeOk_enqueue {n : Node} (h : NodeOk n) (i : Nat) {parcel : Parcel}
    (hkey : parcel.key = some sharedKey) : NodeOk (n.enqueue i parcel) := by
  unfold Node.enqueue
  split
  · exact h
  · rename_i c hi
    have hc : c ∈ n.connections := List.mem_of_getElem? hi
    exact nodeOk_set h hi (connectionOk_enqueue (h.connections c hc) hkey) rfl

theorem receive_inv {n m : Node} {i count : Nat} (hm : n.receive i count = some m) :
    ∃ c, n.connections[i]? = some c ∧ c.handler.phase ≠ .finished ∧
      count ≠ 0 ∧ count ≤ maxBufferSize - 1 ∧ count ≤ (bytesOf c.inFlight).length ∧
      (m = { n with exited := true } ∨
        ∃ g h, c.handler.receive n.globals (recv (bytesOf (cutParcels count c.inFlight).1)) =
            .ok (g,h) ∧
          m = { n with
            globals := g
            connections := n.connections.set i ⟨h,(cutParcels count c.inFlight).2⟩
            received := n.received ++
              c.handler.decrypts n.globals.privateKey (cutParcels count c.inFlight).1 }) := by
  unfold Node.receive at hm
  split at hm
  · cases hm
  · rename_i c hi
    split at hm
    · cases hm
    · rename_i hready
      simp only [not_or,Nat.not_lt] at hready
      obtain ⟨hlive,hpos,hfits,hthere⟩ := hready
      refine ⟨c,hi,hlive,hpos,hfits,hthere,?_⟩
      simp only at hm
      split at hm
      · cases hm
        exact .inl rfl
      · rename_i g h hreceive
        cases hm
        exact .inr ⟨g,h,hreceive,rfl⟩

/-- A first recv of the public key alone gives the one key that every peer transmits. -/
theorem key_of_first_recv {c : Connection} {rest : List Parcel} {count : Nat}
    (hhead : c.inFlight = ⟨publicKeyWire,none⟩ :: rest) (hpos : count ≠ 0)
    (halone : ∀ parcel ∈ c.inFlight.head?, count = parcel.bytes.length) :
    cutParcels count c.inFlight = ([⟨publicKeyWire,none⟩],rest) ∧
      generatePrivateKey (recv (bytesOf (cutParcels count c.inFlight).1)) publicParams.1
        privateParams = .ok sharedKey := by
  have hcut : cutParcels count c.inFlight = ([⟨publicKeyWire,none⟩],rest) := by
    rw [hhead]
    exact cutParcels_head hpos (halone _ (by rw [hhead]; rfl)) rest
  have hbytes : bytesOf [⟨publicKeyWire,none⟩] = publicKeyWire := by simp [bytesOf]
  refine ⟨hcut,?_⟩
  rw [hcut,hbytes,generatePrivateKey_publicKeyWire]

theorem decrypts_of_key {h : Handler} {key : UInt64} {read : List Parcel}
    (hkey : ∀ p ∈ read, p.key = some sharedKey) :
    ∀ pair ∈ h.decrypts key read, pair = (sharedKey,key) := by
  intro pair hpair
  unfold Handler.decrypts at hpair
  split at hpair
  · obtain ⟨p,hp,heq⟩ := List.mem_filterMap.mp hpair
    rw [hkey p hp] at heq
    exact (Option.some.inj heq).symm
  · cases hpair

theorem nodeOk_receive {n m : Node} (h : NodeOk n) {i count : Nat}
    (halone : ∀ c ∈ n.connections[i]?, c.handler.phase = .keyExchange →
      ∀ parcel ∈ c.inFlight.head?, count = parcel.bytes.length)
    (hm : n.receive i count = some m) : NodeOk m := by
  obtain ⟨c,hi,hlive,hpos,_,_,hcases⟩ := receive_inv hm
  have hok := h.connections c (List.mem_of_getElem? hi)
  rcases hcases with hexit | hreceived
  · rw [hexit]
    exact ⟨h.connections,h.keyed,h.unkeyed,h.received,h.sent⟩
  · obtain ⟨g,h',hreceive,hm⟩ := hreceived
    rcases receive_cases n.globals hlive hreceive with hexchange | hmessage
    · -- recv returns the public key alone, and every peer transmits the same one
      obtain ⟨hphase,key,hgen,hg,hh⟩ := hexchange
      obtain ⟨_,rest,hhead,hrest⟩ := hok.exchange hphase
      obtain ⟨hlt,_⟩ := List.getElem?_eq_some_iff.mp hi
      obtain ⟨hcut,hkey⟩ := key_of_first_recv hhead hpos (halone c hi hphase)
      rw [hkey] at hgen
      cases hgen
      rw [hcut] at hm
      subst hg hh hm
      refine ⟨?_,fun _ => rfl,?_,?_,h.sent⟩
      · intro x hx
        rcases List.mem_or_eq_of_mem_set hx with hx | hx
        · exact h.connections x hx
        · rw [hx]
          exact ⟨nofun,fun _ => ⟨nofun,hrest⟩⟩
      · intro hall
        exact absurd (hall _ (List.mem_set hlt _)) nofun
      · simpa [Handler.decrypts,hphase] using h.received
    · obtain ⟨hphase,hg,hderived,_,hnext⟩ := hmessage
      obtain ⟨hsome,hkeys⟩ := hok.keyed (by simp [hphase])
      have hshared := h.keyed ⟨c,List.mem_of_getElem? hi,hsome⟩
      obtain ⟨hread,hleft⟩ := key_of_cutParcels hkeys count
      have hunread : ConnectionOk ⟨h',(cutParcels count c.inFlight).2⟩ :=
        ⟨fun hp => absurd hp hnext,fun _ => ⟨by rwa [hderived],hleft⟩⟩
      have hset := nodeOk_set h hi hunread hderived
      rw [hm]
      refine ⟨hset.connections,?_,?_,?_,h.sent⟩
      · rw [hg]
        exact hset.keyed
      · rw [hg]
        exact hset.unkeyed
      · intro p hp
        rcases List.mem_append.mp hp with hp | hp
        · exact h.received p hp
        · rw [decrypts_of_key hread p hp,hshared]

theorem nodeOk_sending {n : Node} (h : NodeOk n) {s : Sent}
    (hkey : n.globals.privateKey = sharedKey) : NodeOk (n.sending s) where
  connections := h.connections
  keyed := h.keyed
  unkeyed := h.unkeyed
  received := h.received
  sent := by
    intro key hk
    rcases List.mem_append.mp hk with hk | hk
    · exact h.sent key hk
    · split at hk
      · cases hk
      · rw [List.mem_singleton.mp hk,hkey]

theorem worldOk_update {w : World} (h : WorldOk w) (x : Peer) {n : Node}
    (hn : NodeOk n) : WorldOk (Function.update w x n) :=
  (Function.forall_update_iff w (fun _ m => NodeOk m)).mpr ⟨hn,fun y _ => h y⟩

theorem nodeOk_congr {n m : Node} (h : NodeOk n) (hc : m.connections = n.connections)
    (hg : m.globals = n.globals) (hr : m.received = n.received)
    (hs : m.sentKeys = n.sentKeys) : NodeOk m :=
  ⟨hc ▸ h.connections,by rw [hc,hg]; exact h.keyed,by rw [hc,hg]; exact h.unkeyed,
    hr ▸ h.received,hs ▸ h.sent⟩

section step
variable {w t : World} {x : Peer}

theorem step_start (hstep : w.step (.start x) = some t) :
    t = Function.update w x { w x with started := true } := by
  simp only [World.step] at hstep
  split at hstep
  · cases hstep
  · cases hstep
    rfl

theorem step_connect (hstep : w.step (.connect x) = some t) :
    t = Function.update (Function.update w x.other (w x.other).accept) x
        { w x with socket := some (w x.other).connections.length } ∨
      t = Function.update w x { w x with exited := true } := by
  simp only [World.step] at hstep
  split at hstep
  · cases hstep
  · split at hstep
    · cases hstep
      exact .inl rfl
    · cases hstep
      exact .inr rfl

theorem step_receive {i count : Nat} (hstep : w.step (.receive x i count) = some t) :
    ∃ n, (w x).receive i count = some n ∧ t = Function.update w x n := by
  simp only [World.step] at hstep
  split at hstep
  · cases hstep
  · obtain ⟨n,hn,ht⟩ := Option.map_eq_some_iff.mp hstep
    exact ⟨n,hn,ht.symm⟩

theorem step_send {plaintext : Buffer} {sent : SendResult}
    (hstep : w.step (.send x plaintext sent) = some t) :
    (plaintext.text = [] ∧ t = w) ∨
    ((w x).socket = none ∧ t = Function.update w x { w x with exited := true }) ∨
    ∃ s i, sendMessage_ (w x).globals.privateKey plaintext sent = some s ∧
      (w x).socket = some i ∧
      sent.possible (xorKey (w x).globals.privateKey plaintext.text).length ∧
      t = Function.update (if s.wire = [] then w else Function.update w x.other
        ((w x.other).enqueue i ⟨s.wire,some (w x).globals.privateKey⟩))
        x ((w x).sending s) := by
  simp only [World.step] at hstep
  split at hstep
  · cases hstep
  · cases hs : sendMessage_ (w x).globals.privateKey plaintext sent with
    | none =>
      rw [hs] at hstep
      left
      cases hstep
      exact ⟨text_eq_nil_of_none hs,rfl⟩
    | some s =>
      rw [hs] at hstep
      right
      cases hsocket : (w x).socket with
      | none =>
        rw [hsocket] at hstep
        left
        cases hstep
        exact ⟨rfl,by simp only [hsocket]⟩
      | some i =>
        rw [hsocket] at hstep
        right
        simp only at hstep
        split at hstep
        · cases hstep
        · rename_i hpossible
          cases hstep
          exact ⟨s,i,rfl,rfl,not_not.mp hpossible,rfl⟩

end step

theorem worldOk_step (w : World) (a : PeerAction) (t : World) (h : WorldOk w)
    (halone : KeyAlone w a) (hkeyed : SenderKeyed w a) (hstep : w.step a = some t) : WorldOk t := by
  cases a with
  | start x =>
    rw [step_start hstep]
    exact worldOk_update h x (nodeOk_congr (h x) rfl rfl rfl rfl)
  | connect x =>
    rcases step_connect hstep with hconnected | hrefused
    · rw [hconnected]
      have haccept := worldOk_update h x.other (nodeOk_accept (h x.other))
      exact worldOk_update haccept x (nodeOk_congr (h x) rfl rfl rfl rfl)
    · rw [hrefused]
      exact worldOk_update h x (nodeOk_congr (h x) rfl rfl rfl rfl)
  | send x plaintext sent =>
    rcases step_send hstep with hempty | hunconnected | htransmit
    · rw [hempty.2]
      exact h
    · rw [hunconnected.2]
      exact worldOk_update h x (nodeOk_congr (h x) rfl rfl rfl rfl)
    · obtain ⟨s,i,hs,hsocket,_,ht⟩ := htransmit
      subst ht
      cases sent with
      | error =>
        have hwire := wire_of_error hs
        rw [if_pos hwire]
        refine worldOk_update h x (nodeOk_congr (h x) rfl rfl rfl ?_)
        simp [Node.sending,hwire]
      | accepted n =>
        have hkey : (w x).globals.privateKey = sharedKey :=
          (h x).keyed (hkeyed (text_ne_nil_of_some hs) nofun (by simp [hsocket]))
        apply worldOk_update
        · split
          · exact h
          · exact worldOk_update h x.other (nodeOk_enqueue (h x.other) i (by rw [hkey]))
        · exact nodeOk_sending (h x) hkey
  | receive x i count =>
    obtain ⟨n,hn,ht⟩ := step_receive hstep
    rw [ht]
    exact worldOk_update h x (nodeOk_receive (h x) halone hn)

def SentInClear (w : World) : Prop := ∃ x, 0 ∈ (w x).sentKeys

theorem sentKeys_receive {n m : Node} {i count : Nat} (hm : n.receive i count = some m) :
    m.sentKeys = n.sentKeys := by
  obtain ⟨_,_,_,_,_,_,hcases⟩ := receive_inv hm
  rcases hcases with hexit | hreceived
  · rw [hexit]
  · obtain ⟨_,_,_,hm⟩ := hreceived
    rw [hm]

theorem sentKeys_enqueue (n : Node) (i : Nat) (parcel : Parcel) :
    (n.enqueue i parcel).sentKeys = n.sentKeys := by
  unfold Node.enqueue
  split <;> rfl

theorem mem_sentKeys_update {w : World} {x y : Peer} {n : Node} {key : UInt64}
    (hn : key ∈ (w x).sentKeys → key ∈ n.sentKeys) (hkey : key ∈ (w y).sentKeys) :
    key ∈ (Function.update w x n y).sentKeys := by
  by_cases hy : y = x
  · subst hy
    rw [Function.update_self]
    exact hn hkey
  · rw [Function.update_of_ne hy]
    exact hkey

theorem mem_sentKeys_update_other {w : World} {x y : Peer} {m n : Node} {key : UInt64}
    (hm : key ∈ (w x.other).sentKeys → key ∈ m.sentKeys)
    (hn : key ∈ (w x).sentKeys → key ∈ n.sentKeys) (hkey : key ∈ (w y).sentKeys) :
    key ∈ (Function.update (Function.update w x.other m) x n y).sentKeys := by
  have hother := mem_sentKeys_update hm hkey
  refine mem_sentKeys_update ?_ hother
  rw [Function.update_of_ne x.ne_other]
  exact hn

theorem mem_sentKeys_step {w t : World} {a : PeerAction} (hstep : w.step a = some t)
    {y : Peer} {key : UInt64} (hkey : key ∈ (w y).sentKeys) : key ∈ (t y).sentKeys := by
  cases a with
  | start x =>
    rw [step_start hstep]
    exact mem_sentKeys_update id hkey
  | connect x =>
    rcases step_connect hstep with hconnected | hrefused
    · rw [hconnected]
      exact mem_sentKeys_update_other id id hkey
    · rw [hrefused]
      exact mem_sentKeys_update id hkey
  | send x plaintext sent =>
    rcases step_send hstep with hempty | hunconnected | htransmit
    · rw [hempty.2]
      exact hkey
    · rw [hunconnected.2]
      exact mem_sentKeys_update id hkey
    · obtain ⟨s,i,_,_,_,ht⟩ := htransmit
      subst ht
      have hgrow : key ∈ (w x).sentKeys → key ∈ ((w x).sending s).sentKeys :=
        List.mem_append_left _
      split
      · exact mem_sentKeys_update hgrow hkey
      · refine mem_sentKeys_update_other ?_ hgrow hkey
        rw [sentKeys_enqueue]
        exact id
  | receive x i count =>
    obtain ⟨n,hn,ht⟩ := step_receive hstep
    rw [ht]
    exact mem_sentKeys_update (fun h => by rwa [sentKeys_receive hn]) hkey

theorem sentInClear_persists (w : World) (a : PeerAction) (t : World) (h : SentInClear w)
    (hstep : w.step a = some t) : SentInClear t := by
  obtain ⟨x,hx⟩ := h
  exact ⟨x,mem_sentKeys_step hstep hx⟩

theorem sentInClear_of_not_keyed (w : World) (a : PeerAction) (t : World) (h : WorldOk w)
    (hkeyed : ¬ SenderKeyed w a) (hstep : w.step a = some t) : SentInClear t := by
  cases a with
  | start x => exact absurd trivial hkeyed
  | connect x => exact absurd trivial hkeyed
  | receive x i count => exact absurd trivial hkeyed
  | send x plaintext sent =>
    simp only [SenderKeyed,Classical.not_imp,not_exists,not_and,not_not] at hkeyed
    obtain ⟨hne,herror,hsocket,hnone⟩ := hkeyed
    have hzero : (w x).globals.privateKey = 0 := (h x).unkeyed hnone
    rcases step_send hstep with hempty | hunconnected | htransmit
    · exact absurd hempty.1 hne
    · exact absurd hunconnected.1 hsocket
    · obtain ⟨s,i,hs,_,hpossible,ht⟩ := htransmit
      cases sent with
      | error => exact absurd rfl herror
      | accepted n =>
        rw [hzero] at hs hpossible
        have hwire := wire_ne_nil_of_zero hs hpossible
        refine ⟨x,?_⟩
        rw [ht,Function.update_self]
        simp [Node.sending,hwire,hzero]

theorem sameKey_of_worldOk {w : World} (h : WorldOk w) : SameKey w := by
  intro x
  refine ⟨?_,?_⟩
  · intro p hp
    rw [(h x).received p hp]
  · intro key hkey
    rw [(h x).sent key hkey]
    decide

/-- In a run of the two peers in which no first recv joins the public key with a message or
cuts it, every message is decrypted under the key it was encrypted with, and none goes out in
clear, exactly when nobody transmits before a handler of his own has a key. -/
theorem same_key_iff (fresh : Nat → Option Thread) (as : List PeerAction) (t : World)
    (halone : Meets World.step KeyAlone (World.initial fresh) as)
    (hrun : run World.step (World.initial fresh) as = some t) :
    SameKey t ↔ Meets World.step SenderKeyed (World.initial fresh) as := by
  constructor
  · intro hsame
    apply meets_of_run worldOk_step sentInClear_of_not_keyed sentInClear_persists
      (worldOk_initial fresh) halone hrun
    intro hclear
    obtain ⟨x,hx⟩ := hclear
    exact (hsame x).2 0 hx rfl
  · intro hmeets
    exact sameKey_of_worldOk (run_invariant_of_meets
      (fun w a u h hboth => worldOk_step w a u h hboth.1 hboth.2) (worldOk_initial fresh)
      (meets_and halone hmeets) hrun)

def bothConnect : List PeerAction := [.start .a,.start .b,.connect .a,.connect .b]

def greeting : Buffer := Buffer.ofBytes [104,105]

def handshakesFirst : List PeerAction :=
  bothConnect ++ [.receive .a 0 2,.receive .b 0 2,.send .a greeting (.accepted 2),
    .receive .b 0 2,.send .b greeting (.accepted 2),.receive .a 0 2]

theorem same_key_handshakes_first :
    SameKey ((run World.step (World.initial (fun _ => none)) handshakesFirst).get
      (by decide +kernel)) :=
  (same_key_iff (fun _ => none) handshakesFirst _ (by decide +kernel)
    (Option.some_get _).symm).mpr (by decide +kernel)

def writesFirst : List PeerAction :=
  [.start .b,.connect .a,.send .a greeting (.accepted 2),.receive .b 0 2,.receive .b 0 2]

theorem first_message_in_clear : ¬ ∀ (fresh : Nat → Option Thread) (as : List PeerAction)
    (t : World), run World.step (World.initial fresh) as = some t → SameKey t := by
  intro hall
  have hrun := hall (fun _ => none) writesFirst
    ((run World.step (World.initial (fun _ => none)) writesFirst).get (by decide +kernel))
    (Option.some_get _).symm
  exact (hrun .a).2 0 (by decide +kernel) rfl

end CTalk
