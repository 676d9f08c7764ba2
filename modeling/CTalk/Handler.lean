import CTalk.Threads

/-! server.c: client_handler_thread, one recv result at a time, over the process-level
variables that every handler shares. -/

set_option autoImplicit false

namespace CTalk
open ByteStream

structure Globals where
  privateKey : UInt64
  lastReceivedMessage : Option (List UInt8)
  pool : ThreadPool
  deriving DecidableEq

/-- What the handler's next recv is for. A finished handler has closed its socket and
returned. -/
inductive Phase where
  | keyExchange | receiving | finished
  deriving DecidableEq, Repr

/-- The last three fields are history: the key generate_private_key returned on this
connection, the key each message was decrypted with, and the messages printed. -/
structure Handler where
  self : Thread
  phase : Phase
  derived : Option UInt64
  keysUsed : List UInt64
  printed : List (List UInt8)
  deriving DecidableEq

def Handler.start (self : Thread) : Handler := ⟨self,.keyExchange,none,[],[]⟩

def exitText : List UInt8 := [47,101,120,105,116]

/-- The test on the decrypted pointer is left out: decrypt returns a buffer or does not
return. The store into last_received_message is one step here. -/
def Handler.receive (h : Handler) (g : Globals) (received : RecvResult) :
    Except Fault (Globals × Handler) :=
  match h.phase with
  | .keyExchange => do
    let key ← generatePrivateKey received publicParams.1 privateParams
    pure ({ g with privateKey := key },{ h with phase := .receiving, derived := some key })
  | .receiving => do
    let ciphertext ← receiveMessage received
    let decrypted ← decrypt ciphertext g.privateKey
    let h := { h with keysUsed := h.keysUsed ++ [g.privateKey] }
    if decrypted.text = exitText then
      let pool ← removeFromPool g.pool h.self
      pure ({ g with pool := pool },{ h with phase := .finished })
    else
      pure ({ g with lastReceivedMessage := some decrypted.text },
        { h with printed := h.printed ++ [decrypted.text] })
  | .finished => pure (g,h)

/-- One handler alone with its connection: no other thread runs between its recvs. -/
def Handler.run : Handler → Globals → List RecvResult → Except Fault (Globals × Handler)
  | h, g, [] => .ok (g,h)
  | h, g, received :: later => do
    let (g,h) ← h.receive g received
    h.run g later

def decodedText (key : UInt64) (bs : List UInt8) : List UInt8 :=
  (Buffer.ofBytes (xorKey key (Buffer.ofBytes bs).text)).text

theorem decodedText_length_le (key : UInt64) (bs : List UInt8) :
    (decodedText key bs).length ≤ bs.length := by
  have hout := Buffer.text_ofBytes_length_le (xorKey key (Buffer.ofBytes bs).text)
  have hin := Buffer.text_ofBytes_length_le bs
  rw [xorKey_length] at hout
  exact Nat.le_trans hout hin

theorem decodedText_xorKey {key : UInt64} {bs : List UInt8} (hbs : NulFree bs)
    (hcipher : NulFree (xorKey key bs)) : decodedText key (xorKey key bs) = bs := by
  rw [decodedText,Buffer.text_ofBytes_of_nulFree hcipher,xorKey_xorKey,
    Buffer.text_ofBytes_of_nulFree hbs]

section receive
variable {h : Handler} (g : Globals)

theorem receive_keyExchange (hphase : h.phase = .keyExchange) (received : RecvResult) :
    h.receive g received =
      (generatePrivateKey received publicParams.1 privateParams).map
        (fun key => ({ g with privateKey := key },
          { h with phase := .receiving, derived := some key })) := by
  simp only [Handler.receive,hphase]
  cases generatePrivateKey received publicParams.1 privateParams <;> rfl

theorem receive_message (hphase : h.phase = .receiving)
    (chunk : Chunk (maxBufferSize - 1))
    (htext : decodedText g.privateKey chunk.bytes ≠ exitText) :
    h.receive g (.data chunk) =
      .ok ({ g with lastReceivedMessage := some (decodedText g.privateKey chunk.bytes) },
        { h with
          keysUsed := h.keysUsed ++ [g.privateKey]
          printed := h.printed ++ [decodedText g.privateKey chunk.bytes] }) := by
  simp only [Handler.receive,hphase,receiveMessage,bind,Except.bind,decrypt_some]
  exact if_neg htext

theorem receive_exit (hphase : h.phase = .receiving)
    (chunk : Chunk (maxBufferSize - 1))
    (htext : decodedText g.privateKey chunk.bytes = exitText) :
    h.receive g (.data chunk) =
      (removeFromPool g.pool h.self).map (fun pool => ({ g with pool := pool },
        { h with keysUsed := h.keysUsed ++ [g.privateKey], phase := .finished })) := by
  simp only [Handler.receive,hphase,receiveMessage,bind,Except.bind,decrypt_some]
  rw [decodedText] at htext
  rw [if_pos htext]
  cases removeFromPool g.pool h.self <;> rfl

theorem receive_closed (hphase : h.phase ≠ .finished) :
    h.receive g .closed = .error .nullDeref := by
  cases hp : h.phase with
  | keyExchange =>
    simp only [Handler.receive,hp]
    rfl
  | receiving =>
    simp only [Handler.receive,hp]
    rfl
  | finished => exact absurd hp hphase

theorem receive_error (hphase : h.phase ≠ .finished) :
    h.receive g .error = .error .exitFailure := by
  cases hp : h.phase with
  | keyExchange =>
    simp only [Handler.receive,hp]
    rfl
  | receiving =>
    simp only [Handler.receive,hp]
    rfl
  | finished => exact absurd hp hphase

theorem receive_cases (hphase : h.phase ≠ .finished) {received : RecvResult}
    {g' : Globals} {h' : Handler} (hok : h.receive g received = .ok (g',h')) :
    (h.phase = .keyExchange ∧ ∃ key,
      generatePrivateKey received publicParams.1 privateParams = .ok key ∧
      g' = { g with privateKey := key } ∧
      h' = { h with phase := .receiving, derived := some key }) ∨
    (h.phase = .receiving ∧ g'.privateKey = g.privateKey ∧ h'.derived = h.derived ∧
      h'.keysUsed = h.keysUsed ++ [g.privateKey] ∧ h'.phase ≠ .keyExchange) := by
  cases hp : h.phase with
  | keyExchange =>
    left
    rw [receive_keyExchange g hp] at hok
    cases hkey : generatePrivateKey received publicParams.1 privateParams with
    | error fault =>
      rw [hkey] at hok
      cases hok
    | ok key =>
      rw [hkey] at hok
      cases hok
      exact ⟨rfl,key,rfl,rfl,rfl⟩
  | receiving =>
    right
    cases received with
    | error =>
      rw [receive_error g hphase] at hok
      cases hok
    | closed =>
      rw [receive_closed g hphase] at hok
      cases hok
    | data chunk =>
      by_cases htext : decodedText g.privateKey chunk.bytes = exitText
      · rw [receive_exit g hp chunk htext] at hok
        cases hpool : removeFromPool g.pool h.self with
        | error fault =>
          rw [hpool] at hok
          cases hok
        | ok pool =>
          rw [hpool] at hok
          cases hok
          exact ⟨rfl,rfl,rfl,rfl,nofun⟩
      · rw [receive_message g hp chunk htext] at hok
        cases hok
        exact ⟨rfl,rfl,rfl,rfl,by simp [hp]⟩
  | finished => exact absurd hp hphase

theorem run_finished (hphase : h.phase = .finished) (rs : List RecvResult) :
    h.run g rs = .ok (g,h) := by
  induction rs with
  | nil => rfl
  | cons r rs ih =>
    simp only [Handler.run,Handler.receive,hphase]
    exact ih

end receive

end CTalk
