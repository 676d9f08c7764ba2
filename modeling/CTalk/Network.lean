import CTalk.Crypto
import CTalk.Decimal

/-! network.c: sending and receiving on a stream socket, and the two halves of the key
exchange. The kernel's answers to send and recv are inputs of the model. -/

set_option autoImplicit false

namespace CTalk
open ByteStream

abbrev maxBufferSize : Nat := 1024

inductive SendResult where
  | error
  | accepted : Nat → SendResult
  deriving DecidableEq, Repr

inductive RecvResult where
  | error
  | closed
  | data : Chunk (maxBufferSize - 1) → RecvResult
  deriving DecidableEq, Repr

structure Sent where
  wire : List UInt8
  result : Except Fault Int
  deriving DecidableEq

def sendMessage (message : Buffer) : SendResult → Sent
  | .error => ⟨[],.error .exitFailure⟩
  | .accepted sent =>
    ⟨message.text.take sent,if sent < message.strlen then .error .exitFailure else .ok 1⟩

/-- The body that client.c and server.c share: the count of bytes accepted is kept in an
int and only compared with -1. -/
def sendUnchecked (message : Buffer) : SendResult → Sent
  | .error => ⟨[],.error .exitFailure⟩
  | .accepted sent =>
    ⟨message.text.take sent,
      if sent % 2 ^ 32 = 2 ^ 32 - 1 then .error .exitFailure else .ok 0⟩

def sendMessageClient (message : Buffer) (sent : SendResult) : Sent :=
  sendUnchecked message sent

def sendMessageServer (message : Buffer) (sent : SendResult) : Sent :=
  sendUnchecked message sent

def receiveMessage : RecvResult → Except Fault CharPtr
  | .error => .error .exitFailure
  | .closed => .ok none
  | .data chunk => .ok (some (Buffer.ofBytes chunk.bytes))

/-- recv where the peer's bytes are waiting and nothing follows them. -/
def recv (waiting : List UInt8) : RecvResult :=
  match Chunk.first (maxBufferSize - 1) waiting with
  | none => .closed
  | some chunk => .data chunk

def snprintfZu (size : Nat) (v : UInt64) : Buffer :=
  Buffer.ofBytes ((Decimal.text v.toNat).take (size - 1))

def isSpace (c : UInt8) : Bool := c == 32 || (9 ≤ c && c ≤ 13)

def scanSign : List UInt8 → Bool × List UInt8
  | 43 :: cs => (false,cs)
  | 45 :: cs => (true,cs)
  | cs => (false,cs)

/-- A number out of range becomes the largest value, and a minus sign negates in
unsigned arithmetic. -/
def strtoul (negative : Bool) (n : Nat) : UInt64 :=
  if 2 ^ 64 ≤ n then 0 - 1
  else if negative then 0 - UInt64.ofNat n
  else UInt64.ofNat n

/-- The value %zu stores; none where there is no digit and nothing is stored. -/
def sscanfZu (s : Buffer) : Option UInt64 :=
  let (negative,cs) := scanSign (s.text.dropWhile isSpace)
  let digits := cs.takeWhile Decimal.isDigit
  if digits = [] then none else some (strtoul negative (Decimal.value digits))

def bufferPublicKey (key : UInt64) : Buffer := snprintfZu 21 key

/-- The p and g of the caller are overwritten before they are read. -/
def sendPublicKey (_p _g secretKey : UInt64) (sent : SendResult) : Sent :=
  let (p,g) := publicParams
  match publicKey p g secretKey with
  | .error fault => ⟨[],.error fault⟩
  | .ok key => sendMessage (bufferPublicKey key) sent

def readPublicKey (received : RecvResult) : Except Fault UInt64 := do
  let text ← deref (← receiveMessage received)
  match sscanfZu text with
  | none => .error .uninitRead
  | some key => .ok key

/-- The arguments stand in the order of the source: the received key is passed where
privateKey expects the modulus. -/
def generatePrivateKey (received : RecvResult) (p secretKey : UInt64) :
    Except Fault UInt64 := do
  let publicKey ← readPublicKey received
  privateKey publicKey p secretKey

theorem recv_of_le {bs : List UInt8} (hne : bs ≠ []) (hle : bs.length ≤ maxBufferSize - 1) :
    recv bs = .data ⟨bs,hne,hle⟩ := by
  rw [recv,Chunk.first_of_le hne hle]

theorem recv_bytes (chunk : Chunk (maxBufferSize - 1)) : recv chunk.bytes = .data chunk :=
  recv_of_le chunk.nonempty chunk.le_cap

theorem text_length_uint64 (v : UInt64) : (Decimal.text v.toNat).length ≤ 20 := by
  apply Decimal.text_length_le (by decide)
  have hv := v.toNat_lt
  omega

theorem nulFree_of_isDigit {cs : List UInt8} (h : ∀ c ∈ cs, Decimal.isDigit c) :
    NulFree cs := by
  intro h0
  exact absurd (h 0 h0) (by decide)

theorem bufferPublicKey_text (v : UInt64) :
    (bufferPublicKey v).text = Decimal.text v.toNat := by
  have hlen := text_length_uint64 v
  rw [bufferPublicKey,snprintfZu,List.take_of_length_le (by omega)]
  exact Buffer.text_ofBytes_of_nulFree (nulFree_of_isDigit (Decimal.isDigit_of_mem_text _))

theorem isSpace_of_isDigit {c : UInt8} (h : Decimal.isDigit c) : isSpace c = false := by
  have hne : c ≠ 32 := Decimal.ne_of_isDigit h (by decide)
  simp only [Decimal.isDigit,Bool.and_eq_true,decide_eq_true_eq,UInt8.le_iff_toNat_le] at h
  have h48 : (48 : UInt8).toNat = 48 := rfl
  have h13 : (13 : UInt8).toNat = 13 := rfl
  simp only [isSpace,beq_eq_false_iff_ne.mpr hne,Bool.false_or,Bool.and_eq_false_iff,
    decide_eq_false_iff_not,UInt8.le_iff_toNat_le]
  omega

theorem scanSign_of_isDigit {c : UInt8} (h : Decimal.isDigit c) (cs : List UInt8) :
    scanSign (c :: cs) = (false,c :: cs) := by
  have hplus : c ≠ 43 := Decimal.ne_of_isDigit h (by decide)
  have hminus : c ≠ 45 := Decimal.ne_of_isDigit h (by decide)
  simp [scanSign,hplus,hminus]

theorem scan_of_digits {cs : List UInt8} (hd : ∀ c ∈ cs, Decimal.isDigit c) (hne : cs ≠ []) :
    scanSign (cs.dropWhile isSpace) = (false,cs) := by
  obtain ⟨c,rest,hcs⟩ := List.exists_cons_of_ne_nil hne
  have hc : Decimal.isDigit c := hd c (by simp [hcs])
  rw [hcs,List.dropWhile_cons_of_neg (by simp [isSpace_of_isDigit hc])]
  exact scanSign_of_isDigit hc rest

theorem sscanfZu_of_digits {s : Buffer} (hd : ∀ c ∈ s.text, Decimal.isDigit c)
    (hne : s.text ≠ []) : sscanfZu s = some (strtoul false (Decimal.value s.text)) := by
  have hall : s.text.takeWhile Decimal.isDigit = s.text := List.takeWhile_eq_self_iff.mpr hd
  simp [sscanfZu,scan_of_digits hd hne,hall,hne]

theorem strtoul_toNat (v : UInt64) : strtoul false v.toNat = v := by
  have hv := v.toNat_lt
  have hn : ¬ 2 ^ 64 ≤ v.toNat := by omega
  rw [strtoul,if_neg hn]
  simp

theorem readPublicKey_data (chunk : Chunk (maxBufferSize - 1)) :
    readPublicKey (.data chunk) =
      match sscanfZu (Buffer.ofBytes chunk.bytes) with
      | none => .error .uninitRead
      | some key => .ok key := rfl

theorem readPublicKey_recv_text (v : UInt64) :
    readPublicKey (recv (Decimal.text v.toNat)) = .ok v := by
  have hlen := text_length_uint64 v
  have hne := Decimal.text_ne_nil v.toNat
  have hd := Decimal.isDigit_of_mem_text v.toNat
  have htext := Buffer.text_ofBytes_of_nulFree (nulFree_of_isDigit hd)
  rw [recv_of_le hne (by simp only [maxBufferSize]; omega),readPublicKey_data]
  rw [sscanfZu_of_digits (by rwa [htext]) (by rwa [htext]),htext,Decimal.value_text,
    strtoul_toNat]

theorem generatePrivateKey_recv_text (v p secretKey : UInt64) :
    generatePrivateKey (recv (Decimal.text v.toNat)) p secretKey =
      modExp p secretKey v := by
  rw [generatePrivateKey,readPublicKey_recv_text]
  rfl

theorem sendMessage_ok_iff {message : Buffer} (hne : message.text ≠ []) (sent : SendResult) :
    (sendMessage message sent).result = .ok 1 ↔
      (sendMessage message sent).wire = message.text := by
  cases sent with
  | error => simp [sendMessage,hne.symm]
  | accepted n =>
    rw [sendMessage,List.take_eq_self_iff,Buffer.strlen]
    by_cases hn : n < message.text.length
    · simp [hn]
    · simp [hn,Nat.le_of_not_lt hn]

theorem public_key_text_codec (v : UInt64) :
    (bufferPublicKey v).text = Decimal.text v.toNat ∧
    (Decimal.text v.toNat).length < 21 ∧
    (∀ sent, (sendMessage (bufferPublicKey v) sent).result = .ok 1 ↔
      (sendMessage (bufferPublicKey v) sent).wire = Decimal.text v.toNat) ∧
    sendMessage (bufferPublicKey v) (.accepted (bufferPublicKey v).strlen) =
      ⟨Decimal.text v.toNat,.ok 1⟩ ∧
    readPublicKey (recv (Decimal.text v.toNat)) = .ok v ∧
    (∀ p secretKey, generatePrivateKey (recv (Decimal.text v.toNat)) p secretKey =
      privateKey v p secretKey) ∧
    ∀ w, (bufferPublicKey w).text = (bufferPublicKey v).text ↔ w = v := by
  have htext := bufferPublicKey_text v
  have hlen := text_length_uint64 v
  have hne : (bufferPublicKey v).text ≠ [] := by
    rw [htext]
    exact Decimal.text_ne_nil v.toNat
  refine ⟨htext,by omega,?_,?_,readPublicKey_recv_text v,generatePrivateKey_recv_text v,?_⟩
  · intro sent
    rw [sendMessage_ok_iff hne sent,htext]
  · simp [sendMessage,Buffer.strlen,htext]
  · intro w
    rw [bufferPublicKey_text w,htext]
    constructor
    · intro h
      exact UInt64.toNat_inj.mp (Decimal.text_injective h)
    · intro h
      rw [h]

end CTalk
