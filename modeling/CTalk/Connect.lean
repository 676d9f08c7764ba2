import CTalk.Ipv4
import CTalk.Network

/-! The connection form of ui.c: from the two texts the user typed to the endpoint that
initialize_client of client.c connects to. -/

set_option autoImplicit false

namespace CTalk
open ByteStream

structure Endpoint where
  address : Ipv4.Address
  port : UInt16
  deriving DecidableEq, Repr

/-- What the call finds and is answered: the content of the uninitialised port_, the value
%d stores for a number that is no int, and the results of socket, connect and send. -/
structure Surroundings where
  stale : Int
  overflow : Int → Int
  opened : Bool
  connected : Bool
  sent : SendResult

/-- The value %d stores; none where there is no digit and nothing is stored. -/
def sscanfD (overflow : Int → Int) (s : Buffer) : Option Int :=
  let (negative,cs) := scanSign (s.text.dropWhile isSpace)
  let digits := cs.takeWhile Decimal.isDigit
  if digits = [] then none
  else
    let n : Int := if negative then -Decimal.value digits else Decimal.value digits
    some (if -2 ^ 31 ≤ n ∧ n < 2 ^ 31 then n else overflow n)

def toUint16 (n : Int) : UInt16 := UInt16.ofNat (n % 2 ^ 16).toNat

def strncpy (s : Buffer) (n : Nat) : Buffer := Buffer.ofBytes (s.text.take n)

structure Dialed where
  endpoint : Option Endpoint
  result : Except Fault Unit

def initializeClient (surroundings : Surroundings) (port : UInt16)
    (connectionHost : Buffer) : Dialed :=
  if surroundings.opened then
    match Ipv4.parse connectionHost.text with
    | none => ⟨none,.error .exitFailure⟩
    | some address =>
      ⟨some ⟨address,port⟩,if surroundings.connected then .ok () else .error .exitFailure⟩
  else ⟨none,.error .exitFailure⟩

structure Clicked where
  endpoint : Option Endpoint
  sent : Option Sent

/-- The texts the form shows are left out. -/
def onGetInputClicked (surroundings : Surroundings) (ip port : CharPtr) : Clicked :=
  match ip,port with
  | some ip,some port =>
    if 0 < ip.strlen ∧ 0 < port.strlen then
      let port_ := (sscanfD surroundings.overflow port).getD surroundings.stale
      let ip_ := strncpy ip 15
      let dialed := initializeClient surroundings (toUint16 port_) ip_
      match dialed.result with
      | .error fault => ⟨dialed.endpoint,some ⟨[],.error fault⟩⟩
      | .ok _ =>
        let (p,g) := publicParams
        ⟨dialed.endpoint,some (sendPublicKey p g privateParams surroundings.sent)⟩
    else ⟨none,none⟩
  | _,_ => ⟨none,none⟩

/-- The whole ip text is the dotted quad of the address, and the whole port text a decimal
number that is the port. -/
structure Denotes (ip port : List UInt8) (e : Endpoint) : Prop where
  address : ip = e.address.text
  digits : ∀ c ∈ port, Decimal.isDigit c
  value : Decimal.value port = e.port.toNat
  positive : 0 < e.port.toNat

/-- Whatever else the call meets, connect is called with an endpoint exactly where the
socket was opened and the two texts denote it. -/
def ConnectsWhereSaid (ip port : Buffer) : Prop :=
  ∀ surroundings e, (onGetInputClicked surroundings (some ip) (some port)).endpoint = some e ↔
    surroundings.opened ∧ Denotes ip.text port.text e

section form
variable {ip port : Buffer}

theorem strncpy_text (s : Buffer) (n : Nat) : (strncpy s n).text = s.text.take n :=
  Buffer.text_ofBytes_of_nulFree (fun h => s.nulFree_text (List.mem_of_mem_take h))

theorem initializeClient_endpoint (surroundings : Surroundings) (port : UInt16)
    (connectionHost : Buffer) :
    (initializeClient surroundings port connectionHost).endpoint =
      if surroundings.opened then
        (Ipv4.parse connectionHost.text).map (fun address => ⟨address,port⟩)
      else none := by
  rw [initializeClient]
  cases surroundings.opened with
  | false => rfl
  | true => cases Ipv4.parse connectionHost.text <;> rfl

theorem onGetInputClicked_endpoint (hip : ip.text ≠ []) (hport : port.text ≠ [])
    (surroundings : Surroundings) :
    (onGetInputClicked surroundings (some ip) (some port)).endpoint =
      if surroundings.opened then
        (Ipv4.parse (ip.text.take 15)).map (fun address => ⟨address,toUint16
          ((sscanfD surroundings.overflow port).getD surroundings.stale)⟩)
      else none := by
  have hlen : 0 < ip.strlen ∧ 0 < port.strlen :=
    ⟨List.length_pos_iff.mpr hip,List.length_pos_iff.mpr hport⟩
  rw [← strncpy_text,← initializeClient_endpoint]
  simp only [onGetInputClicked,if_pos hlen]
  split <;> rfl

theorem sscanfD_of_digits {s : Buffer} (overflow : Int → Int)
    (hd : ∀ c ∈ s.text, Decimal.isDigit c) (hne : s.text ≠ [])
    (hint : Decimal.value s.text < 2 ^ 31) :
    sscanfD overflow s = some (Decimal.value s.text : Int) := by
  have hall : s.text.takeWhile Decimal.isDigit = s.text := List.takeWhile_eq_self_iff.mpr hd
  have hrange : -2 ^ 31 ≤ (Decimal.value s.text : Int) ∧
      (Decimal.value s.text : Int) < 2 ^ 31 := by omega
  simp only [sscanfD,scan_of_digits hd hne,hall,if_neg hne,Bool.false_eq_true,if_false,
    if_pos hrange]

theorem toUint16_toNat (port : UInt16) : toUint16 port.toNat = port := by
  have hlt := port.toNat_lt
  have hmod : ((port.toNat : Int) % 2 ^ 16).toNat = port.toNat := by omega
  rw [toUint16,hmod,UInt16.ofNat_toNat]

theorem Denotes.parse {e : Endpoint} (h : Denotes ip.text port.text e) :
    Ipv4.parse (ip.text.take 15) = some e.address := by
  have hlen : ip.text.length ≤ 15 := by
    rw [h.address]
    exact e.address.text_length_le
  rw [List.take_of_length_le hlen,h.address,Ipv4.parse_text]

theorem Denotes.port_eq {e : Endpoint} (h : Denotes ip.text port.text e)
    (hport : port.text ≠ []) (surroundings : Surroundings) :
    toUint16 ((sscanfD surroundings.overflow port).getD surroundings.stale) = e.port := by
  have hlt := e.port.toNat_lt
  have hint : Decimal.value port.text < 2 ^ 31 := by
    rw [h.value]
    omega
  rw [sscanfD_of_digits _ h.digits hport hint,Option.getD_some,h.value,toUint16_toNat]

theorem Denotes.unique {e e' : Endpoint} (h : Denotes ip.text port.text e)
    (h' : Denotes ip.text port.text e') : e = e' := by
  have haddress : e.address = e'.address :=
    Option.some.inj (h.parse.symm.trans h'.parse)
  have hport : e.port = e'.port :=
    UInt16.toNat_inj.mp (h.value.symm.trans h'.value)
  cases e
  cases e'
  simp only at haddress hport
  rw [haddress,hport]

end form

/-- The client connects where the user said exactly for the pairs that denote an endpoint
and for those whose first 15 bytes of the ip text are no dotted quad. -/
theorem connects_where_said_iff (ip port : Buffer) (hip : ip.text ≠ [])
    (hport : port.text ≠ []) :
    ConnectsWhereSaid ip port ↔
      (∃ e, Denotes ip.text port.text e) ∨
        ∀ address : Ipv4.Address, ip.text.take 15 ≠ address.text := by
  rw [← Ipv4.parse_eq_none_iff]
  constructor
  · intro hsaid
    cases hparse : Ipv4.parse (ip.text.take 15) with
    | none => exact .inr rfl
    | some address =>
      left
      let surroundings : Surroundings := ⟨0,id,true,true,.error⟩
      have hendpoint := onGetInputClicked_endpoint hip hport surroundings
      rw [hparse] at hendpoint
      exact ⟨_,((hsaid surroundings _).mp hendpoint).2⟩
  · intro hcond surroundings e
    rw [onGetInputClicked_endpoint hip hport]
    rcases hcond with ⟨e',hdenotes⟩ | hnone
    · rw [hdenotes.parse,hdenotes.port_eq hport]
      cases surroundings.opened with
      | false => simp
      | true =>
        simp only [if_true,Option.map_some,Option.some.injEq,true_and]
        constructor
        · intro heq
          exact heq ▸ hdenotes
        · intro h
          exact hdenotes.unique h
    · rw [hnone]
      refine iff_of_false (by simp) ?_
      intro h
      have hparse := h.2.parse
      rw [hnone] at hparse
      cases hparse

def localhost : Ipv4.Address := ⟨127,0,0,1⟩

theorem connects_where_said_iff_localhost :
    ConnectsWhereSaid (Buffer.ofBytes [49,50,55,46,48,46,48,46,49]) (Buffer.ofBytes [56,48]) :=
  (connects_where_said_iff _ _ (by decide) (by decide)).mpr
    (.inl ⟨⟨localhost,80⟩,by decide +kernel,List.all_eq_true.mp rfl,by decide,by decide⟩)

/-- The port text 80x connects to port 80. -/
theorem malformed_port_connects :
    ¬ ∀ ip port : Buffer, ip.text ≠ [] → port.text ≠ [] → ConnectsWhereSaid ip port := by
  intro h
  have hsaid := h (Buffer.ofBytes [49,50,55,46,48,46,48,46,49]) (Buffer.ofBytes [56,48,120])
    (by decide) (by decide) ⟨0,id,true,true,.error⟩ ⟨localhost,80⟩
  have hdenotes := (hsaid.mp (by decide +kernel)).2
  exact absurd (hdenotes.digits 120 (by decide)) (by decide)

end CTalk
