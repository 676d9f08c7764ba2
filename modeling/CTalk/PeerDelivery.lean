import CTalk.PeerServer
import CTalk.Reception

/-! ui.c: two peers, each a server and a client. What the handlers of one of them were told
over a connection, against what the other one sent over it. -/

set_option autoImplicit false

namespace CTalk
open ByteStream Transition

theorem Peer.eq_or_other (x y : Peer) : y = x ∨ y = x.other := by
  cases x <;> cases y <;> simp [Peer.other]

@[simp] theorem Peer.other_other (x : Peer) : x.other.other = x := by
  cases x <;> rfl

/-- The part of a message that goes out: encrypt's string ends at its first NUL, and the
kernel takes n bytes of it. -/
def transmitted (key : UInt64) (m : List UInt8) (n : Nat) : List UInt8 :=
  (m.take (firstKeyByte key m)).take n

def Parcel.text (p : Parcel) : Option (List UInt8) :=
  p.key.map (fun key => decodedText key p.bytes)

/-- What a handler took for messages: the ones it printed, and the /exit that ended it. -/
def Handler.told (h : Handler) : List (List UInt8) :=
  h.printed ++ if h.phase = .finished then [exitText] else []

def Connection.traffic (c : Connection) : List (List UInt8) :=
  c.handler.told ++ c.inFlight.filterMap Parcel.text

def Node.traffic (n : Node) (i : Nat) : List (List UInt8) :=
  match n.connections[i]? with
  | none => []
  | some c => c.traffic

def sentTo (x : Peer) (i : Nat) (w : World) : PeerAction → List (List UInt8)
  | .send y plaintext (.accepted n) =>
    if y = x ∧ (w y).socket = some i then
      [transmitted (w y).globals.privateKey plaintext.text n].filter (· ≠ [])
    else []
  | _ => []

/-- A peer transmits only after a handler of its own has completed a key exchange, and no
more than one recv returns; and every recv returns the bytes of one send. -/
def Carried (w : World) (a : PeerAction) : Prop :=
  SenderKeyed w a ∧ match a with
    | .send x plaintext (.accepted n) =>
      (transmitted (w x).globals.privateKey plaintext.text n).length ≤ maxBufferSize - 1
    | .receive x i count => ∀ c ∈ (w x).connections[i]?, ∀ parcel ∈ c.inFlight.head?,
        count = parcel.bytes.length
    | _ => True

instance (w : World) : (a : PeerAction) → Decidable (Carried w a)
  | .start x => inferInstanceAs (Decidable (SenderKeyed w (.start x) ∧ True))
  | .connect x => inferInstanceAs (Decidable (SenderKeyed w (.connect x) ∧ True))
  | .receive x i count => inferInstanceAs (Decidable (SenderKeyed w (.receive x i count) ∧
      ∀ c ∈ (w x).connections[i]?, ∀ parcel ∈ c.inFlight.head?,
        count = parcel.bytes.length))
  | .send x plaintext .error =>
    inferInstanceAs (Decidable (SenderKeyed w (.send x plaintext .error) ∧ True))
  | .send x plaintext (.accepted n) =>
    inferInstanceAs (Decidable (SenderKeyed w (.send x plaintext (.accepted n)) ∧
      (transmitted (w x).globals.privateKey plaintext.text n).length ≤ maxBufferSize - 1))

theorem keyAlone_of_carried {w : World} {a : PeerAction} (h : Carried w a) : KeyAlone w a := by
  cases a with
  | start x => trivial
  | connect x => trivial
  | send x plaintext sent => trivial
  | receive x i count => exact fun c hc _ => h.2 c hc

theorem xorKey_eq_nil {key : UInt64} {m : List UInt8} : xorKey key m = [] ↔ m = [] := by
  rw [← List.length_eq_zero_iff,xorKey_length,List.length_eq_zero_iff]

theorem wire_transmitted {key : UInt64} {plaintext : Buffer} {n : Nat} {s : Sent}
    (hs : sendMessage_ key plaintext (.accepted n) = some s) :
    s.wire = xorKey key (transmitted key plaintext.text n) := by
  unfold sendMessage_ at hs
  split at hs
  · cases hs
  · cases hs
    simp only [encryptAndSend,encrypt_some,sendMessageClient,sendUnchecked,transmitted]
    rw [text_ofBytes_xorKey,xorKey_take]

theorem sendable_transmitted {key : UInt64} {plaintext : Buffer} {n : Nat}
    (hne : transmitted key plaintext.text n ≠ [])
    (hfits : (transmitted key plaintext.text n).length ≤ maxBufferSize - 1) :
    Sendable key (transmitted key plaintext.text n) where
  nonempty := hne
  nulFree := fun hmem =>
    plaintext.nulFree_text (List.mem_of_mem_take (List.mem_of_mem_take hmem))
  fits := hfits
  cipher := by
    rw [transmitted,← xorKey_take]
    exact fun hmem => nulFree_wire key plaintext.text (List.mem_of_mem_take hmem)

def Parcel.Clean (p : Parcel) : Prop :=
  ∀ key, p.key = some key → ∃ m, Sendable key m ∧ p.bytes = xorKey key m

theorem Parcel.text_of_sendable {key : UInt64} {m : List UInt8} (h : Sendable key m) :
    (⟨xorKey key m,some key⟩ : Parcel).text = some m := by
  rw [Parcel.text,Option.map_some,decodedText_xorKey h.nulFree h.cipher]

theorem Parcel.clean_of_sendable {key : UInt64} {m : List UInt8} (h : Sendable key m) :
    Parcel.Clean ⟨xorKey key m,some key⟩ := by
  intro key' hkey
  cases hkey
  exact ⟨m,h,rfl⟩

def Node.Clean (n : Node) : Prop := ∀ c ∈ n.connections, ∀ p ∈ c.inFlight, p.Clean

section set
variable {n : Node} {j : Nat} {c d : Connection}

theorem traffic_set (hj : n.connections[j]? = some c) {more : List (List UInt8)}
    (hd : d.traffic = c.traffic ++ more) (i : Nat) :
    Node.traffic { n with connections := n.connections.set j d } i =
      n.traffic i ++ if i = j then more else [] := by
  obtain ⟨hlt,_⟩ := List.getElem?_eq_some_iff.mp hj
  by_cases hij : i = j
  · subst hij
    simp only [Node.traffic,List.getElem?_set_self hlt,hj,if_true]
    exact hd
  · simp only [Node.traffic,List.getElem?_set_ne (Ne.symm hij),if_neg hij,List.append_nil]

theorem clean_set (hn : n.Clean) (hd : ∀ p ∈ d.inFlight, p.Clean) :
    Node.Clean { n with connections := n.connections.set j d } := by
  intro x hx
  rcases List.mem_or_eq_of_mem_set hx with hx | hx
  · exact hn x hx
  · exact hx ▸ hd

end set

theorem traffic_accept (n : Node) (i : Nat) : n.accept.traffic i = n.traffic i := by
  rcases Nat.lt_trichotomy i n.connections.length with hlt | heq | hgt
  · simp only [Node.traffic,Node.accept,List.getElem?_append_left hlt]
  · subst heq
    simp [Node.traffic,Node.accept,Connection.traffic,Handler.told,Handler.start,Parcel.text]
  · have hlen : (n.accept).connections.length ≤ i := by
      simp only [Node.accept,List.length_append,List.length_singleton]
      omega
    simp only [Node.traffic]
    rw [List.getElem?_eq_none hlen,List.getElem?_eq_none (Nat.le_of_lt hgt)]

theorem clean_accept {n : Node} (h : n.Clean) : n.accept.Clean := by
  intro c hc
  rcases List.mem_append.mp hc with hc | hc
  · exact h c hc
  · rw [List.mem_singleton.mp hc]
    intro p hp key hkey
    rw [List.mem_singleton.mp hp] at hkey
    cases hkey

theorem traffic_enqueue {n : Node} {j : Nat} (hj : j < n.connections.length) {p : Parcel}
    {m : List UInt8} (hp : p.text = some m) (i : Nat) :
    (n.enqueue j p).traffic i = n.traffic i ++ if i = j then [m] else [] := by
  have hget : n.connections[j]? = some n.connections[j] := List.getElem?_eq_getElem hj
  simp only [Node.enqueue,hget]
  apply traffic_set hget
  simp [Connection.traffic,hp]

theorem clean_enqueue {n : Node} (h : n.Clean) (j : Nat) {p : Parcel} (hp : p.Clean) :
    (n.enqueue j p).Clean := by
  unfold Node.enqueue
  split
  · exact h
  · rename_i c hj
    apply clean_set h
    intro q hq
    rcases List.mem_append.mp hq with hq | hq
    · exact h c (List.mem_of_getElem? hj) q hq
    · rw [List.mem_singleton.mp hq]
      exact hp

theorem told_receive {h h' : Handler} {g g' : Globals} {m : List UInt8}
    (hphase : h.phase = .receiving) (hm : Sendable g.privateKey m)
    (hreceive : h.receive g (recv (xorKey g.privateKey m)) = .ok (g',h')) :
    h'.told = h.told ++ [m] := by
  obtain ⟨chunk,hrecv,htext⟩ := hm.recv
  rw [hrecv] at hreceive
  by_cases hexit : m = exitText
  · rw [receive_exit g hphase chunk (htext.trans hexit)] at hreceive
    cases hpool : removeFromPool g.pool h.self with
    | error fault =>
      rw [hpool] at hreceive
      cases hreceive
    | ok pool =>
      rw [hpool] at hreceive
      cases hreceive
      simp [Handler.told,hphase,hexit]
  · rw [receive_message g hphase chunk (by rw [htext]; exact hexit)] at hreceive
    cases hreceive
    simp [Handler.told,hphase,htext]

/-- What lies in front of a live handler: the public key, or a message under the key that
the process holds. -/
inductive Waiting (n : Node) (c : Connection) : Parcel → Prop
  | key : c.handler.phase = .keyExchange → Waiting n c ⟨publicKeyWire,none⟩
  | message {m} : c.handler.phase = .receiving → Sendable n.globals.privateKey m →
      Waiting n c ⟨xorKey n.globals.privateKey m,some n.globals.privateKey⟩

theorem waiting_head {n : Node} (hn : NodeOk n) (hclean : n.Clean) {c : Connection}
    {parcel : Parcel} {later : List Parcel} (hc : c ∈ n.connections)
    (hfl : c.inFlight = parcel :: later) (hlive : c.handler.phase ≠ .finished) :
    Waiting n c parcel := by
  cases hphase : c.handler.phase with
  | keyExchange =>
    obtain ⟨_,rest,hhead,_⟩ := (hn.connections c hc).exchange hphase
    rw [hfl] at hhead
    cases hhead
    exact .key hphase
  | receiving =>
    obtain ⟨hsome,hkeys⟩ := (hn.connections c hc).keyed (by simp [hphase])
    have hkey : parcel.key = some n.globals.privateKey := by
      rw [hn.keyed ⟨c,hc,hsome⟩]
      exact hkeys parcel (by simp [hfl])
    obtain ⟨m,hm,hbytes⟩ := hclean c hc parcel (by simp [hfl]) _ hkey
    have hparcel : parcel = ⟨xorKey n.globals.privateKey m,some n.globals.privateKey⟩ := by
      rw [← hbytes,← hkey]
    rw [hparcel]
    exact .message hphase hm
  | finished => exact absurd hphase hlive

section waiting
variable {n : Node} {c : Connection} {parcel : Parcel}

theorem length_of_waiting (h : Waiting n c parcel) :
    parcel.bytes.length ≠ 0 ∧ parcel.bytes.length ≤ maxBufferSize - 1 := by
  cases h with
  | key => decide +kernel
  | message _ hm =>
    rw [xorKey_length]
    exact ⟨fun hnil => hm.nonempty (List.eq_nil_of_length_eq_zero hnil),hm.fits⟩

theorem told_of_waiting (h : Waiting n c parcel) {g : Globals} {handler : Handler}
    (hreceive : c.handler.receive n.globals (recv parcel.bytes) = .ok (g,handler)) :
    handler.told = c.handler.told ++ parcel.text.toList := by
  cases h with
  | key hphase =>
    rw [receive_keyExchange n.globals hphase,generatePrivateKey_publicKeyWire] at hreceive
    cases hreceive
    simp [Handler.told,hphase,Parcel.text]
  | message hphase hm =>
    rw [told_receive hphase hm hreceive,Parcel.text_of_sendable hm]
    rfl

theorem receive_of_waiting (h : Waiting n c parcel) (hsize : n.globals.pool.size = 0) :
    ∃ g handler, c.handler.receive n.globals (recv parcel.bytes) = .ok (g,handler) := by
  cases h with
  | key hphase =>
    rw [receive_keyExchange n.globals hphase,generatePrivateKey_publicKeyWire]
    exact ⟨_,_,rfl⟩
  | message hphase hm =>
    obtain ⟨chunk,hrecv,_⟩ := hm.recv
    exact (receive_ok_iff hsize (by simp [hphase])).mpr ⟨chunk,hrecv,by simp [hphase]⟩

end waiting

theorem receive_one {n m : Node} {j count : Nat}
    (hone : ∀ c ∈ n.connections[j]?, ∀ parcel ∈ c.inFlight.head?, count = parcel.bytes.length)
    (hm : n.receive j count = some m) :
    ∃ c parcel later, n.connections[j]? = some c ∧ c.inFlight = parcel :: later ∧
      c.handler.phase ≠ .finished ∧
      (m = { n with exited := true } ∨
        ∃ g h, c.handler.receive n.globals (recv parcel.bytes) = .ok (g,h) ∧
          m = { n with
            globals := g
            connections := n.connections.set j ⟨h,later⟩
            received := n.received ++ c.handler.decrypts n.globals.privateKey [parcel] }) := by
  obtain ⟨c,hj,hlive,hpos,_,hthere,hcases⟩ := receive_inv hm
  cases hfl : c.inFlight with
  | nil =>
    rw [hfl] at hthere
    exact absurd (Nat.le_zero.mp hthere) hpos
  | cons parcel later =>
    have hcount := hone c hj parcel (by rw [hfl]; rfl)
    have hbytes : bytesOf [parcel] = parcel.bytes := by simp [bytesOf]
    rw [hfl,cutParcels_head hpos hcount later,hbytes] at hcases
    exact ⟨c,parcel,later,hj,hfl,hlive,hcases⟩

theorem traffic_receive {n m : Node} (hn : NodeOk n) (hclean : n.Clean) {j count : Nat}
    (hone : ∀ c ∈ n.connections[j]?, ∀ parcel ∈ c.inFlight.head?, count = parcel.bytes.length)
    (hm : n.receive j count = some m) : m.Clean ∧ ∀ i, m.traffic i = n.traffic i := by
  obtain ⟨c,parcel,later,hj,hfl,hlive,hcases⟩ := receive_one hone hm
  have hmem : c ∈ n.connections := List.mem_of_getElem? hj
  rcases hcases with hexit | hreceived
  · rw [hexit]
    exact ⟨hclean,fun _ => rfl⟩
  · obtain ⟨g,h,hreceive,hm⟩ := hreceived
    have hwaiting := waiting_head hn hclean hmem hfl hlive
    have hkept : (⟨h,later⟩ : Connection).traffic = c.traffic ++ [] := by
      rw [List.append_nil,Connection.traffic,told_of_waiting hwaiting hreceive,
        Connection.traffic,hfl,List.filterMap_cons]
      cases parcel.text <;> simp
    rw [hm]
    refine ⟨clean_set hclean (fun p hp => hclean c hmem p (by simp [hfl,hp])),?_⟩
    intro i
    have hset := traffic_set hj hkept i
    rwa [ite_self,List.append_nil] at hset

/-- Everything that the handlers of the other peer were told over connection i and what is
still under way on it, after x sent before over it. -/
structure Carrying (x : Peer) (i : Nat) (before : List (List UInt8)) (w : World) : Prop where
  ok : WorldOk w
  sockets : ∀ y j, (w y).socket = some j → j < (w y.other).connections.length
  clean : ∀ y, (w y).Clean
  traffic : (w x.other).traffic i = before

theorem carrying_initial (fresh : Nat → Option Thread) (x : Peer) (i : Nat) :
    Carrying x i [] (World.initial fresh) where
  ok := worldOk_initial fresh
  sockets := nofun
  clean := nofun
  traffic := rfl

structure Continues (old new : Node) : Prop where
  clean : new.Clean
  length : old.connections.length ≤ new.connections.length

theorem continues_congr {old new : Node} (h : old.Clean) (hc : new.connections = old.connections) :
    Continues old new where
  clean := by
    intro c hmem
    rw [hc] at hmem
    exact h c hmem
  length := by rw [hc]

theorem continues_accept {n : Node} (h : n.Clean) : Continues n n.accept where
  clean := clean_accept h
  length := by
    rw [Node.accept,List.length_append]
    exact Nat.le_add_right _ _

theorem continues_enqueue {n : Node} (h : n.Clean) (j : Nat) {p : Parcel} (hp : p.Clean) :
    Continues n (n.enqueue j p) where
  clean := clean_enqueue h j hp
  length := by
    unfold Node.enqueue
    split
    · exact Nat.le_refl _
    · rw [List.length_set]

theorem continues_receive {n m : Node} {j count : Nat} (hclean : m.Clean)
    (hm : n.receive j count = some m) : Continues n m where
  clean := hclean
  length := by
    obtain ⟨_,_,_,_,_,_,hcases⟩ := receive_inv hm
    rcases hcases with hexit | hreceived
    · rw [hexit]
    · obtain ⟨_,_,_,hm⟩ := hreceived
      rw [hm,List.length_set]

theorem socket_receive {n m : Node} {j count : Nat} (hm : n.receive j count = some m) :
    m.socket = n.socket := by
  obtain ⟨_,_,_,_,_,_,hcases⟩ := receive_inv hm
  rcases hcases with hexit | hreceived
  · rw [hexit]
  · obtain ⟨_,_,_,hm⟩ := hreceived
    rw [hm]

section step
variable {x : Peer} {i : Nat} {before : List (List UInt8)} {w t : World}

theorem Carrying.pair (h : Carrying x i before w) (y : Peer) {n m : Node}
    {more : List (List UInt8)} (ht : t = Function.update (Function.update w y.other m) y n)
    (hok : WorldOk t) (hn : Continues (w y) n) (hm : Continues (w y.other) m)
    (hself : ∀ k, n.traffic k = (w y).traffic k)
    (hother : y = x → m.traffic i = (w y.other).traffic i ++ more)
    (hmore : y ≠ x → more = []) (hsocket : ∀ j, n.socket = some j → j < m.connections.length)
    (hsame : m.socket = (w y.other).socket) : Carrying x i (before ++ more) t := by
  have hy : t y = n := by rw [ht,Function.update_self]
  have hyo : t y.other = m := by
    rw [ht,Function.update_of_ne (Ne.symm y.ne_other),Function.update_self]
  refine ⟨hok,?_,?_,?_⟩
  · intro z j hj
    rcases y.eq_or_other z with hz | hz
    · subst hz
      rw [hy] at hj
      rw [hyo]
      exact hsocket j hj
    · subst hz
      rw [hyo,hsame] at hj
      have hlt := h.sockets y.other j hj
      rw [Peer.other_other] at hlt ⊢
      rw [hy]
      exact Nat.lt_of_lt_of_le hlt hn.length
  · intro z
    rcases y.eq_or_other z with hz | hz
    · rw [hz,hy]
      exact hn.clean
    · rw [hz,hyo]
      exact hm.clean
  · rcases y.eq_or_other x with hx | hx
    · subst hx
      rw [hyo,hother rfl,h.traffic]
    · rw [hmore (by rw [hx]; exact y.ne_other),List.append_nil,← h.traffic,hx,
        Peer.other_other,hy,hself]

theorem Carrying.alone (h : Carrying x i before w) (y : Peer) {n : Node}
    (ht : t = Function.update w y n) (hok : WorldOk t) (hn : Continues (w y) n)
    (hself : ∀ k, n.traffic k = (w y).traffic k) (hsocket : n.socket = (w y).socket) :
    Carrying x i (before ++ []) t := by
  refine h.pair (m := w y.other) y ?_ hok hn (continues_congr (h.clean y.other) rfl) hself ?_
    (fun _ => rfl) ?_ rfl
  · rw [Function.update_eq_self,ht]
  · intro _
    rw [List.append_nil]
  · intro j hj
    exact h.sockets y j (hsocket.symm.trans hj)

theorem Carrying.sent (h : Carrying x i before w) {y : Peer} {plaintext : Buffer} {n j : Nat}
    {s : Sent} (hs : sendMessage_ (w y).globals.privateKey plaintext (.accepted n) = some s)
    (hfits : (transmitted (w y).globals.privateKey plaintext.text n).length ≤ maxBufferSize - 1)
    (hsocket : (w y).socket = some j)
    (ht : t = Function.update (if s.wire = [] then w else Function.update w y.other
      ((w y.other).enqueue j ⟨s.wire,some (w y).globals.privateKey⟩)) y ((w y).sending s))
    (hok : WorldOk t) :
    Carrying x i (before ++ sentTo x i w (.send y plaintext (.accepted n))) t := by
  have hwire := wire_transmitted hs
  have hself : Continues (w y) ((w y).sending s) := continues_congr (h.clean y) rfl
  by_cases hnil : transmitted (w y).globals.privateKey plaintext.text n = []
  · rw [if_pos (hwire.trans (xorKey_eq_nil.mpr hnil))] at ht
    have hnone : sentTo x i w (.send y plaintext (.accepted n)) = [] := by
      simp [sentTo,hnil]
    rw [hnone]
    exact h.alone y ht hok hself (fun _ => rfl) rfl
  · have hsendable := sendable_transmitted hnil hfits
    have hclean := Parcel.clean_of_sendable hsendable
    have hother := continues_enqueue (h.clean y.other) j hclean
    have hlt : j < (w y.other).connections.length := h.sockets y j hsocket
    rw [if_neg (fun hw => hnil (xorKey_eq_nil.mp (hwire.symm.trans hw))),hwire] at ht
    refine h.pair y ht hok hself hother (fun _ => rfl) ?_ ?_ ?_ ?_
    · intro hyx
      subst hyx
      rw [traffic_enqueue hlt (Parcel.text_of_sendable hsendable)]
      simp only [sentTo,hsocket,true_and,Option.some.injEq,eq_comm (a := i)]
      by_cases hij : j = i
      · simp [hij,hnil]
      · simp [hij]
    · intro hyx
      simp [sentTo,hyx]
    · intro k hk
      cases hsocket.symm.trans hk
      exact Nat.lt_of_lt_of_le hlt hother.length
    · unfold Node.enqueue
      split <;> rfl

theorem sentTo_empty {y : Peer} {plaintext : Buffer} (htext : plaintext.text = [])
    (sent : SendResult) : sentTo x i w (.send y plaintext sent) = [] := by
  cases sent with
  | error => rfl
  | accepted n => simp [sentTo,transmitted,htext]

theorem sentTo_unconnected {y : Peer} (hsocket : (w y).socket = none) (plaintext : Buffer)
    (sent : SendResult) : sentTo x i w (.send y plaintext sent) = [] := by
  cases sent with
  | error => rfl
  | accepted n => simp [sentTo,hsocket]

end step

theorem carrying_step {x : Peer} {i : Nat} (before : List (List UInt8)) (w : World)
    (a : PeerAction) (t : World) (h : Carrying x i before w) (hc : Carried w a)
    (hstep : w.step a = some t) : Carrying x i (before ++ sentTo x i w a) t := by
  have hok := worldOk_step w a t h.ok (keyAlone_of_carried hc) hc.1 hstep
  cases a with
  | start y =>
    exact h.alone y (step_start hstep) hok (continues_congr (h.clean y) rfl) (fun _ => rfl) rfl
  | connect y =>
    rcases step_connect hstep with hconnected | hrefused
    · refine h.pair y hconnected hok (continues_congr (h.clean y) rfl) (continues_accept (h.clean y.other))
        (fun _ => rfl) ?_ (fun _ => rfl) ?_ rfl
      · intro _
        have hnone : sentTo x i w (.connect y) = [] := rfl
        rw [traffic_accept,hnone,List.append_nil]
      · intro j hj
        cases hj
        simp [Node.accept]
    · exact h.alone y hrefused hok (continues_congr (h.clean y) rfl) (fun _ => rfl) rfl
  | send y plaintext sent =>
    rcases step_send hstep with hempty | hunconnected | htransmit
    · rw [sentTo_empty hempty.1,List.append_nil,hempty.2]
      exact h
    · rw [sentTo_unconnected hunconnected.1]
      exact h.alone y hunconnected.2 hok (continues_congr (h.clean y) rfl) (fun _ => rfl) rfl
    · obtain ⟨s,j,hs,hsocket,_,ht⟩ := htransmit
      cases sent with
      | error =>
        rw [if_pos (wire_of_error hs)] at ht
        exact h.alone y ht hok (continues_congr (h.clean y) rfl) (fun _ => rfl) rfl
      | accepted n => exact h.sent hs hc.2 hsocket ht hok
  | receive y j count =>
    obtain ⟨n,hn,ht⟩ := step_receive hstep
    obtain ⟨hclean,hself⟩ := traffic_receive (h.ok y) (h.clean y) hc.2 hn
    exact h.alone y ht hok (continues_receive hclean hn) hself (socket_receive hn)

def greetsAndLeaves : List PeerAction :=
  handshakesFirst ++ [.send .b (.ofBytes exitText) (.accepted 5),.receive .a 0 5,
    .send .b greeting (.accepted 1)]

section arrival
variable {x : Peer} {i : Nat} {before : List (List UInt8)} {t : World} {c : Connection}

theorem receive_next (h : Carrying x i before t) (hlive : (t x.other).exited = false)
    (hsize : (t x.other).globals.pool.size = 0) (hi : (t x.other).connections[i]? = some c)
    (hphase : c.handler.phase ≠ .finished) {parcel : Parcel} {later : List Parcel}
    (hfl : c.inFlight = parcel :: later) :
    ∃ u d, t.step (.receive x.other i parcel.bytes.length) = some u ∧ Carrying x i before u ∧
      (u x.other).exited = false ∧ (u x.other).globals.pool.size = 0 ∧
      (u x.other).connections[i]? = some d ∧ d.inFlight = later := by
  have hwaiting := waiting_head (h.ok x.other) (h.clean x.other) (List.mem_of_getElem? hi) hfl
    hphase
  obtain ⟨g,handler,hreceive⟩ := receive_of_waiting hwaiting hsize
  obtain ⟨hlt,_⟩ := List.getElem?_eq_some_iff.mp hi
  have hpool := (received_of_receive hphase hreceive).pool_eq hsize
  have hstep : ∃ n, (t x.other).receive i parcel.bytes.length = some n ∧ n.exited = false ∧
      n.globals = g ∧ n.connections = (t x.other).connections.set i ⟨handler,later⟩ := by
    obtain ⟨hpos,hfits⟩ := length_of_waiting hwaiting
    have hready : ¬ (c.handler.phase = .finished ∨ parcel.bytes.length = 0 ∨
        maxBufferSize - 1 < parcel.bytes.length ∨
        (bytesOf (parcel :: later)).length < parcel.bytes.length) := by
      have hthere : (bytesOf (parcel :: later)).length =
          parcel.bytes.length + (bytesOf later).length := by simp [bytesOf]
      simp only [hphase,false_or,not_or]
      omega
    have hbytes : bytesOf [parcel] = parcel.bytes := by simp [bytesOf]
    simp only [Node.receive,hi,hfl,if_neg hready,cutParcels_head hpos rfl later,hbytes,hreceive]
    exact ⟨_,rfl,hlive,rfl,rfl⟩
  obtain ⟨n,hn,hexited,hglobals,hconnections⟩ := hstep
  have hworld : t.step (.receive x.other i parcel.bytes.length) =
      some (Function.update t x.other n) := by
    simp [World.step,hlive,hn]
  have hcarried : Carried t (.receive x.other i parcel.bytes.length) := by
    refine ⟨trivial,?_⟩
    intro d hd p hp
    cases hi.symm.trans hd
    rw [hfl] at hp
    cases hp
    rfl
  have hnext := carrying_step before t (.receive x.other i parcel.bytes.length) _ h hcarried hworld
  have hnone : sentTo x i t (.receive x.other i parcel.bytes.length) = [] := rfl
  rw [hnone,List.append_nil] at hnext
  refine ⟨_,⟨handler,later⟩,hworld,hnext,?_⟩
  rw [Function.update_self]
  refine ⟨hexited,by rw [hglobals,hpool,hsize],?_,rfl⟩
  rw [hconnections,List.getElem?_set_self hlt]

def receivesOf (x : Peer) (i : Nat) (parcels : List Parcel) : List PeerAction :=
  parcels.map (fun parcel => .receive x i parcel.bytes.length)

theorem drained (h : Carrying x i before t) (hlive : (t x.other).exited = false)
    (hsize : (t x.other).globals.pool.size = 0) (hi : (t x.other).connections[i]? = some c) :
    ∃ k u d, run World.step t (receivesOf x.other i (c.inFlight.take k)) = some u ∧
      (u x.other).exited = false ∧ (u x.other).connections[i]? = some d ∧
      (d.handler.phase = .finished ∨ d.handler.told = before) := by
  by_cases hphase : c.handler.phase = .finished
  · exact ⟨0,t,c,rfl,hlive,hi,.inl hphase⟩
  · induction hfl : c.inFlight generalizing t c with
    | nil =>
      have htold : c.handler.told = before := by
        have htraffic := h.traffic
        simp only [Node.traffic,hi,Connection.traffic,hfl,List.filterMap_nil,
          List.append_nil] at htraffic
        exact htraffic
      exact ⟨0,t,c,rfl,hlive,hi,.inr htold⟩
    | cons parcel later ih =>
      obtain ⟨u,d,hstep,hu,hlive',hsize',hi',hfl'⟩ := receive_next h hlive hsize hi hphase hfl
      by_cases hfinished : d.handler.phase = .finished
      · refine ⟨1,u,d,?_,hlive',hi',.inl hfinished⟩
        rw [List.take_succ_cons,List.take_zero,receivesOf,List.map_singleton]
        exact (run_cons_of_step hstep []).trans (run_nil u)
      · obtain ⟨k,v,e,hrun,hend⟩ := ih hu hlive' hsize' hi' hfinished hfl'
        refine ⟨k + 1,v,e,?_,hend⟩
        rw [List.take_succ_cons,receivesOf,List.map_cons,run_cons_of_step hstep]
        exact hrun

end arrival

/-- No message is stuck: whatever state the two peers have come to, recvs that return the sends
under way one by one bring the reader to have been told all that was sent over a connection,
unless it is told /exit before. -/
theorem everything_arrives (fresh : Nat → Option Thread) (as : List PeerAction) (t : World)
    (hmeets : Meets World.step Carried (World.initial fresh) as)
    (hrun : run World.step (World.initial fresh) as = some t) (x : Peer) (i : Nat)
    (c : Connection) (hi : (t x.other).connections[i]? = some c)
    (hlive : (t x.other).exited = false) :
    ∃ k u d, run World.step t (receivesOf x.other i (c.inFlight.take k)) = some u ∧
      (u x.other).exited = false ∧ (u x.other).connections[i]? = some d ∧
      (d.handler.phase = .finished ∨
        d.handler.told = emitted World.step (sentTo x i) (World.initial fresh) as) := by
  have hcarrying : Carrying x i (emitted World.step (sentTo x i) (World.initial fresh) as) t :=
    run_emits (I := Carrying x i) carrying_step (carrying_initial fresh x i) hmeets hrun
  obtain ⟨s,hs,hhosts⟩ := peer_is_server fresh as t hrun x.other
  have hsize : (t x.other).globals.pool.size = 0 := by
    rw [← hhosts.globals]
    exact (faultsFromOutside_run hs).size
  exact drained hcarrying hlive hsize hi

def greetedTwice : List PeerAction :=
  bothConnect ++ [.receive .a 0 2,.receive .b 0 2,.send .a greeting (.accepted 2),
    .send .a greeting (.accepted 2)]

theorem everything_arrives_greeted_twice :
    ∃ t c, run World.step (World.initial (fun _ => none)) greetedTwice = some t ∧
      (t .b).connections[0]? = some c ∧
      ∃ k u d, run World.step t (receivesOf .b 0 (c.inFlight.take k)) = some u ∧
        (u .b).exited = false ∧ (u .b).connections[0]? = some d ∧
        (d.handler.phase = .finished ∨ d.handler.told =
          emitted World.step (sentTo .a 0) (World.initial (fun _ => none)) greetedTwice) := by
  have hrun : (run World.step (World.initial (fun _ => none)) greetedTwice).any (fun t =>
      (t .b).connections[0]?.isSome && !(t .b).exited) = true := by decide +kernel
  obtain ⟨t,ht,hreached⟩ := (Option.any_eq_true _ _).mp hrun
  obtain ⟨hsome,hlive⟩ := Bool.and_eq_true_iff.mp hreached
  obtain ⟨c,hc⟩ := Option.isSome_iff_exists.mp hsome
  have hruns : (t .b).exited = false := by simpa using hlive
  exact ⟨t,c,ht,hc,everything_arrives (fun _ => none) greetedTwice t (by decide +kernel) ht .a 0
    c hc hruns⟩

end CTalk
