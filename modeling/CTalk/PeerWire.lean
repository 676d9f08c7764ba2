import CTalk.Peers

/-! ui.c: what stands on the wire between two peers, beside what they wrote. -/

set_option autoImplicit false

namespace CTalk
open ByteStream Transition

/-- On the wire stands the text, up to a length, with at most every eighth byte changed, and
that one by the one non-zero byte of the shared key. -/
def NearlyClear (text wire : List UInt8) : Prop :=
  wire.length ≤ text.length ∧ ∀ i c, wire[i]? = some c →
    text[i]? = some c ∨ i % 8 = 0 ∧ text[i]? = some (c ^^^ 8)

theorem keyByte_zero (i : Nat) : keyByte 0 i = 0 := by simp [keyByte]

theorem keyByte_sharedKey {i : Nat} (hi : i < 8) :
    keyByte sharedKey i = if i = 0 then 8 else 0 := by
  have hall : ∀ j < 8, keyByte sharedKey j = if j = 0 then 8 else 0 := by decide
  exact hall i hi

theorem nearlyClear_of_wire {key : UInt64} (hkey : key = 0 ∨ key = sharedKey)
    {text wire : List UInt8} (hwire : wire <+: xorKey key text) : NearlyClear text wire := by
  refine ⟨by simpa using hwire.length_le,?_⟩
  intro i c hi
  obtain ⟨hlt,hc⟩ := List.getElem?_eq_some_iff.mp hi
  have hx := List.prefix_iff_getElem?.mp hwire i hlt
  rw [xorKey_getElem?,hc] at hx
  obtain ⟨d,hd,hbyte⟩ := Option.map_eq_some_iff.mp hx
  rw [hd]
  rcases hkey with hkey | hkey
  · left
    rw [← hbyte,hkey,keyByte_zero,UInt8.xor_zero]
  · rw [hkey,keyByte_sharedKey (Nat.mod_lt i (by decide))] at hbyte
    split at hbyte
    · rename_i hzero
      right
      refine ⟨hzero,?_⟩
      rw [← hbyte,UInt8.xor_assoc,UInt8.xor_self,UInt8.xor_zero]
    · left
      rw [← hbyte,UInt8.xor_zero]

def TransmitsNearlyClear (w : World) : PeerAction → Prop
  | .send x plaintext sent => ∀ s, sendMessage_ (w x).globals.privateKey plaintext sent = some s →
      NearlyClear plaintext.text s.wire
  | _ => True

structure TwoKeys (n : Node) : Prop where
  key : n.globals.privateKey = 0 ∨ n.globals.privateKey = sharedKey
  waiting : ∀ c ∈ n.connections, c.handler.phase = .keyExchange →
    ∃ later, c.inFlight = ⟨publicKeyWire,none⟩ :: later

section twoKeys
variable {n m : Node}

theorem twoKeys_accept (h : TwoKeys n) : TwoKeys n.accept where
  key := h.key
  waiting := by
    intro c hc
    rcases List.mem_append.mp hc with hc | hc
    · exact h.waiting c hc
    · rw [List.mem_singleton.mp hc]
      exact fun _ => ⟨[],rfl⟩

theorem twoKeys_set {i : Nat} {d : Connection} (h : TwoKeys n)
    (hd : d.handler.phase = .keyExchange → ∃ later, d.inFlight = ⟨publicKeyWire,none⟩ :: later)
    {g : Globals} (hg : g.privateKey = 0 ∨ g.privateKey = sharedKey)
    (received : List (UInt64 × UInt64)) :
    TwoKeys { n with
      globals := g
      connections := n.connections.set i d
      received := received } where
  key := hg
  waiting := by
    intro c hc
    rcases List.mem_or_eq_of_mem_set hc with hc | hc
    · exact h.waiting c hc
    · exact hc ▸ hd

theorem twoKeys_enqueue (h : TwoKeys n) (i : Nat) (parcel : Parcel) :
    TwoKeys (n.enqueue i parcel) := by
  unfold Node.enqueue
  split
  · exact h
  · rename_i c hi
    refine twoKeys_set h ?_ h.key n.received
    intro hphase
    obtain ⟨later,hlater⟩ := h.waiting c (List.mem_of_getElem? hi) hphase
    exact ⟨later ++ [parcel],by simp [hlater]⟩

theorem twoKeys_receive (h : TwoKeys n) {i count : Nat}
    (halone : ∀ c ∈ n.connections[i]?, c.handler.phase = .keyExchange →
      ∀ parcel ∈ c.inFlight.head?, count = parcel.bytes.length)
    (hm : n.receive i count = some m) : TwoKeys m := by
  obtain ⟨c,hi,hlive,hpos,_,_,hcases⟩ := receive_inv hm
  rcases hcases with hexit | hreceived
  · rw [hexit]
    exact ⟨h.key,h.waiting⟩
  · obtain ⟨g,h',hreceive,hm⟩ := hreceived
    rw [hm]
    rcases receive_cases n.globals hlive hreceive with hexchange | hmessage
    · obtain ⟨hphase,key,hgen,hg,hh⟩ := hexchange
      obtain ⟨rest,hhead⟩ := h.waiting c (List.mem_of_getElem? hi) hphase
      rw [(key_of_first_recv hhead hpos (halone c hi hphase)).2] at hgen
      cases hgen
      subst hg hh
      exact twoKeys_set h (fun hp => by cases hp) (.inr rfl) _
    · obtain ⟨_,hg,_,_,hnext⟩ := hmessage
      exact twoKeys_set h (fun hp => absurd hp hnext) (by rw [hg]; exact h.key) _

end twoKeys

theorem twoKeys_update {w : World} (h : ∀ x, TwoKeys (w x)) (x : Peer) {n : Node}
    (hn : TwoKeys n) : ∀ y, TwoKeys (Function.update w x n y) :=
  (Function.forall_update_iff w (fun _ m => TwoKeys m)).mpr ⟨hn,fun y _ => h y⟩

theorem twoKeys_step (w : World) (a : PeerAction) (t : World) (h : ∀ x, TwoKeys (w x))
    (halone : KeyAlone w a) (hstep : w.step a = some t) : ∀ x, TwoKeys (t x) := by
  cases a with
  | start x =>
    rw [step_start hstep]
    exact twoKeys_update h x ⟨(h x).key,(h x).waiting⟩
  | connect x =>
    rcases step_connect hstep with ht | ht
    · rw [ht]
      exact twoKeys_update (twoKeys_update h x.other (twoKeys_accept (h x.other))) x
        ⟨(h x).key,(h x).waiting⟩
    · rw [ht]
      exact twoKeys_update h x ⟨(h x).key,(h x).waiting⟩
  | send x plaintext sent =>
    rcases step_send hstep with ⟨_,ht⟩ | ⟨_,ht⟩ | ⟨s,i,_,_,_,ht⟩
    · rw [ht]
      exact h
    · rw [ht]
      exact twoKeys_update h x ⟨(h x).key,(h x).waiting⟩
    · rw [ht]
      refine twoKeys_update ?_ x ⟨(h x).key,(h x).waiting⟩
      split
      · exact h
      · exact twoKeys_update h x.other (twoKeys_enqueue (h x.other) i _)
  | receive x i count =>
    obtain ⟨n,hn,ht⟩ := step_receive hstep
    rw [ht]
    exact twoKeys_update h x (twoKeys_receive (h x) halone hn)

theorem wire_of_sendMessage_ {key : UInt64} {plaintext : Buffer} {sent : SendResult} {s : Sent}
    (hs : sendMessage_ key plaintext sent = some s) : s.wire <+: xorKey key plaintext.text := by
  unfold sendMessage_ at hs
  split at hs
  · cases hs
  · cases hs
    exact (wire_isPrefixOf key plaintext sent).trans (List.takeWhile_prefix _)

/-- In every run of two peers in which no first recv joins the public key with a message or
cuts it, in any order of steps and before or after any key exchange, every chat message crosses
the wire nearly in the clear. -/
theorem wire_nearly_clear (fresh : Nat → Option Thread) (as : List PeerAction)
    (halone : Meets World.step KeyAlone (World.initial fresh) as) :
    Meets World.step TransmitsNearlyClear (World.initial fresh) as := by
  refine meets_of_invariant twoKeys_step ?_ (fun _ => ⟨.inl rfl,fun _ hc => by cases hc⟩) halone
  intro w a h _
  cases a with
  | start x => trivial
  | connect x => trivial
  | send x plaintext sent =>
    intro s hs
    exact nearlyClear_of_wire (h x).key (wire_of_sendMessage_ hs)
  | receive x i count => trivial

theorem wire_nearly_clear_handshakes_first :
    Meets World.step TransmitsNearlyClear (World.initial (fun _ => none)) handshakesFirst :=
  wire_nearly_clear (fun _ => none) handshakesFirst (by decide +kernel)

end CTalk
