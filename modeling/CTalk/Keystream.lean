import CTalk.LittleEndian
import CTalk.Reception
import CTalk.Terminal

/-! The cipher of crypto.c between keys that differ: what a message encrypted with one key
becomes under another, and what one known message says about the key. -/

set_option autoImplicit false

namespace CTalk
open ByteStream Transition

theorem keyByte_toNat (key : UInt64) (i : Nat) :
    (keyByte key i).toNat = key.toNat / 256 ^ i % 256 := by
  rw [keyByte,UInt8.toNat_ofNat']

theorem keyByte_xor (a b : UInt64) (i : Nat) :
    keyByte (a ^^^ b) i = keyByte a i ^^^ keyByte b i := by
  have hpow : (256 : Nat) ^ i = 2 ^ (8 * i) := by rw [Nat.pow_mul]
  rw [keyByte,UInt64.toNat_xor,hpow,Nat.xor_div_two_pow,UInt8.ofNat_xor,keyByte,keyByte,hpow]

theorem key_eq_of_keyByte {a b : UInt64} (h : ∀ i < 8, keyByte a i = keyByte b i) : a = b := by
  have hbound : (256 : Nat) ^ 8 = 2 ^ 64 := rfl
  apply UInt64.toNat_inj.mp
  apply LittleEndian.eq_of_digits (b := 256) (n := 8)
  · rw [hbound]
    exact a.toNat_lt
  · rw [hbound]
    exact b.toNat_lt
  · intro i hi
    rw [← keyByte_toNat,← keyByte_toNat,h i hi]

def keyOfBytes (bs : List UInt8) : UInt64 := UInt64.ofNat (Nat.ofDigits 256 (bs.map UInt8.toNat))

theorem keyByte_keyOfBytes {bs : List UInt8} (hlen : bs.length ≤ 8) {i : Nat} {c : UInt8}
    (hi : bs[i]? = some c) : keyByte (keyOfBytes bs) i = c := by
  have hdigits : ∀ d ∈ bs.map UInt8.toNat, d < 256 := by
    intro d hd
    obtain ⟨c,_,hc⟩ := List.mem_map.mp hd
    rw [← hc]
    exact c.toNat_lt
  have hbound : Nat.ofDigits 256 (bs.map UInt8.toNat) < 2 ^ 64 := by
    have hlt := Nat.ofDigits_lt_base_pow_length (by decide : 1 < 256) hdigits
    rw [List.length_map] at hlt
    exact Nat.lt_of_lt_of_le hlt (Nat.pow_le_pow_right (by decide) hlen)
  apply UInt8.toNat_inj.mp
  rw [keyByte_toNat,keyOfBytes,UInt64.toNat_ofNat',Nat.mod_eq_of_lt hbound]
  exact LittleEndian.ofDigits_div_mod hdigits (by rw [List.getElem?_map,hi]; rfl)

theorem xorKey_two_keys (a b : UInt64) (m : List UInt8) :
    xorKey b (xorKey a m) = xorKey (a ^^^ b) m := by
  apply List.ext_getElem?
  intro i
  cases h : m[i]? with
  | none => simp [xorKey_getElem?,h]
  | some c => simp only [xorKey_getElem?,h,Option.map_some,keyByte_xor,UInt8.xor_assoc]

def Agree (a b : UInt64) (n : Nat) : Prop := ∀ i < min 8 n, keyByte a i = keyByte b i

theorem eq_zero_of_xor_eq_self {c x : UInt8} (h : c ^^^ x = c) : x = 0 := by
  calc
    x = c ^^^ (c ^^^ x) := by rw [← UInt8.xor_assoc,UInt8.xor_self,UInt8.zero_xor]
    _ = 0 := by rw [h,UInt8.xor_self]

theorem xorKey_difference_iff (a b : UInt64) (m : List UInt8) :
    xorKey (a ^^^ b) m = m ↔ Agree a b m.length := by
  constructor
  · intro h i hi
    have hlt : i < m.length := by omega
    have hbyte := congrArg (fun bs => bs[i]?) h
    simp only [xorKey_getElem?,List.getElem?_eq_getElem hlt,Option.map_some,Option.some.injEq,
      Nat.mod_eq_of_lt (by omega : i < 8),keyByte_xor] at hbyte
    exact UInt8.xor_eq_zero_iff.mp (eq_zero_of_xor_eq_self hbyte)
  · intro h
    apply List.ext_getElem?
    intro i
    cases hi : m[i]? with
    | none => simp [xorKey_getElem?,hi]
    | some c =>
      obtain ⟨hlt,_⟩ := List.getElem?_eq_some_iff.mp hi
      have hsmall : i % 8 < min 8 m.length := by
        have hmod := Nat.mod_lt i (by decide : 0 < 8)
        have hle := Nat.mod_le i 8
        omega
      simp only [xorKey_getElem?,hi,Option.map_some,keyByte_xor,h _ hsmall]
      rw [UInt8.xor_self,UInt8.xor_zero]

theorem decodedText_two_keys {a : UInt64} {m : List UInt8} (hwire : NulFree (xorKey a m))
    (b : UInt64) :
    decodedText b (xorKey a m) = (xorKey (a ^^^ b) m).takeWhile (fun c => c ≠ 0) := by
  rw [decodedText,Buffer.text_ofBytes_of_nulFree hwire,xorKey_two_keys,Buffer.text_ofBytes]

theorem decodedText_two_keys_iff {a : UInt64} {m : List UInt8} (hm : NulFree m)
    (hwire : NulFree (xorKey a m)) (b : UInt64) :
    decodedText b (xorKey a m) = m ↔ Agree a b m.length := by
  rw [decodedText_two_keys hwire,← xorKey_difference_iff]
  constructor
  · intro h
    have hpre := List.takeWhile_prefix (fun c => decide (c ≠ 0)) (l := xorKey (a ^^^ b) m)
    rw [h] at hpre
    exact (hpre.eq_of_length (xorKey_length _ _).symm).symm
  · intro h
    rw [h,takeWhile_of_nulFree hm]

/-- The key whose first bytes take the one text to the other. -/
def recoverKey (plaintext wire : List UInt8) : UInt64 :=
  keyOfBytes ((List.zipWith (fun c d => c ^^^ d) plaintext wire).take 8)

theorem recoverKey_eq {key : UInt64} {plaintext wire : List UInt8}
    (hwire : wire <+: xorKey key plaintext) (hlen : 8 ≤ wire.length) :
    recoverKey plaintext wire = key := by
  apply key_eq_of_keyByte
  intro i hi
  have hlt : i < wire.length := by omega
  have hw : wire[i]? = some wire[i] := List.getElem?_eq_getElem hlt
  have hx := List.prefix_iff_getElem?.mp hwire i hlt
  rw [xorKey_getElem?,Nat.mod_eq_of_lt hi] at hx
  obtain ⟨c,hc,hbyte⟩ := Option.map_eq_some_iff.mp hx
  apply keyByte_keyOfBytes (List.length_take_le 8 _)
  rw [List.getElem?_take_of_lt hi,List.getElem?_zipWith,hc,hw]
  simp only [← hbyte]
  rw [← UInt8.xor_assoc,UInt8.xor_self,UInt8.zero_xor]

theorem xorKey_wire {key : UInt64} {plaintext wire : List UInt8}
    (hwire : wire <+: xorKey key plaintext) : xorKey key wire <+: plaintext := by
  rw [List.prefix_iff_eq_take] at hwire
  rw [hwire,xorKey_take,xorKey_xorKey]
  exact List.take_prefix _ _

/-- Whoever knows one message of eight bytes that went out under a key, and sees the wire,
has the key and reads everything that goes out under it. -/
theorem known_message_tells_key (input : List UInt8) (turns : List TerminalTurn) (t : Terminal)
    (hrun : run Terminal.step ⟨input,[],none⟩ turns = some t) (d e : Typed) (hd : d ∈ t.given)
    (he : e ∈ t.given) (hkey : d.key = e.key) (hlen : 8 ≤ d.wire.length) :
    recoverKey d.plaintext d.wire = d.key ∧
      xorKey (recoverKey d.plaintext d.wire) e.wire <+: e.plaintext := by
  have hwires := (run_history (I := Terminal.Accounts input)
    (fun _ _ _ _ hs => Terminal.accounts_step hs) (Terminal.accounts_start input) hrun).wires
  have hwire : ∀ x ∈ t.given, x.wire <+: xorKey x.key x.plaintext :=
    fun x hx => (hwires x hx).trans (List.takeWhile_prefix _)
  have hrecovered := recoverKey_eq (hwire d hd) hlen
  refine ⟨hrecovered,?_⟩
  rw [hrecovered,hkey]
  exact xorKey_wire (hwire e he)

def knownInput : List UInt8 := [97,98,99,100,101,102,103,104,10,104,105,10]

theorem known_message_tells_key_hi :
    ∃ t d e, run Terminal.step ⟨knownInput,[],none⟩ [⟨8,.accepted 8⟩,⟨8,.accepted 2⟩] = some t ∧
      d ∈ t.given ∧ e ∈ t.given ∧ d ≠ e ∧ recoverKey d.plaintext d.wire = d.key ∧
      xorKey (recoverKey d.plaintext d.wire) e.wire <+: e.plaintext := by
  have hrun : run Terminal.step ⟨knownInput,[],none⟩ [⟨8,.accepted 8⟩,⟨8,.accepted 2⟩] =
      some ⟨[],[⟨[97,98,99,100,101,102,103,104],8,[105,98,99,100,101,102,103,104]⟩,
        ⟨[104,105],8,[96,105]⟩],none⟩ := by decide +kernel
  exact ⟨_,_,_,hrun,List.mem_cons_self,List.mem_cons_of_mem _ List.mem_cons_self,by decide,
    known_message_tells_key knownInput _ _ hrun _ _ List.mem_cons_self
      (List.mem_cons_of_mem _ List.mem_cons_self) rfl (by decide)⟩

end CTalk
