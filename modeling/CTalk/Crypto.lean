import Mathlib.Data.ZMod.Basic
import CTalk.ByteStream
import CTalk.SquareMultiply

/-! crypto.c: modular exponentiation in 64-bit arithmetic, the Diffie-Hellman
parameters, and the XOR cipher on C strings. -/

set_option autoImplicit false

namespace CTalk
open ByteStream

/-- The ways a call ends the process instead of returning: the LOG_ERROR macro, or an
operation that C leaves undefined. -/
inductive Fault where
  | exitFailure | nullDeref | divByZero | uninitRead | outOfBounds | useAfterFree
  | signedOverflow
  deriving DecidableEq, Repr

abbrev CharPtr := Option Buffer

def deref : CharPtr → Except Fault Buffer
  | none => .error .nullDeref
  | some b => .ok b

/-- The while loop of mod_exp. Products wrap modulo 2^64 before they are reduced. -/
def modExpLoop (mod resultat base exposant : UInt64) : UInt64 :=
  if 0 < exposant then
    modExpLoop mod (if exposant % 2 = 1 then resultat * base % mod else resultat)
      (base * base % mod) (exposant >>> 1)
  else resultat
termination_by exposant.toNat
decreasing_by
  rename_i h
  have hpos : 0 < exposant.toNat := by simpa [UInt64.lt_iff_toNat_lt] using h
  have hone : (1 : UInt64).toNat % 64 = 1 := rfl
  rw [UInt64.toNat_shiftRight,hone,Nat.shiftRight_eq_div_pow]
  omega

def modExp (base exposant mod : UInt64) : Except Fault UInt64 :=
  if mod = 0 then .error .divByZero
  else .ok (modExpLoop mod 1 (base % mod) exposant)

def publicParams : UInt64 × UInt64 := (101,863)

def privateParams : UInt64 := 3343

def publicKey (p g secretKey : UInt64) : Except Fault UInt64 := modExp g secretKey p

def privateKey (p publicKey secretKey : UInt64) : Except Fault UInt64 :=
  modExp publicKey secretKey p

/-- Byte i of the key in little-endian memory. -/
def keyByte (key : UInt64) (i : Nat) : UInt8 := UInt8.ofNat (key.toNat / 256 ^ i)

def xorKey (key : UInt64) (bs : List UInt8) : List UInt8 :=
  bs.mapIdx (fun i c => c ^^^ keyByte key (i % 8))

/-- The loop writes length bytes and a terminator after them. -/
def xorEncrypt (plaintext : Buffer) (length : Nat) (key : UInt64) : Buffer :=
  Buffer.ofBytes (xorKey key (plaintext.mem.take length))

def xorDecrypt (ciphertext : Buffer) (length : Nat) (key : UInt64) : Buffer :=
  xorEncrypt ciphertext length key

/-- The allocated buffer is never NULL: a failed malloc stops at the assertion. -/
def encrypt (plaintext : CharPtr) (key : UInt64) : Except Fault Buffer := do
  let plaintext ← deref plaintext
  pure (xorEncrypt plaintext plaintext.strlen key)

def decrypt (ciphertext : CharPtr) (key : UInt64) : Except Fault Buffer := do
  let ciphertext ← deref ciphertext
  pure (xorDecrypt ciphertext ciphertext.strlen key)

def mulMod (mod a b : UInt64) : UInt64 := a * b % mod

theorem modExpLoop_eq_loop (mod r b e : UInt64) :
    modExpLoop mod r b e = SquareMultiply.loop (mulMod mod) r b e.toNat := by
  fun_induction modExpLoop mod r b e with
  | case1 r b e he ih =>
    have hpos : 0 < e.toNat := by simpa [UInt64.lt_iff_toNat_lt] using he
    have hone : (1 : UInt64).toNat % 64 = 1 := rfl
    have hhalf : (e >>> 1).toNat = e.toNat / 2 := by
      rw [UInt64.toNat_shiftRight,hone,Nat.shiftRight_eq_div_pow]
    have hodd : (e % 2 = 1) ↔ (e.toNat % 2 = 1) := by
      rw [← UInt64.toNat_inj,UInt64.toNat_mod]
      rfl
    simp only [dite_eq_ite,hhalf] at ih
    rw [SquareMultiply.loop,if_pos hpos,ih]
    simp only [hodd,mulMod]
  | case2 r b e he =>
    have hzero : ¬ 0 < e.toNat := by simpa [UInt64.lt_iff_toNat_lt] using he
    rw [SquareMultiply.loop,if_neg hzero]

theorem mulMod_lt {mod : UInt64} (hpos : 0 < mod.toNat) (a b : UInt64) :
    (mulMod mod a b).toNat < mod.toNat := by
  rw [mulMod,UInt64.toNat_mod]
  exact Nat.mod_lt _ hpos

def Small (mod x : UInt64) : Prop := x.toNat < max mod.toNat 2

theorem mulMod_small {mod : UInt64} (hpos : 0 < mod.toNat) (a b : UInt64) :
    Small mod (mulMod mod a b) :=
  Nat.lt_of_lt_of_le (mulMod_lt hpos a b) (Nat.le_max_left _ _)

theorem mulMod_cast {mod : UInt64} (hle : mod.toNat ≤ 2 ^ 32) {a b : UInt64}
    (ha : Small mod a) (hb : Small mod b) :
    ((mulMod mod a b).toNat : ZMod mod.toNat) = a.toNat * b.toNat := by
  have hmax : max mod.toNat 2 ≤ 2 ^ 32 := Nat.max_le.mpr ⟨hle,by decide⟩
  have ha' : a.toNat ≤ 2 ^ 32 - 1 := by unfold Small at ha; omega
  have hb' : b.toNat ≤ 2 ^ 32 - 1 := by unfold Small at hb; omega
  -- (2^32 - 1)^2 is still below 2^64
  have hprod : a.toNat * b.toNat < 2 ^ 64 := by
    have h := Nat.mul_le_mul ha' hb'
    omega
  rw [mulMod,UInt64.toNat_mod,UInt64.toNat_mul,Nat.mod_eq_of_lt hprod,ZMod.natCast_mod,
    Nat.cast_mul]

theorem modExp_of_ne_zero {mod : UInt64} (hmod : mod ≠ 0) (base exposant : UInt64) :
    modExp base exposant mod = .ok (modExpLoop mod 1 (base % mod) exposant) := by
  simp [modExp,hmod]

theorem ne_zero_of_toNat_pos {x : UInt64} (h : 0 < x.toNat) : x ≠ 0 := by
  intro hx
  subst hx
  exact Nat.lt_irrefl 0 h

theorem modExp_zero {mod : UInt64} (hmod : mod ≠ 0) (base : UInt64) :
    modExp base 0 mod = .ok 1 := by
  rw [modExp_of_ne_zero hmod,modExpLoop,if_neg (by decide)]

theorem modExp_toNat_of_cast {mod : UInt64} (hpos : 0 < mod.toNat) {S : UInt64 → Prop}
    (hmul : ∀ a b, S a → S b → S (mulMod mod a b))
    (hcast : ∀ a b, S a → S b →
      ((mulMod mod a b).toNat : ZMod mod.toNat) = a.toNat * b.toNat)
    (hone : S 1) {base : UInt64} (hbase : S (base % mod)) {exposant : UInt64}
    (he : 0 < exposant.toNat) :
    ∃ r, modExp base exposant mod = .ok r ∧
      r.toNat = base.toNat ^ exposant.toNat % mod.toNat := by
  refine ⟨_,modExp_of_ne_zero (ne_zero_of_toNat_pos hpos) base exposant,?_⟩
  have hpow := SquareMultiply.loop_pow (mulMod mod) (fun x => (x.toNat : ZMod mod.toNat))
    hmul hcast hone hbase exposant.toNat
  have hlt := SquareMultiply.loop_product (mulMod mod) (T := fun x => x.toNat < mod.toNat)
    (mulMod_lt hpos) 1 (base % mod) he
  rw [← modExpLoop_eq_loop] at hpow hlt
  have hone' : (1 : UInt64).toNat = 1 := rfl
  simp only [hone',Nat.cast_one,one_mul,UInt64.toNat_mod,ZMod.natCast_mod] at hpow
  -- both sides are reduced, so the equality in ZMod is one of numbers
  rw [← Nat.cast_pow,ZMod.natCast_eq_natCast_iff',Nat.mod_eq_of_lt hlt] at hpow
  exact hpow

theorem modExp_toNat {mod : UInt64} (hpos : 0 < mod.toNat) (hle : mod.toNat ≤ 2 ^ 32)
    (base : UInt64) {exposant : UInt64} (he : 0 < exposant.toNat) :
    ∃ r, modExp base exposant mod = .ok r ∧
      r.toNat = base.toNat ^ exposant.toNat % mod.toNat := by
  have hone : Small mod 1 := Nat.lt_of_lt_of_le Nat.one_lt_two (Nat.le_max_right _ _)
  have hbase : Small mod (base % mod) := by
    rw [Small,UInt64.toNat_mod]
    exact Nat.lt_of_lt_of_le (Nat.mod_lt _ hpos) (Nat.le_max_left _ _)
  exact modExp_toNat_of_cast hpos (fun a b _ _ => mulMod_small hpos a b)
    (fun a b => mulMod_cast hle) hone hbase he

theorem modExp_toNat_zero {mod : UInt64} (htwo : 2 ≤ mod.toNat) (base : UInt64) :
    ∃ r, modExp base 0 mod = .ok r ∧
      r.toNat = base.toNat ^ (0 : UInt64).toNat % mod.toNat := by
  refine ⟨1,modExp_zero (ne_zero_of_toNat_pos (by omega)) base,?_⟩
  have hone : (1 : UInt64).toNat = 1 := rfl
  have hz : (0 : UInt64).toNat = 0 := rfl
  rw [hone,hz,Nat.pow_zero,Nat.mod_eq_of_lt htwo]

theorem eq_zero_of_toNat_not_pos {x : UInt64} (h : ¬ 0 < x.toNat) : x = 0 :=
  UInt64.toNat_inj.mp (by simpa using h)

theorem modExp_toNat_of_two_le {mod : UInt64} (htwo : 2 ≤ mod.toNat)
    (hle : mod.toNat ≤ 2 ^ 32) (base exposant : UInt64) :
    ∃ r, modExp base exposant mod = .ok r ∧
      r.toNat = base.toNat ^ exposant.toNat % mod.toNat := by
  by_cases he : 0 < exposant.toNat
  · exact modExp_toNat (by omega) hle base he
  · rw [eq_zero_of_toNat_not_pos he]
    exact modExp_toNat_zero htwo base

@[simp] theorem xorKey_length (key : UInt64) (bs : List UInt8) :
    (xorKey key bs).length = bs.length := by simp [xorKey]

theorem xorKey_getElem? (key : UInt64) (bs : List UInt8) (i : Nat) :
    (xorKey key bs)[i]? = bs[i]?.map (fun c => c ^^^ keyByte key (i % 8)) := by
  simp [xorKey]

@[simp] theorem xorKey_xorKey (key : UInt64) (bs : List UInt8) :
    xorKey key (xorKey key bs) = bs := by
  apply List.ext_getElem?
  intro i
  cases h : bs[i]? with
  | none => simp [xorKey_getElem?,h]
  | some c =>
    simp only [xorKey_getElem?,h,Option.map_some]
    rw [UInt8.xor_assoc,UInt8.xor_self,UInt8.xor_zero]

theorem nulFree_xorKey_iff {key : UInt64} {bs : List UInt8} :
    NulFree (xorKey key bs) ↔ ∀ i c, bs[i]? = some c → c ≠ keyByte key (i % 8) := by
  simp only [NulFree,List.mem_iff_getElem?,xorKey_getElem?,Option.map_eq_some_iff,
    UInt8.xor_eq_zero_iff,not_exists,not_and,ne_eq]

@[simp] theorem encrypt_some (b : Buffer) (key : UInt64) :
    encrypt (some b) key = .ok (Buffer.ofBytes (xorKey key b.text)) := by
  rw [← b.take_strlen]
  rfl

@[simp] theorem decrypt_some (b : Buffer) (key : UInt64) :
    decrypt (some b) key = .ok (Buffer.ofBytes (xorKey key b.text)) := encrypt_some b key

end CTalk
