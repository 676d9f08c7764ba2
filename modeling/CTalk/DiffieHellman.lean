import CTalk.Crypto

/-! The key functions of crypto.c against modular powers: the moduli for which mod_exp is
exact, and the agreement of the two parties. -/

set_option autoImplicit false

namespace CTalk

theorem mulMod_cast_of_dvd {mod : UInt64} (hdvd : mod.toNat ∣ 2 ^ 64) (a b : UInt64) :
    ((mulMod mod a b).toNat : ZMod mod.toNat) = a.toNat * b.toNat := by
  rw [mulMod,UInt64.toNat_mod,UInt64.toNat_mul,Nat.mod_mod_of_dvd _ hdvd,
    ZMod.natCast_mod,Nat.cast_mul]

theorem modExp_toNat_of_dvd {mod : UInt64} (htwo : 2 ≤ mod.toNat)
    (hdvd : mod.toNat ∣ 2 ^ 64) (base exposant : UInt64) :
    ∃ r, modExp base exposant mod = .ok r ∧
      r.toNat = base.toNat ^ exposant.toNat % mod.toNat := by
  by_cases he : 0 < exposant.toNat
  · exact modExp_toNat_of_cast (S := fun _ => True) (by omega) (fun _ _ _ _ => trivial)
      (fun a b _ _ => mulMod_cast_of_dvd hdvd a b) trivial trivial he
  · rw [eq_zero_of_toNat_not_pos he]
    exact modExp_toNat_zero htwo base

theorem toNat_dvd_iff {mod : UInt64} :
    mod.toNat ∣ 2 ^ 64 ↔ ∃ k, mod.toNat = 2 ^ k := by
  rw [Nat.dvd_prime_pow Nat.prime_two]
  constructor
  · intro h
    obtain ⟨k,_,hk⟩ := h
    exact ⟨k,hk⟩
  · intro h
    obtain ⟨k,hk⟩ := h
    have hlt := mod.toNat_lt
    rw [hk] at hlt
    exact ⟨k,(Nat.pow_le_pow_iff_right Nat.one_lt_two).mp hlt.le,hk⟩

theorem modExp_two_pow_32 {mod : UInt64} (hgt : 2 ^ 32 < mod.toNat) :
    modExp 4294967296 2 mod = .ok 0 := by
  have hlt : (4294967296 : UInt64).toNat < mod.toNat := hgt
  have hbase : (4294967296 : UInt64) % mod = 4294967296 := by
    rw [← UInt64.toNat_inj,UInt64.toNat_mod,Nat.mod_eq_of_lt hlt]
  have hsquare : (4294967296 * 4294967296 : UInt64) % mod = 0 := by
    have hwrap : (4294967296 * 4294967296 : UInt64) = 0 := by decide
    rw [hwrap,UInt64.zero_mod]
  have htwo : (0 : UInt64) < 2 := by decide
  have hone : (0 : UInt64) < 1 := by decide
  have hhalf : (2 : UInt64) >>> 1 = 1 := by decide
  have hend : (1 : UInt64) >>> 1 = 0 := by decide
  have heven : ¬ (2 : UInt64) % 2 = 1 := by decide
  have hodd : (1 : UInt64) % 2 = 1 := by decide
  rw [modExp_of_ne_zero (ne_zero_of_toNat_pos (by omega)),hbase]
  rw [modExpLoop,if_pos htwo,if_neg heven,hsquare,hhalf]
  rw [modExpLoop,if_pos hone,if_pos hodd,hend]
  rw [modExpLoop,if_neg (by decide),UInt64.mul_zero,UInt64.zero_mod]

theorem dvd_of_exact {mod : UInt64} (hgt : 2 ^ 32 < mod.toNat)
    (hexact : ∃ r, modExp 4294967296 2 mod = .ok r ∧
      r.toNat = (4294967296 : UInt64).toNat ^ (2 : UInt64).toNat % mod.toNat) :
    mod.toNat ∣ 2 ^ 64 := by
  obtain ⟨r,hr,hval⟩ := hexact
  rw [modExp_two_pow_32 hgt] at hr
  cases hr
  have hpow : (4294967296 : UInt64).toNat ^ (2 : UInt64).toNat = 2 ^ 64 := by decide
  rw [hpow] at hval
  exact Nat.dvd_of_mod_eq_zero hval.symm

theorem two_le_of_exact {mod : UInt64} (hone : 1 ≤ mod.toNat)
    (hexact : ∃ r, modExp 0 0 mod = .ok r ∧
      r.toNat = (0 : UInt64).toNat ^ (0 : UInt64).toNat % mod.toNat) :
    2 ≤ mod.toNat := by
  obtain ⟨r,hr,hval⟩ := hexact
  rw [modExp_zero (ne_zero_of_toNat_pos hone)] at hr
  cases hr
  have h1 : (1 : UInt64).toNat = 1 := rfl
  have hlt := Nat.mod_lt ((0 : UInt64).toNat ^ (0 : UInt64).toNat) hone
  rw [← hval,h1] at hlt
  exact hlt

theorem modExp_exact_iff {mod : UInt64} (hone : 1 ≤ mod.toNat) :
    (∀ base exposant : UInt64, ∃ r, modExp base exposant mod = .ok r ∧
      r.toNat = base.toNat ^ exposant.toNat % mod.toNat) ↔
    2 ≤ mod.toNat ∧ (mod.toNat ≤ 2 ^ 32 ∨ ∃ k, mod.toNat = 2 ^ k) := by
  constructor
  · intro hexact
    refine ⟨two_le_of_exact hone (hexact 0 0),?_⟩
    by_cases hle : mod.toNat ≤ 2 ^ 32
    · exact .inl hle
    · have hdvd := dvd_of_exact (Nat.lt_of_not_le hle) (hexact 4294967296 2)
      exact .inr (toNat_dvd_iff.mp hdvd)
  · intro h base exposant
    obtain ⟨htwo,hle | hpow⟩ := h
    · exact modExp_toNat_of_two_le htwo hle base exposant
    · exact modExp_toNat_of_dvd htwo (toNat_dvd_iff.mpr hpow) base exposant

/-- 2^32 + 1 is the first modulus that fails. -/
theorem modExp_exact_iff_two_pow_32_succ :
    ¬ ∀ base exposant : UInt64, ∃ r, modExp base exposant 4294967297 = .ok r ∧
      r.toNat = base.toNat ^ exposant.toNat % (4294967297 : UInt64).toNat := by
  intro h
  have hbound := (@modExp_exact_iff 4294967297 (by decide)).mp h
  obtain ⟨_,hle | hpow⟩ := hbound
  · exact absurd hle (by decide)
  · exact absurd (toNat_dvd_iff.mpr hpow) (by decide)

theorem privateKey_publicKey {p : UInt64} (htwo : 2 ≤ p.toNat) (hle : p.toNat ≤ 2 ^ 32)
    (g own other : UInt64) :
    ∃ pk r, publicKey p g other = .ok pk ∧ privateKey p pk own = .ok r ∧
      r.toNat = g.toNat ^ (other.toNat * own.toNat) % p.toNat := by
  obtain ⟨pk,hpk,hpkval⟩ := modExp_toNat_of_two_le htwo hle g other
  obtain ⟨r,hr,hrval⟩ := modExp_toNat_of_two_le htwo hle pk own
  refine ⟨pk,r,hpk,hr,?_⟩
  rw [hrval,hpkval,← Nat.pow_mod,pow_mul]

theorem diffie_hellman_agreement {p : UInt64} (htwo : 2 ≤ p.toNat) (hle : p.toNat ≤ 2 ^ 32)
    (g a b : UInt64) :
    ∃ pka pkb r, publicKey p g a = .ok pka ∧ publicKey p g b = .ok pkb ∧
      privateKey p pka b = .ok r ∧ privateKey p pkb a = .ok r ∧
      r.toNat = g.toNat ^ (a.toNat * b.toNat) % p.toNat := by
  obtain ⟨pka,r,hpka,hr,hrval⟩ := privateKey_publicKey htwo hle g b a
  obtain ⟨pkb,s,hpkb,hs,hsval⟩ := privateKey_publicKey htwo hle g a b
  have heq : s = r := by
    rw [← UInt64.toNat_inj,hsval,hrval,Nat.mul_comm]
  exact ⟨pka,pkb,r,hpka,hpkb,hr,heq ▸ hs,hrval⟩

theorem diffie_hellman_agreement_params :
    ∃ pka pkb r, publicKey 101 863 3343 = .ok pka ∧ publicKey 101 863 3343 = .ok pkb ∧
      privateKey 101 pka 3343 = .ok r ∧ privateKey 101 pkb 3343 = .ok r ∧
      r.toNat = (863 : UInt64).toNat ^ ((3343 : UInt64).toNat * (3343 : UInt64).toNat) %
        (101 : UInt64).toNat :=
  diffie_hellman_agreement (by decide) (by decide) 863 3343 3343

end CTalk
