import Mathlib.Data.Nat.Digits.Defs

/-! Numbers of a fixed width and their digits, the lowest first: each is read off the other. -/

set_option autoImplicit false

namespace LittleEndian
variable {b : Nat}

def digits (b n x : Nat) : List Nat := (List.range n).map (fun i => x / b ^ i % b)

theorem ofDigits_digits (b n x : Nat) : Nat.ofDigits b (digits b n x) = x % b ^ n := by
  induction n with
  | zero => simp [digits,Nat.mod_one]
  | succ n ih =>
    have hlen : (digits b n x).length = n := by simp [digits]
    have hsplit : digits b (n + 1) x = digits b n x ++ [x / b ^ n % b] := by
      simp [digits,List.range_succ]
    rw [hsplit,Nat.ofDigits_append,ih,hlen,Nat.ofDigits_singleton,Nat.mod_pow_succ]

theorem eq_of_digits {n x y : Nat} (hx : x < b ^ n) (hy : y < b ^ n)
    (h : ∀ i < n, x / b ^ i % b = y / b ^ i % b) : x = y := by
  have hdigits : digits b n x = digits b n y := by
    apply List.map_congr_left
    intro i hi
    exact h i (List.mem_range.mp hi)
  have hvalue := congrArg (Nat.ofDigits b) hdigits
  rwa [ofDigits_digits,ofDigits_digits,Nat.mod_eq_of_lt hx,Nat.mod_eq_of_lt hy] at hvalue

theorem ofDigits_div_mod {ds : List Nat} (hds : ∀ d ∈ ds, d < b) {i d : Nat}
    (hi : ds[i]? = some d) : Nat.ofDigits b ds / b ^ i % b = d := by
  have hd : d < b := hds d (List.mem_of_getElem? hi)
  obtain ⟨hlt,hget⟩ := List.getElem?_eq_some_iff.mp hi
  rw [Nat.ofDigits_div_pow_eq_ofDigits_drop i (by omega) ds hds,List.drop_eq_getElem_cons hlt,
    hget,Nat.ofDigits_cons,Nat.add_mul_mod_self_left,Nat.mod_eq_of_lt hd]

end LittleEndian
