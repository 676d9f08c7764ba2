import Mathlib.Algebra.Group.Basic
import Mathlib.Tactic.Ring

/-! Square-and-multiply over any multiplication, compared with powers in a monoid
through a map that is multiplicative on the values the loop can meet. -/

set_option autoImplicit false

namespace SquareMultiply

variable {α : Type}

/-- Scan the exponent from its low bit, squaring the base once a bit. -/
def loop (mul : α → α → α) (r b : α) (e : Nat) : α :=
  if 0 < e then loop mul (if e % 2 = 1 then mul r b else r) (mul b b) (e / 2) else r
termination_by e
decreasing_by omega

variable (mul : α → α → α)

theorem loop_product {T : α → Prop} (hmul : ∀ a b, T (mul a b)) (r b : α) {e : Nat}
    (he : 0 < e) : T (loop mul r b e) := by
  fun_induction loop mul r b e with
  | case1 r b e _ ih =>
    by_cases hhalf : 0 < e / 2
    · exact ih hhalf
    · have hodd : e % 2 = 1 := by omega
      rw [loop,if_neg hhalf,if_pos hodd]
      exact hmul r b
  | case2 r b e hn => exact absurd he hn

variable {M : Type} [Monoid M]

theorem loop_pow {S : α → Prop} (φ : α → M) (hmul : ∀ a b, S a → S b → S (mul a b))
    (hφ : ∀ a b, S a → S b → φ (mul a b) = φ a * φ b)
    {r b : α} (hr : S r) (hb : S b) (e : Nat) :
    φ (loop mul r b e) = φ r * φ b ^ e := by
  fun_induction loop mul r b e with
  | case1 r b e he ih =>
    simp only [dite_eq_ite] at ih
    have hr' : S (if e % 2 = 1 then mul r b else r) := by
      split
      · exact hmul r b hr hb
      · exact hr
    rw [ih hr' (hmul b b hb hb),hφ b b hb hb,← pow_two,← pow_mul]
    split
    · rename_i hodd
      have he2 : 1 + 2 * (e / 2) = e := by omega
      rw [hφ r b hr hb,mul_assoc,← pow_succ',Nat.add_comm,he2]
    · rename_i heven
      have he2 : 2 * (e / 2) = e := by omega
      rw [he2]
  | case2 r b e he =>
    have he0 : e = 0 := by omega
    rw [he0,pow_zero,mul_one]

end SquareMultiply
