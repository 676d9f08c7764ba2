import Mathlib.Data.Nat.Digits.Lemmas

/-! Decimal text of natural numbers over ASCII bytes. -/

set_option autoImplicit false

namespace Decimal

def isDigit (c : UInt8) : Bool := 48 ≤ c && c ≤ 57

def digitByte (d : Nat) : UInt8 := UInt8.ofNat (48 + d)

def digitValue (c : UInt8) : Nat := c.toNat - 48

/-- The shortest decimal form, most significant digit first. -/
def text (n : Nat) : List UInt8 :=
  if n = 0 then [digitByte 0] else (Nat.digits 10 n).reverse.map digitByte

def value (cs : List UInt8) : Nat := cs.foldl (fun v c => 10 * v + digitValue c) 0

theorem ne_of_isDigit {b c : UInt8} (hc : isDigit c) (hb : isDigit b = false) : c ≠ b := by
  intro h
  rw [h,hb] at hc
  cases hc

theorem isDigit_digitByte {d : Nat} (h : d < 10) : isDigit (digitByte d) := by
  interval_cases d <;> decide

theorem digitValue_digitByte {d : Nat} (h : d < 10) : digitValue (digitByte d) = d := by
  interval_cases d <;> decide

theorem text_of_lt {n : Nat} (h : n < 10) : text n = [digitByte n] := by
  by_cases hn : n = 0
  · simp [text,hn]
  · simp [text,hn,Nat.digits_of_lt 10 n hn h]

theorem text_of_ge {n : Nat} (h : 10 ≤ n) :
    text n = text (n / 10) ++ [digitByte (n % 10)] := by
  have hn : n ≠ 0 := by omega
  have hd : ¬ n / 10 = 0 := by omega
  simp only [text,if_neg hn,if_neg hd]
  rw [Nat.digits_eq_cons_digits_div (by omega) hn,List.reverse_cons,List.map_append]
  rfl

theorem text_induction {P : Nat → Prop} (small : ∀ n, n < 10 → P n)
    (large : ∀ n, 10 ≤ n → P (n / 10) → P n) (n : Nat) : P n := by
  induction n using Nat.strongRecOn with
  | ind n ih =>
    by_cases h : n < 10
    · exact small n h
    · exact large n (by omega) (ih (n / 10) (by omega))

theorem text_ne_nil (n : Nat) : text n ≠ [] := by
  by_cases h : n < 10
  · simp [text_of_lt h]
  · simp [text_of_ge (Nat.le_of_not_lt h)]

theorem isDigit_of_mem_text (n : Nat) : ∀ c ∈ text n, isDigit c := by
  induction n using text_induction with
  | small n h => simpa [text_of_lt h] using isDigit_digitByte h
  | large n h ih =>
    intro c hc
    rw [text_of_ge h,List.mem_append,List.mem_singleton] at hc
    rcases hc with hc | hc
    · exact ih c hc
    · rw [hc]
      exact isDigit_digitByte (Nat.mod_lt n (by omega))

@[simp] theorem value_snoc (cs : List UInt8) (c : UInt8) :
    value (cs ++ [c]) = 10 * value cs + digitValue c := by
  simp [value]

theorem value_text (n : Nat) : value (text n) = n := by
  induction n using text_induction with
  | small n h => simp [text_of_lt h,value,digitValue_digitByte h]
  | large n h ih =>
    have hm := digitValue_digitByte (Nat.mod_lt n (by omega : 0 < 10))
    rw [text_of_ge h,value_snoc,ih,hm]
    omega

theorem text_injective {m n : Nat} (h : text m = text n) : m = n := by
  rw [← value_text m,← value_text n,h]

theorem text_length_le {n k : Nat} (hk : 0 < k) (h : n < 10 ^ k) : (text n).length ≤ k := by
  by_cases hn : n = 0
  · simp [text,hn]
    omega
  · simpa [text,hn] using (Nat.digits_length_le_iff (by omega) n).mpr h

theorem value_eq_zero_iff {cs : List UInt8} (hd : ∀ c ∈ cs, isDigit c) :
    value cs = 0 ↔ ∀ c ∈ cs, c = 48 := by
  induction cs using List.reverseRecOn with
  | nil => simp [value]
  | append_singleton cs c ih =>
    have hcs := ih (fun x hx => hd x (by simp [hx]))
    have hc : digitValue c = 0 ↔ c = 48 := by
      have hdig := hd c (by simp)
      simp only [isDigit,Bool.and_eq_true,decide_eq_true_eq,UInt8.le_iff_toNat_le] at hdig
      rw [← UInt8.toNat_inj]
      have h48 : (48 : UInt8).toNat = 48 := rfl
      simp only [digitValue]
      omega
    rw [value_snoc]
    constructor
    · intro h x hx
      rcases List.mem_append.mp hx with hx | hx
      · exact hcs.mp (by omega) x hx
      · rw [List.mem_singleton.mp hx]
        exact hc.mp (by omega)
    · intro h
      have hv := hcs.mpr (fun x hx => h x (by simp [hx]))
      have hl := hc.mpr (h c (by simp))
      omega

end Decimal
