import Mathlib.Order.Bounds.Basic
import Mathlib.Order.Nat
import Mathlib.Data.Nat.Find

/-! A row of slots, each with a value or nothing in it: how many are occupied, what filling
and clearing them does to that, and where a scan stops that counts them. -/

set_option autoImplicit false

namespace Slots

section counting
variable {α : Type*}

theorem countP_take_set (p : α → Bool) {slots : List α} {i n : Nat} {a : α}
    (hi : slots[i]? = some a) (hn : i < n) (b : α) :
    ((slots.set i b).take n).countP p + (if p a then 1 else 0) =
      (slots.take n).countP p + (if p b then 1 else 0) := by
  obtain ⟨hlt,ha⟩ := List.getElem?_eq_some_iff.mp hi
  have hin : i < (slots.take n).length := by simp; omega
  have hget : (slots.take n)[i] = a := by rw [List.getElem_take,ha]
  rw [List.take_set,List.countP_set hin,hget]
  by_cases hpa : p a
  · have hpos : 0 < (slots.take n).countP p :=
      List.countP_pos_iff.mpr ⟨a,hget ▸ List.getElem_mem hin,hpa⟩
    simp only [hpa,if_true]
    omega
  · simp [hpa]

theorem countP_set (p : α → Bool) {slots : List α} {i : Nat} {a : α}
    (hi : slots[i]? = some a) (b : α) :
    (slots.set i b).countP p + (if p a then 1 else 0) =
      slots.countP p + (if p b then 1 else 0) := by
  obtain ⟨hlt,_⟩ := List.getElem?_eq_some_iff.mp hi
  have h := countP_take_set p hi hlt b
  rwa [List.take_of_length_le (by simp),List.take_length] at h

theorem countP_take_set_of_le (p : α → Bool) (slots : List α) {i n : Nat} (hn : n ≤ i) (b : α) :
    ((slots.set i b).take n).countP p = (slots.take n).countP p := by
  rw [List.take_set,List.set_eq_of_length_le (by simp; omega)]

theorem countP_take_succ (p : α → Bool) {slots : List α} {i : Nat} {a : α}
    (hi : slots[i]? = some a) :
    (slots.take (i + 1)).countP p = (slots.take i).countP p + (if p a then 1 else 0) := by
  rw [List.take_add_one,hi,List.countP_append]
  simp

theorem countP_take_le (p : α → Bool) (slots : List α) (n : Nat) :
    (slots.take n).countP p ≤ n :=
  Nat.le_trans List.countP_le_length (List.length_take_le n slots)

theorem countP_take_le_countP (p : α → Bool) (slots : List α) (n : Nat) :
    (slots.take n).countP p ≤ slots.countP p :=
  (List.take_sublist n slots).countP_le

end counting

variable {α : Type*}

abbrev occupied (slots : List (Option α)) : Nat := slots.countP Option.isSome

abbrev vacant (slots : List (Option α)) : Nat := slots.countP Option.isNone

theorem vacant_of_full {slots : List (Option α)} (hfull : occupied slots = slots.length) :
    vacant slots = 0 := by
  rw [occupied,List.countP_eq_length] at hfull
  rw [vacant,List.countP_eq_zero]
  intro slot hslot
  simp [Option.isSome_iff_ne_none.mp (hfull slot hslot)]

/-- The value goes into every slot that is empty. -/
def fill (a : α) (slots : List (Option α)) : List (Option α) :=
  slots.map (fun slot => some (slot.getD a))

@[simp] theorem length_fill (a : α) (slots : List (Option α)) :
    (fill a slots).length = slots.length := List.length_map _

theorem fill_set {a : α} {slots : List (Option α)} {i : Nat} (hi : slots[i]? = some none) :
    fill a (slots.set i (some a)) = fill a slots := by
  rw [fill,List.map_set]
  apply List.ext_getElem?
  intro j
  by_cases hij : i = j
  · subst hij
    obtain ⟨hlt,hget⟩ := List.getElem?_eq_some_iff.mp hi
    simp [fill,hlt,hget]
  · simp [fill,hij]

theorem fill_of_full (a : α) {slots : List (Option α)} (hfull : occupied slots = slots.length) :
    fill a slots = slots := by
  rw [occupied,List.countP_eq_length] at hfull
  refine (List.map_congr_left ?_).trans (List.map_id slots)
  intro slot hslot
  obtain ⟨b,hb⟩ := Option.isSome_iff_exists.mp (hfull slot hslot)
  rw [hb]
  rfl

theorem occupied_fill (a : α) (slots : List (Option α)) :
    occupied (fill a slots) = slots.length := by
  rw [occupied,List.countP_eq_length.mpr]
  · exact length_fill a slots
  · intro slot hslot
    obtain ⟨b,_,hb⟩ := List.mem_map.mp hslot
    rw [← hb]
    rfl

theorem fill_eq_map (a : α) (slots : List (Option α)) :
    fill a slots = (slots.map (fun slot => slot.getD a)).map some := by
  rw [fill,List.map_map]
  rfl

theorem count_fill [DecidableEq α] (a : α) (slots : List (Option α)) :
    (slots.map (fun slot => slot.getD a)).count a + occupied slots =
      slots.count (some a) + slots.length := by
  induction slots with
  | nil => rfl
  | cons slot slots ih =>
    simp only [occupied] at ih ⊢
    cases slot with
    | none =>
      simp only [List.map_cons,Option.getD_none,List.count_cons_self,List.countP_cons,
        List.length_cons,Option.isSome_none]
      simp
      omega
    | some b =>
      by_cases hb : b = a
      · subst hb
        simp
        omega
      · simp [hb]
        omega

def clear (p : α → Bool) (slots : List (Option α)) : List (Option α) :=
  slots.map (Option.filter (fun a => !p a))

abbrev matching (p : α → Bool) (slots : List (Option α)) : Nat :=
  slots.countP (fun slot => slot.any p)

@[simp] theorem length_clear (p : α → Bool) (slots : List (Option α)) :
    (clear p slots).length = slots.length := List.length_map _

theorem clear_set {p : α → Bool} {slots : List (Option α)} {i : Nat} {a : α}
    (hi : slots[i]? = some (some a)) (ha : p a) :
    clear p (slots.set i none) = clear p slots := by
  rw [clear,List.map_set]
  apply List.ext_getElem?
  intro j
  by_cases hij : i = j
  · subst hij
    obtain ⟨hlt,hget⟩ := List.getElem?_eq_some_iff.mp hi
    simp [clear,hlt,hget,Option.filter,ha]
  · simp [clear,hij]

theorem clear_of_none {p : α → Bool} {slots : List (Option α)} (hno : matching p slots = 0) :
    clear p slots = slots := by
  rw [matching,List.countP_eq_zero] at hno
  refine (List.map_congr_left ?_).trans (List.map_id slots)
  intro slot hslot
  cases slot with
  | none => rfl
  | some a => simpa using hno _ hslot

theorem exists_isLeast {P : Nat → Prop} (h : ∃ n, P n) : ∃ n, IsLeast {n | P n} n := by
  classical
  exact ⟨Nat.find h,Nat.find_spec h,fun m hm => Nat.find_min' h hm⟩

theorem le_length_of_isLeast {slots : List (Option α)} {k n : Nat}
    (hn : IsLeast {n | k ≤ occupied (slots.take n)} n) : n ≤ slots.length := by
  have hreach : k ≤ occupied (slots.take n) := hn.1
  by_contra hlong
  rw [List.take_of_length_le (Nat.le_of_lt (Nat.not_le.mp hlong))] at hreach
  exact hlong (hn.2 (by simpa using hreach))

theorem occupied_of_isLeast {slots : List (Option α)} {k n : Nat}
    (hn : IsLeast {n | k ≤ occupied (slots.take n)} n) : occupied (slots.take n) = k := by
  have hreach : k ≤ occupied (slots.take n) := hn.1
  cases n with
  | zero => simpa [eq_comm] using hreach
  | succ n =>
    have hlen := le_length_of_isLeast hn
    have hbelow : ¬ k ≤ occupied (slots.take n) := by
      intro hle
      have hlow := hn.2 hle
      omega
    have hone : occupied (slots.take (n + 1)) =
        occupied (slots.take n) + (if slots[n].isSome then 1 else 0) :=
      countP_take_succ Option.isSome (List.getElem?_eq_getElem hlen)
    split at hone <;> omega

end Slots
