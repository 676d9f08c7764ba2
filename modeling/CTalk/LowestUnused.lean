import Mathlib.Data.Finset.Card
import Mathlib.Data.Fintype.EquivFin
import Mathlib.Data.Nat.Find

/-! The least number outside a finite set, and the bound that counting the set's members
gives for it. -/

set_option autoImplicit false

namespace LowestUnused

def lowestUnused (held : Finset Nat) : Nat := Nat.find (Infinite.exists_notMem_finset held)

variable {held : Finset Nat}

theorem lowestUnused_notMem (held : Finset Nat) : lowestUnused held ∉ held :=
  Nat.find_spec (Infinite.exists_notMem_finset held)

theorem mem_of_lt_lowestUnused {x : Nat} (hx : x < lowestUnused held) : x ∈ held :=
  of_not_not (Nat.find_min (Infinite.exists_notMem_finset held) hx)

theorem lowestUnused_eq_iff (n : Nat) :
    lowestUnused held = n ↔ n ∉ held ∧ ∀ x < n, x ∈ held := by
  constructor
  · intro h
    subst h
    exact ⟨lowestUnused_notMem held,fun x => mem_of_lt_lowestUnused⟩
  · rintro ⟨hn,hbelow⟩
    rcases Nat.lt_trichotomy (lowestUnused held) n with hlt | heq | hgt
    · exact absurd (hbelow _ hlt) (lowestUnused_notMem held)
    · exact heq
    · exact absurd (mem_of_lt_lowestUnused hgt) hn

theorem lowestUnused_lt_iff (held : Finset Nat) (n : Nat) :
    lowestUnused held < n ↔ (held.filter (fun x => x < n)).card < n := by
  have hsub : held.filter (fun x => x < n) ⊆ Finset.range n := by
    intro x hx
    simpa using (Finset.mem_filter.mp hx).2
  have hcard : (held.filter (fun x => x < n)).card ≤ n := by
    simpa using Finset.card_le_card hsub
  constructor
  · intro hlt
    refine lt_of_le_of_ne hcard (fun heq => ?_)
    have hfull : held.filter (fun x => x < n) = Finset.range n :=
      Finset.eq_of_subset_of_card_le hsub (by simp [heq])
    have hmem : lowestUnused held ∈ held.filter (fun x => x < n) := by
      simpa [hfull] using hlt
    exact lowestUnused_notMem held (Finset.mem_filter.mp hmem).1
  · intro hlt
    by_contra hge
    have hfull : Finset.range n ⊆ held.filter (fun x => x < n) := by
      intro x hx
      have hxn := Finset.mem_range.mp hx
      exact Finset.mem_filter.mpr ⟨mem_of_lt_lowestUnused (by omega),hxn⟩
    have hall := Finset.card_le_card hfull
    simp only [Finset.card_range] at hall
    omega

end LowestUnused
