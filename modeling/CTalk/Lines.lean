import Mathlib.Data.List.Basic

/-! A list cut at a separator and then into pieces of bounded length. -/

set_option autoImplicit false

namespace Lines

variable {α : Type}

def pieces (cap : Nat) (l : List α) : List (List α) :=
  if 0 < cap ∧ l ≠ [] then l.take cap :: pieces cap (l.drop cap) else []
termination_by l.length
decreasing_by
  rename_i h
  have hpos := List.length_pos_iff.mpr h.2
  rw [List.length_drop]
  omega

@[simp] theorem pieces_nil (cap : Nat) : pieces cap ([] : List α) = [] := by
  rw [pieces,if_neg (by simp)]

theorem pieces_append {cap : Nat} (hcap : 0 < cap) {l : List α} (hlen : l.length = cap)
    (rest : List α) : pieces cap (l ++ rest) = l :: pieces cap rest := by
  have hne : l ++ rest ≠ [] := by
    intro h
    have hnil := (List.append_eq_nil_iff.mp h).1
    rw [hnil,List.length_nil] at hlen
    omega
  rw [pieces,if_pos ⟨hcap,hne⟩,← hlen,List.take_left,List.drop_left]

theorem pieces_of_le {cap : Nat} {l : List α} (hne : l ≠ []) (hle : l.length ≤ cap) :
    pieces cap l = [l] := by
  have hpos := List.length_pos_iff.mpr hne
  rw [pieces,if_pos ⟨by omega,hne⟩,List.take_of_length_le hle,List.drop_of_length_le hle,
    pieces_nil]

theorem flatten_pieces {cap : Nat} (hcap : 0 < cap) (l : List α) :
    (pieces cap l).flatten = l := by
  fun_induction pieces cap l with
  | case1 l h ih => rw [List.flatten_cons,ih,List.take_append_drop]
  | case2 l h =>
    have hnil : l = [] := by
      by_contra hne
      exact h ⟨hcap,hne⟩
    rw [hnil]
    rfl

theorem mem_pieces {cap : Nat} {l p : List α} (hp : p ∈ pieces cap l) :
    p ≠ [] ∧ p.length ≤ cap ∧ p ⊆ l := by
  fun_induction pieces cap l with
  | case1 l h ih =>
    rcases List.mem_cons.mp hp with hhead | htail
    · rw [hhead]
      refine ⟨?_,List.length_take_le cap l,List.take_subset cap l⟩
      intro hnil
      rcases List.take_eq_nil_iff.mp hnil with hzero | hl
      · exact absurd hzero (by omega)
      · exact h.2 hl
    · obtain ⟨hne,hle,hsub⟩ := ih htail
      exact ⟨hne,hle,fun x hx => List.drop_subset cap l (hsub hx)⟩
  | case2 l h => simp at hp

variable [BEq α]

theorem flatten_splitOn (sep : α) (l : List α) :
    (l.splitOn sep).flatten = l.filter (fun x => !(x == sep)) := by
  induction l with
  | nil => simp
  | cons a l ih =>
    rw [List.splitOn_cons_eq_if_modifyHead,List.filter_cons,← ih]
    obtain ⟨line,lines,hsplit⟩ := List.exists_cons_of_ne_nil (List.splitOn_ne_nil sep l)
    rw [hsplit]
    cases a == sep <;> simp

/-- Split at the separator, cut each line into pieces, drop the empty ones. -/
def cut (sep : α) (cap : Nat) (l : List α) : List (List α) :=
  ((l.splitOn sep).flatMap (pieces cap)).filter (fun p => !p.isEmpty)

theorem cut_eq_flatMap (sep : α) (cap : Nat) (l : List α) :
    cut sep cap l = (l.splitOn sep).flatMap (pieces cap) := by
  rw [cut,List.filter_eq_self]
  intro p hp
  obtain ⟨line,_,hpiece⟩ := List.mem_flatMap.mp hp
  simpa using (mem_pieces hpiece).1

@[simp] theorem cut_nil (sep : α) (cap : Nat) : cut sep cap [] = [] := by
  simp [cut_eq_flatMap]

theorem flatten_cut (sep : α) {cap : Nat} (hcap : 0 < cap) (l : List α) :
    (cut sep cap l).flatten = l.filter (fun x => !(x == sep)) := by
  rw [cut_eq_flatMap,← flatten_splitOn]
  induction l.splitOn sep with
  | nil => rfl
  | cons line lines ih =>
    rw [List.flatMap_cons,List.flatten_append,flatten_pieces hcap,ih,List.flatten_cons]

variable [LawfulBEq α]

theorem splitOn_append {sep : α} {l : List α} (hl : sep ∉ l) (rest : List α) :
    (l ++ rest).splitOn sep = (rest.splitOn sep).modifyHead (l ++ ·) := by
  induction l with
  | nil => cases h : rest.splitOn sep <;> simp [h]
  | cons a l ih =>
    have hne : (a == sep) = false := by
      rw [beq_eq_false_iff_ne]
      intro h
      exact hl (by simp [h])
    have htail := ih (fun h => hl (List.mem_cons_of_mem a h))
    rw [List.cons_append,List.splitOn_cons_eq_if_modifyHead,hne,htail]
    cases rest.splitOn sep <;> simp

theorem not_mem_of_mem_splitOn {sep : α} {l line : List α} (h : line ∈ l.splitOn sep) :
    sep ∉ line := by
  induction l generalizing line with
  | nil =>
    simp only [List.splitOn_nil,List.mem_singleton] at h
    simp [h]
  | cons a l ih =>
    rw [List.splitOn_cons_eq_if_modifyHead] at h
    obtain ⟨first,lines,hsplit⟩ := List.exists_cons_of_ne_nil (List.splitOn_ne_nil sep l)
    rw [hsplit] at h ih
    by_cases heq : a = sep
    · rw [heq,beq_self_eq_true,if_pos rfl] at h
      rcases List.mem_cons.mp h with hhead | htail
      · simp [hhead]
      · exact ih htail
    · rw [beq_eq_false_iff_ne.mpr heq] at h
      simp only [Bool.false_eq_true,if_false,List.modifyHead_cons] at h
      rcases List.mem_cons.mp h with hhead | htail
      · rw [hhead]
        intro hmem
        rcases List.mem_cons.mp hmem with hsep | hin
        · exact heq hsep.symm
        · exact ih (List.mem_cons_self) hin
      · exact ih (List.mem_cons_of_mem first htail)

theorem cut_append {sep : α} {cap : Nat} (hcap : 0 < cap) {l : List α} (hl : sep ∉ l)
    (hlen : l.length = cap) (rest : List α) :
    cut sep cap (l ++ rest) = l :: cut sep cap rest := by
  obtain ⟨line,lines,hsplit⟩ := List.exists_cons_of_ne_nil (List.splitOn_ne_nil sep rest)
  rw [cut_eq_flatMap,cut_eq_flatMap,splitOn_append hl,hsplit,List.modifyHead_cons,
    List.flatMap_cons,List.flatMap_cons,pieces_append hcap hlen,List.cons_append]

theorem cut_line {sep : α} (cap : Nat) {line : List α} (hline : sep ∉ line)
    (rest : List α) :
    cut sep cap (line ++ sep :: rest) = pieces cap line ++ cut sep cap rest := by
  rw [cut_eq_flatMap,cut_eq_flatMap,List.splitOn_append_cons_self_of_not_mem hline,
    List.flatMap_cons]

theorem cut_last {sep : α} (cap : Nat) {line : List α} (hline : sep ∉ line) :
    cut sep cap line = pieces cap line := by
  rw [cut_eq_flatMap,List.splitOn_eq_singleton hline,List.flatMap_singleton]

theorem mem_cut {sep : α} {cap : Nat} {l p : List α} (hp : p ∈ cut sep cap l) :
    p ≠ [] ∧ p.length ≤ cap ∧ sep ∉ p := by
  rw [cut_eq_flatMap] at hp
  obtain ⟨line,hline,hpiece⟩ := List.mem_flatMap.mp hp
  obtain ⟨hne,hle,hsub⟩ := mem_pieces hpiece
  exact ⟨hne,hle,fun h => not_mem_of_mem_splitOn hline (hsub h)⟩

end Lines
