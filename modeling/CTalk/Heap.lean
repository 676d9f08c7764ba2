import CTalk.Slots

/-! A heap of strings under malloc, free, reads and strcpy. No address is handed out
twice, so that a use of a block after its release is told apart from a use of the block
that came after it. -/

set_option autoImplicit false

namespace Heap

variable {α : Type}

inductive Misuse where
  | null | wild | freed | uninit | overflow
  deriving DecidableEq, Repr

inductive Content (α : Type) where
  | uninit
  | text : List α → Content α
  | freed
  deriving DecidableEq

structure Block (α : Type) where
  size : Nat
  content : Content α
  deriving DecidableEq

abbrev Memory (α : Type) := List (Block α)

abbrev Pointer := Option Nat

def malloc (mem : Memory α) (size : Nat) (succeeds : Bool) : Memory α × Pointer :=
  if succeeds then (mem ++ [⟨size,.uninit⟩],some mem.length) else (mem,none)

def free (mem : Memory α) : Pointer → Except Misuse (Memory α)
  | none => .ok mem
  | some p =>
    match mem[p]? with
    | none => .error .wild
    | some ⟨_,.freed⟩ => .error .freed
    | some b => .ok (mem.set p { b with content := .freed })

def load (mem : Memory α) : Pointer → Except Misuse (List α)
  | none => .error .null
  | some p =>
    match mem[p]? with
    | none => .error .wild
    | some ⟨_,.freed⟩ => .error .freed
    | some ⟨_,.uninit⟩ => .error .uninit
    | some ⟨_,.text t⟩ => .ok t

/-- The terminator takes one cell more than the text. -/
def strcpy (mem : Memory α) (dest : Pointer) (t : List α) : Except Misuse (Memory α) :=
  match dest with
  | none => .error .null
  | some p =>
    match mem[p]? with
    | none => .error .wild
    | some ⟨_,.freed⟩ => .error .freed
    | some b =>
      if b.size < t.length + 1 then .error .overflow
      else .ok (mem.set p { b with content := .text t })

variable {mem : Memory α} {p size : Nat} {t : List α}

@[simp] theorem free_none (mem : Memory α) : free mem none = .ok mem := rfl

@[simp] theorem malloc_true_pointer (mem : Memory α) (size : Nat) :
    (malloc mem size true).2 = some mem.length := rfl

@[simp] theorem malloc_false (mem : Memory α) (size : Nat) :
    malloc mem size false = (mem,none) := rfl

theorem getElem?_malloc (mem : Memory α) (size : Nat) :
    (malloc mem size true).1[mem.length]? = some (⟨size,.uninit⟩ : Block α) := by
  simp [malloc]

theorem free_text (h : mem[p]? = some ⟨size,.text t⟩) :
    free mem (some p) = .ok (mem.set p ⟨size,.freed⟩) := by
  simp only [free,h]

theorem load_text (h : mem[p]? = some ⟨size,.text t⟩) : load mem (some p) = .ok t := by
  simp only [load,h]

theorem load_ok_inv {dest : Pointer} (h : load mem dest = .ok t) :
    ∃ p size, dest = some p ∧ mem[p]? = some ⟨size,.text t⟩ := by
  unfold load at h
  split at h
  · cases h
  · rename_i p
    split at h
    · cases h
    · cases h
    · cases h
    · rename_i size t' hblock
      cases h
      exact ⟨p,size,rfl,hblock⟩

theorem load_uninit (h : mem[p]? = some ⟨size,.uninit⟩) :
    load mem (some p) = .error .uninit := by
  simp only [load,h]

theorem strcpy_uninit (h : mem[p]? = some ⟨size,.uninit⟩) (hsize : t.length < size) :
    strcpy mem (some p) t = .ok (mem.set p ⟨size,.text t⟩) := by
  simp only [strcpy,h]
  rw [if_neg (by omega)]

theorem getElem?_set_block (h : mem[p]? = some ⟨size,.uninit⟩) (b : Block α) :
    (mem.set p b)[p]? = some b := by
  obtain ⟨hp,_⟩ := List.getElem?_eq_some_iff.mp h
  exact List.getElem?_set_self hp

theorem load_strcpy {dest : Pointer} {next : Memory α} (h : strcpy mem dest t = .ok next) :
    load next dest = .ok t := by
  unfold strcpy at h
  split at h
  · cases h
  · rename_i p
    split at h
    · cases h
    · cases h
    · rename_i b hblock
      split at h
      · cases h
      · cases h
        obtain ⟨hp,_⟩ := List.getElem?_eq_some_iff.mp hblock
        exact load_text (List.getElem?_set_self hp)

theorem load_free {dest : Pointer} {next : Memory α} (h : free mem dest = .ok next) :
    load next dest ≠ .ok t := by
  intro hload
  obtain ⟨p,size,hp,hblock⟩ := load_ok_inv hload
  subst hp
  simp only [free] at h
  split at h
  · cases h
  · cases h
  · rename_i b hb
    cases h
    obtain ⟨hp,_⟩ := List.getElem?_eq_some_iff.mp hb
    rw [List.getElem?_set_self hp] at hblock
    cases hblock

theorem load_malloc (mem : Memory α) (size : Nat) (succeeds : Bool) :
    load (malloc mem size succeeds).1 (malloc mem size succeeds).2 ≠ .ok t := by
  cases succeeds with
  | false => nofun
  | true =>
    rw [malloc_true_pointer,load_uninit (getElem?_malloc mem size)]
    nofun

def Block.isLive (b : Block α) : Bool :=
  match b.content with
  | .freed => false
  | _ => true

def live (mem : Memory α) : Nat := mem.countP Block.isLive

@[simp] theorem live_append (mem rest : Memory α) : live (mem ++ rest) = live mem + live rest :=
  List.countP_append

@[simp] theorem live_nil : live ([] : Memory α) = 0 := rfl

@[simp] theorem live_text (size : Nat) (t : List α) (rest : Memory α) :
    live (⟨size,.text t⟩ :: rest) = live rest + 1 := List.countP_cons_of_pos rfl

@[simp] theorem live_uninit (size : Nat) (rest : Memory α) :
    live (⟨size,.uninit⟩ :: rest) = live rest + 1 := List.countP_cons_of_pos rfl

@[simp] theorem live_freed (size : Nat) (rest : Memory α) :
    live (⟨size,.freed⟩ :: rest) = live rest := List.countP_cons_of_neg nofun

theorem live_set_freed (h : mem[p]? = some ⟨size,.text t⟩) :
    live (mem.set p ⟨size,.freed⟩) + 1 = live mem :=
  Slots.countP_set Block.isLive h ⟨size,.freed⟩

variable {rest : Memory α}

theorem getElem?_here (mem : Memory α) (b : Block α) (rest : Memory α) :
    (mem ++ b :: rest)[mem.length]? = some b := by simp

theorem set_here (mem : Memory α) (b c : Block α) (rest : Memory α) :
    (mem ++ b :: rest).set mem.length c = mem ++ c :: rest := by simp

theorem strcpy_malloc (mem : Memory α) (hsize : t.length < size) :
    strcpy (malloc mem size true).1 (some mem.length) t = .ok (mem ++ [⟨size,.text t⟩]) := by
  rw [strcpy_uninit (getElem?_malloc mem size) hsize]
  exact congrArg Except.ok (set_here mem _ _ [])

theorem free_malloc (mem : Memory α) (size : Nat) :
    free (malloc mem size true).1 (some mem.length) = .ok (mem ++ [⟨size,.freed⟩]) := by
  simp only [free,getElem?_malloc]
  exact congrArg Except.ok (set_here mem _ _ [])

theorem load_here (mem : Memory α) (size : Nat) (t : List α) (rest : Memory α) :
    load (mem ++ ⟨size,.text t⟩ :: rest) (some mem.length) = .ok t :=
  load_text (getElem?_here mem _ rest)

theorem free_here (mem : Memory α) (size : Nat) (t : List α) (rest : Memory α) :
    free (mem ++ ⟨size,.text t⟩ :: rest) (some mem.length) =
      .ok (mem ++ ⟨size,.freed⟩ :: rest) := by
  rw [free_text (getElem?_here mem _ rest),set_here]

theorem strcpy_here {u : List α} (mem : Memory α) (hsize : u.length < size) :
    strcpy (mem ++ [⟨size,.text t⟩]) (some mem.length) u = .ok (mem ++ [⟨size,.text u⟩]) := by
  simp only [strcpy,getElem?_here,set_here]
  rw [if_neg (by omega)]

theorem load_front {dest : Pointer} (h : load mem dest = .ok t) (rest : Memory α) :
    load (mem ++ rest) dest = .ok t := by
  obtain ⟨p,size,hp,hblock⟩ := load_ok_inv h
  obtain ⟨hlt,_⟩ := List.getElem?_eq_some_iff.mp hblock
  rw [hp]
  exact load_text (by rwa [List.getElem?_append_left hlt])

def released (mem : Memory α) (dest : Pointer) : Memory α := (free mem dest).toOption.getD mem

/-- The pointer is null, or there is a string at it. -/
def Valid (mem : Memory α) (dest : Pointer) : Prop := dest ≠ none → ∃ t, load mem dest = .ok t

@[simp] theorem released_none (mem : Memory α) : released mem none = mem := rfl

theorem released_text (h : mem[p]? = some ⟨size,.text t⟩) :
    released mem (some p) = mem.set p ⟨size,.freed⟩ := by
  rw [released,free_text h]
  rfl

theorem length_released {dest : Pointer} (h : Valid mem dest) :
    (released mem dest).length = mem.length := by
  cases dest with
  | none => rfl
  | some q =>
    obtain ⟨t,ht⟩ := h nofun
    obtain ⟨p,size,hp,hblock⟩ := load_ok_inv ht
    cases hp
    rw [released_text hblock,List.length_set]

theorem free_valid {dest : Pointer} (h : Valid mem dest) (rest : Memory α) :
    free (mem ++ rest) dest = .ok (released mem dest ++ rest) := by
  cases dest with
  | none => rfl
  | some q =>
    obtain ⟨t,ht⟩ := h nofun
    obtain ⟨p,size,hp,hblock⟩ := load_ok_inv ht
    cases hp
    obtain ⟨hlt,_⟩ := List.getElem?_eq_some_iff.mp hblock
    rw [released_text hblock,free_text (by rwa [List.getElem?_append_left hlt]),
      List.set_append_left _ _ hlt]

theorem live_released {dest : Pointer} (h : Valid mem dest) :
    live (released mem dest) + dest.toList.length = live mem := by
  cases dest with
  | none => rfl
  | some q =>
    obtain ⟨t,ht⟩ := h nofun
    obtain ⟨p,size,hp,hblock⟩ := load_ok_inv ht
    cases hp
    rw [released_text hblock]
    exact live_set_freed hblock

def Blank (mem : Memory α) (p size : Nat) : Prop := mem[p]? = some ⟨size,.uninit⟩

section blank
variable {dest : Pointer}

theorem Blank.lt (h : Blank mem p size) : p < mem.length :=
  (List.getElem?_eq_some_iff.mp h).1

theorem Blank.append (h : Blank mem p size) (rest : Memory α) : Blank (mem ++ rest) p size := by
  rw [Blank,List.getElem?_append_left h.lt]
  exact h

theorem blank_malloc (mem : Memory α) (size : Nat) :
    Blank (mem ++ [⟨size,.uninit⟩]) mem.length size := getElem?_here mem _ []

theorem Blank.set (h : Blank mem p size) {q : Nat} (hne : p ≠ q) (b : Block α) :
    Blank (mem.set q b) p size := by
  rw [Blank,List.getElem?_set_ne hne.symm]
  exact h

theorem free_blank (h : Blank mem p size) :
    free mem (some p) = .ok (mem.set p ⟨size,.freed⟩) := by
  rw [Blank] at h
  simp only [free,h]

theorem live_set_blank (h : Blank mem p size) (b : Block α) :
    live (mem.set p b) + 1 = live mem + live [b] := by
  have hset := Slots.countP_set Block.isLive h b
  simpa [live,List.countP_cons,Block.isLive] using hset

theorem load_set_blank (h : Blank mem p size) (hload : load mem dest = .ok t) (b : Block α) :
    load (mem.set p b) dest = .ok t := by
  obtain ⟨q,_,hq,hblock⟩ := load_ok_inv hload
  have hne : p ≠ q := by
    intro heq
    rw [Blank,heq,hblock] at h
    cases h
  rw [hq]
  exact load_text (by rwa [List.getElem?_set_ne hne])

theorem Valid.set_blank (hvalid : Valid mem dest) (h : Blank mem p size) (b : Block α) :
    Valid (mem.set p b) dest := by
  intro hne
  obtain ⟨t,ht⟩ := hvalid hne
  exact ⟨t,load_set_blank h ht b⟩

theorem released_set_blank (hvalid : Valid mem dest) (h : Blank mem p size) (b : Block α) :
    released (mem.set p b) dest = (released mem dest).set p b := by
  cases dest with
  | none => rfl
  | some q =>
    obtain ⟨t,ht⟩ := hvalid nofun
    obtain ⟨_,_,hq,hblock⟩ := load_ok_inv ht
    cases hq
    have hne : p ≠ q := by
      intro heq
      rw [Blank,heq,hblock] at h
      cases h
    rw [released_text hblock,released_text (by rwa [List.getElem?_set_ne hne])]
    exact List.set_comm _ _ hne

theorem Blank.released (h : Blank mem p size) (hvalid : Valid mem dest) :
    Blank (released mem dest) p size := by
  cases dest with
  | none => exact h
  | some q =>
    obtain ⟨t,ht⟩ := hvalid nofun
    obtain ⟨_,_,hq,hblock⟩ := load_ok_inv ht
    cases hq
    rw [released_text hblock]
    apply h.set
    intro heq
    rw [Blank,heq,hblock] at h
    cases h

end blank

/-- Each pointer is null, or has a block of its own in which nothing is written yet. -/
structure Owned (mem : Memory α) (size : Nat) (ps : List Pointer) : Prop where
  blank : ∀ {i p : Nat}, ps[i]? = some (some p) → Blank mem p size
  apart : ∀ {i j p : Nat}, ps[i]? = some (some p) → ps[j]? = some (some p) → i = j

section owned
variable {mem' : Memory α} {ps : List Pointer}

theorem Owned.of_blank (h : Owned mem size ps)
    (hkeeps : ∀ p, Blank mem p size → Blank mem' p size) : Owned mem' size ps :=
  ⟨fun hp => hkeeps _ (h.blank hp),h.apart⟩

theorem Owned.push (h : Owned mem size ps) {n : Nat}
    (hkeeps : ∀ p, Blank mem p size → Blank mem' p size) (hn : Blank mem' n size)
    (hnew : mem.length ≤ n) : Owned mem' size (ps ++ [some n]) where
  blank := by
    intro i p hp
    rw [List.getElem?_append] at hp
    split at hp
    · exact hkeeps p (h.blank hp)
    · obtain ⟨_,hlast⟩ := List.getElem?_eq_some_iff.mp hp
      have hpn : p = n := by simpa using hlast.symm
      exact hpn ▸ hn
  apart := by
    intro i j p hi hj
    rw [List.getElem?_append] at hi hj
    split at hi <;> split at hj
    · exact h.apart hi hj
    · have hlt := (h.blank hi).lt
      obtain ⟨_,hlast⟩ := List.getElem?_eq_some_iff.mp hj
      have hpn : p = n := by simpa using hlast.symm
      omega
    · have hlt := (h.blank hj).lt
      obtain ⟨_,hlast⟩ := List.getElem?_eq_some_iff.mp hi
      have hpn : p = n := by simpa using hlast.symm
      omega
    · obtain ⟨hilt,_⟩ := List.getElem?_eq_some_iff.mp hi
      obtain ⟨hjlt,_⟩ := List.getElem?_eq_some_iff.mp hj
      rw [List.length_singleton] at hilt hjlt
      omega

/-- One block is given up, for a new one or for none. -/
theorem Owned.set (h : Owned mem size ps) {i p : Nat} (hi : ps[i]? = some (some p))
    {next : Pointer} (hkeeps : ∀ q, q ≠ p → Blank mem q size → Blank mem' q size)
    (hnext : ∀ n, next = some n → Blank mem' n size ∧ mem.length ≤ n) :
    Owned mem' size (ps.set i next) where
  blank := by
    intro j q hq
    by_cases hij : i = j
    · subst hij
      obtain ⟨hlt,_⟩ := List.getElem?_eq_some_iff.mp hi
      rw [List.getElem?_set_self hlt] at hq
      exact (hnext q (Option.some.inj hq)).1
    · rw [List.getElem?_set_ne hij] at hq
      exact hkeeps q (fun heq => hij (h.apart hi (heq ▸ hq))) (h.blank hq)
  apart := by
    have hfresh : ∀ {j q : Nat}, next = some q → ps[j]? ≠ some (some q) := by
      intro j q hq hj
      have hlt := (h.blank hj).lt
      have hge := (hnext q hq).2
      omega
    obtain ⟨hlt,_⟩ := List.getElem?_eq_some_iff.mp hi
    intro j k q hj hk
    by_cases hij : i = j <;> by_cases hik : i = k
    · exact hij.symm.trans hik
    · subst hij
      rw [List.getElem?_set_self hlt] at hj
      rw [List.getElem?_set_ne hik] at hk
      exact absurd hk (hfresh (Option.some.inj hj))
    · subst hik
      rw [List.getElem?_set_self hlt] at hk
      rw [List.getElem?_set_ne hij] at hj
      exact absurd hj (hfresh (Option.some.inj hk))
    · rw [List.getElem?_set_ne hij] at hj
      rw [List.getElem?_set_ne hik] at hk
      exact h.apart hj hk

end owned

end Heap
