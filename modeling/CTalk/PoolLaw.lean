import CTalk.Slots
import CTalk.ThreadSlots

/-! add_to_pool and remove_from_pool on any pool whatever: where their loops stop, what they
leave in every slot, and which of the two can run out of the array. -/

set_option autoImplicit false

namespace CTalk
open ByteStream Slots

theorem ThreadPool.eq_of {tp tp' : ThreadPool} (hsize : tp.size = tp'.size)
    (hpool : tp.pool = tp'.pool) : tp = tp' := by
  obtain ⟨size,capacity,pool,allocated⟩ := tp
  obtain ⟨size',capacity',pool',allocated'⟩ := tp'
  simp only at hsize hpool
  subst hsize hpool
  have hcap : capacity = capacity' := allocated.symm.trans allocated'
  subst hcap
  rfl

theorem length_take_drop {slots : List (Option Thread)} {capacity : Nat}
    (allocated : slots.length = capacity) {rest : List (Option Thread)} {n : Nat}
    (hrest : rest.length = (slots.take n).length) :
    (rest ++ slots.drop n).length = capacity := by
  rw [List.length_append,hrest,← List.length_append,List.take_append_drop,allocated]

/-- The thread in every NULL slot of the first n, and the bound moved behind them. -/
def ThreadPool.filled (tp : ThreadPool) (thread : Thread) (n : Nat) : ThreadPool where
  size := n
  capacity := tp.capacity
  pool := fill thread (tp.pool.take n) ++ tp.pool.drop n
  allocated := length_take_drop tp.allocated (length_fill _ _)
  positive := tp.positive
  fits := tp.fits

/-- The number of slots, from the first, that hold as many threads as the bound counts. -/
def ThreadPool.Counted (tp : ThreadPool) (n : Nat) : Prop :=
  IsLeast {n | tp.size ≤ occupied (tp.pool.take n)} n

section adding
variable {thread : Thread}

theorem counted_store {tp : ThreadPool} {i n : Nat} (hi : i < tp.size)
    (hhole : tp.pool[i]? = some none) (hn : tp.Counted n) :
    ThreadPool.Counted { tp.setSlot i (some thread) with size := tp.size + 1 } n := by
  have hset : {n | tp.size + 1 ≤ occupied ((tp.pool.set i (some thread)).take n)} =
      {n | tp.size ≤ occupied (tp.pool.take n)} := by
    ext m
    simp only [Set.mem_ofPred_eq]
    by_cases hm : i < m
    · have hstep : occupied ((tp.pool.set i (some thread)).take m) + 0 =
          occupied (tp.pool.take m) + 1 := countP_take_set Option.isSome hhole hm (some thread)
      omega
    · have hsame : occupied ((tp.pool.set i (some thread)).take m) =
          occupied (tp.pool.take m) := countP_take_set_of_le _ _ (Nat.not_lt.mp hm) _
      have hle : occupied (tp.pool.take m) ≤ m := countP_take_le _ _ _
      omega
  rw [ThreadPool.Counted] at hn ⊢
  rwa [← hset] at hn

theorem lt_of_counted {tp : ThreadPool} {i n : Nat} (hi : i < tp.size) (hn : tp.Counted n) :
    i < n := by
  have hreach : tp.size ≤ occupied (tp.pool.take n) := hn.1
  have hle : occupied (tp.pool.take n) ≤ n := countP_take_le _ _ _
  omega

theorem filled_store {tp : ThreadPool} {i n : Nat} (hin : i < n)
    (hhole : tp.pool[i]? = some none) :
    ThreadPool.filled { tp.setSlot i (some thread) with size := tp.size + 1 } thread n =
      tp.filled thread n := by
  have htake : (tp.pool.take n)[i]? = some none := by rw [List.getElem?_take_of_lt hin,hhole]
  apply ThreadPool.eq_of
  · rfl
  · simp only [ThreadPool.filled,ThreadPool.setSlot,List.take_set,fill_set htake]
    rw [List.drop_set_of_lt hin]

theorem full_store {tp : ThreadPool} {i : Nat} (hfull : occupied (tp.pool.take i) = i)
    (hhole : tp.pool[i]? = some none) :
    occupied ((tp.setSlot i (some thread)).pool.take (i + 1)) = i + 1 := by
  have hstore : occupied ((tp.pool.set i (some thread)).take (i + 1)) + 0 =
      occupied (tp.pool.take (i + 1)) + 1 :=
    countP_take_set Option.isSome hhole (Nat.lt_succ_self i) (some thread)
  have hone : occupied (tp.pool.take (i + 1)) = occupied (tp.pool.take i) + 0 :=
    countP_take_succ Option.isSome hhole
  simp only [ThreadPool.setSlot]
  omega

theorem full_pass {tp : ThreadPool} {i : Nat} (hfull : occupied (tp.pool.take i) = i)
    {u : Thread} (hread : tp.pool[i]? = some (some u)) :
    occupied (tp.pool.take (i + 1)) = i + 1 := by
  have hone : occupied (tp.pool.take (i + 1)) = occupied (tp.pool.take i) + 1 :=
    countP_take_succ Option.isSome hread
  omega

theorem counted_of_full {tp : ThreadPool} {n : Nat}
    (hfull : occupied (tp.pool.take tp.size) = tp.size) (hn : tp.Counted n) : n = tp.size := by
  have hreach : tp.size ≤ occupied (tp.pool.take n) := hn.1
  have hle : occupied (tp.pool.take n) ≤ n := countP_take_le _ _ _
  have hlow : n ≤ tp.size := hn.2 (by rw [Set.mem_ofPred_eq,hfull])
  omega

theorem filled_of_full {tp : ThreadPool} (hfull : occupied (tp.pool.take tp.size) = tp.size) :
    tp.filled thread tp.size = tp := by
  have hlen : occupied (tp.pool.take tp.size) ≤ (tp.pool.take tp.size).length :=
    List.countP_le_length
  rw [List.length_take] at hlen
  have hall : occupied (tp.pool.take tp.size) = (tp.pool.take tp.size).length := by
    rw [List.length_take]
    omega
  apply ThreadPool.eq_of
  · rfl
  · simp only [ThreadPool.filled]
    rw [fill_of_full thread hall,List.take_append_drop]

/-- The loop keeps the slots it has passed occupied, and with them the place it stops. -/
theorem addLoop_eq {tp : ThreadPool} {i n : Nat} (hfull : occupied (tp.pool.take i) = i)
    (hi : i ≤ tp.size) (hn : tp.Counted n) :
    addLoop thread tp i = .ok (tp.filled thread n) := by
  fun_induction addLoop thread tp i with
  | case1 tp i hlt hread =>
    have hlen := List.getElem?_eq_none_iff.mp hread
    have hin := lt_of_counted hlt hn
    have hnlen := le_length_of_isLeast hn
    omega
  | case2 tp i hlt hread hbig =>
    have hreach := (@counted_store thread _ _ _ hlt hread hn).1
    have hle : occupied ((tp.pool.set i (some thread)).take n) ≤ n := countP_take_le _ _ _
    have hlen := le_length_of_isLeast hn
    have halloc := tp.allocated
    have hfits := tp.fits
    simp only [ThreadPool.setSlot,Set.mem_ofPred_eq] at hreach
    omega
  | case3 tp i hlt hread hbig ih =>
    have hin := lt_of_counted hlt hn
    rw [ih (full_store hfull hread) (Nat.succ_le_succ hi) (counted_store hlt hread hn)]
    rw [filled_store hin hread]
  | case4 tp i hlt u hread ih => exact ih (full_pass hfull hread) hlt hn
  | case5 tp i hstop =>
    have heq : i = tp.size := by omega
    subst heq
    rw [counted_of_full hfull hn,filled_of_full hfull]

theorem vacant_store {tp : ThreadPool} {i : Nat} (hhole : tp.pool[i]? = some none) :
    vacant (tp.setSlot i (some thread)).pool + 1 = vacant tp.pool :=
  countP_set Option.isNone hhole (some thread)

theorem short_store {tp : ThreadPool} {i : Nat} (hhole : tp.pool[i]? = some none)
    (hshort : occupied tp.pool < tp.size) :
    occupied (tp.setSlot i (some thread)).pool < tp.size + 1 := by
  have hstore : occupied (tp.pool.set i (some thread)) + 0 = occupied tp.pool + 1 :=
    countP_set Option.isSome hhole (some thread)
  simp only [ThreadPool.setSlot]
  omega

theorem lt_of_short {tp : ThreadPool} {i : Nat} (hfull : occupied (tp.pool.take i) = i)
    (hshort : occupied tp.pool < tp.size) : i < tp.size := by
  have hle : occupied (tp.pool.take i) ≤ occupied tp.pool := countP_take_le_countP _ _ _
  omega

/-- One size++ for every NULL slot leaves the range of the int. -/
def ThreadPool.Overruns (tp : ThreadPool) : Prop :=
  0 < vacant tp.pool ∧ 2 ^ 31 ≤ tp.size + vacant tp.pool

theorem overruns_store {tp : ThreadPool} {i : Nat} (hhole : tp.pool[i]? = some none)
    (hfits : ¬ 2 ^ 31 ≤ tp.size + 1) :
    ThreadPool.Overruns { tp.setSlot i (some thread) with size := tp.size + 1 } ↔
      tp.Overruns := by
  have hvacant : vacant (tp.setSlot i (some thread)).pool + 1 = vacant tp.pool :=
    vacant_store hhole
  have hsum : tp.size + 1 + vacant (tp.setSlot i (some thread)).pool =
      tp.size + vacant tp.pool := by omega
  change 0 < vacant (tp.setSlot i (some thread)).pool ∧
    2 ^ 31 ≤ tp.size + 1 + vacant (tp.setSlot i (some thread)).pool ↔ tp.Overruns
  rw [ThreadPool.Overruns,hsum]
  omega

theorem addLoop_runs_out {tp : ThreadPool} {i : Nat} (hfull : occupied (tp.pool.take i) = i)
    (hshort : occupied tp.pool < tp.size) (hroom : ¬ tp.Overruns) :
    addLoop thread tp i = .error .outOfBounds := by
  fun_induction addLoop thread tp i with
  | case1 tp i hlt hread => rfl
  | case2 tp i hlt hread hbig =>
    have hvacant := @vacant_store thread _ _ hread
    exact absurd ⟨by omega,by omega⟩ hroom
  | case3 tp i hlt hread hbig ih =>
    rw [← @overruns_store thread _ _ hread hbig] at hroom
    exact ih (full_store hfull hread) (short_store hread hshort) hroom
  | case4 tp i hlt u hread ih => exact ih (full_pass hfull hread) hshort hroom
  | case5 tp i hstop => exact absurd (lt_of_short hfull hshort) hstop

theorem addLoop_overruns {tp : ThreadPool} {i : Nat} (hfull : occupied (tp.pool.take i) = i)
    (hshort : occupied tp.pool < tp.size) (hover : tp.Overruns) :
    addLoop thread tp i = .error .signedOverflow := by
  fun_induction addLoop thread tp i with
  | case1 tp i hlt hread =>
    have hend := List.getElem?_eq_none_iff.mp hread
    have hle : occupied tp.pool ≤ tp.pool.length := List.countP_le_length
    rw [List.take_of_length_le hend] at hfull
    have hnone := vacant_of_full (Nat.le_antisymm hle (by omega))
    exact absurd hover.1 (by omega)
  | case2 tp i hlt hread hbig => rfl
  | case3 tp i hlt hread hbig ih =>
    rw [← @overruns_store thread _ _ hread hbig] at hover
    exact ih (full_store hfull hread) (short_store hread hshort) hover
  | case4 tp i hlt u hread ih => exact ih (full_pass hfull hread) hshort hover
  | case5 tp i hstop => exact absurd (lt_of_short hfull hshort) hstop

theorem exists_counted {tp : ThreadPool} (henough : tp.size ≤ occupied tp.pool) :
    ∃ n, tp.Counted n :=
  exists_isLeast ⟨tp.pool.length,by rwa [List.take_length]⟩

theorem size_le_of_counted {tp : ThreadPool} {n : Nat} (hn : tp.Counted n) :
    tp.size ≤ occupied tp.pool :=
  Nat.le_trans hn.1 (countP_take_le_countP _ _ _)

end adding

theorem addToPool_of_canGrow {tp : ThreadPool} (hgrow : tp.CanGrow)
    (fresh : Nat → Option Thread) (thread : Thread) :
    addToPool fresh tp thread = addLoop thread (tp.makeRoom fresh) 0 := by
  rw [addToPool,if_neg]
  intro hbig
  have hfits := hgrow hbig.1
  omega

theorem addToPool_counted {tp : ThreadPool} (hgrow : tp.CanGrow) (fresh : Nat → Option Thread)
    {n : Nat} (hn : (tp.makeRoom fresh).Counted n) (thread : Thread) :
    addToPool fresh tp thread = .ok ((tp.makeRoom fresh).filled thread n) := by
  rw [addToPool_of_canGrow hgrow]
  exact addLoop_eq rfl (Nat.zero_le _) hn

theorem addToPool_short {tp : ThreadPool} (hgrow : tp.CanGrow) (fresh : Nat → Option Thread)
    (hshort : occupied (tp.makeRoom fresh).pool < tp.size)
    (hroom : ¬ (tp.makeRoom fresh).Overruns) (thread : Thread) :
    addToPool fresh tp thread = .error .outOfBounds := by
  rw [addToPool_of_canGrow hgrow]
  exact addLoop_runs_out rfl (by rwa [makeRoom_size]) hroom

theorem addToPool_overruns {tp : ThreadPool} (hgrow : tp.CanGrow)
    (fresh : Nat → Option Thread) (hshort : occupied (tp.makeRoom fresh).pool < tp.size)
    (hover : (tp.makeRoom fresh).Overruns) (thread : Thread) :
    addToPool fresh tp thread = .error .signedOverflow := by
  rw [addToPool_of_canGrow hgrow]
  exact addLoop_overruns rfl (by rwa [makeRoom_size]) hover

theorem addToPool_overflow {tp : ThreadPool} (hgrow : ¬ tp.CanGrow)
    (fresh : Nat → Option Thread) (thread : Thread) :
    addToPool fresh tp thread = .error .signedOverflow := by
  rw [ThreadPool.CanGrow,Classical.not_imp,Nat.not_lt] at hgrow
  rw [addToPool,if_pos hgrow]

/-- The outcome of every call of add_to_pool. -/
theorem addToPool_law (fresh : Nat → Option Thread) (tp : ThreadPool) (thread : Thread) :
    (∀ tp', addToPool fresh tp thread = .ok tp' ↔ tp.CanGrow ∧
      ∃ n, (tp.makeRoom fresh).Counted n ∧ tp' = (tp.makeRoom fresh).filled thread n) ∧
    (addToPool fresh tp thread = .error .outOfBounds ↔ tp.CanGrow ∧
      occupied (tp.makeRoom fresh).pool < tp.size ∧ ¬ (tp.makeRoom fresh).Overruns) ∧
    (addToPool fresh tp thread = .error .signedOverflow ↔ ¬ tp.CanGrow ∨
      occupied (tp.makeRoom fresh).pool < tp.size ∧ (tp.makeRoom fresh).Overruns) := by
  by_cases hgrow : tp.CanGrow
  · rcases Nat.lt_or_ge (occupied (tp.makeRoom fresh).pool) tp.size with hshort | henough
    · have hnone : ∀ n, ¬ (tp.makeRoom fresh).Counted n := by
        intro n hn
        have hle := size_le_of_counted hn
        rw [makeRoom_size] at hle
        omega
      by_cases hover : (tp.makeRoom fresh).Overruns
      · rw [addToPool_overruns hgrow fresh hshort hover]
        simp [hgrow,hnone,hshort,hover]
      · rw [addToPool_short hgrow fresh hshort hover]
        simp [hgrow,hnone,hshort,hover]
    · obtain ⟨n,hn⟩ := exists_counted (by rwa [makeRoom_size fresh tp])
      have hlong : ¬ occupied (tp.makeRoom fresh).pool < tp.size := Nat.not_lt.mpr henough
      rw [addToPool_counted hgrow fresh hn]
      refine ⟨?_,by simp [hlong],by simp [hgrow,hlong]⟩
      intro tp'
      constructor
      · intro h
        cases h
        exact ⟨hgrow,n,hn,rfl⟩
      · rintro ⟨_,m,hm,rfl⟩
        rw [hm.unique hn]
  · rw [addToPool_overflow hgrow]
    simp [hgrow]

def sameId (thread t : Thread) : Bool := t.threadId = thread.threadId

def ThreadPool.cleared (tp : ThreadPool) (thread : Thread) (n : Nat) : ThreadPool where
  size := tp.size - matching (sameId thread) (tp.pool.take n)
  capacity := tp.capacity
  pool := clear (sameId thread) (tp.pool.take n) ++ tp.pool.drop n
  allocated := length_take_drop tp.allocated (length_clear _ _)
  positive := tp.positive
  fits := tp.fits

def ThreadPool.ScannedFrom (tp : ThreadPool) (thread : Thread) (i n : Nat) : Prop :=
  IsLeast {n | i ≤ n ∧ tp.size ≤ n + matching (sameId thread) (tp.pool.take n)} n

section removal
variable {thread : Thread}

theorem scanned_clear {tp : ThreadPool} {i n : Nat} (hi : i < tp.size)
    (hnone : matching (sameId thread) (tp.pool.take i) = 0) {u : Thread}
    (hread : tp.pool[i]? = some (some u)) (hu : sameId thread u)
    (hn : tp.ScannedFrom thread i n) :
    ThreadPool.ScannedFrom { tp.setSlot i none with size := tp.size - 1 } thread (i + 1) n := by
  have hset : {n | i + 1 ≤ n ∧
        tp.size - 1 ≤ n + matching (sameId thread) ((tp.pool.set i none).take n)} =
      {n | i ≤ n ∧ tp.size ≤ n + matching (sameId thread) (tp.pool.take n)} := by
    ext m
    simp only [Set.mem_ofPred_eq]
    rcases Nat.lt_trichotomy i m with hm | hm | hm
    · have hstep := countP_take_set (fun slot => slot.any (sameId thread)) hread hm none
      simp only [Option.any_some,hu,if_true,Option.any_none] at hstep
      simp only [matching]
      simp at hstep
      omega
    · subst hm
      omega
    · omega
  rw [ThreadPool.ScannedFrom] at hn ⊢
  rwa [← hset] at hn

theorem scanned_pass {tp : ThreadPool} {i n : Nat} (hi : i < tp.size)
    (hnone : matching (sameId thread) (tp.pool.take i) = 0)
    (hn : tp.ScannedFrom thread i n) : tp.ScannedFrom thread (i + 1) n := by
  have hset : {n | i + 1 ≤ n ∧ tp.size ≤ n + matching (sameId thread) (tp.pool.take n)} =
      {n | i ≤ n ∧ tp.size ≤ n + matching (sameId thread) (tp.pool.take n)} := by
    ext m
    simp only [Set.mem_ofPred_eq]
    rcases Nat.lt_trichotomy i m with hm | hm | hm
    · omega
    · subst hm
      omega
    · omega
  rw [ThreadPool.ScannedFrom] at hn ⊢
  rwa [hset]

theorem lt_of_scanned {tp : ThreadPool} {i n : Nat} (hi : i < tp.size)
    (hnone : matching (sameId thread) (tp.pool.take i) = 0)
    (hn : tp.ScannedFrom thread i n) : i < n := by
  obtain ⟨hin,hreach⟩ := hn.1
  rcases Nat.lt_or_eq_of_le hin with hlt | heq
  · exact hlt
  · subst heq
    omega

theorem scanned_stop {tp : ThreadPool} {i n : Nat} (hi : ¬ i < tp.size)
    (hn : tp.ScannedFrom thread i n) : n = i := by
  have hlow : n ≤ i := hn.2 ⟨Nat.le_refl i,by omega⟩
  exact Nat.le_antisymm hlow hn.1.1

theorem cleared_clear {tp : ThreadPool} {i n : Nat} (hin : i < n) {u : Thread}
    (hread : tp.pool[i]? = some (some u)) (hu : sameId thread u) :
    ThreadPool.cleared { tp.setSlot i none with size := tp.size - 1 } thread n =
      tp.cleared thread n := by
  have htake : (tp.pool.take n)[i]? = some (some u) := by
    rw [List.getElem?_take_of_lt hin,hread]
  have hstep := countP_take_set (fun slot => slot.any (sameId thread)) hread hin none
  apply ThreadPool.eq_of
  · simp only [ThreadPool.cleared,ThreadPool.setSlot,matching]
    simp [hu] at hstep
    omega
  · simp only [ThreadPool.cleared,ThreadPool.setSlot,List.take_set,clear_set htake hu]
    rw [List.drop_set_of_lt hin]

theorem none_clear {tp : ThreadPool} {i : Nat}
    (hnone : matching (sameId thread) (tp.pool.take i) = 0) {u : Thread}
    (hread : tp.pool[i]? = some (some u)) :
    matching (sameId thread) ((tp.setSlot i none).pool.take (i + 1)) = 0 := by
  have hstep := countP_take_set (fun slot => slot.any (sameId thread)) hread
    (Nat.lt_succ_self i) none
  have hone := countP_take_succ (fun slot => slot.any (sameId thread)) hread
  simp only [matching,ThreadPool.setSlot] at hnone ⊢
  simp at hstep hone
  omega

theorem none_pass {tp : ThreadPool} {i : Nat}
    (hnone : matching (sameId thread) (tp.pool.take i) = 0) {u : Thread}
    (hread : tp.pool[i]? = some (some u)) (hu : ¬ sameId thread u) :
    matching (sameId thread) (tp.pool.take (i + 1)) = 0 := by
  have hone := countP_take_succ (fun slot => slot.any (sameId thread)) hread
  simp [hu] at hone
  simp only [matching] at hnone ⊢
  omega

theorem cleared_of_none {tp : ThreadPool} {i : Nat}
    (hnone : matching (sameId thread) (tp.pool.take i) = 0) : tp.cleared thread i = tp := by
  apply ThreadPool.eq_of
  · simp [ThreadPool.cleared,hnone]
  · simp only [ThreadPool.cleared]
    rw [clear_of_none hnone,List.take_append_drop]

theorem removeLoop_eq {tp : ThreadPool} {i n : Nat}
    (hnone : matching (sameId thread) (tp.pool.take i) = 0)
    (hn : tp.ScannedFrom thread i n)
    (hread : ∀ j, i ≤ j → j < n → ∃ u, tp.pool[j]? = some (some u)) :
    removeLoop thread tp i = .ok (tp.cleared thread n) := by
  fun_induction removeLoop thread tp i with
  | case1 tp i hi hslot =>
    obtain ⟨u,hu⟩ := hread i (Nat.le_refl i) (lt_of_scanned hi hnone hn)
    simp [hslot] at hu
  | case2 tp i hi hslot =>
    obtain ⟨u,hu⟩ := hread i (Nat.le_refl i) (lt_of_scanned hi hnone hn)
    simp [hslot] at hu
  | case3 tp i hi u hslot hu ih =>
    have hid : sameId thread u := by simpa [sameId] using hu
    rw [ih (none_clear hnone hslot) (scanned_clear hi hnone hslot hid hn),
      cleared_clear (lt_of_scanned hi hnone hn) hslot hid]
    intro j hij hjn
    have hne : i ≠ j := by omega
    simpa [hne] using hread j (by omega) hjn
  | case4 tp i hi u hslot hu ih =>
    have hid : ¬ sameId thread u := by simpa [sameId] using hu
    apply ih (none_pass hnone hslot hid) (scanned_pass hi hnone hn)
    intro j hij hjn
    exact hread j (by omega) hjn
  | case5 tp i hi =>
    rw [scanned_stop hi hn,cleared_of_none hnone]

theorem removeLoop_null {tp : ThreadPool} {i n j : Nat}
    (hnone : matching (sameId thread) (tp.pool.take i) = 0)
    (hn : tp.ScannedFrom thread i n) (hij : i ≤ j) (hjn : j < n)
    (hj : tp.pool[j]? = some none) : removeLoop thread tp i = .error .nullDeref := by
  fun_induction removeLoop thread tp i with
  | case1 tp i hi hslot =>
    obtain ⟨hlt,_⟩ := List.getElem?_eq_some_iff.mp hj
    have hlen := List.getElem?_eq_none_iff.mp hslot
    omega
  | case2 tp i hi hslot => rfl
  | case3 tp i hi u hslot hu ih =>
    have hid : sameId thread u := by simpa [sameId] using hu
    have hne : i ≠ j := slot_ne hslot hj (by simp)
    exact ih (none_clear hnone hslot) (scanned_clear hi hnone hslot hid hn) (by omega)
      (by simpa [hne] using hj)
  | case4 tp i hi u hslot hu ih =>
    have hid : ¬ sameId thread u := by simpa [sameId] using hu
    have hne : i ≠ j := slot_ne hslot hj (by simp)
    exact ih (none_pass hnone hslot hid) (scanned_pass hi hnone hn) (by omega) hj
  | case5 tp i hi =>
    have hstop := scanned_stop hi hn
    omega

theorem removeLoop_runs_out {tp : ThreadPool} {i n : Nat}
    (hnone : matching (sameId thread) (tp.pool.take i) = 0)
    (hn : tp.ScannedFrom thread i n) (hlong : tp.pool.length < n) (hi : i ≤ tp.pool.length)
    (hfull : ∀ j, i ≤ j → tp.pool[j]? ≠ some none) :
    removeLoop thread tp i = .error .outOfBounds := by
  fun_induction removeLoop thread tp i with
  | case1 tp i hlt hslot => rfl
  | case2 tp i hlt hslot => exact absurd hslot (hfull i (Nat.le_refl i))
  | case3 tp i hlt u hslot hu ih =>
    have hid : sameId thread u := by simpa [sameId] using hu
    obtain ⟨hin,_⟩ := List.getElem?_eq_some_iff.mp hslot
    apply ih (none_clear hnone hslot) (scanned_clear hlt hnone hslot hid hn)
    · simpa [ThreadPool.setSlot] using hlong
    · simpa [ThreadPool.setSlot] using hin
    · intro j hij
      have hne : i ≠ j := by omega
      simpa [hne] using hfull j (by omega)
  | case4 tp i hlt u hslot hu ih =>
    have hid : ¬ sameId thread u := by simpa [sameId] using hu
    obtain ⟨hin,_⟩ := List.getElem?_eq_some_iff.mp hslot
    exact ih (none_pass hnone hslot hid) (scanned_pass hlt hnone hn) hlong hin
      (fun j hij => hfull j (by omega))
  | case5 tp i hlt =>
    have hstop := scanned_stop hlt hn
    omega

end removal

/-- The number of slots that remove_from_pool scans. -/
def ThreadPool.Scanned (tp : ThreadPool) (thread : Thread) (n : Nat) : Prop :=
  IsLeast {n | tp.size ≤ n + matching (sameId thread) (tp.pool.take n)} n

section
variable {tp : ThreadPool} {thread : Thread} {n : Nat}

theorem ThreadPool.Scanned.from_zero (hn : tp.Scanned thread n) :
    tp.ScannedFrom thread 0 n := by
  simpa [ThreadPool.ScannedFrom,ThreadPool.Scanned] using hn

theorem exists_scanned (tp : ThreadPool) (thread : Thread) : ∃ n, tp.Scanned thread n :=
  exists_isLeast ⟨tp.size,Nat.le_add_right _ _⟩

theorem removeFromPool_cleared (hn : tp.Scanned thread n)
    (hlen : n ≤ tp.pool.length) (hfull : none ∉ tp.pool.take n) :
    removeFromPool tp thread = .ok (tp.cleared thread n) := by
  refine removeLoop_eq rfl hn.from_zero ?_
  intro j _ hj
  have hlt : j < tp.pool.length := by omega
  have hget : (tp.pool.take n)[j]? = some tp.pool[j] := by
    rw [List.getElem?_take_of_lt hj,List.getElem?_eq_getElem hlt]
  have hmem := List.mem_of_getElem? hget
  cases hslot : tp.pool[j] with
  | none => exact absurd (hslot ▸ hmem) hfull
  | some u => exact ⟨u,by rw [List.getElem?_eq_getElem hlt,hslot]⟩

theorem removeFromPool_null (hn : tp.Scanned thread n) (hnull : none ∈ tp.pool.take n) :
    removeFromPool tp thread = .error .nullDeref := by
  obtain ⟨j,hj⟩ := List.mem_iff_getElem?.mp hnull
  rw [List.getElem?_take] at hj
  split at hj
  · rename_i hjn
    exact removeLoop_null rfl hn.from_zero (Nat.zero_le j) hjn hj
  · cases hj

theorem removeFromPool_short (hn : tp.Scanned thread n) (hlong : tp.pool.length < n)
    (hfull : none ∉ tp.pool) : removeFromPool tp thread = .error .outOfBounds := by
  refine removeLoop_runs_out rfl hn.from_zero hlong (Nat.zero_le _) ?_
  intro j _ hj
  exact hfull (List.mem_of_getElem? hj)

end

/-- The outcome of every call of remove_from_pool. -/
theorem removeFromPool_law (tp : ThreadPool) (thread : Thread) :
    ∃ n, tp.Scanned thread n ∧ removeFromPool tp thread =
      if none ∈ tp.pool.take n then .error .nullDeref
      else if tp.pool.length < n then .error .outOfBounds
      else .ok (tp.cleared thread n) := by
  obtain ⟨n,hn⟩ := exists_scanned tp thread
  refine ⟨n,hn,?_⟩
  by_cases hnull : none ∈ tp.pool.take n
  · rw [if_pos hnull,removeFromPool_null hn hnull]
  · rw [if_neg hnull]
    by_cases hlong : tp.pool.length < n
    · rw [List.take_of_length_le (Nat.le_of_lt hlong)] at hnull
      rw [if_pos hlong,removeFromPool_short hn hlong hnull]
    · rw [if_neg hlong,removeFromPool_cleared hn (Nat.not_lt.mp hlong) hnull]

def handedOut (fresh : Nat → Option Thread) (low high : Nat) : Nat :=
  occupied ((List.range' low (high - low)).map fresh)

theorem handedOut_trans (fresh : Nat → Option Thread) {a b c : Nat} (hab : a ≤ b) (hbc : b ≤ c) :
    handedOut fresh a c = handedOut fresh a b + handedOut fresh b c := by
  have hsplit : List.range' a (c - a) = List.range' a (b - a) ++ List.range' b (c - b) := by
    have h := @List.range'_append_1 a (b - a) (c - b)
    rw [Nat.add_sub_cancel' hab] at h
    rw [h]
    congr 1
    omega
  simp only [handedOut,hsplit,occupied,List.map_append,List.countP_append]

theorem handedOut_self (fresh : Nat → Option Thread) (a : Nat) : handedOut fresh a a = 0 := by
  simp [handedOut]

/-- What the threads in the array exceed the bound by stays the same, up to what the new
slots hold. -/
structure Kept (fresh : Nat → Option Thread) (tp tp' : ThreadPool) : Prop where
  capacity : tp.capacity ≤ tp'.capacity
  surplus : occupied tp'.pool + tp.size =
    occupied tp.pool + tp'.size + handedOut fresh tp.capacity tp'.capacity

section kept
variable {fresh : Nat → Option Thread}

theorem Kept.trans {tp₁ tp₂ tp₃ : ThreadPool} (h₁ : Kept fresh tp₁ tp₂)
    (h₂ : Kept fresh tp₂ tp₃) : Kept fresh tp₁ tp₃ where
  capacity := Nat.le_trans h₁.capacity h₂.capacity
  surplus := by
    have hs₁ := h₁.surplus
    have hs₂ := h₂.surplus
    rw [handedOut_trans fresh h₁.capacity h₂.capacity]
    omega

theorem kept_refl (tp : ThreadPool) : Kept fresh tp tp :=
  ⟨Nat.le_refl _,by rw [handedOut_self]; rfl⟩

theorem kept_of_same {tp tp' : ThreadPool} (hcap : tp'.capacity = tp.capacity)
    (hsurplus : occupied tp'.pool + tp.size = occupied tp.pool + tp'.size) :
    Kept fresh tp tp' where
  capacity := Nat.le_of_eq hcap.symm
  surplus := by rw [hcap,handedOut_self]; exact hsurplus

theorem kept_makeRoom (fresh : Nat → Option Thread) (tp : ThreadPool) :
    Kept fresh tp (tp.makeRoom fresh) := by
  rw [ThreadPool.makeRoom]
  split
  · refine ⟨by simp only [ThreadPool.grow]; omega,?_⟩
    have hroom : tp.capacity * 2 - tp.capacity = tp.capacity := by omega
    simp only [ThreadPool.grow,handedOut,hroom,occupied,List.countP_append]
    omega
  · exact kept_refl tp

theorem kept_filled {tp : ThreadPool} {n : Nat} (hn : tp.Counted n) (thread : Thread) :
    Kept fresh tp (tp.filled thread n) := by
  have hlen := le_length_of_isLeast hn
  have hcount : occupied (tp.pool.take n) = tp.size := occupied_of_isLeast hn
  have hsplit : occupied tp.pool = occupied (tp.pool.take n) + occupied (tp.pool.drop n) := by
    rw [← List.countP_append,List.take_append_drop]
  have hfill : occupied (fill thread (tp.pool.take n)) = n := by
    rw [occupied_fill,List.length_take,Nat.min_eq_left hlen]
  apply kept_of_same
  · rfl
  · simp only [ThreadPool.filled]
    rw [occupied,List.countP_append]
    simp only [occupied] at *
    omega

theorem addToPool_kept {tp tp' : ThreadPool} {thread : Thread}
    (hok : addToPool fresh tp thread = .ok tp') : Kept fresh tp tp' := by
  obtain ⟨_,n,hn,rfl⟩ := ((addToPool_law fresh tp thread).1 tp').mp hok
  exact (kept_makeRoom fresh tp).trans (kept_filled hn thread)

theorem removeLoop_kept {tp tp' : ThreadPool} {thread : Thread} {i : Nat}
    (hok : removeLoop thread tp i = .ok tp') : Kept fresh tp tp' := by
  fun_induction removeLoop thread tp i with
  | case1 tp i hi hread => cases hok
  | case2 tp i hi hread => cases hok
  | case3 tp i hi u hread hu ih =>
    refine Kept.trans (kept_of_same ?_ ?_) (ih hok)
    · rfl
    · have hstep : occupied (tp.pool.set i none) + 1 = occupied tp.pool + 0 :=
        countP_set Option.isSome hread none
      simp only [ThreadPool.setSlot]
      omega
  | case4 tp i hi u hread hu ih => exact ih hok
  | case5 tp i hi =>
    cases hok
    exact kept_refl _

theorem runCalls_append (tp : ThreadPool) (earlier later : List PoolCall) :
    runCalls fresh tp (earlier ++ later) =
      (runCalls fresh tp earlier).bind (fun tp₁ => runCalls fresh tp₁ later) := by
  rw [runCalls,List.foldlM_append]
  rfl

theorem runCalls_cons (tp : ThreadPool) (call : PoolCall) (calls : List PoolCall) :
    runCalls fresh tp (call :: calls) =
      (call.run fresh tp).bind (fun tp₁ => runCalls fresh tp₁ calls) := by
  rw [runCalls,List.foldlM_cons]
  rfl

theorem runCalls_through {tp tp' : ThreadPool} {earlier later : List PoolCall} {call : PoolCall}
    (hok : runCalls fresh tp (earlier ++ call :: later) = .ok tp') :
    ∃ tp₁ tp₂, runCalls fresh tp earlier = .ok tp₁ ∧ call.run fresh tp₁ = .ok tp₂ ∧
      runCalls fresh tp₂ later = .ok tp' := by
  rw [runCalls_append] at hok
  cases hearly : runCalls fresh tp earlier with
  | error e =>
    rw [hearly] at hok
    cases hok
  | ok tp₁ =>
    rw [hearly,Except.bind,runCalls_cons] at hok
    cases hcall : call.run fresh tp₁ with
    | error e =>
      rw [hcall] at hok
      cases hok
    | ok tp₂ =>
      rw [hcall] at hok
      exact ⟨tp₁,tp₂,rfl,hcall,hok⟩

theorem call_kept {tp tp' : ThreadPool} {call : PoolCall} (hok : call.run fresh tp = .ok tp') :
    Kept fresh tp tp' := by
  cases call with
  | add t => exact addToPool_kept hok
  | remove t => exact removeLoop_kept hok

theorem runCalls_kept {tp tp' : ThreadPool} {calls : List PoolCall}
    (hok : runCalls fresh tp calls = .ok tp') : Kept fresh tp tp' := by
  induction calls generalizing tp with
  | nil =>
    cases hok
    exact kept_refl _
  | cons call calls ih =>
    rw [runCalls_cons] at hok
    cases hcall : call.run fresh tp with
    | error e =>
      rw [hcall] at hok
      cases hok
    | ok tp₁ =>
      rw [hcall] at hok
      exact (call_kept hcall).trans (ih hok)

theorem Kept.enough {tp tp' : ThreadPool} (h : Kept fresh tp tp')
    (henough : tp.size ≤ occupied tp.pool) : tp'.size ≤ occupied tp'.pool := by
  have hs := h.surplus
  omega

theorem call_in_bounds {tp : ThreadPool} (henough : tp.size ≤ occupied tp.pool)
    (call : PoolCall) : call.run fresh tp ≠ .error .outOfBounds := by
  cases call with
  | add t =>
    intro hout
    obtain ⟨_,hshort,_⟩ := (addToPool_law fresh tp t).2.1.mp hout
    have hroom := (kept_makeRoom fresh tp).enough henough
    rw [makeRoom_size] at hroom
    omega
  | remove t =>
    intro hout
    obtain ⟨n,hn,hcall⟩ := removeFromPool_law tp t
    have hsize : n ≤ tp.size := hn.2 (Nat.le_add_right _ _)
    have hlen : occupied tp.pool ≤ tp.pool.length := List.countP_le_length
    rw [PoolCall.run,hcall,if_neg (by omega : ¬ tp.pool.length < n)] at hout
    split at hout <;> cases hout

theorem runCalls_in_bounds {tp : ThreadPool} (henough : tp.size ≤ occupied tp.pool)
    (calls : List PoolCall) : runCalls fresh tp calls ≠ .error .outOfBounds := by
  induction calls generalizing tp with
  | nil => simp [runCalls,pure,Except.pure]
  | cons call calls ih =>
    intro hout
    rw [runCalls_cons] at hout
    cases hcall : call.run fresh tp with
    | error e =>
      rw [hcall] at hout
      cases hout
      exact call_in_bounds henough call hcall
    | ok tp₁ =>
      rw [hcall] at hout
      exact ih ((call_kept hcall).enough henough) hout

theorem runCalls_short {tp : ThreadPool} (hclean : ∀ i, fresh i = none)
    (hshort : occupied tp.pool < tp.size) {calls : List PoolCall} {thread : Thread}
    (hadd : .add thread ∈ calls) (tp' : ThreadPool) : runCalls fresh tp calls ≠ .ok tp' := by
  have hnone : ∀ a b, handedOut fresh a b = 0 := by
    intro a b
    rw [handedOut,occupied,List.countP_eq_zero]
    intro slot hslot
    obtain ⟨i,_,hi⟩ := List.mem_map.mp hslot
    rw [← hi,hclean i]
    simp
  intro hok
  obtain ⟨earlier,later,hsplit⟩ := List.append_of_mem hadd
  rw [hsplit] at hok
  obtain ⟨tp₁,tp₂,hearly,hcall,_⟩ := runCalls_through hok
  obtain ⟨_,n,hn,_⟩ := ((addToPool_law fresh tp₁ thread).1 tp₂).mp hcall
  have hle := size_le_of_counted hn
  have hkept := (runCalls_kept hearly).surplus
  have hroom := (kept_makeRoom fresh tp₁).surplus
  rw [hnone,makeRoom_size] at hroom
  rw [hnone] at hkept
  rw [makeRoom_size] at hle
  omega

/-- Any additions and removals, in any order, on any pool: the threads in the array and the
bound move together, so that none of the calls runs out of the array where the array holds
as many threads as the bound counts, and no addition returns where it does not. -/
theorem pool_runs (fresh : Nat → Option Thread) (tp : ThreadPool) (calls : List PoolCall) :
    (∀ tp', runCalls fresh tp calls = .ok tp' → occupied tp'.pool + tp.size =
      occupied tp.pool + tp'.size + handedOut fresh tp.capacity tp'.capacity) ∧
    (tp.size ≤ occupied tp.pool → runCalls fresh tp calls ≠ .error .outOfBounds) ∧
    ((∀ i, fresh i = none) → occupied tp.pool < tp.size → ∀ thread, .add thread ∈ calls →
      ∀ tp', runCalls fresh tp calls ≠ .ok tp') :=
  ⟨fun _ hok => (runCalls_kept hok).surplus,fun henough => runCalls_in_bounds henough calls,
    fun hclean hshort _ hadd tp' => runCalls_short hclean hshort hadd tp'⟩

end kept

theorem broadcastLoop_full {message : Buffer} {answer : Int → SendResult}
    (hsent : ∀ fd, (sendMessageServer message (answer fd)).result = .ok 0) (ts : List Thread) :
    broadcastLoop message answer (ts.map some) = .ok ((ts.filter Thread.isActive).map
      (fun t => (t.socketFd,(sendMessageServer message (answer t.socketFd)).wire))) := by
  induction ts with
  | nil => rfl
  | cons t ts ih =>
    rw [List.map_cons,broadcastLoop]
    by_cases hactive : t.isActive
    · simp only [if_pos hactive,hsent,ih,List.filter_cons_of_pos hactive]
      rfl
    · rw [if_neg hactive,ih,List.filter_cons_of_neg hactive]

theorem filled_slots {tp : ThreadPool} {n : Nat} (hn : tp.Counted n) (thread : Thread) :
    (tp.filled thread n).pool.take n =
      ((tp.pool.take n).map (fun slot => slot.getD thread)).map some := by
  have hlen : (fill thread (tp.pool.take n)).length = n := by
    rw [length_fill,List.length_take,Nat.min_eq_left (le_length_of_isLeast hn)]
  simp only [ThreadPool.filled]
  rw [List.take_left' hlen,fill_eq_map]

theorem count_take_makeRoom (tp : ThreadPool) (thread : Thread) (n : Nat) :
    ((tp.makeRoom (fun _ => none)).pool.take n).count (some thread) =
      (tp.pool.take n).count (some thread) := by
  rw [ThreadPool.makeRoom]
  split
  · have htail : ((List.range' tp.capacity tp.capacity).map
        (fun _ => (none : Option Thread))) = List.replicate tp.capacity none := by
      rw [List.map_const',List.length_range']
    simp only [ThreadPool.grow,htail,List.take_append,List.count_append,List.take_replicate]
    simp [List.count_replicate]
  · rfl

/-- Behind an addition that returns, every slot below the bound holds a thread, the added
one once more for every slot the bound moved by, and a broadcast writes to each of them. -/
theorem broadcast_after_addition {tp tp' : ThreadPool} {calls : List PoolCall} {thread : Thread}
    (hrun : runCalls (fun _ => none) tp (calls ++ [.add thread]) = .ok tp')
    {message : Buffer} {answer : Int → SendResult}
    (hsent : ∀ fd, (sendMessageServer message (answer fd)).result = .ok 0) :
    ∃ (tp₁ : ThreadPool) (ts : List Thread),
      runCalls (fun _ => none) tp calls = .ok tp₁ ∧ tp'.pool.take tp'.size = ts.map some ∧
      ts.count thread + tp₁.size = (tp₁.pool.take tp'.size).count (some thread) + tp'.size ∧
      broadcastToOtherClients tp' message answer = .ok ((ts.filter Thread.isActive).map
        (fun t => (t.socketFd,(sendMessageServer message (answer t.socketFd)).wire))) := by
  obtain ⟨tp₁,tp₂,hcalls,hadd,hrest⟩ := runCalls_through hrun
  cases hrest
  obtain ⟨_,n,hn,rfl⟩ := ((addToPool_law (fun _ => none) tp₁ thread).1 tp').mp hadd
  have hslots := filled_slots hn thread
  have hlen := le_length_of_isLeast hn
  have hcount := occupied_of_isLeast hn
  refine ⟨tp₁,_,hcalls,hslots,?_,?_⟩
  · have hfill := count_fill thread ((tp₁.makeRoom (fun _ => none)).pool.take n)
    rw [hcount,makeRoom_size,List.length_take,Nat.min_eq_left hlen,count_take_makeRoom] at hfill
    exact hfill
  · have halloc := ((tp₁.makeRoom (fun _ => none)).filled thread n).allocated
    have hroom : ¬ ((tp₁.makeRoom (fun _ => none)).filled thread n).pool.length <
        ((tp₁.makeRoom (fun _ => none)).filled thread n).size := by
      rw [halloc]
      simp only [ThreadPool.filled,Nat.not_lt]
      rwa [(tp₁.makeRoom (fun _ => none)).allocated] at hlen
    rw [broadcastToOtherClients,if_neg hroom]
    exact (congrArg _ hslots).trans (broadcastLoop_full hsent _)

theorem broadcast_after_two_holes :
    ∃ (tp' tp₁ : ThreadPool) (ts : List Thread),
      runCalls (fun _ => none) twoHoles [.add ⟨3,6,true⟩] = .ok tp' ∧
      runCalls (fun _ => none) twoHoles [] = .ok tp₁ ∧
      tp'.pool.take tp'.size = ts.map some ∧
      ts.count ⟨3,6,true⟩ + tp₁.size =
        (tp₁.pool.take tp'.size).count (some ⟨3,6,true⟩) + tp'.size ∧
      broadcastToOtherClients tp' (Buffer.ofBytes [104,105]) (fun _ => .accepted 2) =
        .ok ((ts.filter Thread.isActive).map (fun t => (t.socketFd,
          (sendMessageServer (Buffer.ofBytes [104,105]) (.accepted 2)).wire))) := by
  have hn : (twoHoles.makeRoom (fun _ => none)).Counted 4 := by
    refine ⟨by decide,?_⟩
    intro m hm
    by_contra hlt
    have hall : ∀ k < 4, ¬ 2 ≤ occupied ((twoHoles.makeRoom (fun _ => none)).pool.take k) := by
      decide
    exact hall m (by omega) hm
  have hadd := addToPool_counted (fun h => absurd h (by decide)) (fun _ => none) hn ⟨3,6,true⟩
  have hrun : runCalls (fun _ => none) twoHoles ([] ++ [.add ⟨3,6,true⟩]) =
      .ok ((twoHoles.makeRoom (fun _ => none)).filled ⟨3,6,true⟩ 4) := by
    rw [List.nil_append,runCalls_cons,PoolCall.run,hadd]
    rfl
  have hsent : ∀ fd : Int, (sendMessageServer (Buffer.ofBytes [104,105])
      ((fun _ => SendResult.accepted 2) fd)).result = .ok 0 := fun _ => rfl
  obtain ⟨tp₁,ts,h⟩ := broadcast_after_addition hrun hsent
  exact ⟨_,tp₁,ts,hrun,h⟩

end CTalk
