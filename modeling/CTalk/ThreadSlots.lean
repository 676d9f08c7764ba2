import CTalk.Threads

/-! What one call of add_to_pool or remove_from_pool does to the slots of any pool, and
the pools on which it does what it is for. -/

set_option autoImplicit false

namespace CTalk

@[simp] theorem getElem?_setSlot (tp : ThreadPool) (i : Nat) (slot : Option Thread) (j : Nat) :
    (tp.setSlot i slot).pool[j]? =
      if i = j then (if i < tp.pool.length then some slot else none) else tp.pool[j]? :=
  List.getElem?_set

theorem slot_ne {tp : ThreadPool} {i j : Nat} {a b : Option Thread}
    (hi : tp.pool[i]? = some a) (hj : tp.pool[j]? = some b) (hab : a ≠ b) : i ≠ j := by
  intro h
  rw [h,hj] at hi
  exact hab (Option.some.inj hi).symm

section insertion
variable {thread : Thread}

theorem addLoop_keeps {tp tp' : ThreadPool} {i : Nat} (hok : addLoop thread tp i = .ok tp')
    {j : Nat} {t : Thread} (hj : tp.pool[j]? = some (some t)) :
    tp'.pool[j]? = some (some t) := by
  fun_induction addLoop thread tp i with
  | case1 tp i hi hread => cases hok
  | case2 tp i hi hread hbig => cases hok
  | case3 tp i hi hread hbig ih =>
    apply ih hok
    have hne : i ≠ j := slot_ne hread hj (by simp)
    simpa [hne] using hj
  | case4 tp i hi u hread ih => exact ih hok hj
  | case5 tp i hi =>
    cases hok
    exact hj

theorem addLoop_fills {tp tp' : ThreadPool} {i : Nat} (hok : addLoop thread tp i = .ok tp')
    {j : Nat} (hij : i ≤ j) (hsize : j < tp.size) (hj : tp.pool[j]? = some none) :
    tp'.pool[j]? = some (some thread) := by
  fun_induction addLoop thread tp i with
  | case1 tp i hi hread => cases hok
  | case2 tp i hi hread hbig => cases hok
  | case3 tp i hi hread hbig ih =>
    by_cases hne : i = j
    · subst hne
      obtain ⟨hlt,_⟩ := List.getElem?_eq_some_iff.mp hread
      exact addLoop_keeps hok (by simp [hlt])
    · exact ih hok (by omega) (by simp; omega) (by simpa [hne] using hj)
  | case4 tp i hi u hread ih =>
    have hne : i ≠ j := slot_ne hread hj (by simp)
    exact ih hok (by omega) hsize hj
  | case5 tp i hi => omega

theorem addLoop_fills_next {tp tp' : ThreadPool} {i : Nat}
    (hok : addLoop thread tp i = .ok tp') {j : Nat} (hij : i ≤ j) (hsize : j < tp.size)
    (hj : tp.pool[j]? = some none) (hnext : tp.pool[tp.size]? = some none) :
    tp'.pool[tp.size]? = some (some thread) := by
  fun_induction addLoop thread tp i with
  | case1 tp i hi hread => cases hok
  | case2 tp i hi hread hbig => cases hok
  | case3 tp i hi hread hbig ih =>
    have hne : i ≠ tp.size := Nat.ne_of_lt hi
    exact addLoop_fills hok (by omega) (by simp) (by simpa [hne] using hnext)
  | case4 tp i hi u hread ih =>
    have hne : i ≠ j := slot_ne hread hj (by simp)
    exact ih hok (by omega) hsize hj hnext
  | case5 tp i hi => omega

theorem addLoop_of_full {tp : ThreadPool} {i : Nat} (hroom : tp.size ≤ tp.pool.length)
    (hfull : ∀ j, i ≤ j → j < tp.size → tp.pool[j]? ≠ some none) :
    addLoop thread tp i = .ok tp := by
  fun_induction addLoop thread tp i with
  | case1 tp i hi hread =>
    have hlen := List.getElem?_eq_none_iff.mp hread
    omega
  | case2 tp i hi hread hbig => exact absurd hread (hfull i (Nat.le_refl i) hi)
  | case3 tp i hi hread hbig ih => exact absurd hread (hfull i (Nat.le_refl i) hi)
  | case4 tp i hi u hread ih => exact ih hroom (fun j hj => hfull j (by omega))
  | case5 tp i hi => rfl

theorem addLoop_of_one_hole {tp : ThreadPool} {i h : Nat} (hroom : tp.size < tp.pool.length)
    (hih : i ≤ h) (hsize : h < tp.size) (hhole : tp.pool[h]? = some none)
    (honly : ∀ j, j < tp.size → tp.pool[j]? = some none → j = h)
    (hnext : tp.pool[tp.size]? ≠ some none) :
    addLoop thread tp i = .ok { tp.setSlot h (some thread) with size := tp.size + 1 } := by
  fun_induction addLoop thread tp i with
  | case1 tp i hi hread =>
    have hlen := List.getElem?_eq_none_iff.mp hread
    omega
  | case2 tp i hi hread hbig =>
    have hlen := tp.allocated
    have hfits := tp.fits
    omega
  | case3 tp i hi hread hbig ih =>
    have hih' := honly i hi hread
    subst hih'
    apply addLoop_of_full
    · simpa [ThreadPool.setSlot] using hroom
    · intro j hij hj hnone
      have hne : i ≠ j := by omega
      simp only [getElem?_setSlot,if_neg hne] at hnone
      by_cases hlt : j < tp.size
      · exact absurd (honly j hlt hnone) hne.symm
      · have hend : j = tp.size := by simp at hj; omega
        exact hnext (hend ▸ hnone)
  | case4 tp i hi u hread ih =>
    have hne : i ≠ h := slot_ne hread hhole (by simp)
    exact ih hroom (by omega) hsize hhole honly hnext
  | case5 tp i hi => omega

end insertion

/-- The array the loop runs on, before and after: the thread is now in exactly one slot
that did not hold it, and what was in the pool is where it was. -/
structure StoredOnce (thread : Thread) (tp before after : ThreadPool) : Prop where
  once : ∃! j : Nat, before.pool[j]? ≠ some (some thread) ∧ after.pool[j]? = some (some thread)
  kept : ∀ (j : Nat) t, j < tp.size → tp.pool[j]? = some (some t) → after.pool[j]? = some (some t)

theorem StoredOnce.filled_unique {thread : Thread} {tp before after : ThreadPool}
    (hstored : StoredOnce thread tp before after) {j k : Nat}
    (hj : before.pool[j]? = some none) (hj' : after.pool[j]? = some (some thread))
    (hk : before.pool[k]? = some none) (hk' : after.pool[k]? = some (some thread)) : j = k :=
  hstored.once.unique ⟨by simp [hj],hj'⟩ ⟨by simp [hk],hk'⟩

theorem storedOnce_setSlot (thread : Thread) {tp before : ThreadPool} {h : Nat}
    (hhole : before.pool[h]? = some none)
    (hsame : ∀ j, j < tp.size → before.pool[j]? = tp.pool[j]?) (n : Nat) :
    StoredOnce thread tp before { before.setSlot h (some thread) with size := n } where
  once := by
    obtain ⟨hin,_⟩ := List.getElem?_eq_some_iff.mp hhole
    refine ⟨h,⟨by simp [hhole],by simp [hin]⟩,?_⟩
    intro k hk
    by_cases hne : h = k
    · exact hne.symm
    · have hafter := hk.2
      simp only [getElem?_setSlot,if_neg hne] at hafter
      exact absurd hafter hk.1
  kept := by
    intro j t hj hjt
    rw [← hsame j hj] at hjt
    have hne : h ≠ j := slot_ne hhole hjt (by simp)
    simpa [hne] using hjt

def ThreadPool.CanGrow (tp : ThreadPool) : Prop :=
  tp.size = tp.capacity → tp.capacity * 2 < 2 ^ 31

section adding
variable (fresh : Nat → Option Thread) {tp : ThreadPool}

theorem makeRoom_size (tp : ThreadPool) : (tp.makeRoom fresh).size = tp.size := by
  rw [ThreadPool.makeRoom]
  split <;> rfl

theorem makeRoom_below {j : Nat} (hj : j < tp.capacity) :
    (tp.makeRoom fresh).pool[j]? = tp.pool[j]? := by
  have hlen := tp.allocated
  rw [ThreadPool.makeRoom]
  split
  · exact List.getElem?_append_left (by omega)
  · rfl

theorem makeRoom_of_full (hgrow : tp.CanGrow) (heq : tp.size = tp.capacity) :
    tp.makeRoom fresh = tp.grow fresh (hgrow heq) := by
  rw [ThreadPool.makeRoom,dif_pos ⟨heq,hgrow heq⟩]

theorem makeRoom_of_room (hne : tp.size ≠ tp.capacity) : tp.makeRoom fresh = tp := by
  rw [ThreadPool.makeRoom,dif_neg (fun h => hne h.1)]

theorem makeRoom_room (hgrow : tp.CanGrow) (hcap : tp.size ≤ tp.capacity) :
    tp.size < (tp.makeRoom fresh).pool.length := by
  have hlen := tp.allocated
  have hpos := tp.positive
  by_cases heq : tp.size = tp.capacity
  · rw [makeRoom_of_full fresh hgrow heq]
    simp only [ThreadPool.grow,List.length_append,List.length_map,List.length_range']
    omega
  · rw [makeRoom_of_room fresh heq]
    omega

theorem makeRoom_next (hgrow : tp.CanGrow) :
    (tp.makeRoom fresh).pool[tp.size]? ≠ some none ↔
      if tp.size = tp.capacity then fresh tp.capacity ≠ none
      else tp.pool[tp.size]? ≠ some none := by
  have hlen := tp.allocated
  by_cases heq : tp.size = tp.capacity
  · rw [makeRoom_of_full fresh hgrow heq,if_pos heq,ThreadPool.grow,
      List.getElem?_append_right (by omega),heq,hlen,Nat.sub_self]
    simp [tp.positive]
  · rw [makeRoom_of_room fresh heq,if_neg heq]

theorem one_hole_of_storedOnce (hcap : tp.size ≤ tp.capacity) {thread : Thread}
    {tp' : ThreadPool} (hok : addLoop thread (tp.makeRoom fresh) 0 = .ok tp')
    (hstored : StoredOnce thread tp (tp.makeRoom fresh) tp') {h : Nat} (hh : h < tp.size)
    (hnone : tp.pool[h]? = some none) :
    (∀ k, k < tp.size → tp.pool[k]? = some none → k = h) ∧
      (tp.makeRoom fresh).pool[tp.size]? ≠ some none := by
  have hsize := makeRoom_size fresh tp
  have hbelow : ∀ {k}, k < tp.size → (tp.makeRoom fresh).pool[k]? = tp.pool[k]? :=
    fun hk => makeRoom_below fresh (Nat.lt_of_lt_of_le hk hcap)
  have hroom := (hbelow hh).trans hnone
  have hfill := addLoop_fills hok (Nat.zero_le h) (hsize.symm ▸ hh) hroom
  constructor
  · intro k hk hkhole
    have hkroom := (hbelow hk).trans hkhole
    have hkfill := addLoop_fills hok (Nat.zero_le k) (hsize.symm ▸ hk) hkroom
    exact hstored.filled_unique hkroom hkfill hroom hfill
  · intro hnext
    have hnextFill := addLoop_fills_next hok (Nat.zero_le h) (hsize.symm ▸ hh) hroom
      (hsize.symm ▸ hnext)
    rw [hsize] at hnextFill
    have heq := hstored.filled_unique hnext hnextFill hroom hfill
    omega

theorem addLoop_makeRoom (hgrow : tp.CanGrow) (hcap : tp.size ≤ tp.capacity) (thread : Thread) {h : Nat}
    (hh : h < tp.size) (hnone : tp.pool[h]? = some none)
    (honly : ∀ k, k < tp.size → tp.pool[k]? = some none → k = h)
    (hnext : (tp.makeRoom fresh).pool[tp.size]? ≠ some none) :
    ∃ tp', addLoop thread (tp.makeRoom fresh) 0 = .ok tp' ∧
      StoredOnce thread tp (tp.makeRoom fresh) tp' := by
  have hsize := makeRoom_size fresh tp
  have hbelow : ∀ k, k < tp.size → (tp.makeRoom fresh).pool[k]? = tp.pool[k]? :=
    fun k hk => makeRoom_below fresh (Nat.lt_of_lt_of_le hk hcap)
  have hroom := (hbelow h hh).trans hnone
  have hlen := makeRoom_room fresh hgrow hcap
  have honlyRoom : ∀ k, k < (tp.makeRoom fresh).size →
      (tp.makeRoom fresh).pool[k]? = some none → k = h := by
    intro k hk hkhole
    rw [hsize] at hk
    rw [hbelow k hk] at hkhole
    exact honly k hk hkhole
  refine ⟨_,?_,storedOnce_setSlot thread hroom hbelow ((tp.makeRoom fresh).size + 1)⟩
  exact addLoop_of_one_hole (hsize.symm ▸ hlen) (Nat.zero_le h) (hsize.symm ▸ hh) hroom
    honlyRoom (hsize.symm ▸ hnext)

end adding

/-- add_to_pool fills one slot and keeps the rest exactly where one slot below size is
NULL, the slot at size is not, and the capacity, where it has to double, stays an int. -/
theorem addToPool_storesOnce_iff (fresh : Nat → Option Thread) (tp : ThreadPool)
    (thread : Thread) (hcap : tp.size ≤ tp.capacity)
    (hhole : ∃ h, h < tp.size ∧ tp.pool[h]? = some none) :
    (∃ tp', addToPool fresh tp thread = .ok tp' ∧
      StoredOnce thread tp (tp.makeRoom fresh) tp') ↔
    (∃! h, h < tp.size ∧ tp.pool[h]? = some none) ∧
      if tp.size = tp.capacity then tp.capacity * 2 < 2 ^ 31 ∧ fresh tp.capacity ≠ none
      else tp.pool[tp.size]? ≠ some none := by
  obtain ⟨h,hh,hnone⟩ := hhole
  rw [addToPool]
  constructor
  · intro hadd
    obtain ⟨tp',hok,hstored⟩ := hadd
    split at hok
    · cases hok
    · rename_i hfits
      obtain ⟨honly,hnext⟩ := one_hole_of_storedOnce fresh hcap hok hstored hh hnone
      have hgrow : tp.CanGrow := fun heq => by omega
      rw [makeRoom_next fresh hgrow] at hnext
      refine ⟨⟨h,⟨hh,hnone⟩,fun k hk => honly k hk.1 hk.2⟩,?_⟩
      split
      · rename_i heq
        rw [if_pos heq] at hnext
        exact ⟨hgrow heq,hnext⟩
      · rename_i hne
        rwa [if_neg hne] at hnext
  · intro hcond
    obtain ⟨hunique,hroom⟩ := hcond
    have honly : ∀ k, k < tp.size → tp.pool[k]? = some none → k = h :=
      fun k hk hkhole => hunique.unique ⟨hk,hkhole⟩ ⟨hh,hnone⟩
    have hgrow : tp.CanGrow := by
      intro heq
      rw [if_pos heq] at hroom
      exact hroom.1
    have hnext : (tp.makeRoom fresh).pool[tp.size]? ≠ some none := by
      rw [makeRoom_next fresh hgrow]
      split
      · rename_i heq
        rw [if_pos heq] at hroom
        exact hroom.2
      · rename_i hne
        rwa [if_neg hne] at hroom
    rw [if_neg (fun hbig => absurd (hgrow hbig.1) (Nat.not_lt.mpr hbig.2))]
    exact addLoop_makeRoom fresh hgrow hcap thread hh hnone honly hnext

def oneHole : ThreadPool := ⟨2,3,[none,some ⟨1,4,true⟩,some ⟨2,5,true⟩],rfl,by decide,by decide⟩

def twoHoles : ThreadPool := ⟨2,4,[none,none,some ⟨1,4,true⟩,some ⟨2,5,true⟩],rfl,by decide,by decide⟩

theorem addToPool_storesOnce_one_hole :
    ∃ tp', addToPool (fun _ => none) oneHole ⟨3,6,true⟩ = .ok tp' ∧
      StoredOnce ⟨3,6,true⟩ oneHole (oneHole.makeRoom (fun _ => none)) tp' := by
  have hunique : ∀ h, h < 2 ∧ oneHole.pool[h]? = some none → h = 0 := by
    intro h hh
    by_contra hne
    have hone : h = 1 := by omega
    exact absurd (hone ▸ hh.2) (by decide)
  exact (addToPool_storesOnce_iff (fun _ => none) oneHole ⟨3,6,true⟩ (by decide)
    ⟨0,by decide,rfl⟩).mpr ⟨⟨0,⟨by decide,rfl⟩,hunique⟩,by decide⟩

/-- With two holes the thread ends up in both. -/
theorem addToPool_fills_both_holes :
    ¬ ∀ fresh tp thread, tp.size ≤ tp.capacity →
      (∃ h, h < tp.size ∧ tp.pool[h]? = some none) → some thread ∉ tp.pool →
      ∃ tp', addToPool fresh tp thread = .ok tp' ∧
        StoredOnce thread tp (tp.makeRoom fresh) tp' := by
  intro h
  have hstored := h (fun _ => none) twoHoles ⟨3,6,true⟩ (by decide) ⟨0,by decide,rfl⟩
    (by decide)
  obtain ⟨tp',hok,honce⟩ := hstored
  rw [addToPool,if_neg (by decide)] at hok
  have honly := (one_hole_of_storedOnce _ (by decide) hok honce (h := 0) (by decide) rfl).1
  exact absurd (honly 1 (by decide) rfl) (by decide)

/-- The slots below size hold these threads in this order, and no two share a thread_id. -/
structure Holds (tp : ThreadPool) (ts : List Thread) : Prop where
  slots : tp.pool.take tp.size = ts.map some
  room : tp.size ≤ tp.capacity
  own_id : (ts.map Thread.threadId).Nodup

def HoldsJust (tp : ThreadPool) (ts : List Thread) : Prop :=
  ((tp.pool.take tp.size).filterMap id).Perm ts

section removal
variable {tp : ThreadPool} {thread : Thread}

theorem removeLoop_of_absent {i : Nat}
    (hother : ∀ j, i ≤ j → j < tp.size →
      ∃ t, tp.pool[j]? = some (some t) ∧ t.threadId ≠ thread.threadId) :
    removeLoop thread tp i = .ok tp := by
  fun_induction removeLoop thread tp i with
  | case1 tp i hi hread =>
    obtain ⟨t,ht,_⟩ := hother i (Nat.le_refl i) hi
    simp [hread] at ht
  | case2 tp i hi hread =>
    obtain ⟨t,ht,_⟩ := hother i (Nat.le_refl i) hi
    simp [hread] at ht
  | case3 tp i hi u hread hid ih =>
    obtain ⟨t,ht,hne⟩ := hother i (Nat.le_refl i) hi
    rw [ht] at hread
    cases hread
    exact absurd hid hne
  | case4 tp i hi u hread hid ih => exact ih (fun j hj => hother j (by omega))
  | case5 tp i hi => rfl

theorem removeLoop_of_present {i h : Nat} (hih : i ≤ h) (hh : h < tp.size) {u : Thread}
    (hslot : tp.pool[h]? = some (some u)) (hid : u.threadId = thread.threadId)
    (hother : ∀ j, j ≠ h → j < tp.size →
      ∃ t, tp.pool[j]? = some (some t) ∧ t.threadId ≠ thread.threadId) :
    removeLoop thread tp i = .ok { tp.setSlot h none with size := tp.size - 1 } := by
  have hfull : ∀ j, j < tp.size → ∃ t, tp.pool[j]? = some (some t) := by
    intro j hj
    by_cases hne : j = h
    · exact ⟨u,hne ▸ hslot⟩
    · obtain ⟨t,ht,_⟩ := hother j hne hj
      exact ⟨t,ht⟩
  fun_induction removeLoop thread tp i with
  | case1 tp i hi hread =>
    obtain ⟨t,ht⟩ := hfull i hi
    simp [hread] at ht
  | case2 tp i hi hread =>
    obtain ⟨t,ht⟩ := hfull i hi
    simp [hread] at ht
  | case3 tp i hi v hread hv ih =>
    by_cases hne : i = h
    · subst hne
      apply removeLoop_of_absent
      intro j hj hjsize
      have hjlt : j < tp.size - 1 := hjsize
      have hij : i ≠ j := by omega
      simpa [hij] using hother j (Ne.symm hij) (by omega)
    · obtain ⟨t,ht,hdiff⟩ := hother i hne hi
      rw [ht] at hread
      cases hread
      exact absurd hv hdiff
  | case4 tp i hi v hread hv ih =>
    by_cases hne : i = h
    · rw [hne,hslot] at hread
      cases hread
      exact absurd hid hv
    · exact ih (by omega) hh hslot hother hfull
  | case5 tp i hi => omega

end removal

section holds
variable {tp : ThreadPool} {ts : List Thread}

theorem Holds.size_eq (hp : Holds tp ts) : tp.size = ts.length := by
  have hlen := congrArg List.length hp.slots
  have halloc := tp.allocated
  have hroom := hp.room
  simp only [List.length_take,List.length_map] at hlen
  omega

theorem Holds.getElem? (hp : Holds tp ts) {j : Nat} (hj : j < tp.size) :
    tp.pool[j]? = ts[j]?.map some := by
  have h := congrArg (fun slots => slots[j]?) hp.slots
  simpa [hj] using h

theorem Holds.removal (hp : Holds tp ts) {h : Nat} {thread : Thread}
    (hh : ts[h]? = some thread) :
    removeFromPool tp thread = .ok { tp.setSlot h none with size := tp.size - 1 } := by
  have hsize := hp.size_eq
  obtain ⟨hlt,_⟩ := List.getElem?_eq_some_iff.mp hh
  have hin : h < tp.size := by omega
  have hslot : tp.pool[h]? = some (some thread) := by rw [hp.getElem? hin,hh]; rfl
  apply removeLoop_of_present (Nat.zero_le h) hin hslot rfl
  intro j hne hj
  have hjlt : j < ts.length := by omega
  refine ⟨ts[j],by rw [hp.getElem? hj,List.getElem?_eq_getElem hjlt]; rfl,?_⟩
  intro hid
  exact hne ((List.getElem?_inj (by simpa using hjlt) hp.own_id).mp (by simp [hh,hjlt,hid]))

theorem Holds.nodup (hp : Holds tp ts) : ts.Nodup := hp.own_id.of_map

theorem Holds.holdsJust (hp : Holds tp ts) : HoldsJust tp ts := by
  rw [HoldsJust,hp.slots]
  simp

variable {last : Thread}

theorem Holds.slots_removed (hp : Holds tp (ts ++ [last])) (h : Nat) :
    (tp.pool.set h none).take (tp.size - 1) = (ts.map some).set h none := by
  have hsize := hp.size_eq
  rw [List.length_append,List.length_singleton] at hsize
  have hslots : tp.pool.take (tp.size - 1) = ts.map some := by
    calc
      _ = (tp.pool.take tp.size).take ts.length := by
        rw [List.take_take]
        congr 1
        omega
      _ = ts.map some := by rw [hp.slots]; simp
  rw [List.take_set,hslots]

theorem Holds.remove_last (hp : Holds tp (ts ++ [last])) :
    Holds { tp.setSlot ts.length none with size := tp.size - 1 } ts where
  slots := by
    rw [← List.set_eq_of_length_le (l := ts.map some) (i := ts.length) (a := none) (by simp)]
    exact hp.slots_removed ts.length
  room := Nat.le_trans (Nat.sub_le _ _) hp.room
  own_id := by
    have hnodup := hp.own_id
    rw [List.map_append] at hnodup
    exact hnodup.of_append_left

theorem Holds.last_lost (hp : Holds tp (ts ++ [last])) {thread : Thread}
    (hmem : thread ∈ ts) :
    ∃ tp', removeFromPool tp thread = .ok tp' ∧
      last ∉ (tp'.pool.take tp'.size).filterMap id := by
  obtain ⟨h,hh⟩ := List.mem_iff_getElem?.mp hmem
  obtain ⟨hlt,_⟩ := List.getElem?_eq_some_iff.mp hh
  refine ⟨_,hp.removal (by rw [List.getElem?_append_left hlt]; exact hh),?_⟩
  intro hlast
  have hslots : last ∈ ((ts.map some).set h none).filterMap id := by
    rw [← hp.slots_removed h]
    exact hlast
  obtain ⟨slot,hslot,hsome⟩ := List.mem_filterMap.mp hslots
  rcases List.mem_or_eq_of_mem_set hslot with hin | hnone
  · obtain ⟨t,ht,htslot⟩ := List.mem_map.mp hin
    have hlastIn : last ∈ ts := by
      rw [← htslot] at hsome
      cases hsome
      exact ht
    exact List.disjoint_of_nodup_append hp.nodup hlastIn (by simp)
  · rw [hnone] at hsome
    cases hsome

end holds

/-- Removal by removal, the pool keeps exactly the members not yet removed. -/
def KeepsOthers (tp : ThreadPool) (ts removals : List Thread) : Prop :=
  ∀ done, done <+: removals → ∃ tp', done.foldlM removeFromPool tp = .ok tp' ∧
    HoldsJust tp' (ts.filter (fun t => t ∉ done))

theorem keepsOthers_nil {tp : ThreadPool} {ts : List Thread} (hp : Holds tp ts) :
    KeepsOthers tp ts [] := by
  intro done hdone
  rw [List.prefix_nil.mp hdone]
  exact ⟨tp,rfl,by simpa using hp.holdsJust⟩

theorem filter_removed_last {ts : List Thread} {last : Thread} (hlast : last ∉ ts)
    (done : List Thread) :
    (ts ++ [last]).filter (fun t => t ∉ last :: done) = ts.filter (fun t => t ∉ done) := by
  have hkept : ts.filter (fun t => t ∉ last :: done) = ts.filter (fun t => t ∉ done) := by
    apply List.filter_congr
    intro t ht
    have hne : t ≠ last := fun h => hlast (h ▸ ht)
    simp [hne]
  rw [List.filter_append,hkept]
  simp

theorem keepsOthers_remove_last {tp : ThreadPool} {ts : List Thread} {last : Thread}
    (hp : Holds tp (ts ++ [last])) (removals : List Thread) :
    KeepsOthers tp (ts ++ [last]) (last :: removals) ↔
      KeepsOthers { tp.setSlot ts.length none with size := tp.size - 1 } ts removals := by
  have hlast : last ∉ ts := fun h => List.disjoint_of_nodup_append hp.nodup h (by simp)
  have hget : (ts ++ [last])[ts.length]? = some last := by simp
  have hcall := hp.removal hget
  have hrest : ∀ done : List Thread, (last :: done).foldlM removeFromPool tp =
      done.foldlM removeFromPool { tp.setSlot ts.length none with size := tp.size - 1 } := by
    intro done
    rw [List.foldlM_cons,hcall]
    rfl
  constructor
  · intro hall done hdone
    obtain ⟨tp',hrun,hjust⟩ := hall (last :: done) (List.cons_prefix_cons.mpr ⟨rfl,hdone⟩)
    rw [hrest] at hrun
    rw [filter_removed_last hlast] at hjust
    exact ⟨tp',hrun,hjust⟩
  · intro hall done hdone
    rcases List.prefix_cons_iff.mp hdone with hnil | ⟨later,hlater,hpre⟩
    · rw [hnil]
      exact ⟨tp,rfl,by simpa using hp.holdsJust⟩
    · obtain ⟨tp',hrun,hjust⟩ := hall later hpre
      rw [hlater,hrest,filter_removed_last hlast]
      exact ⟨tp',hrun,hjust⟩

theorem not_keepsOthers_of_ne_last {tp : ThreadPool} {ts : List Thread} {last r : Thread}
    (hp : Holds tp (ts ++ [last])) (hr : r ∈ ts) (removals : List Thread) :
    ¬ KeepsOthers tp (ts ++ [last]) (r :: removals) := by
  intro hall
  have hne : last ≠ r := by
    intro h
    exact List.disjoint_of_nodup_append hp.nodup hr (by simp [h])
  obtain ⟨tp',hrun,hjust⟩ := hall [r] (by simp)
  obtain ⟨tp₁,hcall,hlost⟩ := hp.last_lost hr
  rw [List.foldlM_cons,hcall] at hrun
  cases hrun
  exact hlost (hjust.mem_iff.mpr (by simp [hne]))

/-- The pool keeps the other threads exactly as long as each removal takes the thread of
the last slot. -/
theorem keepsOthers_iff {tp : ThreadPool} {ts : List Thread} (hp : Holds tp ts)
    {removals : List Thread} (hnodup : removals.Nodup) (hmem : ∀ r ∈ removals, r ∈ ts) :
    KeepsOthers tp ts removals ↔ removals <+: ts.reverse := by
  induction removals generalizing tp ts with
  | nil => exact iff_of_true (keepsOthers_nil hp) List.nil_prefix
  | cons r rs ih =>
    rw [List.nodup_cons] at hnodup
    rcases List.eq_nil_or_concat ts with hnil | ⟨ts',last,hts⟩
    · have hr := hmem r (by simp)
      simp [hnil] at hr
    · rw [List.concat_eq_append] at hts
      subst hts
      rw [List.reverse_append,List.reverse_singleton,List.singleton_append,
        List.cons_prefix_cons]
      by_cases heq : r = last
      · subst heq
        have hrest : ∀ x ∈ rs, x ∈ ts' := by
          intro x hx
          have hne : x ≠ r := fun h => hnodup.1 (h ▸ hx)
          simpa [hne] using hmem x (by simp [hx])
        rw [keepsOthers_remove_last hp,ih hp.remove_last hnodup.2 hrest]
        simp
      · have hr : r ∈ ts' := by simpa [heq] using hmem r (by simp)
        exact iff_of_false (not_keepsOthers_of_ne_last hp hr rs) (fun h => heq h.1)

def twoThreads : ThreadPool := ⟨2,2,[some ⟨1,4,true⟩,some ⟨2,5,true⟩],rfl,by decide,by decide⟩

theorem holds_twoThreads : Holds twoThreads [⟨1,4,true⟩,⟨2,5,true⟩] :=
  ⟨rfl,by decide,by decide⟩

theorem keepsOthers_last_first :
    KeepsOthers twoThreads [⟨1,4,true⟩,⟨2,5,true⟩] [⟨2,5,true⟩,⟨1,4,true⟩] :=
  (keepsOthers_iff holds_twoThreads (by decide) (by decide)).mpr (by decide)

/-- The first of two threads leaves and the other one is out of the bound. -/
theorem removeFromPool_loses_last_thread :
    ¬ ∀ tp ts, Holds tp ts → ∀ removals : List Thread, removals.Nodup →
      (∀ r ∈ removals, r ∈ ts) → KeepsOthers tp ts removals := by
  intro h
  have hkeeps := h _ _ holds_twoThreads [⟨1,4,true⟩] (by decide) (by decide)
  exact @not_keepsOthers_of_ne_last _ [⟨1,4,true⟩] _ _ holds_twoThreads (by simp) [] hkeeps

end CTalk
