import CTalk.Network

/-! threads.c: the pool of connected clients, and the broadcast of server.c over it. A
slot of the pool holds a thread or NULL; what memory the allocator hands out holds is an
input of the model. -/

set_option autoImplicit false

namespace CTalk
open ByteStream

structure Thread where
  threadId : Nat
  socketFd : Int
  isActive : Bool
  deriving DecidableEq, Repr

/-- The capacity is an int, and never 0: no realloc asks for nothing. -/
structure ThreadPool where
  size : Nat
  capacity : Nat
  pool : List (Option Thread)
  allocated : pool.length = capacity
  positive : 0 < capacity
  fits : capacity < 2 ^ 31
  deriving DecidableEq

def ThreadPool.setSlot (tp : ThreadPool) (i : Nat) (slot : Option Thread) : ThreadPool :=
  { tp with pool := tp.pool.set i slot, allocated := by simpa using tp.allocated }

def baseCapacity : Nat := 15

/-- The slots come from malloc and are not cleared. -/
def createThreadPool (fresh : Nat → Option Thread) : ThreadPool where
  size := 0
  capacity := baseCapacity
  pool := (List.range baseCapacity).map fresh
  allocated := by simp
  positive := by decide
  fits := by decide

/-- realloc keeps the slots there are and appends uncleared ones. -/
def ThreadPool.grow (fresh : Nat → Option Thread) (tp : ThreadPool)
    (hfits : tp.capacity * 2 < 2 ^ 31) : ThreadPool where
  size := tp.size
  capacity := tp.capacity * 2
  pool := tp.pool ++ (List.range' tp.capacity tp.capacity).map fresh
  allocated := by
    have h := tp.allocated
    simp only [List.length_append,List.length_map,List.length_range']
    omega
  positive := Nat.mul_pos tp.positive Nat.two_pos
  fits := hfits

/-- The loop of add_to_pool. A store does not end it, and moves its bound, an int. -/
def addLoop (thread : Thread) (tp : ThreadPool) (i : Nat) : Except Fault ThreadPool :=
  if i < tp.size then
    match h : tp.pool[i]? with
    | none => .error .outOfBounds
    | some none =>
      if 2 ^ 31 ≤ tp.size + 1 then .error .signedOverflow
      else addLoop thread { tp.setSlot i (some thread) with size := tp.size + 1 } (i + 1)
    | some (some _) => addLoop thread tp (i + 1)
  else .ok tp
termination_by tp.pool.length - i
decreasing_by
  · obtain ⟨hi,_⟩ := List.getElem?_eq_some_iff.mp h
    simp only [ThreadPool.setSlot,List.length_set]
    omega
  · obtain ⟨hi,_⟩ := List.getElem?_eq_some_iff.mp h
    omega

def ThreadPool.makeRoom (fresh : Nat → Option Thread) (tp : ThreadPool) : ThreadPool :=
  if h : tp.size = tp.capacity ∧ tp.capacity * 2 < 2 ^ 31 then tp.grow fresh h.2 else tp

/-- The capacity is an int, and doubling it can leave its range. -/
def addToPool (fresh : Nat → Option Thread) (tp : ThreadPool) (thread : Thread) :
    Except Fault ThreadPool :=
  if tp.size = tp.capacity ∧ 2 ^ 31 ≤ tp.capacity * 2 then .error .signedOverflow
  else addLoop thread (tp.makeRoom fresh) 0

/-- The loop of remove_from_pool. It reads the thread_id behind every slot it passes. -/
def removeLoop (thread : Thread) (tp : ThreadPool) (i : Nat) : Except Fault ThreadPool :=
  if i < tp.size then
    match tp.pool[i]? with
    | none => .error .outOfBounds
    | some none => .error .nullDeref
    | some (some t) =>
      if t.threadId = thread.threadId then
        removeLoop thread { tp.setSlot i none with size := tp.size - 1 } (i + 1)
      else removeLoop thread tp (i + 1)
  else .ok tp
termination_by tp.size - i

def removeFromPool (tp : ThreadPool) (thread : Thread) : Except Fault ThreadPool :=
  removeLoop thread tp 0

/-- The second loop of the broadcast, over the slots copied under the lock. The result
lists each socket written to with the bytes it accepted. -/
def broadcastLoop (message : Buffer) (answer : Int → SendResult) :
    List (Option Thread) → Except Fault (List (Int × List UInt8))
  | [] => .ok []
  | none :: _ => .error .nullDeref
  | some t :: threads =>
    if t.isActive then do
      let sent := sendMessageServer message (answer t.socketFd)
      let _ ← sent.result
      let rest ← broadcastLoop message answer threads
      pure ((t.socketFd,sent.wire) :: rest)
    else broadcastLoop message answer threads

def broadcastToOtherClients (tp : ThreadPool) (message : Buffer)
    (answer : Int → SendResult) : Except Fault (List (Int × List UInt8)) :=
  if tp.pool.length < tp.size then .error .outOfBounds
  else broadcastLoop message answer (tp.pool.take tp.size)

/-- The pool as a set of threads: each member in exactly one slot below size, no other
thread there, and no slot counted that holds none. -/
structure Represents (tp : ThreadPool) (members : List Thread) : Prop where
  slots : ((tp.pool.take tp.size).filterMap id).Perm members
  count : tp.size = members.length
  room : tp.size ≤ tp.capacity

def Broadcasts (tp : ThreadPool) (members : List Thread) : Prop :=
  ∀ (message : Buffer) (answer : Int → SendResult),
    message.strlen < maxBufferSize → (∀ fd, answer fd = .accepted message.strlen) →
    ∃ sends, broadcastToOtherClients tp message answer = .ok sends ∧
      sends.Perm ((members.filter Thread.isActive).map (fun t => (t.socketFd,message.text)))

inductive PoolCall where
  | add : Thread → PoolCall
  | remove : Thread → PoolCall
  deriving DecidableEq

def PoolCall.added : PoolCall → Option Thread
  | .add t => some t
  | .remove _ => none

def PoolCall.run (fresh : Nat → Option Thread) (tp : ThreadPool) :
    PoolCall → Except Fault ThreadPool
  | .add t => addToPool fresh tp t
  | .remove t => removeFromPool tp t

def runCalls (fresh : Nat → Option Thread) (tp : ThreadPool) (calls : List PoolCall) :
    Except Fault ThreadPool :=
  calls.foldlM (PoolCall.run fresh) tp

def members (calls : List PoolCall) : List Thread :=
  calls.foldl (fun ms call => match call with
    | .add t => ms ++ [t]
    | .remove t => ms.filter (fun u => u ≠ t)) []

/-- Every thread has an id of its own, is added at most once, and is removed only after
it was added. -/
structure WellFormed (calls : List PoolCall) : Prop where
  own_id : ((calls.filterMap PoolCall.added).map Thread.threadId).Nodup
  after_add : ∀ earlier t later, calls = earlier ++ .remove t :: later → .add t ∈ earlier

/-- The pool holds the current members after the last of the calls, and a broadcast at
that point reaches them. -/
def HoldsAfter (fresh : Nat → Option Thread) (calls : List PoolCall) : Prop :=
  ∃ tp, runCalls fresh (createThreadPool fresh) calls = .ok tp ∧
    Represents tp (members calls) ∧ Broadcasts tp (members calls)

theorem addToPool_of_size_zero {tp : ThreadPool} (hsize : tp.size = 0)
    (fresh : Nat → Option Thread) (thread : Thread) :
    addToPool fresh tp thread = .ok tp := by
  have hpos := tp.positive
  have hne : ¬ tp.size = tp.capacity := by omega
  have hlt : ¬ 0 < tp.size := by omega
  rw [addToPool,if_neg (fun h => hne h.1),ThreadPool.makeRoom,dif_neg (fun h => hne h.1),
    addLoop,if_neg hlt]

theorem removeFromPool_of_size_zero {tp : ThreadPool} (hsize : tp.size = 0)
    (thread : Thread) : removeFromPool tp thread = .ok tp := by
  have hlt : ¬ 0 < tp.size := by omega
  rw [removeFromPool,removeLoop,if_neg hlt]

theorem runCalls_createThreadPool (fresh : Nat → Option Thread) (calls : List PoolCall) :
    runCalls fresh (createThreadPool fresh) calls = .ok (createThreadPool fresh) := by
  induction calls with
  | nil => rfl
  | cons call calls ih =>
    have hcall : call.run fresh (createThreadPool fresh) = .ok (createThreadPool fresh) := by
      cases call with
      | add t => exact addToPool_of_size_zero rfl fresh t
      | remove t => exact removeFromPool_of_size_zero rfl t
    rw [runCalls,List.foldlM_cons,hcall]
    exact ih

theorem holdsAfter_iff (fresh : Nat → Option Thread) (calls : List PoolCall) :
    HoldsAfter fresh calls ↔ members calls = [] := by
  rw [HoldsAfter,runCalls_createThreadPool]
  constructor
  · intro h
    obtain ⟨tp,htp,hrep,_⟩ := h
    cases htp
    exact List.eq_nil_of_length_eq_zero hrep.count.symm
  · intro h
    refine ⟨_,rfl,?_,?_⟩
    · rw [h]
      exact ⟨List.Perm.refl [],rfl,Nat.zero_le _⟩
    · intro message answer _ _
      rw [h]
      exact ⟨[],rfl,List.Perm.refl []⟩

/-- The first call cannot be a removal, and after an addition the pool is wrong. -/
theorem pool_content_iff (fresh : Nat → Option Thread) (calls : List PoolCall)
    (h : WellFormed calls) :
    (HoldsAfter fresh calls ↔ members calls = []) ∧
      ((∀ done, done <+: calls → HoldsAfter fresh done) ↔ calls = []) := by
  refine ⟨holdsAfter_iff fresh calls,?_⟩
  constructor
  · intro hall
    cases calls with
    | nil => rfl
    | cons call calls =>
      cases call with
      | add t =>
        have hone := hall [.add t] ⟨calls,rfl⟩
        rw [holdsAfter_iff] at hone
        simp [members] at hone
      | remove t =>
        have hmem := h.after_add [] t calls rfl
        simp at hmem
  · intro hnil done hdone
    subst hnil
    rw [List.prefix_nil.mp hdone,holdsAfter_iff]
    rfl

theorem wellFormed_add (t : Thread) : WellFormed [.add t] where
  own_id := by simp [PoolCall.added]
  after_add := by
    intro earlier u later hsplit
    cases earlier with
    | nil => simp at hsplit
    | cons call earlier => simp at hsplit

theorem pool_content_iff_one_add :
    (HoldsAfter (fun _ => none) [.add ⟨1,4,true⟩] ↔ members [.add ⟨1,4,true⟩] = []) ∧
      ((∀ done, done <+: [.add ⟨1,4,true⟩] → HoldsAfter (fun _ => none) done) ↔
        [PoolCall.add ⟨1,4,true⟩] = []) :=
  pool_content_iff (fun _ => none) [.add ⟨1,4,true⟩] (wellFormed_add ⟨1,4,true⟩)

theorem pool_loses_first_thread :
    ¬ ∀ fresh calls, WellFormed calls → HoldsAfter fresh calls := by
  intro h
  have hone := h (fun _ => none) [.add ⟨1,4,true⟩] (wellFormed_add ⟨1,4,true⟩)
  rw [holdsAfter_iff] at hone
  simp [members] at hone

end CTalk
