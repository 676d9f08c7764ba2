import Mathlib.Data.Finset.Card
import Mathlib.Data.Finset.Range
import CTalk.Crypto
import CTalk.Transition

/-! main.c: one call of receiving, round by round, over the kernel's answers to select,
accept and recv. -/

set_option autoImplicit false

namespace CTalk

abbrev fdSetSize : Nat := 1024

abbrev messageSize : Nat := 2000

/-- The kernel's answers in one round: the descriptors select reports, the descriptor
accept gives, and the bytes recv stores from each descriptor. An error of select or accept
is none; recv's own result is never looked at. -/
structure Answers where
  ready : Option (Finset Nat)
  accepted : Option Nat
  received : Nat → List UInt8

inductive Event where
  | accepted : Nat → Event
  | received : Nat → List UInt8 → Event
  deriving DecidableEq, Repr

/-- The locals of the call. The events are history: the descriptors accepted and, with the
text printed for each, those received from. -/
structure Receiving where
  k : Nat
  currentSockets : Finset Nat
  buffer : List UInt8
  events : List Event
  deriving DecidableEq

def fdSet (fd : Nat) (set : Finset Nat) : Except Fault (Finset Nat) :=
  if fd < fdSetSize then .ok (insert fd set) else .error .outOfBounds

/-- recv overwrites the front of the buffer and leaves the rest of it. -/
def recvInto (buffer bytes : List UInt8) : List UInt8 :=
  bytes.take messageSize ++ buffer.drop (bytes.take messageSize).length

def printString (buffer : List UInt8) : Except Fault (List UInt8) :=
  if (0 : UInt8) ∈ buffer then .ok (buffer.takeWhile (fun c => c ≠ 0))
  else .error .outOfBounds

def visit (serverFd : Nat) (answers : Answers) (ready : Finset Nat) (s : Receiving)
    (i : Nat) : Except Fault Receiving :=
  if i ∈ ready then
    if i = serverFd then
      match answers.accepted with
      | none => .error .exitFailure
      | some clientSocket => do
        let currentSockets ← fdSet clientSocket s.currentSockets
        pure { s with
          currentSockets := currentSockets
          events := s.events ++ [.accepted clientSocket] }
    else do
      let buffer := recvInto s.buffer (answers.received i)
      let printed ← printString buffer
      pure { s with
        currentSockets := s.currentSockets.erase i
        buffer := buffer
        events := s.events ++ [.received i printed] }
  else .ok s

/-- One turn of the while loop: the for loop tests the set that select reported. -/
def round (serverFd : Nat) (s : Receiving) (answers : Answers) : Except Fault Receiving :=
  match answers.ready with
  | none => .error .exitFailure
  | some ready =>
    (List.range fdSetSize).foldlM (visit serverFd answers ready) { s with k := s.k + 1 }

/-- The while loop; none where the answers end and select still waits. -/
def receivingLoop (serverFd : Nat) : Receiving → List Answers → Except Fault (Option Receiving)
  | _,[] => .ok none
  | s,answers :: later => do
    let s ← round serverFd s answers
    if s.k = 2 * fdSetSize then pure (some s) else receivingLoop serverFd s later

def Receiving.initial (currentSockets : Finset Nat) : Receiving where
  k := 0
  currentSockets := currentSockets
  buffer := List.replicate messageSize 0
  events := []

def receiving (serverFd : Nat) (answers : List Answers) : Except Fault (Option Receiving) := do
  let currentSockets ← fdSet serverFd ∅
  receivingLoop serverFd (.initial currentSockets) answers

theorem visit_cases {serverFd : Nat} {answers : Answers} {ready : Finset Nat}
    {s t : Receiving} {i : Nat} (hok : visit serverFd answers ready s i = .ok t) :
    (i ∉ ready ∧ t = s) ∨
    (i ∈ ready ∧ i = serverFd ∧ ∃ fd, answers.accepted = some fd ∧ fd < fdSetSize ∧
      t = { s with
        currentSockets := insert fd s.currentSockets
        events := s.events ++ [.accepted fd] }) ∨
    (i ∈ ready ∧ i ≠ serverFd ∧ ∃ printed,
      printString (recvInto s.buffer (answers.received i)) = .ok printed ∧
      t = { s with
        currentSockets := s.currentSockets.erase i
        buffer := recvInto s.buffer (answers.received i)
        events := s.events ++ [.received i printed] }) := by
  rw [visit] at hok
  by_cases hi : i ∈ ready
  · rw [if_pos hi] at hok
    by_cases hserver : i = serverFd
    · rw [if_pos hserver] at hok
      cases haccepted : answers.accepted with
      | none =>
        rw [haccepted] at hok
        cases hok
      | some fd =>
        rw [haccepted] at hok
        by_cases hfd : fd < fdSetSize
        · simp only [fdSet,if_pos hfd] at hok
          cases hok
          exact .inr (.inl ⟨hi,hserver,fd,rfl,hfd,rfl⟩)
        · simp only [fdSet,if_neg hfd] at hok
          cases hok
    · rw [if_neg hserver] at hok
      cases hprinted : printString (recvInto s.buffer (answers.received i)) with
      | error fault =>
        simp only [hprinted] at hok
        cases hok
      | ok printed =>
        simp only [hprinted] at hok
        cases hok
        exact .inr (.inr ⟨hi,hserver,printed,rfl,rfl⟩)
  · rw [if_neg hi] at hok
    cases hok
    exact .inl ⟨hi,rfl⟩

def Reports (answers : Answers) (fd : Nat) : Prop :=
  ∃ ready, answers.ready = some ready ∧ fd ∈ ready

def Accepts (serverFd : Nat) (answers : Answers) (fd : Nat) : Prop :=
  Reports answers serverFd ∧ answers.accepted = some fd

def Pending (events : List Event) (fd : Nat) : Prop :=
  ∃ earlier later, events = earlier ++ .accepted fd :: later ∧
    ∀ printed, .received fd printed ∉ later

theorem not_pending_nil (fd : Nat) : ¬ Pending [] fd := by
  intro h
  obtain ⟨earlier,later,hevents,_⟩ := h
  simp at hevents

theorem pending_snoc (events : List Event) (e : Event) (fd : Nat) :
    Pending (events ++ [e]) fd ↔
      e = .accepted fd ∨ (Pending events fd ∧ ∀ printed, e ≠ .received fd printed) := by
  constructor
  · intro h
    obtain ⟨earlier,later,hevents,hlater⟩ := h
    rcases List.eq_nil_or_concat later with hnil | ⟨front,last,hconcat⟩
    · subst hnil
      obtain ⟨_,hlast⟩ := List.append_inj' hevents rfl
      exact .inl (List.cons.inj hlast).1
    · rw [List.concat_eq_append] at hconcat
      subst hconcat
      rw [← List.cons_append,← List.append_assoc] at hevents
      obtain ⟨hfront,hlast⟩ := List.append_inj' hevents rfl
      cases hlast
      refine .inr ⟨⟨earlier,front,hfront,?_⟩,?_⟩
      · intro printed hmem
        exact hlater printed (by simp [hmem])
      · intro printed heq
        exact hlater printed (by simp [heq])
  · intro h
    rcases h with heq | ⟨⟨earlier,later,hevents,hlater⟩,hne⟩
    · exact ⟨events,[],by rw [heq],by simp⟩
    · refine ⟨earlier,later ++ [e],by simp [hevents],?_⟩
      intro printed hmem
      rcases List.mem_append.mp hmem with hin | hlast
      · exact hlater printed hin
      · exact hne printed (List.mem_singleton.mp hlast).symm

theorem pending_accepted (events : List Event) (fd x : Nat) :
    Pending (events ++ [.accepted fd]) x ↔ x = fd ∨ Pending events x := by
  simp [pending_snoc,eq_comm]

theorem pending_received (events : List Event) (fd : Nat) (printed : List UInt8) (x : Nat) :
    Pending (events ++ [.received fd printed]) x ↔ x ≠ fd ∧ Pending events x := by
  simp [pending_snoc,eq_comm,and_comm]

/-- The watch set between two visits: the server's descriptor and those of the pending
connections, all of them below FD_SETSIZE. -/
structure Watching (serverFd : Nat) (s : Receiving) : Prop where
  server : serverFd ∈ s.currentSockets
  inSet : ∀ fd ∈ s.currentSockets, fd < fdSetSize
  pending : ∀ fd, Pending s.events fd ↔ fd ∈ s.currentSockets ∧ fd ≠ serverFd

section call
variable {serverFd : Nat} {answers : Answers}

theorem watching_initial (hserver : serverFd < fdSetSize) :
    Watching serverFd (.initial (insert serverFd ∅)) where
  server := Finset.mem_insert_self _ _
  inSet := by
    intro fd hfd
    simp only [Receiving.initial,Finset.mem_insert,Finset.notMem_empty,or_false] at hfd
    omega
  pending := by
    intro fd
    refine iff_of_false (not_pending_nil fd) ?_
    simp [Receiving.initial]

theorem watching_visit {ready : Finset Nat} (hready : answers.ready = some ready)
    (hnew : ∀ fd, Accepts serverFd answers fd → fd ≠ serverFd) {s t : Receiving} {i : Nat}
    (hs : Watching serverFd s) (hok : visit serverFd answers ready s i = .ok t) :
    Watching serverFd t := by
  rcases visit_cases hok with hskip | haccept | hreceive
  · rw [hskip.2]
    exact hs
  · obtain ⟨hi,hserver,fd,haccepted,hlt,ht⟩ := haccept
    have hne : fd ≠ serverFd := hnew fd ⟨⟨ready,hready,hserver ▸ hi⟩,haccepted⟩
    subst ht
    refine ⟨Finset.mem_insert_of_mem hs.server,?_,?_⟩
    · intro x hx
      rcases Finset.mem_insert.mp hx with heq | hin
      · rw [heq]
        exact hlt
      · exact hs.inSet x hin
    · intro x
      rw [pending_accepted,hs.pending,Finset.mem_insert]
      constructor
      · intro h
        rcases h with heq | hold
        · exact ⟨.inl heq,heq ▸ hne⟩
        · exact ⟨.inr hold.1,hold.2⟩
      · intro h
        rcases h.1 with heq | hin
        · exact .inl heq
        · exact .inr ⟨hin,h.2⟩
  · obtain ⟨hi,hserver,printed,_,ht⟩ := hreceive
    subst ht
    refine ⟨Finset.mem_erase.mpr ⟨Ne.symm hserver,hs.server⟩,?_,?_⟩
    · intro x hx
      exact hs.inSet x (Finset.mem_of_mem_erase hx)
    · intro x
      rw [pending_received,hs.pending,Finset.mem_erase,and_assoc]

theorem round_inv {s t : Receiving} (hok : round serverFd s answers = .ok t) :
    ∃ ready, answers.ready = some ready ∧
      (List.range fdSetSize).foldlM (visit serverFd answers ready) { s with k := s.k + 1 } =
        .ok t := by
  rw [round] at hok
  cases hready : answers.ready with
  | none =>
    rw [hready] at hok
    cases hok
  | some ready =>
    rw [hready] at hok
    exact ⟨ready,rfl,hok⟩

theorem watching_round {s t : Receiving} (hs : Watching serverFd s)
    (hnew : ∀ fd, Accepts serverFd answers fd → fd ≠ serverFd)
    (hok : round serverFd s answers = .ok t) : Watching serverFd t := by
  obtain ⟨ready,hready,hfold⟩ := round_inv hok
  have hstart : Watching serverFd { s with k := s.k + 1 } := ⟨hs.server,hs.inSet,hs.pending⟩
  exact Transition.foldlM_invariant (I := fun _ => Watching serverFd)
    (fun i _ u v hu hv => watching_visit hready hnew hu hv) hstart hfold

theorem k_visit {ready : Finset Nat} {s t : Receiving} {i : Nat}
    (hok : visit serverFd answers ready s i = .ok t) : t.k = s.k := by
  rcases visit_cases hok with hskip | haccept | hreceive
  · rw [hskip.2]
  · obtain ⟨_,_,fd,_,_,ht⟩ := haccept
    rw [ht]
  · obtain ⟨_,_,printed,_,ht⟩ := hreceive
    rw [ht]

theorem k_round {s t : Receiving} (hok : round serverFd s answers = .ok t) :
    t.k = s.k + 1 := by
  obtain ⟨ready,_,hfold⟩ := round_inv hok
  exact Transition.foldlM_invariant (I := fun _ u => u.k = s.k + 1)
    (fun i _ u v hu hv => (k_visit hv).trans hu) rfl hfold

theorem mem_foldlM_visit {ready : Finset Nat} (hready : answers.ready = some ready)
    (hnew : ∀ fd, Accepts serverFd answers fd → fd ∉ ready) {is : List Nat}
    {s t : Receiving} (hok : is.foldlM (visit serverFd answers ready) s = .ok t) {x : Nat}
    (hx : x ≠ serverFd) :
    x ∈ t.currentSockets ↔ (x ∈ s.currentSockets ∧ ¬ (x ∈ is ∧ x ∈ ready)) ∨
      (serverFd ∈ is ∧ Accepts serverFd answers x) := by
  induction is generalizing s with
  | nil =>
    cases hok
    simp
  | cons i is ih =>
    obtain ⟨u,hvisit,hrest⟩ := Transition.foldlM_cons_inv hok
    rw [ih hrest,List.mem_cons,List.mem_cons]
    rcases visit_cases hvisit with hskip | haccept | hreceive
    · obtain ⟨hi,hu⟩ := hskip
      subst hu
      have hserver : Accepts serverFd answers x → i ≠ serverFd := by
        intro h heq
        obtain ⟨⟨r,hr,hin⟩,_⟩ := h
        rw [hready] at hr
        cases hr
        exact hi (heq ▸ hin)
      grind
    · obtain ⟨hi,hserver,fd,haccepted,hlt,hu⟩ := haccept
      have hfd : Accepts serverFd answers fd := ⟨⟨ready,hready,hserver ▸ hi⟩,haccepted⟩
      have hnot := hnew fd hfd
      have hiff : Accepts serverFd answers x ↔ x = fd := by
        constructor
        · intro h
          exact Option.some.inj (h.2.symm.trans haccepted)
        · intro h
          exact h ▸ hfd
      rw [hiff,hu,Finset.mem_insert]
      grind
    · obtain ⟨hi,hserver,printed,_,hu⟩ := hreceive
      rw [hu,Finset.mem_erase]
      grind

theorem mem_round {s t : Receiving} (hs : Watching serverFd s)
    (hnew : ∀ fd, Accepts serverFd answers fd → ¬ Reports answers fd)
    (hok : round serverFd s answers = .ok t) {x : Nat} (hx : x ≠ serverFd) :
    x ∈ t.currentSockets ↔
      (x ∈ s.currentSockets ∧ ¬ Reports answers x) ∨ Accepts serverFd answers x := by
  obtain ⟨ready,hready,hfold⟩ := round_inv hok
  have hreports : ∀ fd, Reports answers fd ↔ fd ∈ ready := by
    intro fd
    simp [Reports,hready]
  have hunready : ∀ fd, Accepts serverFd answers fd → fd ∉ ready :=
    fun fd hfd hin => hnew fd hfd ((hreports fd).mpr hin)
  -- every watched descriptor is one the for loop visits
  have hrange : ∀ fd, fd ∈ s.currentSockets → fd ∈ List.range fdSetSize :=
    fun fd hfd => List.mem_range.mpr (hs.inSet fd hfd)
  rw [mem_foldlM_visit hready hunready hfold hx,hreports]
  have hserver := hrange serverFd hs.server
  have hxrange := hrange x
  grind

end call

def step (serverFd : Nat) (s : Receiving) (answers : Answers) : Option Receiving :=
  (round serverFd s answers).toOption

theorem round_of_step {serverFd : Nat} {s t : Receiving} {answers : Answers}
    (h : step serverFd s answers = some t) : round serverFd s answers = .ok t := by
  rw [step] at h
  cases hround : round serverFd s answers with
  | error fault =>
    rw [hround] at h
    cases h
  | ok u =>
    rw [hround] at h
    cases h
    rfl

theorem receiving_eq {serverFd : Nat} (hserver : serverFd < fdSetSize)
    (answers : List Answers) :
    receiving serverFd answers =
      receivingLoop serverFd (.initial (insert serverFd ∅)) answers := by
  rw [receiving,fdSet,if_pos hserver]
  rfl

def acceptAnswer (fd : Nat) : Answers := ⟨some {3},some fd,fun _ => []⟩

def receiveAnswer (fd : Nat) : Answers := ⟨some {fd},none,fun _ => []⟩

def messageAnswer (fd : Nat) (bytes : List UInt8) : Answers := ⟨some {fd},none,fun _ => bytes⟩

theorem foldlM_visit_skip {serverFd : Nat} {answers : Answers} {ready : Finset Nat}
    {is : List Nat} (hskip : ∀ i ∈ is, i ∉ ready) (s : Receiving) :
    is.foldlM (visit serverFd answers ready) s = .ok s := by
  induction is with
  | nil => rfl
  | cons i is ih =>
    rw [List.foldlM_cons,visit,if_neg (hskip i (by simp))]
    exact ih (fun j hj => hskip j (by simp [hj]))

theorem range_split {i n : Nat} (hi : i < n) :
    ∃ later, List.range n = List.range i ++ i :: later ∧ ∀ j ∈ later, i < j := by
  obtain ⟨m,rfl⟩ := Nat.exists_eq_add_of_le (Nat.succ_le_of_lt hi)
  refine ⟨(List.range m).map (fun j => i + 1 + j),?_,?_⟩
  · simp [List.range_add,List.range_succ]
  · intro j hj
    obtain ⟨k,_,hk⟩ := List.mem_map.mp hj
    omega

theorem round_of_single {serverFd : Nat} {answers : Answers} (fd : Nat)
    (hready : answers.ready = some {fd}) (hfd : fd < fdSetSize) {s t : Receiving}
    (hvisit : visit serverFd answers {fd} { s with k := s.k + 1 } fd = .ok t) :
    round serverFd s answers = .ok t := by
  obtain ⟨later,hrange,hlater⟩ := range_split hfd
  have hbefore : ∀ i ∈ List.range fd, i ∉ ({fd} : Finset Nat) := by
    intro i hi hin
    exact Nat.ne_of_lt (List.mem_range.mp hi) (Finset.mem_singleton.mp hin)
  have hafter : ∀ i ∈ later, i ∉ ({fd} : Finset Nat) := by
    intro i hi hin
    exact Nat.ne_of_gt (hlater i hi) (Finset.mem_singleton.mp hin)
  simp only [round,hready]
  rw [hrange,List.foldlM_append,foldlM_visit_skip hbefore]
  simp only [bind,Except.bind,List.foldlM_cons,hvisit]
  exact foldlM_visit_skip hafter t

def Receiving.afterAccept (s : Receiving) (fd : Nat) : Receiving :=
  { s with
    k := s.k + 1
    currentSockets := insert fd s.currentSockets
    events := s.events ++ [.accepted fd] }

def Receiving.afterReceive (s : Receiving) (fd : Nat) : Receiving :=
  { s with
    k := s.k + 1
    currentSockets := s.currentSockets.erase fd
    events := s.events ++ [.received fd []] }

def Receiving.afterMessage (s : Receiving) (fd : Nat) (bytes printed : List UInt8) : Receiving :=
  { s with
    k := s.k + 1
    currentSockets := s.currentSockets.erase fd
    buffer := recvInto s.buffer bytes
    events := s.events ++ [.received fd printed] }

theorem step_acceptAnswer {fd : Nat} (hfd : fd < fdSetSize) (s : Receiving) :
    step 3 s (acceptAnswer fd) = some (s.afterAccept fd) := by
  rw [step,round_of_single 3 rfl (by decide) (by
    simp only [visit,acceptAnswer,Finset.mem_singleton,if_true,fdSet,if_pos hfd]
    rfl)]
  rfl

theorem step_messageAnswer {fd : Nat} (hne : fd ≠ 3) (hfd : fd < fdSetSize) {s : Receiving}
    {bytes printed : List UInt8}
    (hprinted : printString (recvInto s.buffer bytes) = .ok printed) :
    step 3 s (messageAnswer fd bytes) = some (s.afterMessage fd bytes printed) := by
  rw [step,round_of_single fd rfl hfd (by
    simp only [visit,messageAnswer,Finset.mem_singleton,if_true,if_neg hne,hprinted]
    rfl)]
  rfl

theorem printString_replicate {n : Nat} (hn : 0 < n) :
    printString (List.replicate n 0) = .ok [] := by
  obtain ⟨m,rfl⟩ := Nat.exists_eq_succ_of_ne_zero (Nat.ne_of_gt hn)
  rw [printString,if_pos (List.mem_replicate.mpr ⟨by omega,rfl⟩),List.replicate_succ]
  rfl

theorem printString_received_nothing {buffer : List UInt8}
    (hbuffer : buffer = List.replicate messageSize 0) :
    printString (recvInto buffer []) = .ok [] := by
  have hsame : recvInto buffer [] = buffer := rfl
  rw [hsame,hbuffer]
  exact printString_replicate (by decide)

theorem reports_of_single {answers : Answers} {x fd : Nat} (hready : answers.ready = some {x})
    (hfd : Reports answers fd) : fd = x := by
  obtain ⟨ready,hanswer,hin⟩ := hfd
  rw [hready] at hanswer
  cases hanswer
  exact Finset.mem_singleton.mp hin

structure Idle (s : Receiving) : Prop where
  sockets : s.currentSockets = {3}
  buffer : s.buffer = List.replicate messageSize 0

theorem idle_pair {fd : Nat} (hne : fd ≠ 3) {s : Receiving} (hs : Idle s) :
    Idle ((s.afterAccept fd).afterReceive fd) where
  sockets := by
    change (insert fd s.currentSockets).erase fd = {3}
    rw [hs.sockets,Finset.erase_insert (by simpa using hne)]
  buffer := hs.buffer

end CTalk
