import CTalk.LowestUnused
import CTalk.Receiving

/-! main.c: receive_thread, which calls receiving for ever, and the descriptors that the
process holds by then. -/

set_option autoImplicit false

namespace CTalk
open LowestUnused Transition

/-- A connection from its arrival on: the descriptor that accept gave for it, whether the
peer still has it open, and whether it has been received from. -/
structure Incoming where
  fd : Option Nat
  remoteOpen : Bool
  received : Bool
  deriving DecidableEq, Repr

/-- The thread inside one of its calls of receiving. The descriptors accepted are kept from
call to call: nothing closes them. -/
structure ReceiveThread where
  call : Receiving
  accepted : Finset Nat
  connections : List Incoming
  deriving DecidableEq

/-- A round comes with the descriptors that the rest of the process holds in it. -/
inductive ThreadAction where
  | connects : ThreadAction
  | closes : Nat → ThreadAction
  | round : Answers → Finset Nat → ThreadAction

def roundsOf (actions : List ThreadAction) : List Answers :=
  actions.filterMap (fun
    | .round answers _ => some answers
    | _ => none)

def acceptedIn (serverFd : Nat) (answers : Answers) : Option Nat :=
  match answers.ready with
  | none => none
  | some ready => if serverFd ∈ ready then answers.accepted else none

def Incoming.afterRound (serverFd : Nat) (answers : Answers) (c : Incoming) : Incoming :=
  match c.fd,answers.ready with
  | some fd,some ready =>
    if fd ∈ ready ∧ fd ≠ serverFd then { c with received := true } else c
  | _,_ => c

def acceptNext (fd : Nat) : List Incoming → List Incoming
  | [] => []
  | c :: cs => if c.fd = none then { c with fd := some fd } :: cs else c :: acceptNext fd cs

def nextCall (serverFd : Nat) (call : Receiving) : Receiving :=
  if call.k = 2 * fdSetSize then .initial (insert serverFd ∅) else call

def ReceiveThread.start (serverFd : Nat) : ReceiveThread where
  call := .initial (insert serverFd ∅)
  accepted := ∅
  connections := []

def receiveThread (serverFd : Nat) (s : ReceiveThread) : ThreadAction → Option ReceiveThread
  | .connects => some { s with connections := s.connections ++ [⟨none,true,false⟩] }
  | .closes n =>
    match s.connections[n]? with
    | none => none
    | some c => some { s with connections := s.connections.set n { c with remoteOpen := false } }
  | .round answers _ =>
    match round serverFd s.call answers with
    | .error _ => none
    | .ok call =>
      let heard := s.connections.map (Incoming.afterRound serverFd answers)
      match acceptedIn serverFd answers with
      | none => some ⟨nextCall serverFd call,s.accepted,heard⟩
      | some fd => some ⟨nextCall serverFd call,insert fd s.accepted,acceptNext fd heard⟩

/-- The descriptor that the round passes to FD_SET: accept's, where the for loop comes to
the server's turn. -/
def fdSetArgument (serverFd : Nat) (call : Receiving) (answers : Answers) : Option Nat :=
  match answers.ready with
  | none => none
  | some ready =>
    match (List.range serverFd).foldlM (visit serverFd answers ready)
        { call with k := call.k + 1 } with
    | .error _ => none
    | .ok _ => acceptedIn serverFd answers

def acceptedCount (cs : List Incoming) : Nat := cs.countP (fun c => c.fd.isSome)

def liveCount (cs : List Incoming) : Nat := cs.countP (fun c => c.remoteOpen || !c.received)

/-- What the kernel promises: select reports descriptors it was asked about, the server's
where a connection waits, and accept answers the lowest descriptor that is not in use. -/
structure KernelObeys (serverFd : Nat) (s : ReceiveThread) (answers : Answers)
    (others : Finset Nat) : Prop where
  watched : ∀ fd, Reports answers fd → fd ∈ s.call.currentSockets
  apart : ∀ fd ∈ others, fd ∉ insert serverFd s.accepted
  waiting : ∀ fd, Accepts serverFd answers fd → ∃ c ∈ s.connections, c.fd = none
  lowest : ∀ fd, Accepts serverFd answers fd →
    fd = lowestUnused (insert serverFd (s.accepted ∪ others))

def ActionObeys (serverFd : Nat) (s : ReceiveThread) : ThreadAction → Prop
  | .round answers others => KernelObeys serverFd s answers others
  | _ => True

def PassesBelow (serverFd : Nat) (s : ReceiveThread) : ThreadAction → Prop
  | .round answers _ => ∀ fd ∈ fdSetArgument serverFd s.call answers, fd < fdSetSize
  | _ => True

/-- Where a round comes to FD_SET, the connections accepted until then and the other
descriptors in use below FD_SETSIZE are together fewer than FD_SETSIZE. -/
def Room (serverFd : Nat) (s : ReceiveThread) : ThreadAction → Prop
  | .round answers others =>
    (fdSetArgument serverFd s.call answers).isSome →
      acceptedCount s.connections +
        ((insert serverFd others).filter (fun fd => fd < fdSetSize)).card < fdSetSize
  | _ => True

/-- Every descriptor passed to FD_SET in the run is below FD_SETSIZE: the server's at the
start of each call, and those of the connections. -/
def FdSetArgumentsBelow (serverFd : Nat) (actions : List ThreadAction) : Prop :=
  serverFd < fdSetSize ∧
    Meets (receiveThread serverFd) (PassesBelow serverFd) (.start serverFd) actions

section step
variable {serverFd : Nat} {answers : Answers}

theorem acceptedIn_eq_some_iff (fd : Nat) :
    acceptedIn serverFd answers = some fd ↔ Accepts serverFd answers fd := by
  unfold acceptedIn Accepts Reports
  cases answers.ready with
  | none => simp
  | some ready => simp

theorem fdSetArgument_inv {call : Receiving} {fd : Nat}
    (h : fdSetArgument serverFd call answers = some fd) : Accepts serverFd answers fd := by
  unfold fdSetArgument at h
  split at h
  · simp at h
  · split at h
    · simp at h
    · exact (acceptedIn_eq_some_iff fd).mp h

theorem receiveThread_round_cases {s t : ReceiveThread} {others : Finset Nat}
    (h : receiveThread serverFd s (.round answers others) = some t) :
    ∃ call, round serverFd s.call answers = .ok call ∧ t.call = nextCall serverFd call ∧
      ((acceptedIn serverFd answers = none ∧ t.accepted = s.accepted ∧
        t.connections = s.connections.map (Incoming.afterRound serverFd answers)) ∨
      ∃ fd, acceptedIn serverFd answers = some fd ∧ t.accepted = insert fd s.accepted ∧
        t.connections =
          acceptNext fd (s.connections.map (Incoming.afterRound serverFd answers))) := by
  simp only [receiveThread] at h
  cases hround : round serverFd s.call answers with
  | error fault => simp [hround] at h
  | ok call =>
    cases haccepted : acceptedIn serverFd answers with
    | none =>
      simp [hround,haccepted] at h
      subst h
      exact ⟨call,rfl,rfl,.inl ⟨rfl,rfl,rfl⟩⟩
    | some fd =>
      simp [hround,haccepted] at h
      subst h
      exact ⟨call,rfl,rfl,.inr ⟨fd,rfl,rfl,rfl⟩⟩

@[simp] theorem Incoming.afterRound_fd (c : Incoming) :
    (c.afterRound serverFd answers).fd = c.fd := by
  unfold afterRound
  split
  · split <;> rfl
  · rfl

theorem acceptedCount_cons (c : Incoming) (cs : List Incoming) :
    acceptedCount (c :: cs) = acceptedCount cs + if c.fd.isSome then 1 else 0 :=
  List.countP_cons

theorem acceptedCount_afterRound (cs : List Incoming) :
    acceptedCount (cs.map (Incoming.afterRound serverFd answers)) = acceptedCount cs := by
  simp [acceptedCount,List.countP_map,Function.comp_def]

theorem acceptedCount_acceptNext {cs : List Incoming} (hwaiting : ∃ c ∈ cs, c.fd = none)
    (fd : Nat) : acceptedCount (acceptNext fd cs) = acceptedCount cs + 1 := by
  induction cs with
  | nil => simp at hwaiting
  | cons c cs ih =>
    by_cases hc : c.fd = none
    · simp [acceptNext,acceptedCount_cons,hc]
    · have hrest : ∃ d ∈ cs, d.fd = none := by simpa [hc] using hwaiting
      simp only [acceptNext,if_neg hc,acceptedCount_cons,ih hrest]
      omega

theorem acceptedCount_set {cs : List Incoming} {n : Nat} {c : Incoming} (hc : cs[n]? = some c)
    {d : Incoming} (hfd : d.fd = c.fd) : acceptedCount (cs.set n d) = acceptedCount cs := by
  induction cs generalizing n with
  | nil => rfl
  | cons e cs ih =>
    cases n with
    | zero =>
      simp at hc
      subst hc
      simp [acceptedCount_cons,hfd]
    | succ n => simp [acceptedCount_cons,ih hc]

end step

section argument
variable {serverFd : Nat} {call : Receiving} {answers : Answers} {fd : Nat}

theorem round_outOfBounds (hserver : serverFd < fdSetSize)
    (hfd : fdSetArgument serverFd call answers = some fd) (hlarge : fdSetSize ≤ fd) :
    round serverFd call answers = .error .outOfBounds := by
  obtain ⟨⟨ready,hready,hin⟩,haccepted⟩ := fdSetArgument_inv hfd
  obtain ⟨later,hrange,_⟩ := range_split hserver
  unfold fdSetArgument at hfd
  rw [round,hready]
  simp only [hready] at hfd
  cases hbefore : (List.range serverFd).foldlM (visit serverFd answers ready)
      { call with k := call.k + 1 } with
  | error fault => simp [hbefore] at hfd
  | ok u =>
    have hvisit : visit serverFd answers ready u serverFd = .error .outOfBounds := by
      simp [visit,hin,haccepted,fdSet,Nat.not_lt.mpr hlarge,bind,Except.bind]
    simp only [hrange,List.foldlM_append,hbefore,List.foldlM_cons,hvisit,bind,Except.bind]

end argument

/-- The set that the call watches is part of what the process holds, all accepted descriptors
went through FD_SET, and there are as many of them as connections accepted. -/
structure Holding (serverFd : Nat) (s : ReceiveThread) : Prop where
  watching : Watching serverFd s.call
  held : s.call.currentSockets ⊆ insert serverFd s.accepted
  server : serverFd ∉ s.accepted
  below : ∀ fd ∈ s.accepted, fd < fdSetSize
  count : acceptedCount s.connections = s.accepted.card

theorem holding_start {serverFd : Nat} (hserver : serverFd < fdSetSize) :
    Holding serverFd (.start serverFd) where
  watching := watching_initial hserver
  held := by simp [ReceiveThread.start,Receiving.initial]
  server := by simp [ReceiveThread.start]
  below := by simp [ReceiveThread.start]
  count := rfl

section holding
variable {serverFd : Nat} {s : ReceiveThread} {answers : Answers} {others : Finset Nat}

theorem KernelObeys.notMem (hkernel : KernelObeys serverFd s answers others) {fd : Nat}
    (hfd : Accepts serverFd answers fd) : fd ∉ insert serverFd (s.accepted ∪ others) := by
  rw [hkernel.lowest fd hfd]
  exact lowestUnused_notMem _

theorem Holding.unwatched (hs : Holding serverFd s)
    (hkernel : KernelObeys serverFd s answers others) {fd : Nat}
    (hfd : Accepts serverFd answers fd) : fd ∉ s.call.currentSockets := by
  intro hin
  have hnot := hkernel.notMem hfd
  have hheld := hs.held hin
  simp only [Finset.mem_insert,Finset.mem_union,not_or] at hnot hheld
  rcases hheld with heq | hmem
  · exact hnot.1 heq
  · exact hnot.2.1 hmem

theorem KernelObeys.accepted_ne (hkernel : KernelObeys serverFd s answers others) {fd : Nat}
    (hfd : Accepts serverFd answers fd) : fd ≠ serverFd :=
  fun heq => hkernel.notMem hfd (heq ▸ Finset.mem_insert_self _ _)

theorem KernelObeys.accepted_new (hkernel : KernelObeys serverFd s answers others) {fd : Nat}
    (hfd : Accepts serverFd answers fd) : fd ∉ s.accepted :=
  fun hin => hkernel.notMem hfd
    (Finset.mem_insert_of_mem (Finset.mem_union_left others hin))

theorem Holding.mem_round (hs : Holding serverFd s)
    (hkernel : KernelObeys serverFd s answers others) {call : Receiving}
    (hok : round serverFd s.call answers = .ok call) {x : Nat} (hx : x ≠ serverFd) :
    x ∈ call.currentSockets ↔
      (x ∈ s.call.currentSockets ∧ ¬ Reports answers x) ∨ Accepts serverFd answers x :=
  CTalk.mem_round hs.watching
    (fun fd hfd hreports => hs.unwatched hkernel hfd (hkernel.watched fd hreports)) hok hx

theorem watching_nextCall {call : Receiving} (h : Watching serverFd call) :
    Watching serverFd (nextCall serverFd call) := by
  unfold nextCall
  split
  · exact watching_initial (h.inSet serverFd h.server)
  · exact h

theorem nextCall_subset {call : Receiving} (h : Watching serverFd call) :
    (nextCall serverFd call).currentSockets ⊆ call.currentSockets := by
  unfold nextCall
  split
  · simpa [Receiving.initial] using h.server
  · exact Finset.Subset.refl _

theorem mem_accepted_round {t : ReceiveThread}
    (h : receiveThread serverFd s (.round answers others) = some t) (x : Nat) :
    x ∈ t.accepted ↔ x ∈ s.accepted ∨ Accepts serverFd answers x := by
  obtain ⟨call,_,_,hrest⟩ := receiveThread_round_cases h
  rw [← acceptedIn_eq_some_iff]
  rcases hrest with ⟨hnone,haccepted,_⟩ | ⟨fd,hsome,haccepted,_⟩
  · simp [haccepted,hnone]
  · simp [haccepted,hsome,or_comm,eq_comm]

theorem acceptedCount_round (hs : Holding serverFd s) {t : ReceiveThread}
    (hkernel : KernelObeys serverFd s answers others)
    (h : receiveThread serverFd s (.round answers others) = some t) :
    acceptedCount t.connections = t.accepted.card := by
  obtain ⟨call,_,_,hrest⟩ := receiveThread_round_cases h
  rcases hrest with ⟨_,haccepted,hconnections⟩ | ⟨fd,hsome,haccepted,hconnections⟩
  · rw [haccepted,hconnections,acceptedCount_afterRound,hs.count]
  · have haccepts := (acceptedIn_eq_some_iff fd).mp hsome
    have hwaiting : ∃ c ∈ s.connections.map (Incoming.afterRound serverFd answers),
        c.fd = none := by
      obtain ⟨c,hc,hfd⟩ := hkernel.waiting fd haccepts
      exact ⟨c.afterRound serverFd answers,List.mem_map_of_mem hc,by simpa using hfd⟩
    rw [haccepted,hconnections,acceptedCount_acceptNext hwaiting,acceptedCount_afterRound,
      Finset.card_insert_of_notMem (hkernel.accepted_new haccepts),hs.count]

theorem holding_round (hs : Holding serverFd s) {t : ReceiveThread}
    (hkernel : KernelObeys serverFd s answers others)
    (h : receiveThread serverFd s (.round answers others) = some t) : Holding serverFd t := by
  obtain ⟨call,hround,hcall,_⟩ := receiveThread_round_cases h
  have hne : ∀ fd, Accepts serverFd answers fd → fd ≠ serverFd := fun fd => hkernel.accepted_ne
  have hwatching := watching_round hs.watching hne hround
  have hmem : ∀ x, x ≠ serverFd → (x ∈ call.currentSockets ↔
      (x ∈ s.call.currentSockets ∧ ¬ Reports answers x) ∨ Accepts serverFd answers x) :=
    fun x => hs.mem_round hkernel hround
  have haccepted := mem_accepted_round h
  refine ⟨?_,?_,?_,?_,acceptedCount_round hs hkernel h⟩
  · rw [hcall]
    exact watching_nextCall hwatching
  · intro x hx
    rw [hcall] at hx
    have hin := nextCall_subset hwatching hx
    rw [Finset.mem_insert,haccepted]
    by_cases heq : x = serverFd
    · exact .inl heq
    · rcases (hmem x heq).mp hin with hold | haccepts
      · exact (Finset.mem_insert.mp (hs.held hold.1)).imp_right .inl
      · exact .inr (.inr haccepts)
  · rw [haccepted]
    intro hserver
    rcases hserver with hold | haccepts
    · exact hs.server hold
    · exact hne serverFd haccepts rfl
  · intro x hx
    rcases (haccepted x).mp hx with hold | haccepts
    · exact hs.below x hold
    · exact hwatching.inSet x ((hmem x (hne x haccepts)).mpr (.inr haccepts))

theorem holding_step (hs : Holding serverFd s) {a : ThreadAction} {t : ReceiveThread}
    (hkernel : ActionObeys serverFd s a) (h : receiveThread serverFd s a = some t) :
    Holding serverFd t := by
  cases a with
  | connects =>
    cases h
    refine ⟨hs.watching,hs.held,hs.server,hs.below,?_⟩
    have hcount := hs.count
    simpa [acceptedCount] using hcount
  | closes n =>
    cases hc : s.connections[n]? with
    | none => simp [receiveThread,hc] at h
    | some c =>
      simp [receiveThread,hc] at h
      subst h
      have hsame : acceptedCount (s.connections.set n { c with remoteOpen := false }) =
          acceptedCount s.connections := acceptedCount_set hc rfl
      exact ⟨hs.watching,hs.held,hs.server,hs.below,hsame.trans hs.count⟩
  | round answers others => exact holding_round hs hkernel h

theorem Holding.card_held (hs : Holding serverFd s)
    (hkernel : KernelObeys serverFd s answers others) :
    ((insert serverFd (s.accepted ∪ others)).filter (fun fd => fd < fdSetSize)).card =
      acceptedCount s.connections +
        ((insert serverFd others).filter (fun fd => fd < fdSetSize)).card := by
  have hunion : insert serverFd (s.accepted ∪ others) = s.accepted ∪ insert serverFd others :=
    (Finset.union_insert serverFd s.accepted others).symm
  have hdisjoint : Disjoint s.accepted (insert serverFd others) := by
    rw [Finset.disjoint_left]
    intro x hx hin
    rcases Finset.mem_insert.mp hin with heq | hother
    · exact hs.server (heq ▸ hx)
    · exact hkernel.apart x hother (Finset.mem_insert_of_mem hx)
  rw [hunion,Finset.filter_union,Finset.filter_true_of_mem hs.below,hs.count]
  exact Finset.card_union_of_disjoint
    (Finset.disjoint_of_subset_right (Finset.filter_subset _ _) hdisjoint)

theorem passesBelow_iff_room (hs : Holding serverFd s) {a : ThreadAction}
    (hkernel : ActionObeys serverFd s a) : PassesBelow serverFd s a ↔ Room serverFd s a := by
  cases a with
  | connects => rfl
  | closes n => rfl
  | round answers others =>
    simp only [PassesBelow,Room]
    cases hargument : fdSetArgument serverFd s.call answers with
    | none => simp
    | some fd =>
      have hlowest := hkernel.lowest fd (fdSetArgument_inv hargument)
      have hcount := hs.card_held hkernel
      have hlt := lowestUnused_lt_iff (insert serverFd (s.accepted ∪ others)) fdSetSize
      rw [← hlowest,hcount] at hlt
      simpa using hlt

end holding

theorem holding_run {serverFd : Nat} {actions : List ThreadAction} {t : ReceiveThread}
    (hserver : serverFd < fdSetSize)
    (hkernel : Meets (receiveThread serverFd) (ActionObeys serverFd) (.start serverFd) actions)
    (hr : run (receiveThread serverFd) (.start serverFd) actions = some t) :
    Holding serverFd t :=
  run_invariant_of_meets (fun _ _ _ hs hobeys h => holding_step hs hobeys h)
    (holding_start hserver) hkernel hr

theorem card_lt_fdSetSize {serverFd : Nat} {set : Finset Nat} (hserver : serverFd < fdSetSize)
    (hnot : serverFd ∉ set) (hbelow : ∀ fd ∈ set, fd < fdSetSize) : set.card < fdSetSize := by
  have hsub : insert serverFd set ⊆ Finset.range fdSetSize := by
    intro fd hfd
    rcases Finset.mem_insert.mp hfd with heq | hin
    · exact Finset.mem_range.mpr (heq ▸ hserver)
    · exact Finset.mem_range.mpr (hbelow fd hin)
  have hcard := Finset.card_le_card hsub
  rw [Finset.card_insert_of_notMem hnot,Finset.card_range] at hcard
  exact hcard

/-- However long the thread runs, it accepts fewer than FD_SETSIZE connections in all. -/
theorem acceptedCount_lt_of_run {serverFd : Nat} {actions : List ThreadAction}
    {t : ReceiveThread} (hserver : serverFd < fdSetSize)
    (hkernel : Meets (receiveThread serverFd) (ActionObeys serverFd) (.start serverFd) actions)
    (hr : run (receiveThread serverFd) (.start serverFd) actions = some t) :
    acceptedCount t.connections < fdSetSize := by
  have ht := holding_run hserver hkernel hr
  rw [ht.count]
  exact card_lt_fdSetSize hserver ht.server ht.below

def servedConnections (n : Nat) : List Incoming :=
  (List.range n).map (fun i => ⟨some (4 + i),false,true⟩)

def served (call : Receiving) (n : Nat) : ReceiveThread :=
  ⟨call,Finset.Ico 4 (4 + n),servedConnections n⟩

theorem servedConnections_succ (n : Nat) :
    servedConnections (n + 1) = servedConnections n ++ [⟨some (4 + n),false,true⟩] := by
  simp [servedConnections,List.range_succ]

theorem liveCount_served (n : Nat) (cs : List Incoming) :
    liveCount (servedConnections n ++ cs) = liveCount cs := by
  simp [liveCount,servedConnections]

theorem liveCount_served_le (call : Receiving) (n : Nat) :
    liveCount (served call n).connections ≤ 100 := by
  have hnone := liveCount_served n []
  rw [List.append_nil] at hnone
  rw [served,hnone]
  decide

theorem afterRound_served (answers : Answers) (n : Nat) :
    (servedConnections n).map (Incoming.afterRound 3 answers) = servedConnections n := by
  simp only [servedConnections,List.map_map]
  apply List.map_congr_left
  intro i _
  simp only [Function.comp_apply,Incoming.afterRound]
  split
  · split
    · rfl
    · rfl
  · rfl

theorem acceptNext_served (fd n : Nat) :
    acceptNext fd (servedConnections n ++ [⟨none,true,false⟩]) =
      servedConnections n ++ [⟨some fd,true,false⟩] := by
  simp only [servedConnections]
  induction List.range n with
  | nil => rfl
  | cons i is ih => simp [acceptNext,ih]

theorem lowestUnused_served (n : Nat) :
    lowestUnused (insert 3 (Finset.Ico 4 (4 + n) ∪ {0,1,2})) = 4 + n := by
  simp only [lowestUnused_eq_iff,Finset.mem_insert,Finset.mem_union,Finset.mem_Ico,
    Finset.mem_singleton]
  constructor
  · omega
  · intro x hx
    omega

theorem nextCall_of_lt {serverFd : Nat} {call : Receiving} (hk : call.k < 2 * fdSetSize) :
    nextCall serverFd call = call := if_neg (Nat.ne_of_lt hk)

theorem receiveThread_accept {fd : Nat} (hfd : fd < fdSetSize) (s : ReceiveThread)
    (others : Finset Nat) :
    receiveThread 3 s (.round (acceptAnswer fd) others) =
      some ⟨nextCall 3 (s.call.afterAccept fd),insert fd s.accepted,
        acceptNext fd (s.connections.map (Incoming.afterRound 3 (acceptAnswer fd)))⟩ := by
  simp only [receiveThread,round_of_step (step_acceptAnswer hfd s.call)]
  rfl

theorem receiveThread_message {fd : Nat} (hne : fd ≠ 3) (hfd : fd < fdSetSize)
    {s : ReceiveThread} {bytes printed : List UInt8}
    (hprinted : printString (recvInto s.call.buffer bytes) = .ok printed)
    (others : Finset Nat) :
    receiveThread 3 s (.round (messageAnswer fd bytes) others) =
      some ⟨nextCall 3 (s.call.afterMessage fd bytes printed),s.accepted,
        s.connections.map (Incoming.afterRound 3 (messageAnswer fd bytes))⟩ := by
  have hnone : acceptedIn 3 (messageAnswer fd bytes) = none := by
    simp [acceptedIn,messageAnswer,Ne.symm hne]
  simp only [receiveThread,round_of_step (step_messageAnswer hne hfd hprinted),hnone]

section obeys
variable {s : ReceiveThread} {others : Finset Nat} {fd : Nat}

theorem kernelObeys_acceptAnswer (hserver : 3 ∈ s.call.currentSockets)
    (hapart : ∀ x ∈ others, x ∉ insert 3 s.accepted)
    (hwaiting : ∃ c ∈ s.connections, c.fd = none)
    (hlowest : lowestUnused (insert 3 (s.accepted ∪ others)) = fd) :
    KernelObeys 3 s (acceptAnswer fd) others where
  watched := by
    intro x hx
    rw [reports_of_single rfl hx]
    exact hserver
  apart := hapart
  waiting := fun _ _ => hwaiting
  lowest := by
    intro x hx
    cases hx.2
    exact hlowest.symm

theorem kernelObeys_messageAnswer (bytes : List UInt8) (hwatched : fd ∈ s.call.currentSockets)
    (hapart : ∀ x ∈ others, x ∉ insert 3 s.accepted) :
    KernelObeys 3 s (messageAnswer fd bytes) others where
  watched := by
    intro x hx
    rw [reports_of_single rfl hx]
    exact hwatched
  apart := hapart
  waiting := by
    intro x hx
    cases hx.2
  lowest := by
    intro x hx
    cases hx.2

end obeys

structure Exposed (s : ReceiveThread) (actions : List ThreadAction) : Prop where
  kernel : Meets (receiveThread 3) (ActionObeys 3) s actions
  live : Meets (receiveThread 3) (fun s _ => liveCount s.connections ≤ 100) s actions
  passed : ¬ Meets (receiveThread 3) (PassesBelow 3) s actions

theorem Exposed.cons {s t : ReceiveThread} {a : ThreadAction} {actions : List ThreadAction}
    (hobeys : ActionObeys 3 s a) (hlive : liveCount s.connections ≤ 100)
    (hstep : receiveThread 3 s a = some t) (hrest : Exposed t actions) :
    Exposed s (a :: actions) where
  kernel := meets_cons_of_step hobeys hstep hrest.kernel
  live := meets_cons_of_step hlive hstep hrest.live
  passed := fun hbelow => hrest.passed (hbelow.2 t hstep)

section serving
variable {call : Receiving} {n : Nat}

def serving (call : Receiving) (accepted n : Nat) (c : Incoming) : ReceiveThread :=
  ⟨call,Finset.Ico 4 (4 + accepted),servedConnections n ++ [c]⟩

theorem liveCount_serving (call : Receiving) (accepted n : Nat) (c : Incoming) :
    liveCount (serving call accepted n c).connections ≤ 100 := by
  simp only [serving,liveCount_served]
  have hone : liveCount [c] ≤ 1 := List.countP_le_length
  omega

theorem apart_served (accepted : Nat) :
    ∀ fd ∈ ({0,1,2} : Finset Nat), fd ∉ insert 3 (Finset.Ico 4 (4 + accepted)) := by
  intro fd hfd
  simp only [Finset.mem_insert,Finset.mem_singleton,Finset.mem_Ico] at hfd ⊢
  omega

theorem kernelObeys_accept (hserver : 3 ∈ call.currentSockets) (c : Incoming)
    (hc : c.fd = none) :
    KernelObeys 3 (serving call n n c) (acceptAnswer (4 + n)) {0,1,2} :=
  kernelObeys_acceptAnswer hserver (apart_served n) ⟨c,by simp [serving],hc⟩
    (lowestUnused_served n)

theorem kernelObeys_message (bytes : List UInt8) (hwatched : 4 + n ∈ call.currentSockets)
    (c : Incoming) :
    KernelObeys 3 (serving call (n + 1) n c) (messageAnswer (4 + n) bytes) {0,1,2} :=
  kernelObeys_messageAnswer bytes hwatched (apart_served (n + 1))

theorem serving_accept (hfd : 4 + n < fdSetSize) (hk : call.k + 1 < 2 * fdSetSize)
    (others : Finset Nat) :
    receiveThread 3 (serving call n n ⟨none,true,false⟩)
        (.round (acceptAnswer (4 + n)) others) =
      some (serving (call.afterAccept (4 + n)) (n + 1) n ⟨some (4 + n),true,false⟩) := by
  have hinsert : insert (4 + n) (Finset.Ico 4 (4 + n)) = Finset.Ico 4 (4 + (n + 1)) := by
    ext x
    simp only [Finset.mem_insert,Finset.mem_Ico]
    omega
  have hwaits : Incoming.afterRound 3 (acceptAnswer (4 + n)) ⟨none,true,false⟩ =
      ⟨none,true,false⟩ := rfl
  rw [receiveThread_accept hfd,serving,nextCall_of_lt hk,hinsert,List.map_append,
    afterRound_served,List.map_singleton,hwaits,acceptNext_served]
  rfl

theorem serving_message (hfd : 4 + n < fdSetSize) (hk : call.k + 1 < 2 * fdSetSize)
    {bytes printed : List UInt8} (hprinted : printString (recvInto call.buffer bytes) = .ok printed)
    (others : Finset Nat) :
    receiveThread 3 (serving call (n + 1) n ⟨some (4 + n),true,false⟩)
        (.round (messageAnswer (4 + n) bytes) others) =
      some (serving (call.afterMessage (4 + n) bytes printed) (n + 1) n
        ⟨some (4 + n),true,true⟩) := by
  have hne : 4 + n ≠ 3 := by omega
  have hheard : Incoming.afterRound 3 (messageAnswer (4 + n) bytes) ⟨some (4 + n),true,false⟩ =
      ⟨some (4 + n),true,true⟩ := by
    simp [Incoming.afterRound,messageAnswer,hne]
  rw [receiveThread_message hne hfd hprinted,serving,nextCall_of_lt hk,List.map_append,
    afterRound_served,List.map_singleton,hheard]
  rfl

theorem serving_receive (hfd : 4 + n < fdSetSize) (hk : call.k + 1 < 2 * fdSetSize)
    (hbuffer : call.buffer = List.replicate messageSize 0) (others : Finset Nat) :
    receiveThread 3 (serving call (n + 1) n ⟨some (4 + n),true,false⟩)
        (.round (receiveAnswer (4 + n)) others) =
      some (serving (call.afterReceive (4 + n)) (n + 1) n ⟨some (4 + n),true,true⟩) :=
  serving_message hfd hk (printString_received_nothing hbuffer) others

theorem serving_closes :
    receiveThread 3 (serving call (n + 1) n ⟨some (4 + n),true,true⟩) (.closes n) =
      some (served call (n + 1)) := by
  have hlength : (servedConnections n).length = n := by simp [servedConnections]
  simp [receiveThread,serving,served,servedConnections_succ,hlength,List.set_append_right]

theorem fdSetArgument_acceptAnswer (fd : Nat) (call : Receiving) :
    fdSetArgument 3 call (acceptAnswer fd) = some fd := by
  have hskip : ∀ i ∈ List.range 3, i ∉ ({3} : Finset Nat) := by decide
  have hbefore : (List.range 3).foldlM (visit 3 (acceptAnswer fd) {3})
      { call with k := call.k + 1 } = .ok { call with k := call.k + 1 } :=
    foldlM_visit_skip hskip _
  simp only [fdSetArgument,acceptAnswer] at hbefore ⊢
  rw [hbefore]
  rfl

def connections : Nat → Nat → List ThreadAction
  | n,0 => [.connects,.round (acceptAnswer (4 + n)) {0,1,2}]
  | n,m + 1 =>
    .connects :: .round (acceptAnswer (4 + n)) {0,1,2} ::
      .round (receiveAnswer (4 + n)) {0,1,2} :: .closes n :: connections (n + 1) m

theorem exposed_last (hn : 4 + n = fdSetSize) (hs : Idle call) :
    Exposed (served call n) (connections n 0) := by
  have hserver : 3 ∈ call.currentSockets := by simp [hs.sockets]
  have hobeys := kernelObeys_accept (n := n) hserver ⟨none,true,false⟩ rfl
  have hpassed : ¬ PassesBelow 3 (serving call n n ⟨none,true,false⟩)
      (.round (acceptAnswer (4 + n)) {0,1,2}) := by
    intro hbelow
    have hlt := hbelow (4 + n) (fdSetArgument_acceptAnswer (4 + n) call)
    omega
  have hlast : Exposed (serving call n n ⟨none,true,false⟩)
      [.round (acceptAnswer (4 + n)) {0,1,2}] :=
    ⟨⟨hobeys,fun _ _ => trivial⟩,⟨liveCount_serving call n n _,fun _ _ => trivial⟩,
      fun hbelow => hpassed hbelow.1⟩
  exact hlast.cons trivial (liveCount_served_le call n) rfl

theorem exposed_connections (m : Nat) (hn : 4 + (n + m) = fdSetSize) (hs : Idle call)
    (hk : call.k = 2 * n) : Exposed (served call n) (connections n m) := by
  induction m generalizing n call with
  | zero => exact exposed_last hn hs
  | succ m ih =>
    let accepted := call.afterAccept (4 + n)
    let received := accepted.afterReceive (4 + n)
    have hfd : 4 + n < fdSetSize := by omega
    have hne : 4 + n ≠ 3 := by omega
    have hkAccepted : accepted.k = 2 * n + 1 := congrArg Nat.succ hk
    have hkReceived : received.k = 2 * (n + 1) := congrArg Nat.succ hkAccepted
    have hserver : 3 ∈ call.currentSockets := by simp [hs.sockets]
    have hwatched : 4 + n ∈ accepted.currentSockets := Finset.mem_insert_self _ _
    have hbuffer : accepted.buffer = List.replicate messageSize 0 := hs.buffer
    have hreceive := serving_receive hfd (by omega) hbuffer {0,1,2}
    have hrest : Exposed (served received (n + 1)) (connections (n + 1) m) :=
      ih (by omega) (idle_pair hne hs) hkReceived
    have hclosed : Exposed (serving received (n + 1) n ⟨some (4 + n),true,true⟩)
        (.closes n :: connections (n + 1) m) :=
      hrest.cons trivial (liveCount_serving _ _ _ _) serving_closes
    have hreceived : Exposed (serving accepted (n + 1) n ⟨some (4 + n),true,false⟩)
        (.round (receiveAnswer (4 + n)) {0,1,2} :: .closes n :: connections (n + 1) m) :=
      hclosed.cons (kernelObeys_message [] hwatched _) (liveCount_serving _ _ _ _)
        hreceive
    have haccepted : Exposed (serving call n n ⟨none,true,false⟩)
        (.round (acceptAnswer (4 + n)) {0,1,2} :: .round (receiveAnswer (4 + n)) {0,1,2} ::
          .closes n :: connections (n + 1) m) :=
      hreceived.cons (kernelObeys_accept hserver _ rfl) (liveCount_serving _ _ _ _)
        (serving_accept hfd (by omega) {0,1,2})
    exact haccepted.cons trivial (liveCount_served_le call n) rfl

end serving

/-- Every descriptor passed to FD_SET is below FD_SETSIZE exactly where, whenever a round comes
to FD_SET, the connections accepted since the thread's start and the other descriptors in use
leave one free below FD_SETSIZE. How many of those connections are still alive is not asked. -/
theorem fdSet_arguments_below_iff (serverFd : Nat) (actions : List ThreadAction)
    (hkernel : Meets (receiveThread serverFd) (ActionObeys serverFd) (.start serverFd) actions) :
    FdSetArgumentsBelow serverFd actions ↔
      serverFd < fdSetSize ∧
        Meets (receiveThread serverFd) (Room serverFd) (.start serverFd) actions := by
  apply and_congr_right
  intro hserver
  exact meets_congr (fun _ _ _ hs hobeys h => holding_step hs hobeys h)
    (fun _ _ hs hobeys => passesBelow_iff_room hs hobeys) (holding_start hserver) hkernel

theorem fdSet_arguments_below_first_connection : FdSetArgumentsBelow 3 (connections 0 0) := by
  have hserver : 3 ∈ (Receiving.initial (insert 3 ∅)).currentSockets := by decide
  have hobeys := kernelObeys_accept (n := 0) hserver ⟨none,true,false⟩ rfl
  have hroom : Room 3 (serving (.initial (insert 3 ∅)) 0 0 ⟨none,true,false⟩)
      (.round (acceptAnswer 4) {0,1,2}) := fun _ => by decide
  refine (fdSet_arguments_below_iff 3 (connections 0 0) ?_).mpr ⟨by decide,?_⟩
  · exact meets_cons_of_step trivial rfl ⟨hobeys,fun _ _ => trivial⟩
  · exact meets_cons_of_step trivial rfl ⟨hroom,fun _ _ => trivial⟩

/-- After 1020 connections, each received from and closed by its peer before the next one came,
accept answers 1024. -/
theorem fdSet_argument_not_below :
    ¬ ∀ serverFd actions, serverFd < fdSetSize →
      Meets (receiveThread serverFd) (ActionObeys serverFd) (.start serverFd) actions →
      Meets (receiveThread serverFd) (fun s _ => liveCount s.connections ≤ 100)
        (.start serverFd) actions →
      FdSetArgumentsBelow serverFd actions := by
  intro h
  have hidle : Idle (.initial (insert 3 ∅)) := ⟨rfl,rfl⟩
  have hcount : 4 + (0 + 1020) = fdSetSize := by decide
  have hexposed : Exposed (.start 3) (connections 0 1020) :=
    exposed_connections 1020 hcount hidle rfl
  exact hexposed.passed (h 3 (connections 0 1020) (by decide) hexposed.kernel hexposed.live).2

end CTalk
