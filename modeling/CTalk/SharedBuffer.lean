import CTalk.Descriptors
import CTalk.Network
import CTalk.Overlay

/-! main.c: the one buffer that a call of receiving uses for all its connections, and what
of the earlier ones is printed with a later one; the frames that sending fills. -/

set_option autoImplicit false

namespace CTalk
open ByteStream

def receivedBelow (serverFd : Nat) (answers : Answers) (n : Nat) : List (List UInt8) :=
  match answers.ready with
  | none => []
  | some ready =>
    ((List.range n).filter (fun i => i ∈ ready ∧ i ≠ serverFd)).map answers.received

/-- The place of one connection in a call: the rounds before the one that receives from it,
the answers in that round, and its descriptor. -/
structure Turn where
  serverFd : Nat
  earlier : List Answers
  answers : Answers
  fd : Nat

namespace Turn

def bytes (turn : Turn) : List UInt8 := turn.answers.received turn.fd

def messages (turn : Turn) : List (List UInt8) :=
  turn.earlier.flatMap (fun answers => receivedBelow turn.serverFd answers fdSetSize) ++
    receivedBelow turn.serverFd turn.answers turn.fd

def reached (turn : Turn) (ready : Finset Nat) : Option Receiving :=
  (Transition.run (step turn.serverFd) (.initial (insert turn.serverFd ∅)) turn.earlier).bind
    (fun s => ((List.range turn.fd).foldlM (visit turn.serverFd turn.answers ready)
      { s with k := s.k + 1 }).toOption)

structure Reaches (turn : Turn) (ready : Finset Nat) (s : Receiving) : Prop where
  server : turn.serverFd < fdSetSize
  rounds : turn.earlier.length < 2 * fdSetSize
  inSet : turn.fd < fdSetSize
  connection : turn.fd ≠ turn.serverFd
  answered : turn.answers.ready = some ready
  reported : turn.fd ∈ ready
  reached : turn.reached ready = some s

def Happens (turn : Turn) : Prop := ∃ ready s, turn.Reaches ready s

def Prints (turn : Turn) (printed : List UInt8) : Prop :=
  ∃ ready s t, turn.Reaches ready s ∧
    visit turn.serverFd turn.answers ready s turn.fd = .ok t ∧
    t.events = s.events ++ [.received turn.fd printed]

end Turn

def SameText (first second : Turn) : Prop :=
  ∃ printed, first.Prints printed ∧ second.Prints printed

/-- What the messages leave in the buffer from place n on: the byte of the last message that
reaches the place, and zero where none does. -/
def leftBehind (messages : List (List UInt8)) (n : Nat) : List UInt8 :=
  (List.range' n (messageSize - n)).map (fun j => (Overlay.covering messages j).getD 0)

section buffer
variable {serverFd : Nat} {answers : Answers}

theorem buffer_visit {ready : Finset Nat} {s t : Receiving} {i : Nat}
    (hok : visit serverFd answers ready s i = .ok t) :
    t.buffer = if i ∈ ready ∧ i ≠ serverFd then recvInto s.buffer (answers.received i)
      else s.buffer := by
  rcases visit_cases hok with hskip | haccept | hreceive
  · obtain ⟨hi,ht⟩ := hskip
    rw [ht,if_neg (fun h => hi h.1)]
  · obtain ⟨_,hserver,fd,_,_,ht⟩ := haccept
    rw [ht,if_neg (fun h => h.2 hserver)]
  · obtain ⟨hi,hserver,printed,_,ht⟩ := hreceive
    rw [ht,if_pos ⟨hi,hserver⟩]

theorem buffer_foldlM_visit {ready : Finset Nat} {is : List Nat} {s t : Receiving}
    (hok : is.foldlM (visit serverFd answers ready) s = .ok t) :
    t.buffer = ((is.filter (fun i => i ∈ ready ∧ i ≠ serverFd)).map answers.received).foldl
      recvInto s.buffer := by
  induction is generalizing s with
  | nil =>
    cases hok
    rfl
  | cons i is ih =>
    obtain ⟨u,hvisit,hrest⟩ := Transition.foldlM_cons_inv hok
    rw [ih hrest,buffer_visit hvisit]
    by_cases hi : i ∈ ready ∧ i ≠ serverFd
    · rw [if_pos hi,List.filter_cons_of_pos (by simpa using hi),List.map_cons,List.foldl_cons]
    · rw [if_neg hi,List.filter_cons_of_neg (by simpa using hi)]

theorem buffer_round {s t : Receiving} (hok : round serverFd s answers = .ok t) :
    t.buffer = (receivedBelow serverFd answers fdSetSize).foldl recvInto s.buffer := by
  obtain ⟨ready,hready,hfold⟩ := round_inv hok
  rw [buffer_foldlM_visit hfold,receivedBelow,hready]

theorem buffer_run {s t : Receiving} {earlier : List Answers}
    (hr : Transition.run (step serverFd) s earlier = some t) :
    t.buffer = (earlier.flatMap (fun answers =>
      receivedBelow serverFd answers fdSetSize)).foldl recvInto s.buffer := by
  induction earlier generalizing s with
  | nil =>
    cases hr
    rfl
  | cons a earlier ih =>
    obtain ⟨u,hstep,hrest⟩ := Transition.run_cons_inv hr
    rw [ih hrest,buffer_round (round_of_step hstep),List.flatMap_cons,List.foldl_append]

end buffer

theorem Turn.Reaches.buffer {turn : Turn} {ready : Finset Nat} {s : Receiving}
    (h : turn.Reaches ready s) :
    s.buffer = turn.messages.foldl recvInto (List.replicate messageSize 0) := by
  obtain ⟨u,hrun,hfold⟩ := Option.bind_eq_some_iff.mp h.reached
  cases hvisits : (List.range turn.fd).foldlM (visit turn.serverFd turn.answers ready)
      { u with k := u.k + 1 } with
  | error fault =>
    rw [hvisits] at hfold
    cases hfold
  | ok t =>
    rw [hvisits] at hfold
    cases hfold
    rw [buffer_foldlM_visit hvisits,buffer_run hrun,Turn.messages,List.foldl_append,
      receivedBelow,h.answered]
    rfl

theorem foldl_recvInto (messages : List (List UInt8)) (buffer : List UInt8) :
    messages.foldl recvInto buffer =
      (messages.map (List.take messageSize)).foldl Overlay.overlay buffer := by
  rw [List.foldl_map]
  rfl

theorem drop_buffer (messages : List (List UInt8)) (n : Nat) :
    (messages.foldl recvInto (List.replicate messageSize 0)).drop n =
      leftBehind messages n := by
  apply List.ext_getElem?
  intro j
  rw [foldl_recvInto,List.getElem?_drop,Overlay.foldl_overlay_getElem?,leftBehind,
    List.getElem?_map]
  by_cases hj : n + j < messageSize
  · have hplace : j < messageSize - n := by omega
    rw [Overlay.covering_map_take hj,List.getElem?_replicate,if_pos hj,
      List.getElem?_range' hplace,Nat.one_mul,Option.map_some]
    cases Overlay.covering messages (n + j) with
    | none => rfl
    | some c => rfl
  · have hcut : ∀ top ∈ messages.map (List.take messageSize),
        top.length ≤ (List.replicate messageSize (0 : UInt8)).length := by
      intro top htop
      obtain ⟨message,_,hmessage⟩ := List.mem_map.mp htop
      rw [← hmessage,List.length_replicate]
      exact List.length_take_le messageSize message
    have hend : ((messages.map (List.take messageSize)).foldl Overlay.overlay
        (List.replicate messageSize 0))[n + j]? = none := by
      apply List.getElem?_eq_none
      rw [Overlay.foldl_overlay_length hcut,List.length_replicate]
      omega
    have hlist : (List.range' n (messageSize - n))[j]? = none := by
      apply List.getElem?_eq_none
      rw [List.length_range']
      omega
    rw [← Overlay.foldl_overlay_getElem?,hend,hlist]
    rfl

theorem printString_append (front rest : List UInt8) :
    printString (front ++ rest) =
      if (0 : UInt8) ∈ front then .ok (front.takeWhile (fun c => c ≠ 0))
      else (printString rest).map (fun left => front ++ left) := by
  by_cases hfront : (0 : UInt8) ∈ front
  · have hshort : (front.takeWhile (fun c => decide (c ≠ 0))).length ≠ front.length := by
      intro hlen
      have hself := (List.takeWhile_prefix (fun c => decide (c ≠ 0))).eq_of_length hlen
      rw [List.takeWhile_eq_self_iff] at hself
      exact absurd (hself 0 hfront) (by decide)
    rw [printString,if_pos (List.mem_append_left rest hfront),if_pos hfront,
      List.takeWhile_append,if_neg hshort]
  · have hkeep : ∀ c ∈ front, decide (c ≠ 0) = true := by
      rw [← List.takeWhile_eq_self_iff]
      exact takeWhile_of_nulFree hfront
    rw [if_neg hfront,printString,printString,List.takeWhile_append_of_pos hkeep]
    by_cases hrest : (0 : UInt8) ∈ rest
    · rw [if_pos (List.mem_append_right front hrest),if_pos hrest]
      rfl
    · rw [if_neg (fun h => (List.mem_append.mp h).elim hfront hrest),if_neg hrest]
      rfl

theorem printString_recvInto {turn : Turn} {ready : Finset Nat} {s : Receiving}
    (h : turn.Reaches ready s) (hlen : turn.bytes.length ≤ messageSize) :
    printString (recvInto s.buffer turn.bytes) =
      if (0 : UInt8) ∈ turn.bytes then .ok (turn.bytes.takeWhile (fun c => c ≠ 0))
      else (printString (leftBehind turn.messages turn.bytes.length)).map
        (fun left => turn.bytes ++ left) := by
  rw [recvInto,List.take_of_length_le hlen,h.buffer,drop_buffer,
    printString_append]

theorem Turn.prints_iff_printString {turn : Turn} {ready : Finset Nat} {s : Receiving}
    (h : turn.Reaches ready s) (printed : List UInt8) :
    turn.Prints printed ↔ printString (recvInto s.buffer turn.bytes) = .ok printed := by
  constructor
  · intro hprints
    obtain ⟨r,u,t,hreaches,hvisit,hevents⟩ := hprints
    have hbuffer : u.buffer = s.buffer := hreaches.buffer.trans h.buffer.symm
    rcases visit_cases hvisit with hskip | haccept | hreceive
    · exact absurd hreaches.reported hskip.1
    · exact absurd haccept.2.1 hreaches.connection
    · obtain ⟨_,_,text,htext,ht⟩ := hreceive
      rw [ht] at hevents
      have hlast := List.append_cancel_left hevents
      cases hlast
      rw [← hbuffer]
      exact htext
  · intro hprinted
    refine ⟨ready,s,{ s with
      currentSockets := s.currentSockets.erase turn.fd
      buffer := recvInto s.buffer turn.bytes
      events := s.events ++ [.received turn.fd printed] },h,?_,rfl⟩
    rw [visit,if_pos h.reported,if_neg h.connection]
    change (printString (recvInto s.buffer turn.bytes)).bind _ = _
    rw [hprinted]
    rfl

section text
variable {turn : Turn}

theorem Turn.prints_of_mem_zero (hturn : turn.Happens) (hlen : turn.bytes.length ≤ messageSize)
    (hzero : (0 : UInt8) ∈ turn.bytes) (printed : List UInt8) :
    turn.Prints printed ↔ printed = turn.bytes.takeWhile (fun c => c ≠ 0) := by
  obtain ⟨ready,s,hreaches⟩ := hturn
  rw [prints_iff_printString hreaches,printString_recvInto hreaches hlen,if_pos hzero]
  constructor
  · intro h
    cases h
    rfl
  · intro h
    rw [h]

theorem Turn.prints_of_nulFree (hturn : turn.Happens) (hlen : turn.bytes.length ≤ messageSize)
    (hfree : NulFree turn.bytes) (printed : List UInt8) :
    turn.Prints printed ↔
      ∃ left, printString (leftBehind turn.messages turn.bytes.length) = .ok left ∧
        printed = turn.bytes ++ left := by
  obtain ⟨ready,s,hreaches⟩ := hturn
  rw [prints_iff_printString hreaches,printString_recvInto hreaches hlen,if_neg hfree]
  cases printString (leftBehind turn.messages turn.bytes.length) with
  | error fault => simp [Except.map]
  | ok left => simp [Except.map,eq_comm]

end text

section pair
variable {first second : Turn} (hfirst : first.Happens) (hsecond : second.Happens)
  (hsame : first.bytes = second.bytes) (hlen : first.bytes.length ≤ messageSize)
include hfirst hsecond hsame hlen

theorem sameText_of_mem_zero (hzero : (0 : UInt8) ∈ first.bytes) : SameText first second := by
  refine ⟨first.bytes.takeWhile (fun c => c ≠ 0),?_,?_⟩
  · rw [first.prints_of_mem_zero hfirst hlen hzero]
  · rw [second.prints_of_mem_zero hsecond (hsame ▸ hlen) (hsame ▸ hzero),hsame]

theorem sameText_iff_of_nulFree (hfree : NulFree first.bytes) :
    SameText first second ↔
      ∃ left, printString (leftBehind first.messages first.bytes.length) = .ok left ∧
        printString (leftBehind second.messages first.bytes.length) = .ok left := by
  have hone := first.prints_of_nulFree hfirst hlen hfree
  have htwo := second.prints_of_nulFree hsecond (hsame ▸ hlen) (hsame ▸ hfree)
  rw [← hsame] at htwo
  constructor
  · intro h
    obtain ⟨printed,hprinted,hprintedSecond⟩ := h
    obtain ⟨left,hleft,heq⟩ := (hone printed).mp hprinted
    obtain ⟨other,hother,heqOther⟩ := (htwo printed).mp hprintedSecond
    have hlefts : left = other := List.append_cancel_left (heq.symm.trans heqOther)
    exact ⟨left,hleft,hlefts ▸ hother⟩
  · intro h
    obtain ⟨left,hleft,hother⟩ := h
    exact ⟨first.bytes ++ left,(hone _).mpr ⟨left,hleft,rfl⟩,
      (htwo _).mpr ⟨left,hother,rfl⟩⟩

end pair

def aloneTurn (bytes : List UInt8) : Turn where
  serverFd := 3
  earlier := [acceptAnswer 4]
  answers := messageAnswer 4 bytes
  fd := 4

def behindTurn (message bytes : List UInt8) : Turn where
  serverFd := 3
  earlier := [acceptAnswer 4,messageAnswer 4 message,acceptAnswer 5]
  answers := messageAnswer 5 bytes
  fd := 5

theorem Turn.reaches_of_single {turn : Turn} {s : Receiving} (hserver : turn.serverFd = 3)
    (hrounds : turn.earlier.length < 2 * fdSetSize) (hfd : turn.fd < fdSetSize)
    (hne : turn.fd ≠ 3) (hready : turn.answers.ready = some {turn.fd})
    (hrun : Transition.run (step 3) (.initial (insert 3 ∅)) turn.earlier = some s) :
    turn.Reaches {turn.fd} { s with k := s.k + 1 } where
  server := by rw [hserver]; decide
  rounds := hrounds
  inSet := hfd
  connection := hserver ▸ hne
  answered := hready
  reported := Finset.mem_singleton_self turn.fd
  reached := by
    have hskip : ∀ i ∈ List.range turn.fd, i ∉ ({turn.fd} : Finset Nat) := by
      intro i hi heq
      have hlt := List.mem_range.mp hi
      rw [Finset.mem_singleton.mp heq] at hlt
      exact Nat.lt_irrefl turn.fd hlt
    rw [reached,hserver,hrun,Option.bind_some,foldlM_visit_skip hskip]
    rfl

/-- The rounds up to and with the one that receives from the connection are such as the
kernel can answer to a process that has just started the thread. -/
def Turn.KernelAnswers (turn : Turn) : Prop :=
  ∃ actions, roundsOf actions = turn.earlier ++ [turn.answers] ∧
    Transition.Meets (receiveThread turn.serverFd) (ActionObeys turn.serverFd)
      (.start turn.serverFd) actions

theorem aloneTurn_happens (bytes : List UInt8) :
    (aloneTurn bytes).Happens ∧ (aloneTurn bytes).KernelAnswers := by
  let start := Receiving.initial (insert 3 ∅)
  have hstep : step 3 start (acceptAnswer 4) = some (start.afterAccept 4) :=
    step_acceptAnswer (by decide) start
  have hrun : Transition.run (step 3) start [acceptAnswer 4] = some (start.afterAccept 4) := by
    rw [Transition.run_cons_of_step hstep,Transition.run_nil]
  have hrounds : 1 < 2 * fdSetSize := by decide
  have hfd : 4 < fdSetSize := by decide
  have hne : 4 ≠ 3 := by decide
  refine ⟨⟨{4},_,Turn.reaches_of_single rfl hrounds hfd hne rfl hrun⟩,
    [.connects,.round (acceptAnswer 4) {0,1,2},.round (messageAnswer 4 bytes) {0,1,2}],rfl,?_⟩
  have hk : start.k + 1 < 2 * fdSetSize := by decide
  have hserver : 3 ∈ start.currentSockets := by decide
  have hwatched : 4 + 0 ∈ (start.afterAccept 4).currentSockets := Finset.mem_insert_self 4 _
  have haccepts := kernelObeys_accept (n := 0) hserver ⟨none,true,false⟩ rfl
  have haccept := serving_accept (n := 0) hfd hk {0,1,2}
  have hlast := kernelObeys_message bytes hwatched ⟨some 4,true,false⟩
  exact Transition.meets_cons_of_step trivial rfl
    (Transition.meets_cons_of_step haccepts haccept ⟨hlast,fun _ _ => trivial⟩)

theorem behindTurn_happens (message bytes : List UInt8) {printed : List UInt8}
    (hprinted : printString (recvInto (List.replicate messageSize 0) message) = .ok printed) :
    (behindTurn message bytes).Happens ∧ (behindTurn message bytes).KernelAnswers := by
  let start := Receiving.initial (insert 3 ∅)
  let open4 := start.afterAccept 4
  let read4 := open4.afterMessage 4 message printed
  have hstep4 : step 3 start (acceptAnswer 4) = some open4 :=
    step_acceptAnswer (by decide) start
  have hstepRead : step 3 open4 (messageAnswer 4 message) = some read4 :=
    step_messageAnswer (by decide) (by decide) hprinted
  have hstep5 : step 3 read4 (acceptAnswer 5) = some (read4.afterAccept 5) :=
    step_acceptAnswer (by decide) read4
  have hrun : Transition.run (step 3) start
      [acceptAnswer 4,messageAnswer 4 message,acceptAnswer 5] = some (read4.afterAccept 5) := by
    rw [Transition.run_cons_of_step hstep4,Transition.run_cons_of_step hstepRead,
      Transition.run_cons_of_step hstep5,Transition.run_nil]
  have hrounds : 3 < 2 * fdSetSize := by decide
  have hfd4 : 4 < fdSetSize := by decide
  have hfd5 : 5 < fdSetSize := by decide
  have hne : 5 ≠ 3 := by decide
  -- the first peer closes its end before the second connects
  refine ⟨⟨{5},_,Turn.reaches_of_single rfl hrounds hfd5 hne rfl hrun⟩,
    [.connects,.round (acceptAnswer 4) {0,1,2},.round (messageAnswer 4 message) {0,1,2},
      .closes 0,.connects,.round (acceptAnswer 5) {0,1,2},
      .round (messageAnswer 5 bytes) {0,1,2}],rfl,?_⟩
  have hk : start.k + 1 < 2 * fdSetSize := by decide
  have hk4 : open4.k + 1 < 2 * fdSetSize := by decide
  have hkRead : read4.k + 1 < 2 * fdSetSize := by
    change 3 < 2 * fdSetSize
    decide
  have hserver : 3 ∈ start.currentSockets := by decide
  have hwatched4 : 4 + 0 ∈ open4.currentSockets := Finset.mem_insert_self 4 _
  have hserverRead : 3 ∈ read4.currentSockets := by
    change 3 ∈ Finset.erase (insert 4 (insert 3 ∅)) 4
    decide
  have hwatched5 : 4 + 1 ∈ (read4.afterAccept 5).currentSockets := Finset.mem_insert_self 5 _
  have hfirst := kernelObeys_accept (n := 0) hserver ⟨none,true,false⟩ rfl
  have hsecond := kernelObeys_message message hwatched4 ⟨some 4,true,false⟩
  have hthird := kernelObeys_accept (n := 1) hserverRead ⟨none,true,false⟩ rfl
  have hlast := kernelObeys_message bytes hwatched5 ⟨some 5,true,false⟩
  have hbuffer : printString (recvInto open4.buffer message) = .ok printed := hprinted
  have haccept := serving_accept (n := 0) hfd4 hk {0,1,2}
  have hread := serving_message (n := 0) hfd4 hk4 hbuffer {0,1,2}
  have hnext := serving_accept (n := 1) hfd5 hkRead {0,1,2}
  have hserved := @serving_closes read4 0
  exact Transition.meets_cons_of_step trivial rfl
    (Transition.meets_cons_of_step hfirst haccept
      (Transition.meets_cons_of_step hsecond hread
        (Transition.meets_cons_of_step trivial hserved
          (Transition.meets_cons_of_step trivial rfl
            (Transition.meets_cons_of_step hthird hnext ⟨hlast,fun _ _ => trivial⟩)))))

theorem receivedBelow_server {answers : Answers} (hready : answers.ready = some {3}) (n : Nat) :
    receivedBelow 3 answers n = [] := by
  rw [receivedBelow,hready,List.map_eq_nil_iff,List.filter_eq_nil_iff]
  intro i _
  simp

theorem receivedBelow_single {answers : Answers} {fd : Nat}
    (hready : answers.ready = some {fd}) (hne : fd ≠ 3) (n : Nat) :
    receivedBelow 3 answers n = if fd < n then [answers.received fd] else [] := by
  have hfilter : (List.range n).filter (fun i => i ∈ ({fd} : Finset Nat) ∧ i ≠ 3) =
      (List.range n).filter (fun i => i == fd) := by
    apply List.filter_congr
    intro i _
    by_cases hi : i = fd
    · simp [hi,hne]
    · simp [hi]
  rw [receivedBelow,hready]
  change List.map _ (List.filter _ _) = _
  rw [hfilter,List.filter_beq,List.count_range]
  by_cases hfd : fd < n
  · rw [if_pos hfd,if_pos hfd]
    rfl
  · rw [if_neg hfd,if_neg hfd]
    rfl

theorem aloneTurn_messages (bytes : List UInt8) : (aloneTurn bytes).messages = [] := by
  have haccept : receivedBelow 3 (acceptAnswer 4) fdSetSize = [] := receivedBelow_server rfl _
  have hown : receivedBelow 3 (messageAnswer 4 bytes) 4 = [] :=
    receivedBelow_single rfl (show 4 ≠ 3 by decide) 4
  rw [Turn.messages,aloneTurn,List.flatMap_singleton,haccept,hown]
  rfl

theorem behindTurn_messages (message bytes : List UInt8) :
    (behindTurn message bytes).messages = [message] := by
  have haccept : ∀ fd, receivedBelow 3 (acceptAnswer fd) fdSetSize = [] :=
    fun fd => receivedBelow_server rfl _
  have hmessage : receivedBelow 3 (messageAnswer 4 message) fdSetSize = [message] :=
    receivedBelow_single rfl (show 4 ≠ 3 by decide) fdSetSize
  have hown : receivedBelow 3 (messageAnswer 5 bytes) 5 = [] :=
    receivedBelow_single rfl (show 5 ≠ 3 by decide) 5
  rw [Turn.messages,behindTurn,List.flatMap_cons,List.flatMap_cons,List.flatMap_singleton,
    haccept,haccept,hmessage,hown]
  rfl

theorem leftBehind_nil (n : Nat) : leftBehind [] n = List.replicate (messageSize - n) 0 := by
  rw [← drop_buffer,List.foldl_nil,List.drop_replicate]

theorem recvInto_replicate {message : List UInt8} (hle : message.length ≤ messageSize) :
    recvInto (List.replicate messageSize 0) message =
      message ++ List.replicate (messageSize - message.length) 0 := by
  rw [recvInto,List.take_of_length_le hle,List.drop_replicate]

theorem leftBehind_single {message : List UInt8} (hle : message.length ≤ messageSize) {n : Nat}
    (hn : n ≤ message.length) :
    leftBehind [message] n =
      message.drop n ++ List.replicate (messageSize - message.length) 0 := by
  rw [← drop_buffer,List.foldl_cons,List.foldl_nil,recvInto_replicate hle,
    List.drop_append_of_le_length hn]

theorem printString_padded {text : List UInt8} (hfree : NulFree text) {n : Nat} (hn : 0 < n) :
    printString (text ++ List.replicate n 0) = .ok text := by
  rw [printString_append,if_neg hfree,printString_replicate hn]
  simp [Except.map]

theorem printString_leftBehind_single {message : List UInt8} (hfree : NulFree message)
    (hlen : message.length < messageSize) {n : Nat} (hn : n ≤ message.length) :
    printString (leftBehind [message] n) = .ok (message.drop n) := by
  have hdrop : NulFree (message.drop n) := fun h => hfree (List.mem_of_mem_drop h)
  rw [leftBehind_single (Nat.le_of_lt hlen) hn,printString_padded hdrop (by omega)]

theorem printString_leftBehind_nil {n : Nat} (hn : n < messageSize) :
    printString (leftBehind [] n) = .ok [] := by
  rw [leftBehind_nil,printString_replicate (by omega)]

theorem printString_message {message : List UInt8} (hfree : NulFree message)
    (hlen : message.length < messageSize) :
    printString (recvInto (List.replicate messageSize 0) message) = .ok message := by
  rw [recvInto_replicate (Nat.le_of_lt hlen),printString_padded hfree (by omega)]

/-- Two connections that receive the same bytes, fewer than the buffer holds, are printed
with the same text exactly where the bytes contain a NUL or the same string, one that ends
inside the buffer, was left behind them. -/
theorem same_text_iff (first second : Turn) (hfirst : first.Happens) (hsecond : second.Happens)
    (hsame : first.bytes = second.bytes) (hlen : first.bytes.length < messageSize) :
    SameText first second ↔
      (0 : UInt8) ∈ first.bytes ∨
        ∃ left, printString (leftBehind first.messages first.bytes.length) = .ok left ∧
          printString (leftBehind second.messages first.bytes.length) = .ok left := by
  have hle : first.bytes.length ≤ messageSize := Nat.le_of_lt hlen
  by_cases hzero : (0 : UInt8) ∈ first.bytes
  · exact iff_of_true (sameText_of_mem_zero hfirst hsecond hsame hle hzero) (.inl hzero)
  · rw [or_iff_right hzero]
    exact sameText_iff_of_nulFree hfirst hsecond hsame hle hzero

/-- A message of one byte leaves nothing behind another byte. -/
theorem same_text_behind_one_byte : SameText (aloneTurn [120]) (behindTurn [97] [120]) := by
  have hfree : NulFree [97] := by decide
  have hlen : [(97 : UInt8)].length < messageSize := by decide
  obtain ⟨halone,_⟩ := aloneTurn_happens [120]
  obtain ⟨hbehind,_⟩ := behindTurn_happens [97] [120] (printString_message hfree hlen)
  refine (same_text_iff _ _ halone hbehind rfl (by decide)).mpr (.inr ⟨[],?_,?_⟩)
  · rw [aloneTurn_messages]
    exact printString_leftBehind_nil (by decide)
  · rw [behindTurn_messages]
    exact printString_leftBehind_single hfree hlen (by decide)

/-- Behind a connection that has sent "abc", another that sends "x" alone is printed with
"xbc". -/
theorem earlier_message_shows_through :
    ¬ ∀ first second : Turn, first.Happens → second.Happens →
      first.KernelAnswers → second.KernelAnswers →
      first.bytes = second.bytes → first.bytes.length < messageSize →
      SameText first second := by
  intro h
  have hfree : NulFree [97,98,99] := by decide
  have hlen : [(97 : UInt8),98,99].length < messageSize := by decide
  obtain ⟨halone,haloneKernel⟩ := aloneTurn_happens [120]
  obtain ⟨hbehind,hbehindKernel⟩ :=
    behindTurn_happens [97,98,99] [120] (printString_message hfree hlen)
  have hsame := h _ _ halone hbehind haloneKernel hbehindKernel rfl (by decide)
  obtain ⟨left,hleft,hother⟩ := (sameText_iff_of_nulFree halone hbehind rfl (by decide)
    (by decide)).mp hsame
  rw [aloneTurn_messages] at hleft
  rw [behindTurn_messages] at hother
  have hnone : printString (leftBehind [] 1) = .ok [] := printString_leftBehind_nil (by decide)
  have hsome : printString (leftBehind [[97,98,99]] 1) = .ok [98,99] :=
    printString_leftBehind_single hfree hlen (by decide)
  have hnil : [] = left := Except.ok.inj (hnone.symm.trans hleft)
  have hbc : [98,99] = left := Except.ok.inj (hsome.symm.trans hother)
  exact absurd (hbc.trans hnil.symm) (by decide)

def placed (n : Nat) : List UInt8 := List.replicate n 0 ++ [97]

theorem placed_length (n : Nat) : (placed n).length = n + 1 := by simp [placed]

theorem printString_placed {n : Nat} (hn : n < messageSize) :
    ∃ printed, printString (recvInto (List.replicate messageSize 0) (placed n)) =
      .ok printed := by
  have hle : (placed n).length ≤ messageSize := by
    rw [placed_length]
    omega
  have hzero : (0 : UInt8) ∈ placed n ++ List.replicate (messageSize - (placed n).length) 0 := by
    rw [placed_length]
    cases n with
    | zero => exact List.mem_append_right _ (List.mem_replicate.mpr ⟨by decide,rfl⟩)
    | succ n => simp [placed]
  rw [recvInto_replicate hle,printString,if_pos hzero]
  exact ⟨_,rfl⟩

theorem printString_leftBehind_placed {n : Nat} (hn : n < messageSize) :
    printString (leftBehind [placed n] n) ≠ .ok [] := by
  have hle : (placed n).length ≤ messageSize := by
    rw [placed_length]
    omega
  have hdrop : (placed n).drop n = [97] := by simp [placed]
  have hfree : NulFree [97] := by decide
  rw [leftBehind_single hle (by rw [placed_length]; omega),hdrop,printString_append,
    if_neg hfree]
  cases printString (List.replicate (messageSize - (placed n).length) 0) with
  | error fault => simp [Except.map]
  | ok left => simp [Except.map]

theorem text_own_iff (bytes : List UInt8) (hlen : bytes.length < messageSize) :
    (∀ first second : Turn, first.Happens → second.Happens → first.bytes = bytes →
      second.bytes = bytes → SameText first second) ↔ (0 : UInt8) ∈ bytes := by
  constructor
  · intro h
    by_contra hfree
    obtain ⟨printed,hprinted⟩ := printString_placed hlen
    obtain ⟨halone,_⟩ := aloneTurn_happens bytes
    obtain ⟨hbehind,_⟩ := behindTurn_happens (placed bytes.length) bytes hprinted
    have hsame := h _ _ halone hbehind rfl rfl
    obtain ⟨left,hleft,hother⟩ :=
      (sameText_iff_of_nulFree halone hbehind rfl (Nat.le_of_lt hlen) hfree).mp hsame
    rw [aloneTurn_messages] at hleft
    rw [behindTurn_messages] at hother
    have hnil : [] = left := Except.ok.inj ((printString_leftBehind_nil hlen).symm.trans hleft)
    rw [← hnil] at hother
    exact printString_leftBehind_placed hlen hother
  · intro hzero first second hfirst hsecond hone htwo
    subst hone
    exact sameText_of_mem_zero hfirst hsecond htwo.symm (Nat.le_of_lt hlen) hzero

def printfD (n : Int) : List UInt8 :=
  if n < 0 then 45 :: Decimal.text n.natAbs else Decimal.text n.natAbs

def sendingText (name : Buffer) (port : Int) (hello : Buffer) : List UInt8 :=
  name.text ++ [91,80,79,82,84,58] ++ printfD port ++ [93,32,115,97,121,115,58,32] ++ hello.text

/-- What sending hands to send once it is connected: its whole buffer, which sprintf must not
overrun. -/
def sending (name : Buffer) (port : Int) (hello : Buffer) : Except Fault (List UInt8) :=
  if (sendingText name port hello).length < messageSize then
    .ok (sendingText name port hello ++
      List.replicate (messageSize - (sendingText name port hello).length) 0)
  else .error .outOfBounds

theorem nulFree_printfD (n : Int) : NulFree (printfD n) := by
  have hdigits : NulFree (Decimal.text n.natAbs) :=
    nulFree_of_isDigit (Decimal.isDigit_of_mem_text n.natAbs)
  unfold printfD NulFree at *
  split
  · simpa using hdigits
  · exact hdigits

section frame
variable {name hello : Buffer} {port : Int} {frame : List UInt8}

theorem nulFree_sendingText : NulFree (sendingText name port hello) := by
  have hname := name.nulFree_text
  have hport := nulFree_printfD port
  have hhello := hello.nulFree_text
  unfold NulFree at hname hport hhello
  simp [sendingText,NulFree,hname,hport,hhello]

theorem sending_inv (h : sending name port hello = .ok frame) :
    (sendingText name port hello).length < messageSize ∧
      frame = sendingText name port hello ++
        List.replicate (messageSize - (sendingText name port hello).length) 0 := by
  unfold sending at h
  split at h
  · rename_i hlen
    exact ⟨hlen,(Except.ok.inj h).symm⟩
  · cases h

theorem take_frame (h : sending name port hello = .ok frame) (n : Nat) :
    frame.take n = (sendingText name port hello).take n ++
      List.replicate (min n messageSize - (sendingText name port hello).length) 0 := by
  obtain ⟨hlen,hframe⟩ := sending_inv h
  rw [hframe,List.take_append,List.take_replicate,Nat.sub_min_sub_right]

theorem mem_zero_take_frame (h : sending name port hello = .ok frame) (n : Nat) :
    (0 : UInt8) ∈ frame.take n ↔ (sendingText name port hello).length < n := by
  obtain ⟨hlen,_⟩ := sending_inv h
  have hfree : NulFree (sendingText name port hello) := nulFree_sendingText
  rw [take_frame h,List.mem_append,List.mem_replicate]
  constructor
  · intro hmem
    rcases hmem with hfront | hrest
    · exact absurd (List.mem_of_mem_take hfront) hfree
    · have hcount := hrest.1
      omega
  · intro hlt
    refine .inr ⟨?_,rfl⟩
    omega

theorem prints_frame (h : sending name port hello = .ok frame) {turn : Turn}
    (hturn : turn.Happens) {n : Nat} (hn : n ≤ messageSize) (hbytes : turn.bytes = frame.take n)
    (hlt : (sendingText name port hello).length < n) (printed : List UInt8) :
    turn.Prints printed ↔ printed = sendingText name port hello := by
  have hzero : (0 : UInt8) ∈ turn.bytes := hbytes ▸ (mem_zero_take_frame h n).mpr hlt
  have hlen : turn.bytes.length ≤ messageSize := by
    rw [hbytes,List.length_take]
    omega
  obtain ⟨m,hm⟩ : ∃ m, min n messageSize - (sendingText name port hello).length = m + 1 :=
    ⟨n - (sendingText name port hello).length - 1,by omega⟩
  rw [turn.prints_of_mem_zero hturn hlen hzero,hbytes,take_frame h,hm,
    List.take_of_length_le (Nat.le_of_lt hlt),List.replicate_succ,
    takeWhile_ne_append nulFree_sendingText]

theorem cut_frame_text_own_iff (h : sending name port hello = .ok frame) {n : Nat}
    (hn : n < messageSize) :
    (∀ first second : Turn, first.Happens → second.Happens → first.bytes = frame.take n →
      second.bytes = frame.take n → SameText first second) ↔
      (sendingText name port hello).length < n := by
  have hlen : (frame.take n).length < messageSize := by
    rw [List.length_take]
    omega
  rw [text_own_iff (frame.take n) hlen,mem_zero_take_frame h n]

end frame

end CTalk
