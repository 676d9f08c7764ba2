import CTalk.Heap
import CTalk.Transition
import CTalk.Handler

/-! ui.c and server.c: the pointer last_received_message between the handler threads,
which store into it, and the poll of the user interface, which shows what it finds there
and releases it. A step is one of the sub-steps of the two functions. -/

set_option autoImplicit false

namespace CTalk
open ByteStream Transition Heap

/-- Where a handler stands in its store of a decrypted message. After its malloc it
still knows, as history, which pointer the call answered. -/
inductive StoreStep where
  | idle
  | released : Buffer → StoreStep
  | allocated : Buffer → Pointer → StoreStep

/-- Where display_received_message stands. -/
inductive PollStep where
  | test | addMessage | free | reset
  deriving DecidableEq

/-- The last three fields are history: the messages shown, the messages stored, and the
first misuse of the memory, after which nothing runs. -/
structure Display where
  lastReceivedMessage : Pointer
  memory : Memory UInt8
  handlers : List StoreStep
  poll : PollStep
  shown : List (List UInt8)
  stored : List (List UInt8)
  misuse : Option Misuse

def Display.initial (count : Nat) : Display :=
  ⟨none,[],List.replicate count .idle,.test,[],[],none⟩

inductive DisplayAction where
  | release : Nat → Buffer → DisplayAction
  | allocate : Nat → Bool → DisplayAction
  | copy : Nat → DisplayAction
  | test | addMessage | free | reset

def Display.setHandler (s : Display) (h : Nat) (step : StoreStep) : Display :=
  { s with handlers := s.handlers.set h step }

/-- The pointer is the process's, read again at each use. -/
def Display.step (s : Display) (a : DisplayAction) : Option Display :=
  if s.misuse ≠ none then none
  else match a with
  | .release h message =>
    match s.handlers[h]? with
    | some .idle =>
      match Heap.free s.memory s.lastReceivedMessage with
      | .error e => some { s with misuse := some e }
      | .ok memory => some { s.setHandler h (.released message) with memory := memory }
    | _ => none
  | .allocate h succeeds =>
    match s.handlers[h]? with
    | some (.released message) =>
      let (memory,p) := malloc s.memory (message.text.length + 1) succeeds
      some { s.setHandler h (.allocated message p) with
        memory := memory
        lastReceivedMessage := p }
    | _ => none
  | .copy h =>
    match s.handlers[h]? with
    | some (.allocated message own) =>
      let done := s.setHandler h .idle
      match s.lastReceivedMessage with
      | none =>
        -- a message with a block of its own that nobody will find again
        some { done with stored := s.stored ++ (own.toList.map (fun _ => message.text)) }
      | some p =>
        match strcpy s.memory (some p) message.text with
        | .error e => some { s with misuse := some e }
        | .ok memory => some { done with
            memory := memory
            stored := s.stored ++ [message.text] }
    | _ => none
  | .test =>
    if s.poll = .test then
      some (if s.lastReceivedMessage = none then s else { s with poll := .addMessage })
    else none
  | .addMessage =>
    if s.poll = .addMessage then
      match load s.memory s.lastReceivedMessage with
      | .error e => some { s with misuse := some e }
      | .ok t => some { s with poll := .free, shown := s.shown ++ [t] }
    else none
  | .free =>
    if s.poll = .free then
      match Heap.free s.memory s.lastReceivedMessage with
      | .error e => some { s with misuse := some e }
      | .ok memory => some { s with poll := .reset, memory := memory }
    else none
  | .reset =>
    if s.poll = .reset then some { s with poll := .test, lastReceivedMessage := none }
    else none

/-- Whenever the pointer is NULL, what was shown is what was stored, in the same order. -/
def Lossless (s : Display) : Prop :=
  s.misuse = none ∧ (s.lastReceivedMessage = none → s.shown = s.stored)

/-- A handler begins its store and makes its block only where no message is waiting, it
copies into its own block, and nothing is shown before it is copied. -/
def Undisturbed (s : Display) : DisplayAction → Prop
  | .release _ _ => s.lastReceivedMessage = none
  | .allocate _ _ => s.lastReceivedMessage = none
  | .copy h =>
    match s.handlers[h]? with
    | some (.allocated _ own) => s.lastReceivedMessage = own
    | _ => True
  | .addMessage => load s.memory s.lastReceivedMessage ≠ .error .uninit
  | _ => True

def Display.Misuses (s : Display) (e : Misuse) : DisplayAction → Prop
  | .release _ _ => Heap.free s.memory s.lastReceivedMessage = .error e
  | .copy h => ∃ message own p, s.handlers[h]? = some (.allocated message own) ∧
      s.lastReceivedMessage = some p ∧ strcpy s.memory (some p) message.text = .error e
  | .addMessage => s.poll = .addMessage ∧ load s.memory s.lastReceivedMessage = .error e
  | .free => s.poll = .free ∧ Heap.free s.memory s.lastReceivedMessage = .error e
  | _ => False

inductive Stepped (s : Display) : DisplayAction → Display → Prop
  | released {h message memory} : s.handlers[h]? = some .idle →
      Heap.free s.memory s.lastReceivedMessage = .ok memory →
      Stepped s (.release h message)
        { s.setHandler h (.released message) with memory := memory }
  | allocated {h succeeds message} : s.handlers[h]? = some (.released message) →
      Stepped s (.allocate h succeeds)
        { s.setHandler h (.allocated message
            (malloc s.memory (message.text.length + 1) succeeds).2) with
          memory := (malloc s.memory (message.text.length + 1) succeeds).1
          lastReceivedMessage := (malloc s.memory (message.text.length + 1) succeeds).2 }
  | missed {h message own} : s.handlers[h]? = some (.allocated message own) →
      s.lastReceivedMessage = none →
      Stepped s (.copy h) { s.setHandler h .idle with
        stored := s.stored ++ (own.toList.map (fun _ => message.text)) }
  | copied {h message own p memory} : s.handlers[h]? = some (.allocated message own) →
      s.lastReceivedMessage = some p →
      strcpy s.memory (some p) message.text = .ok memory →
      Stepped s (.copy h) { s.setHandler h .idle with
        memory := memory
        stored := s.stored ++ [message.text] }
  | empty : s.poll = .test → s.lastReceivedMessage = none → Stepped s .test s
  | found : s.poll = .test → s.lastReceivedMessage ≠ none →
      Stepped s .test { s with poll := .addMessage }
  | shown {t} : s.poll = .addMessage → load s.memory s.lastReceivedMessage = .ok t →
      Stepped s .addMessage { s with poll := .free, shown := s.shown ++ [t] }
  | freed {memory} : s.poll = .free →
      Heap.free s.memory s.lastReceivedMessage = .ok memory →
      Stepped s .free { s with poll := .reset, memory := memory }
  | reset : s.poll = .reset →
      Stepped s .reset { s with poll := .test, lastReceivedMessage := none }
  | misused {a e} : s.Misuses e a → Stepped s a { s with misuse := some e }

theorem stepped_of_step {s t : Display} {a : DisplayAction} (hstep : s.step a = some t) :
    s.misuse = none ∧ Stepped s a t := by
  unfold Display.step at hstep
  split at hstep
  · cases hstep
  · rename_i hmisuse
    refine ⟨not_not.mp hmisuse,?_⟩
    cases a with
    | release h message =>
      simp only at hstep
      split at hstep
      · rename_i hidle
        split at hstep
        · rename_i hfree
          cases hstep
          exact .misused hfree
        · rename_i hfree
          cases hstep
          exact .released hidle hfree
      · cases hstep
    | allocate h succeeds =>
      simp only at hstep
      split at hstep
      · rename_i hreleased
        cases hstep
        exact .allocated hreleased
      · cases hstep
    | copy h =>
      simp only at hstep
      split at hstep
      · rename_i message own hallocated
        split at hstep
        · rename_i hp
          cases hstep
          exact .missed hallocated hp
        · rename_i p hp
          split at hstep
          · rename_i hcopy
            cases hstep
            have hmisuses : s.Misuses _ (.copy h) := ⟨message,own,p,hallocated,hp,hcopy⟩
            exact .misused hmisuses
          · rename_i hcopy
            cases hstep
            exact .copied hallocated hp hcopy
      · cases hstep
    | test =>
      simp only at hstep
      split at hstep
      · rename_i hpoll
        split at hstep
        · rename_i hp
          cases hstep
          exact .empty hpoll hp
        · rename_i hp
          cases hstep
          exact .found hpoll hp
      · cases hstep
    | addMessage =>
      simp only at hstep
      split at hstep
      · rename_i hpoll
        split at hstep
        · rename_i hload
          cases hstep
          have hmisuses : s.Misuses _ .addMessage := ⟨hpoll,hload⟩
          exact .misused hmisuses
        · rename_i hload
          cases hstep
          exact .shown hpoll hload
      · cases hstep
    | free =>
      simp only at hstep
      split at hstep
      · rename_i hpoll
        split at hstep
        · rename_i hfree
          cases hstep
          have hmisuses : s.Misuses _ .free := ⟨hpoll,hfree⟩
          exact .misused hmisuses
        · rename_i hfree
          cases hstep
          exact .freed hpoll hfree
      · cases hstep
    | reset =>
      simp only at hstep
      split at hstep
      · rename_i hpoll
        cases hstep
        exact .reset hpoll
      · cases hstep

def StoreStep.own : StoreStep → Pointer
  | .allocated _ own => own
  | _ => none

def Others (s : Display) (h : Nat) : Prop :=
  ∀ (j : Nat) (step : StoreStep), j ≠ h → s.handlers[j]? = some step → step.own = none

def NoOwner (s : Display) : Prop :=
  ∀ (j : Nat) (step : StoreStep), s.handlers[j]? = some step → step.own = none

/-- The pointer goes from NULL to a block that one handler fills, to a message, and by
the poll's hand to a released block and back to NULL. -/
inductive Stage (s : Display) : Prop
  | empty : s.lastReceivedMessage = none → NoOwner s → s.poll = .test →
      s.shown = s.stored → Stage s
  | reserved {p h message} : s.lastReceivedMessage = some p →
      s.memory[p]? = some ⟨message.text.length + 1,.uninit⟩ →
      s.handlers[h]? = some (.allocated message (some p)) → Others s h →
      s.poll = .test ∨ s.poll = .addMessage → s.shown = s.stored → Stage s
  | pending {p size t} : s.lastReceivedMessage = some p →
      s.memory[p]? = some ⟨size,.text t⟩ → NoOwner s →
      s.poll = .test ∨ s.poll = .addMessage → s.shown ++ [t] = s.stored → Stage s
  | displayed {p size t} : s.lastReceivedMessage = some p →
      s.memory[p]? = some ⟨size,.text t⟩ → NoOwner s → s.poll = .free →
      s.shown = s.stored → Stage s
  | freed {p} : s.lastReceivedMessage = some p → NoOwner s → s.poll = .reset →
      s.shown = s.stored → Stage s

theorem NoOwner.others {s : Display} (hs : NoOwner s) (h : Nat) : Others s h :=
  fun j step _ hj => hs j step hj

theorem noOwner_setHandler {s : Display} {h : Nat} (hs : Others s h) {step : StoreStep}
    (hstep : step.own = none) : NoOwner (s.setHandler h step) := by
  intro j other hj
  by_cases hjh : h = j
  · subst hjh
    simp only [Display.setHandler] at hj
    obtain ⟨hlt,hget⟩ := List.getElem?_eq_some_iff.mp hj
    rw [List.getElem_set_self] at hget
    rw [← hget]
    exact hstep
  · simp only [Display.setHandler] at hj
    rw [List.getElem?_set_ne hjh] at hj
    exact hs j other (Ne.symm hjh) hj

theorem others_setHandler {s : Display} {h : Nat} (hs : Others s h) (step : StoreStep) :
    Others (s.setHandler h step) h := by
  intro j other hjh hj
  simp only [Display.setHandler] at hj
  rw [List.getElem?_set_ne (Ne.symm hjh)] at hj
  exact hs j other hjh hj

theorem reserved_of_own {s : Display} (hs : Stage s) {h p : Nat} {message : Buffer}
    (hallocated : s.handlers[h]? = some (.allocated message (some p))) :
    s.memory[p]? = some ⟨message.text.length + 1,.uninit⟩ ∧ Others s h ∧
      (s.poll = .test ∨ s.poll = .addMessage) ∧ s.shown = s.stored := by
  have howner : ¬ NoOwner s := fun hno => nomatch hno h _ hallocated
  cases hs with
  | empty _ hno => exact absurd hno howner
  | pending _ _ hno => exact absurd hno howner
  | displayed _ _ hno => exact absurd hno howner
  | freed _ hno => exact absurd hno howner
  | reserved hq hblock hh hothers hpoll heq =>
    rename_i q h' message'
    have hsame : h = h' := by
      by_contra hne
      exact nomatch hothers h _ hne hallocated
    subst hsame
    rw [hallocated] at hh
    cases hh
    exact ⟨hblock,hothers,hpoll,heq⟩

theorem not_misuses {s : Display} {a : DisplayAction} {e : Misuse} (hs : Stage s)
    (hu : Undisturbed s a) : ¬ s.Misuses e a := by
  intro hmisuses
  cases a with
  | release h message =>
    have hp : s.lastReceivedMessage = none := hu
    simp only [Display.Misuses,hp,Heap.free_none] at hmisuses
    cases hmisuses
  | copy h =>
    obtain ⟨message,own,p,hallocated,hp,hcopy⟩ := hmisuses
    simp only [Undisturbed,hallocated] at hu
    rw [hp] at hu
    subst hu
    obtain ⟨hblock,_⟩ := reserved_of_own hs hallocated
    rw [strcpy_uninit hblock (Nat.lt_succ_self _)] at hcopy
    cases hcopy
  | addMessage =>
    obtain ⟨hpoll,hload⟩ := hmisuses
    cases hs with
    | empty _ _ htest => simp [htest] at hpoll
    | reserved hp hblock => exact hu (by rw [hp,load_uninit hblock])
    | pending hp hblock =>
      rw [hp,load_text hblock] at hload
      cases hload
    | displayed _ _ _ hfree => simp [hfree] at hpoll
    | freed _ _ hreset => simp [hreset] at hpoll
  | free =>
    obtain ⟨hpoll,hfree⟩ := hmisuses
    cases hs with
    | empty _ _ htest => simp [htest] at hpoll
    | reserved _ _ _ _ hbefore => simp [hpoll] at hbefore
    | pending _ _ _ hbefore => simp [hpoll] at hbefore
    | displayed hp hblock =>
      rw [hp,free_text hblock] at hfree
      cases hfree
    | freed _ _ hreset => simp [hreset] at hpoll
  | allocate h succeeds => exact hmisuses
  | test => exact hmisuses
  | reset => exact hmisuses

theorem stage_of_none {s : Display} (hs : Stage s) (hp : s.lastReceivedMessage = none) :
    NoOwner s ∧ s.poll = .test ∧ s.shown = s.stored := by
  cases hs with
  | empty _ hno hpoll heq => exact ⟨hno,hpoll,heq⟩
  | reserved hq => simp [hp] at hq
  | pending hq => simp [hp] at hq
  | displayed hq => simp [hp] at hq
  | freed hq => simp [hp] at hq

theorem stage_step {s t : Display} {a : DisplayAction} (hs : Stage s)
    (hu : Undisturbed s a) (hstep : Stepped s a t) : Stage t := by
  cases hstep with
  | released hidle hfree =>
    obtain ⟨hno,hpoll,heq⟩ := stage_of_none hs hu
    exact .empty hu (noOwner_setHandler (hno.others _) rfl) hpoll heq
  | allocated hreleased =>
    rename_i h succeeds message
    obtain ⟨hno,hpoll,heq⟩ := stage_of_none hs hu
    obtain ⟨hlt,_⟩ := List.getElem?_eq_some_iff.mp hreleased
    cases succeeds with
    | false => exact .empty rfl (noOwner_setHandler (hno.others h) rfl) hpoll heq
    | true =>
      exact .reserved rfl (getElem?_malloc _ _) (List.getElem?_set_self hlt)
        (others_setHandler (hno.others h) _) (.inl hpoll) heq
  | missed hallocated hp =>
    -- the pointer is the handler's own, so its malloc failed and it has nothing to store
    obtain ⟨hno,hpoll,heq⟩ := stage_of_none hs hp
    simp only [Undisturbed,hallocated] at hu
    rw [hp] at hu
    subst hu
    exact .empty hp (noOwner_setHandler (hno.others _) rfl) hpoll
      (by simpa [Display.setHandler] using heq)
  | copied hallocated hp hcopy =>
    simp only [Undisturbed,hallocated] at hu
    rw [hp] at hu
    subst hu
    obtain ⟨hblock,hothers,hpoll,heq⟩ := reserved_of_own hs hallocated
    rw [strcpy_uninit hblock (Nat.lt_succ_self _)] at hcopy
    cases hcopy
    exact .pending hp (getElem?_set_block hblock _) (noOwner_setHandler hothers rfl) hpoll
      (by simp [Display.setHandler,heq])
  | empty hpoll hp => exact hs
  | found hpoll hp =>
    cases hs with
    | empty hnone => exact absurd hnone hp
    | reserved hq hblock hh hothers _ heq =>
      exact .reserved hq hblock hh hothers (.inr rfl) heq
    | pending hq hblock hno _ heq => exact .pending hq hblock hno (.inr rfl) heq
    | displayed _ _ _ hfree => simp [hfree] at hpoll
    | freed _ _ hreset => simp [hreset] at hpoll
  | shown hpoll hload =>
    cases hs with
    | empty _ _ htest => simp [htest] at hpoll
    | reserved hq hblock =>
      rw [hq,load_uninit hblock] at hload
      cases hload
    | pending hq hblock hno _ heq =>
      rw [hq,load_text hblock] at hload
      cases hload
      exact .displayed hq hblock hno rfl heq
    | displayed _ _ _ hfree => simp [hfree] at hpoll
    | freed _ _ hreset => simp [hreset] at hpoll
  | freed hpoll hfree =>
    cases hs with
    | empty _ _ htest => simp [htest] at hpoll
    | reserved _ _ _ _ hbefore => simp [hpoll] at hbefore
    | pending _ _ _ hbefore => simp [hpoll] at hbefore
    | displayed hq _ hno _ heq => exact .freed hq hno rfl heq
    | freed _ _ hreset => simp [hreset] at hpoll
  | reset hpoll =>
    cases hs with
    | empty _ _ htest => simp [htest] at hpoll
    | reserved _ _ _ _ hbefore => simp [hpoll] at hbefore
    | pending _ _ _ hbefore => simp [hpoll] at hbefore
    | displayed _ _ _ hfree => simp [hfree] at hpoll
    | freed _ hno _ heq => exact .empty rfl hno rfl heq
  | misused hmisuses => exact absurd hmisuses (not_misuses hs hu)

theorem misuse_of_stepped {s t : Display} {a : DisplayAction} (hstep : Stepped s a t)
    (hno : ∀ e, ¬ s.Misuses e a) : t.misuse = s.misuse := by
  cases hstep with
  | misused hmisuses => exact absurd hmisuses (hno _)
  | _ => rfl

structure DisplayOk (s : Display) : Prop where
  misuse : s.misuse = none
  stage : Stage s

theorem displayOk_initial (count : Nat) : DisplayOk (Display.initial count) where
  misuse := rfl
  stage := by
    refine .empty rfl ?_ rfl rfl
    intro j step hj
    rw [List.eq_of_mem_replicate (List.mem_of_getElem? hj)]
    rfl

theorem displayOk_step (s : Display) (a : DisplayAction) (t : Display) (hs : DisplayOk s)
    (hu : Undisturbed s a) (hstep : s.step a = some t) : DisplayOk t := by
  obtain ⟨_,hstepped⟩ := stepped_of_step hstep
  have hno := fun e => not_misuses (e := e) hs.stage hu
  exact ⟨(misuse_of_stepped hstepped hno).trans hs.misuse,stage_step hs.stage hu hstepped⟩

theorem lossless_of_displayOk {s : Display} (hs : DisplayOk s) : Lossless s :=
  ⟨hs.misuse,fun hp => (stage_of_none hs.stage hp).2.2⟩

/-- In a run whose steps are all undisturbed no message is lost, shown twice or shown
out of order, for any number of handlers. -/
theorem lossless_of_undisturbed (count : Nat) (as : List DisplayAction) (t : Display)
    (hmeets : Meets Display.step Undisturbed (Display.initial count) as)
    (hrun : run Display.step (Display.initial count) as = some t) : Lossless t :=
  lossless_of_displayOk
    (run_invariant_of_meets displayOk_step (displayOk_initial count) hmeets hrun)

def store (h : Nat) (message : Buffer) : List DisplayAction :=
  [.release h message,.allocate h true,.copy h]

def showOnce : List DisplayAction := [.test,.addMessage,.free,.reset]

instance (s : Display) : (a : DisplayAction) → Decidable (Undisturbed s a)
  | .release _ _ => inferInstanceAs (Decidable (s.lastReceivedMessage = none))
  | .allocate _ _ => inferInstanceAs (Decidable (s.lastReceivedMessage = none))
  | .copy h =>
    match hh : s.handlers[h]? with
    | some (.allocated _ own) =>
      decidable_of_iff (s.lastReceivedMessage = own) (by simp [Undisturbed,hh])
    | some .idle => .isTrue (by simp [Undisturbed,hh])
    | some (.released _) => .isTrue (by simp [Undisturbed,hh])
    | none => .isTrue (by simp [Undisturbed,hh])
  | .addMessage =>
    inferInstanceAs (Decidable (load s.memory s.lastReceivedMessage ≠ .error .uninit))
  | .test => .isTrue trivial
  | .free => .isTrue trivial
  | .reset => .isTrue trivial

def pollDuringStore : List DisplayAction :=
  [.release 0 (.ofBytes [104]),.allocate 0 true,.test,.copy 0,.addMessage,.free,.reset] ++
    store 1 (.ofBytes [105]) ++ showOnce

theorem lossless_poll_during_store :
    Lossless ((run Display.step (Display.initial 2) pollDuringStore).get
      (by decide +kernel)) :=
  lossless_of_undisturbed 2 pollDuringStore _ (by decide +kernel) (Option.some_get _).symm

def storedTwice : List DisplayAction :=
  store 0 (.ofBytes [104]) ++ store 1 (.ofBytes [105]) ++ showOnce

theorem first_of_two_messages_lost :
    ¬ ∀ (count : Nat) (as : List DisplayAction) (t : Display),
      run Display.step (Display.initial count) as = some t →
      t.lastReceivedMessage = none → t.shown = t.stored := by
  intro hall
  have heq := hall 2 storedTwice
    ((run Display.step (Display.initial 2) storedTwice).get (by decide +kernel))
    (Option.some_get _).symm (by decide +kernel)
  revert heq
  decide +kernel

def StoreStep.owns (step : StoreStep) : Bool := step.own.isSome

@[simp] theorem owns_idle : StoreStep.idle.owns = false := rfl

@[simp] theorem owns_released (message : Buffer) :
    (StoreStep.released message).owns = false := rfl

@[simp] theorem owns_allocated (message : Buffer) (own : Pointer) :
    (StoreStep.allocated message own).owns = own.isSome := rfl

def Display.owners (s : Display) : Nat := s.handlers.countP StoreStep.owns

def Display.waiting (s : Display) : Nat :=
  if s.lastReceivedMessage ≠ none ∧ (s.poll = .test ∨ s.poll = .addMessage) then 1 else 0

theorem owners_setHandler {s : Display} {h : Nat} {old : StoreStep}
    (hold : s.handlers[h]? = some old) (new : StoreStep) :
    (s.setHandler h new).owners + old.owns.toNat = s.owners + new.owns.toNat := by
  obtain ⟨hlt,hget⟩ := List.getElem?_eq_some_iff.mp hold
  simp only [Display.owners,Display.setHandler]
  rw [List.countP_set hlt,hget]
  cases howns : old.owns with
  | false => cases new.owns <;> simp
  | true =>
    have hpos : 0 < s.handlers.countP StoreStep.owns :=
      List.countP_pos_iff.mpr ⟨old,List.mem_of_getElem? hold,howns⟩
    cases new.owns <;> simp <;> omega

theorem waiting_le_one (s : Display) : s.waiting ≤ 1 := by
  unfold Display.waiting
  split <;> decide

theorem waiting_of_none {s : Display} (h : s.lastReceivedMessage = none) :
    s.waiting = 0 := by
  simp [Display.waiting,h]

theorem waiting_congr {s t : Display} (hs : s.lastReceivedMessage ≠ none)
    (ht : t.lastReceivedMessage ≠ none) (hpoll : t.poll = s.poll) :
    t.waiting = s.waiting := by
  simp [Display.waiting,hs,ht,hpoll]

theorem allocated_true {s t : Display} {h : Nat} (hstep : Stepped s (.allocate h true) t) :
    t.stored = s.stored ∧ t.shown = s.shown ∧ t.owners = s.owners + 1 ∧
      t.poll = s.poll ∧ t.lastReceivedMessage ≠ none := by
  cases hstep with
  | @allocated h succeeds message hreleased =>
    refine ⟨rfl,rfl,?_,rfl,nofun⟩
    have howners := owners_setHandler hreleased (.allocated message (some s.memory.length))
    simp only [owns_released,owns_allocated,Option.isSome_some,Bool.toNat_false,
      Bool.toNat_true,Nat.add_zero] at howners
    exact howners
  | misused hmisuses => exact absurd hmisuses id

theorem allocated_false {s t : Display} {h : Nat}
    (hstep : Stepped s (.allocate h false) t) :
    t.stored = s.stored ∧ t.shown = s.shown ∧ t.owners = s.owners ∧
      t.lastReceivedMessage = none := by
  cases hstep with
  | @allocated h succeeds message hreleased =>
    refine ⟨rfl,rfl,?_,rfl⟩
    have howners := owners_setHandler hreleased (.allocated message none)
    simp only [owns_released,owns_allocated,Option.isSome_none,Bool.toNat_false,
      Nat.add_zero] at howners
    exact howners
  | misused hmisuses => exact absurd hmisuses id

/-- The messages shown or still to be shown never gain on the messages stored or about
to be, so that what is lost once is lost for the rest of the run. -/
theorem ledger_step {s t : Display} {a : DisplayAction} (hstep : Stepped s a t) :
    s.stored.length + s.owners + (t.shown.length + t.waiting) ≤
      t.stored.length + t.owners + (s.shown.length + s.waiting) := by
  cases a with
  | allocate h succeeds =>
    cases succeeds with
    | false =>
      obtain ⟨hstored,hshown,howners,hnone⟩ := allocated_false hstep
      rw [hstored,hshown,howners,waiting_of_none hnone]
      omega
    | true =>
      obtain ⟨hstored,hshown,howners,_⟩ := allocated_true hstep
      have hone := waiting_le_one t
      rw [hstored,hshown,howners]
      omega
  | release h message =>
    cases hstep with
    | released hidle hfree =>
      have howners := owners_setHandler hidle (.released message)
      change s.stored.length + s.owners + (s.shown.length + s.waiting) ≤
        s.stored.length + (s.setHandler h (.released message)).owners +
          (s.shown.length + s.waiting)
      simp at howners
      omega
    | misused => exact Nat.le_refl _
  | copy h =>
    cases hstep with
    | @missed h message own hallocated hp =>
      have howners := owners_setHandler hallocated .idle
      change s.stored.length + s.owners + (s.shown.length + s.waiting) ≤
        (s.stored ++ own.toList.map (fun _ => message.text)).length +
          (s.setHandler h .idle).owners + (s.shown.length + s.waiting)
      cases own with
      | none =>
        simp at howners ⊢
        omega
      | some p =>
        simp at howners ⊢
        omega
    | @copied h message own p memory hallocated hp hcopy =>
      have howners := owners_setHandler hallocated .idle
      have hone : own.isSome.toNat ≤ 1 := Bool.toNat_le _
      change s.stored.length + s.owners + (s.shown.length + s.waiting) ≤
        (s.stored ++ [message.text]).length + (s.setHandler h .idle).owners +
          (s.shown.length + s.waiting)
      simp at howners ⊢
      omega
    | misused => exact Nat.le_refl _
  | test =>
    cases hstep with
    | empty => exact Nat.le_refl _
    | found hpoll hp =>
      simp only [Display.owners,Display.waiting,hpoll]
      simp [hp]
    | misused => exact Nat.le_refl _
  | addMessage =>
    cases hstep with
    | shown hpoll hload =>
      have hp : s.lastReceivedMessage ≠ none := by
        intro hnone
        rw [hnone] at hload
        cases hload
      simp only [Display.owners,Display.waiting,hpoll]
      simp [hp]
    | misused => exact Nat.le_refl _
  | free =>
    cases hstep with
    | freed hpoll hfree =>
      simp only [Display.owners,Display.waiting,hpoll]
      simp
    | misused => exact Nat.le_refl _
  | reset =>
    cases hstep with
    | reset hpoll =>
      simp only [Display.owners,Display.waiting,hpoll]
      simp
    | misused => exact Nat.le_refl _

theorem ledger_overwrite {s t : Display} {h : Nat}
    (hstep : Stepped s (.allocate h true) t) (hslot : s.lastReceivedMessage ≠ none) :
    s.stored.length + s.owners + (t.shown.length + t.waiting) <
      t.stored.length + t.owners + (s.shown.length + s.waiting) := by
  obtain ⟨hstored,hshown,howners,hpoll,hnew⟩ := allocated_true hstep
  rw [hstored,hshown,howners,waiting_congr hslot hnew hpoll]
  omega

theorem overwritten_is_lost (count : Nat) (as bs : List DisplayAction) (s t u : Display)
    (h : Nat) (hreach : run Display.step (Display.initial count) as = some s)
    (hslot : s.lastReceivedMessage ≠ none) (hstep : s.step (.allocate h true) = some t)
    (hrun : run Display.step t bs = some u) (hnull : u.lastReceivedMessage = none)
    (hidle : u.owners = 0) : u.shown.length < u.stored.length := by
  have hbefore : s.shown.length + s.waiting ≤ s.stored.length + s.owners := by
    refine run_invariant (I := fun s => s.shown.length + s.waiting ≤ s.stored.length + s.owners)
      ?_ ?_ hreach
    · intro s a t hs hst
      have hledger := ledger_step (stepped_of_step hst).2
      omega
    · simp [Display.initial,Display.waiting]
  have hafter : t.shown.length + t.waiting < t.stored.length + t.owners := by
    have hledger := ledger_overwrite (stepped_of_step hstep).2 hslot
    omega
  have hlast : u.shown.length + u.waiting < u.stored.length + u.owners := by
    refine run_invariant (I := fun s => s.shown.length + s.waiting < s.stored.length + s.owners)
      ?_ hafter hrun
    intro s a t hs hst
    have hledger := ledger_step (stepped_of_step hst).2
    omega
  rw [waiting_of_none hnull,hidle] at hlast
  exact hlast

def Display.message (s : Display) : Option (List UInt8) :=
  (load s.memory s.lastReceivedMessage).toOption

theorem free_of_message {s : Display}
    (hvalid : s.lastReceivedMessage = none ∨ s.message ≠ none) :
    ∃ memory, Heap.free s.memory s.lastReceivedMessage = .ok memory := by
  rcases hvalid with hnull | hmessage
  · exact ⟨s.memory,by rw [hnull,Heap.free_none]⟩
  · cases hload : load s.memory s.lastReceivedMessage with
    | error e => simp [Display.message,hload,Except.toOption] at hmessage
    | ok t =>
      obtain ⟨p,size,hp,hblock⟩ := load_ok_inv hload
      exact ⟨_,by rw [hp,free_text hblock]⟩

theorem store_alone {s : Display} {h : Nat} (hmisuse : s.misuse = none)
    (hidle : s.handlers[h]? = some .idle)
    (hvalid : s.lastReceivedMessage = none ∨ s.message ≠ none) (message : Buffer) :
    ∃ t, run Display.step s (store h message) = some t ∧ t.misuse = none ∧
      t.message = some message.text ∧ t.stored = s.stored ++ [message.text] ∧
      t.shown = s.shown ∧ t.poll = s.poll := by
  obtain ⟨memory,hfree⟩ := free_of_message hvalid
  obtain ⟨hlt,_⟩ := List.getElem?_eq_some_iff.mp hidle
  have hblock := getElem?_malloc memory (message.text.length + 1)
  have hcopy := strcpy_uninit (t := message.text) hblock (Nat.lt_succ_self _)
  have hload := load_text (getElem?_set_block hblock
    (⟨message.text.length + 1,.text message.text⟩ : Block UInt8))
  refine ⟨{ s with
    lastReceivedMessage := some memory.length
    memory := (malloc memory (message.text.length + 1) true).1.set memory.length
      ⟨message.text.length + 1,.text message.text⟩
    handlers := ((s.handlers.set h (.released message)).set h
      (.allocated message (some memory.length))).set h .idle
    stored := s.stored ++ [message.text] },?_,hmisuse,?_,rfl,rfl,rfl⟩
  · have hreleased : s.step (.release h message) =
        some { s.setHandler h (.released message) with memory := memory } := by
      simp [Display.step,hmisuse,hidle,hfree]
    simp only [store,run_cons,run_nil,hreleased,Option.bind_some]
    simp [Display.step,Display.setHandler,hmisuse,hlt,hcopy]
  · simp only [Display.message,hload]
    rfl

/-- The one step that the handler's model makes of the store is what the sub-steps do
where nothing comes between them. -/
theorem store_refines_receive {s : Display} {handler : Handler} (g : Globals) {h : Nat}
    (hphase : handler.phase = .receiving) (chunk : Chunk (maxBufferSize - 1))
    (htext : decodedText g.privateKey chunk.bytes ≠ exitText) (hmisuse : s.misuse = none)
    (hidle : s.handlers[h]? = some .idle)
    (hvalid : s.lastReceivedMessage = none ∨ s.message ≠ none) :
    ∃ g' handler' message t, handler.receive g (.data chunk) = .ok (g',handler') ∧
      run Display.step s (store h message) = some t ∧
      t.message = g'.lastReceivedMessage ∧ t.stored = s.stored ++ [message.text] ∧
      handler'.printed = handler.printed ++ [message.text] := by
  obtain ⟨t,hrun,_,hmessage,hstored,_⟩ := store_alone hmisuse hidle hvalid
    (.ofBytes (xorKey g.privateKey (Buffer.ofBytes chunk.bytes).text))
  exact ⟨_,_,_,t,receive_message g hphase chunk htext,hrun,hmessage,hstored,rfl⟩

end CTalk
