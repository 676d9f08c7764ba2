import CTalk.Display

/-! The window where stores and polls do not overlap, as they would not under a lock: what it
shows is what each poll finds, the last message stored since the poll before. -/

set_option autoImplicit false

namespace CTalk
open ByteStream Transition Heap

inductive WholeAction where
  | store : Nat → Buffer → Bool → WholeAction
  | poll

def Display.whole (s : Display) : WholeAction → Option Display
  | .store h message allocated =>
    run Display.step s [.release h message,.allocate h allocated,.copy h]
  | .poll => run Display.step s (if s.lastReceivedMessage = none then [.test] else showOnce)

def WholeAction.message : WholeAction → Option (List UInt8)
  | .store _ message true => some message.text
  | _ => none

/-- The messages that a poll finds, where one may wait already. A store over a message that
waits takes its place, and one without memory takes it away. -/
def polled : Option (List UInt8) → List WholeAction → List (List UInt8)
  | _, [] => []
  | _, .store h message allocated :: as =>
    polled (WholeAction.store h message allocated).message as
  | waiting, .poll :: as => waiting.toList ++ polled none as

/-- Between two whole actions: no store is under way, and the one block in use, if any, holds
the message that waits. -/
structure Resting (s : Display) (count : Nat) (waiting : Option (List UInt8)) : Prop where
  misuse : s.misuse = none
  poll : s.poll = .test
  handlers : s.handlers = List.replicate count .idle
  empty : waiting = none → s.lastReceivedMessage = none
  text : ∀ t, waiting = some t → load s.memory s.lastReceivedMessage = .ok t
  live : live s.memory = waiting.toList.length

theorem resting_initial (count : Nat) : Resting (Display.initial count) count none :=
  ⟨rfl,rfl,rfl,fun _ => rfl,nofun,rfl⟩

section whole
variable {s : Display} {count : Nat} {waiting : Option (List UInt8)}

theorem Resting.valid (hs : Resting s count waiting) :
    Valid s.memory s.lastReceivedMessage := by
  intro hp
  cases hwaiting : waiting with
  | none => exact absurd (hs.empty hwaiting) hp
  | some t => exact ⟨t,hs.text t hwaiting⟩

theorem Resting.released (hs : Resting s count waiting) :
    Heap.free s.memory s.lastReceivedMessage =
        .ok (Heap.released s.memory s.lastReceivedMessage) ∧
      Heap.live (Heap.released s.memory s.lastReceivedMessage) = 0 := by
  have hfree := free_valid hs.valid []
  have hlive := live_released hs.valid
  rw [List.append_nil,List.append_nil] at hfree
  refine ⟨hfree,?_⟩
  have hcount := hs.live
  cases hwaiting : waiting with
  | none =>
    rw [hwaiting,Option.toList_none,List.length_nil] at hcount
    omega
  | some t =>
    obtain ⟨p,_,hp,_⟩ := load_ok_inv (hs.text t hwaiting)
    rw [hp,Option.toList_some,List.length_singleton] at hlive
    rw [hwaiting,Option.toList_some,List.length_singleton] at hcount
    rw [hp]
    omega

theorem store_whole (hs : Resting s count waiting) {h : Nat} (hh : h < count)
    (message : Buffer) (allocated : Bool) :
    ∃ t, s.whole (.store h message allocated) = some t ∧
      Resting t count (WholeAction.store h message allocated).message ∧ t.shown = s.shown ∧
      t.stored = s.stored ++ (WholeAction.store h message allocated).message.toList := by
  obtain ⟨hfree,hlive⟩ := hs.released
  have hidle : s.handlers[h]? = some .idle := by
    rw [hs.handlers,List.getElem?_replicate_of_lt hh]
  have hlt : h < s.handlers.length := by rw [hs.handlers,List.length_replicate]; exact hh
  have hback : s.handlers.set h .idle = s.handlers := by
    rw [hs.handlers,List.set_replicate_self]
  have hrelease : s.step (.release h message) = some { s.setHandler h (.released message) with
      memory := Heap.released s.memory s.lastReceivedMessage } := by
    simp [Display.step,hs.misuse,hidle,hfree]
  generalize Heap.released s.memory s.lastReceivedMessage = memory at hlive hrelease
  cases allocated with
  | false =>
    refine ⟨{ s with memory := memory, lastReceivedMessage := none },?_,?_,rfl,?_⟩
    · simp only [Display.whole,run_cons,run_nil,hrelease,Option.bind_some]
      simp [Display.step,Display.setHandler,hs.misuse,hlt,hback]
    · exact ⟨hs.misuse,hs.poll,hs.handlers,fun _ => rfl,(fun _ ht => by cases ht),hlive⟩
    · exact (List.append_nil _).symm
  | true =>
    have hcopy := strcpy_malloc memory (t := message.text) (Nat.lt_succ_self _)
    refine ⟨{ s with
      memory := memory ++ [⟨message.text.length + 1,.text message.text⟩]
      lastReceivedMessage := some memory.length
      stored := s.stored ++ [message.text] },?_,?_,rfl,rfl⟩
    · simp only [Display.whole,run_cons,run_nil,hrelease,Option.bind_some]
      simp [Display.step,Display.setHandler,hs.misuse,hlt,hback,hcopy]
    · refine ⟨hs.misuse,hs.poll,hs.handlers,(fun hnone => by cases hnone),?_,?_⟩
      · intro t ht
        cases ht
        exact load_here memory _ _ []
      · rw [live_append,hlive,live_text,live_nil]
        rfl

theorem poll_whole (hs : Resting s count waiting) :
    ∃ t, s.whole .poll = some t ∧ Resting t count none ∧ t.shown = s.shown ++ waiting.toList ∧
      t.stored = s.stored := by
  cases hwaiting : waiting with
  | none =>
    have hp := hs.empty hwaiting
    subst hwaiting
    refine ⟨s,?_,hs,(List.append_nil _).symm,rfl⟩
    simp [Display.whole,Display.step,hp,hs.misuse,hs.poll]
  | some t =>
    obtain ⟨hfree,hlive⟩ := hs.released
    have hload := hs.text t hwaiting
    obtain ⟨p,_,hp,_⟩ := load_ok_inv hload
    refine ⟨{ s with
      memory := Heap.released s.memory s.lastReceivedMessage
      lastReceivedMessage := none
      shown := s.shown ++ [t] },?_,?_,rfl,rfl⟩
    · rw [hp] at hfree hload
      simp [Display.whole,showOnce,Display.step,hp,hs.misuse,hs.poll,hload,hfree]
    · exact ⟨hs.misuse,hs.poll,hs.handlers,fun _ => rfl,(fun _ ht => by cases ht),hlive⟩

end whole

def WholeAction.within (count : Nat) : WholeAction → Prop
  | .store h _ _ => h < count
  | .poll => True

theorem whole_run {count : Nat} {as : List WholeAction} (has : ∀ a ∈ as, a.within count)
    {s : Display} {waiting : Option (List UInt8)} (hs : Resting s count waiting) :
    ∃ t last, run Display.whole s as = some t ∧ Resting t count last ∧
      t.shown = s.shown ++ polled waiting as ∧
      t.stored = s.stored ++ as.filterMap WholeAction.message := by
  induction as generalizing s waiting with
  | nil => exact ⟨s,waiting,rfl,hs,(List.append_nil _).symm,(List.append_nil _).symm⟩
  | cons a as ih =>
    have hrest : ∀ b ∈ as, b.within count := fun b hb => has b (List.mem_cons_of_mem a hb)
    cases a with
    | store h message allocated =>
      have hh : h < count := has (.store h message allocated) List.mem_cons_self
      obtain ⟨t,ht,hresting,hshown,hstored⟩ := store_whole hs hh message allocated
      obtain ⟨u,last,hu,hlast,hushown,hustored⟩ := ih hrest hresting
      refine ⟨u,last,?_,hlast,?_,?_⟩
      · rw [run_cons,ht]
        exact hu
      · rw [hushown,hshown,polled]
      · rw [hustored,hstored,List.filterMap_cons,List.append_assoc]
        cases (WholeAction.store h message allocated).message <;> rfl
    | poll =>
      obtain ⟨t,ht,hresting,hshown,hstored⟩ := poll_whole hs
      obtain ⟨u,last,hu,hlast,hushown,hustored⟩ := ih hrest hresting
      refine ⟨u,last,?_,hlast,?_,?_⟩
      · rw [run_cons,ht]
        exact hu
      · rw [hushown,hshown,polled,List.append_assoc]
      · rw [hustored,hstored]
        rfl

/-- Where stores and polls do not overlap the memory is used as it should be and none leaks,
and the window still shows only what the polls find: the last message stored in front of
each. -/
theorem polls_show_last (count : Nat) (as : List WholeAction)
    (has : ∀ a ∈ as, a.within count) :
    ∃ s, run Display.whole (Display.initial count) as = some s ∧ s.misuse = none ∧
      s.shown = polled none as ∧ s.stored = as.filterMap WholeAction.message ∧
      live s.memory ≤ 1 := by
  obtain ⟨s,last,hs,hresting,hshown,hstored⟩ := whole_run has (resting_initial count)
  refine ⟨s,hs,hresting.misuse,hshown,hstored,?_⟩
  rw [hresting.live]
  exact Option.length_toList_le

def lossyRun : List WholeAction :=
  [.store 0 (.ofBytes [104]) true,.store 1 (.ofBytes [105]) true,.poll,.poll,
    .store 0 (.ofBytes [106]) true,.store 1 (.ofBytes [107]) false,.poll]

theorem polls_show_last_lossy :
    ∃ s, run Display.whole (Display.initial 2) lossyRun = some s ∧ s.misuse = none ∧
      s.shown = polled none lossyRun ∧ s.stored = lossyRun.filterMap WholeAction.message ∧
      live s.memory ≤ 1 :=
  polls_show_last 2 lossyRun (by simp [lossyRun,WholeAction.within])

end CTalk
