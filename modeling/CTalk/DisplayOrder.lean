import CTalk.Display

/-! What the poll shows, against what the handlers stored and what they received. Every
interleaving of the sub-steps is a run here, the ones that lose messages included. -/

set_option autoImplicit false

namespace CTalk
open ByteStream Transition Heap

def begun (as : List DisplayAction) : List (List UInt8) :=
  as.filterMap fun
    | .release _ message => some message.text
    | _ => none

@[simp] theorem begun_append (as bs : List DisplayAction) :
    begun (as ++ bs) = begun as ++ begun bs := List.filterMap_append

@[simp] theorem begun_release (h : Nat) (message : Buffer) :
    begun [.release h message] = [message.text] := rfl

def Display.unshown (s : Display) : Prop := s.poll = .test ∨ s.poll = .addMessage

/-- The message behind the pointer is the last one stored, and as long as the poll has not
shown it nothing of what it showed is that message. -/
structure InOrder (s : Display) : Prop where
  shown : s.shown.Sublist s.stored
  behind : ∀ {t}, s.unshown → load s.memory s.lastReceivedMessage = .ok t →
    ∃ earlier, s.stored = earlier ++ [t] ∧ s.shown.Sublist earlier

theorem inOrder_initial (count : Nat) : InOrder (Display.initial count) where
  shown := List.Sublist.refl []
  behind := by
    intro t _ hload
    cases hload

theorem inOrder_stepped {s t : Display} {a : DisplayAction} (hs : InOrder s)
    (hstep : Stepped s a t) : InOrder t := by
  cases hstep with
  | released hidle hfree =>
    exact ⟨hs.shown,fun _ hload => absurd hload (load_free hfree)⟩
  | allocated hreleased =>
    exact ⟨hs.shown,fun _ hload => absurd hload (load_malloc _ _ _)⟩
  | missed hallocated hp =>
    refine ⟨List.sublist_append_of_sublist_left hs.shown,?_⟩
    intro t _ hload
    obtain ⟨p,_,hsome,_⟩ := load_ok_inv hload
    exact absurd (hp.symm.trans hsome) nofun
  | @copied h message own p memory hallocated hp hcopy =>
    refine ⟨List.sublist_append_of_sublist_left hs.shown,?_⟩
    intro t _ hload
    have htext : load memory s.lastReceivedMessage = .ok message.text := by
      rw [hp]
      exact load_strcpy hcopy
    have ht : t = message.text := Except.ok.inj (hload.symm.trans htext)
    exact ⟨s.stored,by rw [ht],hs.shown⟩
  | empty hpoll hp => exact hs
  | found hpoll hp => exact ⟨hs.shown,fun _ hload => hs.behind (.inl hpoll) hload⟩
  | @shown t hpoll hload =>
    obtain ⟨earlier,hstored,hearlier⟩ := hs.behind (.inr hpoll) hload
    refine ⟨?_,?_⟩
    · have hlast := List.Sublist.append hearlier (List.Sublist.refl [t])
      rw [← hstored] at hlast
      exact hlast
    · intro u hunshown _
      rcases hunshown with htest | hadd
      · cases htest
      · cases hadd
  | freed hpoll hfree =>
    exact ⟨hs.shown,fun _ hload => absurd hload (load_free hfree)⟩
  | reset hpoll =>
    refine ⟨hs.shown,?_⟩
    intro t _ hload
    cases hload
  | misused hmisuses => exact ⟨hs.shown,hs.behind⟩

theorem inOrder_step (s : Display) (a : DisplayAction) (t : Display) (hs : InOrder s)
    (hstep : s.step a = some t) : InOrder t :=
  inOrder_stepped hs (stepped_of_step hstep).2

def StoreStep.text : StoreStep → Option (List UInt8)
  | .idle => none
  | .released message => some message.text
  | .allocated message _ => some message.text

def StoreStep.carries (t : List UInt8) (step : StoreStep) : Bool := step.text = some t

def Received (done : List DisplayAction) (s : Display) : Prop :=
  ∀ t, s.stored.count t + s.handlers.countP (StoreStep.carries t) ≤ (begun done).count t

theorem received_initial (count : Nat) : Received [] (Display.initial count) := by
  intro t
  have hnone : (List.replicate count StoreStep.idle).countP (StoreStep.carries t) = 0 :=
    List.countP_eq_zero.mpr fun step hstep => by
      rw [List.eq_of_mem_replicate hstep]
      simp [StoreStep.carries,StoreStep.text]
  simp [Display.initial,hnone]

theorem received_move {done : List DisplayAction} {s t : Display} {a : DisplayAction}
    {h : Nat} {old : StoreStep} (new : StoreStep) (added : List (List UInt8))
    (hs : Received done s) (hold : s.handlers[h]? = some old) (hstored : t.stored = s.stored ++ added)
    (hhandlers : t.handlers = s.handlers.set h new)
    (hmove : ∀ u, added.count u + (if new.text = some u then 1 else 0) ≤
      (if old.text = some u then 1 else 0) + (begun [a]).count u) :
    Received (done ++ [a]) t := by
  intro u
  have hcount := Slots.countP_set (StoreStep.carries u) hold new
  simp only [StoreStep.carries,decide_eq_true_eq] at hcount
  have hu := hs u
  have hadded := hmove u
  rw [hstored,hhandlers,begun_append,List.count_append,List.count_append]
  omega

theorem received_of_eq {done : List DisplayAction} {s t : Display} {a : DisplayAction}
    (hs : Received done s) (hstored : t.stored = s.stored)
    (hhandlers : t.handlers = s.handlers) : Received (done ++ [a]) t := by
  intro u
  have hu := hs u
  rw [hstored,hhandlers,begun_append,List.count_append]
  omega

theorem received_stepped {done : List DisplayAction} {s t : Display} {a : DisplayAction}
    (hs : Received done s) (hstep : Stepped s a t) : Received (done ++ [a]) t := by
  cases hstep with
  | @released h message memory hidle hfree =>
    refine received_move (.released message) [] hs hidle (List.append_nil _).symm rfl ?_
    intro u
    simp [StoreStep.text,List.count_singleton]
  | @allocated h succeeds message hreleased =>
    refine received_move (.allocated message _) [] hs hreleased (List.append_nil _).symm rfl ?_
    intro u
    simp [StoreStep.text]
  | @missed h message own hallocated hp =>
    refine received_move .idle (own.toList.map (fun _ => message.text)) hs hallocated rfl rfl ?_
    intro u
    cases own with
    | none => simp [StoreStep.text]
    | some p => simp [StoreStep.text,List.count_singleton]
  | @copied h message own p memory hallocated hp hcopy =>
    refine received_move .idle [message.text] hs hallocated rfl rfl ?_
    intro u
    simp [StoreStep.text,List.count_singleton]
  | empty hpoll hp => exact received_of_eq hs rfl rfl
  | found hpoll hp => exact received_of_eq hs rfl rfl
  | shown hpoll hload => exact received_of_eq hs rfl rfl
  | freed hpoll hfree => exact received_of_eq hs rfl rfl
  | reset hpoll => exact received_of_eq hs rfl rfl
  | misused hmisuses => exact received_of_eq hs rfl rfl

end CTalk
