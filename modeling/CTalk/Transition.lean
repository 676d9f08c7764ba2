import Mathlib.Tactic.Common

/-! Runs of a partial step function, and the induction rules for what holds after
every run. A condition on the steps of a run is a predicate of the state before the
step and of the action taken there. -/

set_option autoImplicit false

namespace Transition

variable {σ α : Type}

/-- The step function answers none where the action is not enabled. -/
def run (step : σ → α → Option σ) : σ → List α → Option σ
  | s, [] => some s
  | s, a :: as => (step s a).bind (fun t => run step t as)

/-- Every step that the run takes from s meets the condition C. -/
def Meets (step : σ → α → Option σ) (C : σ → α → Prop) : σ → List α → Prop
  | _, [] => True
  | s, a :: as => C s a ∧ ∀ t ∈ step s a, Meets step C t as

instance Meets.decide (step : σ → α → Option σ) (C : σ → α → Prop)
    [∀ s a, Decidable (C s a)] : (s : σ) → (as : List α) → Decidable (Meets step C s as)
  | _, [] => .isTrue trivial
  | s, a :: as =>
    have := fun t => Meets.decide step C t as
    inferInstanceAs (Decidable (C s a ∧ ∀ t ∈ step s a, Meets step C t as))

variable {step : σ → α → Option σ} {C : σ → α → Prop}

@[simp] theorem run_nil (s : σ) : run step s [] = some s := rfl

@[simp] theorem run_cons (s : σ) (a : α) (as : List α) :
    run step s (a :: as) = (step s a).bind (fun t => run step t as) := rfl

theorem run_cons_inv {s t : σ} {a : α} {as : List α} (h : run step s (a :: as) = some t) :
    ∃ u, step s a = some u ∧ run step u as = some t :=
  Option.bind_eq_some_iff.mp h

theorem run_cons_of_step {s t : σ} {a : α} (h : step s a = some t) (as : List α) :
    run step s (a :: as) = run step t as := by
  rw [run_cons,h,Option.bind_some]

theorem run_append (s : σ) (as bs : List α) :
    run step s (as ++ bs) = (run step s as).bind (fun t => run step t bs) := by
  induction as generalizing s with
  | nil => rfl
  | cons a as ih => simp only [List.cons_append,run_cons,ih,Option.bind_assoc]

theorem meets_cons_of_step {s t : σ} {a : α} {as : List α} (hc : C s a)
    (hstep : step s a = some t) (hrest : Meets step C t as) : Meets step C s (a :: as) := by
  refine ⟨hc,fun u hu => ?_⟩
  have htu : t = u := Option.some.inj (hstep.symm.trans hu)
  exact htu ▸ hrest

theorem meets_true (s : σ) (as : List α) : Meets step (fun _ _ => True) s as := by
  induction as generalizing s with
  | nil => trivial
  | cons a as ih => exact ⟨trivial,fun t _ => ih t⟩

theorem meets_and {D : σ → α → Prop} {s : σ} {as : List α} (hc : Meets step C s as)
    (hd : Meets step D s as) : Meets step (fun s a => C s a ∧ D s a) s as := by
  induction as generalizing s with
  | nil => trivial
  | cons a as ih => exact ⟨⟨hc.1,hd.1⟩,fun t ht => ih (hc.2 t ht) (hd.2 t ht)⟩

theorem meets_append {s : σ} {as bs : List α} (has : Meets step C s as)
    (hbs : ∀ t, run step s as = some t → Meets step C t bs) : Meets step C s (as ++ bs) := by
  induction as generalizing s with
  | nil => exact hbs s rfl
  | cons a as ih =>
    refine ⟨has.1,fun t ht => ih (has.2 t ht) ?_⟩
    intro u hu
    apply hbs u
    rw [run_cons,ht]
    exact hu

section emitted
variable {β : Type} {out : σ → α → List β}

def emitted (step : σ → α → Option σ) (out : σ → α → List β) : σ → List α → List β
  | _, [] => []
  | s, a :: as =>
    out s a ++ match step s a with
      | none => []
      | some t => emitted step out t as

/-- The general rule, from which the other rules for runs follow: an invariant may speak of
what was let out so far, and may rest on a condition C on the steps. -/
theorem emits_from {I : List β → σ → Prop}
    (keep : ∀ before s a t, I before s → C s a → step s a = some t → I (before ++ out s a) t)
    {as : List α} {before : List β} {s t : σ} (hs : I before s) (hm : Meets step C s as)
    (hr : run step s as = some t) : I (before ++ emitted step out s as) t := by
  induction as generalizing before s with
  | nil =>
    cases hr
    rwa [emitted,List.append_nil]
  | cons a as ih =>
    obtain ⟨u,hu,hrest⟩ := run_cons_inv hr
    have hnext := ih (keep before s a u hs hm.1 hu) (hm.2 u hu) hrest
    simp only [emitted,hu]
    rwa [List.append_assoc] at hnext

theorem run_emits {I : List β → σ → Prop}
    (keep : ∀ before s a t, I before s → C s a → step s a = some t → I (before ++ out s a) t)
    {as : List α} {s t : σ} (hs : I [] s) (hm : Meets step C s as)
    (hr : run step s as = some t) : I (emitted step out s as) t :=
  emits_from keep hs hm hr

end emitted

theorem emitted_actions {s t : σ} {as : List α} (hr : run step s as = some t) :
    emitted step (fun _ a => [a]) s as = as := by
  induction as generalizing s with
  | nil => rfl
  | cons a as ih =>
    obtain ⟨u,hu,hrest⟩ := run_cons_inv hr
    simp only [emitted,hu,ih hrest,List.singleton_append]

theorem run_history_of_meets {I : List α → σ → Prop}
    (keep : ∀ done s a t, I done s → C s a → step s a = some t → I (done ++ [a]) t)
    {as : List α} {s t : σ} (hs : I [] s) (hm : Meets step C s as)
    (hr : run step s as = some t) : I as t := by
  have hend := run_emits keep hs hm hr
  rwa [emitted_actions hr] at hend

theorem run_history {I : List α → σ → Prop}
    (keep : ∀ done s a t, I done s → step s a = some t → I (done ++ [a]) t)
    {as : List α} {s t : σ} (hs : I [] s) (hr : run step s as = some t) : I as t :=
  run_history_of_meets (fun done s a t hi _ h => keep done s a t hi h) hs (meets_true s as) hr

theorem run_invariant_of_meets {I : σ → Prop}
    (keep : ∀ s a t, I s → C s a → step s a = some t → I t)
    {s t : σ} {as : List α} (hs : I s) (hm : Meets step C s as)
    (hr : run step s as = some t) : I t :=
  run_history_of_meets (I := fun _ => I) (fun _ s a t => keep s a t) hs hm hr

theorem run_invariant {I : σ → Prop} (keep : ∀ s a t, I s → step s a = some t → I t)
    {s t : σ} {as : List α} (hs : I s) (hr : run step s as = some t) : I t :=
  run_invariant_of_meets (fun s a t hi _ h => keep s a t hi h) hs (meets_true s as) hr

/-- Where a step outside D always leaves a trace that no later step removes, a run
without that trace meets D throughout. -/
theorem meets_of_run {I Bad : σ → Prop} {D : σ → α → Prop}
    (keep : ∀ s a t, I s → C s a → D s a → step s a = some t → I t)
    (trace : ∀ s a t, I s → ¬ D s a → step s a = some t → Bad t)
    (persist : ∀ s a t, Bad s → step s a = some t → Bad t)
    {s t : σ} {as : List α} (hs : I s) (hm : Meets step C s as)
    (hr : run step s as = some t) (hb : ¬ Bad t) : Meets step D s as := by
  induction as generalizing s with
  | nil => trivial
  | cons a as ih =>
    obtain ⟨u,hu,hrest⟩ := run_cons_inv hr
    have hd : D s a := by
      by_contra hn
      exact hb (run_invariant persist (trace s a u hs hn hu) hrest)
    exact meets_cons_of_step hd hu (ih (keep s a u hs hm.1 hd hu) (hm.2 u hu) hrest)

theorem meets_congr {I : σ → Prop} {P Q : σ → α → Prop}
    (keep : ∀ s a t, I s → C s a → step s a = some t → I t)
    (agree : ∀ s a, I s → C s a → (P s a ↔ Q s a)) {s : σ} {as : List α} (hs : I s)
    (hm : Meets step C s as) : Meets step P s as ↔ Meets step Q s as := by
  induction as generalizing s with
  | nil => rfl
  | cons a as ih =>
    have hrest : ∀ t ∈ step s a, (Meets step P t as ↔ Meets step Q t as) :=
      fun t ht => ih (keep s a t hs hm.1 ht) (hm.2 t ht)
    exact and_congr (agree s a hs hm.1) (forall₂_congr hrest)

theorem meets_of_invariant {I : σ → Prop} {D : σ → α → Prop}
    (keep : ∀ s a t, I s → C s a → step s a = some t → I t)
    (cond : ∀ s a, I s → C s a → D s a) {s : σ} {as : List α} (hs : I s)
    (hm : Meets step C s as) : Meets step D s as :=
  (meets_congr keep (fun s a hi hc => ⟨fun _ => cond s a hi hc,fun _ => trivial⟩) hs hm).mp
    (meets_true s as)

/-- An invariant that rests on a property of all the actions, such as what their inputs are,
and from which the condition on the next step follows. -/
theorem meets_of_history {P : List α → Prop} {I : List α → σ → Prop}
    (closed : ∀ done later, P (done ++ later) → P done)
    (keep : ∀ done s a t, I done s → P (done ++ [a]) → step s a = some t →
      C s a ∧ I (done ++ [a]) t)
    {as : List α} {s t : σ} (hs : I [] s) (hp : P as) (hr : run step s as = some t) :
    Meets step C s as ∧ I as t := by
  have hall := run_history
    (I := fun done u => run step s done = some u ∧ (P done → Meets step C s done ∧ I done u))
    ?_ ⟨rfl,fun _ => ⟨trivial,hs⟩⟩ hr
  · exact hall.2 hp
  · intro done u a v hu hv
    obtain ⟨hrun,hmet⟩ := hu
    refine ⟨by rw [run_append,hrun]; simp [hv],fun hpa => ?_⟩
    obtain ⟨hm,hi⟩ := hmet (closed done [a] hpa)
    obtain ⟨hc,hi⟩ := keep done u a v hi hpa hv
    refine ⟨meets_append hm ?_,hi⟩
    intro w hw
    rw [hrun] at hw
    cases hw
    exact ⟨hc,fun _ _ => trivial⟩

/-- Two step functions that answer alike, one action after the other, do so over whole runs. -/
theorem run_lockstep {τ β : Type} {step' : τ → β → Option τ} {f : α → β}
    {R : σ → τ → Prop}
    (keep : ∀ s t a, R s t → Option.Rel R (step s a) (step' t (f a))) {s : σ} {t : τ}
    (hr : R s t) (as : List α) : Option.Rel R (run step s as) (run step' t (as.map f)) := by
  induction as generalizing s t with
  | nil => exact .some hr
  | cons a as ih =>
    rw [List.map_cons,run_cons,run_cons]
    have hstep := keep s t a hr
    generalize step s a = next, step' t (f a) = next' at hstep
    cases hstep with
    | some hnext => exact ih hnext
    | none => exact .none

theorem foldlM_cons_inv {ε : Type} {body : σ → α → Except ε σ} {a : α} {as : List α}
    {s t : σ} (hok : (a :: as).foldlM body s = .ok t) :
    ∃ u, body s a = .ok u ∧ as.foldlM body u = .ok t := by
  rw [List.foldlM_cons] at hok
  cases hbody : body s a with
  | error e =>
    rw [hbody] at hok
    cases hok
  | ok u =>
    rw [hbody] at hok
    exact ⟨u,rfl,hok⟩

/-- The induction rule of a loop over a list whose body can fail. The invariant speaks of
the elements not yet visited. -/
theorem foldlM_invariant {ε : Type} {body : σ → α → Except ε σ} {I : List α → σ → Prop}
    (keep : ∀ a as s t, I (a :: as) s → body s a = .ok t → I as t) {s t : σ} {as : List α}
    (hs : I as s) (hok : as.foldlM body s = .ok t) : I [] t := by
  induction as generalizing s with
  | nil =>
    cases hok
    exact hs
  | cons a as ih =>
    obtain ⟨u,hbody,hrest⟩ := foldlM_cons_inv hok
    exact ih (keep a as s u hs hbody) hrest

end Transition
