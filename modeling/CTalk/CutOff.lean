import CTalk.Descriptors

/-! main.c: how many rounds one call of receiving can last, and what is still watched in
each of them. -/

set_option autoImplicit false

namespace CTalk
open Transition

/-- select is called without a timeout: it returns with a descriptor to report. -/
def SelectReports : ThreadAction → Prop
  | .round answers _ => ∃ fd, Reports answers fd
  | _ => True

/-- The call has lasted no more rounds than its accepted descriptors account for, one when
they were accepted and one when they were received from. -/
structure Lasting (serverFd : Nat) (done : List ThreadAction) (s : ReceiveThread) : Prop where
  holding : Holding serverFd s
  rounds : s.call.k + s.call.currentSockets.card ≤ 2 * s.accepted.card + 1
  reached : run (step serverFd) (.initial (insert serverFd ∅)) (roundsOf done) = some s.call
  watched : ∀ c ∈ s.connections, ∀ fd ∈ c.fd,
    fd ≠ serverFd ∧ (c.received = false → fd ∈ s.call.currentSockets)

theorem lasting_start {serverFd : Nat} (hserver : serverFd < fdSetSize) :
    Lasting serverFd [] (.start serverFd) where
  holding := holding_start hserver
  rounds := by simp [ReceiveThread.start,Receiving.initial]
  reached := rfl
  watched := by simp [ReceiveThread.start]

section lasting
variable {serverFd : Nat} {done : List ThreadAction} {s : ReceiveThread}

theorem Lasting.k_le (h : Lasting serverFd done s) : s.call.k ≤ 2 * fdSetSize - 2 := by
  have hrounds := h.rounds
  have hserver := h.holding.watching.inSet serverFd h.holding.watching.server
  have hcard := card_lt_fdSetSize hserver h.holding.server h.holding.below
  have hpos : 0 < s.call.currentSockets.card :=
    Finset.card_pos.mpr ⟨serverFd,h.holding.watching.server⟩
  simp only [fdSetSize] at hcard ⊢
  omega

variable {answers : Answers} {others : Finset Nat}

theorem accepts_of_round {call t : Receiving} (hserver : serverFd < fdSetSize)
    (hreports : Reports answers serverFd) (hok : round serverFd call answers = .ok t) :
    ∃ fd, Accepts serverFd answers fd := by
  cases haccepted : answers.accepted with
  | some fd => exact ⟨fd,hreports,haccepted⟩
  | none =>
    obtain ⟨ready,hready,hfold⟩ := round_inv hok
    have hin : serverFd ∈ ready := by
      obtain ⟨r,hr,hmem⟩ := hreports
      cases hready.symm.trans hr
      exact hmem
    obtain ⟨later,hrange,_⟩ := range_split hserver
    rw [hrange,List.foldlM_append] at hfold
    cases hbefore : (List.range serverFd).foldlM (visit serverFd answers ready)
        { call with k := call.k + 1 } with
    | error fault =>
      rw [hbefore] at hfold
      cases hfold
    | ok u =>
      have hvisit : visit serverFd answers ready u serverFd = .error .exitFailure := by
        simp [visit,hin,haccepted]
      simp only [hbefore,List.foldlM_cons,hvisit,bind,Except.bind] at hfold
      cases hfold

section round
variable {call : Receiving}

/-- An accept adds its own descriptor to what is watched, and no other. -/
theorem Lasting.card_accepts (h : Lasting serverFd done s)
    (hkernel : KernelObeys serverFd s answers others)
    (hok : round serverFd s.call answers = .ok call) {fd : Nat}
    (hfd : Accepts serverFd answers fd) :
    call.currentSockets.card ≤ s.call.currentSockets.card + 1 := by
  have hone : ∀ x, Accepts serverFd answers x → x = fd :=
    fun x hx => Option.some.inj (hx.2.symm.trans hfd.2)
  have hsub : call.currentSockets ⊆ insert fd s.call.currentSockets := by
    intro x hx
    by_cases hserver : x = serverFd
    · exact Finset.mem_insert_of_mem (hserver ▸ h.holding.watching.server)
    · rcases (h.holding.mem_round hkernel hok hserver).mp hx with hold | hnew
      · exact Finset.mem_insert_of_mem hold.1
      · exact Finset.mem_insert.mpr (.inl (hone x hnew))
  exact Nat.le_trans (Finset.card_le_card hsub) (Finset.card_insert_le _ _)

/-- Without an accept, what select reports is watched no more. -/
theorem Lasting.card_receives (h : Lasting serverFd done s)
    (hkernel : KernelObeys serverFd s answers others)
    (hok : round serverFd s.call answers = .ok call) (hselect : ∃ fd, Reports answers fd)
    (hnone : ¬ ∃ fd, Accepts serverFd answers fd) :
    call.currentSockets.card + 1 ≤ s.call.currentSockets.card := by
  have hwatching := h.holding.watching
  obtain ⟨fd,hfd⟩ := hselect
  have hinSet := hwatching.inSet serverFd hwatching.server
  have hne : fd ≠ serverFd := fun heq => hnone (accepts_of_round hinSet (heq ▸ hfd) hok)
  have hsub : call.currentSockets ⊆ s.call.currentSockets.erase fd := by
    intro x hx
    rw [Finset.mem_erase]
    by_cases hserver : x = serverFd
    · exact ⟨by rw [hserver]; exact hne.symm,hserver ▸ hwatching.server⟩
    · rcases (h.holding.mem_round hkernel hok hserver).mp hx with hold | hnew
      · exact ⟨fun heq => hold.2 (heq ▸ hfd),hold.1⟩
      · exact absurd ⟨x,hnew⟩ hnone
  have hle := Finset.card_le_card hsub
  have herase := Finset.card_erase_add_one (hkernel.watched fd hfd)
  omega

theorem Lasting.rounds_round (h : Lasting serverFd done s)
    (hkernel : KernelObeys serverFd s answers others) (hselect : ∃ fd, Reports answers fd)
    (hok : round serverFd s.call answers = .ok call) {accepted : Finset Nat}
    (haccepted : ∀ x, x ∈ accepted ↔ x ∈ s.accepted ∨ Accepts serverFd answers x) :
    call.k + call.currentSockets.card ≤ 2 * accepted.card + 1 := by
  have hrounds := h.rounds
  rw [k_round hok]
  by_cases haccepts : ∃ fd, Accepts serverFd answers fd
  · obtain ⟨fd,hfd⟩ := haccepts
    have hmore := h.card_accepts hkernel hok hfd
    have hnew : s.accepted.card + 1 ≤ accepted.card := by
      rw [← Finset.card_insert_of_notMem (hkernel.accepted_new hfd)]
      apply Finset.card_le_card
      intro x hx
      rcases Finset.mem_insert.mp hx with heq | hold
      · exact (haccepted x).mpr (.inr (heq ▸ hfd))
      · exact (haccepted x).mpr (.inl hold)
    omega
  · have hfewer := h.card_receives hkernel hok hselect haccepts
    have hsame : s.accepted.card ≤ accepted.card :=
      Finset.card_le_card (fun x hx => (haccepted x).mpr (.inl hx))
    omega

end round

theorem mem_acceptNext {fd : Nat} {cs : List Incoming} {d : Incoming}
    (hd : d ∈ acceptNext fd cs) :
    d ∈ cs ∨ ∃ c ∈ cs, c.fd = none ∧ d = { c with fd := some fd } := by
  induction cs with
  | nil => simp [acceptNext] at hd
  | cons c cs ih =>
    by_cases hc : c.fd = none
    · rw [acceptNext,if_pos hc] at hd
      rcases List.mem_cons.mp hd with heq | hin
      · exact .inr ⟨c,List.mem_cons_self,hc,heq⟩
      · exact .inl (List.mem_cons_of_mem c hin)
    · rw [acceptNext,if_neg hc] at hd
      rcases List.mem_cons.mp hd with heq | hin
      · exact .inl (by simp [heq])
      · rcases ih hin with hold | ⟨b,hb,hnone,heq⟩
        · exact .inl (List.mem_cons_of_mem c hold)
        · exact .inr ⟨b,List.mem_cons_of_mem c hb,hnone,heq⟩

theorem unreported_of_afterRound {c : Incoming} {fd : Nat} (hfd : c.fd = some fd)
    (hne : fd ≠ serverFd) (h : (c.afterRound serverFd answers).received = false) :
    c.received = false ∧ ¬ Reports answers fd := by
  unfold Incoming.afterRound Reports at *
  rw [hfd] at h
  cases hready : answers.ready with
  | none => simpa [hready] using h
  | some ready =>
    simp only [hready] at h
    by_cases hin : fd ∈ ready
    · simp [hin,hne] at h
    · simpa [hin] using h

theorem Lasting.watched_round (h : Lasting serverFd done s)
    (hkernel : KernelObeys serverFd s answers others) {call : Receiving}
    (hok : round serverFd s.call answers = .ok call) {c : Incoming}
    (hc : c ∈ s.connections.map (Incoming.afterRound serverFd answers)) {fd : Nat}
    (hfd : c.fd = some fd) :
    fd ≠ serverFd ∧ (c.received = false → fd ∈ call.currentSockets) := by
  obtain ⟨b,hb,rfl⟩ := List.mem_map.mp hc
  rw [Incoming.afterRound_fd] at hfd
  obtain ⟨hne,hwatched⟩ := h.watched b hb fd hfd
  refine ⟨hne,fun hreceived => ?_⟩
  obtain ⟨hold,hunreported⟩ := unreported_of_afterRound hfd hne hreceived
  exact (h.holding.mem_round hkernel hok hne).mpr (.inl ⟨hwatched hold,hunreported⟩)

theorem roundsOf_round (done : List ThreadAction) (answers : Answers) (others : Finset Nat) :
    roundsOf (done ++ [.round answers others]) = roundsOf done ++ [answers] := by
  simp [roundsOf]

theorem lasting_round (h : Lasting serverFd done s)
    (hkernel : KernelObeys serverFd s answers others) (hselect : ∃ fd, Reports answers fd)
    {t : ReceiveThread} (hstep : receiveThread serverFd s (.round answers others) = some t) :
    Lasting serverFd (done ++ [.round answers others]) t := by
  have hholding := holding_round h.holding hkernel hstep
  have haccepted := mem_accepted_round hstep
  obtain ⟨call,hround,hcall,hrest⟩ := receiveThread_round_cases hstep
  have hrounds := h.rounds_round hkernel hselect hround haccepted
  have hk := k_round hround
  have hle := h.k_le
  -- the call is not at its cut-off, and it goes on
  have hsame : t.call = call := by
    rw [hcall]
    apply nextCall_of_lt
    simp only [fdSetSize] at hle ⊢
    omega
  refine ⟨hholding,by rwa [hsame],?_,?_⟩
  · rw [roundsOf_round,run_append,h.reached,Option.bind_some,run_cons,step,hround,hsame]
    rfl
  · rw [hsame]
    rcases hrest with ⟨_,_,hconnections⟩ | ⟨fd,hfd,_,hconnections⟩
    · rw [hconnections]
      intro c hc fd hfd
      exact h.watched_round hkernel hround hc hfd
    · rw [hconnections]
      intro c hc x hx
      rcases mem_acceptNext hc with hold | ⟨b,hb,hnone,heq⟩
      · exact h.watched_round hkernel hround hold hx
      · have haccepts := (acceptedIn_eq_some_iff fd).mp hfd
        rw [heq] at hx
        cases hx
        have hne := hkernel.accepted_ne haccepts
        exact ⟨hne,fun _ => (h.holding.mem_round hkernel hround hne).mpr (.inr haccepts)⟩

theorem lasting_step {a : ThreadAction} {t : ReceiveThread} (h : Lasting serverFd done s)
    (hobeys : ActionObeys serverFd s a ∧ SelectReports a)
    (hstep : receiveThread serverFd s a = some t) : Lasting serverFd (done ++ [a]) t := by
  cases a with
  | connects =>
    have hholding := holding_step h.holding hobeys.1 hstep
    cases hstep
    refine ⟨hholding,h.rounds,by simpa [roundsOf] using h.reached,?_⟩
    intro c hc fd hfd
    rcases List.mem_append.mp hc with hold | hlast
    · exact h.watched c hold fd hfd
    · rw [List.mem_singleton.mp hlast] at hfd
      cases hfd
  | closes n =>
    have hholding := holding_step h.holding hobeys.1 hstep
    cases hc : s.connections[n]? with
    | none => simp [receiveThread,hc] at hstep
    | some c =>
      simp [receiveThread,hc] at hstep
      subst hstep
      refine ⟨hholding,h.rounds,by simpa [roundsOf] using h.reached,?_⟩
      intro d hd fd hfd
      rcases List.mem_or_eq_of_mem_set hd with hold | heq
      · exact h.watched d hold fd hfd
      · rw [heq] at hfd ⊢
        exact h.watched c (List.mem_of_getElem? hc) fd hfd
  | round answers others => exact lasting_round h hobeys.1 hobeys.2 hstep

end lasting

theorem receivingLoop_waits {serverFd : Nat} {answers : List Answers} {s t : Receiving}
    (hrun : run (step serverFd) s answers = some t) (hk : t.k < 2 * fdSetSize) :
    s.k ≤ t.k ∧ receivingLoop serverFd s answers = .ok none := by
  induction answers generalizing s with
  | nil =>
    cases hrun
    exact ⟨Nat.le_refl _,rfl⟩
  | cons a answers ih =>
    obtain ⟨u,hstep,hrest⟩ := run_cons_inv hrun
    have hround := round_of_step hstep
    have hku := k_round hround
    obtain ⟨hle,hwaits⟩ := ih hrest
    refine ⟨by omega,?_⟩
    have hmore : u.k ≠ 2 * fdSetSize := by omega
    simp only [receivingLoop,hround,bind,Except.bind,if_neg hmore]
    exact hwaits

def firstConnection : List ThreadAction :=
  [.connects,.round (acceptAnswer 4) {0,1,2},.round (receiveAnswer 4) {0,1,2}]

end CTalk
