import CTalk.Transition
import CTalk.Handler

/-! server.c: the accept loop and its handler threads as one transition system. Each step is
an iteration of a loop, in a handler its recv with all that follows up to the next one, the
store into last_received_message included; the steps of different threads come in any
order. -/

set_option autoImplicit false

namespace CTalk
open ByteStream Transition

inductive AcceptResult where
  | error
  | connection : Int → AcceptResult
  deriving DecidableEq, Repr

/-- A handler's place in the list is its connection. unpooled is the thread that the
accept loop has created and not yet added to the pool; fault is how the process ended. -/
structure Server where
  globals : Globals
  handlers : List Handler
  unpooled : Option Thread
  fault : Option Fault
  deriving DecidableEq

inductive ServerAction where
  | accept : AcceptResult → Bool → ServerAction
  | register : ServerAction
  | recv : Nat → RecvResult → ServerAction
  deriving DecidableEq

def Server.initial (fresh : Nat → Option Thread) : Server :=
  ⟨⟨0,none,createThreadPool fresh⟩,[],none,none⟩

/-- The Boolean of accept says whether pthread_create succeeds; where it fails the
connection is closed and the loop goes on. -/
def Server.step (fresh : Nat → Option Thread) (s : Server) : ServerAction → Option Server
  | .accept connection created =>
    if s.fault ≠ none ∨ s.unpooled ≠ none then none
    else match connection with
      | .error => some { s with fault := some .exitFailure }
      | .connection fd =>
        let thread : Thread := ⟨s.handlers.length,fd,true⟩
        if created then
          some { s with
            handlers := s.handlers ++ [Handler.start thread]
            unpooled := some thread }
        else some s
  | .register =>
    if s.fault ≠ none then none
    else match s.unpooled with
      | none => none
      | some thread =>
        match addToPool fresh s.globals.pool thread with
        | .error fault => some { s with fault := some fault }
        | .ok pool => some { s with
            globals := { s.globals with pool := pool }
            unpooled := none }
  | .recv i received =>
    if s.fault ≠ none then none
    else match s.handlers[i]? with
      | none => none
      | some h =>
        if h.phase = .finished then none
        else match h.receive s.globals received with
          | .error fault => some { s with fault := some fault }
          | .ok (g,h) => some { s with globals := g, handlers := s.handlers.set i h }

section step
variable {fresh : Nat → Option Thread} {s t : Server}

theorem step_of_fault (h : s.fault ≠ none) (a : ServerAction) : s.step fresh a = none := by
  cases a <;> simp [Server.step,h]

theorem step_recv_ok {i : Nat} {h : Handler} (hrunning : s.fault = none)
    (hi : s.handlers[i]? = some h) (hphase : h.phase ≠ .finished) {received : RecvResult}
    {g : Globals} {h' : Handler} (hreceive : h.receive s.globals received = .ok (g,h')) :
    s.step fresh (.recv i received) =
      some { s with globals := g, handlers := s.handlers.set i h' } := by
  simp [Server.step,hrunning,hi,hphase,hreceive]

theorem step_recv_error {i : Nat} {h : Handler} (hrunning : s.fault = none)
    (hi : s.handlers[i]? = some h) (hphase : h.phase ≠ .finished) {received : RecvResult}
    {fault : Fault} (hreceive : h.receive s.globals received = .error fault) :
    s.step fresh (.recv i received) = some { s with fault := some fault } := by
  simp [Server.step,hrunning,hi,hphase,hreceive]

theorem step_cases {a : ServerAction} (hstep : s.step fresh a = some t) :
    (∃ i received h g h', a = .recv i received ∧ s.handlers[i]? = some h ∧
      h.phase ≠ .finished ∧ h.receive s.globals received = .ok (g,h') ∧
      t.globals = g ∧ t.handlers = s.handlers.set i h') ∨
    (t.globals.privateKey = s.globals.privateKey ∧
      (t.handlers = s.handlers ∨ ∃ thread, t.handlers = s.handlers ++ [Handler.start thread])) := by
  cases a with
  | accept connection created =>
    right
    simp only [Server.step] at hstep
    split at hstep
    · cases hstep
    · cases connection with
      | error =>
        cases hstep
        exact ⟨rfl,.inl rfl⟩
      | connection fd =>
        cases created with
        | false =>
          cases hstep
          exact ⟨rfl,.inl rfl⟩
        | true =>
          cases hstep
          exact ⟨rfl,.inr ⟨_,rfl⟩⟩
  | register =>
    right
    simp only [Server.step] at hstep
    split at hstep
    · cases hstep
    · split at hstep
      · cases hstep
      · split at hstep
        · cases hstep
          exact ⟨rfl,.inl rfl⟩
        · cases hstep
          exact ⟨rfl,.inl rfl⟩
  | recv i received =>
    simp only [Server.step] at hstep
    split at hstep
    · cases hstep
    · split at hstep
      · cases hstep
      · rename_i h hi
        split at hstep
        · cases hstep
        · rename_i hphase
          split at hstep
          · cases hstep
            exact .inr ⟨rfl,.inl rfl⟩
          · rename_i g h' hrecv
            cases hstep
            exact .inl ⟨i,received,h,g,h',rfl,hi,hphase,hrecv,rfl,rfl⟩

end step

def Isolated (s : Server) : Prop :=
  ∀ h ∈ s.handlers, ∀ key ∈ h.keysUsed, h.derived = some key

-- the quantifiers over keys are decided along the lists, not over all 64-bit values
instance (s : Server) : Decidable (Isolated s) :=
  have : DecidablePred (fun h : Handler => ∀ key ∈ h.keysUsed, h.derived = some key) :=
    fun h => List.decidableBAll (fun key => h.derived = some key) h.keysUsed
  List.decidableBAll _ s.handlers

/-- A handler that completes its key exchange derives the key of every session that is
in its loop at that moment. -/
def KeysAgree (s : Server) : ServerAction → Prop
  | .recv i received => ∀ h ∈ s.handlers[i]?, h.phase = .keyExchange →
      ∀ key ∈ (generatePrivateKey received publicParams.1 privateParams).toOption,
        ∀ other ∈ s.handlers, other.phase = .receiving → other.derived = some key
  | _ => True

instance : (s : Server) → (a : ServerAction) → Decidable (KeysAgree s a)
  | _, .accept _ _ => .isTrue trivial
  | _, .register => .isTrue trivial
  | s, .recv i received =>
    have : DecidablePred (fun key : UInt64 => ∀ other ∈ s.handlers,
        other.phase = .receiving → other.derived = some key) :=
      fun _ => inferInstance
    have : Decidable (∀ key ∈
        (generatePrivateKey received publicParams.1 privateParams).toOption,
        ∀ other ∈ s.handlers, other.phase = .receiving → other.derived = some key) :=
      Option.decidableForallMem _
    inferInstanceAs (Decidable (∀ h ∈ s.handlers[i]?, h.phase = .keyExchange →
      ∀ key ∈ (generatePrivateKey received publicParams.1 privateParams).toOption,
        ∀ other ∈ s.handlers, other.phase = .receiving → other.derived = some key))

structure KeyedHandler (privateKey : UInt64) (h : Handler) : Prop where
  used : ∀ key ∈ h.keysUsed, h.derived = some key
  current : h.phase = .receiving → h.derived = some privateKey
  unused : h.phase = .keyExchange → h.keysUsed = []

def Keyed (s : Server) : Prop := ∀ h ∈ s.handlers, KeyedHandler s.globals.privateKey h

theorem keyedHandler_start (privateKey : UInt64) (thread : Thread) :
    KeyedHandler privateKey (Handler.start thread) where
  used := by simp [Handler.start]
  current := by simp [Handler.start]
  unused := by simp [Handler.start]

theorem keyed_step {fresh : Nat → Option Thread} {s t : Server} {a : ServerAction}
    (hs : Keyed s) (hagree : KeysAgree s a) (hstep : s.step fresh a = some t) : Keyed t := by
  rcases step_cases hstep with hrecv | hother
  · obtain ⟨i,received,h,g,h',ha,hi,hphase,hreceive,hglobals,hhandlers⟩ := hrecv
    subst ha
    have hmem : h ∈ s.handlers := List.mem_of_getElem? hi
    have hold := hs h hmem
    intro x hx
    rw [hhandlers] at hx
    rw [hglobals]
    rcases receive_cases s.globals hphase hreceive with hkey | hmessage
    · -- the one key of the process changes, under every session that is in its loop
      obtain ⟨hexchange,key,hgen,hg,hh⟩ := hkey
      subst hg hh
      rcases List.mem_or_eq_of_mem_set hx with hx | hx
      · have hxold := hs x hx
        have hshared := hagree h hi hexchange key (by simp [hgen,Except.toOption]) x hx
        exact ⟨hxold.used,hshared,hxold.unused⟩
      · subst hx
        refine ⟨?_,fun _ => rfl,nofun⟩
        simp [hold.unused hexchange]
    · obtain ⟨hloop,hg,hderived,hused,hnext⟩ := hmessage
      rw [hg]
      rcases List.mem_or_eq_of_mem_set hx with hx | hx
      · exact hs x hx
      · subst hx
        have hcurrent := hold.current hloop
        refine ⟨?_,fun _ => by rw [hderived,hcurrent],fun h => absurd h hnext⟩
        intro key hk
        rw [hused] at hk
        rw [hderived]
        rcases List.mem_append.mp hk with hk | hk
        · exact hold.used key hk
        · rw [List.mem_singleton.mp hk]
          exact hcurrent
  · obtain ⟨hkey,hhandlers⟩ := hother
    intro x hx
    rw [hkey]
    rcases hhandlers with hsame | hmore
    · rw [hsame] at hx
      exact hs x hx
    · obtain ⟨thread,hmore⟩ := hmore
      rw [hmore] at hx
      rcases List.mem_append.mp hx with hx | hx
      · exact hs x hx
      · rw [List.mem_singleton.mp hx]
        exact keyedHandler_start _ thread

theorem keyed_initial (fresh : Nat → Option Thread) : Keyed (Server.initial fresh) := nofun

/-- Over all interleavings: where no key exchange changes the key under a session in its
loop, no message is decrypted with the key of another connection. -/
theorem isolated_of_keysAgree (fresh : Nat → Option Thread) {as : List ServerAction}
    {s : Server} (hrun : run (Server.step fresh) (Server.initial fresh) as = some s)
    (hmeets : Meets (Server.step fresh) KeysAgree (Server.initial fresh) as) :
    Isolated s := by
  have hkeyed : Keyed s := run_invariant_of_meets (fun _ _ _ => keyed_step)
    (keyed_initial fresh) hmeets hrun
  exact fun h hh => (hkeyed h hh).used

def sameKeyRun : List ServerAction :=
  [.accept (.connection 4) true,.register,.recv 0 (recv [50,57]),
    .accept (.connection 5) true,.recv 1 (recv [50,57]),.register,
    .recv 0 (recv [105]),.recv 1 (recv [106])]

theorem isolated_of_same_key :
    Isolated ((run (Server.step (fun _ => none)) (Server.initial (fun _ => none))
      sameKeyRun).get (by decide +kernel)) :=
  isolated_of_keysAgree (fun _ => none) (Option.some_get _).symm (by decide +kernel)

/-- The second client presents 30: the first one's message is decrypted with 11, not 8. -/
theorem key_of_last_client_wins :
    ¬ ∀ (fresh : Nat → Option Thread) (as : List ServerAction) (s : Server),
      run (Server.step fresh) (Server.initial fresh) as = some s → Isolated s := by
  intro h
  have hisolated := h (fun _ => none)
    [.accept (.connection 4) true,.register,.recv 0 (recv [50,57]),
      .accept (.connection 5) true,.register,.recv 1 (recv [51,48]),.recv 0 (recv [105])]
    ((run (Server.step (fun _ => none)) (Server.initial (fun _ => none))
      [.accept (.connection 4) true,.register,.recv 0 (recv [50,57]),
        .accept (.connection 5) true,.register,.recv 1 (recv [51,48]),
        .recv 0 (recv [105])]).get (by decide +kernel)) (Option.some_get _).symm
  exact absurd hisolated (by decide +kernel)

theorem foreign_key_used {fresh : Nat → Option Thread} {s t : Server} {i j : Nat}
    {received : RecvResult} {h other : Handler} {key : UInt64}
    (hstep : s.step fresh (.recv i received) = some t)
    (hi : s.handlers[i]? = some h) (hphase : h.phase = .keyExchange)
    (hgen : generatePrivateKey received publicParams.1 privateParams = .ok key)
    (hj : s.handlers[j]? = some other) (hloop : other.phase = .receiving)
    (hne : other.derived ≠ some key) {chunk : Chunk (maxBufferSize - 1)}
    (htext : decodedText key chunk.bytes ≠ exitText) :
    ∃ u, t.step fresh (.recv j (.data chunk)) = some u ∧ ¬ Isolated u := by
  have hrunning : s.fault = none := by
    by_contra hfault
    rw [step_of_fault hfault] at hstep
    cases hstep
  have hij : i ≠ j := by
    intro heq
    subst heq
    rw [hi] at hj
    cases hj
    rw [hphase] at hloop
    cases hloop
  have hreceive := receive_keyExchange s.globals hphase received
  rw [hgen] at hreceive
  rw [step_recv_ok hrunning hi (by simp [hphase]) hreceive] at hstep
  have ht := Option.some.inj hstep
  have hrunning' : t.fault = none := by rw [← ht,← hrunning]
  have hkey : t.globals.privateKey = key := by rw [← ht]
  have hj' : t.handlers[j]? = some other := by rw [← ht,List.getElem?_set_ne hij,hj]
  have hmessage := receive_message t.globals hloop chunk (hkey ▸ htext)
  refine ⟨_,step_recv_ok hrunning' hj' (by simp [hloop]) hmessage,fun hisolated => ?_⟩
  obtain ⟨hlt,_⟩ := List.getElem?_eq_some_iff.mp hj'
  exact hne (hkey ▸ hisolated _ (List.mem_set hlt _) t.globals.privateKey (by simp))

/-- The end of one session as one session's own affair: the handler has left its loop
with its socket closed and is out of the pool, and nothing else has changed. -/
structure SessionEnds (s : Server) (i : Nat) (t : Server) : Prop where
  running : t.fault = none
  left : ∃ h, t.handlers[i]? = some h ∧ h.phase = .finished
  pooled : ∀ h, s.handlers[i]? = some h →
    removeFromPool s.globals.pool h.self = .ok t.globals.pool
  others : ∀ j, j ≠ i → t.handlers[j]? = s.handlers[j]?

/-- The exit command is the one way out of the loop that ends only its own session. -/
theorem exit_ends_session (fresh : Nat → Option Thread) {s : Server}
    (hrunning : s.fault = none) {i : Nat} {h : Handler} (hi : s.handlers[i]? = some h)
    (hloop : h.phase = .receiving) {chunk : Chunk (maxBufferSize - 1)}
    (htext : decodedText s.globals.privateKey chunk.bytes = exitText) {pool : ThreadPool}
    (hpool : removeFromPool s.globals.pool h.self = .ok pool) :
    ∃ t, s.step fresh (.recv i (.data chunk)) = some t ∧ SessionEnds s i t := by
  have hreceive := receive_exit s.globals hloop chunk htext
  rw [hpool] at hreceive
  obtain ⟨hlt,_⟩ := List.getElem?_eq_some_iff.mp hi
  refine ⟨_,step_recv_ok hrunning hi (by simp [hloop]) hreceive,hrunning,
    ⟨_,List.getElem?_set_self hlt,rfl⟩,?_,?_⟩
  · intro h' hi'
    rw [hi] at hi'
    cases hi'
    exact hpool
  · intro j hj
    exact List.getElem?_set_ne (Ne.symm hj)

/-- A recv of 0 is a null pointer in strlen or sscanf, a recv of -1 is an exit. -/
def RecvResult.ends : RecvResult → Option Fault
  | .closed => some .nullDeref
  | .error => some .exitFailure
  | .data _ => none

/-- In every state, whatever the handler waits for: the end of one connection ends the
process, after which no session takes a step. -/
theorem disconnect_ends_process (fresh : Nat → Option Thread) {s : Server}
    (hrunning : s.fault = none) {i : Nat} {h : Handler} (hi : s.handlers[i]? = some h)
    (hlive : h.phase ≠ .finished) {received : RecvResult} {fault : Fault}
    (hends : received.ends = some fault) :
    ∃ t, s.step fresh (.recv i received) = some t ∧ t.fault = some fault ∧
      (∀ a, t.step fresh a = none) ∧ ¬ SessionEnds s i t := by
  have hreceive : h.receive s.globals received = .error fault := by
    cases received with
    | error =>
      cases hends
      exact receive_error s.globals hlive
    | closed =>
      cases hends
      exact receive_closed s.globals hlive
    | data chunk => cases hends
  refine ⟨_,step_recv_error hrunning hi hlive hreceive,rfl,step_of_fault nofun,?_⟩
  intro hsession
  exact absurd hsession.running nofun

def oneClient : Server :=
  { Server.initial (fun _ => none) with handlers := [Handler.start ⟨0,4,true⟩] }

theorem disconnect_before_key :
    ∃ t, oneClient.step (fun _ => none) (.recv 0 .closed) = some t ∧
      t.fault = some .nullDeref ∧ (∀ a, t.step (fun _ => none) a = none) ∧
      ¬ SessionEnds oneClient 0 t :=
  disconnect_ends_process (fun _ => none) rfl rfl (by decide) rfl

theorem disconnect_is_not_isolated :
    ¬ ∀ (fresh : Nat → Option Thread) (as : List ServerAction) (s : Server),
      run (Server.step fresh) (Server.initial fresh) as = some s →
      ∀ i received t, received.ends ≠ none →
        s.step fresh (.recv i received) = some t → SessionEnds s i t := by
  intro h
  have hsession := h (fun _ => none) [.accept (.connection 4) true,.register] oneClient
    (by decide +kernel) 0 .closed { oneClient with fault := some .nullDeref } (by decide)
    (by decide +kernel)
  exact absurd hsession.running nofun

end CTalk
