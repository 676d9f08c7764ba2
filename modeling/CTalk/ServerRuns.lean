import CTalk.KeyExchange
import CTalk.Peers
import CTalk.Server

/-! server.c over whole runs: which of them the process survives, that a handler among
others stands where its own recvs alone take it, and what honest clients are served. -/

set_option autoImplicit false

namespace CTalk
open ByteStream Transition

namespace Server

inductive Stepped (fresh : Nat → Option Thread) (s : Server) : ServerAction → Server → Prop
  | acceptFails {created} :
      Stepped fresh s (.accept .error created) { s with fault := some .exitFailure }
  | threadFails {fd} : Stepped fresh s (.accept (.connection fd) false) s
  | accepted {fd} : Stepped fresh s (.accept (.connection fd) true) { s with
      handlers := s.handlers ++ [Handler.start ⟨s.handlers.length,fd,true⟩]
      unpooled := some ⟨s.handlers.length,fd,true⟩ }
  | registerFails {thread fault} : addToPool fresh s.globals.pool thread = .error fault →
      Stepped fresh s .register { s with fault := some fault }
  | registered {thread pool} : addToPool fresh s.globals.pool thread = .ok pool →
      Stepped fresh s .register { s with
        globals := { s.globals with pool := pool }
        unpooled := none }
  | receiveFails {i received h fault} : s.handlers[i]? = some h → h.phase ≠ .finished →
      h.receive s.globals received = .error fault →
      Stepped fresh s (.recv i received) { s with fault := some fault }
  | received {i received h g h'} : s.handlers[i]? = some h → h.phase ≠ .finished →
      h.receive s.globals received = .ok (g,h') →
      Stepped fresh s (.recv i received) { s with
        globals := g
        handlers := s.handlers.set i h' }

theorem stepped_of_step {fresh : Nat → Option Thread} {s t : Server} {a : ServerAction}
    (hstep : s.step fresh a = some t) : s.fault = none ∧ Stepped fresh s a t := by
  have hrunning : s.fault = none := by
    by_contra hfault
    rw [step_of_fault hfault] at hstep
    cases hstep
  refine ⟨hrunning,?_⟩
  cases a with
  | accept connection created =>
    simp only [Server.step] at hstep
    split at hstep
    · cases hstep
    · cases connection with
      | error =>
        cases hstep
        exact .acceptFails
      | connection fd =>
        cases created with
        | false =>
          cases hstep
          exact .threadFails
        | true =>
          cases hstep
          exact .accepted
  | register =>
    simp only [Server.step] at hstep
    split at hstep
    · cases hstep
    · split at hstep
      · cases hstep
      · split at hstep
        · rename_i hadd
          cases hstep
          exact .registerFails hadd
        · rename_i hadd
          cases hstep
          exact .registered hadd
  | recv i received =>
    simp only [Server.step] at hstep
    split at hstep
    · cases hstep
    · split at hstep
      · cases hstep
      · rename_i h hi
        split at hstep
        · cases hstep
        · rename_i hlive
          split at hstep
          · rename_i hreceive
            cases hstep
            exact .receiveFails hi hlive hreceive
          · rename_i hreceive
            cases hstep
            exact .received hi hlive hreceive

end Server

inductive Handler.Received (h : Handler) (g : Globals) :
    RecvResult → Globals → Handler → Prop
  | keyed {received key} : h.phase = .keyExchange →
      generatePrivateKey received publicParams.1 privateParams = .ok key →
      Received h g received { g with privateKey := key }
        { h with phase := .receiving, derived := some key }
  | printed {chunk} : h.phase = .receiving →
      decodedText g.privateKey chunk.bytes ≠ exitText →
      Received h g (.data chunk)
        { g with lastReceivedMessage := some (decodedText g.privateKey chunk.bytes) }
        { h with
          keysUsed := h.keysUsed ++ [g.privateKey]
          printed := h.printed ++ [decodedText g.privateKey chunk.bytes] }
  | left {chunk pool} : h.phase = .receiving →
      decodedText g.privateKey chunk.bytes = exitText →
      removeFromPool g.pool h.self = .ok pool →
      Received h g (.data chunk) { g with pool := pool }
        { h with keysUsed := h.keysUsed ++ [g.privateKey], phase := .finished }

section receive
variable {h h' : Handler} {g g' : Globals} {received : RecvResult}

theorem received_of_receive (hlive : h.phase ≠ .finished)
    (hok : h.receive g received = .ok (g',h')) : h.Received g received g' h' := by
  cases hphase : h.phase with
  | keyExchange =>
    rw [receive_keyExchange g hphase] at hok
    cases hkey : generatePrivateKey received publicParams.1 privateParams with
    | error fault =>
      rw [hkey] at hok
      cases hok
    | ok key =>
      rw [hkey] at hok
      cases hok
      exact .keyed hphase hkey
  | receiving =>
    cases received with
    | error =>
      rw [receive_error g hlive] at hok
      cases hok
    | closed =>
      rw [receive_closed g hlive] at hok
      cases hok
    | data chunk =>
      by_cases htext : decodedText g.privateKey chunk.bytes = exitText
      · rw [receive_exit g hphase chunk htext] at hok
        cases hpool : removeFromPool g.pool h.self with
        | error fault =>
          rw [hpool] at hok
          cases hok
        | ok pool =>
          rw [hpool] at hok
          cases hok
          exact .left hphase htext hpool
      · rw [receive_message g hphase chunk htext] at hok
        cases hok
        exact .printed hphase htext
  | finished => exact absurd hphase hlive

theorem Handler.Received.pool_eq (hr : h.Received g received g' h') (hsize : g.pool.size = 0) :
    g'.pool = g.pool := by
  cases hr with
  | keyed _ _ => rfl
  | printed _ _ => rfl
  | left _ _ hremove =>
    rw [removeFromPool_of_size_zero hsize] at hremove
    cases hremove
    rfl

theorem Handler.Received.self_eq (hr : h.Received g received g' h') : h'.self = h.self := by
  cases hr <;> rfl

theorem receive_ok_iff (hsize : g.pool.size = 0) (hlive : h.phase ≠ .finished) :
    (∃ g' h', h.receive g received = .ok (g',h')) ↔ ∃ chunk, received = .data chunk ∧
      (h.phase = .keyExchange → NonzeroNumber (chunk.bytes.takeWhile (fun c => c ≠ 0))) := by
  cases received with
  | error => simp [receive_error g hlive]
  | closed => simp [receive_closed g hlive]
  | data chunk =>
    simp only [RecvResult.data.injEq,exists_eq_left']
    cases hphase : h.phase with
    | keyExchange =>
      rw [receive_keyExchange g hphase,← generatePrivateKey_ok_iff chunk publicParams.1
        privateParams]
      cases generatePrivateKey (.data chunk) publicParams.1 privateParams with
      | error fault => simp [Except.map]
      | ok key => simp [Except.map]
    | receiving =>
      refine iff_of_true ?_ nofun
      by_cases htext : decodedText g.privateKey chunk.bytes = exitText
      · rw [receive_exit g hphase chunk htext,removeFromPool_of_size_zero hsize]
        exact ⟨_,_,rfl⟩
      · rw [receive_message g hphase chunk htext]
        exact ⟨_,_,rfl⟩
    | finished => exact absurd hphase hlive

theorem Handler.Received.congr (hr : h.Received g received g' h') {g₁ : Globals}
    (hkey : h.phase = .receiving → g₁.privateKey = g.privateKey) (hpool : g₁.pool = g.pool) :
    ∃ g₁', h.receive g₁ received = .ok (g₁',h') ∧ g₁'.pool = g'.pool ∧
      (h'.phase = .receiving → g₁'.privateKey = g'.privateKey) := by
  cases hr with
  | keyed hphase hgen =>
    rw [receive_keyExchange g₁ hphase,hgen]
    exact ⟨_,rfl,hpool,fun _ => rfl⟩
  | printed hphase htext =>
    have hkeys := hkey hphase
    rw [← hkeys] at htext ⊢
    rw [receive_message g₁ hphase _ htext]
    exact ⟨_,rfl,hpool,fun _ => rfl⟩
  | left hphase htext hremove =>
    have hkeys := hkey hphase
    rw [← hkeys] at htext ⊢
    rw [receive_exit g₁ hphase _ htext,hpool,hremove]
    exact ⟨_,rfl,rfl,nofun⟩

theorem Handler.run_snoc (h : Handler) (g : Globals) (rs : List RecvResult) (r : RecvResult) :
    h.run g (rs ++ [r]) = (h.run g rs).bind (fun p => p.2.receive p.1 r) := by
  induction rs generalizing h g with
  | nil =>
    simp only [List.nil_append,Handler.run,bind,Except.bind]
    cases h.receive g r <;> rfl
  | cons q rs ih =>
    simp only [List.cons_append,Handler.run,bind,Except.bind]
    cases h.receive g q with
    | error fault => rfl
    | ok p => exact ih p.2 p.1

end receive

def ServerAction.recvOf (i : Nat) : ServerAction → Option RecvResult
  | .recv j received => if j = i then some received else none
  | _ => none

def recvsOf (i : Nat) (as : List ServerAction) : List RecvResult :=
  as.filterMap (ServerAction.recvOf i)

theorem recvsOf_snoc (i : Nat) (as : List ServerAction) (a : ServerAction) :
    recvsOf i (as ++ [a]) = recvsOf i as ++ (a.recvOf i).toList := by
  rw [recvsOf,List.filterMap_append]
  cases h : a.recvOf i <;> simp [h,recvsOf]

theorem recvsOf_snoc_self (i : Nat) (as : List ServerAction) (received : RecvResult) :
    recvsOf i (as ++ [.recv i received]) = recvsOf i as ++ [received] := by
  simp [recvsOf_snoc,ServerAction.recvOf]

theorem recvsOf_snoc_ne {i j : Nat} (hij : i ≠ j) (as : List ServerAction)
    (received : RecvResult) : recvsOf j (as ++ [.recv i received]) = recvsOf j as := by
  simp [recvsOf_snoc,ServerAction.recvOf,hij]

theorem recvsOf_done (i : Nat) (done later : List ServerAction) :
    recvsOf i done <+: recvsOf i (done ++ later) := by
  rw [recvsOf,recvsOf,List.filterMap_append]
  exact List.prefix_append _ _

/-- No accept fails, no connection ends, and each begins with a number other than 0. -/
structure Harmless (as : List ServerAction) : Prop where
  accepts : ∀ created, .accept .error created ∉ as
  stays : ∀ i, ∀ received ∈ recvsOf i as, received.ends = none
  opens : ∀ i chunk, (recvsOf i as).head? = some (.data chunk) →
    NonzeroNumber (chunk.bytes.takeWhile (fun c => c ≠ 0))

theorem harmless_nil : Harmless [] := ⟨nofun,nofun,nofun⟩

theorem Harmless.done {done later : List ServerAction} (h : Harmless (done ++ later)) :
    Harmless done where
  accepts := fun created hmem => h.accepts created (List.mem_append_left _ hmem)
  stays := fun i received hr => h.stays i received ((recvsOf_done i done later).subset hr)
  opens := by
    intro i chunk hchunk
    obtain ⟨rest,hrest⟩ := recvsOf_done i done later
    apply h.opens i chunk
    rw [← hrest,List.head?_append,hchunk]
    rfl

theorem harmless_snoc_of_no_recv {done : List ServerAction} {a : ServerAction}
    (hrecv : ∀ i, a.recvOf i = none) (haccept : ∀ created, a ≠ .accept .error created) :
    Harmless (done ++ [a]) ↔ Harmless done := by
  have hsame : ∀ i, recvsOf i (done ++ [a]) = recvsOf i done := by
    intro i
    simp [recvsOf_snoc,hrecv i]
  constructor
  · exact Harmless.done
  · intro h
    refine ⟨?_,?_,?_⟩
    · intro created hmem
      rcases List.mem_append.mp hmem with hmem | hmem
      · exact h.accepts created hmem
      · exact haccept created (List.mem_singleton.mp hmem).symm
    · intro i
      rw [hsame i]
      exact h.stays i
    · intro i
      rw [hsame i]
      exact h.opens i

theorem RecvResult.ends_eq_none_iff {received : RecvResult} :
    received.ends = none ↔ ∃ chunk, received = .data chunk := by
  cases received <;> simp [RecvResult.ends]

theorem harmless_snoc_recv {done : List ServerAction} {i : Nat} {received : RecvResult} :
    Harmless (done ++ [.recv i received]) ↔ Harmless done ∧ ∃ chunk, received = .data chunk ∧
      (recvsOf i done = [] → NonzeroNumber (chunk.bytes.takeWhile (fun c => c ≠ 0))) := by
  have hself := recvsOf_snoc_self i done received
  constructor
  · intro h
    have hdata : received.ends = none := h.stays i received (by simp [hself])
    obtain ⟨chunk,hchunk⟩ := RecvResult.ends_eq_none_iff.mp hdata
    subst hchunk
    refine ⟨h.done,chunk,rfl,?_⟩
    intro hnil
    apply h.opens i chunk
    rw [hself,hnil]
    rfl
  · intro h
    obtain ⟨hdone,chunk,hchunk,hopen⟩ := h
    subst hchunk
    refine ⟨?_,?_,?_⟩
    · intro created hmem
      rcases List.mem_append.mp hmem with hmem | hmem
      · exact hdone.accepts created hmem
      · cases List.mem_singleton.mp hmem
    · intro j r hr
      by_cases hij : i = j
      · subst hij
        rw [hself] at hr
        rcases List.mem_append.mp hr with hr | hr
        · exact hdone.stays i r hr
        · rw [List.mem_singleton.mp hr]
          rfl
      · rw [recvsOf_snoc_ne hij] at hr
        exact hdone.stays j r hr
    · intro j c hc
      by_cases hij : i = j
      · subst hij
        rw [hself] at hc
        cases hfirst : recvsOf i done with
        | nil =>
          rw [hfirst] at hc
          cases hc
          exact hopen hfirst
        | cons r rs =>
          rw [hfirst] at hc
          exact hdone.opens i c (by rw [hfirst]; exact hc)
      · rw [recvsOf_snoc_ne hij] at hc
        exact hdone.opens j c hc

/-- The pool stays as it was created, and a handler waits for its key until its first recv. -/
structure Survives (fresh : Nat → Option Thread) (done : List ServerAction) (s : Server) :
    Prop where
  pool : s.globals.pool = createThreadPool fresh
  running : s.fault = none ↔ Harmless done
  waiting : s.fault = none → ∀ i h, s.handlers[i]? = some h →
    (recvsOf i done = [] ↔ h.phase = .keyExchange)
  absent : ∀ i, s.handlers.length ≤ i → recvsOf i done = []

theorem survives_initial (fresh : Nat → Option Thread) :
    Survives fresh [] (Server.initial fresh) where
  pool := rfl
  running := iff_of_true rfl harmless_nil
  waiting := nofun
  absent := fun _ _ => rfl

section survives
variable {fresh : Nat → Option Thread} {done : List ServerAction} {s t : Server}

theorem Survives.of_no_recv (hs : Survives fresh done s) (hrunning : s.fault = none)
    {a : ServerAction} (hrecv : ∀ i, a.recvOf i = none)
    (haccept : ∀ created, a ≠ .accept .error created)
    (hpool : t.globals.pool = s.globals.pool) (hfault : t.fault = none)
    (more : List Thread) (hhandlers : t.handlers = s.handlers ++ more.map Handler.start) :
    Survives fresh (done ++ [a]) t where
  pool := hpool.trans hs.pool
  running := by
    rw [harmless_snoc_of_no_recv hrecv haccept]
    exact iff_of_true hfault (hs.running.mp hrunning)
  waiting := by
    intro _ i h hi
    rw [recvsOf_snoc,hrecv i]
    rw [hhandlers] at hi
    by_cases hlt : i < s.handlers.length
    · rw [List.getElem?_append_left hlt] at hi
      simpa using hs.waiting hrunning i h hi
    · have hge := Nat.le_of_not_lt hlt
      rw [List.getElem?_append_right hge,List.getElem?_map] at hi
      obtain ⟨thread,_,hstart⟩ := Option.map_eq_some_iff.mp hi
      rw [← hstart]
      exact iff_of_true (by simp [hs.absent i hge]) rfl
  absent := by
    intro i hi
    rw [hhandlers,List.length_append] at hi
    simp [recvsOf_snoc,hrecv i,hs.absent i (by omega)]

theorem Survives.absent_snoc (hs : Survives fresh done s) {i : Nat} {h : Handler}
    (hi : s.handlers[i]? = some h) (received : RecvResult) {j : Nat}
    (hj : s.handlers.length ≤ j) : recvsOf j (done ++ [.recv i received]) = [] := by
  obtain ⟨hlt,_⟩ := List.getElem?_eq_some_iff.mp hi
  rw [recvsOf_snoc_ne (by omega),hs.absent j hj]

theorem survives_step (hs : Survives fresh done s) {a : ServerAction}
    (hstep : s.step fresh a = some t) : Survives fresh (done ++ [a]) t := by
  obtain ⟨hrunning,hstepped⟩ := Server.stepped_of_step hstep
  have hempty : s.globals.pool.size = 0 := by rw [hs.pool]; rfl
  cases hstepped with
  | @acceptFails created =>
    refine ⟨hs.pool,?_,nofun,?_⟩
    · exact iff_of_false nofun (fun h => h.accepts created (by simp))
    · intro i hi
      simpa [recvsOf_snoc,ServerAction.recvOf] using hs.absent i hi
  | threadFails =>
    exact hs.of_no_recv hrunning (fun _ => rfl) nofun rfl hrunning [] (by simp)
  | @accepted fd =>
    exact hs.of_no_recv hrunning (fun _ => rfl) nofun rfl hrunning
      [⟨s.handlers.length,fd,true⟩] rfl
  | @registerFails thread _ hadd =>
    rw [hs.pool,addToPool_of_size_zero rfl fresh thread] at hadd
    cases hadd
  | @registered thread _ hadd =>
    rw [hs.pool,addToPool_of_size_zero rfl fresh thread] at hadd
    cases hadd
    exact hs.of_no_recv hrunning (fun _ => rfl) nofun hs.pool.symm hrunning []
      (by simp)
  | @receiveFails i received h fault hi hlive hreceive =>
    refine ⟨hs.pool,?_,nofun,fun j => hs.absent_snoc hi received⟩
    refine iff_of_false nofun ?_
    rw [harmless_snoc_recv]
    intro hharmless
    obtain ⟨_,chunk,hchunk,hopen⟩ := hharmless
    obtain ⟨g',h',hok⟩ := (receive_ok_iff hempty hlive).mpr
      ⟨chunk,hchunk,fun hp => hopen ((hs.waiting hrunning i h hi).mpr hp)⟩
    rw [hok] at hreceive
    cases hreceive
  | @received i received h g h' hi hlive hreceive =>
    have hreceived := received_of_receive hlive hreceive
    obtain ⟨hlt,_⟩ := List.getElem?_eq_some_iff.mp hi
    refine ⟨(hreceived.pool_eq hempty).trans hs.pool,?_,?_,?_⟩
    · obtain ⟨chunk,hchunk,hopen⟩ := (receive_ok_iff hempty hlive).mp ⟨g,h',hreceive⟩
      refine iff_of_true hrunning (harmless_snoc_recv.mpr ⟨hs.running.mp hrunning,chunk,hchunk,?_⟩)
      exact fun hnil => hopen ((hs.waiting hrunning i h hi).mp hnil)
    · intro _ j x hj
      by_cases hij : i = j
      · subst hij
        simp only [List.getElem?_set_self hlt,Option.some.injEq] at hj
        subst hj
        refine iff_of_false (by simp [recvsOf_snoc_self]) ?_
        cases hreceived <;> simp_all
      · simp only [List.getElem?_set_ne hij] at hj
        rw [recvsOf_snoc_ne hij]
        exact hs.waiting hrunning j x hj
    · intro j hj
      simp only [List.length_set] at hj
      exact hs.absent_snoc hi received hj

end survives

/-- The process runs on exactly as long as its inputs are harmless: what a client sends
behind its first bytes can end nothing but its own session. -/
theorem running_iff_harmless (fresh : Nat → Option Thread) (as : List ServerAction) (s : Server)
    (hrun : run (Server.step fresh) (Server.initial fresh) as = some s) :
    s.fault = none ↔ Harmless as :=
  (run_history (I := Survives fresh) (fun _ _ _ _ hs => survives_step hs)
    (survives_initial fresh) hrun).running

theorem running_iff_harmless_same_key :
    ∃ s, run (Server.step (fun _ => none)) (Server.initial (fun _ => none)) sameKeyRun = some s ∧
      (s.fault = none ↔ Harmless sameKeyRun) := by
  have hrun : (run (Server.step (fun _ => none)) (Server.initial (fun _ => none))
      sameKeyRun).isSome := by decide +kernel
  obtain ⟨s,hs⟩ := Option.isSome_iff_exists.mp hrun
  exact ⟨s,hs,running_iff_harmless (fun _ => none) sameKeyRun s hs⟩

def Alone (fresh : Nat → Option Thread) (done : List ServerAction) (i : Nat) (h : Handler) :
    Prop :=
  ∃ g, (Handler.start h.self).run (Server.initial fresh).globals (recvsOf i done) = .ok (g,h) ∧
    g.pool = createThreadPool fresh ∧ (h.phase = .receiving → h.derived = some g.privateKey)

structure Separate (fresh : Nat → Option Thread) (done : List ServerAction) (s : Server) :
    Prop where
  survives : Survives fresh done s
  keyed : Keyed s
  alone : s.fault = none → ∀ i h, s.handlers[i]? = some h → Alone fresh done i h

theorem separate_initial (fresh : Nat → Option Thread) :
    Separate fresh [] (Server.initial fresh) :=
  ⟨survives_initial fresh,keyed_initial fresh,nofun⟩

section separate
variable {fresh : Nat → Option Thread} {done : List ServerAction} {s t : Server}

theorem alone_start (hs : Survives fresh done s) {i : Nat} (hi : s.handlers.length ≤ i)
    (thread : Thread) : Alone fresh done i (Handler.start thread) := by
  refine ⟨(Server.initial fresh).globals,?_,rfl,nofun⟩
  rw [hs.absent i hi]
  rfl

theorem alone_snoc {i : Nat} {received : RecvResult} {h h' : Handler} {g : Globals}
    (halone : Alone fresh done i h) (hold : KeyedHandler s.globals.privateKey h)
    (hnew : KeyedHandler g.privateKey h') (hs : Survives fresh done s)
    (hreceived : h.Received s.globals received g h') :
    Alone fresh (done ++ [.recv i received]) i h' := by
  obtain ⟨g₀,hrun,hpool,hkey⟩ := halone
  have hempty : s.globals.pool.size = 0 := by rw [hs.pool]; rfl
  have hsame : h.phase = .receiving → g₀.privateKey = s.globals.privateKey :=
    fun hp => Option.some.inj ((hkey hp).symm.trans (hold.current hp))
  obtain ⟨g₁,hreceive,hpool₁,hkey₁⟩ := hreceived.congr hsame (hpool.trans hs.pool.symm)
  refine ⟨g₁,?_,?_,?_⟩
  · rw [recvsOf_snoc_self,Handler.run_snoc,hreceived.self_eq,hrun]
    exact hreceive
  · rw [hpool₁,hreceived.pool_eq hempty,hs.pool]
  · intro hp
    rw [hkey₁ hp]
    exact hnew.current hp

theorem separate_step (hs : Separate fresh done s) {a : ServerAction} (hagree : KeysAgree s a)
    (hstep : s.step fresh a = some t) : Separate fresh (done ++ [a]) t := by
  obtain ⟨hrunning,hstepped⟩ := Server.stepped_of_step hstep
  have hkeyed := keyed_step hs.keyed hagree hstep
  refine ⟨survives_step hs.survives hstep,hkeyed,fun hfault => ?_⟩
  have halone := hs.alone hrunning
  have hquiet : ∀ i h, Alone fresh done i h → (∀ j, a.recvOf j = none) →
      Alone fresh (done ++ [a]) i h := by
    intro i h hi hrecv
    rw [Alone,recvsOf_snoc,hrecv i]
    simpa [Alone] using hi
  cases hstepped with
  | acceptFails => cases hfault
  | registerFails _ => cases hfault
  | receiveFails _ _ _ => cases hfault
  | threadFails => exact fun i h hi => hquiet i h (halone i h hi) (fun _ => rfl)
  | registered _ => exact fun i h hi => hquiet i h (halone i h hi) (fun _ => rfl)
  | accepted =>
    intro i h hi
    apply hquiet i h ?_ (fun _ => rfl)
    simp only [List.getElem?_append] at hi
    split at hi
    · exact halone i h hi
    · rename_i hge
      have hstart := List.mem_of_getElem? hi
      rw [List.mem_singleton.mp hstart]
      exact alone_start hs.survives (Nat.le_of_not_lt hge) _
  | @received i received h g h' hi hlive hreceive =>
    obtain ⟨hlt,_⟩ := List.getElem?_eq_some_iff.mp hi
    intro j x hj
    by_cases hij : i = j
    · subst hij
      simp only [List.getElem?_set_self hlt,Option.some.injEq] at hj
      subst hj
      exact alone_snoc (halone i h hi) (hs.keyed h (List.mem_of_getElem? hi))
        (hkeyed h' (List.mem_set hlt h')) hs.survives (received_of_receive hlive hreceive)
    · simp only [List.getElem?_set_ne hij] at hj
      obtain ⟨g₀,hrun⟩ := halone j x hj
      rw [Alone,recvsOf_snoc_ne hij]
      exact ⟨g₀,hrun⟩

end separate

/-- Where the key exchanges agree, every interleaving leaves each handler in the state, with
the messages printed and the keys used, that its own recvs alone lead to. -/
theorem handler_runs_alone (fresh : Nat → Option Thread) (as : List ServerAction) (s : Server)
    (hrun : run (Server.step fresh) (Server.initial fresh) as = some s)
    (hmeets : Meets (Server.step fresh) KeysAgree (Server.initial fresh) as)
    (hfault : s.fault = none) (i : Nat) (h : Handler) (hi : s.handlers[i]? = some h) :
    ∃ g, (Handler.start h.self).run (Server.initial fresh).globals (recvsOf i as) =
      .ok (g,h) := by
  have hseparate := run_history_of_meets (I := Separate fresh)
    (fun _ _ _ _ hs hagree => separate_step hs hagree) (separate_initial fresh) hmeets hrun
  obtain ⟨g,hg,_⟩ := hseparate.alone hfault i h hi
  exact ⟨g,hg⟩

theorem handler_runs_alone_same_key :
    ∃ g, (Handler.start ⟨0,4,true⟩).run (Server.initial (fun _ => none)).globals
      (recvsOf 0 sameKeyRun) = .ok (g,⟨⟨0,4,true⟩,.receiving,some 8,[8],[[97]]⟩) :=
  handler_runs_alone (fun _ => none) sameKeyRun
    ((run (Server.step (fun _ => none)) (Server.initial (fun _ => none)) sameKeyRun).get
      (by decide +kernel)) (Option.some_get _).symm (by decide +kernel) (by decide +kernel) 0
    ⟨⟨0,4,true⟩,.receiving,some 8,[8],[[97]]⟩ (by decide +kernel)

/-- What a client sends behind its public key: messages, and /exit where it leaves. -/
structure Client where
  sends : List (ChatSend sharedKey)
  leaves : Bool

def Client.messages (c : Client) : List (List UInt8) :=
  c.sends.map ChatSend.text ++ if c.leaves then [exitText] else []

def Client.recvs (c : Client) : List RecvResult :=
  recv publicKeyWire :: c.messages.map (fun m => recv (xorKey sharedKey m))

section client
variable (c : Client)

theorem Client.sendable : ∀ m ∈ c.messages, Sendable sharedKey m := by
  intro m hm
  rcases List.mem_append.mp hm with hm | hm
  · obtain ⟨s,_,hs⟩ := List.mem_map.mp hm
    exact hs ▸ s.sendable
  · split at hm
    · rw [List.mem_singleton.mp hm]
      exact ⟨by decide,by decide,by decide,by decide⟩
    · cases hm

theorem Client.text_ne_exit : ∀ m ∈ c.sends.map ChatSend.text, m ≠ exitText := by
  intro m hm
  obtain ⟨s,_,hs⟩ := List.mem_map.mp hm
  exact hs ▸ s.notExit

theorem Client.recvs_data : ∀ r ∈ c.recvs, r.ends = none := by
  intro r hr
  rw [RecvResult.ends_eq_none_iff]
  rcases List.mem_cons.mp hr with hr | hr
  · exact ⟨_,hr.trans (recv_of_le (by decide +kernel) publicKeyWire_short)⟩
  · obtain ⟨m,hm,hmr⟩ := List.mem_map.mp hr
    obtain ⟨chunk,hrecv,_⟩ := (c.sendable m hm).recv
    exact ⟨chunk,hmr.symm.trans hrecv⟩

theorem Client.come {ms : List (List UInt8)} (hms : ms <+: c.messages) :
    ms.takeWhile (fun m => m ≠ exitText) = (c.sends.map ChatSend.text).take ms.length ∧
      (exitText ∈ ms ↔ c.leaves ∧ ms = c.messages) := by
  have htexts : ∀ m ∈ c.sends.map ChatSend.text, decide (m ≠ exitText) = true :=
    fun m hm => decide_eq_true (c.text_ne_exit m hm)
  have hsome : ∀ ms, ms <+: c.sends.map ChatSend.text →
      ms.takeWhile (fun m => m ≠ exitText) = (c.sends.map ChatSend.text).take ms.length ∧
        exitText ∉ ms := by
    intro ms hms
    refine ⟨?_,fun hmem => c.text_ne_exit _ (hms.subset hmem) rfl⟩
    rw [← List.prefix_iff_eq_take.mp hms,List.takeWhile_eq_self_iff]
    exact fun m hm => htexts m (hms.subset hm)
  cases hleaves : c.leaves with
  | false =>
    simp only [Client.messages,hleaves,Bool.false_eq_true,if_false,List.append_nil] at hms
    obtain ⟨hprinted,hstays⟩ := hsome ms hms
    exact ⟨hprinted,iff_of_false hstays (by simp)⟩
  | true =>
    simp only [Client.messages,hleaves,if_true] at hms ⊢
    rcases List.prefix_concat_iff.mp hms with hall | hin
    · subst hall
      refine ⟨?_,by simp⟩
      rw [List.takeWhile_append_of_pos htexts,List.take_of_length_le (by simp)]
      simp
    · obtain ⟨hprinted,hstays⟩ := hsome ms hin
      refine ⟨hprinted,iff_of_false hstays ?_⟩
      intro hlast
      have hle := hin.length_le
      rw [hlast.2,List.length_append,List.length_singleton] at hle
      omega

end client

theorem client_alone (c : Client) (self : Thread) {g : Globals} (hsize : g.pool.size = 0)
    {rs : List RecvResult} (hrs : rs <+: c.recvs) :
    ∃ g' h', (Handler.start self).run g rs = .ok (g',h') ∧
      h'.printed = (c.sends.map ChatSend.text).take (rs.length - 1) ∧
      (h'.phase = .finished ↔ c.leaves ∧ rs = c.recvs) := by
  cases rs with
  | nil => exact ⟨g,_,rfl,rfl,iff_of_false nofun (fun h => by simp [Client.recvs] at h)⟩
  | cons r rs =>
    obtain ⟨hr,hrest⟩ := List.cons_prefix_cons.mp hrs
    obtain ⟨ms,hms,hmap⟩ := List.prefix_map_iff.mp hrest
    subst hr hmap
    obtain ⟨hprinted,hleft⟩ := c.come hms
    obtain ⟨g',h',hrun,htexts,hfinished⟩ := run_messages (h := Handler.keyed self sharedKey)
      (g := { g with privateKey := sharedKey }) rfl rfl hsize
      (fun m hm => c.sendable m (hms.subset hm))
    refine ⟨g',h',?_,?_,?_⟩
    · rw [run_start self g generatePrivateKey_publicKeyWire]
      exact hrun
    · rw [htexts,hprinted,List.length_cons,List.length_map]
      rfl
    · rw [hfinished,hleft,Client.recvs,List.cons.injEq]
      refine and_congr_right (fun _ => ⟨fun h => ⟨rfl,by rw [h]⟩,fun h => ?_⟩)
      have hlen := congrArg List.length h.2
      rw [List.length_map,List.length_map] at hlen
      exact hms.eq_of_length hlen

structure Serves (fresh : Nat → Option Thread) (done : List ServerAction) (s : Server) :
    Prop where
  survives : Survives fresh done s
  shared : ∀ h ∈ s.handlers, h.phase = .receiving → h.derived = some sharedKey

theorem serves_step {fresh : Nat → Option Thread} {clients : Nat → Client}
    {done : List ServerAction} {s t : Server} {a : ServerAction} (hs : Serves fresh done s)
    (hhonest : ∀ i, recvsOf i (done ++ [a]) <+: (clients i).recvs)
    (hstep : s.step fresh a = some t) :
    KeysAgree s a ∧ Serves fresh (done ++ [a]) t := by
  obtain ⟨hrunning,hstepped⟩ := Server.stepped_of_step hstep
  -- the first recv of a connection can only be the one public key
  have hfirst : ∀ i received h key, a = .recv i received → s.handlers[i]? = some h →
      h.phase = .keyExchange →
      generatePrivateKey received publicParams.1 privateParams = .ok key → key = sharedKey := by
    intro i received h key ha hi hphase hgen
    have hcome := hhonest i
    rw [ha,recvsOf_snoc_self,(hs.survives.waiting hrunning i h hi).mpr hphase] at hcome
    obtain ⟨hreceived,_⟩ := List.cons_prefix_cons.mp hcome
    rw [hreceived,generatePrivateKey_publicKeyWire] at hgen
    exact (Except.ok.inj hgen).symm
  constructor
  · cases a with
    | recv i received =>
      intro h hi hphase key hkey other hother hloop
      have hgen : generatePrivateKey received publicParams.1 privateParams = .ok key := by
        cases hresult : generatePrivateKey received publicParams.1 privateParams with
        | error fault => simp [hresult,Except.toOption] at hkey
        | ok k =>
          simp only [hresult,Except.toOption,Option.mem_def,Option.some.injEq] at hkey
          rw [hkey]
      rw [hfirst i received h key rfl hi hphase hgen]
      exact hs.shared other hother hloop
    | accept connection created => trivial
    | register => trivial
  · refine ⟨survives_step hs.survives hstep,?_⟩
    cases hstepped with
    | acceptFails => exact hs.shared
    | threadFails => exact hs.shared
    | registerFails _ => exact hs.shared
    | registered _ => exact hs.shared
    | receiveFails _ _ _ => exact hs.shared
    | accepted =>
      intro x hx hloop
      rcases List.mem_append.mp hx with hx | hx
      · exact hs.shared x hx hloop
      · rw [List.mem_singleton.mp hx] at hloop
        cases hloop
    | @received i received h g h' hi hlive hreceive =>
      intro x hx hloop
      rcases List.mem_or_eq_of_mem_set hx with hx | hx
      · exact hs.shared x hx hloop
      · subst hx
        cases received_of_receive hlive hreceive with
        | keyed hphase hgen => rw [hfirst i received h _ rfl hi hphase hgen]
        | printed hphase _ => exact hs.shared h (List.mem_of_getElem? hi) hphase
        | left _ _ _ => cases hloop

theorem harmless_of_honest {clients : Nat → Client} {as : List ServerAction}
    (haccepts : ∀ created, .accept .error created ∉ as)
    (hhonest : ∀ i, recvsOf i as <+: (clients i).recvs) : Harmless as where
  accepts := haccepts
  stays := fun i r hr => (clients i).recvs_data r ((hhonest i).subset hr)
  opens := by
    intro i chunk hhead
    obtain ⟨rest,hrest⟩ := hhonest i
    have hfirst : some (RecvResult.data chunk) = some (recv publicKeyWire) := by
      rw [← hhead]
      have h := congrArg List.head? hrest
      rw [List.head?_append,hhead] at h
      rw [hhead]
      exact h
    rw [← generatePrivateKey_ok_iff chunk publicParams.1 privateParams,Option.some.inj hfirst]
    exact ⟨sharedKey,generatePrivateKey_publicKeyWire⟩

/-- Any number of honest clients, in any order of their steps: the process runs on, each
handler has printed its own client's messages as far as they have come, and a session ends
when its client has left. -/
theorem honest_clients_served (fresh : Nat → Option Thread) (clients : Nat → Client)
    (as : List ServerAction) (s : Server)
    (hrun : run (Server.step fresh) (Server.initial fresh) as = some s)
    (haccepts : ∀ created, .accept .error created ∉ as)
    (hhonest : ∀ i, recvsOf i as <+: (clients i).recvs) :
    s.fault = none ∧ ∀ i h, s.handlers[i]? = some h →
      h.printed = ((clients i).sends.map ChatSend.text).take ((recvsOf i as).length - 1) ∧
      (h.phase = .finished ↔ (clients i).leaves ∧ recvsOf i as = (clients i).recvs) := by
  have hclosed : ∀ done later : List ServerAction,
      (∀ i, recvsOf i (done ++ later) <+: (clients i).recvs) →
      ∀ i, recvsOf i done <+: (clients i).recvs :=
    fun done later h i => (recvsOf_done i done later).trans (h i)
  obtain ⟨hmeets,hserves⟩ := meets_of_history (I := Serves fresh)
    (P := fun as => ∀ i, recvsOf i as <+: (clients i).recvs) hclosed
    (fun _ _ _ _ hs hhonest hstep => serves_step hs hhonest hstep)
    ⟨survives_initial fresh,nofun⟩ hhonest hrun
  have hfault := hserves.survives.running.mpr (harmless_of_honest haccepts hhonest)
  have hseparate := run_history_of_meets (I := Separate fresh)
    (fun _ _ _ _ hs hagree => separate_step hs hagree) (separate_initial fresh) hmeets hrun
  refine ⟨hfault,fun i h hi => ?_⟩
  obtain ⟨g,hg,_⟩ := hseparate.alone hfault i h hi
  obtain ⟨g',h',hclient,hprinted,hleft⟩ := client_alone (clients i) h.self
    (g := (Server.initial fresh).globals) rfl (hhonest i)
  rw [hg] at hclient
  cases hclient
  exact ⟨hprinted,hleft⟩

def twoClients (i : Nat) : Client :=
  if i = 0 then ⟨[sendA],true⟩ else ⟨[sendA,sendA],false⟩

def honestRun : List ServerAction :=
  [.accept (.connection 4) true,.register,.accept (.connection 5) true,
    .recv 1 (recv publicKeyWire),.register,.recv 0 (recv publicKeyWire),.recv 1 (recv [105]),
    .recv 0 (recv [105]),.recv 0 (recv (xorKey sharedKey exitText)),.recv 1 (recv [105])]

theorem honest_clients_served_two :
    ∃ s, run (Server.step (fun _ => none)) (Server.initial (fun _ => none)) honestRun = some s ∧
      s.fault = none ∧ ∀ i h, s.handlers[i]? = some h →
        h.printed = ((twoClients i).sends.map ChatSend.text).take
          ((recvsOf i honestRun).length - 1) ∧
        (h.phase = .finished ↔ (twoClients i).leaves ∧
          recvsOf i honestRun = (twoClients i).recvs) := by
  have hrun : (run (Server.step (fun _ => none)) (Server.initial (fun _ => none))
      honestRun).isSome := by decide +kernel
  obtain ⟨s,hs⟩ := Option.isSome_iff_exists.mp hrun
  refine ⟨s,hs,honest_clients_served (fun _ => none) twoClients honestRun s hs ?_ ?_⟩
  · intro created
    simp [honestRun]
  · intro i
    match i with
    | 0 => decide +kernel
    | 1 => decide +kernel
    | i + 2 =>
      have hnone : recvsOf (i + 2) honestRun = [] := by
        simp [recvsOf,ServerAction.recvOf,honestRun]
      rw [hnone]
      exact List.nil_prefix

end CTalk
