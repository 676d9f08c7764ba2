import CTalk.Peers
import CTalk.ServerMemory

/-! ui.c and server.c: the server half of each peer is a run of the accept loop and its
handlers, whatever the two peers do. -/

set_option autoImplicit false

namespace CTalk
open ByteStream Transition

/-- What a step makes the server of y do. Its accept loop adds the thread to the pool before
any handler runs. -/
def serverSteps (y : Peer) (w : World) : PeerAction → List ServerAction
  | .connect x =>
    if y = x.other ∧ (w y).started ∧ ¬ (w y).exited then
      [.accept (.connection (w y).connections.length) true,.register]
    else []
  | .receive x i count =>
    if y = x then
      match (w y).connections[i]? with
      | none => []
      | some c => [.recv i (recv ((bytesOf c.inFlight).take count))]
    else []
  | _ => []

/-- The server as the peer's process holds it. A server that ended took the process with
it. -/
structure Hosts (n : Node) (s : Server) : Prop where
  globals : s.globals = n.globals
  handlers : s.handlers = n.connections.map Connection.handler
  unpooled : s.unpooled = none
  running : n.exited = false → s.fault = none

structure Unseen (n m : Node) : Prop where
  globals : m.globals = n.globals
  handlers : m.connections.map Connection.handler = n.connections.map Connection.handler
  exited : m.exited = false → n.exited = false

theorem hosts_unseen {n m : Node} {s : Server} (h : Hosts n s) (hm : Unseen n m) : Hosts m s where
  globals := by rw [hm.globals,h.globals]
  handlers := by rw [hm.handlers,h.handlers]
  unpooled := h.unpooled
  running := fun hlive => h.running (hm.exited hlive)

section hosts
variable (fresh : Nat → Option Thread) {n : Node} {s : Server}

theorem hosts_accept (h : Hosts n s) (hs : FaultsFromOutside s) (hlive : n.exited = false) :
    ∃ s', run (Server.step fresh) s
      [.accept (.connection n.connections.length) true,.register] = some s' ∧
      Hosts n.accept s' := by
  have hrunning := h.running hlive
  have hlength : s.handlers.length = n.connections.length := by
    rw [h.handlers,List.length_map]
  have hadd := addToPool_of_size_zero hs.size fresh
  refine ⟨{ s with handlers := s.handlers ++
    [Handler.start ⟨n.connections.length,n.connections.length,true⟩] },?_,?_⟩
  · simp [Server.step,hrunning,h.unpooled,hlength,hadd]
  · refine ⟨h.globals,?_,h.unpooled,fun _ => hrunning⟩
    simp [Node.accept,h.handlers]

theorem hosts_receive (h : Hosts n s) (hlive : n.exited = false) {i count : Nat} {m : Node}
    (hm : n.receive i count = some m) :
    ∃ c s', n.connections[i]? = some c ∧
      s.step fresh (.recv i (recv ((bytesOf c.inFlight).take count))) = some s' ∧
      Hosts m s' := by
  have hrunning := h.running hlive
  obtain ⟨c,hi,hphase,_,_,_,_⟩ := receive_inv hm
  have hhandler : s.handlers[i]? = some c.handler := by
    rw [h.handlers,List.getElem?_map,hi,Option.map_some]
  have hread := (bytesOf_cutParcels count c.inFlight).1
  unfold Node.receive at hm
  rw [hi] at hm
  simp only at hm
  split at hm
  · cases hm
  · rw [hread] at hm
    split at hm
    · rename_i fault hreceive
      rw [← h.globals] at hreceive
      cases hm
      exact ⟨c,_,hi,step_recv_error hrunning hhandler hphase hreceive,
        h.globals,h.handlers,h.unpooled,nofun⟩
    · rename_i g handler hreceive
      rw [← h.globals] at hreceive
      cases hm
      refine ⟨c,_,hi,step_recv_ok hrunning hhandler hphase hreceive,
        rfl,?_,h.unpooled,fun _ => hrunning⟩
      rw [List.map_set,h.handlers]

end hosts

theorem handlers_enqueue (n : Node) (j : Nat) (parcel : Parcel) :
    (n.enqueue j parcel).connections.map Connection.handler =
      n.connections.map Connection.handler := by
  unfold Node.enqueue
  split
  · rfl
  · rename_i c hj
    obtain ⟨hlt,hget⟩ := List.getElem?_eq_some_iff.mp hj
    apply List.ext_getElem?
    intro i
    by_cases hij : j = i
    · subst hij
      simp [hlt,hget]
    · simp [List.getElem?_set_ne hij]

theorem unseen_refl (n : Node) : Unseen n n := ⟨rfl,rfl,id⟩

theorem unseen_exit (n : Node) : Unseen n { n with exited := true } :=
  ⟨rfl,rfl,fun hlive => by cases hlive⟩

theorem unseen_start (n : Node) : Unseen n { n with started := true } := ⟨rfl,rfl,id⟩

theorem unseen_enqueue (n : Node) (j : Nat) (parcel : Parcel) : Unseen n (n.enqueue j parcel) where
  globals := by
    unfold Node.enqueue
    split <;> rfl
  handlers := handlers_enqueue n j parcel
  exited := by
    unfold Node.enqueue
    split <;> exact id

theorem unseen_sending (n : Node) (s : Sent) : Unseen n (n.sending s) where
  globals := rfl
  handlers := rfl
  exited := by
    intro hlive
    exact (Bool.or_eq_false_iff.mp hlive).1

def Hosting (fresh : Nat → Option Thread) (y : Peer) (before : List ServerAction) (w : World) :
    Prop :=
  ∃ s, run (Server.step fresh) (Server.initial fresh) before = some s ∧ Hosts (w y) s

section step
variable {fresh : Nat → Option Thread} {y x : Peer} {before : List ServerAction} {w t : World}

theorem Hosting.unseen (h : Hosting fresh y before w) (hunseen : Unseen (w y) (t y)) :
    Hosting fresh y (before ++ []) t := by
  obtain ⟨s,hs,hhosts⟩ := h
  exact ⟨s,by rwa [List.append_nil],hosts_unseen hhosts hunseen⟩

theorem unseen_update {n : Node} (hn : Unseen (w x) n) (y : Peer) :
    Unseen (w y) (Function.update w x n y) := by
  by_cases hy : y = x
  · subst hy
    rwa [Function.update_self]
  · rw [Function.update_of_ne hy]
    exact unseen_refl (w y)

theorem unseen_update_other {n m : Node} (hn : Unseen (w x) n) (hm : Unseen (w x.other) m) (y : Peer) :
    Unseen (w y) (Function.update (Function.update w x.other m) x n y) := by
  by_cases hy : y = x
  · subst hy
    rwa [Function.update_self]
  · rw [Function.update_of_ne hy]
    exact unseen_update hm y

theorem hosting_connect (h : Hosting fresh y before w) (hstep : w.step (.connect x) = some t) :
    Hosting fresh y (before ++ serverSteps y w (.connect x)) t := by
  simp only [World.step] at hstep
  split at hstep
  · cases hstep
  · split at hstep
    · rename_i hopen
      cases hstep
      by_cases hy : y = x.other
      · subst hy
        obtain ⟨s,hs,hhosts⟩ := h
        have hlive : (w x.other).exited = false := by simpa using hopen.2
        obtain ⟨s',hrun,hhosts'⟩ := hosts_accept fresh hhosts (faultsFromOutside_run hs) hlive
        have hsteps : serverSteps x.other w (.connect x) =
            [.accept (.connection (w x.other).connections.length) true,.register] := by
          simp [serverSteps,hopen.1,hlive]
        refine ⟨s',?_,?_⟩
        · rw [run_append,hs,hsteps]
          exact hrun
        · rw [Function.update_of_ne (Ne.symm x.ne_other),Function.update_self]
          exact hhosts'
      · have hnone : serverSteps y w (.connect x) = [] := by simp [serverSteps,hy]
        rw [hnone]
        apply h.unseen
        by_cases hx : y = x
        · subst hx
          rw [Function.update_self]
          exact ⟨rfl,rfl,id⟩
        · rw [Function.update_of_ne hx,Function.update_of_ne hy]
          exact unseen_refl (w y)
    · rename_i hclosed
      cases hstep
      have hnone : serverSteps y w (.connect x) = [] := by
        simp only [serverSteps]
        by_cases hy : y = x.other
        · subst hy
          rw [if_neg (fun hopen => hclosed hopen.2)]
        · rw [if_neg (fun hopen => hy hopen.1)]
      rw [hnone]
      exact h.unseen (unseen_update (unseen_exit (w x)) y)

theorem hosting_send (h : Hosting fresh y before w) {plaintext : Buffer} {sent : SendResult}
    (hstep : w.step (.send x plaintext sent) = some t) :
    Hosting fresh y (before ++ serverSteps y w (.send x plaintext sent)) t := by
  apply h.unseen
  rcases step_send hstep with hempty | hunconnected | htransmit
  · rw [hempty.2]
    exact unseen_refl (w y)
  · rw [hunconnected.2]
    exact unseen_update (unseen_exit (w x)) y
  · obtain ⟨s,j,_,_,_,ht⟩ := htransmit
    rw [ht]
    split
    · exact unseen_update (unseen_sending (w x) s) y
    · exact unseen_update_other (unseen_sending (w x) s) (unseen_enqueue (w x.other) j _) y

theorem hosting_receive (h : Hosting fresh y before w) {i count : Nat}
    (hstep : w.step (.receive x i count) = some t) :
    Hosting fresh y (before ++ serverSteps y w (.receive x i count)) t := by
  obtain ⟨n,hn,ht⟩ := step_receive hstep
  have hlive : (w x).exited = false := by
    simp only [World.step] at hstep
    split at hstep
    · cases hstep
    · rename_i hlive
      simpa using hlive
  by_cases hy : y = x
  · subst hy
    obtain ⟨s,hs,hhosts⟩ := h
    obtain ⟨c,s',hi,hs',hhosts'⟩ := hosts_receive fresh hhosts hlive hn
    refine ⟨s',?_,?_⟩
    · rw [run_append,hs]
      simp [serverSteps,hi,hs']
    · rw [ht,Function.update_self]
      exact hhosts'
  · have hnone : serverSteps y w (.receive x i count) = [] := by simp [serverSteps,hy]
    rw [hnone]
    apply h.unseen
    rw [ht,Function.update_of_ne hy]
    exact unseen_refl (w y)

end step

theorem hosting_step {fresh : Nat → Option Thread} {y : Peer} (before : List ServerAction)
    (w : World) (a : PeerAction) (t : World) (h : Hosting fresh y before w)
    (hstep : w.step a = some t) : Hosting fresh y (before ++ serverSteps y w a) t := by
  cases a with
  | start x =>
    rw [step_start hstep]
    exact h.unseen (unseen_update (unseen_start (w x)) y)
  | connect x => exact hosting_connect h hstep
  | send x plaintext sent => exact hosting_send h hstep
  | receive x i count => exact hosting_receive h hstep

/-- The run of two peers, seen from the server of one of them, is a run of the accept loop
and its handlers: same process variables, same handlers, and no fault as long as the peer
runs. -/
theorem peer_is_server (fresh : Nat → Option Thread) (as : List PeerAction) (t : World)
    (hrun : run World.step (World.initial fresh) as = some t) (y : Peer) :
    ∃ s, run (Server.step fresh) (Server.initial fresh)
        (emitted World.step (serverSteps y) (World.initial fresh) as) = some s ∧
      Hosts (t y) s := by
  have hinitial : Hosting fresh y [] (World.initial fresh) :=
    ⟨Server.initial fresh,rfl,rfl,rfl,rfl,fun _ => rfl⟩
  exact run_emits (I := Hosting fresh y) (C := fun _ _ => True)
    (fun before w a t h _ hstep => hosting_step before w a t h hstep) hinitial
    (meets_true _ as) hrun

theorem peer_is_server_handshakes_first :
    ∃ t s, run World.step (World.initial (fun _ => none)) handshakesFirst = some t ∧
      run (Server.step (fun _ => none)) (Server.initial (fun _ => none))
        (emitted World.step (serverSteps .b) (World.initial (fun _ => none)) handshakesFirst) =
          some s ∧
      Hosts (t .b) s := by
  have hrun : (run World.step (World.initial (fun _ => none)) handshakesFirst).isSome := by
    decide +kernel
  obtain ⟨t,ht⟩ := Option.isSome_iff_exists.mp hrun
  obtain ⟨s,hs,hhosts⟩ := peer_is_server (fun _ => none) handshakesFirst t ht .b
  exact ⟨t,s,ht,hs,hhosts⟩

end CTalk
