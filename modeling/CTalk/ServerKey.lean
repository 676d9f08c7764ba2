import CTalk.Keystream
import CTalk.ServerRuns

/-! server.c: the one key of the process after any run of the server, and what a handler makes
under it of a message that another key encrypted. -/

set_option autoImplicit false

namespace CTalk
open ByteStream Transition

/-- The key of the last key exchange, the latest action in front: the first recv of a
connection sets the process's key, and no other action touches it. -/
def keyAfter : List ServerAction → UInt64
  | [] => 0
  | .recv i received :: earlier =>
    match recvsOf i earlier,generatePrivateKey received publicParams.1 privateParams with
    | [],.ok key => key
    | _,_ => keyAfter earlier
  | _ :: earlier => keyAfter earlier

theorem recvsOf_reverse_eq_nil (i : Nat) (as : List ServerAction) :
    recvsOf i as.reverse = [] ↔ recvsOf i as = [] := by
  rw [recvsOf,List.filterMap_reverse,List.reverse_eq_nil_iff,recvsOf]

theorem keyAfter_first {i : Nat} {received : RecvResult} {earlier : List ServerAction}
    {key : UInt64} (hfirst : recvsOf i earlier = [])
    (hkey : generatePrivateKey received publicParams.1 privateParams = .ok key) :
    keyAfter (.recv i received :: earlier) = key := by
  simp only [keyAfter,hfirst,hkey]

theorem keyAfter_later {i : Nat} {received : RecvResult} {earlier : List ServerAction}
    (hlater : recvsOf i earlier ≠ []) :
    keyAfter (.recv i received :: earlier) = keyAfter earlier := by
  obtain ⟨r,rs,hrs⟩ := List.exists_cons_of_ne_nil hlater
  simp only [keyAfter,hrs]

structure KeyKnown (fresh : Nat → Option Thread) (done : List ServerAction) (s : Server) :
    Prop where
  survives : Survives fresh done s
  key : s.fault = none → s.globals.privateKey = keyAfter done.reverse

theorem keyKnown_initial (fresh : Nat → Option Thread) :
    KeyKnown fresh [] (Server.initial fresh) := ⟨survives_initial fresh,fun _ => rfl⟩

theorem keyKnown_step {fresh : Nat → Option Thread} {done : List ServerAction}
    {s t : Server} {a : ServerAction} (hs : KeyKnown fresh done s)
    (hstep : s.step fresh a = some t) : KeyKnown fresh (done ++ [a]) t := by
  refine ⟨survives_step hs.survives hstep,?_⟩
  obtain ⟨hrunning,hstepped⟩ := Server.stepped_of_step hstep
  have hkey := hs.key hrunning
  rw [List.reverse_append,List.reverse_singleton,List.singleton_append]
  cases hstepped with
  | acceptFails => nofun
  | threadFails => exact fun _ => hkey
  | accepted => exact fun _ => hkey
  | registerFails _ => nofun
  | registered _ => exact fun _ => hkey
  | receiveFails _ _ _ => nofun
  | @received i received h g h' hi hlive hreceive =>
    intro _
    have hwaiting := hs.survives.waiting hrunning i h hi
    rw [← recvsOf_reverse_eq_nil] at hwaiting
    cases received_of_receive hlive hreceive with
    | keyed hphase hgen => rw [keyAfter_first (hwaiting.mpr hphase) hgen]
    | printed hphase htext =>
      rw [keyAfter_later (fun hnil => by simp [hwaiting.mp hnil] at hphase)]
      exact hkey
    | left hphase htext hremove =>
      rw [keyAfter_later (fun hnil => by simp [hwaiting.mp hnil] at hphase)]
      exact hkey

def shownAs (as : List ServerAction) (a : UInt64) (m : List UInt8) : List UInt8 :=
  (xorKey (a ^^^ keyAfter as.reverse) m).takeWhile (fun c => c ≠ 0)

/-- After any run, whatever the other connections sent meanwhile, the process holds the key of
the last key exchange. A message encrypted with a, all of it in one recv, is printed as the
difference between a and that key leaves it, which is the message itself exactly where the two
keys agree as far as it reaches. -/
theorem printed_under_last_key (fresh : Nat → Option Thread) (as : List ServerAction)
    (s : Server) (hrun : run (Server.step fresh) (Server.initial fresh) as = some s)
    (hrunning : s.fault = none) :
    s.globals.privateKey = keyAfter as.reverse ∧
    ∀ (i : Nat) (h : Handler), s.handlers[i]? = some h → h.phase = .receiving →
      ∀ (a : UInt64) (m : List UInt8), Sendable a m →
        ∃ t h', run (Server.step fresh) (Server.initial fresh)
            (as ++ [.recv i (recv (xorKey a m))]) = some t ∧
          t.fault = none ∧ t.handlers[i]? = some h' ∧
          (if shownAs as a m = exitText then h'.phase = .finished ∧ h'.printed = h.printed
            else h'.phase = .receiving ∧ h'.printed = h.printed ++ [shownAs as a m]) ∧
          (shownAs as a m = m ↔ Agree a (keyAfter as.reverse) m.length) := by
  have hknown := run_history (I := KeyKnown fresh) (fun _ _ _ _ hs => keyKnown_step hs)
    (keyKnown_initial fresh) hrun
  have hkey := hknown.key hrunning
  have hempty : s.globals.pool.size = 0 := by rw [hknown.survives.pool]; rfl
  refine ⟨hkey,?_⟩
  intro i h hi hphase a m hm
  have hlive : h.phase ≠ .finished := by simp [hphase]
  obtain ⟨hlt,_⟩ := List.getElem?_eq_some_iff.mp hi
  obtain ⟨chunk,hrecv,hbytes⟩ := hm.chunk
  have hshown : decodedText s.globals.privateKey chunk.bytes = shownAs as a m := by
    rw [hbytes,decodedText_two_keys hm.cipher,hkey]
    rfl
  have hagree : shownAs as a m = m ↔ Agree a (keyAfter as.reverse) m.length := by
    rw [← decodedText_two_keys_iff hm.nulFree hm.cipher,decodedText_two_keys hm.cipher]
    rfl
  rw [run_append,hrun]
  simp only [Option.bind_some,run_cons,run_nil]
  by_cases hexit : shownAs as a m = exitText
  · have hreceive := receive_exit s.globals hphase chunk (hshown.trans hexit)
    rw [removeFromPool_of_size_zero hempty] at hreceive
    rw [hrecv,step_recv_ok hrunning hi hlive hreceive]
    refine ⟨_,_,rfl,hrunning,List.getElem?_set_self hlt,?_,hagree⟩
    rw [if_pos hexit]
    exact ⟨rfl,rfl⟩
  · have hreceive := receive_message s.globals hphase chunk (hshown ▸ hexit)
    rw [hrecv,step_recv_ok hrunning hi hlive hreceive]
    refine ⟨_,_,rfl,hrunning,List.getElem?_set_self hlt,?_,hagree⟩
    rw [if_neg hexit,hshown]
    exact ⟨hphase,rfl⟩

def foreignRun : List ServerAction :=
  [.accept (.connection 4) true,.register,.recv 0 (recv [50,57]),
    .accept (.connection 5) true,.register,.recv 1 (recv [51,48])]

theorem printed_under_last_key_foreign :
    ∃ s h, run (Server.step (fun _ => none)) (Server.initial (fun _ => none)) foreignRun = some s ∧
      s.handlers[0]? = some h ∧ s.globals.privateKey = keyAfter foreignRun.reverse ∧
      ∃ t h', run (Server.step (fun _ => none)) (Server.initial (fun _ => none))
          (foreignRun ++ [.recv 0 (recv (xorKey 8 [97]))]) = some t ∧
        t.fault = none ∧ t.handlers[0]? = some h' ∧
        (if shownAs foreignRun 8 [97] = exitText then h'.phase = .finished ∧ h'.printed = h.printed
          else h'.phase = .receiving ∧ h'.printed = h.printed ++ [shownAs foreignRun 8 [97]]) ∧
        (shownAs foreignRun 8 [97] = [97] ↔ Agree 8 (keyAfter foreignRun.reverse) 1) := by
  have hrun : (run (Server.step (fun _ => none)) (Server.initial (fun _ => none))
      foreignRun).any (fun s => s.fault = none ∧
        s.handlers[0]? = some ⟨⟨0,4,true⟩,.receiving,some 8,[],[]⟩) := by decide +kernel
  obtain ⟨s,hs,hstate⟩ := (Option.any_eq_true _ _).mp hrun
  obtain ⟨hrunning,hi⟩ := of_decide_eq_true hstate
  obtain ⟨hkey,hprinted⟩ := printed_under_last_key (fun _ => none) foreignRun s hs hrunning
  exact ⟨s,_,hs,hi,hkey,hprinted 0 _ hi rfl 8 [97] ⟨by decide,by decide,by decide,by decide +kernel⟩⟩

end CTalk
