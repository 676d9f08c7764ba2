import CTalk.Connect
import CTalk.Console
import CTalk.Session
import CTalk.Transition

/-! c_talk.c: the program on a terminal, from the letters that choose its roles to the loop
that sends what is typed. -/

set_option autoImplicit false

namespace CTalk
open ByteStream Transition

/-- " %c": the first byte that is no blank, none at the end of the input. -/
def scanfChar (input : List UInt8) : Option UInt8 × List UInt8 :=
  match input.dropWhile isSpace with
  | [] => (none,[])
  | c :: cs => (some c,cs)

def defaultListeningPort : UInt16 := 31026

/-- "192.168.1.36" -/
def defaultConnectionHost : Buffer := Buffer.ofBytes [49,57,50,46,49,54,56,46,49,46,51,54]

structure LaunchAnswers where
  firstThread : Bool
  secondThread : Bool
  surroundings : Surroundings

/-- How main gets by its letters: it returns a status, which ends its server thread as
well, or it comes to its loop with the rest of the input. -/
inductive Launch where
  | returned : Nat → Launch
  | chatting : List UInt8 → Launch
  deriving DecidableEq, Repr

/-- main up to its loop. A letter that cannot be read leaves the one before. -/
def launch (answers : LaunchAnswers) (input : List UInt8) : Except Fault Launch :=
  let (first,input) := scanfChar input
  match first with
  | none => .error .uninitRead
  | some value =>
    if value = 115 ∧ ¬ answers.firstThread then .ok (.returned 1)
    else
      let (second,input) := scanfChar input
      let value := second.getD value
      if value = 99 then do
        let _ ← (initializeClient answers.surroundings defaultListeningPort
          defaultConnectionHost).result
        let (p,g) := publicParams
        let _ ← (sendPublicKey p g privateParams answers.surroundings.sent).result
        let (third,input) := scanfChar input
        let value := third.getD value
        if value = 115 ∧ ¬ answers.secondThread then .ok (.returned 1)
        else .ok (.chatting input)
      else .ok (.returned 0)

structure Typed where
  plaintext : List UInt8
  key : UInt64
  wire : List UInt8
  deriving DecidableEq

/-- The loop has no way out but a failed send, and the message of that send is among those
given to it. -/
structure Terminal where
  input : List UInt8
  given : List Typed
  fault : Option Fault
  deriving DecidableEq

/-- The value of private_key in this turn, which a server thread may have changed, and the
kernel's answer to send. -/
structure TerminalTurn where
  privateKey : UInt64
  sent : SendResult

def Terminal.step (s : Terminal) (turn : TerminalTurn) : Option Terminal :=
  if s.fault ≠ none then none
  else
    match getMessage s.input with
    | (none,rest) => some { s with input := rest }
    | (some plaintext,rest) =>
      let sent := encryptAndSend turn.privateKey plaintext turn.sent
      let typed : Typed := ⟨plaintext.text,turn.privateKey,sent.wire⟩
      match sent.result with
      | .error fault => some ⟨rest,s.given ++ [typed],some fault⟩
      | .ok _ => some ⟨rest,s.given ++ [typed],none⟩

def messagesOf (input : List UInt8) : List (List UInt8) := (getMessages input).map Buffer.text

theorem messagesOf_nil : messagesOf [] = [] := by simp [messagesOf,getMessages]

theorem messagesOf_step (input : List UInt8) :
    messagesOf input = (getMessage input).1.toList.map Buffer.text ++
      messagesOf (getMessage input).2 := by
  by_cases hnil : input = []
  · subst hnil
    simp [messagesOf,getMessages,getMessage,fgets]
  · rw [messagesOf,getMessages,if_neg hnil,List.map_append]
    rfl

section step
variable {s t : Terminal} {turn : TerminalTurn}

theorem Terminal.step_inv (hstep : s.step turn = some t) :
    t.input = (getMessage s.input).2 ∧
      t.given = s.given ++ (getMessage s.input).1.toList.map (fun plaintext =>
        ⟨plaintext.text,turn.privateKey,
          (encryptAndSend turn.privateKey plaintext turn.sent).wire⟩) := by
  simp only [Terminal.step] at hstep
  split at hstep
  · cases hstep
  · split at hstep
    · rename_i hnone
      cases hstep
      simp [hnone]
    · rename_i hsome
      split at hstep
      · cases hstep
        simp [hsome]
      · cases hstep
        simp [hsome]

theorem getMessage_shorter {input : List UInt8} (hne : input ≠ []) :
    (getMessage input).2.length < input.length := by
  rw [getMessage_rest hne]
  exact scanLine_rest_lt (by decide) hne

end step

/-- What was given to send and what is still to be read are the messages of the input, and
each turn comes nearer to its end. -/
structure Terminal.Accounts (input : List UInt8) (turns : List TerminalTurn) (s : Terminal) :
    Prop where
  messages : s.given.map Typed.plaintext ++ messagesOf s.input = messagesOf input
  left : s.input.length ≤ input.length - turns.length
  wires : ∀ d ∈ s.given, d.wire <+: (xorKey d.key d.plaintext).takeWhile (fun c => c ≠ 0)

theorem Terminal.accounts_step {input : List UInt8} {done : List TerminalTurn} {s t : Terminal}
    {turn : TerminalTurn} (hs : s.Accounts input done) (hstep : s.step turn = some t) :
    t.Accounts input (done ++ [turn]) := by
  obtain ⟨hinput,hgiven⟩ := Terminal.step_inv hstep
  refine ⟨?_,?_,?_⟩
  · rw [hgiven,hinput,← hs.messages,messagesOf_step s.input,List.map_append,List.append_assoc]
    simp [Function.comp_def]
  · rw [hinput,List.length_append,List.length_singleton]
    have hleft := hs.left
    by_cases hnil : s.input = []
    · rw [hnil]
      exact Nat.zero_le _
    · have hshorter := getMessage_shorter hnil
      omega
  · intro d hd
    rw [hgiven] at hd
    rcases List.mem_append.mp hd with hd | hd
    · exact hs.wires d hd
    · obtain ⟨plaintext,_,hplain⟩ := List.mem_map.mp hd
      rw [← hplain]
      exact wire_isPrefixOf turn.privateKey plaintext turn.sent

theorem Terminal.accounts_start (input : List UInt8) :
    Terminal.Accounts input [] ⟨input,[],none⟩ :=
  ⟨rfl,by simp,nofun⟩

/-- Over any turns, whatever key each of them finds and whatever the kernel takes: no message
is lost, given to send twice or overtaken, each goes out under the key of its turn, and as
many turns as the input has bytes give them all. -/
theorem typed_in_order (input : List UInt8) (turns : List TerminalTurn) (t : Terminal)
    (hrun : run Terminal.step ⟨input,[],none⟩ turns = some t) :
    t.Accounts input turns ∧
      (input.length ≤ turns.length → t.given.map Typed.plaintext = messagesOf input) := by
  have haccounts := run_history (I := Terminal.Accounts input)
    (fun _ _ _ _ hs => Terminal.accounts_step hs) (Terminal.accounts_start input) hrun
  refine ⟨haccounts,fun hlen => ?_⟩
  have hleft := haccounts.left
  have hnil : t.input = [] := List.eq_nil_of_length_eq_zero (by omega)
  have hmessages := haccounts.messages
  rwa [hnil,messagesOf_nil,List.append_nil] at hmessages

def launchTurns : List TerminalTurn := List.replicate 5 ⟨8,.accepted 2⟩

theorem typed_in_order_hi :
    ∃ t, run Terminal.step ⟨[10,104,105,10],[],none⟩ launchTurns = some t ∧
      t.Accounts [10,104,105,10] launchTurns ∧
      ([10,104,105,10].length ≤ launchTurns.length →
        t.given.map Typed.plaintext = messagesOf [10,104,105,10]) := by
  have hrun : (run Terminal.step ⟨[10,104,105,10],[],none⟩ launchTurns).isSome := by
    decide +kernel
  obtain ⟨t,ht⟩ := Option.isSome_iff_exists.mp hrun
  exact ⟨t,ht,typed_in_order [10,104,105,10] launchTurns t ht⟩

def TakesAll (key : UInt64) (s : Terminal) (turn : TerminalTurn) : Prop :=
  turn.privateKey = key ∧ ∀ m ∈ (getMessage s.input).1, turn.sent = .accepted m.strlen

instance (key : UInt64) (s : Terminal) (turn : TerminalTurn) : Decidable (TakesAll key s turn) :=
  inferInstanceAs (Decidable (turn.privateKey = key ∧
    ∀ m ∈ (getMessage s.input).1, turn.sent = .accepted m.strlen))

theorem scanfChar_suffix (input : List UInt8) : (scanfChar input).2 <:+ input := by
  have hdrop := List.dropWhile_suffix isSpace (l := input)
  unfold scanfChar
  split
  · exact List.nil_suffix
  · rename_i c cs heq
    rw [heq] at hdrop
    exact (List.suffix_cons c cs).trans hdrop

theorem launch_suffix {answers : LaunchAnswers} {input rest : List UInt8}
    (hlaunch : launch answers input = .ok (.chatting rest)) : rest <:+ input := by
  simp only [launch] at hlaunch
  split at hlaunch
  · cases hlaunch
  · split at hlaunch
    · cases hlaunch
    · split at hlaunch
      · cases hdialed : (initializeClient answers.surroundings defaultListeningPort
            defaultConnectionHost).result with
        | error fault =>
          simp only [hdialed,bind,Except.bind] at hlaunch
          cases hlaunch
        | ok _ =>
          cases hkey : (sendPublicKey publicParams.1 publicParams.2 privateParams
              answers.surroundings.sent).result with
          | error fault =>
            simp only [hdialed,hkey,bind,Except.bind] at hlaunch
            cases hlaunch
          | ok _ =>
            simp only [hdialed,hkey,bind,Except.bind] at hlaunch
            split at hlaunch
            · cases hlaunch
            · cases hlaunch
              exact (scanfChar_suffix _).trans ((scanfChar_suffix _).trans (scanfChar_suffix _))
      · cases hlaunch

theorem whole_step {key : UInt64} {s t : Terminal} {turn : TerminalTurn}
    (hs : ∀ d ∈ s.given, d.wire = (xorKey key d.plaintext).takeWhile (fun c => c ≠ 0))
    (htakes : TakesAll key s turn) (hstep : s.step turn = some t) :
    ∀ d ∈ t.given, d.wire = (xorKey key d.plaintext).takeWhile (fun c => c ≠ 0) := by
  obtain ⟨_,hgiven⟩ := Terminal.step_inv hstep
  intro d hd
  rw [hgiven] at hd
  rcases List.mem_append.mp hd with hd | hd
  · exact hs d hd
  · obtain ⟨m,hm,hmd⟩ := List.mem_map.mp hd
    have hall := htakes.2 m (Option.mem_toList.mp hm)
    have hle : ((xorKey key m.text).takeWhile (fun c => c ≠ 0)).length ≤ m.strlen := by
      have h := (List.takeWhile_prefix (fun c => decide (c ≠ 0)) (l := xorKey key m.text)).length_le
      rwa [xorKey_length] at h
    rw [← hmd,htakes.1,hall]
    simp only [encryptAndSend,encrypt_some,sendMessageClient,sendUnchecked,Buffer.text_ofBytes]
    exact List.take_of_length_le hle

/-- What is typed behind the third letter is printed by the handler at the other end, line
for line and 1023 bytes at a time, up to the first line that is /exit: for any input whose
lines the key turns into no NUL, where the kernel takes each message whole and each recv
returns one. -/
theorem typed_lines_printed (answers : LaunchAnswers) (input rest : List UInt8) (key : UInt64)
    (turns : List TerminalTurn) (t : Terminal) (self : Thread) (g : Globals)
    (hlaunch : launch answers input = .ok (.chatting rest)) (hnul : NulFree input)
    (hkey : ∀ m ∈ Lines.cut newline (maxBufferSize - 1) rest, NulFree (xorKey key m))
    (hrun : run Terminal.step ⟨rest,[],none⟩ turns = some t)
    (hmeets : Meets Terminal.step (TakesAll key) ⟨rest,[],none⟩ turns)
    (hlen : rest.length ≤ turns.length) (hpool : g.pool.size = 0) :
    ∃ g' h', (Handler.keyed self key).run { g with privateKey := key }
        (t.given.map (fun d => recv d.wire)) = .ok (g',h') ∧
      h'.printed = (Lines.cut newline (maxBufferSize - 1) rest).takeWhile
        (fun m => m ≠ exitText) := by
  have hrest : NulFree rest := fun h => hnul ((launch_suffix hlaunch).subset h)
  have haccounts := run_history (I := Terminal.Accounts rest)
    (fun _ _ _ _ hs => Terminal.accounts_step hs) (Terminal.accounts_start rest) hrun
  have hcut : t.given.map Typed.plaintext = Lines.cut newline (maxBufferSize - 1) rest := by
    have hnil : t.input = [] := by
      have hleft := haccounts.left
      exact List.eq_nil_of_length_eq_zero (by omega)
    have hmessages := haccounts.messages
    rwa [hnil,messagesOf_nil,List.append_nil,messagesOf,getMessages_cut hrest] at hmessages
  have hwhole : ∀ d ∈ t.given, d.wire = (xorKey key d.plaintext).takeWhile (fun c => c ≠ 0) :=
    run_invariant_of_meets (I := fun s => ∀ d ∈ s.given,
        d.wire = (xorKey key d.plaintext).takeWhile (fun c => c ≠ 0))
      (fun _ _ _ => whole_step) nofun hmeets hrun
  have hsendable : ∀ m ∈ Lines.cut newline (maxBufferSize - 1) rest, Sendable key m := by
    intro m hm
    obtain ⟨hne,hle,_⟩ := Lines.mem_cut hm
    refine ⟨hne,fun hzero => hrest ?_,hle,hkey m hm⟩
    have hflat : (0 : UInt8) ∈ (Lines.cut newline (maxBufferSize - 1) rest).flatten :=
      List.mem_flatten.mpr ⟨m,hm,hzero⟩
    rw [Lines.flatten_cut newline (by decide)] at hflat
    exact (List.mem_filter.mp hflat).1
  have hrecvs : t.given.map (fun d => recv d.wire) =
      (Lines.cut newline (maxBufferSize - 1) rest).map (fun m => recv (xorKey key m)) := by
    rw [← hcut,List.map_map]
    apply List.map_congr_left
    intro d hd
    have hmem : d.plaintext ∈ Lines.cut newline (maxBufferSize - 1) rest := by
      rw [← hcut]
      exact List.mem_map_of_mem hd
    rw [hwhole d hd,takeWhile_of_nulFree (hkey _ hmem)]
    rfl
  rw [hrecvs]
  obtain ⟨g',h',hrunMessages,hprinted,_⟩ := run_messages (h := Handler.keyed self key)
    (g := { g with privateKey := key }) rfl rfl hpool hsendable
  exact ⟨g',h',hrunMessages,hprinted⟩

def typedLaunch : List UInt8 := [115,10,99,10,115,10,104,105,10]

def allSucceed : LaunchAnswers := ⟨true,true,⟨0,id,true,true,.accepted 2⟩⟩

theorem typed_lines_printed_hi :
    ∃ t, run Terminal.step ⟨[10,104,105,10],[],none⟩ launchTurns = some t ∧
      ∃ g' h', (Handler.keyed ⟨0,4,true⟩ 8).run { idleServer with privateKey := 8 }
          (t.given.map (fun d => recv d.wire)) = .ok (g',h') ∧
        h'.printed = (Lines.cut newline (maxBufferSize - 1) [10,104,105,10]).takeWhile
          (fun m => m ≠ exitText) := by
  have hrun : (run Terminal.step ⟨[10,104,105,10],[],none⟩ launchTurns).isSome := by
    decide +kernel
  obtain ⟨t,ht⟩ := Option.isSome_iff_exists.mp hrun
  refine ⟨t,ht,typed_lines_printed allSucceed typedLaunch [10,104,105,10] 8 launchTurns t
    ⟨0,4,true⟩ idleServer (by decide +kernel) (by decide) (by decide +kernel) ht
    (by decide +kernel) (by decide) rfl⟩

end CTalk
