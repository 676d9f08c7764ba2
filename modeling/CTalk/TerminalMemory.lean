import CTalk.ServerMemory
import CTalk.Terminal

/-! c_talk.c and client.c with the memory they allocate: the turns of the message loop, as
in the model without memory, which this one refines. -/

set_option autoImplicit false

namespace CTalk
open ByteStream Transition Heap

/-- A failed malloc stops at the assertion. fgets stores the line with a terminator behind
it, and the assignment cuts it at the newline. -/
def getMessageIn (mem : Memory UInt8) (input : List UInt8) :
    Except Fault (Memory UInt8 × Pointer × List UInt8) :=
  let (mem,buffer) := malloc mem maxBufferSize true
  match fgets maxBufferSize input with
  | (none,rest) => do
    let mem ← checked (free mem buffer)
    pure (mem,none,rest)
  | (some line,rest) => do
    let mem ← checked (strcpy mem buffer line.mem.dropLast)
    let stored ← loadString mem buffer
    let stored := putNul stored (strcspn stored newline)
    let mem ← checked (strcpy mem buffer stored.text)
    if 0 < stored.strlen then pure (mem,buffer,rest)
    else do
      let mem ← checked (free mem buffer)
      pure (mem,none,rest)

/-- One turn of the loop. The plaintext is not freed where there is one. -/
def Terminal.turnIn (mem : Memory UInt8) (s : Terminal) (turn : TerminalTurn) :
    Except Fault (Memory UInt8 × Terminal) := do
  let (mem,plaintext,rest) ← getMessageIn mem s.input
  match plaintext with
  | none => do
    let mem ← checked (free mem plaintext)
    pure (mem,{ s with input := rest })
  | some _ => do
    let text ← loadString mem plaintext
    let (mem,ciphertext) ← encryptIn mem plaintext turn.privateKey
    let message ← loadString mem ciphertext
    let sent := sendMessageClient message turn.sent
    let typed : Typed := ⟨text.text,turn.privateKey,sent.wire⟩
    match sent.result with
    | .error fault => pure (mem,⟨rest,s.given ++ [typed],some fault⟩)
    | .ok _ => do
      let mem ← checked (free mem ciphertext)
      pure (mem,⟨rest,s.given ++ [typed],none⟩)

structure TerminalProcess where
  terminal : Terminal
  memory : Memory UInt8
  deriving DecidableEq

def TerminalProcess.step (s : TerminalProcess) (turn : TerminalTurn) : Option TerminalProcess :=
  if s.terminal.fault ≠ none then none
  else match s.terminal.turnIn s.memory turn with
    | .error fault => some { s with terminal := { s.terminal with fault := some fault } }
    | .ok (mem,terminal) => some ⟨terminal,mem⟩

theorem scanLine_length (n : Nat) (input : List UInt8) : (scanLine n input).1.length ≤ n := by
  rcases scanLine_cases n input with hfull | hline | hend
  · obtain ⟨line,rest,_,hlen,_,heq⟩ := hfull
    rw [heq]
    exact Nat.le_of_eq hlen
  · obtain ⟨line,rest,_,hlen,_,heq⟩ := hline
    rw [heq]
    simpa using hlen
  · obtain ⟨_,hlen,heq⟩ := hend
    rw [heq]
    exact Nat.le_of_lt hlen

theorem putNul_strcspn_length (taken : List UInt8) :
    (putNul (Buffer.ofBytes taken) (strcspn (Buffer.ofBytes taken) newline)).text.length ≤
      taken.length := by
  rw [putNul_strcspn_text]
  exact (List.takeWhile_prefix _).length_le.trans (Buffer.text_ofBytes_length_le taken)

theorem getMessageIn_eq (mem : Memory UInt8) (input : List UInt8) :
    getMessageIn mem input = .ok (match getMessage input with
      | (none,rest) => (mem ++ [⟨maxBufferSize,.freed⟩],none,rest)
      | (some m,rest) => (mem ++ [⟨maxBufferSize,.text m.text⟩],some mem.length,rest)) := by
  by_cases hne : input = []
  · subst hne
    simp only [getMessageIn,getMessage,fgets,if_true,malloc_true_pointer]
    rw [free_malloc]
    rfl
  · have hscan : scanLine (maxBufferSize - 1) input = ((scanLine (maxBufferSize - 1) input).1,
        (scanLine (maxBufferSize - 1) input).2) := rfl
    have hlen := scanLine_length (maxBufferSize - 1) input
    rw [getMessage_of_ne_nil hne hscan]
    simp only [getMessageIn,fgets,if_neg hne,malloc_true_pointer]
    generalize (scanLine (maxBufferSize - 1) input).1 = taken,
      (scanLine (maxBufferSize - 1) input).2 = rest at hlen
    have htaken : taken.length < maxBufferSize := Nat.lt_succ_of_le hlen
    have hcut := Nat.lt_of_le_of_lt (putNul_strcspn_length taken) htaken
    simp only [Buffer.mem_ofBytes,List.dropLast_concat]
    rw [strcpy_malloc mem htaken]
    simp only [checked,Except.mapError,bind,Except.bind]
    rw [loadString_text (getElem?_here mem _ [])]
    simp only
    rw [strcpy_here mem hcut]
    simp only
    split
    · rfl
    · rw [free_here]
      rfl

theorem turnIn_eq (mem : Memory UInt8) (s : Terminal) (hrunning : s.fault = none)
    (turn : TerminalTurn) :
    ∃ mem' t, s.turnIn mem turn = .ok (mem',t) ∧ s.step turn = some t ∧
      (t.fault = none → live mem' + s.given.length = live mem + t.given.length) := by
  have hlive : ¬ s.fault ≠ none := by simp [hrunning]
  rw [Terminal.turnIn,getMessageIn_eq,Terminal.step,if_neg hlive]
  cases hmessage : getMessage s.input with
  | mk message rest =>
    cases message with
    | none =>
      refine ⟨_,_,rfl,rfl,?_⟩
      simp
    | some m =>
      have htext := Buffer.text_ofBytes_of_nulFree m.nulFree_text
      have hsent : encryptAndSend turn.privateKey m turn.sent =
          sendMessageClient (Buffer.ofBytes (xorKey turn.privateKey m.text)) turn.sent := by
        simp only [encryptAndSend,encrypt_some]
      simp only [bind,Except.bind]
      rw [loadString_text (getElem?_here mem _ []),encryptIn_text (getElem?_here mem _ [])]
      simp only
      rw [loadString_text (getElem?_here _ _ []),free_here,htext,hsent]
      cases hresult : (sendMessageClient (Buffer.ofBytes (xorKey turn.privateKey m.text))
          turn.sent).result with
      | error fault =>
        simp only [hresult]
        exact ⟨_,_,rfl,rfl,fun hf => by cases hf⟩
      | ok _ =>
        simp only [hresult]
        refine ⟨_,_,rfl,rfl,?_⟩
        simp
        omega

structure TerminalRefines (m : TerminalProcess) (s : Terminal) : Prop where
  terminal : m.terminal = s
  memory : s.fault = none → live m.memory = s.given.length

theorem terminalRefines_step (m : TerminalProcess) (s : Terminal) (turn : TerminalTurn)
    (hr : TerminalRefines m s) : Option.Rel TerminalRefines (m.step turn) (s.step turn) := by
  obtain ⟨rfl,hmemory⟩ := hr
  by_cases hrunning : m.terminal.fault = none
  · obtain ⟨mem,t,hturn,hstep,hlive⟩ := turnIn_eq m.memory m.terminal hrunning turn
    have hbefore := hmemory hrunning
    have hgoes : ¬ m.terminal.fault ≠ none := by simp [hrunning]
    rw [TerminalProcess.step,if_neg hgoes,hturn,hstep]
    refine .some ⟨rfl,fun ht => ?_⟩
    have hafter := hlive ht
    change live mem = t.given.length
    omega
  · rw [TerminalProcess.step,if_pos hrunning,Terminal.step,if_pos hrunning]
    exact .none

/-- Turn for turn the program with memory does what the one without does, and each message
sent leaves the buffer in which it was read. -/
theorem terminal_memory (input : List UInt8) (turns : List TerminalTurn) :
    Option.Rel TerminalRefines (run TerminalProcess.step ⟨⟨input,[],none⟩,[]⟩ turns)
      (run Terminal.step ⟨input,[],none⟩ turns) := by
  have h := run_lockstep (f := fun turn => turn) terminalRefines_step
    (s := ⟨⟨input,[],none⟩,[]⟩) (t := ⟨input,[],none⟩) ⟨rfl,fun _ => rfl⟩ turns
  rwa [List.map_id'] at h

end CTalk
