import CTalk.Connect
import CTalk.Console
import CTalk.SharedBuffer

/-! main.c: the terminal of a peer, from the bytes on standard input to the frames that
sending gives to the kernel. -/

set_option autoImplicit false

namespace CTalk
open ByteStream Transition

/-- "%d": the number stored, none where there is no digit, and what is left. A sign with no
digit behind it is used up. -/
def scanfD (overflow : Int → Int) (input : List UInt8) : Option Int × List UInt8 :=
  let (negative,cs) := scanSign (input.dropWhile isSpace)
  let digits := cs.takeWhile Decimal.isDigit
  if digits = [] then (none,cs)
  else
    let n : Int := if negative then -Decimal.value digits else Decimal.value digits
    (some (if -2 ^ 31 ≤ n ∧ n < 2 ^ 31 then n else overflow n),
      cs.dropWhile Decimal.isDigit)

/-- "%s" into a cleared array of this size. -/
def scanfS (size : Nat) (input : List UInt8) : Except Fault (Buffer × List UInt8) :=
  let cs := input.dropWhile isSpace
  let word := cs.takeWhile (fun c => !isSpace c)
  if word.length < size then .ok (Buffer.ofBytes word,cs.dropWhile (fun c => !isSpace c))
  else .error .outOfBounds

def scanfC (input : List UInt8) : List UInt8 := input.drop 1

/-- "%[^\n]s" into a cleared array of this size. The s matches nothing: behind the line
comes its newline or the end. -/
def scanfLine (size : Nat) (input : List UInt8) : Except Fault (Buffer × List UInt8) :=
  let line := input.takeWhile (fun c => c ≠ newline)
  if line.length < size then
    .ok (Buffer.ofBytes line,input.dropWhile (fun c => c ≠ newline))
  else .error .outOfBounds

structure SendAnswers where
  opened : Bool
  connected : Bool
  sent : SendResult
  deriving DecidableEq

/-- The port connected to, the message as history, and the bytes the kernel took, none where
send fails: nobody looks at its result. -/
structure Delivery where
  port : UInt16
  hello : List UInt8
  wire : List UInt8
  deriving DecidableEq, Repr

/-- The globals name and PORT, the local ch where it has been stored, and how main ended. -/
structure Menu where
  name : Buffer
  port : Int
  input : List UInt8
  ch : Option Int
  sent : List Delivery
  ended : Option (Except Fault Unit)
  deriving DecidableEq

def SendResult.taken (bytes : List UInt8) : SendResult → List UInt8
  | .error => []
  | .accepted n => bytes.take n

/-- The function sending. Its two early returns leave the rest of the input to the menu. -/
def Menu.sending (overflow : Int → Int) (s : Menu) (answers : SendAnswers) :
    Except Fault Menu :=
  let (portServer,input) := scanfD overflow s.input
  if answers.opened then
    match portServer with
    | none => .error .uninitRead
    | some portServer =>
      if answers.connected then do
        let (hello,input) ← scanfLine 1024 (scanfC input)
        let buffer ← CTalk.sending s.name s.port hello
        pure { s with
          input := input
          sent := s.sent ++ [⟨toUint16 portServer,hello.text,answers.sent.taken buffer⟩] }
      else .ok { s with input := input }
  else .ok { s with input := input }

def Menu.step (overflow : Int → Int) (s : Menu) (answers : SendAnswers) : Option Menu :=
  if s.ended ≠ none then none
  else
    let (number,input) := scanfD overflow s.input
    let s := { s with input := input, ch := number.or s.ch }
    match s.ch with
    | none => some { s with ended := some (.error .uninitRead) }
    | some ch =>
      if ch = 1 then
        match s.sending overflow answers with
        | .error fault => some { s with ended := some (.error fault) }
        | .ok s => some s
      else if ch = 0 then some { s with ended := some (.ok ()) }
      else some s

structure Setup where
  opened : Bool
  bound : Bool
  listening : Bool

/-- main up to its loop. PORT is 0 where no number was typed. -/
def Menu.start (overflow : Int → Int) (setup : Setup) (input : List UInt8) :
    Except Fault Menu := do
  let (name,input) ← scanfS 20 input
  let (port,input) := scanfD overflow input
  if setup.opened && setup.bound && setup.listening then
    pure ⟨name,port.getD 0,input,none,[],none⟩
  else .error .exitFailure

section scans
variable {rest : List UInt8}

def IsInt (n : Int) : Prop := -2 ^ 31 ≤ n ∧ n < 2 ^ 31

theorem printfD_ne_nil (n : Int) : printfD n ≠ [] := by
  rw [printfD]
  split
  · simp
  · exact Decimal.text_ne_nil _

theorem printfD_head {n : Int} {c : UInt8} {cs : List UInt8} (h : printfD n = c :: cs) :
    isSpace c = false := by
  rw [printfD] at h
  split at h
  · cases h
    rfl
  · have hdigit : Decimal.isDigit c :=
      Decimal.isDigit_of_mem_text n.natAbs c (by rw [h]; exact List.mem_cons_self)
    exact isSpace_of_isDigit hdigit

theorem scanSign_printfD (n : Int) (rest : List UInt8) :
    scanSign (printfD n ++ rest) = (decide (n < 0),Decimal.text n.natAbs ++ rest) := by
  rw [printfD]
  split
  · rename_i hneg
    simp [scanSign,hneg]
  · rename_i hpos
    obtain ⟨d,ds,hds⟩ := List.exists_cons_of_ne_nil (Decimal.text_ne_nil n.natAbs)
    have hd : Decimal.isDigit d := Decimal.isDigit_of_mem_text n.natAbs d (by simp [hds])
    rw [hds,List.cons_append,scanSign_of_isDigit hd,decide_eq_false hpos]

theorem scanfD_number (overflow : Int → Int) {blanks : List UInt8}
    (hblanks : ∀ c ∈ blanks, isSpace c) {n : Int} (hint : IsInt n)
    (hstop : ∀ c ∈ rest.head?, Decimal.isDigit c = false) :
    scanfD overflow (blanks ++ (printfD n ++ rest)) = (some n,rest) := by
  have hdigits := Decimal.isDigit_of_mem_text n.natAbs
  have hdrop : (blanks ++ (printfD n ++ rest)).dropWhile isSpace = printfD n ++ rest := by
    obtain ⟨c,cs,hcs⟩ := List.exists_cons_of_ne_nil (printfD_ne_nil n)
    rw [List.dropWhile_append_of_pos hblanks,hcs,List.cons_append,
      List.dropWhile_cons_of_neg (by simp [printfD_head hcs])]
  have htake := takeWhile_append_of_stop hdigits hstop
  have hrest := dropWhile_append_of_stop hdigits hstop
  have hsigned : (if decide (n < 0) = true then -(n.natAbs : Int) else (n.natAbs : Int)) = n := by
    split
    · rename_i hneg
      have hlt := of_decide_eq_true hneg
      omega
    · rename_i hpos
      have hge : ¬ n < 0 := fun h => hpos (decide_eq_true h)
      omega
  simp only [scanfD,hdrop,scanSign_printfD,htake,hrest,if_neg (Decimal.text_ne_nil n.natAbs),
    Decimal.value_text,hsigned]
  rw [IsInt] at hint
  rw [if_pos hint]

theorem not_isDigit_newline (later : List UInt8) :
    ∀ c ∈ (newline :: later).head?, Decimal.isDigit c = false := by
  intro c hc
  cases hc
  rfl

theorem isSpace_newline : ∀ c ∈ [newline], isSpace c := by
  intro c hc
  rw [List.mem_singleton.mp hc]
  rfl

theorem scanfD_line (overflow : Int → Int) {n : Int} (hint : IsInt n) (rest : List UInt8) :
    scanfD overflow (newline :: (printfD n ++ newline :: rest)) =
      (some n,newline :: rest) :=
  scanfD_number overflow isSpace_newline hint (not_isDigit_newline rest)

theorem scanfS_word {word : List UInt8} {size : Nat} (hne : word ≠ [])
    (hword : ∀ c ∈ word, isSpace c = false) (hlen : word.length < size) (rest : List UInt8) :
    scanfS size (word ++ newline :: rest) = .ok (Buffer.ofBytes word,newline :: rest) := by
  obtain ⟨c,cs,hcs⟩ := List.exists_cons_of_ne_nil hne
  have hc : isSpace c = false := hword c (by simp [hcs])
  have hdrop : (word ++ newline :: rest).dropWhile isSpace = word ++ newline :: rest := by
    rw [hcs,List.cons_append,List.dropWhile_cons_of_neg (by simp [hc])]
  have hrun : ∀ c ∈ word, (!isSpace c) = true := fun c hc => by simp [hword c hc]
  have hstop : ∀ c ∈ (newline :: rest).head?, (!isSpace c) = false := by
    intro c hc
    cases hc
    rfl
  simp only [scanfS,hdrop,takeWhile_append_of_stop hrun hstop,
    dropWhile_append_of_stop hrun hstop,if_pos hlen]

theorem scanfLine_line {line : List UInt8} {size : Nat} (hline : newline ∉ line)
    (hlen : line.length < size) (rest : List UInt8) :
    scanfLine size (line ++ newline :: rest) = .ok (Buffer.ofBytes line,newline :: rest) := by
  have hrun : ∀ c ∈ line, decide (c ≠ newline) = true := by
    intro c hc
    exact decide_eq_true (fun h => hline (h ▸ hc))
  have hstop : ∀ c ∈ (newline :: rest).head?, decide (c ≠ newline) = false := by
    intro c hc
    cases hc
    rfl
  simp only [scanfLine,takeWhile_append_of_stop hrun hstop,dropWhile_append_of_stop hrun hstop,
    if_pos hlen]

end scans

structure Login where
  name : List UInt8
  port : Int
  nonempty : name ≠ []
  word : ∀ c ∈ name, isSpace c = false
  nulFree : NulFree name
  fits : name.length < 20
  isInt : IsInt port

structure Message where
  text : List UInt8
  oneLine : newline ∉ text
  nulFree : NulFree text
  fits : text.length < 1024

/-- One turn of the menu as the user and the kernel see it. A user whom sending has told of
a failed call does not type the message. -/
inductive Dialogue where
  | invalid (choice : Int) (answers : SendAnswers) :
      IsInt choice → choice ≠ 0 → choice ≠ 1 → Dialogue
  | refused (port : Int) (answers : SendAnswers) :
      IsInt port → ¬ (answers.opened ∧ answers.connected) → Dialogue
  | sent (port : Int) : IsInt port → Message → SendResult → Dialogue

def Login.typed (l : Login) : List UInt8 := l.name ++ newline :: printfD l.port

def Login.buffer (l : Login) : Buffer := Buffer.ofBytes l.name

def Dialogue.typed : Dialogue → List UInt8
  | .invalid choice _ _ _ _ => newline :: printfD choice
  | .refused port _ _ _ => newline :: (printfD 1 ++ newline :: printfD port)
  | .sent port _ message _ =>
    newline :: (printfD 1 ++ newline :: (printfD port ++ newline :: message.text))

def Dialogue.answers : Dialogue → SendAnswers
  | .invalid _ answers _ _ _ => answers
  | .refused _ answers _ _ => answers
  | .sent _ _ _ result => ⟨true,true,result⟩

def Login.frame (l : Login) (message : Message) : List UInt8 :=
  let text := sendingText l.buffer l.port (Buffer.ofBytes message.text)
  text ++ List.replicate (messageSize - text.length) 0

def Dialogue.delivered (l : Login) : Dialogue → List Delivery
  | .sent port _ message result =>
    [⟨toUint16 port,message.text,result.taken (l.frame message)⟩]
  | _ => []

theorem printfD_length_le {n : Int} (hint : IsInt n) : (printfD n).length ≤ 11 := by
  have habs : (Decimal.text n.natAbs).length ≤ 10 := by
    apply Decimal.text_length_le (by omega)
    rw [IsInt] at hint
    omega
  rw [printfD]
  split
  · rw [List.length_cons]
    omega
  · omega

theorem sending_login (l : Login) (message : Message) :
    sending l.buffer l.port (Buffer.ofBytes message.text) = .ok (l.frame message) := by
  have hname := l.fits
  have hmessage := message.fits
  have hport := printfD_length_le l.isInt
  have hlen : (sendingText l.buffer l.port (Buffer.ofBytes message.text)).length <
      messageSize := by
    simp only [messageSize,sendingText,Login.buffer,List.length_append,
      Buffer.text_ofBytes_of_nulFree l.nulFree,
      Buffer.text_ofBytes_of_nulFree message.nulFree,List.length_cons,List.length_nil]
    omega
  rw [sending,if_pos hlen]
  rfl

theorem typed_cons (ds : List Dialogue) (rest : List UInt8) :
    ∃ later, ds.flatMap Dialogue.typed ++ newline :: rest = newline :: later := by
  cases ds with
  | nil => exact ⟨rest,rfl⟩
  | cons d ds => cases d <;> exact ⟨_,rfl⟩

section dialogue
variable (overflow : Int → Int) {l : Login} {s : Menu}

structure Menu.Awaits (s : Menu) (l : Login) (input : List UInt8) : Prop where
  name : s.name = l.buffer
  port : s.port = l.port
  input : s.input = input
  running : s.ended = none

theorem step_number (hrunning : s.ended = none) {n : Int} (hint : IsInt n)
    {rest : List UInt8} (hinput : s.input = newline :: (printfD n ++ newline :: rest))
    (answers : SendAnswers) :
    s.step overflow answers =
      if n = 1 then
        match Menu.sending overflow { s with input := newline :: rest, ch := some n } answers with
        | .error fault => some { s with
            input := newline :: rest, ch := some n, ended := some (.error fault) }
        | .ok t => some t
      else if n = 0 then
        some { s with input := newline :: rest, ch := some n, ended := some (.ok ()) }
      else some { s with input := newline :: rest, ch := some n } := by
  have hnot : ¬ s.ended ≠ none := fun h => h hrunning
  simp only [Menu.step,if_neg hnot,hinput,scanfD_line overflow hint rest,Option.some_or]

theorem isInt_zero : IsInt 0 := by
  rw [IsInt]
  omega

theorem isInt_one : IsInt 1 := by
  rw [IsInt]
  omega

theorem sending_refused {port : Int} (hint : IsInt port) {rest : List UInt8}
    {answers : SendAnswers} (hinput : s.input = newline :: (printfD port ++ newline :: rest))
    (hrefused : ¬ (answers.opened ∧ answers.connected)) :
    s.sending overflow answers = .ok { s with input := newline :: rest } := by
  simp only [Menu.sending,hinput,scanfD_line overflow hint rest]
  cases hopened : answers.opened with
  | false => rfl
  | true =>
    cases hconnected : answers.connected with
    | false => rfl
    | true => exact absurd ⟨hopened,hconnected⟩ hrefused

theorem sending_sent (hname : s.name = l.buffer) (hport : s.port = l.port) {port : Int}
    (hint : IsInt port) (message : Message) (rest : List UInt8) (ch : Option Int)
    (result : SendResult) :
    Menu.sending overflow { s with
      input := newline :: (printfD port ++ newline :: (message.text ++ newline :: rest))
      ch := ch } ⟨true,true,result⟩ = .ok { s with
        input := newline :: rest
        ch := ch
        sent := s.sent ++
          [⟨toUint16 port,message.text,result.taken (l.frame message)⟩] } := by
  have hline := scanfLine_line message.oneLine message.fits rest
  simp only [Menu.sending,scanfD_line overflow hint,if_true,scanfC,
    List.drop_one,List.tail_cons,hline,bind,Except.bind,hname,hport,sending_login,
    Buffer.text_ofBytes_of_nulFree message.nulFree]
  rfl

theorem step_one (hrunning : s.ended = none) {rest : List UInt8}
    (hinput : s.input = newline :: (printfD 1 ++ newline :: rest)) {answers : SendAnswers}
    {t : Menu} (hsending : Menu.sending overflow
      { s with input := newline :: rest, ch := some 1 } answers = .ok t) :
    s.step overflow answers = some t := by
  rw [step_number overflow hrunning isInt_one hinput,if_pos rfl,hsending]

theorem step_dialogue (d : Dialogue) {rest : List UInt8}
    (hs : s.Awaits l (d.typed ++ newline :: rest)) :
    ∃ t, s.step overflow d.answers = some t ∧ t.Awaits l (newline :: rest) ∧
      t.sent = s.sent ++ d.delivered l := by
  have hinput := hs.input
  cases d with
  | invalid choice answers hint hzero hone =>
    simp only [Dialogue.typed,List.cons_append] at hinput
    rw [step_number overflow hs.running hint hinput,if_neg hone,if_neg hzero]
    exact ⟨_,rfl,⟨hs.name,hs.port,rfl,hs.running⟩,by simp [Dialogue.delivered]⟩
  | refused port answers hint hrefused =>
    simp only [Dialogue.typed,List.cons_append,List.append_assoc] at hinput
    have hstep := step_one overflow hs.running hinput
      (sending_refused overflow hint rfl hrefused)
    exact ⟨_,hstep,⟨hs.name,hs.port,rfl,hs.running⟩,by simp [Dialogue.delivered]⟩
  | sent port hint message result =>
    simp only [Dialogue.typed,List.cons_append,List.append_assoc] at hinput
    have hstep := step_one overflow hs.running hinput
      (sending_sent overflow hs.name hs.port hint message rest _ result)
    exact ⟨_,hstep,⟨hs.name,hs.port,rfl,hs.running⟩,rfl⟩

theorem run_dialogues (ds : List Dialogue) {rest : List UInt8}
    (hs : s.Awaits l (ds.flatMap Dialogue.typed ++ newline :: rest)) :
    ∃ t, run (Menu.step overflow) s (ds.map Dialogue.answers) = some t ∧
      t.Awaits l (newline :: rest) ∧ t.sent = s.sent ++ ds.flatMap (Dialogue.delivered l) := by
  induction ds generalizing s with
  | nil => exact ⟨s,rfl,hs,by simp⟩
  | cons d ds ih =>
    -- the next dialogue begins with the newline that ends this one
    obtain ⟨later,hlater⟩ : ∃ later, ds.flatMap Dialogue.typed ++ newline :: rest =
        newline :: later := typed_cons ds rest
    have hfirst : s.Awaits l (d.typed ++ newline :: later) := by
      rw [← hlater,← List.append_assoc,← List.flatMap_cons]
      exact hs
    obtain ⟨u,hstep,hu,hsent⟩ := step_dialogue overflow d hfirst
    obtain ⟨t,hrun,ht,hall⟩ := ih (hlater ▸ hu)
    refine ⟨t,?_,ht,?_⟩
    · rw [List.map_cons,run_cons,hstep]
      exact hrun
    · rw [hall,hsent,List.flatMap_cons,List.append_assoc]

theorem start_login (l : Login) (rest : List UInt8) :
    Menu.start overflow ⟨true,true,true⟩ (l.typed ++ newline :: rest) =
      .ok ⟨l.buffer,l.port,newline :: rest,none,[],none⟩ := by
  have hname := scanfS_word l.nonempty l.word l.fits (printfD l.port ++ newline :: rest)
  simp only [Menu.start,Login.typed,List.append_assoc,List.cons_append,hname,bind,Except.bind,
    scanfD_line overflow l.isInt rest]
  rfl

theorem step_quit {later : List UInt8}
    (hs : s.Awaits l (newline :: (printfD 0 ++ newline :: later))) (last : SendAnswers) :
    ∃ t, s.step overflow last = some t ∧ t.ended = some (.ok ()) ∧ t.sent = s.sent ∧
      t.input = newline :: later := by
  have hzero : ¬ (0 : Int) = 1 := by omega
  rw [step_number overflow hs.running isInt_zero hs.input,if_neg hzero,if_pos rfl]
  exact ⟨_,rfl,rfl,rfl,rfl⟩

end dialogue

/-- A user who types a name, a port, any dialogues and a 0 has each message sent once, in
order, to the port typed for it, and main ends with what was typed behind the 0 unread. -/
theorem dialogues_carried_out (overflow : Int → Int) (l : Login) (ds : List Dialogue)
    (later : List UInt8) (last : SendAnswers) :
    ∃ s t, Menu.start overflow ⟨true,true,true⟩ (l.typed ++ (ds.flatMap Dialogue.typed ++
        newline :: (printfD 0 ++ newline :: later))) = .ok s ∧
      run (Menu.step overflow) s (ds.map Dialogue.answers ++ [last]) = some t ∧
      t.ended = some (.ok ()) ∧ t.sent = ds.flatMap (Dialogue.delivered l) ∧
      t.input = newline :: later := by
  obtain ⟨rest,hrest⟩ := typed_cons ds (printfD 0 ++ newline :: later)
  rw [hrest,start_login overflow l rest]
  have hstart : Menu.Awaits ⟨l.buffer,l.port,newline :: rest,none,[],none⟩ l
      (ds.flatMap Dialogue.typed ++ newline :: (printfD 0 ++ newline :: later)) :=
    ⟨rfl,rfl,hrest.symm,rfl⟩
  obtain ⟨u,hrun,hu,hsent⟩ := run_dialogues overflow ds hstart
  obtain ⟨t,hstep,hended,hkept,hinput⟩ := step_quit overflow hu last
  refine ⟨_,t,rfl,?_,hended,by rw [hkept,hsent]; rfl,hinput⟩
  rw [run_append,hrun,Option.bind_some,run_cons,hstep]
  rfl

theorem scanSign_suffix (cs : List UInt8) : (scanSign cs).2 <:+ cs := by
  unfold scanSign
  split
  · exact List.suffix_cons _ _
  · exact List.suffix_cons _ _
  · exact List.suffix_refl _

theorem scanfD_suffix (overflow : Int → Int) (input : List UInt8) :
    (scanfD overflow input).2 <:+ input := by
  have hsign := (scanSign_suffix (input.dropWhile isSpace)).trans (List.dropWhile_suffix _)
  simp only [scanfD]
  split
  · exact hsign
  · exact (List.dropWhile_suffix _).trans hsign

theorem scanfLine_inv {size : Nat} {input rest : List UInt8} {hello : Buffer}
    (hok : scanfLine size input = .ok (hello,rest)) :
    newline ∉ hello.text ∧ hello.text.length < size ∧ (hello.text ++ rest).Sublist input := by
  simp only [scanfLine] at hok
  split at hok
  · rename_i hlen
    cases hok
    have htext : (Buffer.ofBytes (input.takeWhile (fun c => c ≠ newline))).text <+:
        input.takeWhile (fun c => c ≠ newline) := by
      rw [Buffer.text_ofBytes]
      exact List.takeWhile_prefix _
    refine ⟨?_,Nat.lt_of_le_of_lt htext.length_le hlen,?_⟩
    · intro hmem
      have hline := List.mem_takeWhile_imp (htext.subset hmem)
      exact absurd hline (by decide)
    · have hsub := htext.sublist.append_right (input.dropWhile (fun c => c ≠ newline))
      rwa [List.takeWhile_append_dropWhile] at hsub
  · cases hok

inductive Menu.Sent (s t : Menu) : Prop
  | nothing : t.sent = s.sent → t.input <:+ s.input → Sent s t
  | line {port hello buffer result} : CTalk.sending s.name s.port hello = .ok buffer →
      newline ∉ hello.text → hello.text.length < 1024 →
      (hello.text ++ t.input).Sublist s.input →
      t.sent = s.sent ++ [⟨port,hello.text,SendResult.taken buffer result⟩] → Sent s t

theorem sent_of_sending {overflow : Int → Int} {s t : Menu} {answers : SendAnswers}
    (hok : s.sending overflow answers = .ok t) :
    s.Sent t ∧ t.name = s.name ∧ t.port = s.port := by
  have hnumber := scanfD_suffix overflow s.input
  simp only [Menu.sending] at hok
  split at hok
  · split at hok
    · cases hok
    · split at hok
      · cases hline : scanfLine 1024 (scanfC (scanfD overflow s.input).2) with
        | error fault =>
          rw [hline] at hok
          cases hok
        | ok read =>
          obtain ⟨hello,rest⟩ := read
          cases hbuffer : CTalk.sending s.name s.port hello with
          | error fault =>
            simp only [hline,bind,Except.bind,hbuffer] at hok
            cases hok
          | ok buffer =>
            simp only [hline,bind,Except.bind,hbuffer] at hok
            cases hok
            obtain ⟨hone,hlen,hsub⟩ := scanfLine_inv hline
            have hrest : (scanfC (scanfD overflow s.input).2).Sublist s.input :=
              ((List.drop_suffix 1 _).trans hnumber).sublist
            exact ⟨.line hbuffer hone hlen (hsub.trans hrest) rfl,rfl,rfl⟩
      · cases hok
        exact ⟨.nothing rfl hnumber,rfl,rfl⟩
  · cases hok
    exact ⟨.nothing rfl hnumber,rfl,rfl⟩

theorem sent_of_step {overflow : Int → Int} {s t : Menu} {answers : SendAnswers}
    (hstep : s.step overflow answers = some t) :
    s.Sent t ∧ t.name = s.name ∧ t.port = s.port := by
  have hnumber := scanfD_suffix overflow s.input
  simp only [Menu.step] at hstep
  split at hstep
  · cases hstep
  · split at hstep
    · cases hstep
      exact ⟨.nothing rfl hnumber,rfl,rfl⟩
    · split at hstep
      · split at hstep
        · cases hstep
          exact ⟨.nothing rfl hnumber,rfl,rfl⟩
        · rename_i hsending
          cases hstep
          obtain ⟨hsent,hname,hport⟩ := sent_of_sending hsending
          refine ⟨?_,hname,hport⟩
          cases hsent with
          | nothing hsame hinput => exact .nothing hsame (hinput.trans hnumber)
          | line hbuffer hone hlen hsub hmore =>
            exact .line hbuffer hone hlen (hsub.trans hnumber.sublist) hmore
      · split at hstep
        · cases hstep
          exact ⟨.nothing rfl hnumber,rfl,rfl⟩
        · cases hstep
          exact ⟨.nothing rfl hnumber,rfl,rfl⟩

/-- The messages sent and the input left stand in this order in the input there was, and
each went out in the frame of the one name and port. -/
structure Menu.Accounts (input : List UInt8) (own : Buffer) (PORT : Int) (s : Menu) : Prop where
  name : s.name = own
  port : s.port = PORT
  order : ((s.sent.map Delivery.hello).flatten ++ s.input).Sublist input
  frames : ∀ d ∈ s.sent, newline ∉ d.hello ∧ d.hello.length < 1024 ∧
    ∃ hello buffer result, hello.text = d.hello ∧ CTalk.sending own PORT hello = .ok buffer ∧
      d.wire = SendResult.taken buffer result

theorem accounts_step {overflow : Int → Int} {input : List UInt8} {name : Buffer} {port : Int}
    {s t : Menu} {answers : SendAnswers} (hs : s.Accounts input name port)
    (hstep : s.step overflow answers = some t) : t.Accounts input name port := by
  obtain ⟨hsent,hname,hport⟩ := sent_of_step hstep
  cases hsent with
  | nothing hsame hinput =>
    refine ⟨hname.trans hs.name,hport.trans hs.port,?_,hsame ▸ hs.frames⟩
    rw [hsame]
    exact (hinput.sublist.append_left _).trans hs.order
  | @line _ hello buffer result hbuffer hone hlen hsub hmore =>
    refine ⟨hname.trans hs.name,hport.trans hs.port,?_,?_⟩
    · rw [hmore,List.map_append,List.flatten_append,List.append_assoc]
      have hlast : (hello.text ++ t.input).Sublist s.input := hsub
      simpa using (hlast.append_left _).trans hs.order
    · intro d hd
      rw [hmore] at hd
      rcases List.mem_append.mp hd with hd | hd
      · exact hs.frames d hd
      · rw [List.mem_singleton.mp hd]
        rw [hs.name,hs.port] at hbuffer
        exact ⟨hone,hlen,hello,buffer,result,rfl,hbuffer,rfl⟩

theorem accounts_start {overflow : Int → Int} {setup : Setup} {input : List UInt8} {s : Menu}
    (hstart : Menu.start overflow setup input = .ok s) : s.Accounts input s.name s.port := by
  simp only [Menu.start] at hstart
  cases hname : scanfS 20 input with
  | error fault =>
    rw [hname] at hstart
    cases hstart
  | ok read =>
    obtain ⟨name,rest⟩ := read
    have hrest : rest <:+ input := by
      simp only [scanfS] at hname
      split at hname
      · cases hname
        exact (List.dropWhile_suffix _).trans (List.dropWhile_suffix _)
      · cases hname
    simp only [hname,bind,Except.bind] at hstart
    split at hstart
    · cases hstart
      exact ⟨rfl,rfl,((scanfD_suffix overflow rest).trans hrest).sublist,nofun⟩
    · cases hstart

/-- Whatever is typed and whatever the kernel answers: no message is sent that was not typed
in one line, none twice and none out of order, and each in the frame of the own name and port. -/
theorem sent_in_order (overflow : Int → Int) (setup : Setup) (input : List UInt8) (s t : Menu)
    (as : List SendAnswers) (hstart : Menu.start overflow setup input = .ok s)
    (hrun : run (Menu.step overflow) s as = some t) : t.Accounts input s.name s.port :=
  run_invariant (fun _ _ _ hs => accounts_step hs) (accounts_start hstart) hrun

def typedByJo : List UInt8 := [106,111,10,56,48,10,49,10,57,48,10,104,105,10]

theorem sent_in_order_jo :
    ∃ s t, Menu.start id ⟨true,true,true⟩ typedByJo = .ok s ∧
      run (Menu.step id) s [⟨true,true,.accepted 3⟩] = some t ∧
      t.Accounts typedByJo s.name s.port := by
  have hstart : Menu.start id ⟨true,true,true⟩ typedByJo = .ok
      ⟨Buffer.ofBytes [106,111],80,[10,49,10,57,48,10,104,105,10],none,[],none⟩ := by
    decide +kernel
  have hrun : (run (Menu.step id)
      ⟨Buffer.ofBytes [106,111],80,[10,49,10,57,48,10,104,105,10],none,[],none⟩
      [⟨true,true,.accepted 3⟩]).isSome := by decide +kernel
  obtain ⟨t,ht⟩ := Option.isSome_iff_exists.mp hrun
  exact ⟨_,t,hstart,ht,sent_in_order id ⟨true,true,true⟩ typedByJo _ t _ hstart ht⟩

/-- The choice was another than 0 and 1, and what comes next is no number. -/
structure Menu.Stuck (s : Menu) : Prop where
  running : s.ended = none
  other : ∃ ch, s.ch = some ch ∧ ch ≠ 0 ∧ ch ≠ 1
  noNumber : ∀ c ∈ (s.input.dropWhile isSpace).head?, Decimal.isDigit c = false ∧ c ≠ 43 ∧ c ≠ 45

theorem scanfD_of_no_number (overflow : Int → Int) {cs : List UInt8}
    (h : ∀ c ∈ (cs.dropWhile isSpace).head?, Decimal.isDigit c = false ∧ c ≠ 43 ∧ c ≠ 45) :
    scanfD overflow cs = (none,cs.dropWhile isSpace) := by
  simp only [scanfD]
  cases hcs : cs.dropWhile isSpace with
  | nil => simp [scanSign]
  | cons c rest =>
    obtain ⟨hdigit,hplus,hminus⟩ := h c (by rw [hcs]; rfl)
    simp [scanSign,hplus,hminus,hdigit]

theorem dropWhile_dropWhile (p : UInt8 → Bool) (cs : List UInt8) :
    (cs.dropWhile p).dropWhile p = cs.dropWhile p := by
  induction cs with
  | nil => rfl
  | cons c cs ih => by_cases hc : p c <;> simp [hc,ih]

theorem step_stuck (overflow : Int → Int) {s : Menu} (hs : s.Stuck) (answers : SendAnswers) :
    s.step overflow answers = some { s with input := s.input.dropWhile isSpace } := by
  obtain ⟨ch,hch,hzero,hone⟩ := hs.other
  have hrunning : ¬ s.ended ≠ none := fun h => h hs.running
  simp only [Menu.step,if_neg hrunning,scanfD_of_no_number overflow hs.noNumber,Option.none_or,
    hch,if_neg hzero,if_neg hone]

/-- From then on the menu is shown for ever: no turn reads a byte that is no blank, sends
anything or ends. -/
theorem stuck_for_ever (overflow : Int → Int) (s : Menu) (hs : s.Stuck) (as : List SendAnswers) :
    ∃ t, run (Menu.step overflow) s as = some t ∧ t.ended = none ∧ t.sent = s.sent ∧
      t.input.dropWhile isSpace = s.input.dropWhile isSpace := by
  induction as generalizing s with
  | nil => exact ⟨s,rfl,hs.running,rfl,rfl⟩
  | cons a as ih =>
    have hdrop := dropWhile_dropWhile isSpace s.input
    have hnext : Menu.Stuck { s with input := s.input.dropWhile isSpace } :=
      ⟨hs.running,hs.other,by rw [hdrop]; exact hs.noNumber⟩
    obtain ⟨t,hrun,hended,hsent,hinput⟩ := ih _ hnext
    refine ⟨t,?_,hended,hsent,hinput.trans hdrop⟩
    rw [run_cons,step_stuck overflow hs a]
    exact hrun

def atEnd : Menu := ⟨Buffer.ofBytes [106,111],80,[newline],some 5,[],none⟩

theorem stuck_for_ever_at_end :
    ∃ t, run (Menu.step id) atEnd [⟨true,true,.error⟩,⟨true,true,.error⟩] = some t ∧
      t.ended = none ∧ t.sent = [] ∧
      t.input.dropWhile isSpace = atEnd.input.dropWhile isSpace :=
  stuck_for_ever id atEnd ⟨rfl,⟨5,rfl,by decide,by decide⟩,nofun⟩ _

theorem cut_at_first {b : UInt8} {front front' back back' : List UInt8} (h : b ∉ front)
    (h' : b ∉ front') (heq : front ++ b :: back = front' ++ b :: back') :
    front = front' ∧ back = back' := by
  have hfront := congrArg (List.takeWhile (fun c => decide (c ≠ b))) heq
  rw [takeWhile_ne_append h,takeWhile_ne_append h'] at hfront
  subst hfront
  exact ⟨rfl,(List.cons.inj (List.append_cancel_left heq)).2⟩

theorem cut_at_last {b : UInt8} {front front' back back' : List UInt8} (h : b ∉ back)
    (h' : b ∉ back') (heq : front ++ b :: back = front' ++ b :: back') :
    front = front' ∧ back = back' := by
  have hreverse := congrArg List.reverse heq
  simp only [List.reverse_append,List.reverse_cons,List.append_assoc,
    List.singleton_append] at hreverse
  obtain ⟨hback,hfront⟩ := cut_at_first (by simpa using h) (by simpa using h') hreverse
  exact ⟨List.reverse_inj.mp hfront,List.reverse_inj.mp hback⟩

theorem notMem_printfD {c : UInt8} (hdigit : Decimal.isDigit c = false) (hminus : c ≠ 45)
    (n : Int) : c ∉ printfD n := by
  have htext : c ∉ Decimal.text n.natAbs := by
    intro hmem
    have h := Decimal.isDigit_of_mem_text n.natAbs c hmem
    rw [hdigit] at h
    cases h
  unfold printfD
  split
  · simp [hminus,htext]
  · exact htext

theorem printfD_injective {m n : Int} (h : printfD m = printfD n) : m = n := by
  have hminus : ∀ k : Nat, (45 : UInt8) ∉ Decimal.text k := by
    intro k hmem
    exact absurd (Decimal.isDigit_of_mem_text k 45 hmem) (by decide)
  have hhead : ∀ (j k : Nat), 45 :: Decimal.text j ≠ Decimal.text k := by
    intro j k heq
    exact hminus k (heq ▸ List.mem_cons_self)
  unfold printfD at h
  split at h
  · split at h
    · have habs := Decimal.text_injective (List.cons.inj h).2
      omega
    · exact absurd h (hhead _ _)
  · split at h
    · exact absurd h.symm (hhead _ _)
    · have habs := Decimal.text_injective h
      omega

theorem sendingText_injective {name name' hello hello' : Buffer} {port port' : Int}
    (hname : (32 : UInt8) ∉ name.text) (hname' : (32 : UInt8) ∉ name'.text)
    (h : sendingText name port hello = sendingText name' port' hello') :
    name.text = name'.text ∧ port = port' ∧ hello.text = hello'.text := by
  -- the text as what stands before its first blank and what stands behind it
  have hsplit : ∀ (n : Buffer) (p : Int) (m : Buffer), sendingText n p m =
      (n.text ++ 91 :: ([80,79,82,84,58] ++ printfD p ++ [93])) ++
        32 :: ([115,97,121,115,58,32] ++ m.text) := by
    intro n p m
    simp [sendingText]
  have hblank : ∀ p : Int, (32 : UInt8) ∉ printfD p := notMem_printfD (by decide) (by decide)
  have hbracket : ∀ p : Int, (91 : UInt8) ∉ [80,79,82,84,58] ++ printfD p ++ [93] := by
    intro p
    simp [notMem_printfD (show Decimal.isDigit 91 = false by decide) (by decide) p]
  rw [hsplit,hsplit] at h
  obtain ⟨hfront,hback⟩ := cut_at_first (by simp [hname,hblank]) (by simp [hname',hblank]) h
  obtain ⟨hnames,hports⟩ := cut_at_last (hbracket port) (hbracket port') hfront
  refine ⟨hnames,printfD_injective ?_,List.append_cancel_left hback⟩
  exact List.append_cancel_left (List.append_cancel_right hports)

theorem blank_notMem (l : Login) : (32 : UInt8) ∉ l.buffer.text := by
  rw [Login.buffer,Buffer.text_ofBytes_of_nulFree l.nulFree]
  intro hmem
  exact absurd (l.word 32 hmem) (by decide)

def Login.line (l : Login) (message : Message) : List UInt8 :=
  sendingText l.buffer l.port (Buffer.ofBytes message.text)

theorem prints_taken (l : Login) (message : Message) {turn : Turn} (hturn : turn.Happens)
    {n : Nat} (hbytes : turn.bytes = (SendResult.accepted n).taken (l.frame message))
    (hlt : (l.line message).length < n) (hle : n ≤ messageSize) (printed : List UInt8) :
    turn.Prints printed ↔ printed = l.line message :=
  prints_frame (sending_login l message) hturn hle hbytes hlt printed

/-- From the terminal of one peer to that of another: where the kernel takes more of a frame
than its text and one recv returns what it took, the text is shown as written, behind any
earlier messages of the call; and equal texts come from the same name and port and are the
same message. -/
theorem shown_as_written (l other : Login) (message reply : Message) (n m : Nat)
    (turn next : Turn) (hturn : turn.Happens) (hnext : next.Happens)
    (hbytes : turn.bytes = (SendResult.accepted n).taken (l.frame message))
    (hnextBytes : next.bytes = (SendResult.accepted m).taken (other.frame reply))
    (hcut : (l.line message).length < n ∧ n ≤ messageSize)
    (hnextCut : (other.line reply).length < m ∧ m ≤ messageSize) :
    turn.Prints (l.line message) ∧ next.Prints (other.line reply) ∧
      (SameText turn next ↔
        l.name = other.name ∧ l.port = other.port ∧ message.text = reply.text) := by
  have hprints := prints_taken l message hturn hbytes hcut.1 hcut.2
  have hnextPrints := prints_taken other reply hnext hnextBytes hnextCut.1 hnextCut.2
  refine ⟨(hprints _).mpr rfl,(hnextPrints _).mpr rfl,?_⟩
  have hsame : SameText turn next ↔ l.line message = other.line reply := by
    constructor
    · intro h
      obtain ⟨printed,hone,htwo⟩ := h
      exact ((hprints printed).mp hone).symm.trans ((hnextPrints printed).mp htwo)
    · intro h
      exact ⟨_,(hprints _).mpr rfl,(hnextPrints _).mpr h⟩
  rw [hsame]
  constructor
  · intro h
    obtain ⟨hname,hport,htext⟩ := sendingText_injective (blank_notMem l) (blank_notMem other) h
    simp only [Login.buffer,Buffer.text_ofBytes_of_nulFree l.nulFree,
      Buffer.text_ofBytes_of_nulFree other.nulFree] at hname
    simp only [Buffer.text_ofBytes_of_nulFree message.nulFree,
      Buffer.text_ofBytes_of_nulFree reply.nulFree] at htext
    exact ⟨hname,hport,htext⟩
  · intro h
    obtain ⟨hname,hport,htext⟩ := h
    rw [Login.line,Login.line,Login.buffer,Login.buffer,hname,hport,htext]

def jo : Login where
  name := [106,111]
  port := 80
  nonempty := by simp
  word := by simp [isSpace]
  nulFree := by decide
  fits := by decide
  isInt := ⟨by decide,by decide⟩

def hi : Message := ⟨[104,105],by decide,by decide,by decide⟩

def ho : Message := ⟨[104,111],by decide,by decide,by decide⟩

theorem says_short : (jo.line hi).length < messageSize ∧ (jo.line ho).length < messageSize := by
  decide +kernel

theorem shown_as_written_jo :
    (aloneTurn ((SendResult.accepted messageSize).taken (jo.frame hi))).Prints (jo.line hi) ∧
    (aloneTurn ((SendResult.accepted messageSize).taken (jo.frame ho))).Prints (jo.line ho) ∧
    (SameText (aloneTurn ((SendResult.accepted messageSize).taken (jo.frame hi)))
        (aloneTurn ((SendResult.accepted messageSize).taken (jo.frame ho))) ↔
      jo.name = jo.name ∧ jo.port = jo.port ∧ hi.text = ho.text) :=
  shown_as_written jo jo hi ho messageSize messageSize _ _ (aloneTurn_happens _).1
    (aloneTurn_happens _).1 rfl rfl ⟨says_short.1,Nat.le_refl _⟩ ⟨says_short.2,Nat.le_refl _⟩

end CTalk
