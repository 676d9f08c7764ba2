import CTalk.Lines
import CTalk.Network

/-! client.c: get_message over the bytes of standard input, and what its repeated calls
return until the input is used up. -/

set_option autoImplicit false

namespace CTalk
open ByteStream

def newline : UInt8 := 10

/-- What fgets stores of the input and what it leaves: at most n bytes, none behind a
newline. -/
def scanLine : Nat → List UInt8 → List UInt8 × List UInt8
  | 0, cs => ([],cs)
  | _ + 1, [] => ([],[])
  | n + 1, c :: cs =>
    if c = newline then ([c],cs)
    else
      let (line,rest) := scanLine n cs
      (c :: line,rest)

/-- NULL at the end of the input, where no byte is stored. -/
def fgets (size : Nat) (input : List UInt8) : CharPtr × List UInt8 :=
  if input = [] then (none,input)
  else
    let (line,rest) := scanLine (size - 1) input
    (some (Buffer.ofBytes line),rest)

def strcspn (s : Buffer) (reject : UInt8) : Nat :=
  (s.text.takeWhile (fun c => c ≠ reject)).length

def putNul (s : Buffer) (i : Nat) : Buffer where
  mem := s.mem.set i 0
  terminated := by
    by_cases hi : i < s.mem.length
    · exact List.mem_set hi 0
    · rw [List.set_eq_of_length_le (Nat.le_of_not_lt hi)]
      exact s.terminated

def getMessage (input : List UInt8) : CharPtr × List UInt8 :=
  match fgets maxBufferSize input with
  | (none,rest) => (none,rest)
  | (some buffer,rest) =>
    let buffer := putNul buffer (strcspn buffer newline)
    if 0 < buffer.strlen then (some buffer,rest) else (none,rest)

theorem scanLine_cases (n : Nat) (input : List UInt8) :
    (∃ line rest, newline ∉ line ∧ line.length = n ∧ input = line ++ rest ∧
      scanLine n input = (line,rest)) ∨
    (∃ line rest, newline ∉ line ∧ line.length < n ∧ input = line ++ newline :: rest ∧
      scanLine n input = (line ++ [newline],rest)) ∨
    (newline ∉ input ∧ input.length < n ∧ scanLine n input = (input,[])) := by
  fun_induction scanLine n input with
  | case1 cs => exact .inl ⟨[],cs,by simp,rfl,rfl,rfl⟩
  | case2 n => exact .inr (.inr ⟨by simp,by simp,rfl⟩)
  | case3 n cs => exact .inr (.inl ⟨[],cs,by simp,by simp,rfl,rfl⟩)
  | case4 n c cs hc line rest hscan ih =>
    have hcons : ∀ l : List UInt8, newline ∉ l → newline ∉ c :: l := by
      intro l hl hmem
      rcases List.mem_cons.mp hmem with hhead | htail
      · exact hc hhead.symm
      · exact hl htail
    rcases ih with hfull | hline | hend
    · obtain ⟨l,r,hl,hlen,hcs,heq⟩ := hfull
      rw [hscan] at heq
      cases heq
      exact .inl ⟨c :: line,rest,hcons line hl,by simp [hlen],by simp [hcs],rfl⟩
    · obtain ⟨l,r,hl,hlen,hcs,heq⟩ := hline
      rw [hscan] at heq
      cases heq
      exact .inr (.inl ⟨c :: l,rest,hcons l hl,by simpa using hlen,by simp [hcs],rfl⟩)
    · obtain ⟨hl,hlen,heq⟩ := hend
      rw [hscan] at heq
      cases heq
      exact .inr (.inr ⟨hcons cs hl,by simpa using hlen,rfl⟩)

theorem putNul_text (s : Buffer) {i : Nat} (hi : i ≤ s.strlen) :
    (putNul s i).text = s.text.take i := by
  have hpre : s.text <+: s.mem := List.takeWhile_prefix _
  have hlt : i < s.mem.length := by
    apply Nat.lt_of_le_of_lt hi
    apply Nat.lt_of_le_of_ne hpre.length_le
    intro hlen
    have hall : s.text = s.mem := hpre.eq_of_length hlen
    exact s.nulFree_text (hall ▸ s.terminated)
  have htake : s.mem.take i = s.text.take i := by
    rw [← s.take_strlen,List.take_take,Nat.min_eq_left hi]
  have hnul : (0 : UInt8) ∉ s.text.take i := fun h => s.nulFree_text (List.mem_of_mem_take h)
  have hmem : (putNul s i).mem = s.text.take i ++ 0 :: s.mem.drop (i + 1) := by
    rw [← htake]
    exact (List.set_eq_take_append_cons_drop).trans (if_pos hlt)
  rw [Buffer.text,hmem]
  exact takeWhile_ne_append hnul _

theorem putNul_strcspn_text (s : Buffer) (reject : UInt8) :
    (putNul s (strcspn s reject)).text = s.text.takeWhile (fun c => c ≠ reject) := by
  have hpre : s.text.takeWhile (fun c => c ≠ reject) <+: s.text := List.takeWhile_prefix _
  rw [putNul_text s (show strcspn s reject ≤ s.strlen from hpre.length_le)]
  exact (List.prefix_iff_eq_take.mp hpre).symm

/-- One call turns the line into a message, or into none where it is empty, and leaves
the rest of the input. -/
def Returns (input line rest : List UInt8) : Prop :=
  (getMessage input).2 = rest ∧
    (getMessage input).1.toList.map Buffer.text = Lines.pieces (maxBufferSize - 1) line

theorem getMessage_of_ne_nil {input taken rest : List UInt8} (hne : input ≠ [])
    (hscan : scanLine (maxBufferSize - 1) input = (taken,rest)) :
    getMessage input =
      if 0 < (putNul (Buffer.ofBytes taken) (strcspn (Buffer.ofBytes taken) newline)).strlen
      then (some (putNul (Buffer.ofBytes taken) (strcspn (Buffer.ofBytes taken) newline)),rest)
      else (none,rest) := by
  simp only [getMessage,fgets,if_neg hne,hscan]

theorem returns_of_scanLine {input taken line rest : List UInt8} (hne : input ≠ [])
    (hscan : scanLine (maxBufferSize - 1) input = (taken,rest)) (hnul : NulFree taken)
    (hline : taken.takeWhile (fun c => c ≠ newline) = line)
    (hlen : line.length ≤ maxBufferSize - 1) : Returns input line rest := by
  have htext := putNul_strcspn_text (Buffer.ofBytes taken) newline
  rw [Buffer.text_ofBytes_of_nulFree hnul,hline] at htext
  rw [Returns,getMessage_of_ne_nil hne hscan,Buffer.strlen,htext]
  by_cases hempty : line = []
  · subst hempty
    rw [if_neg (by simp),Lines.pieces_nil]
    exact ⟨rfl,rfl⟩
  · rw [if_pos (List.length_pos_iff.mpr hempty),Lines.pieces_of_le hempty hlen,← htext]
    exact ⟨rfl,rfl⟩

theorem cut_of_returns {input line rest : List UInt8} (h : Returns input line rest)
    (hcut : Lines.cut newline (maxBufferSize - 1) input =
      Lines.pieces (maxBufferSize - 1) line ++ Lines.cut newline (maxBufferSize - 1) rest) :
    Lines.cut newline (maxBufferSize - 1) input =
      (getMessage input).1.toList.map Buffer.text ++
        Lines.cut newline (maxBufferSize - 1) (getMessage input).2 := by
  rw [h.2,h.1,hcut]

theorem getMessage_cut {input : List UInt8} (hne : input ≠ []) (hnul : NulFree input) :
    Lines.cut newline (maxBufferSize - 1) input =
      (getMessage input).1.toList.map Buffer.text ++
        Lines.cut newline (maxBufferSize - 1) (getMessage input).2 := by
  rcases scanLine_cases (maxBufferSize - 1) input with hfull | hline | hend
  · -- a line at least as long as the buffer: the newline stays for the next call
    obtain ⟨line,rest,hl,hlen,hinput,hscan⟩ := hfull
    have hlnul : NulFree line := fun h => hnul (by simp [hinput,h])
    have hlne : line ≠ [] := by
      intro h
      rw [h] at hlen
      cases hlen
    apply cut_of_returns (returns_of_scanLine hne hscan hlnul (takeWhile_ne_self hl) hlen.le)
    rw [hinput,Lines.cut_append (by decide) hl hlen,Lines.pieces_of_le hlne hlen.le]
    rfl
  · obtain ⟨line,rest,hl,hlen,hinput,hscan⟩ := hline
    have hlnul : NulFree (line ++ [newline]) := by
      intro h
      apply hnul
      rw [hinput]
      rcases List.mem_append.mp h with hin | hnew
      · simp [hin]
      · exact absurd (List.mem_singleton.mp hnew) (by decide)
    apply cut_of_returns
      (returns_of_scanLine hne hscan hlnul (takeWhile_ne_append hl []) hlen.le)
    rw [hinput,Lines.cut_line _ hl]
  · obtain ⟨hl,hlen,hscan⟩ := hend
    apply cut_of_returns (returns_of_scanLine hne hscan hnul (takeWhile_ne_self hl) hlen.le)
    rw [Lines.cut_last _ hl,Lines.cut_nil,List.append_nil]

theorem scanLine_rest_lt {n : Nat} (hn : 0 < n) {input : List UInt8} (hne : input ≠ []) :
    (scanLine n input).2.length < input.length := by
  have hpos := List.length_pos_iff.mpr hne
  rcases scanLine_cases n input with hfull | hline | hend
  · obtain ⟨line,rest,_,hlen,hinput,hscan⟩ := hfull
    rw [hscan,hinput]
    simp only [List.length_append]
    omega
  · obtain ⟨line,rest,_,_,hinput,hscan⟩ := hline
    rw [hscan,hinput]
    simp only [List.length_append,List.length_cons]
    omega
  · rw [hend.2.2]
    exact hpos

theorem getMessage_rest {input : List UInt8} (hne : input ≠ []) :
    (getMessage input).2 = (scanLine (maxBufferSize - 1) input).2 := by
  rw [getMessage_of_ne_nil hne rfl]
  split <;> rfl

def getMessages (input : List UInt8) : List Buffer :=
  if input = [] then []
  else (getMessage input).1.toList ++ getMessages (getMessage input).2
termination_by input.length
decreasing_by
  rename_i hne
  rw [getMessage_rest hne]
  exact scanLine_rest_lt (by decide) hne

theorem scanLine_rest_subset (n : Nat) (input : List UInt8) :
    (scanLine n input).2 ⊆ input := by
  rcases scanLine_cases n input with hfull | hline | hend
  · obtain ⟨line,rest,_,_,hinput,hscan⟩ := hfull
    rw [hscan,hinput]
    exact List.subset_append_right line rest
  · obtain ⟨line,rest,_,_,hinput,hscan⟩ := hline
    rw [hscan,hinput]
    exact fun c hc => List.mem_append_right line (List.mem_cons_of_mem newline hc)
  · rw [hend.2.2]
    exact List.nil_subset input

theorem getMessages_cut {input : List UInt8} (hnul : NulFree input) :
    (getMessages input).map Buffer.text = Lines.cut newline (maxBufferSize - 1) input := by
  fun_induction getMessages input with
  | case1 => simp
  | case2 input hne ih =>
    have hrest : NulFree (getMessage input).2 := by
      rw [getMessage_rest hne]
      exact fun h => hnul (scanLine_rest_subset _ _ h)
    rw [List.map_append,ih hrest,← getMessage_cut hne hnul]

theorem console_messages {input : List UInt8} (hnul : NulFree input) :
    (getMessages input).map Buffer.text = Lines.cut newline (maxBufferSize - 1) input ∧
    ((getMessages input).map Buffer.text).flatten = input.filter (fun c => c ≠ newline) ∧
    ∀ m ∈ getMessages input,
      m.text ≠ [] ∧ newline ∉ m.text ∧ m.strlen ≤ maxBufferSize - 1 := by
  have hcut := getMessages_cut hnul
  refine ⟨hcut,?_,?_⟩
  · rw [hcut,Lines.flatten_cut newline (by decide)]
    apply List.filter_congr
    intro c _
    rw [beq_eq_decide,decide_not]
  · intro m hm
    have hmem : m.text ∈ Lines.cut newline (maxBufferSize - 1) input := by
      rw [← hcut]
      exact List.mem_map_of_mem hm
    obtain ⟨hne,hle,hnew⟩ := Lines.mem_cut hmem
    exact ⟨hne,hnew,hle⟩

/-- An empty line between two lines is dropped, and the last line needs no newline. -/
theorem console_messages_three_lines :
    (getMessages [97,10,10,98]).map Buffer.text =
      Lines.cut newline (maxBufferSize - 1) [97,10,10,98] ∧
    ((getMessages [97,10,10,98]).map Buffer.text).flatten =
      [97,10,10,98].filter (fun c => c ≠ newline) ∧
    ∀ m ∈ getMessages [97,10,10,98],
      m.text ≠ [] ∧ newline ∉ m.text ∧ m.strlen ≤ maxBufferSize - 1 :=
  console_messages (by decide)

end CTalk
