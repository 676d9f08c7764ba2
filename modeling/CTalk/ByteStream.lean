import Mathlib.Data.List.TakeWhile

/-! NUL-terminated character arrays, and byte streams cut into bounded non-empty
pieces. -/

set_option autoImplicit false

namespace ByteStream

/-- The memory a character pointer gives access to. A terminator always lies inside it,
so a scan for the end of the string never leaves the array. -/
structure Buffer where
  mem : List UInt8
  terminated : (0 : UInt8) ∈ mem
  deriving DecidableEq, Repr

def Buffer.text (b : Buffer) : List UInt8 := b.mem.takeWhile (fun c => c ≠ 0)

def Buffer.strlen (b : Buffer) : Nat := b.text.length

def Buffer.ofBytes (bs : List UInt8) : Buffer := ⟨bs ++ [0],by simp⟩

def NulFree (bs : List UInt8) : Prop := (0 : UInt8) ∉ bs

instance (bs : List UInt8) : Decidable (NulFree bs) :=
  inferInstanceAs (Decidable (¬ (0 : UInt8) ∈ bs))

theorem takeWhile_ne_self {b : UInt8} {bs : List UInt8} (h : b ∉ bs) :
    bs.takeWhile (fun c => c ≠ b) = bs := by
  rw [List.takeWhile_eq_self_iff]
  intro c hc
  have hne : c ≠ b := fun heq => h (heq ▸ hc)
  simpa using hne

theorem takeWhile_ne_append {b : UInt8} {bs : List UInt8} (h : b ∉ bs) (rest : List UInt8) :
    (bs ++ b :: rest).takeWhile (fun c => c ≠ b) = bs := by
  have hself := takeWhile_ne_self h
  rw [List.takeWhile_eq_self_iff] at hself
  rw [List.takeWhile_append_of_pos hself]
  simp

theorem takeWhile_append_of_stop {p : UInt8 → Bool} {run rest : List UInt8}
    (hrun : ∀ c ∈ run, p c) (hstop : ∀ c ∈ rest.head?, p c = false) :
    (run ++ rest).takeWhile p = run := by
  rw [List.takeWhile_append_of_pos hrun]
  cases rest with
  | nil => simp
  | cons c rest => simp [hstop c rfl]

theorem dropWhile_append_of_stop {p : UInt8 → Bool} {run rest : List UInt8}
    (hrun : ∀ c ∈ run, p c) (hstop : ∀ c ∈ rest.head?, p c = false) :
    (run ++ rest).dropWhile p = rest := by
  rw [List.dropWhile_append_of_pos hrun]
  cases rest with
  | nil => rfl
  | cons c rest => simp [hstop c rfl]

theorem takeWhile_of_nulFree {bs : List UInt8} (h : NulFree bs) :
    bs.takeWhile (fun c => c ≠ 0) = bs := takeWhile_ne_self h

@[simp] theorem Buffer.mem_ofBytes (bs : List UInt8) : (ofBytes bs).mem = bs ++ [0] := rfl

theorem Buffer.text_ofBytes (bs : List UInt8) :
    (ofBytes bs).text = bs.takeWhile (fun c => c ≠ 0) := by
  have hpre := List.takeWhile_prefix (l := bs) (fun c => decide (c ≠ 0))
  simp only [text,ofBytes,List.takeWhile_append]
  split
  · rename_i h
    rw [hpre.eq_of_length h]
    simp
  · rfl

theorem Buffer.text_ofBytes_of_nulFree {bs : List UInt8} (h : NulFree bs) :
    (ofBytes bs).text = bs := by
  rw [text_ofBytes,takeWhile_of_nulFree h]

theorem Buffer.text_ofBytes_length_le (bs : List UInt8) :
    (ofBytes bs).text.length ≤ bs.length := by
  rw [text_ofBytes]
  exact (List.takeWhile_prefix _).length_le

theorem Buffer.text_ofBytes_eq_iff {bs : List UInt8} :
    (ofBytes bs).text = bs ↔ NulFree bs := by
  refine ⟨?_,text_ofBytes_of_nulFree⟩
  intro h h0
  rw [← h,text_ofBytes] at h0
  simpa using List.mem_takeWhile_imp h0

theorem Buffer.nulFree_text (b : Buffer) : NulFree b.text := by
  intro h
  simpa using List.mem_takeWhile_imp h

theorem Buffer.take_strlen (b : Buffer) : b.mem.take b.strlen = b.text :=
  (List.prefix_iff_eq_take.mp (List.takeWhile_prefix _)).symm

/-- A non-empty piece of a stream, of at most cap bytes. -/
structure Chunk (cap : Nat) where
  bytes : List UInt8
  nonempty : bytes ≠ []
  le_cap : bytes.length ≤ cap
  deriving DecidableEq, Repr

def stream {cap : Nat} (chunks : List (Chunk cap)) : List UInt8 :=
  (chunks.map Chunk.bytes).flatten

@[simp] theorem stream_nil {cap : Nat} : stream ([] : List (Chunk cap)) = [] := rfl

@[simp] theorem stream_cons {cap : Nat} (c : Chunk cap) (cs : List (Chunk cap)) :
    stream (c :: cs) = c.bytes ++ stream cs := rfl

@[simp] theorem stream_append {cap : Nat} (cs ds : List (Chunk cap)) :
    stream (cs ++ ds) = stream cs ++ stream ds := by
  simp [stream]

theorem Chunk.bytes_eq {cap : Nat} (earlier : List (Chunk cap)) (c : Chunk cap)
    (later : List (Chunk cap)) :
    ((stream (earlier ++ c :: later)).drop (stream earlier).length).take c.bytes.length =
      c.bytes := by
  rw [stream_append,stream_cons,List.drop_left,List.take_left]

theorem Chunk.length_pos {cap : Nat} (c : Chunk cap) : 0 < c.bytes.length :=
  List.length_pos_iff.mpr c.nonempty

def Chunk.first (cap : Nat) (waiting : List UInt8) : Option (Chunk cap) :=
  if h : waiting.take cap ≠ [] then some ⟨waiting.take cap,h,List.length_take_le cap waiting⟩
  else none

theorem Chunk.first_of_le {cap : Nat} {bs : List UInt8} (hne : bs ≠ [])
    (hle : bs.length ≤ cap) : first cap bs = some ⟨bs,hne,hle⟩ := by
  have htake : bs.take cap = bs := List.take_of_length_le hle
  simp [first,htake,hne]

theorem pieces_eq_parts {cap : Nat} {cs : List (Chunk cap)} {parts : List (List UInt8)}
    (hstream : stream cs = parts.flatten)
    (hlen : cs.map (fun c => c.bytes.length) = parts.map List.length) :
    cs.map Chunk.bytes = parts := by
  refine List.eq_iff_flatten_eq.mpr ⟨hstream,?_⟩
  simpa [List.map_map,Function.comp_def] using hlen

end ByteStream
