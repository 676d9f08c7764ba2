import CTalk.Session

/-! The XOR cipher between strlen on both sides: what is left of one message after
encrypt, the wire and decrypt, for every way the wire is cut into recv results. -/

set_option autoImplicit false

namespace CTalk
open ByteStream

/-- The first index at which the plaintext meets the key byte of its position, or the
length of the plaintext. -/
def firstKeyByte (key : UInt64) (m : List UInt8) : Nat :=
  m.zipIdx.findIdx (fun c => c.1 = keyByte key (c.2 % 8))

def receiveAndDecrypt (key : UInt64) (received : RecvResult) : Except Fault Buffer := do
  let ciphertext ← receiveMessage received
  decrypt ciphertext key

/-- The plaintext bytes at offset to offset + length - 1 under the key bytes of their
own positions and those that a decryption from the offset on uses. -/
def reread (key : UInt64) (m : List UInt8) (offset length : Nat) : List UInt8 :=
  ((m.drop offset).take length).mapIdx
    (fun j c => c ^^^ keyByte key ((offset + j) % 8) ^^^ keyByte key (j % 8))

section cipher
variable (key : UInt64)

theorem receiveAndDecrypt_data (chunk : Chunk (maxBufferSize - 1)) :
    ∃ decrypted, receiveAndDecrypt key (.data chunk) = .ok decrypted ∧
      decrypted.text = decodedText key chunk.bytes :=
  ⟨_,decrypt_some (Buffer.ofBytes chunk.bytes) key,rfl⟩

theorem mapM_receiveAndDecrypt (chunks : List (Chunk (maxBufferSize - 1))) :
    chunks.mapM (fun c => (receiveAndDecrypt key (.data c)).map Buffer.text) =
      .ok (chunks.map (fun c => decodedText key c.bytes)) := by
  induction chunks with
  | nil => rfl
  | cons c cs ih =>
    obtain ⟨decrypted,hdec,htext⟩ := receiveAndDecrypt_data key c
    rw [List.mapM_cons,ih,hdec,List.map_cons,← htext]
    rfl

theorem xorKey_take (m : List UInt8) (n : Nat) :
    (xorKey key m).take n = xorKey key (m.take n) := by
  apply List.ext_getElem?
  intro i
  by_cases h : i < n
  · simp [xorKey_getElem?,h]
  · simp [h]

theorem firstKeyByte_le (m : List UInt8) : firstKeyByte key m ≤ m.length := by
  have h : firstKeyByte key m ≤ m.zipIdx.length := List.findIdx_le_length
  simpa using h

theorem text_ofBytes_xorKey (m : List UInt8) :
    (Buffer.ofBytes (xorKey key m)).text = xorKey key (m.take (firstKeyByte key m)) := by
  rw [Buffer.text_ofBytes,List.takeWhile_eq_take_findIdx_not,xorKey_take]
  congr 2
  rw [xorKey,List.mapIdx_eq_zipIdx_map,List.findIdx_map,firstKeyByte]
  congr 1
  funext c
  simp only [Function.comp_apply,ne_eq,decide_not,Bool.not_not,UInt8.xor_eq_zero_iff]

theorem nulFree_wire (m : List UInt8) : NulFree (xorKey key (m.take (firstKeyByte key m))) := by
  rw [← text_ofBytes_xorKey]
  exact Buffer.nulFree_text _

theorem firstKeyByte_eq_length_iff (m : List UInt8) :
    firstKeyByte key m = m.length ↔ ∀ i c, m[i]? = some c → c ≠ keyByte key (i % 8) := by
  rw [← nulFree_xorKey_iff,← Buffer.text_ofBytes_eq_iff,text_ofBytes_xorKey,← xorKey_take,
    List.take_eq_self_iff,xorKey_length]
  have hle := firstKeyByte_le key m
  omega

end cipher

theorem decodedText_ciphertext (key : UInt64) {m : List UInt8} (hm : NulFree m) :
    decodedText key (xorKey key m) = m.take (firstKeyByte key m) := by
  rw [decodedText,text_ofBytes_xorKey key m,xorKey_xorKey]
  exact Buffer.text_ofBytes_of_nulFree (fun h => hm (List.mem_of_mem_take h))

theorem decrypt_encrypt_text {key : UInt64} {plaintext ciphertext decrypted : Buffer}
    (henc : encrypt (some plaintext) key = .ok ciphertext)
    (hdec : decrypt (some ciphertext) key = .ok decrypted) :
    decrypted.text = decodedText key (xorKey key plaintext.text) := by
  rw [encrypt_some] at henc
  cases henc
  rw [decrypt_some] at hdec
  cases hdec
  rfl

/-- Decryption gives the plaintext back exactly where no byte of it is the key byte of its
position. -/
theorem decrypt_encrypt_iff (key : UInt64) (plaintext : Buffer) :
    (∃ ciphertext decrypted, encrypt (some plaintext) key = .ok ciphertext ∧
      decrypt (some ciphertext) key = .ok decrypted ∧
      decrypted.text = plaintext.text ∧ decrypted.strlen = plaintext.strlen) ↔
    ∀ i c, plaintext.text[i]? = some c → c ≠ keyByte key (i % 8) := by
  have hcut := decodedText_ciphertext key plaintext.nulFree_text
  rw [← firstKeyByte_eq_length_iff]
  constructor
  · intro h
    obtain ⟨ciphertext,decrypted,henc,hdec,htext,_⟩ := h
    rw [← decrypt_encrypt_text henc hdec,htext] at hcut
    have hle := firstKeyByte_le key plaintext.text
    have hlen := (List.take_eq_self_iff _).mp hcut.symm
    omega
  · intro h
    have hall : decodedText key (xorKey key plaintext.text) = plaintext.text := by
      rw [hcut,h,List.take_length]
    exact ⟨_,_,encrypt_some plaintext key,decrypt_some _ key,hall,congrArg List.length hall⟩

/-- Under the key 97 the letter a is encrypted to the empty string. -/
theorem decrypt_encrypt_loses_letter :
    ¬ ∀ (key : UInt64) (plaintext : Buffer), ∃ ciphertext decrypted,
      encrypt (some plaintext) key = .ok ciphertext ∧
      decrypt (some ciphertext) key = .ok decrypted ∧
      decrypted.text = plaintext.text ∧ decrypted.strlen = plaintext.strlen := by
  intro h
  obtain ⟨ciphertext,decrypted,henc,hdec,htext,_⟩ := h 97 (Buffer.ofBytes [97])
  rw [decrypt_encrypt_text henc hdec] at htext
  exact absurd htext (by decide)

section chunks
variable (key : UInt64) {m : List UInt8}

theorem xorKey_piece (m : List UInt8) (offset length : Nat) :
    xorKey key (((xorKey key m).drop offset).take length) = reread key m offset length := by
  apply List.ext_getElem?
  intro j
  by_cases hj : j < length
  · simp [reread,xorKey_getElem?,hj,Function.comp_def]
  · simp [reread,hj]

theorem reread_of_dvd (m : List UInt8) {offset : Nat} (h : 8 ∣ offset) (length : Nat) :
    reread key m offset length = (m.drop offset).take length := by
  apply List.ext_getElem?
  intro j
  have hmod : (offset + j) % 8 = j % 8 := by omega
  cases hc : ((m.drop offset).take length)[j]? with
  | none => simp [reread,hc]
  | some c =>
    simp only [reread,List.getElem?_mapIdx,hc,Option.map_some,hmod]
    rw [UInt8.xor_assoc,UInt8.xor_self,UInt8.xor_zero]

theorem reread_take (m : List UInt8) {n offset length : Nat} (h : offset + length ≤ n) :
    reread key (m.take n) offset length = reread key m offset length := by
  have hpiece : ((m.take n).drop offset).take length = (m.drop offset).take length := by
    rw [List.drop_take,List.take_take,Nat.min_eq_left (by omega)]
  rw [reread,hpiece,reread]

theorem decodedText_piece {offset length : Nat} (hw : NulFree (xorKey key m)) :
    decodedText key (((xorKey key m).drop offset).take length) =
      (reread key m offset length).takeWhile (fun c => c ≠ 0) := by
  have hpiece : NulFree (((xorKey key m).drop offset).take length) :=
    fun h => hw (List.mem_of_mem_drop (List.mem_of_mem_take h))
  rw [decodedText,Buffer.text_ofBytes_of_nulFree hpiece,xorKey_piece,Buffer.text_ofBytes]

theorem decodedText_chunk (hw : NulFree (xorKey key m))
    {earlier later : List (Chunk (maxBufferSize - 1))} {c : Chunk (maxBufferSize - 1)}
    (hcut : stream (earlier ++ c :: later) = xorKey key m) :
    decodedText key c.bytes =
      (reread key m (stream earlier).length c.bytes.length).takeWhile (fun c => c ≠ 0) := by
  rw [← decodedText_piece key hw,← hcut,Chunk.bytes_eq]

theorem decodedText_flatten (hm : NulFree m) (hw : NulFree (xorKey key m))
    (earlier chunks : List (Chunk (maxBufferSize - 1)))
    (hcut : stream (earlier ++ chunks) = xorKey key m)
    (hdvd : ∀ before c after, chunks = before ++ c :: after →
      8 ∣ (stream (earlier ++ before)).length) :
    (chunks.map (fun c => decodedText key c.bytes)).flatten =
      m.drop (stream earlier).length := by
  induction chunks generalizing earlier with
  | nil =>
    have hlen := congrArg List.length hcut
    simp only [List.append_nil,xorKey_length] at hlen
    simp [hlen]
  | cons c cs ih =>
    have hsplit : earlier ++ c :: cs = (earlier ++ [c]) ++ cs := by simp
    have hrest := ih (earlier ++ [c]) (by rw [← hsplit,hcut]) (by
      intro before d after hcs
      have h := hdvd (c :: before) d after (by rw [hcs,List.cons_append])
      simpa using h)
    have hpiece : NulFree ((m.drop (stream earlier).length).take c.bytes.length) :=
      fun h => hm (List.mem_of_mem_drop (List.mem_of_mem_take h))
    have hoffset : 8 ∣ (stream earlier).length := by simpa using hdvd [] c cs rfl
    have hhead := decodedText_chunk key hw hcut
    rw [reread_of_dvd key m hoffset,takeWhile_of_nulFree hpiece] at hhead
    rw [List.map_cons,List.flatten_cons,hrest,hhead]
    simp only [stream_append,stream_cons,stream_nil,List.append_nil,List.length_append]
    rw [← List.drop_drop,List.take_append_drop]

end chunks

theorem dvd_of_length_one {chunks : List (Chunk (maxBufferSize - 1))}
    (hone : chunks.length = 1) (earlier : List (Chunk (maxBufferSize - 1)))
    (c : Chunk (maxBufferSize - 1)) (later : List (Chunk (maxBufferSize - 1)))
    (hsplit : chunks = earlier ++ c :: later) : 8 ∣ (stream earlier).length := by
  have hnil : earlier = [] := by
    apply List.eq_nil_of_length_eq_zero
    rw [hsplit,List.length_append,List.length_cons] at hone
    omega
  rw [hnil]
  exact Nat.dvd_zero 8

theorem wire_of_accepted (message : Buffer) :
    (sendMessageClient message (.accepted message.strlen)).wire = message.text :=
  List.take_length

/-- The wire carries the message up to its first key byte, and each chunk is decrypted
from its own first byte on. -/
theorem reception_law (key : UInt64) (plaintext ciphertext : Buffer)
    (henc : encrypt (some plaintext) key = .ok ciphertext) :
    (sendMessageClient ciphertext (.accepted ciphertext.strlen)).wire.length =
      firstKeyByte key plaintext.text ∧
    ∀ chunks : List (Chunk (maxBufferSize - 1)),
      stream chunks = (sendMessageClient ciphertext (.accepted ciphertext.strlen)).wire →
      (∀ earlier c later, chunks = earlier ++ c :: later →
        ∃ decrypted, receiveAndDecrypt key (.data c) = .ok decrypted ∧
          decrypted.text = (reread key plaintext.text (stream earlier).length
            c.bytes.length).takeWhile (fun c => c ≠ 0)) ∧
      ((chunks.length = 1 ∨
          ∀ earlier c later, chunks = earlier ++ c :: later → 8 ∣ (stream earlier).length) →
        ∃ texts, chunks.mapM (fun c => (receiveAndDecrypt key (.data c)).map Buffer.text) =
            .ok texts ∧
          texts.flatten = plaintext.text.take (firstKeyByte key plaintext.text)) := by
  rw [encrypt_some] at henc
  cases henc
  have hle := firstKeyByte_le key plaintext.text
  have hw := nulFree_wire key plaintext.text
  have hm : NulFree (plaintext.text.take (firstKeyByte key plaintext.text)) :=
    fun h => plaintext.nulFree_text (List.mem_of_mem_take h)
  rw [wire_of_accepted,text_ofBytes_xorKey]
  refine ⟨by simpa using hle,?_⟩
  intro chunks hcut
  constructor
  · intro earlier c later hsplit
    obtain ⟨decrypted,hdec,htext⟩ := receiveAndDecrypt_data key c
    refine ⟨decrypted,hdec,?_⟩
    rw [hsplit] at hcut
    have hlen := congrArg List.length hcut
    simp only [stream_append,stream_cons,List.length_append,xorKey_length,
      List.length_take] at hlen
    rw [htext,decodedText_chunk key hw hcut,reread_take key plaintext.text (by omega)]
  · intro haligned
    refine ⟨chunks.map (fun c => decodedText key c.bytes),mapM_receiveAndDecrypt key chunks,?_⟩
    have hdvd : ∀ earlier c later, chunks = earlier ++ c :: later →
        8 ∣ (stream earlier).length := by
      rcases haligned with hone | hdvd
      · exact dvd_of_length_one hone
      · exact hdvd
    have hall := decodedText_flatten key hm hw [] chunks hcut hdvd
    simpa using hall

def twoRecvs : List (Chunk (maxBufferSize - 1)) :=
  [⟨[98],by simp,by decide⟩,⟨[99],by simp,by decide⟩]

/-- Two letters under the key 1, one a recv: the key index restarts, and the second letter
is read with the first key byte. -/
theorem reception_law_two_recvs :
    ∃ decrypted, receiveAndDecrypt 1 (.data ⟨[99],by simp,by decide⟩) = .ok decrypted ∧
      decrypted.text = (reread 1 [99,99] 1 1).takeWhile (fun c => c ≠ 0) :=
  ((reception_law 1 (Buffer.ofBytes [99,99]) _ (encrypt_some _ 1)).2 twoRecvs
    (by decide +kernel)).1 [⟨[98],by simp,by decide⟩] _ [] rfl

end CTalk
