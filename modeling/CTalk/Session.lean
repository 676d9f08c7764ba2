import CTalk.Handler

/-! One connection from sender to handler: what the handler prints and how the first
bytes are read, for every way the stream is cut into recv results. -/

set_option autoImplicit false

namespace CTalk
open ByteStream

def encryptAndSend (key : UInt64) (plaintext : Buffer) (sent : SendResult) : Sent :=
  match encrypt (some plaintext) key with
  | .error fault => ⟨[],.error fault⟩
  | .ok ciphertext => sendMessageClient ciphertext sent

theorem wire_isPrefixOf (key : UInt64) (plaintext : Buffer) (sent : SendResult) :
    (encryptAndSend key plaintext sent).wire <+:
      (xorKey key plaintext.text).takeWhile (fun c => c ≠ 0) := by
  cases sent with
  | error => simp [encryptAndSend,sendMessageClient,sendUnchecked]
  | accepted n =>
    simp only [encryptAndSend,encrypt_some,sendMessageClient,sendUnchecked,Buffer.text_ofBytes]
    exact List.take_prefix n _

/-- A message that can be sent under the key, with the number of bytes of it that the
kernel accepts. -/
structure ChatSend (key : UInt64) where
  text : List UInt8
  nonempty : text ≠ []
  nulFree : NulFree text
  fits : text.length ≤ maxBufferSize - 1
  notExit : text ≠ exitText
  noKeyByte : ∀ i c, text[i]? = some c → c ≠ keyByte key (i % 8)
  accepted : Nat
  accepted_pos : 0 < accepted
  accepted_le : accepted ≤ text.length

def ChatSend.sent {key : UInt64} (s : ChatSend key) : Sent :=
  encryptAndSend key (Buffer.ofBytes s.text) (.accepted s.accepted)

def ChatSend.ciphertext {key : UInt64} (s : ChatSend key) : List UInt8 := xorKey key s.text

def Handler.keyed (self : Thread) (key : UInt64) : Handler := ⟨self,.receiving,some key,[],[]⟩

/-- The handler, keyed with the sender's key, prints exactly these messages. -/
def Prints (self : Thread) (g : Globals) (key : UInt64)
    (chunks : List (Chunk (maxBufferSize - 1))) (texts : List (List UInt8)) : Prop :=
  ∃ g' h', (Handler.keyed self key).run { g with privateKey := key } (chunks.map .data) =
    .ok (g',h') ∧ h'.printed = texts

section sender
variable {key : UInt64} (s : ChatSend key)

theorem ChatSend.nulFree_ciphertext : NulFree s.ciphertext :=
  nulFree_xorKey_iff.mpr s.noKeyByte

theorem ChatSend.sent_eq : s.sent = ⟨s.ciphertext.take s.accepted,.ok 0⟩ := by
  have hle := s.accepted_le
  have hfits := s.fits
  simp only [maxBufferSize] at hfits
  have hint : ¬ s.accepted % 2 ^ 32 = 2 ^ 32 - 1 := by omega
  simp only [ChatSend.sent,encryptAndSend,encrypt_some,sendMessageClient,sendUnchecked]
  rw [if_neg hint,Buffer.text_ofBytes_of_nulFree s.nulFree]
  rw [Buffer.text_ofBytes_of_nulFree (nulFree_xorKey_iff.mpr s.noKeyByte)]
  rfl

theorem ChatSend.wire_length : s.sent.wire.length = s.accepted := by
  have hle := s.accepted_le
  rw [s.sent_eq,List.length_take,ChatSend.ciphertext,xorKey_length]
  omega

theorem ChatSend.wire_of_full (hfull : s.accepted = s.text.length) :
    s.sent.wire = s.ciphertext := by
  rw [s.sent_eq]
  apply List.take_of_length_le
  rw [ChatSend.ciphertext,xorKey_length,hfull]

theorem ChatSend.decodedText_ciphertext : decodedText key s.ciphertext = s.text :=
  decodedText_xorKey s.nulFree s.nulFree_ciphertext

end sender

section printedTexts
variable (key : UInt64)

def printedTexts : List (Chunk (maxBufferSize - 1)) → List (List UInt8)
  | [] => []
  | c :: cs =>
    if decodedText key c.bytes = exitText then []
    else decodedText key c.bytes :: printedTexts cs

theorem printedTexts_length_le (cs : List (Chunk (maxBufferSize - 1))) :
    ((printedTexts key cs).map List.length).sum ≤ (stream cs).length := by
  induction cs with
  | nil => simp [printedTexts]
  | cons c cs ih =>
    have hc := decodedText_length_le key c.bytes
    by_cases hexit : decodedText key c.bytes = exitText
    · simp [printedTexts,hexit]
    · simp only [printedTexts,if_neg hexit,List.map_cons,List.sum_cons,stream_cons,
        List.length_append]
      omega

theorem lengths_of_printedTexts {cs : List (Chunk (maxBufferSize - 1))}
    (h : ((printedTexts key cs).map List.length).sum = (stream cs).length) :
    (printedTexts key cs).map List.length = cs.map (fun c => c.bytes.length) := by
  induction cs with
  | nil => simp [printedTexts]
  | cons c cs ih =>
    have hc := decodedText_length_le key c.bytes
    have hpos := c.length_pos
    have hle := printedTexts_length_le key cs
    by_cases hexit : decodedText key c.bytes = exitText
    · simp only [printedTexts,if_pos hexit,List.map_nil,List.sum_nil,stream_cons,
        List.length_append] at h
      omega
    · simp only [printedTexts,if_neg hexit,List.map_cons,List.sum_cons,stream_cons,
        List.length_append] at h ⊢
      have hhead : (decodedText key c.bytes).length = c.bytes.length := by omega
      rw [hhead,ih (by omega)]

theorem printedTexts_of_no_exit {cs : List (Chunk (maxBufferSize - 1))}
    (h : ∀ c ∈ cs, decodedText key c.bytes ≠ exitText) :
    printedTexts key cs = cs.map (fun c => decodedText key c.bytes) := by
  induction cs with
  | nil => rfl
  | cons c cs ih =>
    have hcs := ih (fun d hd => h d (by simp [hd]))
    simp [printedTexts,h c (by simp),hcs]

end printedTexts

theorem printed_of_run {h : Handler} {g : Globals} (hphase : h.phase = .receiving)
    {chunks : List (Chunk (maxBufferSize - 1))} {g' : Globals} {h' : Handler}
    (hrun : h.run g (chunks.map .data) = .ok (g',h')) :
    h'.printed = h.printed ++ printedTexts g.privateKey chunks := by
  induction chunks generalizing h g with
  | nil =>
    cases hrun
    simp [printedTexts]
  | cons c cs ih =>
    simp only [List.map_cons,Handler.run] at hrun
    by_cases hexit : decodedText g.privateKey c.bytes = exitText
    · rw [receive_exit g hphase c hexit] at hrun
      cases hpool : removeFromPool g.pool h.self with
      | error fault =>
        rw [hpool] at hrun
        cases hrun
      | ok pool =>
        rw [hpool] at hrun
        simp only [Except.map,bind,Except.bind] at hrun
        rw [run_finished _ rfl] at hrun
        cases hrun
        simp [printedTexts,hexit]
    · rw [receive_message g hphase c hexit] at hrun
      have hrest := ih (by exact hphase) hrun
      simpa [printedTexts,hexit] using hrest

theorem run_of_no_exit {h : Handler} {g : Globals} (hphase : h.phase = .receiving)
    {chunks : List (Chunk (maxBufferSize - 1))}
    (hexit : ∀ c ∈ chunks, decodedText g.privateKey c.bytes ≠ exitText) :
    ∃ g' h', h.run g (chunks.map .data) = .ok (g',h') := by
  induction chunks generalizing h g with
  | nil => exact ⟨g,h,rfl⟩
  | cons c cs ih =>
    simp only [List.map_cons,Handler.run]
    rw [receive_message g hphase c (hexit c (by simp))]
    apply ih
    · exact hphase
    · intro d hd
      exact hexit d (by simp [hd])

section prints
variable (self : Thread) (g : Globals) (key : UInt64)

theorem eq_printedTexts_of_prints {chunks : List (Chunk (maxBufferSize - 1))}
    {texts : List (List UInt8)} (h : Prints self g key chunks texts) :
    texts = printedTexts key chunks := by
  obtain ⟨g',h',hrun,hprinted⟩ := h
  rw [← hprinted]
  exact printed_of_run rfl hrun

theorem prints_of_no_exit {chunks : List (Chunk (maxBufferSize - 1))}
    (hexit : ∀ c ∈ chunks, decodedText key c.bytes ≠ exitText) :
    Prints self g key chunks (chunks.map (fun c => decodedText key c.bytes)) := by
  have hrun : ∃ g' h', (Handler.keyed self key).run { g with privateKey := key }
      (chunks.map .data) = .ok (g',h') := run_of_no_exit rfl hexit
  obtain ⟨g',h',hrun⟩ := hrun
  refine ⟨g',h',hrun,?_⟩
  have hprinted := printed_of_run rfl hrun
  rw [printedTexts_of_no_exit key hexit] at hprinted
  exact hprinted

end prints

/-- A message whose ciphertext is one string that one recv can return. -/
structure Sendable (key : UInt64) (m : List UInt8) : Prop where
  nonempty : m ≠ []
  nulFree : NulFree m
  fits : m.length ≤ maxBufferSize - 1
  cipher : NulFree (xorKey key m)

theorem ChatSend.sendable {key : UInt64} (s : ChatSend key) : Sendable key s.text :=
  ⟨s.nonempty,s.nulFree,s.fits,s.nulFree_ciphertext⟩

theorem Sendable.chunk {key : UInt64} {m : List UInt8} (h : Sendable key m) :
    ∃ chunk, CTalk.recv (xorKey key m) = .data chunk ∧ chunk.bytes = xorKey key m := by
  have hne : xorKey key m ≠ [] := by
    intro hnil
    have hlen := xorKey_length key m
    rw [hnil] at hlen
    exact h.nonempty (List.eq_nil_of_length_eq_zero hlen.symm)
  have hle : (xorKey key m).length ≤ maxBufferSize - 1 := by
    rw [xorKey_length]
    exact h.fits
  exact ⟨_,recv_of_le hne hle,rfl⟩

theorem Sendable.recv {key : UInt64} {m : List UInt8} (h : Sendable key m) :
    ∃ chunk, CTalk.recv (xorKey key m) = .data chunk ∧ decodedText key chunk.bytes = m := by
  obtain ⟨chunk,hrecv,hbytes⟩ := h.chunk
  exact ⟨chunk,hrecv,by rw [hbytes,decodedText_xorKey h.nulFree h.cipher]⟩

theorem run_messages {h : Handler} {g : Globals} {key : UInt64} (hphase : h.phase = .receiving)
    (hkey : g.privateKey = key) (hsize : g.pool.size = 0) {ms : List (List UInt8)}
    (hms : ∀ m ∈ ms, Sendable key m) :
    ∃ g' h', h.run g (ms.map (fun m => recv (xorKey key m))) = .ok (g',h') ∧
      h'.printed = h.printed ++ ms.takeWhile (fun m => m ≠ exitText) ∧
      (h'.phase = .finished ↔ exitText ∈ ms) := by
  induction ms generalizing h g with
  | nil => exact ⟨g,h,rfl,by simp,by simp [hphase]⟩
  | cons m ms ih =>
    obtain ⟨chunk,hrecv,htext⟩ := (hms m (by simp)).recv
    rw [← hkey] at htext
    simp only [List.map_cons,Handler.run,hrecv]
    by_cases hexit : m = exitText
    · rw [receive_exit g hphase chunk (htext.trans hexit),removeFromPool_of_size_zero hsize]
      simp only [Except.map,bind,Except.bind]
      rw [run_finished _ rfl]
      exact ⟨_,_,rfl,by simp [hexit],by simp [hexit]⟩
    · rw [receive_message g hphase chunk (by rw [htext]; exact hexit),htext]
      obtain ⟨g',h',hrun,hprinted,hfinished⟩ := ih
        (h := { h with
          keysUsed := h.keysUsed ++ [g.privateKey]
          printed := h.printed ++ [m] })
        (g := { g with lastReceivedMessage := some m }) hphase hkey hsize
        (fun n hn => hms n (by simp [hn]))
      refine ⟨g',h',hrun,?_,?_⟩
      · rw [hprinted,List.takeWhile_cons_of_pos (by simpa using hexit)]
        simp
      · rw [hfinished]
        simp [Ne.symm hexit]

section delivery
variable {key : UInt64} (sends : List (ChatSend key))

theorem wire_length_sum :
    ((sends.map (fun s => s.sent.wire)).flatten).length =
      (sends.map ChatSend.accepted).sum := by
  simp [List.length_flatten,Function.comp_def,ChatSend.wire_length]

theorem accepted_sum_le :
    (sends.map ChatSend.accepted).sum ≤ (sends.map (fun s => s.text.length)).sum := by
  induction sends with
  | nil => simp
  | cons s sends ih =>
    have hs := s.accepted_le
    simp only [List.map_cons,List.sum_cons]
    omega

theorem accepted_of_sum_eq
    (h : (sends.map ChatSend.accepted).sum = (sends.map (fun s => s.text.length)).sum) :
    ∀ s ∈ sends, s.accepted = s.text.length := by
  induction sends with
  | nil => simp
  | cons s sends ih =>
    have hs := s.accepted_le
    have hle := accepted_sum_le sends
    simp only [List.map_cons,List.sum_cons] at h
    intro t ht
    rcases List.mem_cons.mp ht with ht | ht
    · subst ht
      omega
    · exact ih (by omega) t ht

/-- The handler prints the messages sent exactly when the kernel accepts each of them in
full and every recv returns the bytes of one of them. -/
theorem session_delivery_iff (chunks : List (Chunk (maxBufferSize - 1)))
    (hcut : stream chunks = (sends.map (fun s => s.sent.wire)).flatten)
    (self : Thread) (g : Globals) :
    Prints self g key chunks (sends.map ChatSend.text) ↔
      (∀ s ∈ sends, s.accepted = s.text.length) ∧
        chunks.map (fun c => c.bytes.length) = sends.map (fun s => s.text.length) := by
  have hstream := congrArg List.length hcut
  rw [wire_length_sum] at hstream
  constructor
  · intro h
    have hprinted := eq_printedTexts_of_prints self g key h
    have hlengths : (printedTexts key chunks).map List.length =
        sends.map (fun s => s.text.length) := by
      rw [← hprinted,List.map_map]
      rfl
    have hle := printedTexts_length_le key chunks
    have hacc := accepted_sum_le sends
    rw [hlengths] at hle
    -- no byte of the accepted ones is printed twice, and none is left over
    have hsum : ((printedTexts key chunks).map List.length).sum = (stream chunks).length := by
      rw [hlengths]
      omega
    have hall := lengths_of_printedTexts key hsum
    exact ⟨accepted_of_sum_eq sends (by omega),by rw [← hall,hlengths]⟩
  · intro h
    obtain ⟨hfull,hlen⟩ := h
    have hwire : sends.map (fun s => s.sent.wire) = sends.map ChatSend.ciphertext :=
      List.map_congr_left (fun s hs => s.wire_of_full (hfull s hs))
    have hbytes : chunks.map Chunk.bytes = sends.map ChatSend.ciphertext := by
      apply pieces_eq_parts
      · rw [hcut,hwire]
      · simpa [ChatSend.ciphertext,Function.comp_def] using hlen
    have hdecoded : chunks.map (fun c => decodedText key c.bytes) =
        sends.map ChatSend.text := by
      calc
        _ = (chunks.map Chunk.bytes).map (decodedText key) := by simp
        _ = (sends.map ChatSend.ciphertext).map (decodedText key) := by rw [hbytes]
        _ = sends.map ChatSend.text := by
          simp [Function.comp_def,ChatSend.decodedText_ciphertext]
    rw [← hdecoded]
    apply prints_of_no_exit
    intro c hc hexit
    have hmem : exitText ∈ sends.map ChatSend.text := by
      rw [← hdecoded,← hexit]
      exact List.mem_map_of_mem hc
    obtain ⟨s,_,hs⟩ := List.mem_map.mp hmem
    exact s.notExit hs

end delivery

def sendA : ChatSend 8 where
  text := [97]
  nonempty := by simp
  nulFree := by decide
  fits := by decide
  notExit := by decide
  noKeyByte := nulFree_xorKey_iff.mp (by decide)
  accepted := 1
  accepted_pos := by decide
  accepted_le := by decide

def idleServer : Globals := ⟨0,none,createThreadPool (fun _ => none)⟩

theorem session_delivery_two_recvs :
    Prints ⟨1,4,true⟩ idleServer 8 [⟨[105],by simp,by decide⟩,⟨[105],by simp,by decide⟩]
      [[97],[97]] :=
  (session_delivery_iff [sendA,sendA] _ (by decide +kernel) ⟨1,4,true⟩ idleServer).mpr
    (by decide)

/-- Two messages that arrive in one recv are printed as one, and its second letter is
decrypted with the wrong key byte. -/
theorem session_merges_messages :
    ¬ ∀ (key : UInt64) (sends : List (ChatSend key))
      (chunks : List (Chunk (maxBufferSize - 1))),
      stream chunks = (sends.map (fun s => s.sent.wire)).flatten →
      ∀ self g, Prints self g key chunks (sends.map ChatSend.text) := by
  intro h
  have hprints := h 8 [sendA,sendA] [⟨[105,105],by simp,by decide⟩] (by decide +kernel)
    ⟨1,4,true⟩ idleServer
  have hprinted := eq_printedTexts_of_prints _ _ _ hprints
  exact absurd hprinted (by decide +kernel)

/-- The part of a run that lies in front of the message loop, and the recv results that are
left for the loop. -/
def Handler.enterLoop :
    Handler → Globals → List RecvResult → Except Fault (Globals × Handler × List RecvResult)
  | h, g, [] => .ok (g,h,[])
  | h, g, received :: later =>
    if h.phase = .keyExchange then do
      let (g,h) ← h.receive g received
      h.enterLoop g later
    else .ok (g,h,received :: later)

theorem enterLoop_of_entered {h : Handler} (hphase : h.phase ≠ .keyExchange) (g : Globals)
    (rs : List RecvResult) : h.enterLoop g rs = .ok (g,h,rs) := by
  cases rs with
  | nil => rfl
  | cons r rs => rw [Handler.enterLoop,if_neg hphase]

theorem run_enterLoop (h : Handler) (g : Globals) (rs : List RecvResult) :
    h.run g rs = (h.enterLoop g rs).bind (fun s => s.2.1.run s.1 s.2.2) := by
  induction rs generalizing h g with
  | nil => rfl
  | cons r rs ih =>
    by_cases hphase : h.phase = .keyExchange
    · rw [Handler.enterLoop,if_pos hphase]
      simp only [Handler.run,bind]
      cases h.receive g r with
      | error fault => rfl
      | ok s => exact ih s.2 s.1
    · rw [enterLoop_of_entered hphase]
      rfl

section start
variable (self : Thread) (g : Globals) {first : RecvResult} {key : UInt64}

theorem enterLoop_start
    (hkey : generatePrivateKey first publicParams.1 privateParams = .ok key)
    (later : List RecvResult) :
    (Handler.start self).enterLoop g (first :: later) =
      .ok ({ g with privateKey := key },Handler.keyed self key,later) := by
  have hstart : (Handler.start self).phase = .keyExchange := rfl
  rw [Handler.enterLoop,if_pos hstart,receive_keyExchange g hstart,hkey]
  exact enterLoop_of_entered (fun h => by cases h) _ later

theorem run_start (hkey : generatePrivateKey first publicParams.1 privateParams = .ok key)
    (later : List RecvResult) :
    (Handler.start self).run g (first :: later) =
      (Handler.keyed self key).run { g with privateKey := key } later := by
  rw [run_enterLoop,enterLoop_start self g hkey]
  rfl

end start

def payload (key : UInt64) (messages : List (Buffer × SendResult)) : List UInt8 :=
  (messages.map (fun m => (encryptAndSend key m.1 m.2).wire)).flatten

/-- The handler parses v and derives its key from it, and all of the rest, no more and no
less, is left for the recvs of its loop. -/
structure Framed (v : UInt64) (rest : List UInt8) (first : Chunk (maxBufferSize - 1))
    (later : List (Chunk (maxBufferSize - 1))) : Prop where
  parsed : readPublicKey (.data first) = .ok v
  left : ∀ self g, ∃ key, ∃ loop : List (Chunk (maxBufferSize - 1)),
    privateKey v publicParams.1 privateParams = .ok key ∧
    (Handler.start self).enterLoop g (.data first :: later.map .data) =
      .ok ({ g with privateKey := key },Handler.keyed self key,loop.map .data) ∧
    (Handler.start self).run g (.data first :: later.map .data) =
      (Handler.keyed self key).run { g with privateKey := key } (loop.map .data) ∧
    stream loop = rest

theorem data_injective : Function.Injective RecvResult.data := by
  intro c d h
  cases h
  rfl

theorem generatePrivateKey_of_read {received : RecvResult} {v : UInt64}
    (hread : readPublicKey received = .ok v) (p secretKey : UInt64) :
    generatePrivateKey received p secretKey = privateKey v p secretKey := by
  rw [generatePrivateKey,hread]
  rfl

theorem framed_iff {v : UInt64} {rest : List UInt8} {first : Chunk (maxBufferSize - 1)}
    {later : List (Chunk (maxBufferSize - 1))} (hread : readPublicKey (.data first) = .ok v) :
    Framed v rest first later ↔ v ≠ 0 ∧ stream later = rest := by
  have hderive := generatePrivateKey_of_read hread publicParams.1 privateParams
  constructor
  · intro h
    obtain ⟨key,loop,hkey,henter,_,hloop⟩ := h.left ⟨0,0,true⟩ idleServer
    refine ⟨?_,?_⟩
    · intro hzero
      rw [hzero] at hkey
      cases hkey
    · rw [enterLoop_start _ _ (hderive.trans hkey),Except.ok.injEq,Prod.mk.injEq,
        Prod.mk.injEq] at henter
      have heq : later = loop := data_injective.list_map henter.2.2
      rw [heq,hloop]
  · intro h
    obtain ⟨hv,hrest⟩ := h
    have hkey := modExp_of_ne_zero hv publicParams.1 privateParams
    refine ⟨hread,fun self g => ⟨_,later,hkey,?_,?_,hrest⟩⟩
    · exact enterLoop_start self g (hderive.trans hkey) _
    · exact run_start self g (hderive.trans hkey) _

/-- The first recv must end where the digits of v end; and behind a 0 no handler gets as far as
its loop. -/
theorem handshake_framing_iff (v key : UInt64) (messages : List (Buffer × SendResult))
    (first : Chunk (maxBufferSize - 1)) (later : List (Chunk (maxBufferSize - 1)))
    (hcut : stream (first :: later) = Decimal.text v.toNat ++ payload key messages) :
    Framed v (payload key messages) first later ↔
      v ≠ 0 ∧ first.bytes = Decimal.text v.toNat := by
  rw [stream_cons] at hcut
  constructor
  · intro h
    obtain ⟨hv,hleft⟩ := (framed_iff h.parsed).mp h
    rw [hleft] at hcut
    exact ⟨hv,List.append_cancel_right hcut⟩
  · intro h
    obtain ⟨hv,hfirst⟩ := h
    have hread : readPublicKey (.data first) = .ok v := by
      rw [← recv_bytes first,hfirst]
      exact readPublicKey_recv_text v
    rw [hfirst] at hcut
    exact (framed_iff hread).mpr ⟨hv,List.append_cancel_left hcut⟩

theorem handshake_framing_two_recvs :
    Framed 29 (payload 8 [(Buffer.ofBytes [49],.accepted 1)]) ⟨[50,57],by simp,by decide⟩
      [⟨[57],by simp,by decide⟩] :=
  (handshake_framing_iff 29 8 [(Buffer.ofBytes [49],.accepted 1)] _ _
    (by decide +kernel)).mpr (by decide +kernel)

/-- The ciphertext of the message 1 under the key 8 is the digit 9, so that one recv reads
the key 29 as 299. -/
theorem handshake_absorbs_ciphertext :
    ¬ ∀ (v key : UInt64) (messages : List (Buffer × SendResult))
      (first : Chunk (maxBufferSize - 1)) (later : List (Chunk (maxBufferSize - 1))),
      stream (first :: later) = Decimal.text v.toNat ++ payload key messages →
      Framed v (payload key messages) first later := by
  intro h
  have hframed := h 29 8 [(Buffer.ofBytes [49],.accepted 1)]
    ⟨[50,57,57],by simp,by decide⟩ [] (by decide +kernel)
  exact absurd hframed.parsed (by decide +kernel)

end CTalk
