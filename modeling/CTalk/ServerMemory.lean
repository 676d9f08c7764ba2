import CTalk.Heap
import CTalk.ServerRuns

/-! server.c, threads.c and network.c with the memory they allocate: the array of the pool,
a Thread for each connection, and the buffers of each handler thread, in one heap for the
whole process. A handler owns the buffer of its next recv before the recv returns. The recv
and all that follows it up to the next one is a single step, as in the model without
memory, which this one refines. -/

set_option autoImplicit false

namespace CTalk
open ByteStream Transition Heap

def memoryFault : Misuse → Fault
  | .null => .nullDeref
  | .wild => .outOfBounds
  | .freed => .useAfterFree
  | .uninit => .uninitRead
  | .overflow => .outOfBounds

def checked {α : Type} (result : Except Misuse α) : Except Fault α := result.mapError memoryFault

/-- receive_message up to its recv. A failed malloc stops at the assertion. -/
def receiveBuffer (mem : Memory UInt8) : Memory UInt8 × Pointer := malloc mem maxBufferSize true

/-- receive_message from its recv on. The buffer takes the bytes of the recv, and a
terminator behind them. -/
def receiveMessageIn (mem : Memory UInt8) (buf : Pointer) (received : RecvResult) :
    Except Fault (Memory UInt8 × Pointer) :=
  match received with
  | .error => do
    let _ ← checked (free mem buf)
    .error .exitFailure
  | .closed => do
    let mem ← checked (free mem buf)
    pure (mem,none)
  | .data chunk => do
    let mem ← checked (strcpy mem buf chunk.bytes)
    pure (mem,buf)

def loadString (mem : Memory UInt8) (p : Pointer) : Except Fault Buffer := do
  let bytes ← checked (load mem p)
  pure (Buffer.ofBytes bytes)

def generatePrivateKeyIn (mem : Memory UInt8) (buf : Pointer) (received : RecvResult)
    (p secretKey : UInt64) : Except Fault (Memory UInt8 × UInt64) := do
  let (mem,text) ← receiveMessageIn mem buf received
  let stored := sscanfZu (← loadString mem text)
  let mem ← checked (free mem text)
  match stored with
  | none => .error .uninitRead
  | some publicKey => do
    let key ← privateKey publicKey p secretKey
    pure (mem,key)

def encryptIn (mem : Memory UInt8) (plaintext : Pointer) (key : UInt64) :
    Except Fault (Memory UInt8 × Pointer) := do
  let text ← loadString mem plaintext
  let (mem,ciphertext) := malloc mem (text.strlen + 1) true
  let mem ← checked (strcpy mem ciphertext (xorKey key text.text))
  pure (mem,ciphertext)

def decryptIn (mem : Memory UInt8) (ciphertext : Pointer) (key : UInt64) :
    Except Fault (Memory UInt8 × Pointer) := encryptIn mem ciphertext key

/-- The string of the pointer shown last goes, and a copy of this one comes. The Boolean
says whether this malloc succeeds, which alone is not asserted. -/
def storeLast (mem : Memory UInt8) (last : Pointer) (decrypted : Buffer) (allocated : Bool) :
    Except Fault (Memory UInt8 × Pointer) := do
  let mem ← checked (free mem last)
  let (mem,last) := malloc mem (decrypted.strlen + 1) allocated
  match last with
  | none => pure (mem,none)
  | some _ => do
    let mem ← checked (strcpy mem last decrypted.text)
    pure (mem,last)

def pointerSize : Nat := 8

/-- realloc moves the array where the capacity has doubled. What the slots hold is in the
pool. -/
def addToPoolIn (fresh : Nat → Option Thread) (mem : Memory UInt8) (array : Pointer)
    (tp : ThreadPool) (thread : Thread) :
    Except Fault (Memory UInt8 × Pointer × ThreadPool) := do
  let pool ← addToPool fresh tp thread
  if pool.capacity = tp.capacity then pure (mem,array,pool)
  else do
    let mem ← checked (free mem array)
    let (mem,array) := malloc mem (pointerSize * pool.capacity) true
    pure (mem,array,pool)

structure Process where
  privateKey : UInt64
  lastReceivedMessage : Pointer
  pool : ThreadPool
  array : Pointer
  memory : Memory UInt8
  deriving DecidableEq

/-- client_handler_thread as in Handler.receive, with its calls of malloc and free. The
result includes the buffer of the next recv. On /exit the ciphertext is not freed. -/
def Process.receive (s : Process) (h : Handler) (buf : Pointer) (received : RecvResult)
    (allocated : Bool) : Except Fault (Process × Handler × Pointer) :=
  match h.phase with
  | .keyExchange => do
    let (mem,key) ← generatePrivateKeyIn s.memory buf received publicParams.1 privateParams
    let (mem,next) := receiveBuffer mem
    pure ({ s with privateKey := key, memory := mem },
      { h with phase := .receiving, derived := some key },next)
  | .receiving => do
    let (mem,ciphertext) ← receiveMessageIn s.memory buf received
    let (mem,decrypted) ← decryptIn mem ciphertext s.privateKey
    let text ← loadString mem decrypted
    let h := { h with keysUsed := h.keysUsed ++ [s.privateKey] }
    if text.text = exitText then do
      let mem ← checked (free mem decrypted)
      let pool ← removeFromPool s.pool h.self
      pure ({ s with memory := mem, pool := pool },{ h with phase := .finished },none)
    else do
      let (mem,last) ← storeLast mem s.lastReceivedMessage text allocated
      let mem ← checked (free mem decrypted)
      let mem ← checked (free mem ciphertext)
      let (mem,next) := receiveBuffer mem
      pure ({ s with memory := mem, lastReceivedMessage := last },
        { h with printed := h.printed ++ [text.text] },next)
  | .finished => pure (s,h,buf)

section calls
variable {mem : Memory UInt8} {p : Nat}

theorem receiveMessageIn_error (hp : Blank mem p maxBufferSize) :
    receiveMessageIn mem (some p) .error = .error .exitFailure := by
  rw [receiveMessageIn,free_blank hp]
  rfl

theorem receiveMessageIn_closed (hp : Blank mem p maxBufferSize) :
    receiveMessageIn mem (some p) .closed = .ok (mem.set p ⟨maxBufferSize,.freed⟩,none) := by
  rw [receiveMessageIn,free_blank hp]
  rfl

theorem receiveMessageIn_data (hp : Blank mem p maxBufferSize)
    (chunk : Chunk (maxBufferSize - 1)) :
    receiveMessageIn mem (some p) (.data chunk) =
      .ok (mem.set p ⟨maxBufferSize,.text chunk.bytes⟩,some p) := by
  have hlen : chunk.bytes.length < maxBufferSize := Nat.lt_succ_of_le chunk.le_cap
  rw [receiveMessageIn,strcpy_uninit hp hlen]
  rfl

theorem loadString_text {size : Nat} {bytes : List UInt8}
    (hp : mem[p]? = some ⟨size,.text bytes⟩) :
    loadString mem (some p) = .ok (Buffer.ofBytes bytes) := by
  rw [loadString,load_text hp]
  rfl

theorem generatePrivateKeyIn_eq (hp : Blank mem p maxBufferSize) (received : RecvResult)
    (modulus secretKey : UInt64) :
    generatePrivateKeyIn mem (some p) received modulus secretKey =
      (generatePrivateKey received modulus secretKey).map
        (fun key => (mem.set p ⟨maxBufferSize,.freed⟩,key)) := by
  cases received with
  | error =>
    rw [generatePrivateKeyIn,receiveMessageIn_error hp]
    rfl
  | closed =>
    rw [generatePrivateKeyIn,receiveMessageIn_closed hp]
    rfl
  | data chunk =>
    have hblock := getElem?_set_block hp ⟨maxBufferSize,.text chunk.bytes⟩
    rw [generatePrivateKeyIn,receiveMessageIn_data hp,generatePrivateKey,readPublicKey_data]
    simp only [bind,Except.bind]
    rw [loadString_text hblock,free_text hblock,List.set_set]
    simp only [checked,Except.mapError]
    cases sscanfZu (Buffer.ofBytes chunk.bytes) with
    | none => rfl
    | some key =>
      simp only
      cases privateKey key modulus secretKey <;> rfl

theorem encryptIn_text {size : Nat} {bytes : List UInt8}
    (hp : mem[p]? = some ⟨size,.text bytes⟩) (key : UInt64) :
    encryptIn mem (some p) key = .ok (mem ++
      [⟨(Buffer.ofBytes bytes).strlen + 1,.text (xorKey key (Buffer.ofBytes bytes).text)⟩],
      some mem.length) := by
  rw [encryptIn,loadString_text hp]
  simp only [bind,Except.bind,malloc_true_pointer]
  rw [strcpy_malloc _ (by simp [Buffer.strlen])]
  rfl

def copyBlock (t : List UInt8) (allocated : Bool) : Memory UInt8 :=
  if allocated then [⟨t.length + 1,.text t⟩] else []

theorem storeLast_eq {rest : Memory UInt8} {last : Pointer} (hlast : Valid mem last)
    (decrypted : Buffer) (allocated : Bool) :
    storeLast (mem ++ rest) last decrypted allocated =
      .ok (released mem last ++ rest ++ copyBlock decrypted.text allocated,
        if allocated then some (mem.length + rest.length) else none) := by
  rw [storeLast,free_valid hlast]
  cases allocated with
  | false =>
    simp only [copyBlock,Bool.false_eq_true,if_false,List.append_nil]
    rfl
  | true =>
    simp only [checked,Except.mapError,bind,Except.bind,malloc_true_pointer]
    rw [strcpy_malloc _ (by simp [Buffer.strlen])]
    simp [length_released hlast,copyBlock,Buffer.strlen,pure,Except.pure]

end calls

/-- The process's variables, and at last_received_message the string printed last, unless
there was no memory for it or the pointer was never set. -/
structure Shows (s : Process) (g : Globals) : Prop where
  key : s.privateKey = g.privateKey
  pool : s.pool = g.pool
  last : ∀ p, s.lastReceivedMessage = some p →
    ∃ t, load s.memory (some p) = .ok t ∧ g.lastReceivedMessage = some t

theorem Shows.valid {s : Process} {g : Globals} (h : Shows s g) :
    Valid s.memory s.lastReceivedMessage := by
  intro hne
  obtain ⟨p,hp⟩ := Option.ne_none_iff_exists'.mp hne
  obtain ⟨t,ht,_⟩ := h.last p hp
  exact ⟨t,hp ▸ ht⟩

section receive
variable {s : Process} {h : Handler} (allocated : Bool) {p : Nat}

theorem Process.receive_keyExchange (hp : Blank s.memory p maxBufferSize)
    (hphase : h.phase = .keyExchange) (received : RecvResult) :
    s.receive h (some p) received allocated =
      (generatePrivateKey received publicParams.1 privateParams).map
        (fun key => ({ s with
            privateKey := key
            memory := s.memory.set p ⟨maxBufferSize,.freed⟩ ++ [⟨maxBufferSize,.uninit⟩] },
          { h with phase := .receiving, derived := some key },some s.memory.length)) := by
  simp only [Process.receive,hphase]
  rw [generatePrivateKeyIn_eq hp]
  cases generatePrivateKey received publicParams.1 privateParams with
  | error fault => rfl
  | ok key => simp [Except.map,bind,Except.bind,receiveBuffer,malloc,pure,Except.pure]

theorem Process.receive_error (hp : Blank s.memory p maxBufferSize)
    (hlive : h.phase ≠ .finished) :
    s.receive h (some p) .error allocated = .error .exitFailure := by
  cases hphase : h.phase with
  | keyExchange =>
    rw [Process.receive_keyExchange allocated hp hphase]
    rfl
  | receiving =>
    simp only [Process.receive,hphase]
    rw [receiveMessageIn_error hp]
    rfl
  | finished => exact absurd hphase hlive

theorem Process.receive_closed (hp : Blank s.memory p maxBufferSize)
    (hlive : h.phase ≠ .finished) :
    s.receive h (some p) .closed allocated = .error .nullDeref := by
  cases hphase : h.phase with
  | keyExchange =>
    rw [Process.receive_keyExchange allocated hp hphase]
    rfl
  | receiving =>
    simp only [Process.receive,hphase]
    rw [receiveMessageIn_closed hp]
    rfl
  | finished => exact absurd hphase hlive

variable (chunk : Chunk (maxBufferSize - 1))

theorem Process.receive_exit (hp : Blank s.memory p maxBufferSize)
    (hphase : h.phase = .receiving)
    (htext : decodedText s.privateKey chunk.bytes = exitText) :
    s.receive h (some p) (.data chunk) allocated =
      (removeFromPool s.pool h.self).map (fun pool =>
        ({ s with
            pool := pool
            memory := s.memory.set p ⟨maxBufferSize,.text chunk.bytes⟩ ++
              [⟨(Buffer.ofBytes chunk.bytes).strlen + 1,.freed⟩] },
          { h with keysUsed := h.keysUsed ++ [s.privateKey], phase := .finished },none)) := by
  have hblock := getElem?_set_block hp ⟨maxBufferSize,.text chunk.bytes⟩
  simp only [Process.receive,hphase]
  rw [receiveMessageIn_data hp]
  simp only [bind,Except.bind]
  rw [decryptIn,encryptIn_text hblock]
  simp only
  rw [loadString_text (getElem?_here _ _ []),free_here]
  rw [decodedText] at htext
  simp only [checked,Except.mapError,htext,if_true]
  cases removeFromPool s.pool h.self <;> rfl

def Process.served (s : Process) (p : Nat) (bytes : List UInt8) (allocated : Bool) :
    Memory UInt8 :=
  (released s.memory s.lastReceivedMessage).set p ⟨maxBufferSize,.freed⟩ ++
    [⟨(Buffer.ofBytes bytes).strlen + 1,.freed⟩] ++
    copyBlock (decodedText s.privateKey bytes) allocated

theorem Process.receive_message (hp : Blank s.memory p maxBufferSize)
    (hvalid : Valid s.memory s.lastReceivedMessage) (hphase : h.phase = .receiving)
    (htext : decodedText s.privateKey chunk.bytes ≠ exitText) :
    s.receive h (some p) (.data chunk) allocated = .ok
      ({ s with
          memory := s.served p chunk.bytes allocated ++ [⟨maxBufferSize,.uninit⟩]
          lastReceivedMessage := if allocated then some (s.memory.length + 1) else none },
        { h with
          keysUsed := h.keysUsed ++ [s.privateKey]
          printed := h.printed ++ [decodedText s.privateKey chunk.bytes] },
        some (s.served p chunk.bytes allocated).length) := by
  have hblock := getElem?_set_block hp ⟨maxBufferSize,.text chunk.bytes⟩
  have hvalid₁ := hvalid.set_blank hp ⟨maxBufferSize,.text chunk.bytes⟩
  have hlen := length_released hvalid₁
  have hreleased := released_set_blank hvalid hp ⟨maxBufferSize,.text chunk.bytes⟩
  have hkept := getElem?_set_block (hp.released hvalid) ⟨maxBufferSize,.text chunk.bytes⟩
  rw [← hreleased] at hkept
  simp only [Process.receive,hphase]
  rw [receiveMessageIn_data hp]
  simp only [bind,Except.bind]
  rw [decryptIn,encryptIn_text hblock]
  simp only
  rw [loadString_text (getElem?_here _ _ [])]
  rw [decodedText] at htext
  simp only [if_neg htext]
  rw [storeLast_eq hvalid₁]
  simp only [List.append_assoc,List.cons_append,List.nil_append]
  rw [← hlen,free_here]
  simp only [checked,Except.mapError]
  rw [free_valid (fun _ => ⟨chunk.bytes,load_text hkept⟩),released_text hkept,hreleased,
    List.set_set]
  simp [Process.served,receiveBuffer,malloc,decodedText,pure,Except.pure,length_released hvalid]

end receive

def Accounts (s s' : Process) : Prop :=
  live s'.memory + s.lastReceivedMessage.toList.length =
    live s.memory + s'.lastReceivedMessage.toList.length

def Spares (s s' : Process) (p : Nat) : Prop :=
  s'.array = s.array ∧ ∀ q size, q ≠ p → Blank s.memory q size → Blank s'.memory q size

structure NextBuffer (s s' : Process) (h' : Handler) (next : Pointer) : Prop where
  waits : h'.phase ≠ .finished → ∃ n, next = some n
  blank : ∀ n, next = some n → Blank s'.memory n maxBufferSize ∧ s.memory.length ≤ n

inductive Simulates (s : Process) (p : Nat) : Except Fault (Globals × Handler) →
    Except Fault (Process × Handler × Pointer) → Prop
  | fails {fault} : Simulates s p (.error fault) (.error fault)
  | goes {g' s' h' next} : Shows s' g' → Accounts s s' → Spares s s' p →
      NextBuffer s s' h' next → Simulates s p (.ok (g',h')) (.ok (s',h',next))

section simulation
variable {s : Process} {g : Globals} {h : Handler} {p : Nat}

theorem simulates_keyExchange (hp : Blank s.memory p maxBufferSize) (hs : Shows s g)
    (hphase : h.phase = .keyExchange) (received : RecvResult) (allocated : Bool) :
    Simulates s p (h.receive g received) (s.receive h (some p) received allocated) := by
  have hlive := live_set_blank hp ⟨maxBufferSize,.freed⟩
  rw [receive_keyExchange g hphase,Process.receive_keyExchange allocated hp hphase]
  cases generatePrivateKey received publicParams.1 privateParams with
  | error fault => exact .fails
  | ok key =>
    refine .goes ⟨rfl,hs.pool,?_⟩ ?_ ⟨rfl,?_⟩ ⟨fun _ => ⟨_,rfl⟩,?_⟩
    · intro q hq
      obtain ⟨t,ht,hshown⟩ := hs.last q hq
      exact ⟨t,load_front (load_set_blank hp ht _) _,hshown⟩
    · simp [Accounts] at hlive ⊢
      omega
    · intro q size hne hq
      exact (hq.set hne _).append _
    · intro n hn
      cases hn
      refine ⟨?_,Nat.le_refl _⟩
      have hnew := blank_malloc (s.memory.set p ⟨maxBufferSize,.freed⟩) maxBufferSize
      rwa [List.length_set] at hnew

theorem simulates_exit (hp : Blank s.memory p maxBufferSize) (hs : Shows s g)
    (hphase : h.phase = .receiving) (chunk : Chunk (maxBufferSize - 1))
    (htext : decodedText g.privateKey chunk.bytes = exitText) (allocated : Bool) :
    Simulates s p (h.receive g (.data chunk))
      (s.receive h (some p) (.data chunk) allocated) := by
  have hlive := live_set_blank hp ⟨maxBufferSize,.text chunk.bytes⟩
  rw [receive_exit g hphase chunk htext]
  rw [← hs.key] at htext ⊢
  rw [Process.receive_exit allocated chunk hp hphase htext,hs.pool]
  cases removeFromPool g.pool h.self with
  | error fault => exact .fails
  | ok pool =>
    refine .goes ⟨rfl,rfl,?_⟩ ?_ ⟨rfl,?_⟩ ⟨fun hne => absurd rfl hne,nofun⟩
    · intro q hq
      obtain ⟨t,ht,hshown⟩ := hs.last q hq
      exact ⟨t,load_front (load_set_blank hp ht _) _,hshown⟩
    · simp [Accounts] at hlive ⊢
      omega
    · intro q size hne hq
      exact (hq.set hne _).append _

theorem simulates_message (hp : Blank s.memory p maxBufferSize) (hs : Shows s g)
    (hphase : h.phase = .receiving) (chunk : Chunk (maxBufferSize - 1))
    (htext : decodedText g.privateKey chunk.bytes ≠ exitText) (allocated : Bool) :
    Simulates s p (h.receive g (.data chunk))
      (s.receive h (some p) (.data chunk) allocated) := by
  have hvalid := hs.valid
  have hlen := length_released hvalid
  have hlive := live_released hvalid
  have hset := live_set_blank (hp.released hvalid) ⟨maxBufferSize,.freed⟩
  rw [receive_message g hphase chunk htext]
  rw [← hs.key] at htext ⊢
  rw [Process.receive_message allocated chunk hp hvalid hphase htext]
  refine .goes ⟨rfl,hs.pool,?_⟩ ?_ ⟨rfl,?_⟩ ⟨fun _ => ⟨_,rfl⟩,?_⟩
  · intro q hq
    cases allocated with
    | false => cases hq
    | true =>
      cases hq
      refine ⟨_,load_front ?_ _,rfl⟩
      have hpointer : s.memory.length + 1 =
          ((released s.memory s.lastReceivedMessage).set p ⟨maxBufferSize,.freed⟩ ++
            ([⟨(Buffer.ofBytes chunk.bytes).strlen + 1,.freed⟩] : Memory UInt8)).length := by
        simp [hlen]
      rw [hpointer]
      exact load_here _ _ _ []
  · cases allocated <;> simp [Accounts,Process.served,copyBlock] at hset ⊢ <;> omega
  · intro q size hne hq
    exact ((((hq.released hvalid).set hne _).append _).append _).append _
  · intro n hn
    cases hn
    refine ⟨blank_malloc _ _,?_⟩
    simp [Process.served,hlen]

/-- A recv with memory goes as one without. -/
theorem receive_simulates (hp : Blank s.memory p maxBufferSize) (hs : Shows s g)
    (hlive : h.phase ≠ .finished) (received : RecvResult) (allocated : Bool) :
    Simulates s p (h.receive g received) (s.receive h (some p) received allocated) := by
  cases hphase : h.phase with
  | keyExchange => exact simulates_keyExchange hp hs hphase received allocated
  | receiving =>
    cases received with
    | error =>
      rw [receive_error g hlive,Process.receive_error allocated hp hlive]
      exact .fails
    | closed =>
      rw [receive_closed g hlive,Process.receive_closed allocated hp hlive]
      exact .fails
    | data chunk =>
      by_cases htext : decodedText g.privateKey chunk.bytes = exitText
      · exact simulates_exit hp hs hphase chunk htext allocated
      · exact simulates_message hp hs hphase chunk htext allocated
  | finished => exact absurd hphase hlive

end simulation

/-- The buffers are those of the handlers' next recvs, in the order of the handlers, NULL
for a handler that has left. -/
structure Serving where
  process : Process
  handlers : List Handler
  buffers : List Pointer
  unpooled : Option Thread
  fault : Option Fault
  deriving DecidableEq

inductive MemoryAction where
  | accept : AcceptResult → Bool → MemoryAction
  | register : MemoryAction
  | recv : Nat → RecvResult → Bool → MemoryAction
  deriving DecidableEq

def MemoryAction.action : MemoryAction → ServerAction
  | .accept connection created => .accept connection created
  | .register => .register
  | .recv i received _ => .recv i received

def Serving.initial (fresh : Nat → Option Thread) : Serving :=
  let (mem,array) := malloc [] (pointerSize * baseCapacity) true
  ⟨⟨0,none,createThreadPool fresh,array,mem⟩,[],[],none,none⟩

/-- The accept loop allocates a Thread for each connection, and releases it only where no
thread can be created for it. A thread that is created goes as far as its first recv. The
size of a Thread is the compiler's. -/
def Serving.step (fresh : Nat → Option Thread) (threadSize : Nat) (s : Serving) :
    MemoryAction → Option Serving
  | .accept connection created =>
    if s.fault ≠ none ∨ s.unpooled ≠ none then none
    else match connection with
      | .error => some { s with fault := some .exitFailure }
      | .connection fd =>
        let (mem,block) := malloc s.process.memory threadSize true
        let thread : Thread := ⟨s.handlers.length,fd,true⟩
        if created then
          let (mem,buf) := receiveBuffer mem
          some { s with
            process := { s.process with memory := mem }
            handlers := s.handlers ++ [Handler.start thread]
            buffers := s.buffers ++ [buf]
            unpooled := some thread }
        else match checked (free mem block) with
          | .error fault => some { s with fault := some fault }
          | .ok mem => some { s with process := { s.process with memory := mem } }
  | .register =>
    if s.fault ≠ none then none
    else match s.unpooled with
      | none => none
      | some thread =>
        match addToPoolIn fresh s.process.memory s.process.array s.process.pool thread with
        | .error fault => some { s with fault := some fault }
        | .ok (mem,array,pool) => some { s with
            process := { s.process with memory := mem, array := array, pool := pool }
            unpooled := none }
  | .recv i received allocated =>
    if s.fault ≠ none then none
    else match s.handlers[i]?,s.buffers[i]? with
      | some h,some buf =>
        if h.phase = .finished then none
        else match s.process.receive h buf received allocated with
          | .error fault => some { s with fault := some fault }
          | .ok (process,h,buf) => some { s with
              process := process
              handlers := s.handlers.set i h
              buffers := s.buffers.set i buf }
      | _,_ => none

/-- Every handler that has not left waits with a buffer of its own, and so far nothing is
written to it. The array of the pool is none of these buffers. -/
structure Buffered (process : Process) (handlers : List Handler) (buffers : List Pointer) :
    Prop where
  row : buffers.length = handlers.length
  owned : Owned process.memory maxBufferSize buffers
  buffer : ∀ {i : Nat} {h : Handler}, handlers[i]? = some h → h.phase ≠ .finished →
    ∃ p, buffers[i]? = some (some p)
  array : ∃ a size, process.array = some a ∧ Blank process.memory a size ∧ some a ∉ buffers

/-- The server without memory, and every block in use: the array of the pool, a Thread for
each connection with a handler and a buffer, in which the handler waits or which it left
behind, and the string shown last. -/
structure Refines (m : Serving) (s : Server) : Prop where
  shows : Shows m.process s.globals
  handlers : m.handlers = s.handlers
  unpooled : m.unpooled = s.unpooled
  fault : m.fault = s.fault
  buffered : Buffered m.process m.handlers m.buffers
  memory : live m.process.memory = 1 + 2 * m.handlers.length +
    m.process.lastReceivedMessage.toList.length

section refinement
variable {fresh : Nat → Option Thread} {threadSize : Nat} {m : Serving} {s : Server}

theorem refines_initial (fresh : Nat → Option Thread) :
    Refines (Serving.initial fresh) (Server.initial fresh) where
  shows := ⟨rfl,rfl,fun _ hp => by cases hp⟩
  handlers := rfl
  unpooled := rfl
  fault := rfl
  buffered := by
    refine ⟨rfl,⟨?_,?_⟩,?_,0,pointerSize * baseCapacity,rfl,rfl,List.not_mem_nil⟩
    · intro i p hp
      cases hp
    · intro i j p hp
      cases hp
    · intro i h hi
      cases hi
  memory := rfl

theorem Shows.more {process : Process} {g : Globals} (h : Shows process g)
    (blocks : Memory UInt8) :
    Shows { process with memory := process.memory ++ blocks } g where
  key := h.key
  pool := h.pool
  last := by
    intro p hp
    obtain ⟨t,ht,hshown⟩ := h.last p hp
    exact ⟨t,load_front ht blocks,hshown⟩

section buffered
variable {process : Process} {handlers : List Handler} {buffers : List Pointer}

theorem Buffered.more (hw : Buffered process handlers buffers) (blocks : Memory UInt8) :
    Buffered { process with memory := process.memory ++ blocks } handlers buffers where
  row := hw.row
  owned := hw.owned.of_blank (fun _ hp => hp.append blocks)
  buffer := hw.buffer
  array := by
    obtain ⟨a,size,harray,hblank,happart⟩ := hw.array
    exact ⟨a,size,harray,hblank.append blocks,happart⟩

theorem Buffered.accepted (hw : Buffered process handlers buffers) (h : Handler) :
    Buffered { process with memory := process.memory ++ [⟨maxBufferSize,.uninit⟩] }
      (handlers ++ [h]) (buffers ++ [some process.memory.length]) where
  row := by simp [hw.row]
  owned := hw.owned.push (fun _ hp => hp.append _) (blank_malloc _ _) (Nat.le_refl _)
  buffer := by
    intro i h' hi hlive
    rw [List.getElem?_append] at hi
    split at hi
    · rename_i hlt
      obtain ⟨p,hp⟩ := hw.buffer hi hlive
      exact ⟨p,by rwa [List.getElem?_append_left (by rwa [hw.row])]⟩
    · rename_i hge
      obtain ⟨hlt,_⟩ := List.getElem?_eq_some_iff.mp hi
      rw [List.length_singleton] at hlt
      have hend : i = buffers.length := by rw [hw.row]; omega
      exact ⟨_,by rw [hend]; exact List.getElem?_concat_length⟩
  array := by
    obtain ⟨a,size,harray,hblank,happart⟩ := hw.array
    refine ⟨a,size,harray,hblank.append _,?_⟩
    have hne : a ≠ process.memory.length := Nat.ne_of_lt hblank.lt
    simpa [hne] using happart

theorem Buffered.received (hw : Buffered process handlers buffers) {i p : Nat} {h h' : Handler}
    (hi : handlers[i]? = some h) (hp : buffers[i]? = some (some p)) {process' : Process}
    {next : Pointer} (hspares : Spares process process' p)
    (hnext : NextBuffer process process' h' next) :
    Buffered process' (handlers.set i h') (buffers.set i next) where
  row := by simp [hw.row]
  owned := hw.owned.set hp (fun q hq hblank => hspares.2 q _ hq hblank) hnext.blank
  buffer := by
    intro j u hj hlive
    by_cases hij : i = j
    · subst hij
      obtain ⟨hlt,_⟩ := List.getElem?_eq_some_iff.mp hi
      rw [List.getElem?_set_self hlt] at hj
      cases hj
      obtain ⟨n,hn⟩ := hnext.waits hlive
      rw [List.getElem?_set_self (by rwa [hw.row]),hn]
      exact ⟨n,rfl⟩
    · rw [List.getElem?_set_ne hij] at hj ⊢
      exact hw.buffer hj hlive
  array := by
    obtain ⟨a,size,harray,hblank,happart⟩ := hw.array
    have hne : a ≠ p := fun heq => happart (heq ▸ List.mem_of_getElem? hp)
    refine ⟨a,size,hspares.1.trans harray,hspares.2 a size hne hblank,?_⟩
    intro hmem
    rcases List.mem_or_eq_of_mem_set hmem with hin | hnew
    · exact happart hin
    · have hlt := hblank.lt
      have hge := (hnext.blank a hnew.symm).2
      omega

theorem Buffered.moved (hw : Buffered process handlers buffers) {a size : Nat}
    (harray : process.array = some a) (hblank : Blank process.memory a size) (n : Nat) :
    Buffered { process with
      array := some process.memory.length
      memory := process.memory.set a ⟨size,.freed⟩ ++ [⟨n,.uninit⟩] } handlers buffers := by
  obtain ⟨b,_,hb,_,happart⟩ := hw.array
  have heq : b = a := Option.some.inj (hb.symm.trans harray)
  subst heq
  have hkeeps : ∀ {i p : Nat}, buffers[i]? = some (some p) → Blank
      (process.memory.set b ⟨size,.freed⟩ ++ [⟨n,.uninit⟩]) p maxBufferSize := by
    intro i p hp
    have hne : p ≠ b := fun heq => happart (heq ▸ List.mem_of_getElem? hp)
    exact ((hw.owned.blank hp).set hne _).append _
  refine ⟨hw.row,⟨hkeeps,hw.owned.apart⟩,hw.buffer,process.memory.length,n,rfl,?_,?_⟩
  · have hnew := blank_malloc (process.memory.set b ⟨size,.freed⟩) n
    rwa [List.length_set] at hnew
  · intro hmem
    obtain ⟨i,hi⟩ := List.mem_iff_getElem?.mp hmem
    exact Nat.lt_irrefl _ (hw.owned.blank hi).lt

end buffered

theorem refines_accept (hr : Refines m s) (connection : AcceptResult) (created : Bool) :
    Option.Rel Refines (m.step fresh threadSize (.accept connection created))
      (s.step fresh (.accept connection created)) := by
  have hmem := hr.memory
  simp only [Serving.step,Server.step,hr.fault,hr.unpooled]
  split
  · exact .none
  · cases connection with
    | error => exact .some ⟨hr.shows,hr.handlers,rfl,rfl,hr.buffered,hmem⟩
    | connection fd =>
      cases created with
      | true =>
        have hshows := (hr.shows.more [⟨threadSize,.uninit⟩]).more [⟨maxBufferSize,.uninit⟩]
        have hbuffered := (hr.buffered.more [⟨threadSize,.uninit⟩]).accepted
          (Handler.start ⟨m.handlers.length,fd,true⟩)
        simp only [malloc,receiveBuffer,if_true]
        refine .some ⟨hshows,by simp [hr.handlers],by simp [hr.handlers],rfl,hbuffered,?_⟩
        simp [hmem]
        omega
      | false =>
        simp only [malloc_true_pointer,free_malloc]
        refine .some ⟨hr.shows.more _,hr.handlers,rfl,rfl,hr.buffered.more _,?_⟩
        simpa using hmem

theorem addToPoolIn_eq {mem : Memory UInt8} {a size : Nat} (hblank : Blank mem a size)
    (tp : ThreadPool) (thread : Thread) :
    addToPoolIn fresh mem (some a) tp thread = (addToPool fresh tp thread).map (fun pool =>
      if pool.capacity = tp.capacity then (mem,some a,pool)
      else (mem.set a ⟨size,.freed⟩ ++ [⟨pointerSize * pool.capacity,.uninit⟩],
        some mem.length,pool)) := by
  rw [addToPoolIn]
  cases addToPool fresh tp thread with
  | error fault => rfl
  | ok pool =>
    simp only [bind,Except.bind,Except.map]
    by_cases hcap : pool.capacity = tp.capacity
    · rw [if_pos hcap,if_pos hcap]
      rfl
    · rw [if_neg hcap,if_neg hcap,free_blank hblank]
      simp [checked,Except.mapError,malloc,pure,Except.pure]

theorem refines_register (hr : Refines m s) :
    Option.Rel Refines (m.step fresh threadSize .register) (s.step fresh .register) := by
  obtain ⟨a,size,harray,hblank,happart⟩ := hr.buffered.array
  simp only [Serving.step,Server.step,hr.fault,hr.unpooled]
  split
  · exact .none
  · cases s.unpooled with
    | none => exact .none
    | some thread =>
      simp only [harray,addToPoolIn_eq hblank,hr.shows.pool]
      cases addToPool fresh s.globals.pool thread with
      | error fault => exact .some ⟨hr.shows,hr.handlers,rfl,rfl,hr.buffered,hr.memory⟩
      | ok pool =>
        simp only [Except.map]
        by_cases hcap : pool.capacity = s.globals.pool.capacity
        · simp only [if_pos hcap]
          exact .some ⟨⟨hr.shows.key,rfl,hr.shows.last⟩,hr.handlers,rfl,rfl,
            ⟨hr.buffered.row,hr.buffered.owned,hr.buffered.buffer,a,size,rfl,hblank,happart⟩,
            hr.memory⟩
        · have hlive := live_set_blank hblank ⟨size,.freed⟩
          have hmem := hr.memory
          have hmoved := hr.buffered.moved harray hblank (pointerSize * pool.capacity)
          simp only [if_neg hcap]
          refine .some ⟨⟨hr.shows.key,rfl,?_⟩,hr.handlers,rfl,rfl,
            ⟨hmoved.row,hmoved.owned,hmoved.buffer,hmoved.array⟩,?_⟩
          · intro p hp
            obtain ⟨t,ht,hshown⟩ := hr.shows.last p hp
            exact ⟨t,load_front (load_set_blank hblank ht _) _,hshown⟩
          · simp at hlive ⊢
            omega

theorem refines_recv (hr : Refines m s) (i : Nat) (received : RecvResult) (allocated : Bool) :
    Option.Rel Refines (m.step fresh threadSize (.recv i received allocated))
      (s.step fresh (.recv i received)) := by
  have hmem := hr.memory
  have hw := hr.buffered
  rw [hr.handlers] at hmem hw
  simp only [Serving.step,Server.step,hr.fault,hr.handlers]
  split
  · exact .none
  · cases hi : s.handlers[i]? with
    | none => exact .none
    | some h =>
      obtain ⟨hlt,_⟩ := List.getElem?_eq_some_iff.mp hi
      have hrow : i < m.buffers.length := by rwa [hw.row]
      obtain ⟨buf,hbuf⟩ : ∃ buf, m.buffers[i]? = some buf := ⟨_,List.getElem?_eq_getElem hrow⟩
      simp only [hbuf]
      split
      · exact .none
      · rename_i hlive
        obtain ⟨p,hp⟩ := hw.buffer hi hlive
        have heq : buf = some p := Option.some.inj (hbuf.symm.trans hp)
        subst heq
        have hsim := receive_simulates (hw.owned.blank hp) hr.shows hlive received allocated
        generalize h.receive s.globals received = plain,
          m.process.receive h (some p) received allocated = full at hsim
        cases hsim with
        | fails => exact .some ⟨hr.shows,rfl,hr.unpooled,rfl,hw,hmem⟩
        | goes hshows haccounts hspares hnext =>
          refine .some ⟨hshows,rfl,hr.unpooled,rfl,hw.received hi hp hspares hnext,?_⟩
          rw [Accounts] at haccounts
          simp only [List.length_set]
          omega

theorem refines_step (m : Serving) (s : Server) (a : MemoryAction) (hr : Refines m s) :
    Option.Rel Refines (m.step fresh threadSize a) (s.step fresh a.action) := by
  cases a with
  | accept connection created => exact refines_accept hr connection created
  | register => exact refines_register hr
  | recv i received allocated => exact refines_recv hr i received allocated

/-- Action for action the server with memory does what the server without does, whatever
malloc answers for the string shown last. -/
theorem memory_refines (fresh : Nat → Option Thread) (threadSize : Nat)
    (as : List MemoryAction) :
    Option.Rel Refines (run (Serving.step fresh threadSize) (Serving.initial fresh) as)
      (run (Server.step fresh) (Server.initial fresh) (as.map MemoryAction.action)) :=
  run_lockstep refines_step (refines_initial fresh) as

theorem refines_of_run {as : List MemoryAction}
    (hm : run (Serving.step fresh threadSize) (Serving.initial fresh) as = some m) :
    ∃ s, run (Server.step fresh) (Server.initial fresh) (as.map MemoryAction.action) = some s ∧
      Refines m s := by
  have hrel := memory_refines fresh threadSize as
  rw [hm] at hrel
  generalize run (Server.step fresh) (Server.initial fresh) (as.map MemoryAction.action) = s
    at hrel
  cases hrel with
  | some hr => exact ⟨_,rfl,hr⟩

end refinement

/-- The faults that a peer or the kernel can bring about. None of them is a use of memory
that was released, or of memory outside a block. -/
def FromOutside (fault : Fault) : Prop :=
  fault = .exitFailure ∨ fault = .nullDeref ∨ fault = .uninitRead ∨ fault = .divByZero

theorem fault_generatePrivateKey {received : RecvResult} {p secretKey : UInt64} {fault : Fault}
    (hfail : generatePrivateKey received p secretKey = .error fault) : FromOutside fault := by
  cases received with
  | error =>
    cases hfail
    exact .inl rfl
  | closed =>
    cases hfail
    exact .inr (.inl rfl)
  | data chunk =>
    rw [generatePrivateKey,readPublicKey_data] at hfail
    cases hread : sscanfZu (Buffer.ofBytes chunk.bytes) with
    | none =>
      rw [hread] at hfail
      cases hfail
      exact .inr (.inr (.inl rfl))
    | some key =>
      rw [hread] at hfail
      simp only [bind,Except.bind,privateKey,modExp] at hfail
      split at hfail
      · cases hfail
        exact .inr (.inr (.inr rfl))
      · cases hfail

theorem fault_receive {h : Handler} {g : Globals} (hsize : g.pool.size = 0)
    (hlive : h.phase ≠ .finished) {received : RecvResult} {fault : Fault}
    (hfail : h.receive g received = .error fault) : FromOutside fault := by
  cases hphase : h.phase with
  | keyExchange =>
    rw [receive_keyExchange g hphase] at hfail
    cases hkey : generatePrivateKey received publicParams.1 privateParams with
    | error e =>
      rw [hkey] at hfail
      cases hfail
      exact fault_generatePrivateKey hkey
    | ok key =>
      rw [hkey] at hfail
      cases hfail
  | receiving =>
    cases received with
    | error =>
      rw [receive_error g hlive] at hfail
      cases hfail
      exact .inl rfl
    | closed =>
      rw [receive_closed g hlive] at hfail
      cases hfail
      exact .inr (.inl rfl)
    | data chunk =>
      have hok : ∃ g' h', h.receive g (.data chunk) = .ok (g',h') := by
        rw [receive_ok_iff hsize hlive]
        exact ⟨chunk,rfl,fun hkey => absurd (hphase.symm.trans hkey) nofun⟩
      obtain ⟨g',h',hok⟩ := hok
      rw [hok] at hfail
      cases hfail
  | finished => exact absurd hphase hlive

structure FaultsFromOutside (s : Server) : Prop where
  size : s.globals.pool.size = 0
  fault : ∀ fault, s.fault = some fault → FromOutside fault

theorem faultsFromOutside_run {fresh : Nat → Option Thread} {as : List ServerAction}
    {s : Server} (hr : run (Server.step fresh) (Server.initial fresh) as = some s) :
    FaultsFromOutside s := by
  refine run_invariant (I := FaultsFromOutside) ?_ ⟨rfl,fun _ hf => by cases hf⟩ hr
  intro s a t hs hstep
  obtain ⟨hsize,_⟩ := hs
  obtain ⟨hrunning,hstepped⟩ := Server.stepped_of_step hstep
  have hnone : ∀ fault, s.fault = some fault → FromOutside fault := by simp [hrunning]
  cases hstepped with
  | acceptFails =>
    refine ⟨hsize,?_⟩
    intro fault hfault
    cases hfault
    exact .inl rfl
  | threadFails => exact ⟨hsize,hnone⟩
  | accepted => exact ⟨hsize,hnone⟩
  | registerFails hadd =>
    rw [addToPool_of_size_zero hsize] at hadd
    cases hadd
  | registered hadd =>
    rw [addToPool_of_size_zero hsize] at hadd
    cases hadd
    exact ⟨hsize,hnone⟩
  | receiveFails hi hlive hfail =>
    refine ⟨hsize,?_⟩
    intro fault hfault
    cases hfault
    exact fault_receive hsize hlive hfail
  | received hi hlive hok =>
    have hpool := (received_of_receive hlive hok).pool_eq hsize
    exact ⟨by rw [hpool]; exact hsize,hnone⟩

/-- In every run of these steps, whatever the peers send and malloc answers for the string
shown last, no block is used after its release, twice released or written beyond its end, and
last_received_message is NULL or holds a string. What is in use: the array of the pool, a
Thread and a receive buffer for each connection that got a handler, which that handler waits
with while it is there, and the string of last_received_message. -/
theorem server_memory {fresh : Nat → Option Thread} {threadSize : Nat}
    {as : List MemoryAction} {m : Serving}
    (hm : run (Serving.step fresh threadSize) (Serving.initial fresh) as = some m) :
    (∀ fault, m.fault = some fault → FromOutside fault) ∧
      Valid m.process.memory m.process.lastReceivedMessage ∧
      Buffered m.process m.handlers m.buffers ∧
      live m.process.memory = 1 + 2 * m.handlers.length +
        m.process.lastReceivedMessage.toList.length := by
  obtain ⟨s,hs,href⟩ := refines_of_run hm
  refine ⟨?_,href.shows.valid,href.buffered,href.memory⟩
  rw [href.fault]
  exact (faultsFromOutside_run hs).fault

def leavingRun : List MemoryAction :=
  [.accept (.connection 4) true,.register,.recv 0 (recv publicKeyWire) true,
    .accept (.connection 5) true,.recv 0 (recv [105]) true,.register,
    .accept (.connection 6) false,.recv 0 (recv [106]) false,
    .recv 0 (recv (xorKey sharedKey exitText)) true]

theorem server_memory_leaving :
    ∃ m, run (Serving.step (fun _ => none) 40) (Serving.initial (fun _ => none)) leavingRun =
        some m ∧
      (∀ fault, m.fault = some fault → FromOutside fault) ∧
      Valid m.process.memory m.process.lastReceivedMessage ∧
      Buffered m.process m.handlers m.buffers ∧
      live m.process.memory = 1 + 2 * m.handlers.length +
        m.process.lastReceivedMessage.toList.length := by
  have hrun : (run (Serving.step (fun _ => none) 40) (Serving.initial (fun _ => none))
      leavingRun).isSome := by decide +kernel
  obtain ⟨m,hm⟩ := Option.isSome_iff_exists.mp hrun
  exact ⟨m,hm,server_memory hm⟩

end CTalk
