import PirateShip.Lib.Run
import PirateShip.Lib.Splice
import PirateShip.Utils.Serialize

/-! Messages on an RPC connection: four bytes of size, then the body. The writer
collects bytes in a buffer of its own, the reader takes what the transport hands
it into another one, and neither buffer knows where a message ends. -/

set_option autoImplicit false

namespace PirateShip

open List Option

/-- `streamTx` is what was handed to the transport, `streamRx` what its next
reads return. -/
structure BufferedTlsStream where
  streamTx : Bytes := []
  streamRx : List Bytes := []
  buffer : Bytes := List.replicate 8192 0
  writeBuffer : Bytes := List.replicate 8192 0
  writeOffset : Nat := 0
  offset : Nat := 0
  bound : Nat := 0

namespace BufferedTlsStream

def new (streamRx : List Bytes) : BufferedTlsStream := { streamRx }

def flushWriteBuffer (stream : BufferedTlsStream) : BufferedTlsStream :=
  { stream with
    streamTx := stream.streamTx ++ stream.writeBuffer.take stream.writeOffset
    writeOffset := 0 }

/-- One iteration a unit of fuel: `n` bytes of `buff` are still to be written. -/
def writeLoop (buff : Bytes) (len : Nat) : Nat → Nat → BufferedTlsStream → Option BufferedTlsStream
  | 0, _, _ => none
  | fuel + 1, n, stream =>
    if n = 0 then some stream
    else
      let spaceLeft := stream.writeBuffer.length - stream.writeOffset
      if spaceLeft = 0 then writeLoop buff len fuel n stream.flushWriteBuffer
      else
        let toWrite := if n < spaceLeft then n else spaceLeft
        (overwrite stream.writeBuffer stream.writeOffset ((buff.drop (len - n)).take toWrite) toWrite).bind
          fun writeBuffer =>
            writeLoop buff len fuel (n - toWrite)
              { stream with writeBuffer, writeOffset := stream.writeOffset + toWrite }

def writeAllBufffered (stream : BufferedTlsStream) (buff : Bytes) (len : Nat) : Option BufferedTlsStream :=
  writeLoop buff len (2 * len + 1) len stream

def sizeBytes (data : Nat) : Bytes := (toBeBytes data).drop 4

def writeU32Buffered (stream : BufferedTlsStream) (data : Nat) : Option BufferedTlsStream :=
  stream.writeAllBufffered (sizeBytes data) 4

end BufferedTlsStream

structure FrameReader where
  buffer : Bytes
  stream : List Bytes
  offset : Nat
  bound : Nat

namespace FrameReader

def new (stream : List Bytes) : FrameReader := ⟨List.replicate 65536 0, stream, 0, 0⟩

def fetch (reader : FrameReader) : Option FrameReader :=
  match reader.stream with
  | [] => none
  | read :: stream =>
    some ⟨read ++ reader.buffer.drop read.length, stream, 0, read.length⟩

/-- One iteration a unit of fuel: `n` bytes are still to be put into `v`, from `pos` on. -/
def readLoop : Nat → FrameReader → Nat → Nat → Bytes → Option (FrameReader × Bytes)
  | 0, _, _, _, _ => none
  | fuel + 1, reader, n, pos, v =>
    if n = 0 then some (reader, v)
    else
      (if reader.bound = reader.offset then reader.fetch else some reader).bind fun reader =>
        let fetched := reader.bound - reader.offset
        if fetched ≥ n then
          (overwrite v pos ((reader.buffer.drop reader.offset).take n) n).bind fun v =>
            readLoop fuel { reader with offset := reader.offset + n } 0 pos v
        else
          (overwrite v pos ((reader.buffer.drop reader.offset).take fetched) fetched).bind fun v =>
            readLoop fuel { reader with offset := reader.bound } (n - fetched) (pos + fetched) v

def readNextBytes (reader : FrameReader) (n : Nat) (v : Bytes) : Option (FrameReader × Bytes) :=
  readLoop (n + reader.stream.length + 1) reader n 0 v

/-- The size of the frame, which is then at the start of `buff`. -/
def getNextFrame (reader : FrameReader) (buff : Bytes) : Option (Nat × FrameReader × Bytes) := do
  let (reader, szVec) ← reader.readNextBytes 4 (List.replicate 4 0)
  let sz := fromBeBytes szVec
  let buff := if sz > buff.length then buff ++ List.replicate (sz - buff.length) 0 else buff
  let (reader, buff) ← reader.readNextBytes sz buff
  return (sz, reader, buff)

end FrameReader

namespace BufferedTlsStream

/-- The reading half, which the client and the server have alike. -/
def reader (stream : BufferedTlsStream) : FrameReader :=
  ⟨stream.buffer, stream.streamRx, stream.offset, stream.bound⟩

def withReader (stream : BufferedTlsStream) (reader : FrameReader) : BufferedTlsStream :=
  { stream with buffer := reader.buffer, streamRx := reader.stream, offset := reader.offset, bound := reader.bound }

def getNextFrame (stream : BufferedTlsStream) (buff : Bytes) : Option (Nat × BufferedTlsStream × Bytes) :=
  (stream.reader.getNextFrame buff).map fun (sz, reader, buff) => (sz, stream.withReader reader, buff)

end BufferedTlsStream

/-- What a connection's loop sees in `k` calls that share one receive buffer. -/
def receive {Reader : Type} (getNextFrame : Reader → Bytes → Option (Nat × Reader × Bytes)) :
    Nat → Reader → Bytes → List Bytes
  | 0, _, _ => []
  | k + 1, reader, buff =>
    match getNextFrame reader buff with
    | none => []
    | some (sz, reader, buff) => buff.take sz :: receive getNextFrame k reader buff

/-! ## The writer -/

theorem overwrite_eq_splice {bytes value start} (fits : start + value.length ≤ bytes.length) :
    overwrite bytes start value value.length = some (bytes.splice start value) :=
  if_pos ⟨fits, rfl⟩

namespace BufferedTlsStream

open StepSystem

variable {stream : BufferedTlsStream}

/-- What was written, whether the transport has it or the buffer. -/
def written (stream : BufferedTlsStream) : Bytes :=
  stream.streamTx ++ stream.writeBuffer.take stream.writeOffset

structure Writable (stream : BufferedTlsStream) : Prop where
  room : 0 < stream.writeBuffer.length
  inside : stream.writeOffset ≤ stream.writeBuffer.length

theorem writable_new (streamRx) : (new streamRx).Writable :=
  ⟨Nat.lt_of_lt_of_eq (by decide) length_replicate.symm, Nat.zero_le _⟩

@[simp]
theorem written_flushWriteBuffer (stream : BufferedTlsStream) : stream.flushWriteBuffer.written = stream.written := by
  simp [written, flushWriteBuffer]

theorem Writable.flushWriteBuffer (writable : stream.Writable) : stream.flushWriteBuffer.Writable :=
  ⟨writable.room, Nat.zero_le _⟩

theorem Writable.put (writable : stream.Writable) {value}
    (fits : stream.writeOffset + value.length ≤ stream.writeBuffer.length) {after}
    (stored : after = { stream with
      writeBuffer := stream.writeBuffer.splice stream.writeOffset value
      writeOffset := stream.writeOffset + value.length }) :
    after.Writable ∧ after.written = stream.written ++ value := by
  subst stored
  have length := length_splice fits
  constructor
  · exact ⟨length ▸ writable.room, length ▸ fits⟩
  · simp [written, take_splice writable.inside]

def needed (stream : BufferedTlsStream) (n : Nat) : Nat :=
  if stream.writeOffset = stream.writeBuffer.length then 2 * n + 1 else max 1 (2 * n)

theorem writeLoop_spec {buff len} (whole : len ≤ buff.length) (fuel n stream) (writable : stream.Writable)
    (rest : n ≤ len) (enough : stream.needed n ≤ fuel) :
    ∃ after, writeLoop buff len fuel n stream = some after ∧ after.Writable ∧
      after.written = stream.written ++ (buff.drop (len - n)).take n := by
  -- Induction on the fuel; an iteration flushes a full buffer or writes at least one byte.
  induction fuel generalizing n stream with
  | zero =>
    simp only [needed] at enough
    split at enough <;> omega
  | succ fuel ih =>
    by_cases finished : n = 0
    · exact ⟨stream, by simp [writeLoop, finished], writable, by simp [finished]⟩
    have inside := writable.inside
    have room := writable.room
    by_cases full : stream.writeOffset = stream.writeBuffer.length
    · have enough_after : stream.flushWriteBuffer.needed n ≤ fuel := by
        simp only [needed, full, ↓reduceIte, flushWriteBuffer] at enough ⊢
        split <;> omega
      obtain ⟨after, ran, writable_after, written_after⟩ :=
        ih n stream.flushWriteBuffer writable.flushWriteBuffer rest enough_after
      refine ⟨after, ?_, writable_after, by rw [written_after, written_flushWriteBuffer]⟩
      simp [writeLoop, finished, full, ran]
    · have space : stream.writeBuffer.length - stream.writeOffset ≠ 0 := by omega
      obtain ⟨toWrite, chosen⟩ : ∃ toWrite, toWrite = if n < stream.writeBuffer.length - stream.writeOffset then n
          else stream.writeBuffer.length - stream.writeOffset := ⟨_, rfl⟩
      have bounds : 0 < toWrite ∧ toWrite ≤ n ∧ stream.writeOffset + toWrite ≤ stream.writeBuffer.length ∧
          (toWrite < n → stream.writeOffset + toWrite = stream.writeBuffer.length) := by
        split at chosen <;> omega
      obtain ⟨positive, within, fits, fills⟩ := bounds
      obtain ⟨value, sliced⟩ : ∃ value, value = (buff.drop (len - n)).take toWrite := ⟨_, rfl⟩
      have length : value.length = toWrite := by
        simp only [sliced, length_take, length_drop]
        omega
      have fits : stream.writeOffset + value.length ≤ stream.writeBuffer.length := length ▸ fits
      obtain ⟨next, filled⟩ : ∃ next : BufferedTlsStream, next = { stream with
          writeBuffer := stream.writeBuffer.splice stream.writeOffset value
          writeOffset := stream.writeOffset + value.length } := ⟨_, rfl⟩
      obtain ⟨writable_next, written_next⟩ := writable.put fits filled
      have enough_after : next.needed (n - toWrite) ≤ fuel := by
        simp only [needed, full, ↓reduceIte] at enough ⊢
        split <;> omega
      obtain ⟨after, ran, writable_after, written_after⟩ :=
        ih (n - toWrite) next writable_next (by omega) enough_after
      refine ⟨after, ?_, writable_after, ?_⟩
      · have stored := overwrite_eq_splice fits
        rw [length] at stored filled
        rw [filled] at ran
        simp [writeLoop, finished, space, ← chosen, ← sliced, stored, ran]
      · have position : len - (n - toWrite) = len - n + toWrite := by omega
        have split_take : (buff.drop (len - n)).take n =
            value ++ (buff.drop (len - (n - toWrite))).take (n - toWrite) := by
          rw [sliced, position, ← drop_drop, ← take_add, Nat.add_sub_cancel' within]
        rw [written_after, written_next, split_take, append_assoc]

theorem Writable.writeAllBufffered (writable : stream.Writable) (buff) :
    ∃ after, stream.writeAllBufffered buff buff.length = some after ∧ after.Writable ∧
      after.written = stream.written ++ buff := by
  have enough : stream.needed buff.length ≤ 2 * buff.length + 1 := by
    simp only [needed]
    split <;> omega
  simpa [BufferedTlsStream.writeAllBufffered] using
    writeLoop_spec (Nat.le_refl buff.length) _ _ stream writable (Nat.le_refl _) enough

@[simp]
theorem length_sizeBytes (data) : (sizeBytes data).length = 4 := rfl

inductive WriteCall where
  | writeU32Buffered (data : Nat)
  | writeAllBufffered (buff : Bytes)
  | flushWriteBuffer
  deriving DecidableEq

def call (stream : BufferedTlsStream) : WriteCall → Option BufferedTlsStream
  | .writeU32Buffered data => stream.writeU32Buffered data
  | .writeAllBufffered buff => stream.writeAllBufffered buff buff.length
  | .flushWriteBuffer => some stream.flushWriteBuffer

def WriteCall.bytes : WriteCall → Bytes
  | .writeU32Buffered data => sizeBytes data
  | .writeAllBufffered buff => buff
  | .flushWriteBuffer => []

theorem Writable.call (writable : stream.Writable) (call) :
    ∃ after, stream.call call = some after ∧ after.Writable ∧ after.written = stream.written ++ call.bytes := by
  cases call with
  | writeU32Buffered data => exact writable.writeAllBufffered (sizeBytes data)
  | writeAllBufffered buff => exact writable.writeAllBufffered buff
  | flushWriteBuffer =>
    exact ⟨_, rfl, writable.flushWriteBuffer, by simp [WriteCall.bytes]⟩

theorem Writable.runAll_call (writable : stream.Writable) (calls) :
    ∃ after, runAll BufferedTlsStream.call stream calls = some after ∧
      after.written = stream.written ++ calls.flatMap WriteCall.bytes := by
  induction calls generalizing stream with
  | nil => exact ⟨stream, rfl, by simp⟩
  | cons call calls ih =>
    obtain ⟨next, taken, writable_next, written_next⟩ := writable.call call
    obtain ⟨after, ran, written_after⟩ := ih writable_next
    refine ⟨after, ?_, ?_⟩
    · simp [runAll, taken, ran]
    · rw [written_after, written_next, flatMap_cons, append_assoc]

end BufferedTlsStream

/-! ## The reader -/

def frame (message : Bytes) : Bytes := BufferedTlsStream.sizeBytes message.length ++ message

theorem fromBeBytes_sizeBytes {data} (small : data < 2 ^ 32) :
    fromBeBytes (BufferedTlsStream.sizeBytes data) = data :=
  (fromBeBytes_places data 4).trans (Nat.mod_eq_of_lt small)

namespace FrameReader

def remaining (reader : FrameReader) : Bytes :=
  (reader.buffer.take reader.bound).drop reader.offset ++ reader.stream.flatten

structure WellFormed (reader : FrameReader) : Prop where
  offset_le : reader.offset ≤ reader.bound
  bound_le : reader.bound ≤ reader.buffer.length
  reads : ∀ read ∈ reader.stream, 0 < read.length ∧ read.length ≤ reader.buffer.length

variable {reader : FrameReader}

theorem WellFormed.fetch (wellFormed : reader.WellFormed) (empty : reader.bound = reader.offset)
    (more : reader.remaining ≠ []) :
    ∃ fetched, reader.fetch = some fetched ∧ fetched.WellFormed ∧ fetched.remaining = reader.remaining ∧
      fetched.offset < fetched.bound := by
  cases reader with
  | mk buffer stream offset bound =>
    obtain rfl : bound = offset := empty
    cases stream with
    | nil =>
      refine absurd ?_ more
      simp [remaining]
    | cons read stream =>
      have bounds := wellFormed.reads read mem_cons_self
      have same_length : (read ++ buffer.drop read.length).length = buffer.length := by
        simp only [length_append, length_drop]
        exact Nat.add_sub_cancel' bounds.2
      refine ⟨⟨read ++ buffer.drop read.length, stream, 0, read.length⟩, rfl, ⟨Nat.zero_le _, ?_, ?_⟩, ?_, bounds.1⟩
      · simp
      · intro other member
        rw [same_length]
        exact wellFormed.reads other (mem_cons_of_mem _ member)
      · simp [remaining]

theorem WellFormed.ready (wellFormed : reader.WellFormed) (more : reader.remaining ≠ []) :
    ∃ ready, (if reader.bound = reader.offset then reader.fetch else some reader) = some ready ∧
      ready.WellFormed ∧ ready.remaining = reader.remaining ∧ ready.offset < ready.bound := by
  by_cases empty : reader.bound = reader.offset
  · simpa only [empty, ↓reduceIte] using wellFormed.fetch empty more
  · have := wellFormed.offset_le
    exact ⟨reader, by simp [empty], wellFormed, rfl, by omega⟩

theorem WellFormed.advance (wellFormed : reader.WellFormed) {n} (within : n ≤ reader.bound - reader.offset)
    {after} (advanced : after = { reader with offset := reader.offset + n }) :
    after.WellFormed ∧ (reader.buffer.drop reader.offset).take n = reader.remaining.take n ∧
      after.remaining = reader.remaining.drop n := by
  subst advanced
  have offset_le := wellFormed.offset_le
  have bound_le := wellFormed.bound_le
  have length : ((reader.buffer.take reader.bound).drop reader.offset).length = reader.bound - reader.offset := by
    simp [bound_le]
  refine ⟨⟨by simp only; omega, bound_le, wellFormed.reads⟩, ?_, ?_⟩
  · rw [remaining, take_append_of_le_length (by omega), drop_take, take_take, Nat.min_eq_left within]
  · simp only [remaining]
    rw [drop_append_of_le_length (by omega), drop_drop]

theorem readLoop_spec (fuel n pos v reader) (wellFormed : reader.WellFormed)
    (available : n ≤ reader.remaining.length) (fits : pos + n ≤ v.length) (enough : n < fuel) :
    ∃ after, readLoop fuel reader n pos v = some (after, v.splice pos (reader.remaining.take n)) ∧
      after.WellFormed ∧ after.remaining = reader.remaining.drop n := by
  -- Induction on the fuel: an iteration takes all the bytes wanted or all those at hand.
  induction fuel generalizing n pos v reader with
  | zero => omega
  | succ fuel ih =>
    by_cases finished : n = 0
    · exact ⟨reader, by simp [readLoop, finished], wellFormed, by simp [finished]⟩
    have more : reader.remaining ≠ [] := by
      intro empty
      rw [empty, length_nil] at available
      omega
    obtain ⟨ready, fetched, wellFormed_ready, same, nonempty⟩ := wellFormed.ready more
    rw [← same] at available ⊢
    by_cases whole : ready.bound - ready.offset ≥ n
    · obtain ⟨wellFormed_after, taken, left⟩ := wellFormed_ready.advance whole rfl
      have length : (ready.remaining.take n).length = n := length_take_of_le available
      have fits_all : pos + (ready.remaining.take n).length ≤ v.length := by omega
      have stored := overwrite_eq_splice fits_all
      rw [length] at stored
      cases fuel with
      | zero => omega
      | succ fuel =>
        refine ⟨_, ?_, wellFormed_after, left⟩
        simp [finished, fetched, whole, taken, stored, readLoop]
    · obtain ⟨part, chosen⟩ : ∃ part, part = ready.bound - ready.offset := ⟨_, rfl⟩
      obtain ⟨next, moved⟩ : ∃ next : FrameReader, next = { ready with offset := ready.bound } := ⟨_, rfl⟩
      have position : ready.offset + part = ready.bound := by omega
      obtain ⟨wellFormed_next, taken, left⟩ :=
        wellFormed_ready.advance (Nat.le_of_eq chosen) (moved.trans (by rw [position]))
      have length : (ready.remaining.take part).length = part := length_take_of_le (by omega)
      have fits_part : pos + (ready.remaining.take part).length ≤ v.length := by omega
      have stored := overwrite_eq_splice fits_part
      have same_length := length_splice fits_part
      rw [length] at stored
      obtain ⟨after, ran, wellFormed_after, remaining_after⟩ :=
        ih (n - part) (pos + part) (v.splice pos (ready.remaining.take part)) next wellFormed_next
          (by rw [left, length_drop]; omega) (by omega) (by omega)
      have wanted : ready.remaining.take n =
          ready.remaining.take part ++ (ready.remaining.drop part).take (n - part) := by
        rw [← take_add, Nat.add_sub_cancel' (by omega)]
      have copied := v.splice_append pos (ready.remaining.take part) ((ready.remaining.drop part).take (n - part))
        (by omega)
      rw [length, ← wanted] at copied
      refine ⟨after, ?_, wellFormed_after, ?_⟩
      · rw [left, copied, moved] at ran
        rw [readLoop]
        rw [← chosen] at whole
        simp [finished, fetched, ← chosen, whole, taken, stored, ran]
      · rw [remaining_after, left, drop_drop, Nat.add_sub_cancel' (by omega)]

variable (wellFormed : reader.WellFormed)
include wellFormed

theorem WellFormed.readNextBytes {n v} (available : n ≤ reader.remaining.length) (fits : n ≤ v.length) :
    ∃ after, reader.readNextBytes n v = some (after, reader.remaining.take n ++ v.drop n) ∧
      after.WellFormed ∧ after.remaining = reader.remaining.drop n := by
  have spec := readLoop_spec (n + reader.stream.length + 1) n 0 v reader wellFormed available (by omega) (by omega)
  simpa only [FrameReader.readNextBytes, List.splice, take_zero, nil_append, Nat.zero_add,
    length_take_of_le available] using spec

theorem WellFormed.getNextFrame {message rest} (small : message.length < 2 ^ 32)
    (next : reader.remaining = frame message ++ rest) (buff) :
    ∃ after received, reader.getNextFrame buff = some (message.length, after, received) ∧
      received.take message.length = message ∧ after.WellFormed ∧ after.remaining = rest := by
  have length : reader.remaining.length = 4 + (message.length + rest.length) := by
    rw [next, frame, length_append, length_append, BufferedTlsStream.length_sizeBytes, Nat.add_assoc]
  obtain ⟨sized, read_size, wellFormed_sized, remaining_sized⟩ :=
    wellFormed.readNextBytes (n := 4) (v := List.replicate 4 0) (by omega) (by simp)
  have size : reader.remaining.take 4 ++ (List.replicate 4 (0 : UInt8)).drop 4 =
      BufferedTlsStream.sizeBytes message.length := by
    rw [next]
    exact (append_nil _).trans (take_left' (BufferedTlsStream.length_sizeBytes _))
  have body : sized.remaining = message ++ rest := by
    rw [remaining_sized, next]
    exact drop_left' (BufferedTlsStream.length_sizeBytes _)
  obtain ⟨grown, extended⟩ : ∃ grown, grown = if message.length > buff.length then
      buff ++ List.replicate (message.length - buff.length) 0 else buff := ⟨_, rfl⟩
  have fits : message.length ≤ grown.length := by
    rw [extended]
    split
    · simp only [length_append, length_replicate]
      omega
    · omega
  obtain ⟨after, read_body, wellFormed_after, remaining_after⟩ :=
    wellFormed_sized.readNextBytes (n := message.length) (by simp [body]) fits
  rw [size] at read_size
  rw [body, drop_left] at remaining_after
  rw [body, take_left] at read_body
  refine ⟨after, message ++ grown.drop message.length, ?_, take_left, wellFormed_after, remaining_after⟩
  simp only [FrameReader.getNextFrame, Option.bind_eq_bind, read_size, Option.bind_some, fromBeBytes_sizeBytes small,
    ← extended, read_body, Option.pure_def]

theorem WellFormed.at_end (empty : reader.remaining = []) : reader.bound = reader.offset ∧ reader.stream = [] := by
  obtain ⟨consumed, flattened⟩ := append_eq_nil_iff.mp empty
  constructor
  · have short := drop_eq_nil_iff.mp consumed
    rw [length_take, Nat.min_eq_left wellFormed.bound_le] at short
    exact Nat.le_antisymm short wellFormed.offset_le
  · refine eq_nil_iff_forall_not_mem.mpr fun read member => ?_
    have nonempty := (wellFormed.reads read member).1
    rw [flatten_eq_nil_iff.mp flattened read member] at nonempty
    exact Nat.lt_irrefl 0 nonempty

theorem WellFormed.getNextFrame_eq_none (empty : reader.remaining = []) (buff) : reader.getNextFrame buff = none := by
  obtain ⟨consumed, no_more⟩ := wellFormed.at_end empty
  simp [FrameReader.getNextFrame, FrameReader.readNextBytes, readLoop, consumed, FrameReader.fetch, no_more]

theorem WellFormed.receive {messages : List Bytes} (small : ∀ message ∈ messages, message.length < 2 ^ 32)
    (stream : reader.remaining = messages.flatMap frame) (buff k) :
    receive FrameReader.getNextFrame k reader buff = messages.take k := by
  induction k generalizing reader messages buff with
  | zero => simp [PirateShip.receive]
  | succ k ih =>
    cases messages with
    | nil => simp [PirateShip.receive, wellFormed.getNextFrame_eq_none stream buff]
    | cons message messages =>
      obtain ⟨after, received, framed, contents, wellFormed_after, rest⟩ :=
        wellFormed.getNextFrame (small message mem_cons_self) stream buff
      have tail := ih wellFormed_after (fun other member => small other (mem_cons_of_mem _ member)) rest received
      simp [PirateShip.receive, framed, contents, tail]

omit wellFormed

theorem receive_of_reads {buffer : Bytes} {reads messages : List Bytes}
    (sizes : ∀ read ∈ reads, 1 ≤ read.length ∧ read.length ≤ buffer.length)
    (small : ∀ message ∈ messages, message.length < 2 ^ 32) (stream : reads.flatten = messages.flatMap frame)
    (buff k) : PirateShip.receive FrameReader.getNextFrame k ⟨buffer, reads, 0, 0⟩ buff = messages.take k :=
  WellFormed.receive ⟨Nat.le_refl 0, Nat.zero_le _, sizes⟩ small (by simpa [remaining] using stream) buff k

end FrameReader

namespace BufferedTlsStream

open StepSystem

theorem receive_eq (stream buff k) :
    receive getNextFrame k stream buff = receive FrameReader.getNextFrame k stream.reader buff := by
  induction k generalizing stream buff with
  | zero => rfl
  | succ k ih =>
    cases framed : stream.reader.getNextFrame buff with
    | none => simp [receive, getNextFrame, framed]
    | some result =>
      simp only [receive, getNextFrame, framed, ih]
      rfl

/-- The calls that send a list of messages, without the flushes. -/
def sendCalls (messages : List Bytes) : List WriteCall :=
  messages.flatMap fun message => [.writeU32Buffered message.length, .writeAllBufffered message]

theorem bytes_filter (calls : List WriteCall) :
    (calls.filter (· ≠ .flushWriteBuffer)).flatMap WriteCall.bytes = calls.flatMap WriteCall.bytes := by
  induction calls with
  | nil => rfl
  | cons call calls ih =>
    cases call with
    | flushWriteBuffer => simpa [WriteCall.bytes] using ih
    | writeU32Buffered data => simpa using ih
    | writeAllBufffered buff => simpa using ih

theorem bytes_sendCalls (messages) : (sendCalls messages).flatMap WriteCall.bytes = messages.flatMap frame := by
  induction messages with
  | nil => rfl
  | cons message messages ih =>
    rw [sendCalls, flatMap_cons, flatMap_append, flatMap_cons, ← sendCalls, ih]
    simp [WriteCall.bytes, frame]

/-- Wherever the writer flushes and however the reads are cut, the messages come
out as they were sent, and then nothing. -/
theorem receive_eq_sent (messages : List Bytes) (small : ∀ message ∈ messages, message.length < 2 ^ 32)
    (calls : List WriteCall) (order : calls.filter (· ≠ .flushWriteBuffer) = sendCalls messages) :
    ∃ sender, runAll call (new []) (calls ++ [.flushWriteBuffer]) = some sender ∧
      ∀ (reads : List Bytes) (buff : Bytes) (k : Nat), reads.flatten = sender.streamTx →
        ((∀ read ∈ reads, 1 ≤ read.length ∧ read.length ≤ 65536) →
          receive FrameReader.getNextFrame k (FrameReader.new reads) buff = messages.take k) ∧
        ((∀ read ∈ reads, 1 ≤ read.length ∧ read.length ≤ 8192) →
          receive getNextFrame k (new reads) buff = messages.take k) := by
  obtain ⟨stream, ran, written⟩ := (writable_new []).runAll_call calls
  refine ⟨stream.flushWriteBuffer, ?_, fun reads buff k transported => ?_⟩
  · simp only [runAll_append, ran, bind_some, runAll_singleton, call]
  · have bytes : reads.flatten = messages.flatMap frame := by
      rw [transported, ← bytes_sendCalls, ← order, bytes_filter]
      exact written
    constructor
    · intro sizes
      refine FrameReader.receive_of_reads (fun read member => ?_) small bytes buff k
      exact ⟨(sizes read member).1, Nat.le_trans (sizes read member).2 (Nat.le_of_eq length_replicate.symm)⟩
    · intro sizes
      rw [receive_eq]
      refine FrameReader.receive_of_reads (fun read member => ?_) small bytes buff k
      exact ⟨(sizes read member).1, Nat.le_trans (sizes read member).2 (Nat.le_of_eq length_replicate.symm)⟩

theorem receive_eq_sent_two :
    ∃ sender, runAll call (new []) ([.writeU32Buffered 2, .flushWriteBuffer, .writeAllBufffered [7, 8],
        .writeU32Buffered 0, .writeAllBufffered []] ++ [.flushWriteBuffer]) = some sender ∧
      ∀ (reads : List Bytes) (buff : Bytes) (k : Nat), reads.flatten = sender.streamTx →
        ((∀ read ∈ reads, 1 ≤ read.length ∧ read.length ≤ 65536) →
          receive FrameReader.getNextFrame k (FrameReader.new reads) buff = [[7, 8], []].take k) ∧
        ((∀ read ∈ reads, 1 ≤ read.length ∧ read.length ≤ 8192) →
          receive getNextFrame k (new reads) buff = [[7, 8], []].take k) :=
  receive_eq_sent [[7, 8], []] (by decide) _ (by decide)

end BufferedTlsStream

end PirateShip
