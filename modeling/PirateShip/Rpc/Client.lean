import PirateShip.Lib.Merge
import PirateShip.Rpc.Framing

/-! Two tasks on one socket of a client: `send`, which staging calls for its
votes, and the broadcast worker of the same peer, which sends the view changes.
The socket is locked for each call on it, not for a message. -/

set_option autoImplicit false

namespace PirateShip

open List StepSystem Option

inductive SendTask where
  | idle
  | sized (data : Bytes)
  | buffered

def SendTask.half : SendTask → Option Bytes
  | .sized data => some data
  | _ => none

/-- Where the broadcast worker is: the messages it still has to write of those it
took from its channel. -/
inductive BroadcastWorker where
  | receiving
  | sending (msgs : List Bytes)
  | sized (msg : Bytes) (msgs : List Bytes)

def BroadcastWorker.half : BroadcastWorker → Option Bytes
  | .sized msg _ => some msg
  | _ => none

def BroadcastWorker.next : BroadcastWorker → Option Bytes
  | .sending msgs => msgs.head?
  | _ => none

/-- A socket and its two tasks, with the messages that each has written. -/
structure Socket where
  stream : BufferedTlsStream := .new []
  send : SendTask := .idle
  worker : BroadcastWorker := .receiving
  votes : List Bytes := []
  viewChanges : List Bytes := []

namespace Socket

/-- The steps of the two tasks; all but `recvMany` hold the lock. -/
inductive Step where
  | sendSize (data : Bytes)
  | sendBody
  | sendFlush
  | recvMany (msgs : List Bytes)
  | workerSize
  | workerBody
  | workerFlush

def step (socket : Socket) : Step → Option Socket
  | .sendSize data =>
    match socket.send with
    | .idle => (socket.stream.writeU32Buffered data.length).map fun stream =>
        { socket with stream, send := .sized data }
    | _ => none
  | .sendBody =>
    match socket.send with
    | .sized data => (socket.stream.writeAllBufffered data data.length).map fun stream =>
        { socket with stream, send := .buffered, votes := socket.votes ++ [data] }
    | _ => none
  | .sendFlush =>
    match socket.send with
    | .buffered => some { socket with stream := socket.stream.flushWriteBuffer, send := .idle }
    | _ => none
  | .recvMany msgs =>
    match socket.worker with
    | .receiving =>
      if msgs = [] ∨ 10 < msgs.length then none else some { socket with worker := .sending msgs }
    | _ => none
  | .workerSize =>
    match socket.worker with
    | .sending (msg :: msgs) => (socket.stream.writeU32Buffered msg.length).map fun stream =>
        { socket with stream, worker := .sized msg msgs }
    | _ => none
  | .workerBody =>
    match socket.worker with
    | .sized msg msgs => (socket.stream.writeAllBufffered msg msg.length).map fun stream =>
        { socket with stream, worker := .sending msgs, viewChanges := socket.viewChanges ++ [msg] }
    | _ => none
  | .workerFlush =>
    match socket.worker with
    | .sending [] => some { socket with stream := socket.stream.flushWriteBuffer, worker := .receiving }
    | _ => none

end Socket

def parseLoop : Nat → Bytes → Option (List Bytes)
  | 0, bytes => if bytes = [] then some [] else none
  | fuel + 1, bytes =>
    if bytes = [] then some []
    else
      let sz := fromBeBytes (bytes.take 4)
      if bytes.length < 4 + sz then none
      else (parseLoop fuel (bytes.drop (4 + sz))).map (((bytes.drop 4).take sz) :: ·)

def parseFrames (bytes : Bytes) : Option (List Bytes) := parseLoop bytes.length bytes

theorem parseLoop_flatMap_frame {messages} (small : ∀ message ∈ messages, message.length < 2 ^ 32) (fuel)
    (enough : messages.length ≤ fuel) : parseLoop fuel (messages.flatMap frame) = some messages := by
  induction messages generalizing fuel with
  | nil => cases fuel <;> rfl
  | cons message messages ih =>
    cases fuel with
    | zero => simp at enough
    | succ fuel =>
      have rest := ih (fun other member => small other (mem_cons_of_mem _ member)) fuel
        (Nat.le_of_succ_le_succ enough)
      have size : ((message :: messages).flatMap frame).take 4 = BufferedTlsStream.sizeBytes message.length := by
        exact take_left' (BufferedTlsStream.length_sizeBytes _)
      have body : ((message :: messages).flatMap frame).drop 4 = message ++ messages.flatMap frame := by
        exact drop_left' (BufferedTlsStream.length_sizeBytes _)
      have length : ((message :: messages).flatMap frame).length =
          4 + message.length + (messages.flatMap frame).length := by
        simp [frame, Nat.add_assoc]
      have nonempty : (message :: messages).flatMap frame ≠ [] := by
        intro empty
        rw [empty, length_nil] at length
        omega
      rw [parseLoop, if_neg nonempty, size, fromBeBytes_sizeBytes (small message mem_cons_self),
        if_neg (by omega), ← drop_drop, body, drop_left, take_left, rest, map_some]

theorem parseFrames_flatMap_frame {messages} (small : ∀ message ∈ messages, message.length < 2 ^ 32) :
    parseFrames (messages.flatMap frame) = some messages := by
  refine parseLoop_flatMap_frame small _ ?_
  clear small
  induction messages with
  | nil => exact Nat.le_refl 0
  | cons message messages ih =>
    simp only [flatMap_cons, length_cons, length_append, frame, BufferedTlsStream.length_sizeBytes]
    omega

namespace Socket

/-- Between messages, the bytes written are those of a merge of the messages. -/
def Intact (socket : Socket) : Prop :=
  socket.send.half = none → socket.worker.half = none →
    ∃ merged, List.Merge socket.votes socket.viewChanges merged ∧ parseFrames socket.stream.written = some merged

/-- The sizes of a message of one byte and of one of two, and then the bodies. -/
theorem not_intact_of_two_sizes : ∃ socket, Reaches step Any {} socket ∧ ¬ socket.Intact := by
  obtain ⟨socket, reached, send_idle, worker_idle, broken⟩ : ∃ socket, Reaches step Any {} socket ∧
      socket.send.half = none ∧ socket.worker.half = none ∧ parseFrames socket.stream.written = none :=
    exists_reaches_any
      [.sendSize [1], .recvMany [[2, 2]], .workerSize, .sendBody, .workerBody] (by decide +kernel)
  refine ⟨socket, reached, fun intact => ?_⟩
  obtain ⟨_, _, parsed⟩ := intact send_idle worker_idle
  rw [broken] at parsed
  cases parsed

/-- A size is written while the other task is not between a size and its body,
and it fits its four bytes. -/
def Exclusive (socket : Socket) : Step → Prop
  | .sendSize data => data.length < 2 ^ 32 ∧ socket.worker.half = none
  | .workerSize => (∀ msg ∈ socket.worker.next, msg.length < 2 ^ 32) ∧ socket.send.half = none
  | _ => True

instance (socket : Socket) : ∀ step, Decidable (socket.Exclusive step)
  | .sendSize data => inferInstanceAs (Decidable (data.length < 2 ^ 32 ∧ socket.worker.half = none))
  | .workerSize =>
    inferInstanceAs (Decidable ((∀ msg ∈ socket.worker.next, msg.length < 2 ^ 32) ∧ socket.send.half = none))
  | .sendBody | .sendFlush | .recvMany _ | .workerBody | .workerFlush => isTrue trivial

def begun (socket : Socket) : Bytes :=
  (socket.send.half.toList ++ socket.worker.half.toList).flatMap
    fun message => BufferedTlsStream.sizeBytes message.length

structure Framed (socket : Socket) : Prop where
  writable : socket.stream.Writable
  one_half : socket.send.half = none ∨ socket.worker.half = none
  small_half : ∀ message ∈ socket.send.half.toList ++ socket.worker.half.toList, message.length < 2 ^ 32
  written : ∃ merged, List.Merge socket.votes socket.viewChanges merged ∧
    (∀ message ∈ merged, message.length < 2 ^ 32) ∧
    socket.stream.written = merged.flatMap frame ++ socket.begun

theorem framed_new : Framed {} :=
  ⟨BufferedTlsStream.writable_new [], .inl rfl, forall_mem_nil _, [], .nil, forall_mem_nil _, rfl⟩

theorem Framed.intact {socket : Socket} (framed : socket.Framed) : socket.Intact := by
  intro send_idle worker_idle
  obtain ⟨merged, merge, small, written⟩ := framed.written
  refine ⟨merged, merge, ?_⟩
  rw [written, begun, send_idle, worker_idle]
  simpa using parseFrames_flatMap_frame small

theorem flatMap_frame_concat (merged message) :
    merged.flatMap frame ++ BufferedTlsStream.sizeBytes message.length ++ message =
      (merged ++ [message]).flatMap frame := by
  simp [frame]

theorem Framed.step {socket after : Socket} {step : Step} (framed : socket.Framed)
    (exclusive : socket.Exclusive step) (taken : socket.step step = some after) : after.Framed := by
  obtain ⟨writable, one_half, small_half, merged, merge, small, written⟩ := framed
  obtain ⟨stream, send, worker, _, _⟩ := socket
  cases step with
  | sendSize data =>
    cases send with
    | sized _ => cases taken
    | buffered => cases taken
    | idle =>
      obtain ⟨fits, worker_idle⟩ := exclusive
      obtain ⟨next, wrote, writable_next, written_next⟩ := writable.call (.writeU32Buffered data.length)
      obtain ⟨_, again, rfl⟩ := map_eq_some_iff.mp taken
      obtain rfl := some.inj (again.symm.trans wrote)
      refine ⟨writable_next, .inr worker_idle, ?_, merged, merge, small, ?_⟩
      · simpa [SendTask.half, show worker.half = none from worker_idle] using fits
      · rw [written_next, written]
        simp [begun, SendTask.half, show worker.half = none from worker_idle, BufferedTlsStream.WriteCall.bytes]
  | sendBody =>
    cases send with
    | idle => cases taken
    | buffered => cases taken
    | sized data =>
      have worker_idle : worker.half = none := one_half.resolve_left (by simp [SendTask.half])
      obtain ⟨next, wrote, writable_next, written_next⟩ := writable.call (.writeAllBufffered data)
      obtain ⟨_, again, rfl⟩ := map_eq_some_iff.mp taken
      obtain rfl := some.inj (again.symm.trans wrote)
      have fits : data.length < 2 ^ 32 := small_half data (by simp [SendTask.half])
      refine ⟨writable_next, .inl rfl, ?_, merged ++ [data], merge.concat_left, ?_, ?_⟩
      · simp [SendTask.half, worker_idle]
      · exact forall_mem_append.mpr ⟨small, forall_mem_singleton.mpr fits⟩
      · rw [written_next, written, ← flatMap_frame_concat]
        simp [begun, SendTask.half, worker_idle, BufferedTlsStream.WriteCall.bytes]
  | sendFlush =>
    cases send with
    | idle => cases taken
    | sized _ => cases taken
    | buffered =>
      obtain rfl := some.inj taken
      exact ⟨writable.flushWriteBuffer, .inl rfl, small_half, merged, merge, small,
        (BufferedTlsStream.written_flushWriteBuffer stream).trans written⟩
  | recvMany msgs =>
    cases worker with
    | sending _ => cases taken
    | sized _ _ => cases taken
    | receiving =>
      obtain ⟨_, moved⟩ := ite_none_left_eq_some.mp taken
      obtain rfl := some.inj moved
      exact ⟨writable, .inr rfl, small_half, merged, merge, small, written⟩
  | workerSize =>
    cases worker with
    | receiving => cases taken
    | sized _ _ => cases taken
    | sending msgs =>
      cases msgs with
      | nil => cases taken
      | cons msg msgs =>
        obtain ⟨fits, send_idle⟩ := exclusive
        obtain ⟨next, wrote, writable_next, written_next⟩ := writable.call (.writeU32Buffered msg.length)
        obtain ⟨_, again, rfl⟩ := map_eq_some_iff.mp taken
        obtain rfl := some.inj (again.symm.trans wrote)
        refine ⟨writable_next, .inl send_idle, ?_, merged, merge, small, ?_⟩
        · simpa [BroadcastWorker.half, show send.half = none from send_idle] using fits msg rfl
        · rw [written_next, written]
          simp [begun, BroadcastWorker.half, BufferedTlsStream.WriteCall.bytes]
  | workerBody =>
    cases worker with
    | receiving => cases taken
    | sending _ => cases taken
    | sized msg msgs =>
      have send_idle : send.half = none := one_half.resolve_right (by simp [BroadcastWorker.half])
      obtain ⟨next, wrote, writable_next, written_next⟩ := writable.call (.writeAllBufffered msg)
      obtain ⟨_, again, rfl⟩ := map_eq_some_iff.mp taken
      obtain rfl := some.inj (again.symm.trans wrote)
      have fits : msg.length < 2 ^ 32 := small_half msg (by simp [BroadcastWorker.half])
      refine ⟨writable_next, .inr rfl, ?_, merged ++ [msg], merge.concat_right, ?_, ?_⟩
      · simp [BroadcastWorker.half, send_idle]
      · exact forall_mem_append.mpr ⟨small, forall_mem_singleton.mpr fits⟩
      · rw [written_next, written, ← flatMap_frame_concat]
        simp [begun, BroadcastWorker.half, send_idle, BufferedTlsStream.WriteCall.bytes]
  | workerFlush =>
    cases worker with
    | receiving => cases taken
    | sized _ _ => cases taken
    | sending msgs =>
      cases msgs with
      | cons _ _ => cases taken
      | nil =>
        obtain rfl := some.inj taken
        exact ⟨writable.flushWriteBuffer, .inr rfl, small_half, merged, merge, small,
          (BufferedTlsStream.written_flushWriteBuffer stream).trans written⟩

/-- Every run in which no size is written into the other task's message. -/
theorem intact_of_exclusive {socket : Socket} (reached : Reaches step Exclusive {} socket) : socket.Intact :=
  (reached.invariant framed_new Framed.step).intact

theorem intact_of_exclusive_three : ∃ socket, Reaches step Exclusive {} socket ∧
    (socket.votes = [[1]] ∧ socket.viewChanges = [[2, 2], []]) ∧ socket.Intact :=
  exists_reaches_and
    [.recvMany [[2, 2], []], .workerSize, .workerBody, .sendSize [1], .sendBody, .workerSize, .workerBody,
      .sendFlush, .workerFlush] (by decide +kernel) (by decide +kernel) fun reached _ => intact_of_exclusive reached

end Socket

end PirateShip
