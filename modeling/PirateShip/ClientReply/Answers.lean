import PirateShip.ClientReply
import PirateShip.Lib.Rendezvous

/-! What one input at the reply stage does to its maps, and the answers and
byzantine responses that the clients get from it. -/

set_option autoImplicit false

namespace PirateShip

/-!
## Answers and responses
-/

namespace ProtoClientReply

def byzResponses (reply : ProtoClientReply) : List ProtoByzResponse :=
  match reply.reply with
  | .receipt receipt => receipt.byzResponses
  | _ => []

def answer (reply : ProtoClientReply) : ProtoClientReply :=
  match reply.reply with
  | .receipt receipt => { reply with reply := .receipt { receipt with byzResponses := [] } }
  | _ => reply

end ProtoClientReply

namespace ClientReplyHandler

variable {more : List (MsgAckChanWithTag × ProtoClientReply)} {others : SenderType → List ProtoByzResponse}
  {replyVec : List MsgAckChanWithTag} {results : List ProtoTransactionResult} {senders : List (Nat × SenderType)}
  {hash : HashType}

def receiptOf (hash : HashType) (n txN : Nat) (ack : MsgAckChanWithTag) (result : ProtoTransactionResult) :
    ProtoClientReply where
  reply := .receipt
    { reqDigest := hash
      blockN := n
      txN
      results := some result
      awaitByzResponse := true
      byzResponses := [] }
  clientTag := ack.clientTag

def answers (handler : ClientReplyHandler) : List (MsgAckChanWithTag × ProtoClientReply) :=
  handler.sent.map fun entry => (entry.1, entry.2.answer)

def picked (answers : List (MsgAckChanWithTag × ProtoClientReply)) (chan : Nat) : List ProtoClientReply :=
  (answers.filter fun entry => decide (entry.1.chan = chan)).map (·.2)

def answersTo (handler : ClientReplyHandler) (chan : Nat) : List ProtoClientReply := picked handler.answers chan

/-- The responses for a client, those sent first and then those queued. -/
def byzFor (handler : ClientReplyHandler) (sender : SenderType) : List ProtoByzResponse :=
  (handler.sent.flatMap fun entry => if entry.1.sender = sender then entry.2.byzResponses else []) ++
    (handler.byzResponseStore.lookup sender).getD []

def receipts (hash : HashType) (n : Nat) (replyVec : List MsgAckChanWithTag) (results : List ProtoTransactionResult) :
    List (MsgAckChanWithTag × ProtoClientReply) :=
  (replyVec.zip results).zipIdx.map fun (request, txN) => (request.1, receiptOf hash n txN request.1 request.2)

/-- The responses of a batch for one client, with the tags of its requests. -/
def responsesFor (sender : SenderType) (senders : List (Nat × SenderType)) (responses : List ProtoByzResponse) :
    List ProtoByzResponse :=
  (senders.zip responses).filterMap fun (request, response) =>
    if request.2 = sender then some { response with clientTag := request.1 } else none

theorem answers_tryAgain (handler : ClientReplyHandler) (replyVec : List MsgAckChanWithTag) :
    (handler.tryAgain replyVec).answers =
      handler.answers ++ replyVec.map fun ack => (ack, getTryAgainMessage ack.clientTag) := by
  simp [answers, tryAgain, ProtoClientReply.answer, getTryAgainMessage]

theorem byzFor_tryAgain (handler : ClientReplyHandler) (replyVec : List MsgAckChanWithTag) (sender : SenderType) :
    (handler.tryAgain replyVec).byzFor sender = handler.byzFor sender := by
  simp [byzFor, tryAgain, ProtoClientReply.byzResponses, getTryAgainMessage]

structure Replies (handler after : ClientReplyHandler) (answers : List (MsgAckChanWithTag × ProtoClientReply))
    (responses : SenderType → List ProtoByzResponse) : Prop where
  replyMap : after.replyMap = handler.replyMap
  byzReplyMap : after.byzReplyMap = handler.byzReplyMap
  crashCommitReplyBuf : after.crashCommitReplyBuf = handler.crashCommitReplyBuf
  byzCommitReplyBuf : after.byzCommitReplyBuf = handler.byzCommitReplyBuf
  probeBuffer : after.probeBuffer = handler.probeBuffer
  mustCancel : after.mustCancel = handler.mustCancel
  answers : after.answers = handler.answers ++ answers
  byzFor : ∀ sender, after.byzFor sender = handler.byzFor sender ++ responses sender

variable {handler middle after : ClientReplyHandler}

theorem Replies.refl (handler) : Replies handler handler [] fun _ => [] := by
  constructor <;> simp

theorem Replies.trans {answers responses} (first : Replies handler middle answers responses)
    (second : Replies middle after more others) :
    Replies handler after (answers ++ more) fun sender => responses sender ++ others sender where
  replyMap := second.replyMap.trans first.replyMap
  byzReplyMap := second.byzReplyMap.trans first.byzReplyMap
  crashCommitReplyBuf := second.crashCommitReplyBuf.trans first.crashCommitReplyBuf
  byzCommitReplyBuf := second.byzCommitReplyBuf.trans first.byzCommitReplyBuf
  probeBuffer := second.probeBuffer.trans first.probeBuffer
  mustCancel := second.mustCancel.trans first.mustCancel
  answers := by rw [second.answers, first.answers, List.append_assoc]
  byzFor sender := by rw [second.byzFor, first.byzFor, List.append_assoc]

theorem replies_crashCommit (handler hash n txN ack result) :
    Replies handler (handler.crashCommit hash n txN ack result)
      [(ack, receiptOf hash n txN ack result)] fun _ => [] where
  replyMap := rfl
  byzReplyMap := rfl
  crashCommitReplyBuf := rfl
  byzCommitReplyBuf := rfl
  probeBuffer := rfl
  mustCancel := rfl
  answers := by simp [answers, crashCommit, ProtoClientReply.answer, receiptOf]
  byzFor sender := by
    by_cases same : sender = ack.sender
    · subst same
      simp [byzFor, crashCommit, ProtoClientReply.byzResponses]
    · simp [byzFor, crashCommit, same, Ne.symm same]

theorem replies_foldl_crashCommit (handler hash n)
    (requests : List ((MsgAckChanWithTag × ProtoTransactionResult) × Nat)) :
    Replies handler
      (requests.foldl (fun handler (request, txN) => handler.crashCommit hash n txN request.1 request.2) handler)
      (requests.map fun (request, txN) => (request.1, receiptOf hash n txN request.1 request.2)) fun _ => [] := by
  induction requests generalizing handler with
  | nil => exact .refl handler
  | cons request requests ih =>
    simpa using (replies_crashCommit handler hash n request.2 request.1.1 request.1.2).trans (ih _)

theorem replies_storeByzResponse (handler clientTag owner reply) :
    Replies handler (handler.storeByzResponse clientTag owner reply) [] fun sender =>
      if owner = sender then [{ reply with clientTag }] else [] where
  replyMap := rfl
  byzReplyMap := rfl
  crashCommitReplyBuf := rfl
  byzCommitReplyBuf := rfl
  probeBuffer := rfl
  mustCancel := rfl
  answers := by simp [answers, storeByzResponse]
  byzFor sender := by
    by_cases same : owner = sender
    · subst same
      simp [byzFor, storeByzResponse]
    · simp [byzFor, storeByzResponse, same, Ne.symm same]

theorem replies_foldl_storeByzResponse (handler) (requests : List ((Nat × SenderType) × ProtoByzResponse)) :
    Replies handler
      (requests.foldl (fun handler (request, reply) => handler.storeByzResponse request.1 request.2 reply) handler)
      [] fun sender => requests.filterMap fun (request, response) =>
        if request.2 = sender then some { response with clientTag := request.1 } else none := by
  induction requests generalizing handler with
  | nil => exact .refl handler
  | cons request requests ih =>
    have both := (replies_storeByzResponse handler request.1.1 request.1.2 request.2).trans (ih _)
    refine ⟨both.replyMap, both.byzReplyMap, both.crashCommitReplyBuf, both.byzCommitReplyBuf, both.probeBuffer,
      both.mustCancel, both.answers, fun sender => ?_⟩
    rw [List.foldl_cons, both.byzFor]
    by_cases same : request.1.2 = sender <;> simp [same]

theorem replies_maybeClearProbeBuf (noProbes : handler.probeBuffer = ∅) :
    Replies handler handler.maybeClearProbeBuf [] fun _ => [] where
  replyMap := rfl
  byzReplyMap := rfl
  crashCommitReplyBuf := rfl
  byzCommitReplyBuf := rfl
  probeBuffer := by
    rw [maybeClearProbeBuf, noProbes]
    rfl
  mustCancel := rfl
  answers := by simp [answers, maybeClearProbeBuf, noProbes, AList.toPairs]
  byzFor sender := by simp [byzFor, maybeClearProbeBuf, noProbes, AList.toPairs]

theorem doCrashCommitReply_spec (handler hash n) (fits : replyVec.length = results.length) :
    ∃ after, handler.doCrashCommitReply replyVec hash n results = some after ∧
      Replies handler after (receipts hash n replyVec results) fun _ => [] :=
  ⟨_, if_neg (not_not.mpr fits), replies_foldl_crashCommit handler hash n _⟩

theorem doByzCommitReply_spec (handler n) (noProbes : handler.probeBuffer = ∅) {responses}
    (fits : senders.length = responses.length) :
    ∃ after, handler.doByzCommitReply senders n responses = some after ∧
      Replies handler after [] fun sender => responsesFor sender senders responses := by
  have stored : Replies handler _ [] fun sender => responsesFor sender senders responses :=
    replies_foldl_storeByzResponse handler (senders.zip responses)
  refine ⟨_, if_neg (not_not.mpr fits), ?_⟩
  split
  · have raised : Replies handler { (senders.zip responses).foldl (fun handler (request, reply) =>
        handler.storeByzResponse request.1 request.2 reply) handler with ackedBci := n } [] fun sender =>
        responsesFor sender senders responses :=
      ⟨stored.replyMap, stored.byzReplyMap, stored.crashCommitReplyBuf, stored.byzCommitReplyBuf, stored.probeBuffer,
        stored.mustCancel, stored.answers, stored.byzFor⟩
    simpa using raised.trans (replies_maybeClearProbeBuf (raised.probeBuffer.trans noProbes))
  · simpa using stored.trans (replies_maybeClearProbeBuf (stored.probeBuffer.trans noProbes))

/-!
## One input at a time
-/

def crashMaps (handler : ClientReplyHandler) :
    Rendezvous.Maps HashType (List MsgAckChanWithTag) (Nat × List ProtoTransactionResult) :=
  ⟨handler.replyMap, handler.crashCommitReplyBuf⟩

def byzMaps (handler : ClientReplyHandler) :
    Rendezvous.Maps HashType (List (Nat × SenderType)) (Nat × List ProtoByzResponse) :=
  ⟨handler.byzReplyMap, handler.byzCommitReplyBuf⟩

/-- An input, with the acknowledgements of a map one by one. -/
inductive Signal where
  | batch (hash : HashType) (replyVec : List MsgAckChanWithTag)
  | crashCommitAck (hash : HashType) (n : Nat) (replyVec : List ProtoTransactionResult)
  | byzCommitAck (hash : HashType) (n : Nat) (replyVec : List ProtoByzResponse)
  | cancelAllRequests
  | stopCancelling

def signal (handler : ClientReplyHandler) : Signal → Option ClientReplyHandler
  | .batch hash replyVec => handler.handleBatch hash replyVec
  | .crashCommitAck hash n replyVec => handler.crashCommitAck hash n replyVec
  | .byzCommitAck hash n replyVec => handler.byzCommitAck hash n replyVec
  | .cancelAllRequests => some handler.cancelAllRequests
  | .stopCancelling => some handler.stopCancelling

structure Takes (handler after : ClientReplyHandler)
    (crashMaps : Rendezvous.Maps HashType (List MsgAckChanWithTag) (Nat × List ProtoTransactionResult))
    (byzMaps : Rendezvous.Maps HashType (List (Nat × SenderType)) (Nat × List ProtoByzResponse))
    (answers : List (MsgAckChanWithTag × ProtoClientReply)) (responses : SenderType → List ProtoByzResponse) :
    Prop where
  crashMaps : after.crashMaps = crashMaps
  byzMaps : after.byzMaps = byzMaps
  probeBuffer : after.probeBuffer = handler.probeBuffer
  mustCancel : after.mustCancel = handler.mustCancel
  answers : after.answers = handler.answers ++ answers
  byzFor : ∀ sender, after.byzFor sender = handler.byzFor sender ++ responses sender

def earlyReceipts (handler : ClientReplyHandler) (hash : HashType) (replyVec : List MsgAckChanWithTag) :
    List (MsgAckChanWithTag × ProtoClientReply) :=
  match handler.crashCommitReplyBuf.lookup hash with
  | none => []
  | some (n, results) => receipts hash n replyVec results

def earlyResponses (handler : ClientReplyHandler) (hash : HashType) (senders : List (Nat × SenderType))
    (sender : SenderType) : List ProtoByzResponse :=
  match handler.byzCommitReplyBuf.lookup hash with
  | none => []
  | some (_, responses) => responsesFor sender senders responses

def lateReceipts (handler : ClientReplyHandler) (hash : HashType) (n : Nat) (results : List ProtoTransactionResult) :
    List (MsgAckChanWithTag × ProtoClientReply) :=
  match handler.replyMap.lookup hash with
  | none => []
  | some replyVec => receipts hash n replyVec results

def lateResponses (handler : ClientReplyHandler) (hash : HashType) (responses : List ProtoByzResponse)
    (sender : SenderType) : List ProtoByzResponse :=
  match handler.byzReplyMap.lookup hash with
  | none => []
  | some senders => responsesFor sender senders responses

def byzSenders (replyVec : List MsgAckChanWithTag) : List (Nat × SenderType) :=
  replyVec.map fun ack => (ack.clientTag, ack.sender)

theorem Takes.trans {crashMaps crashMaps' byzMaps byzMaps' answers responses}
    (first : Takes handler middle crashMaps byzMaps answers responses)
    (second : Takes middle after crashMaps' byzMaps' more others) :
    Takes handler after crashMaps' byzMaps' (answers ++ more) fun sender => responses sender ++ others sender where
  crashMaps := second.crashMaps
  byzMaps := second.byzMaps
  probeBuffer := second.probeBuffer.trans first.probeBuffer
  mustCancel := second.mustCancel.trans first.mustCancel
  answers := by rw [second.answers, first.answers, List.append_assoc]
  byzFor sender := by rw [second.byzFor, first.byzFor, List.append_assoc]

theorem Replies.takes (handler) {answers responses} (replies : Replies middle after answers responses)
    (probeBuffer : middle.probeBuffer = handler.probeBuffer)
    (mustCancel : middle.mustCancel = handler.mustCancel) (sent : middle.sent = handler.sent)
    (stored : middle.byzResponseStore = handler.byzResponseStore) :
    Takes handler after middle.crashMaps middle.byzMaps answers responses where
  crashMaps := by
    rw [ClientReplyHandler.crashMaps, replies.replyMap, replies.crashCommitReplyBuf, ClientReplyHandler.crashMaps]
  byzMaps := by
    rw [ClientReplyHandler.byzMaps, replies.byzReplyMap, replies.byzCommitReplyBuf, ClientReplyHandler.byzMaps]
  probeBuffer := replies.probeBuffer.trans probeBuffer
  mustCancel := replies.mustCancel.trans mustCancel
  answers := by rw [replies.answers, ClientReplyHandler.answers, sent, ClientReplyHandler.answers]
  byzFor sender := by rw [replies.byzFor, ClientReplyHandler.byzFor, sent, stored, ClientReplyHandler.byzFor]

theorem clearByzReplyBuf_spec
    (registered : handler.byzReplyMap.lookup hash = some senders) (noProbes : handler.probeBuffer = ∅)
    (fits : ∀ ack, handler.byzCommitReplyBuf.lookup hash = some ack → senders.length = ack.2.length) :
    ∃ after, handler.clearByzReplyBuf hash = some after ∧
      Takes handler after handler.crashMaps (handler.byzMaps.meet hash) [] (handler.earlyResponses hash senders) := by
  cases early : handler.byzCommitReplyBuf.lookup hash with
  | none =>
    refine ⟨handler, by simp [clearByzReplyBuf, early], rfl, ?_, rfl, rfl, by simp, fun sender => ?_⟩
    · simp [Rendezvous.Maps.meet, byzMaps, early]
    · simp [earlyResponses, early]
  | some ack =>
    obtain ⟨n, _⟩ := ack
    obtain ⟨after, replied, replies⟩ := doByzCommitReply_spec { handler with
        byzCommitReplyBuf := handler.byzCommitReplyBuf.erase hash
        byzReplyMap := handler.byzReplyMap.erase hash }
      n noProbes (fits _ early)
    have takes := replies.takes handler rfl rfl rfl rfl
    refine ⟨after, by simp [clearByzReplyBuf, early, registered, replied], takes.crashMaps, ?_, takes.probeBuffer,
      takes.mustCancel, takes.answers, fun sender => ?_⟩
    · rw [takes.byzMaps]
      simp [Rendezvous.Maps.meet, byzMaps, early]
    · rw [takes.byzFor]
      simp [earlyResponses, early]

theorem clearCrashReplyBuf_spec (registered : handler.replyMap.lookup hash = some replyVec)
    (fits : ∀ ack, handler.crashCommitReplyBuf.lookup hash = some ack → replyVec.length = ack.2.length) :
    ∃ after, handler.clearCrashReplyBuf hash = some after ∧
      Takes handler after (handler.crashMaps.meet hash) handler.byzMaps (handler.earlyReceipts hash replyVec)
        fun _ => [] := by
  cases early : handler.crashCommitReplyBuf.lookup hash with
  | none =>
    refine ⟨handler, by simp [clearCrashReplyBuf, early], ?_, rfl, rfl, rfl, ?_, by simp⟩
    · simp [Rendezvous.Maps.meet, crashMaps, early]
    · simp [earlyReceipts, early]
  | some ack =>
    obtain ⟨n, _⟩ := ack
    obtain ⟨after, replied, replies⟩ := doCrashCommitReply_spec { handler with
        crashCommitReplyBuf := handler.crashCommitReplyBuf.erase hash
        replyMap := handler.replyMap.erase hash }
      hash n (fits _ early)
    have takes := replies.takes handler rfl rfl rfl rfl
    refine ⟨after, by simp [clearCrashReplyBuf, early, registered, replied], ?_, takes.byzMaps, takes.probeBuffer,
      takes.mustCancel, ?_, takes.byzFor⟩
    · rw [takes.crashMaps]
      simp [Rendezvous.Maps.meet, crashMaps, early]
    · rw [takes.answers]
      simp [earlyReceipts, early]

theorem handleBatch_spec (nonempty : hash ≠ [])
    (listening : handler.mustCancel = false) (noProbes : handler.probeBuffer = ∅)
    (crash_fits : ∀ ack, handler.crashCommitReplyBuf.lookup hash = some ack → replyVec.length = ack.2.length)
    (byz_fits : ∀ ack, handler.byzCommitReplyBuf.lookup hash = some ack → replyVec.length = ack.2.length) :
    ∃ after, handler.handleBatch hash replyVec = some after ∧
      Takes handler after (handler.crashMaps.register hash replyVec)
        (handler.byzMaps.register hash (byzSenders replyVec)) (handler.earlyReceipts hash replyVec)
        (handler.earlyResponses hash (byzSenders replyVec)) := by
  obtain ⟨opened, isOpened⟩ : ∃ opened : ClientReplyHandler, opened = { handler with
      byzReplyMap := handler.byzReplyMap.insert hash (byzSenders replyVec)
      replyMap := handler.replyMap.insert hash replyVec } := ⟨_, rfl⟩
  have byz_registered : opened.byzReplyMap.lookup hash = some (byzSenders replyVec) := by simp [isOpened]
  obtain ⟨middle, cleared, first⟩ := clearByzReplyBuf_spec byz_registered (by simpa [isOpened] using noProbes)
    (by simpa [isOpened, byzSenders] using byz_fits)
  have replyMap : middle.replyMap = opened.replyMap := congrArg Rendezvous.Maps.waiting first.crashMaps
  have crashBuf : middle.crashCommitReplyBuf = opened.crashCommitReplyBuf :=
    congrArg Rendezvous.Maps.early first.crashMaps
  have registered : middle.replyMap.lookup hash = some replyVec := by simp [replyMap, isOpened]
  obtain ⟨after, replied, second⟩ :=
    clearCrashReplyBuf_spec registered (by simpa [crashBuf, isOpened] using crash_fits)
  have takes := first.trans second
  refine ⟨after, ?_, ?_, ?_, ?_, ?_, ?_, fun sender => ?_⟩
  · have opens : handler.handleBatch hash replyVec = opened.maybeClearReplyBuf hash := by
      rw [isOpened]
      exact if_neg (by simp [nonempty, listening])
    rw [opens, maybeClearReplyBuf, cleared, Option.bind_some, replied]
  · rw [takes.crashMaps, first.crashMaps, isOpened]
    rfl
  · rw [takes.byzMaps, first.byzMaps, isOpened]
    rfl
  · rw [takes.probeBuffer, isOpened]
  · rw [takes.mustCancel, isOpened]
  · rw [takes.answers, earlyReceipts, crashBuf, isOpened]
    rfl
  · rw [takes.byzFor, isOpened]
    simp [earlyResponses, ClientReplyHandler.byzFor]

theorem crashCommitAck_spec {n}
    (fits : ∀ replyVec, handler.replyMap.lookup hash = some replyVec → replyVec.length = results.length) :
    ∃ after, handler.crashCommitAck hash n results = some after ∧
      Takes handler after (handler.crashMaps.acknowledge hash (n, results)) handler.byzMaps
        (handler.lateReceipts hash n results) fun _ => [] := by
  unfold lateReceipts
  cases waiting : handler.replyMap.lookup hash with
  | none =>
    have buffered : handler.crashCommitAck hash n results = some { handler with
        crashCommitReplyBuf := handler.crashCommitReplyBuf.insert hash (n, results) } := by
      simp [crashCommitAck, waiting]
    refine ⟨_, buffered, ?_, rfl, rfl, rfl, ?_, ?_⟩
    · simp [Rendezvous.Maps.acknowledge, crashMaps, waiting]
    · simp [answers]
    · simp [byzFor]
  | some replyVec =>
    obtain ⟨after, replied, replies⟩ := doCrashCommitReply_spec
      { handler with replyMap := handler.replyMap.erase hash } hash n (fits _ waiting)
    have takes := replies.takes handler rfl rfl rfl rfl
    refine ⟨after, by simp only [crashCommitAck, waiting, replied], ?_, takes.byzMaps, takes.probeBuffer,
      takes.mustCancel, takes.answers, takes.byzFor⟩
    rw [takes.crashMaps]
    simp [Rendezvous.Maps.acknowledge, crashMaps, waiting]

theorem byzCommitAck_spec {n responses} (noProbes : handler.probeBuffer = ∅)
    (fits : ∀ senders, handler.byzReplyMap.lookup hash = some senders → senders.length = responses.length) :
    ∃ after, handler.byzCommitAck hash n responses = some after ∧
      Takes handler after handler.crashMaps (handler.byzMaps.acknowledge hash (n, responses)) []
        (handler.lateResponses hash responses) := by
  unfold lateResponses
  cases waiting : handler.byzReplyMap.lookup hash with
  | none =>
    have buffered : handler.byzCommitAck hash n responses = some { handler with
        byzCommitReplyBuf := handler.byzCommitReplyBuf.insert hash (n, responses) } := by
      simp [byzCommitAck, waiting]
    refine ⟨_, buffered, rfl, ?_, rfl, rfl, ?_, ?_⟩
    · simp [Rendezvous.Maps.acknowledge, byzMaps, waiting]
    · simp [answers]
    · simp [byzFor]
  | some senders =>
    obtain ⟨after, replied, replies⟩ := doByzCommitReply_spec
      { handler with byzReplyMap := handler.byzReplyMap.erase hash } n noProbes (fits _ waiting)
    have takes := replies.takes handler rfl rfl rfl rfl
    refine ⟨after, by simp only [byzCommitAck, waiting, replied], takes.crashMaps, ?_, takes.probeBuffer,
      takes.mustCancel, takes.answers, takes.byzFor⟩
    rw [takes.byzMaps]
    simp [Rendezvous.Maps.acknowledge, byzMaps, waiting]

end ClientReplyHandler

end PirateShip
