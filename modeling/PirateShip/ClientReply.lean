import PirateShip.Lib.HashMap
import PirateShip.Proto

/-! The client reply stage: it joins the requests of a batch, which the sequencer
registers under the hash of their block, with the results of the application.
Either may come first. A reply that a processor task sends is recorded with the
request it answers; `none` is a failed assertion. -/

set_option autoImplicit false

namespace PirateShip

/-- `chan` tells the reply channels of the requests apart. -/
structure MsgAckChanWithTag where
  chan : Nat
  clientTag : Nat
  sender : SenderType
  deriving DecidableEq, Repr

structure ProtoTransactionReceipt where
  reqDigest : HashType
  blockN : Nat
  txN : Nat
  results : Option ProtoTransactionResult
  awaitByzResponse : Bool
  byzResponses : List ProtoByzResponse
  deriving DecidableEq, Repr

inductive Reply where
  | receipt (receipt : ProtoTransactionReceipt)
  | tryAgain
  | leader (name : String)
  deriving DecidableEq, Repr

structure ProtoClientReply where
  reply : Reply
  clientTag : Nat
  deriving DecidableEq, Repr

structure ClientReplyHandler where
  replyMap : HashMap HashType (List MsgAckChanWithTag) := ∅
  byzReplyMap : HashMap HashType (List (Nat × SenderType)) := ∅
  crashCommitReplyBuf : HashMap HashType (Nat × List ProtoTransactionResult) := ∅
  byzCommitReplyBuf : HashMap HashType (Nat × List ProtoByzResponse) := ∅
  byzResponseStore : HashMap SenderType (List ProtoByzResponse) := ∅
  probeBuffer : HashMap Nat (List MsgAckChanWithTag) := ∅
  ackedBci : Nat := 0
  mustCancel : Bool := false
  sent : List (MsgAckChanWithTag × ProtoClientReply) := []

namespace ClientReplyHandler

def getTryAgainMessage (clientTag : Nat) : ProtoClientReply := ⟨.tryAgain, clientTag⟩

/-- Tell the clients of a batch to try again. -/
def tryAgain (handler : ClientReplyHandler) (replyVec : List MsgAckChanWithTag) : ClientReplyHandler :=
  { handler with sent := handler.sent ++ replyVec.map fun ack => (ack, getTryAgainMessage ack.clientTag) }

/-- One receipt; the responses stored for its sender ride on it. -/
def crashCommit (handler : ClientReplyHandler) (hash : HashType) (n txN : Nat) (ack : MsgAckChanWithTag)
    (result : ProtoTransactionResult) : ClientReplyHandler :=
  { handler with
    byzResponseStore := handler.byzResponseStore.erase ack.sender
    sent := handler.sent ++ [(ack,
      { reply := .receipt
          { reqDigest := hash
            blockN := n
            txN
            results := some result
            awaitByzResponse := true
            byzResponses := (handler.byzResponseStore.lookup ack.sender).getD [] }
        clientTag := ack.clientTag })] }

def doCrashCommitReply (handler : ClientReplyHandler) (replySenderVec : List MsgAckChanWithTag) (hash : HashType)
    (n : Nat) (replyVec : List ProtoTransactionResult) : Option ClientReplyHandler :=
  if replySenderVec.length ≠ replyVec.length then none
  else
    some ((replySenderVec.zip replyVec).zipIdx.foldl
      (fun handler (request, txN) => handler.crashCommit hash n txN request.1 request.2) handler)

def storeByzResponse (handler : ClientReplyHandler) (clientTag : Nat) (sender : SenderType)
    (reply : ProtoByzResponse) : ClientReplyHandler :=
  { handler with
    byzResponseStore := handler.byzResponseStore.insert sender
      ((handler.byzResponseStore.lookup sender).getD [] ++ [{ reply with clientTag }]) }

/-- The reply to a probe, which has no tag of its own. -/
def probeReply (blockN : Nat) : ProtoClientReply where
  reply := .receipt
    { reqDigest := []
      blockN
      txN := 0
      results := none
      awaitByzResponse := false
      byzResponses := [] }
  clientTag := 0

/-- Answer the probes up to `acked_bci`. -/
def maybeClearProbeBuf (handler : ClientReplyHandler) : ClientReplyHandler :=
  let removeVec := handler.probeBuffer.toPairs.filter fun (blockN, _) => decide (blockN ≤ handler.ackedBci)
  { handler with
    probeBuffer := handler.probeBuffer.retain fun blockN _ => decide (handler.ackedBci < blockN)
    sent := handler.sent ++ removeVec.flatMap fun (blockN, replyVec) =>
      replyVec.map fun ack => (ack, probeReply blockN) }

def doByzCommitReply (handler : ClientReplyHandler) (replySenderVec : List (Nat × SenderType)) (n : Nat)
    (replyVec : List ProtoByzResponse) : Option ClientReplyHandler :=
  if replySenderVec.length ≠ replyVec.length then none
  else
    let handler := (replySenderVec.zip replyVec).foldl
      (fun handler (request, reply) => handler.storeByzResponse request.1 request.2 reply) handler
    let handler := if n > handler.ackedBci then { handler with ackedBci := n } else handler
    some handler.maybeClearProbeBuf

/-!
## Registrations
-/

/-- A buffered byzantine commit of the batch. -/
def clearByzReplyBuf (handler : ClientReplyHandler) (batchHash : HashType) : Option ClientReplyHandler :=
  match handler.byzCommitReplyBuf.lookup batchHash with
  | none => some handler
  | some (n, replyVec) =>
    let handler := { handler with byzCommitReplyBuf := handler.byzCommitReplyBuf.erase batchHash }
    match handler.byzReplyMap.lookup batchHash with
    | none => some handler
    | some replySenderVec =>
      doByzCommitReply { handler with byzReplyMap := handler.byzReplyMap.erase batchHash } replySenderVec n replyVec

/-- A buffered crash commit of the batch. -/
def clearCrashReplyBuf (handler : ClientReplyHandler) (batchHash : HashType) : Option ClientReplyHandler :=
  match handler.crashCommitReplyBuf.lookup batchHash with
  | none => some handler
  | some (n, replyVec) =>
    let handler := { handler with crashCommitReplyBuf := handler.crashCommitReplyBuf.erase batchHash }
    match handler.replyMap.lookup batchHash with
    | none => some handler
    | some replySenderVec =>
      doCrashCommitReply { handler with replyMap := handler.replyMap.erase batchHash }
        replySenderVec batchHash n replyVec

/-- Responses are stored before receipts are sent, so that they ride on them. -/
def maybeClearReplyBuf (handler : ClientReplyHandler) (batchHash : HashType) : Option ClientReplyHandler :=
  (handler.clearByzReplyBuf batchHash).bind fun handler => handler.clearCrashReplyBuf batchHash

/-- A batch that was dropped comes with an empty hash. -/
def handleBatch (handler : ClientReplyHandler) (batchHash : HashType) (replyVec : List MsgAckChanWithTag) :
    Option ClientReplyHandler :=
  if batchHash = [] ∨ handler.mustCancel = true then some (handler.tryAgain replyVec)
  else
    maybeClearReplyBuf
      { handler with
        byzReplyMap := handler.byzReplyMap.insert batchHash (replyVec.map fun ack => (ack.clientTag, ack.sender))
        replyMap := handler.replyMap.insert batchHash replyVec }
      batchHash

/-!
## Commands
-/

def crashCommitAck (handler : ClientReplyHandler) (hash : HashType) (n : Nat)
    (replyVec : List ProtoTransactionResult) : Option ClientReplyHandler :=
  match handler.replyMap.lookup hash with
  | some replySenderVec =>
    doCrashCommitReply { handler with replyMap := handler.replyMap.erase hash } replySenderVec hash n replyVec
  | none =>
    some { handler with crashCommitReplyBuf := handler.crashCommitReplyBuf.insert hash (n, replyVec) }

def byzCommitAck (handler : ClientReplyHandler) (hash : HashType) (n : Nat) (replyVec : List ProtoByzResponse) :
    Option ClientReplyHandler :=
  match handler.byzReplyMap.lookup hash with
  | some replySenderVec =>
    doByzCommitReply { handler with byzReplyMap := handler.byzReplyMap.erase hash } replySenderVec n replyVec
  | none => some { handler with byzCommitReplyBuf := handler.byzCommitReplyBuf.insert hash (n, replyVec) }

def cancelAllRequests (handler : ClientReplyHandler) : ClientReplyHandler :=
  { handler.tryAgain handler.replyMap.values.flatten with replyMap := ∅, mustCancel := true }

def stopCancelling (handler : ClientReplyHandler) : ClientReplyHandler := { handler with mustCancel := false }

def handleReplyCommand (handler : ClientReplyHandler) : ClientReplyCommand → Option ClientReplyHandler
  | .cancelAllRequests => some handler.cancelAllRequests
  | .stopCancelling => some handler.stopCancelling
  | .crashCommitAck acks =>
    acks.foldlM (fun handler (hash, n, replyVec) => handler.crashCommitAck hash n replyVec) handler
  | .byzCommitAck acks =>
    acks.foldlM (fun handler (hash, n, replyVec) => handler.byzCommitAck hash n replyVec) handler

/-- `UnloggedRequestAck`, when the application has the result. -/
def unloggedRequestAck (handler : ClientReplyHandler) (result : ProtoTransactionResult) (ack : MsgAckChanWithTag) :
    ClientReplyHandler :=
  { handler with
    sent := handler.sent ++ [(ack,
      { reply := .receipt
          { reqDigest := []
            blockN := 0
            txN := 0
            results := some result
            awaitByzResponse := false
            byzResponses := [] }
        clientTag := ack.clientTag })] }

def probeRequestAck (handler : ClientReplyHandler) (blockN : Nat) (ack : MsgAckChanWithTag) : ClientReplyHandler :=
  maybeClearProbeBuf
    { handler with
      probeBuffer := handler.probeBuffer.insert blockN ((handler.probeBuffer.lookup blockN).getD [] ++ [ack]) }

end ClientReplyHandler

end PirateShip
