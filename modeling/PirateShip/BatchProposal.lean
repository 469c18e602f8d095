import PirateShip.ClientReply
import PirateShip.Config
import PirateShip.Utils.Serialize

/-! The batch proposer: it collects the transactions of the clients, with the
channels on which they wait, and hands both to the sequencer. Requests that need no
consensus go to the application. `none` is a panic. -/

set_option autoImplicit false

namespace PirateShip

abbrev RawBatch := List ProtoTransaction

abbrev TxWithAckChanTag := Option ProtoTransaction × MsgAckChanWithTag

/-- The commands of the batch proposer for the reply stage. The result of an unlogged
request comes from the application, and `request` is the place of the request in its
queue. -/
inductive UnloggedAck where
  | unloggedRequestAck (request : Nat) (ack : MsgAckChanWithTag)
  | probeRequestAck (blockN : Nat) (ack : MsgAckChanWithTag)
  deriving DecidableEq, Repr

structure BatchProposer where
  currentRawBatch : RawBatch := []
  currentReplyVec : List MsgAckChanWithTag := []
  makeNewBatches : Bool := false
  currentLeader : String := ""
  blockMakerTx : List (RawBatch × List MsgAckChanWithTag) := []
  unloggedTx : List ProtoTransaction := []
  replyTx : List UnloggedAck := []
  leaderReplies : List (MsgAckChanWithTag × ProtoClientReply) := []

namespace BatchProposer

/-- `BatchProposer::new`. Without view changes the leader of view 1 is known. -/
def new (config : Config) : BatchProposer :=
  if config.features.viewChange then {}
  else
    let leader := config.getLeaderForView 1
    { makeNewBatches := leader == config.netConfig.name, currentLeader := leader }

def iAmLeader (config : Config) (proposer : BatchProposer) : Bool :=
  config.netConfig.name == proposer.currentLeader

/-- The block number of a `Probe`. -/
def isProbeTx (tx : ProtoTransaction) : Option Nat :=
  match tx.onReceive with
  | some ⟨[op]⟩ =>
    if op.opType ≠ 10 then none
    else
      match op.operands with
      | [blockN] => if blockN.length = 8 then some (fromBeBytes blockN) else none
      | _ => none
  | _ => none

/-- Requests with an `on_receive` phase are not logged, whatever else they carry. The
source unwraps the transaction. -/
def filterUnloggedRequest (proposer : BatchProposer) (request : TxWithAckChanTag) :
    Option (BatchProposer × Option TxWithAckChanTag) :=
  match request with
  | (none, _) => none
  | (some tx, ack) =>
    if tx.onReceive.isSome then
      match isProbeTx tx with
      | none =>
        some ({ proposer with
          unloggedTx := proposer.unloggedTx ++ [tx]
          replyTx := proposer.replyTx ++ [.unloggedRequestAck proposer.unloggedTx.length ack] }, none)
      | some blockN => some ({ proposer with replyTx := proposer.replyTx ++ [.probeRequestAck blockN ack] }, none)
    else some (proposer, some (some tx, ack))

def replyLeader (proposer : BatchProposer) (ack : MsgAckChanWithTag) : BatchProposer :=
  { proposer with
    leaderReplies := proposer.leaderReplies ++ [(ack, ⟨.leader proposer.currentLeader, ack.clientTag⟩)] }

def proposeNewBatch (proposer : BatchProposer) : BatchProposer :=
  { proposer with
    currentRawBatch := []
    currentReplyVec := []
    blockMakerTx := proposer.blockMakerTx ++ [(proposer.currentRawBatch, proposer.currentReplyVec)] }

/-- A batch is closed by its size or by the timer. -/
def maybePropose (config : Config) (proposer : BatchProposer) (batchTimerTick : Bool) : BatchProposer :=
  if decide (config.consensusConfig.maxBacklogBatchSize ≤ proposer.currentRawBatch.length) ||
      (proposer.makeNewBatches && batchTimerTick) then
    proposer.proposeNewBatch
  else proposer

/-- A transaction that passed the filter. -/
def addTx (config : Config) (proposer : BatchProposer) (request : TxWithAckChanTag) (batchTimerTick : Bool) :
    BatchProposer :=
  if !proposer.iAmLeader config then proposer.replyLeader request.2
  else
    match request with
    -- A malformed transaction, which is not answered.
    | (none, _) => proposer
    | (some tx, ack) =>
      maybePropose config
        { proposer with
          currentRawBatch := proposer.currentRawBatch ++ [tx]
          currentReplyVec := proposer.currentReplyVec ++ [ack] }
        batchTimerTick

/-- What the worker receives. With a request comes whether the last batch was
proposed so long ago that the timer counts as expired. -/
inductive Input where
  | newTx (request : TxWithAckChanTag) (elapsed : Bool)
  | cmd (cmd : BatchProposerCommand)
  | tick

def worker (config : Config) (proposer : BatchProposer) : Input → Option BatchProposer
  | .cmd (makeNewBatches, currentLeader) => some { proposer with makeNewBatches, currentLeader }
  | .tick => some (proposer.maybePropose config true)
  | .newTx request elapsed =>
    match proposer.filterUnloggedRequest request with
    | none => none
    | some (proposer, none) => some (proposer.maybePropose config elapsed)
    | some (proposer, some request) => some (proposer.addTx config request elapsed)

end BatchProposer

end PirateShip
