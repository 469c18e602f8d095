import PirateShip.App.Engine
import PirateShip.BatchProposal
import PirateShip.BlockSequencer
import PirateShip.ClientReply.Assertions
import PirateShip.Lib.Queue
import PirateShip.Lib.Run

/-! The path of a request through one node: batch proposer, sequencer, application
and reply stage. Which blocks are committed, and when, is up to the rest of the node.
The channels of a batch are registered under the hash of its block, and the stages
never compare the numbers of transactions, channels and results until the reply stage
asserts that they are equal. -/

set_option autoImplicit false

namespace PirateShip

open StepSystem

/-- How many items of each channel were taken. -/
structure RequestPath.Taken where
  batches : Nat := 0
  unlogged : Nat := 0
  registrations : Nat := 0
  acks : Nat := 0
  unloggedAcks : Nat := 0

/-- `requests` and `committed` only record what came: the requests of the clients, and
the blocks that the application was told to commit. -/
structure RequestPath (Engine : Type) where
  proposer : BatchProposer
  sequencer : BlockSequencer
  clientReplyTx : List (HashType × List MsgAckChanWithTag) := []
  app : Application Engine
  handler : ClientReplyHandler := {}
  unloggedWaiting : List (Nat × MsgAckChanWithTag) := []
  taken : RequestPath.Taken := {}
  requests : List (ProtoTransaction × MsgAckChanWithTag) := []
  committed : List CachedBlock := []

namespace RequestPath

variable {Engine : Type} [AppEngine Engine]

def new (config : Config) : RequestPath Engine where
  proposer := .new config
  sequencer := .new config
  app := .new config.features

/-- The transaction and the channel that come with a request. -/
def request : BatchProposer.Input → List (ProtoTransaction × MsgAckChanWithTag)
  | .newTx (some tx, ack) _ => [(tx, ack)]
  | _ => []

def committedBlocks : AppCommand → List CachedBlock
  | .crashCommit blocks | .byzCommit blocks => blocks
  | _ => []

variable (crypto : CryptoService)

/-- A batch goes into a block and is registered under its hash, or it is registered
without one. -/
def handleBatch (path : RequestPath Engine) (batch : RawBatch) (replies : List MsgAckChanWithTag) :
    Option (RequestPath Engine) :=
  (path.sequencer.handleBatch crypto batch).map fun sequencer =>
    let hash :=
      if path.sequencer.viewIsStable && path.sequencer.iAmLeader crypto.config then sequencer.parentHash else []
    { path with sequencer, clientReplyTx := path.clientReplyTx ++ [(hash, replies)] }

/-- The NewView block of a leader has no transactions, and no channels are registered. -/
def handleControlCommand (path : RequestPath Engine) (cmd : BlockSequencerControlCommand) :
    Option (RequestPath Engine) :=
  (path.sequencer.handleControlCommand crypto cmd).map fun sequencer =>
    match cmd with
    | .newViewMessage view .. =>
      if crypto.config.getLeaderForView view == crypto.config.netConfig.name then
        { path with sequencer, clientReplyTx := path.clientReplyTx ++ [(sequencer.parentHash, [])] }
      else { path with sequencer }
    | _ => { path with sequencer }

/-- The request waits for its result in a task of its own. -/
def handleUnloggedAck (path : RequestPath Engine) : UnloggedAck → RequestPath Engine
  | .unloggedRequestAck request ack => { path with unloggedWaiting := path.unloggedWaiting ++ [(request, ack)] }
  | .probeRequestAck blockN ack => { path with handler := path.handler.probeRequestAck blockN ack }

inductive Event where
  | input (input : BatchProposer.Input)
  | takeBatch
  | takeQc (qc : ProtoQuorumCertificate)
  | signatureTick
  | controlCommand (cmd : BlockSequencerControlCommand)
  | stagingCommand (cmd : AppCommand)
  | takeUnlogged
  | takeRegistration
  | takeAck
  | replyCommand (cancel : Bool)
  | takeUnloggedAck
  | finishUnlogged (waiting : Nat)

def step (path : RequestPath Engine) : Event → Option (RequestPath Engine)
  | .input input =>
    (path.proposer.worker crypto.config input).map fun proposer =>
      { path with proposer, requests := path.requests ++ request input }
  | .takeBatch =>
    match path.proposer.blockMakerTx[path.taken.batches]? with
    | none => none
    | some (batch, replies) =>
      handleBatch crypto { path with taken := { path.taken with batches := path.taken.batches + 1 } } batch replies
  | .takeQc qc => some { path with sequencer := path.sequencer.addQc qc }
  | .signatureTick => some { path with sequencer := path.sequencer.signatureTick }
  | .controlCommand cmd => path.handleControlCommand crypto cmd
  | .stagingCommand cmd =>
    (path.app.handleStagingCommand cmd).map fun app =>
      { path with app, committed := path.committed ++ committedBlocks cmd }
  | .takeUnlogged =>
    match path.proposer.unloggedTx[path.taken.unlogged]? with
    | none => none
    | some tx =>
      some { path with
        app := path.app.handleUnloggedRequest tx
        taken := { path.taken with unlogged := path.taken.unlogged + 1 } }
  | .takeRegistration =>
    match path.clientReplyTx[path.taken.registrations]? with
    | none => none
    | some (hash, replyVec) =>
      (path.handler.handleBatch hash replyVec).map fun handler =>
        { path with handler, taken := { path.taken with registrations := path.taken.registrations + 1 } }
  | .takeAck =>
    match path.app.clientReplyTx[path.taken.acks]? with
    | none => none
    | some command =>
      (path.handler.handleReplyCommand command).map fun handler =>
        { path with handler, taken := { path.taken with acks := path.taken.acks + 1 } }
  | .replyCommand cancel =>
    (path.handler.handleReplyCommand (if cancel then .cancelAllRequests else .stopCancelling)).map fun handler =>
      { path with handler }
  | .takeUnloggedAck =>
    match path.proposer.replyTx[path.taken.unloggedAcks]? with
    | none => none
    | some ack =>
      some (handleUnloggedAck
        { path with taken := { path.taken with unloggedAcks := path.taken.unloggedAcks + 1 } } ack)
  | .finishUnlogged waiting =>
    match path.unloggedWaiting[waiting]? with
    | none => none
    | some (request, ack) =>
      path.app.unloggedResults[request]?.map fun result =>
        { path with
          handler := path.handler.unloggedRequestAck result ack
          unloggedWaiting := path.unloggedWaiting.eraseIdx waiting }

end RequestPath

end PirateShip
