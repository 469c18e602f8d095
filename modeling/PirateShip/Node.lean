import Mathlib.Logic.Function.Basic
import PirateShip.BlockSequencer
import PirateShip.ForkReceiver
import PirateShip.Staging.SteadyState

/-! The stages of one node that blocks pass through. A channel is the list of
everything sent through it, and its receiver knows how many items it has taken,
so that every channel is first in, first out. A node that stops takes no more
steps. -/

set_option autoImplicit false

namespace PirateShip

inductive Channel where
  | stagingBlocks
  | sequencerControl | sequencerQcs
  | broadcasterMine | broadcasterOther | broadcasterControl
  | receiverStaging | receiverBroadcaster
  | logServerStaging
  deriving DecidableEq, Repr

structure Node where
  staging : Staging
  sequencer : BlockSequencer
  broadcaster : BlockBroadcaster := {}
  forkReceiver : ForkReceiver
  logServer : LogServer := {}
  taken : Channel → Nat := fun _ => 0

namespace Node

def new (config : Config) : Node where
  staging := .new config
  sequencer := .new config
  forkReceiver := .new config

def receive {α : Type} (node : Node) (channel : Channel) (sent : List α) (handle : Node → α → Option Node) :
    Option Node :=
  match sent[node.taken channel]? with
  | none => none
  | some item =>
    handle { node with taken := Function.update node.taken channel (node.taken channel + 1) } item

theorem receive_eq_some_iff {α : Type} {node after : Node} {channel : Channel} {sent : List α}
    {handle : Node → α → Option Node} : node.receive channel sent handle = some after ↔
      ∃ item, sent[node.taken channel]? = some item ∧ handle { node with
        taken := Function.update node.taken channel (node.taken channel + 1) } item = some after := by
  unfold receive
  split
  · next none => simp [none]
  · next item found => simp [found]

variable (crypto : CryptoService)

/-- Storage returns bytes, which are checked against the hash. -/
def store (node : Node) : BlockStore := fun hash =>
  match node.broadcaster.stored.find? fun block => block.blockHash == hash with
  | none => none
  | some block =>
    match crypto.checkBlockSer hash block.blockSer with
    | some (.ok block) => some block
    | _ => none

def stage (node : Node) (event : Staging.Event) : Option Node :=
  (Staging.step crypto node.staging event).map fun staging => { node with staging }

/-- The fork receiver with the log server that answers its queries. -/
def received (node : Node) (result : Option (ForkReceiver × LogServer)) : Option Node :=
  result.map fun (forkReceiver, logServer) => { node with forkReceiver, logServer }

/-- One iteration of one worker of the pipeline, with what it gets from the
network, from a timer or from the pacemaker. -/
inductive Action where
  | timerTick (enough : Bool)
  | takeBlock
  | vote (sender : SenderType) (vote : ProtoVote)
  | pacemakerCommand (cmd : PacemakerCommand)
  | takeControlCommand
  | takeQc
  | takeBatch (batch : List ProtoTransaction)
  | signatureTick
  | takeMyBlock (storageAck : StorageAck)
  | takeOtherBlock (storageAck : StorageAck)
  | takeBroadcasterCommand
  | appendEntries (ae : ProtoAppendEntries) (sender : String)
  | takeForkCommand
  | takeMultipartNack
  | backfillResponse (ae : ProtoAppendEntries) (sender : SenderType)
  | takeLogCommand
  | garbageCollect (n : Nat)

def act (node : Node) : Action → Option Node
  | .timerTick enough => node.stage crypto (.timerTick enough)
  | .takeBlock =>
    node.receive .stagingBlocks node.broadcaster.stagingTx fun node (block, storageAck, aeStats, final) =>
      node.stage crypto (.block block storageAck aeStats final)
  | .vote sender vote => node.stage crypto (.vote sender vote)
  | .pacemakerCommand cmd => node.stage crypto (.pacemaker cmd)
  | .takeControlCommand =>
    node.receive .sequencerControl node.staging.blockSequencerCommandTx fun node cmd =>
      (node.sequencer.handleControlCommand crypto cmd).map fun sequencer => { node with sequencer }
  | .takeQc =>
    node.receive .sequencerQcs node.staging.qcTx fun node qc =>
      some { node with sequencer := node.sequencer.addQc qc }
  | .takeBatch batch =>
    (node.sequencer.handleBatch crypto batch).map fun sequencer => { node with sequencer }
  | .signatureTick => some { node with sequencer := node.sequencer.signatureTick }
  | .takeMyBlock storageAck =>
    node.receive .broadcasterMine node.sequencer.blockBroadcasterTx fun node block =>
      some { node with broadcaster := node.broadcaster.processMyBlock crypto.config block storageAck }
  | .takeOtherBlock storageAck =>
    node.receive .broadcasterOther node.forkReceiver.broadcasterTx fun node fork =>
      some { node with broadcaster := node.broadcaster.processOtherBlock fork storageAck }
  | .takeBroadcasterCommand =>
    node.receive .broadcasterControl node.staging.blockBroadcasterCommandTx fun node cmd =>
      some { node with broadcaster := node.broadcaster.handleControlCommand cmd }
  | .appendEntries ae sender =>
    -- A fork receiver that waits listens to commands only.
    if node.forkReceiver.blockedOnMultipart || node.forkReceiver.waitingOnNackReply then none
    else node.received (node.forkReceiver.processFork crypto (node.store crypto) node.logServer ae sender)
  | .takeForkCommand =>
    node.receive .receiverStaging node.staging.forkReceiverCommandTx fun node cmd =>
      node.received (node.forkReceiver.handleCommand crypto (node.store crypto) node.logServer cmd)
  | .takeMultipartNack =>
    node.receive .receiverBroadcaster node.broadcaster.forkReceiverCommandTx fun node cmd =>
      node.received (node.forkReceiver.handleCommand crypto (node.store crypto) node.logServer cmd)
  | .backfillResponse ae sender =>
    node.received (node.forkReceiver.handleCommand crypto (node.store crypto) node.logServer
      (.useBackfillResponse ae sender))
  | .takeLogCommand =>
    node.receive .logServerStaging node.staging.logserverTx fun node cmd =>
      some { node with logServer := node.logServer.handleCommand cmd }
  | .garbageCollect n => some { node with logServer := node.logServer.handleGc n }

end Node

end PirateShip
