import Mathlib.Data.Finset.Card
import PirateShip.Crypto.Service

/-! The state of the staging stage. A sender half of a channel is the list of
everything that was ever sent through it, so that a property of a whole run is
a property of the state it ends in. -/

set_option autoImplicit false

namespace PirateShip

structure CachedBlockWithVotes where
  block : CachedBlock
  voteSigs : HashMap String ProtoSignatureArrayEntry := ∅
  replicationSet : Finset String := ∅
  qcIsProposed : Bool := false
  fastQcIsProposed : Bool := false

abbrev CachedBlockWithVotes.n (entry : CachedBlockWithVotes) : Nat := entry.block.block.n

/-- Ghost: a vote that `process_vote` counted, and the blocks pending then. -/
structure CountedVote where
  sender : String
  vote : ProtoVote
  pending : List CachedBlock

/-- Ghost: a commit index that `maybe_crash_commit` reached by counting. -/
structure CountedCommit where
  view : Nat
  block : CachedBlock
  voters : Finset String

/-- What decides which blocks a node logs, votes for and commits. -/
structure StagingCore where
  ci : Nat := 0
  bci : Nat := 0
  view : Nat := 0
  viewIsStable : Bool := false
  configNum : Nat := 1
  lastQc : Option ProtoQuorumCertificate := none
  currParentForPending : Option CachedBlock := none
  pendingBlocks : List CachedBlockWithVotes := []
  pendingSignatures : List (Nat × ProtoSignatureArrayEntry) := []
  client : List (String × ProtoPayload) := []
  appTx : List AppCommand := []
  qcTx : List ProtoQuorumCertificate := []
  logserverTx : List LogServerCommand := []
  -- Ghost fields: written beside the source's own updates, read by no function.
  countedVotes : List CountedVote := []
  countedCommits : List CountedCommit := []

structure Staging extends StagingCore where
  viewChangeTimer : List TimerCommand := []
  pacemakerTx : List PacemakerCommand := []
  clientReplyTx : List ClientReplyCommand := []
  blockBroadcasterCommandTx : List BlockBroadcasterCommand := []
  blockSequencerCommandTx : List BlockSequencerControlCommand := []
  batchProposerCommandTx : List BatchProposerCommand := []
  forkReceiverCommandTx : List ForkReceiverCommand := []
  vcRetryNum : Nat := 0
  storageAckBuffer : List StorageAck := []
  aeSeenInThisView : Nat := 0

namespace Staging

/-- `Staging::new`. Without view changes a node starts in a stable view 1. -/
def new (config : Config) : Staging :=
  if config.features.viewChange then {} else { view := 1, viewIsStable := true }

def iAmLeader (config : Config) (staging : Staging) : Bool :=
  config.getLeaderForView staging.view == config.netConfig.name

def crashCommitThreshold (config : Config) : Nat :=
  config.consensusConfig.nodeList.length / 2 + 1

def byzantineLivenessThreshold (config : Config) : Option Nat :=
  let n := config.consensusConfig.nodeList.length
  if config.features.platforms then
    if config.consensusConfig.livenessU ≤ n then some (n - config.consensusConfig.livenessU)
    else none
  else some (n - n / 3)

def byzantineCommitThreshold (config : Config) : Option Nat :=
  byzantineLivenessThreshold config

def byzantineFastPathThreshold (config : Config) : Nat :=
  config.consensusConfig.nodeList.length

theorem byzantineCommitThreshold_bounds {config} (valid : config.consensusConfig.Valid) {thresh}
    (known : byzantineCommitThreshold config = some thresh) :
    crashCommitThreshold config ≤ thresh ∧ thresh ≤ byzantineFastPathThreshold config := by
  obtain ⟨nonempty, _⟩ := valid
  have positive : 0 < config.consensusConfig.nodeList.length := List.length_pos_iff.mpr nonempty
  unfold byzantineCommitThreshold byzantineLivenessThreshold at known
  unfold crashCommitThreshold byzantineFastPathThreshold
  dsimp only at known
  split at known
  · split at known
    · cases known
      omega
    · cases known
  · cases known
    omega

/-- The next block above `pending_blocks`, or a block that is already there. -/
def checkContinuity (staging : Staging) (block : CachedBlock) : Bool :=
  match staging.pendingBlocks.head?, staging.pendingBlocks.getLast? with
  | some first, some last =>
    if last.n + 1 < block.block.n then false
    else if block.block.n < first.n then false
    else if block.block.n = last.n + 1 then block.block.parent == last.block.blockHash
    else staging.pendingBlocks.any fun pending =>
      pending.n == block.block.n && pending.block.blockHash == block.blockHash
  | _, _ =>
    match staging.currParentForPending with
    | none => block.block.n == 1
    | some parent =>
      block.block.parent == parent.blockHash && block.block.n == parent.block.n + 1

def rollback (staging : Staging) (n : Nat) : Staging :=
  { staging with
    pendingBlocks := staging.pendingBlocks.filter fun entry => decide (entry.n ≤ n)
    pendingSignatures := staging.pendingSignatures.filter fun entry => decide (entry.1 ≤ n)
    appTx := staging.appTx ++ [.rollback n]
    logserverTx := staging.logserverTx ++ [.rollback n] }

def doCrashCommit (staging : Staging) (oldCi newCi : Nat) : Staging :=
  if newCi ≤ oldCi then staging
  else
    let blocks := staging.pendingBlocks.filter fun entry => decide (oldCi < entry.n ∧ entry.n ≤ newCi)
    { staging with
      ci := newCi
      blockBroadcasterCommandTx := staging.blockBroadcasterCommandTx ++ [.updateCI newCi]
      appTx := staging.appTx ++ [.crashCommit (blocks.map (·.block))] }

def doByzantineCommit (staging : Staging) (oldBci newBci : Nat) : Staging :=
  if newBci ≤ oldBci then staging
  else
    let byzBlocks := (staging.pendingBlocks.takeWhile fun entry => decide (entry.n ≤ newBci)).map (·.block)
    { staging with
      bci := newBci
      pendingBlocks := staging.pendingBlocks.dropWhile fun entry => decide (entry.n ≤ newBci)
      currParentForPending := byzBlocks.foldl
        (fun parent block => if block.block.n = newBci then some block else parent)
        staging.currParentForPending
      appTx := staging.appTx ++ [.byzCommit byzBlocks]
      logserverTx := staging.logserverTx ++ [.updateBCI newBci] }

def maybeUpdateLastQc (staging : Staging) (qc : ProtoQuorumCertificate) : Staging :=
  if (staging.lastQc.map (·.n)).getD 0 < qc.n then { staging with lastQc := some qc } else staging

def clearVotes (staging : Staging) : Staging :=
  { staging with
    pendingBlocks := staging.pendingBlocks.map fun entry =>
      { entry with replicationSet := ∅, voteSigs := ∅ } }

end Staging

end PirateShip
