import PirateShip.Staging.ViewChange

/-! Processing blocks and votes, as leader and as follower. `none` means that
the stage stops: a failed `unwrap` or assertion, or an error returned to the
worker loop. -/

set_option autoImplicit false

namespace PirateShip.Staging

variable (crypto : CryptoService)

/-!
## Byzantine commit
-/

/-- Highest certificate in the pending blocks up to `bound`. -/
def highestQcUpTo (pending : List CachedBlockWithVotes) (bound default : Nat) : Nat :=
  ((pending.reverse.filter fun entry => decide (entry.n ≤ bound)).flatMap fun entry =>
    entry.block.block.qc.map (·.n)).max?.getD default

/-- All votes rule, only applicable if the view is stable already. -/
def newBciFastPath (config : Config) (staging : Staging) (qc : ProtoQuorumCertificate) : Nat :=
  if staging.viewIsStable && decide (byzantineFastPathThreshold config ≤ qc.sig.length) then
    if config.features.fastPath then qc.n else staging.bci
  else staging.bci

/-- The 2-hop rule, with one more hop in the builds that ask for it. -/
def newBciSlowPath (config : Config) (staging : Staging) (qc : ProtoQuorumCertificate) : Nat :=
  let hop := highestQcUpTo staging.pendingBlocks qc.n staging.bci
  if config.features.extraQcCheck && decide (staging.bci < hop) then
    highestQcUpTo staging.pendingBlocks hop staging.bci
  else hop

/-- The bookkeeping for a certificate, before anything is committed. -/
def noteQc (staging : Staging) (qc : ProtoQuorumCertificate) : Staging :=
  let staging :=
    if staging.view ≤ qc.view ∧ (staging.lastQc.map (·.n)).getD 0 < qc.n then
      maybeUpdateLastQc { staging with viewChangeTimer := staging.viewChangeTimer ++ [.reset] } qc
    else staging
  { staging with
    pendingSignatures := staging.pendingSignatures.filter fun entry => decide (qc.n < entry.1) }

/-- The higher of the two rules. -/
def newBci (config : Config) (staging : Staging) (qc : ProtoQuorumCertificate) : Nat :=
  max (newBciFastPath config staging qc) (newBciSlowPath config staging qc)

def maybeByzantineCommit (staging : Staging) (qc : ProtoQuorumCertificate) : Staging :=
  let staging := noteQc staging qc
  doByzantineCommit staging staging.bci (newBci crypto.config staging qc)

/-!
## Votes
-/

/-- The loop of `maybe_crash_commit`. -/
def crashCommitIndex (thresh : Nat) : Nat → List CachedBlockWithVotes → Nat
  | ci, [] => ci
  | ci, entry :: rest =>
    if entry.n ≤ ci then crashCommitIndex thresh ci rest
    else if thresh ≤ entry.replicationSet.card then crashCommitIndex thresh entry.n rest
    else crashCommitIndex thresh ci rest

/-- A wide gap to the byzantine commit index asks for the larger quorum. -/
def crashCommitQuorum (config : Config) (staging : Staging) : Option Nat :=
  if config.features.noQc then some (crashCommitThreshold config)
  else if (config.consensusConfig.commitIndexGapSoft : Int) < (staging.ci : Int) - (staging.bci : Int) then
    byzantineCommitThreshold config
  else some (crashCommitThreshold config)

/-- Ghost: the blocks whose votes moved the commit index to `newCi`. -/
def noteCommit (staging : Staging) (newCi : Nat) : Staging :=
  { staging with
    countedCommits := staging.countedCommits ++
      if staging.ci < newCi then
        (staging.pendingBlocks.filter fun entry => decide (entry.n = newCi)).map fun entry =>
          { view := staging.view, block := entry.block, voters := entry.replicationSet }
      else [] }

def maybeCrashCommit (staging : Staging) : Option Staging :=
  (crashCommitQuorum crypto.config staging).map fun thresh =>
    let newCi := crashCommitIndex thresh staging.ci staging.pendingBlocks
    doCrashCommit (noteCommit staging newCi) staging.ci newCi

/-- The certificate over a pending block. -/
def qcOf (view : Nat) (entry : CachedBlockWithVotes) : ProtoQuorumCertificate where
  n := entry.n
  view
  sig := entry.voteSigs.toPairs.map fun binding => { name := binding.1, sig := binding.2.sig }
  digest := entry.block.blockHash

/-- A certificate is proposed at most twice: at the slow and at the fast threshold. -/
def needsQc (thresh fastThresh : Nat) (entry : CachedBlockWithVotes) : Bool :=
  !(entry.qcIsProposed && entry.fastQcIsProposed) &&
    decide ((if entry.qcIsProposed then fastThresh else thresh) ≤ entry.voteSigs.keys.length)

def markProposed (thresh fastThresh : Nat) (entry : CachedBlockWithVotes) : CachedBlockWithVotes :=
  if needsQc thresh fastThresh entry then
    { entry with
      qcIsProposed := true
      fastQcIsProposed := entry.fastQcIsProposed || decide (fastThresh ≤ entry.voteSigs.keys.length) }
  else entry

/-- The first loop of `maybe_create_qcs`: the marked blocks and their certificates. -/
def proposeQcs (view thresh fastThresh : Nat) (pending : List CachedBlockWithVotes) :
    List CachedBlockWithVotes × List ProtoQuorumCertificate :=
  (pending.map (markProposed thresh fastThresh),
    (pending.filter (needsQc thresh fastThresh)).map (qcOf view))

/-- The second loop of `maybe_create_qcs`. -/
def emitQcs : Staging → List ProtoQuorumCertificate → Option Staging
  | staging, [] => some staging
  | staging, qc :: rest =>
    match if staging.viewIsStable then some staging else maybeStabilizeView crypto staging qc with
    | none => none
    | some staging =>
      emitQcs (maybeByzantineCommit crypto { staging with qcTx := staging.qcTx ++ [qc] } qc) rest

def maybeCreateQcs (staging : Staging) : Option Staging :=
  match byzantineCommitThreshold crypto.config with
  | none => none
  | some thresh =>
    let proposed := proposeQcs staging.view thresh (byzantineFastPathThreshold crypto.config)
      staging.pendingBlocks
    emitQcs crypto { staging with pendingBlocks := proposed.1 } proposed.2

/-- A vote for a block is a vote on all its ancestors. A signed block takes its
signatures out of the vote. -/
def recordVote (sender : String) (voteN : Nat) :
    List ProtoSignatureArrayEntry → List CachedBlockWithVotes → List CachedBlockWithVotes
  | _, [] => []
  | sigs, entry :: rest =>
    let replicated := if entry.n ≤ voteN then insert sender entry.replicationSet else entry.replicationSet
    if entry.block.block.isSigned then
      let mine := sigs.filter fun sig => sig.n == entry.n
      { entry with
        replicationSet := replicated
        voteSigs := mine.foldl (fun sigsOf sig => sigsOf.insert sender sig) entry.voteSigs } ::
        recordVote sender voteN (sigs.filter fun sig => sig.n != entry.n) rest
    else
      { entry with replicationSet := replicated } :: recordVote sender voteN sigs rest

/-- The vote is counted on the pending blocks. -/
def countVote (staging : Staging) (sender : String) (vote : ProtoVote) : Staging :=
  { staging with
    pendingBlocks := recordVote sender vote.n vote.sigArray staging.pendingBlocks
    countedVotes := staging.countedVotes ++
      [{ sender, vote, pending := staging.pendingBlocks.map (·.block) }] }

/-- Precondition: the vote has been cryptographically verified to be from `sender`. -/
def processVote (staging : Staging) (sender : String) (vote : ProtoVote) : Option Staging :=
  if staging.view ≠ vote.view then some staging
  else
    match staging.pendingBlocks.head?, staging.pendingBlocks.getLast? with
    | some first, some last =>
      if ¬ (first.n ≤ vote.n ∧ vote.n ≤ last.n) then some staging
      else
        match maybeCrashCommit crypto (countVote staging sender vote) with
        | none => none
        | some staging =>
          if crypto.config.features.noQc then
            some (doByzantineCommit staging staging.bci staging.ci)
          else maybeCreateQcs crypto staging
    | _, _ => some staging

/-- Every signature for a pending block verifies. On a sorted queue the binary
search of the source finds the first block with the number, if any. -/
def voteSignaturesValid (staging : Staging) (sender : String)
    (sigArray : List ProtoSignatureArrayEntry) : Bool :=
  sigArray.all fun sig =>
    match staging.pendingBlocks.find? fun entry => entry.n == sig.n with
    | none => true
    | some entry =>
      sig.sig.length == signatureLength && crypto.verify entry.block.blockHash sender sig.sig

def verifyAndProcessVote (staging : Staging) (sender : String) (vote : ProtoVote) : Option Staging :=
  if voteSignaturesValid crypto staging sender vote.sigArray then processVote crypto staging sender vote
  else some staging

/-- The signature entry of a vote for a signed block. -/
def voteSignature (block : CachedBlock) : List ProtoSignatureArrayEntry :=
  if block.block.isSigned then [{ n := block.block.n, sig := crypto.sign block.blockHash }] else []

/-- Storage acknowledgements are awaited and their results dropped. -/
def voteOnLastBlockForSelf (staging : Staging) (_storageAck : StorageAck) : Option Staging :=
  match staging.pendingBlocks.getLast? with
  | none => none
  | some last =>
    let vote : ProtoVote :=
      { sigArray := voteSignature crypto last.block
        forkDigest := last.block.blockHash
        n := last.n
        view := staging.view
        configNum := staging.configNum }
    processVote crypto { staging with storageAckBuffer := [] } crypto.config.netConfig.name vote

/-- The signatures that have not shown up in a certificate are sent again, but
only if the last block was signed. -/
def sendVoteOnLastBlockToLeader (staging : Staging) (_storageAck : StorageAck) : Option Staging :=
  match staging.pendingBlocks.getLast? with
  | none => none
  | some last =>
    let mine := voteSignature crypto last.block
    let resent := if last.block.block.isSigned then staging.pendingSignatures.map (·.2) else []
    let vote : ProtoVote :=
      { sigArray := resent ++ mine
        forkDigest := last.block.blockHash
        n := last.n
        view := staging.view
        configNum := staging.configNum }
    let leader := crypto.config.getLeaderForView staging.view
    some { staging with
      storageAckBuffer := []
      pendingSignatures := staging.pendingSignatures ++ mine.map fun sig => (last.n, sig)
      client := staging.client ++ [(leader, .vote vote)] }

/-!
## Blocks
-/

/-- Stable to unstable and back to the same are unchecked; unstable to stable
has to go through certificates. -/
def settleStability (staging : Staging) (aeStats : AppendEntriesStats) : Staging :=
  if staging.viewIsStable || !aeStats.viewIsStable then
    { staging with viewIsStable := aeStats.viewIsStable }
  else staging

/-- The same-view branch up to the continuity check. -/
def settleForBlock (staging : Staging) (block : CachedBlock) (aeStats : AppendEntriesStats) : Staging :=
  let staging := settleStability staging aeStats
  if staging.viewIsStable then staging else staging.rollback (wrappingPred block.block.n)

/-- The accepted block is logged, counted and appended. -/
def pushBlock (staging : Staging) (block : CachedBlock) (final : Bool) : Staging :=
  { staging with
    logserverTx := staging.logserverTx ++ [.newBlock block]
    aeSeenInThisView := staging.aeSeenInThisView + if final then 1 else 0
    pendingBlocks := staging.pendingBlocks ++ [{ block }] }

def bufferAck (staging : Staging) (storageAck : StorageAck) : Staging :=
  { staging with storageAckBuffer := staging.storageAckBuffer ++ [storageAck] }

/-- `process_block_as_leader` for a block of the current view. -/
def acceptAsLeader (staging : Staging) (block : CachedBlock) (storageAck : StorageAck)
    (aeStats : AppendEntriesStats) (final : Bool) : Option Staging :=
  let staging := settleForBlock staging block aeStats
  if !checkContinuity staging block then some staging
  else
    let staging := pushBlock staging block final
    if final then voteOnLastBlockForSelf crypto staging storageAck
    else some (bufferAck staging storageAck)

/-- The loop over the certificates of the accepted block. -/
def processQcs (oldViewIsStable : Bool) : Staging → List ProtoQuorumCertificate → Option Staging
  | staging, [] => some staging
  | staging, qc :: rest =>
    match if oldViewIsStable then some staging else maybeStabilizeView crypto staging qc with
    | none => none
    | some staging => processQcs oldViewIsStable (maybeByzantineCommit crypto staging qc) rest

/-- A follower whose commit indexes drift apart asks for a view change. -/
def checkGap (config : Config) (oldViewIsStable : Bool) (staging : Staging) : Staging :=
  let softGap := config.consensusConfig.commitIndexGapSoft
  let hardGap := config.consensusConfig.commitIndexGapHard
  if oldViewIsStable && decide (softGap < staging.aeSeenInThisView) &&
      decide ((hardGap : Int) < (staging.ci : Int) - (staging.bci : Int)) then
    { staging with viewChangeTimer := staging.viewChangeTimer ++ [.fireNow] }
  else staging

/-- What a follower does with an appended block. -/
def followBlock (staging : Staging) (block : CachedBlock) (storageAck : StorageAck)
    (aeStats : AppendEntriesStats) (final : Bool) : Option Staging :=
  let staging := if final then doCrashCommit staging staging.ci aeStats.ci else staging
  let oldViewIsStable := staging.viewIsStable
  match processQcs crypto oldViewIsStable staging block.block.qc with
  | none => none
  | some staging =>
    let staging :=
      if crypto.config.features.noQc && final then doByzantineCommit staging staging.bci staging.ci
      else staging
    let voted := if final then sendVoteOnLastBlockToLeader crypto staging storageAck
      else some (bufferAck staging storageAck)
    voted.map (checkGap crypto.config oldViewIsStable)

/-- `process_block_as_follower` for a block of the current view. -/
def acceptAsFollower (staging : Staging) (block : CachedBlock) (storageAck : StorageAck)
    (aeStats : AppendEntriesStats) (final : Bool) : Option Staging :=
  let staging := settleForBlock staging block aeStats
  if !checkContinuity staging block then some staging
  else followBlock crypto (pushBlock staging block final) block storageAck aeStats final

/-- The recursive call after a jump: the block now belongs to the current view. -/
def acceptBlock (staging : Staging) (block : CachedBlock) (storageAck : StorageAck)
    (aeStats : AppendEntriesStats) (final : Bool) : Option Staging :=
  if iAmLeader crypto.config staging then acceptAsLeader crypto staging block storageAck aeStats final
  else acceptAsFollower crypto staging block storageAck aeStats final

/-- Enter the unstable view of a block and tell the upstream stages. -/
def announceView (staging : Staging) (view configNum : Nat) : Staging :=
  { staging with
    view
    configNum
    viewIsStable := false
    aeSeenInThisView := 0
    blockSequencerCommandTx := staging.blockSequencerCommandTx ++ [.newUnstableView view configNum]
    forkReceiverCommandTx := staging.forkReceiverCommandTx ++ [.updateView view configNum] }

def cancelRequests (staging : Staging) : Staging :=
  { staging with clientReplyTx := staging.clientReplyTx ++ [.cancelAllRequests] }

/-- A leader rolls its pending blocks back for the block of a higher view. -/
def jumpAsLeader (staging : Staging) (block : CachedBlock) (aeStats : AppendEntriesStats) : Staging :=
  clearVotes (cancelRequests
    ((announceView staging aeStats.view aeStats.configNum).rollback (wrappingPred block.block.n)))

/-- A follower drops its pending blocks silently, and takes the configuration
from the block. -/
def jumpAsFollower (staging : Staging) (block : CachedBlock) (aeStats : AppendEntriesStats) : Staging :=
  let staging := announceView staging aeStats.view block.block.configNum
  clearVotes (cancelRequests { staging with
    pendingBlocks := staging.pendingBlocks.filter fun entry => decide (entry.n < block.block.n)
    pendingSignatures := staging.pendingSignatures.filter fun entry => decide (entry.1 < block.block.n) })

def processBlockAsLeader (staging : Staging) (block : CachedBlock) (storageAck : StorageAck)
    (aeStats : AppendEntriesStats) (final : Bool) : Option Staging :=
  if aeStats.view < staging.view then some staging
  else if aeStats.view = staging.view then
    acceptAsLeader crypto staging block storageAck aeStats final
  else acceptBlock crypto (jumpAsLeader staging block aeStats) block storageAck aeStats final

def processBlockAsFollower (staging : Staging) (block : CachedBlock) (storageAck : StorageAck)
    (aeStats : AppendEntriesStats) (final : Bool) : Option Staging :=
  if aeStats.view < staging.view then some staging
  else if aeStats.view = staging.view then
    acceptAsFollower crypto staging block storageAck aeStats final
  else acceptBlock crypto (jumpAsFollower staging block aeStats) block storageAck aeStats final

/-!
## Timer and worker
-/

/-- In an unstable view the pacemaker is asked whether it has `enough`
view-change messages, and only every hundredth such answer moves the view. -/
def handleViewChangeTimerTick (staging : Staging) (enough : Bool) : Option Staging :=
  if !crypto.config.features.viewChange then some staging
  else if staging.view = 0 ∨ staging.viewIsStable then
    maybeUpdateView crypto staging (staging.view + 1) staging.configNum
  else
    let staging : Staging := { staging with
      pacemakerTx := staging.pacemakerTx ++ [.queryEnoughVCMsg staging.view staging.configNum] }
    if !enough then some staging
    else if 100 ≤ staging.vcRetryNum then
      (maybeUpdateView crypto staging (staging.view + 1) staging.configNum).map fun staging =>
        { staging with vcRetryNum := 0 }
    else some { staging with vcRetryNum := staging.vcRetryNum + 1 }

/-- What the worker's `select!` can receive. -/
inductive Event where
  | timerTick (enough : Bool)
  | block (block : CachedBlock) (storageAck : StorageAck) (aeStats : AppendEntriesStats) (final : Bool)
  | vote (sender : SenderType) (vote : ProtoVote)
  | pacemaker (cmd : PacemakerCommand)

/-- One iteration of `worker`. -/
def step (staging : Staging) : Event → Option Staging
  | .timerTick enough => handleViewChangeTimerTick crypto staging enough
  | .block block storageAck aeStats final =>
    if iAmLeader crypto.config staging then
      processBlockAsLeader crypto staging block storageAck aeStats final
    else processBlockAsFollower crypto staging block storageAck aeStats final
  | .vote sender vote =>
    if iAmLeader crypto.config staging then
      verifyAndProcessVote crypto staging sender.toNameAndSubId.1 vote
    else some staging
  | .pacemaker cmd => processViewChangeMessage crypto staging cmd

end PirateShip.Staging
