import PirateShip.Staging.Transition

/-! What the small updates of the stage have in common, the operations made of
them have too. -/

set_option autoImplicit false

namespace PirateShip.Staging

open Option

/-- A preorder on states that the updates respect which a certificate or the check of a
block makes. -/
structure RespectsQcs (rel : Staging → Staging → Prop) : Prop where
  refl (staging : Staging) : rel staging staging
  trans {staging middle after : Staging} : rel staging middle → rel middle after → rel staging after
  settle (staging : Staging) (viewIsStable : Bool) (viewChangeTimer : List TimerCommand) (vcRetryNum : Nat) :
    rel staging { staging with viewIsStable, viewChangeTimer, vcRetryNum }
  rollback (staging : Staging) (n : Nat) : rel staging (staging.rollback n)
  note (staging : Staging) (lastQc : Option ProtoQuorumCertificate) (viewChangeTimer : List TimerCommand)
    (keeps : Nat × ProtoSignatureArrayEntry → Bool) : rel staging { staging with
      lastQc, viewChangeTimer, pendingSignatures := staging.pendingSignatures.filter keeps }
  byzantineCommit (staging : Staging) (newBci : Nat) (parent : Option CachedBlock) (blocks : List CachedBlock) :
    rel staging { staging with
      bci := newBci
      pendingBlocks := staging.pendingBlocks.dropWhile fun entry => decide (entry.n ≤ newBci)
      currParentForPending := parent
      appTx := staging.appTx ++ [.byzCommit blocks]
      logserverTx := staging.logserverTx ++ [.updateBCI newBci] }
  stabilize (staging : Staging) (leader : Bool × String) : rel staging { staging with
    viewIsStable := true
    blockSequencerCommandTx := staging.blockSequencerCommandTx ++ [.viewStabilised staging.view staging.configNum]
    batchProposerCommandTx := staging.batchProposerCommandTx ++ [leader]
    clientReplyTx := staging.clientReplyTx ++ [.stopCancelling] }

structure RespectsCrash (rel : Staging → Staging → Prop) : Prop extends RespectsQcs rel where
  crashCommit (staging : Staging) {newCi : Nat} : staging.ci < newCi → rel staging { staging with
    ci := newCi
    blockBroadcasterCommandTx := staging.blockBroadcasterCommandTx ++ [.updateCI newCi]
    appTx := staging.appTx ++ [.crashCommit ((staging.pendingBlocks.filter fun entry =>
      decide (staging.ci < entry.n ∧ entry.n ≤ newCi)).map (·.block))] }

structure RespectsCreate (rel : Staging → Staging → Prop) : Prop extends RespectsQcs rel where
  sendQc (staging : Staging) (qc : ProtoQuorumCertificate) :
    rel staging { staging with qcTx := staging.qcTx ++ [qc] }
  markProposed (staging : Staging) (thresh fastThresh : Nat) :
    rel staging { staging with pendingBlocks := staging.pendingBlocks.map (markProposed thresh fastThresh) }

/-- Every update that stays in the view, appends no block and casts no vote. -/
structure RespectsInView (rel : Staging → Staging → Prop) : Prop extends RespectsCrash rel, RespectsCreate rel where
  noteCommit (staging : Staging) (countedCommits : List CountedCommit) : rel staging { staging with countedCommits }

structure Respects (rel : Staging → Staging → Prop) : Prop extends RespectsInView rel where
  jumpAsLeader (staging : Staging) (block : CachedBlock) {aeStats : AppendEntriesStats} :
    staging.view < aeStats.view → rel staging (jumpAsLeader staging block aeStats)
  jumpAsFollower (staging : Staging) (block : CachedBlock) {aeStats : AppendEntriesStats} :
    staging.view < aeStats.view → rel staging (jumpAsFollower staging block aeStats)
  updateView (staging : Staging) {viewNum : Nat} (configNum : Nat) (leader : Bool × String) (vcMsg : ProtoViewChange)
    (names : List String) : staging.view < viewNum → rel staging { staging with
      view := viewNum
      configNum
      viewIsStable := false
      blockSequencerCommandTx := staging.blockSequencerCommandTx ++ [.newUnstableView viewNum configNum]
      batchProposerCommandTx := staging.batchProposerCommandTx ++ [leader]
      clientReplyTx := staging.clientReplyTx ++ [.cancelAllRequests]
      forkReceiverCommandTx := staging.forkReceiverCommandTx ++ [.updateView viewNum configNum]
      pacemakerTx := staging.pacemakerTx ++ [.myViewJumped viewNum configNum vcMsg]
      aeSeenInThisView := 0
      client := staging.client ++ names.map fun name => (name, .viewChange vcMsg) }
  queryPacemaker (staging : Staging) (cmd : PacemakerCommand) :
    rel staging { staging with pacemakerTx := staging.pacemakerTx ++ [cmd] }

section

variable {crypto : CryptoService} {rel : Staging → Staging → Prop} {staging after : Staging}
  {qcs : List ProtoQuorumCertificate}

namespace RespectsQcs

variable (respects : RespectsQcs rel)
include respects

theorem settleStability (staging aeStats) : rel staging (settleStability staging aeStats) := by
  unfold Staging.settleStability
  split
  · exact respects.settle staging _ _ _
  · exact respects.refl staging

theorem settleForBlock (staging block aeStats) : rel staging (settleForBlock staging block aeStats) := by
  simp only [Staging.settleForBlock]
  split
  · exact respects.settleStability staging aeStats
  · exact respects.trans (respects.settleStability staging aeStats) (respects.rollback _ _)

theorem doByzantineCommit (staging oldBci newBci) : rel staging (doByzantineCommit staging oldBci newBci) := by
  unfold Staging.doByzantineCommit
  split
  · exact respects.refl staging
  · exact respects.byzantineCommit staging newBci _ _

theorem noteQc (staging qc) : rel staging (noteQc staging qc) := by
  unfold Staging.noteQc maybeUpdateLastQc
  split
  · split <;> exact respects.note staging _ _ _
  · exact respects.note staging _ _ _

theorem doByzantineCommitIf (commits : Bool) (staging : Staging) :
    rel staging (if commits then Staging.doByzantineCommit staging staging.bci staging.ci else staging) := by
  split
  · exact respects.doByzantineCommit _ _ _
  · exact respects.refl staging

theorem maybeByzantineCommit (crypto staging qc) : rel staging (maybeByzantineCommit crypto staging qc) :=
  respects.trans (respects.noteQc staging qc) (respects.doByzantineCommit _ _ _)

theorem maybeStabilizeView {qc} (result : maybeStabilizeView crypto staging qc = some after) : rel staging after := by
  unfold Staging.maybeStabilizeView at result
  split at result
  · cases result
  · split at result
    · cases result
      exact respects.refl staging
    · cases result
      exact respects.stabilize staging _

theorem maybeStabilize {skip : Bool} {qc : ProtoQuorumCertificate}
    (result : (if skip then some staging else Staging.maybeStabilizeView crypto staging qc) = some after) :
    rel staging after := by
  cases skip with
  | true =>
    cases result
    exact respects.refl staging
  | false => exact respects.maybeStabilizeView result

theorem processQcs {oldViewIsStable}
    (result : processQcs crypto oldViewIsStable staging qcs = some after) : rel staging after := by
  induction qcs generalizing staging with
  | nil =>
    cases result
    exact respects.refl _
  | cons qc rest ih =>
    unfold Staging.processQcs at result
    split at result
    · cases result
    · next settled stabilized =>
      apply respects.trans (respects.maybeStabilize stabilized)
      exact respects.trans (respects.maybeByzantineCommit crypto settled qc) (ih result)

end RespectsQcs

namespace RespectsCrash

variable (respects : RespectsCrash rel)
include respects

theorem doCrashCommit (staging newCi) : rel staging (doCrashCommit staging staging.ci newCi) := by
  unfold Staging.doCrashCommit
  split
  · exact respects.refl staging
  · next higher => exact respects.crashCommit staging (Nat.lt_of_not_le higher)

theorem crashAsFollower (staging aeStats final) : rel staging (crashAsFollower staging aeStats final) := by
  unfold Staging.crashAsFollower
  split
  · exact respects.doCrashCommit _ _
  · exact respects.refl staging

theorem followQcs {oldViewIsStable aeStats final}
    (processed : processQcs crypto oldViewIsStable (Staging.crashAsFollower staging aeStats final) qcs = some after) :
    rel staging after :=
  respects.trans (respects.crashAsFollower staging aeStats final) (respects.processQcs processed)

end RespectsCrash

namespace RespectsCreate

variable (respects : RespectsCreate rel)
include respects

theorem emitQcs (result : emitQcs crypto staging qcs = some after) : rel staging after := by
  induction qcs generalizing staging with
  | nil =>
    cases result
    exact respects.refl _
  | cons qc rest ih =>
    unfold Staging.emitQcs at result
    split at result
    · cases result
    · next settled stabilized =>
      apply respects.trans (respects.maybeStabilize stabilized)
      apply respects.trans (respects.sendQc settled qc)
      exact respects.trans (respects.maybeByzantineCommit crypto _ qc) (ih result)

theorem maybeCreateQcs (result : maybeCreateQcs crypto staging = some after) : rel staging after := by
  unfold Staging.maybeCreateQcs at result
  split at result
  · cases result
  · exact respects.trans (respects.markProposed _ _ _) (respects.emitQcs result)

end RespectsCreate

namespace RespectsInView

variable (respects : RespectsInView rel)
include respects

theorem maybeCrashCommit (result : maybeCrashCommit crypto staging = some after) : rel staging after := by
  obtain ⟨_, -, rfl⟩ := map_eq_some_iff.mp result
  exact respects.trans (respects.noteCommit staging _) (respects.doCrashCommit _ _)

theorem processVote {sender vote} (result : processVote crypto staging sender vote = some after) :
    after = staging ∨ rel (countVote staging sender vote) after := by
  rcases processVote_cases result with ⟨-, same⟩ | ⟨-, _, committed, ends⟩
  · exact .inl same
  · have crashes := respects.maybeCrashCommit committed
    right
    split at ends
    · cases ends
      exact respects.trans crashes (respects.doByzantineCommit _ _ _)
    · exact respects.trans crashes (respects.maybeCreateQcs ends)

end RespectsInView

end

theorem commits_respected : RespectsCreate fun staging after =>
    after.ci = staging.ci ∧ after.countedCommits = staging.countedCommits ∧ after.view = staging.view where
  refl _ := ⟨rfl, rfl, rfl⟩
  trans first second := ⟨second.1.trans first.1, second.2.1.trans first.2.1, second.2.2.trans first.2.2⟩
  settle _ _ _ _ := ⟨rfl, rfl, rfl⟩
  rollback _ _ := ⟨rfl, rfl, rfl⟩
  note _ _ _ _ := ⟨rfl, rfl, rfl⟩
  byzantineCommit _ _ _ _ := ⟨rfl, rfl, rfl⟩
  stabilize _ _ := ⟨rfl, rfl, rfl⟩
  sendQc _ _ := ⟨rfl, rfl, rfl⟩
  markProposed _ _ _ := ⟨rfl, rfl, rfl⟩

namespace Respects

variable {crypto : CryptoService} {rel : Staging → Staging → Prop} {staging entered after : Staging}
  {block : CachedBlock} {aeStats : AppendEntriesStats}

theorem maybeUpdateView (respects : Respects rel) {viewNum configNum}
    (result : maybeUpdateView crypto staging viewNum configNum = some after) : rel staging after := by
  unfold Staging.maybeUpdateView at result
  split at result
  · cases result
    exact respects.refl staging
  · next higher =>
    simp only [Staging.updateView] at result
    split at result
    · cases result
    · split at result <;> cases result
      exact respects.updateView staging _ _ _ _ (Nat.lt_of_not_le higher)

theorem timerTick (respects : Respects rel) {enough}
    (result : handleViewChangeTimerTick crypto staging enough = some after) : rel staging after := by
  unfold handleViewChangeTimerTick at result
  split at result
  · cases result
    exact respects.refl staging
  · split at result
    · exact respects.maybeUpdateView result
    · apply respects.trans (respects.queryPacemaker staging (.queryEnoughVCMsg staging.view staging.configNum))
      dsimp only at result
      split at result
      · cases result
        exact respects.refl _
      · split at result
        · obtain ⟨_, updated, rfl⟩ := map_eq_some_iff.mp result
          exact respects.trans (respects.maybeUpdateView updated) (respects.settle _ _ _ _)
        · cases result
          exact respects.settle _ _ _ _

end Respects

/-!
## Blocks and votes
-/

structure RespectsBlocks (rel : Staging → Staging → Prop) : Prop extends RespectsInView rel where
  pushBlock (staging : Staging) (block : CachedBlock) (final : Bool) : rel staging (pushBlock staging block final)
  storageAcks (staging : Staging) (storageAckBuffer : List StorageAck) : rel staging { staging with storageAckBuffer }
  countVote (staging : Staging) (sender : String) (vote : ProtoVote) : rel staging (countVote staging sender vote)
  sendVote (staging : Staging) (leader : String) (vote : ProtoVote) (mine : List (Nat × ProtoSignatureArrayEntry)) :
    rel staging { staging with
      pendingSignatures := staging.pendingSignatures ++ mine
      client := staging.client ++ [(leader, .vote vote)] }

namespace RespectsBlocks

variable {crypto : CryptoService} {rel : Staging → Staging → Prop} {staging after : Staging}
  {block : CachedBlock} {storageAck : StorageAck} {aeStats : AppendEntriesStats} {final : Bool}

variable (respects : RespectsBlocks rel)
include respects

theorem vote {sender vote} (result : processVote crypto staging sender vote = some after) : rel staging after := by
  rcases respects.processVote result with rfl | counted
  · exact respects.refl _
  · exact respects.trans (respects.countVote staging sender vote) counted

theorem endsLeading (result : (if final then voteOnLastBlockForSelf crypto staging storageAck
      else some (Staging.bufferAck staging storageAck)) = some after) : rel staging after := by
  split at result
  · unfold voteOnLastBlockForSelf at result
    split at result
    · cases result
    · exact respects.trans (respects.storageAcks staging []) (respects.vote result)
  · cases result
    exact respects.storageAcks staging _

theorem acceptAsLeader (result : acceptAsLeader crypto staging block storageAck aeStats final = some after) :
    rel staging after := by
  simp only [Staging.acceptAsLeader] at result
  apply respects.trans (respects.settleForBlock staging block aeStats)
  split at result
  · cases result
    exact respects.refl _
  · exact respects.trans (respects.pushBlock _ block final) (respects.endsLeading result)

theorem sendVoteOnLastBlockToLeader (result : sendVoteOnLastBlockToLeader crypto staging storageAck = some after) :
    rel staging after := by
  unfold Staging.sendVoteOnLastBlockToLeader at result
  split at result
  · cases result
  · cases result
    exact respects.trans (respects.storageAcks staging []) (respects.sendVote _ _ _ _)

theorem checkGap (staging oldViewIsStable) : rel staging (checkGap crypto.config oldViewIsStable staging) := by
  simp only [Staging.checkGap]
  split
  · exact respects.settle staging _ _ _
  · exact respects.refl staging

theorem followBlock
    (result : followBlock crypto staging block storageAck aeStats final = some after) : rel staging after := by
  simp only [Staging.followBlock] at result
  split at result
  · cases result
  · next _ processed =>
    obtain ⟨voted, votes, rfl⟩ := map_eq_some_iff.mp result
    apply respects.trans _ (respects.checkGap voted _)
    apply respects.trans (respects.followQcs processed)
    apply respects.trans (respects.doByzantineCommitIf (crypto.config.features.noQc && final) _)
    split at votes
    · exact respects.sendVoteOnLastBlockToLeader votes
    · cases votes
      exact respects.storageAcks _ _

theorem acceptAsFollower (result : acceptAsFollower crypto staging block storageAck aeStats final = some after) :
    rel staging after := by
  simp only [Staging.acceptAsFollower] at result
  apply respects.trans (respects.settleForBlock staging block aeStats)
  split at result
  · cases result
    exact respects.refl _
  · exact respects.trans (respects.pushBlock _ block final) (respects.followBlock result)

theorem acceptBlock
    (result : acceptBlock crypto staging block storageAck aeStats final = some after) : rel staging after := by
  unfold Staging.acceptBlock at result
  split at result
  · exact respects.acceptAsLeader result
  · exact respects.acceptAsFollower result

theorem stepBlock (leaderJumps : staging.view < aeStats.view → rel staging (jumpAsLeader staging block aeStats))
    (followerJumps : staging.view < aeStats.view → rel staging (jumpAsFollower staging block aeStats))
    (taken : step crypto staging (.block block storageAck aeStats final) = some after) : rel staging after := by
  rcases step_block_enters taken with ⟨-, rfl⟩ | ⟨entered, enters, accepted⟩
  · exact respects.refl _
  · cases enters with
    | sameView => exact respects.acceptBlock accepted
    | leaderJumps later => exact respects.trans (leaderJumps later) (respects.acceptBlock accepted)
    | followerJumps later => exact respects.trans (followerJumps later) (respects.acceptBlock accepted)

theorem stepVote {sender vote} (taken : step crypto staging (.vote sender vote) = some after) :
    rel staging after := by
  simp only [Staging.step, verifyAndProcessVote] at taken
  split at taken
  · split at taken
    · exact respects.vote taken
    · cases taken
      exact respects.refl _
  · cases taken
    exact respects.refl _

end RespectsBlocks

structure RespectsAll (rel : Staging → Staging → Prop) : Prop extends Respects rel, RespectsBlocks rel

theorem RespectsAll.step {crypto rel staging after} (respects : RespectsAll rel) {event}
    (proposes : ∀ {viewNum configNum : Nat} {forks : HashMap SenderType ProtoViewChange},
      event = .pacemaker (.newViewForks viewNum configNum forks) →
      proposeNewView crypto staging viewNum configNum forks = some after → rel staging after)
    (taken : step crypto staging event = some after) : rel staging after := by
  cases event with
  | timerTick enough => exact respects.timerTick taken
  | vote sender vote => exact respects.stepVote taken
  | pacemaker cmd =>
    cases cmd with
    | updateView viewNum configNum => exact respects.maybeUpdateView taken
    | newViewForks viewNum configNum forks => exact proposes rfl taken
    | queryEnoughVCMsg | myViewJumped | updateBCI => cases taken
  | block block storageAck aeStats final =>
    exact respects.stepBlock (respects.jumpAsLeader staging block) (respects.jumpAsFollower staging block) taken

end PirateShip.Staging
