import PirateShip.Staging.Log

/-! The certificates that a step takes through `maybe_byzantine_commit`, and what they do to
`last_qc` and to the stability of the view. They come from the votes that a leader counts,
its own included, and from the blocks that a follower appends. -/

set_option autoImplicit false

namespace PirateShip.Staging

variable {crypto : CryptoService} {staging middle after : Staging} {qcs more : List ProtoQuorumCertificate}

/-!
## One certificate after the other
-/

/-- `last_qc` after a certificate that is not of a lower view than the node. -/
def recordQc (lastQc : Option ProtoQuorumCertificate) (qc : ProtoQuorumCertificate) :
    Option ProtoQuorumCertificate :=
  if (lastQc.map (·.n)).getD 0 < qc.n then some qc else lastQc

structure Processed (staging : Staging) (qcs : List ProtoQuorumCertificate) (after : Staging) : Prop where
  view : after.view = staging.view
  viewIsStable : after.viewIsStable = (staging.viewIsStable || qcs.any fun qc => qc.view == staging.view)
  lastQc : after.lastQc =
    (qcs.filter fun qc => decide (staging.view ≤ qc.view)).foldl recordQc staging.lastQc
  log : after.log = staging.log

namespace Processed

theorem same (view : after.view = staging.view) (viewIsStable : after.viewIsStable = staging.viewIsStable)
    (lastQc : after.lastQc = staging.lastQc) (log : after.log = staging.log) : Processed staging [] after where
  view
  viewIsStable := by rw [viewIsStable, List.any_nil, Bool.or_false]
  lastQc
  log

theorem of_core (core : after.toStagingCore = staging.toStagingCore) : Processed staging [] after :=
  .same (by rw [core]) (by rw [core]) (by rw [core]) (by rw [core])

theorem trans (first : Processed staging qcs middle) (second : Processed middle more after) :
    Processed staging (qcs ++ more) after where
  view := second.view.trans first.view
  viewIsStable := by
    rw [second.viewIsStable, first.viewIsStable, first.view, List.any_append, Bool.or_assoc]
  lastQc := by rw [second.lastQc, first.lastQc, first.view, List.filter_append, List.foldl_append]
  log := second.log.trans first.log

theorem doCrashCommit (staging oldCi newCi) : Processed staging [] (doCrashCommit staging oldCi newCi) := by
  have log : (Staging.doCrashCommit staging oldCi newCi).log = staging.log := by
    rw [StagingCore.log, blocks_doCrashCommit, committed_doCrashCommit, StagingCore.log]
  unfold Staging.doCrashCommit at log ⊢
  split
  · exact .of_core rfl
  · next higher => exact .same rfl rfl rfl (by rwa [if_neg higher] at log)

theorem doByzantineCommit (staging oldBci newBci) :
    Processed staging [] (doByzantineCommit staging oldBci newBci) := by
  have log : (Staging.doByzantineCommit staging oldBci newBci).log = staging.log := log_doByzantineCommit _ _
  unfold Staging.doByzantineCommit at log ⊢
  split
  · exact .of_core rfl
  · next higher => exact .same rfl rfl rfl (by rwa [if_neg higher] at log)

theorem noteQc (staging qc) : (noteQc staging qc).lastQc =
        ([qc].filter fun qc => decide (staging.view ≤ qc.view)).foldl recordQc staging.lastQc ∧
      (noteQc staging qc).view = staging.view ∧ (noteQc staging qc).viewIsStable = staging.viewIsStable ∧
      (noteQc staging qc).log = staging.log := by
  by_cases current : staging.view ≤ qc.view
  · by_cases higher : (staging.lastQc.map (·.n)).getD 0 < qc.n
    · simp [Staging.noteQc, maybeUpdateLastQc, current, higher, recordQc, StagingCore.log, StagingCore.blocks,
        StagingCore.committed]
    · simp [Staging.noteQc, current, higher, recordQc, StagingCore.log, StagingCore.blocks, StagingCore.committed]
  · simp [Staging.noteQc, current, StagingCore.log, StagingCore.blocks, StagingCore.committed]

end Processed

structure Stabilized (staging : Staging) (qc : ProtoQuorumCertificate) (after : Staging) : Prop where
  view : after.view = staging.view
  viewIsStable : after.viewIsStable = (staging.viewIsStable || qc.view == staging.view)
  lastQc : after.lastQc = staging.lastQc
  log : after.log = staging.log

theorem stabilized_of_result {skip qc} (stable : skip = true → staging.viewIsStable = true)
    (result : (if skip then some staging else maybeStabilizeView crypto staging qc) = some after) :
    Stabilized staging qc after := by
  cases skip with
  | true =>
    cases result
    exact ⟨rfl, by rw [stable rfl, Bool.true_or], rfl, rfl⟩
  | false =>
    rw [if_neg Bool.false_ne_true, maybeStabilizeView] at result
    split at result
    · cases result
    · split at result
      · next other =>
        cases result
        exact ⟨rfl, by rw [beq_false_of_ne other, Bool.or_false], rfl, rfl⟩
      · next label =>
        cases result
        exact ⟨rfl, by rw [not_not.mp label, beq_self_eq_true, Bool.or_true], rfl, rfl⟩

namespace Processed

theorem certificate (crypto) {qc} (stabilized : Stabilized staging qc middle) :
    Processed staging [qc] (maybeByzantineCommit crypto middle qc) := by
  obtain ⟨noted, sameView, sameStability, sameLog⟩ := noteQc middle qc
  have commits := doByzantineCommit (Staging.noteQc middle qc) (Staging.noteQc middle qc).bci
    (newBci crypto.config (Staging.noteQc middle qc) qc)
  refine ⟨commits.view.trans (sameView.trans stabilized.view), ?_, ?_,
    commits.log.trans (sameLog.trans stabilized.log)⟩
  · rw [maybeByzantineCommit, commits.viewIsStable, sameStability, stabilized.viewIsStable]
    simp
  · rw [maybeByzantineCommit, commits.lastQc, noted, stabilized.lastQc, stabilized.view]
    rfl

theorem processQcs {oldViewIsStable} (stable : oldViewIsStable = true → staging.viewIsStable = true)
    (result : processQcs crypto oldViewIsStable staging qcs = some after) : Processed staging qcs after := by
  induction qcs generalizing staging with
  | nil =>
    cases result
    exact .of_core rfl
  | cons qc rest ih =>
    unfold Staging.processQcs at result
    split at result
    · cases result
    · next _ stabilized =>
      have first := certificate crypto (stabilized_of_result stable stabilized)
      refine first.trans (ih (fun old => ?_) result)
      rw [first.viewIsStable, stable old, Bool.true_or]

theorem emitQcs (result : emitQcs crypto staging qcs = some after) : Processed staging qcs after := by
  induction qcs generalizing staging with
  | nil =>
    cases result
    exact .of_core rfl
  | cons qc rest ih =>
    unfold Staging.emitQcs at result
    split at result
    · cases result
    · next settled stabilized =>
      have done := stabilized_of_result id stabilized
      have sent : Stabilized staging qc { settled with qcTx := settled.qcTx ++ [qc] } :=
        ⟨done.view, done.viewIsStable, done.lastQc, done.log⟩
      exact (certificate crypto sent).trans (ih result)

end Processed

/-!
## Votes and blocks
-/

/-- The certificates that become complete when a vote is counted. -/
def completedQcs (crypto : CryptoService) (staging : Staging) (sender : String) (vote : ProtoVote) :
    List ProtoQuorumCertificate :=
  match staging.pendingBlocks.head?, staging.pendingBlocks.getLast?, byzantineCommitThreshold crypto.config with
  | some first, some last, some thresh =>
    if staging.view = vote.view ∧ (first.n ≤ vote.n ∧ vote.n ≤ last.n) ∧ crypto.config.features.noQc = false then
      (proposeQcs staging.view thresh (byzantineFastPathThreshold crypto.config)
        (recordVote sender vote.n vote.sigArray staging.pendingBlocks)).2
    else []
  | _, _, _ => []

/-- The state in which a block of at least the current view meets the continuity check. -/
def settledFor (crypto : CryptoService) (staging : Staging) (block : CachedBlock) (aeStats : AppendEntriesStats) :
    Staging :=
  settleForBlock
    (if aeStats.view = staging.view then staging
      else if iAmLeader crypto.config staging then jumpAsLeader staging block aeStats
      else jumpAsFollower staging block aeStats)
    block aeStats

/-- The certificates for which a block is appended, if it is, and the state that they meet. -/
def processingBlock (crypto : CryptoService) (settled : Staging) (block : CachedBlock) (final : Bool) :
    Staging × List ProtoQuorumCertificate :=
  if !checkContinuity settled block then (settled, [])
  else
    let pushed := pushBlock settled block final
    if iAmLeader crypto.config pushed then
      (pushed,
        if final then
          completedQcs crypto pushed crypto.config.netConfig.name (voteFor pushed block (voteSignature crypto block))
        else [])
    else (pushed, block.block.qc)

theorem processingBlock_fst (crypto settled block final) : (processingBlock crypto settled block final).1 = settled ∨
      (processingBlock crypto settled block final).1 = pushBlock settled block final := by
  unfold processingBlock
  split
  · exact .inl rfl
  · right
    dsimp only
    split <;> rfl

/-- The certificates of a step, in their order, and the state that they meet. -/
def processing (crypto : CryptoService) (staging : Staging) : Event → Staging × List ProtoQuorumCertificate
  | .vote sender vote =>
    (staging,
      if iAmLeader crypto.config staging &&
          voteSignaturesValid crypto staging sender.toNameAndSubId.1 vote.sigArray then
        completedQcs crypto staging sender.toNameAndSubId.1 vote
      else [])
  | .block block _ aeStats final =>
    if aeStats.view < staging.view then (staging, [])
    else processingBlock crypto (settledFor crypto staging block aeStats) block final
  | .timerTick _ | .pacemaker _ => (staging, [])

theorem view_settleForBlock (staging block aeStats) : (settleForBlock staging block aeStats).view = staging.view := by
  rw [settleForBlock_core]
  split <;> rfl

namespace Processed

variable {sender : String} {vote : ProtoVote} {block : CachedBlock} {storageAck : StorageAck}
  {aeStats : AppendEntriesStats} {final : Bool}

theorem countVote (staging sender vote) : Processed staging [] (countVote staging sender vote) :=
  .same rfl rfl rfl (by rw [StagingCore.log, blocks_countVote, StagingCore.log]; rfl)

theorem maybeCrashCommit (result : maybeCrashCommit crypto staging = some after) :
    Processed staging [] after ∧ after.pendingBlocks = staging.pendingBlocks := by
  obtain ⟨thresh, -, rfl⟩ := Option.map_eq_some_iff.mp result
  have noted : Processed staging []
      (noteCommit staging (crashCommitIndex thresh staging.ci staging.pendingBlocks)) := .same rfl rfl rfl rfl
  refine ⟨noted.trans (doCrashCommit _ _ _), ?_⟩
  dsimp only [Staging.doCrashCommit]
  split <;> rfl

theorem maybeCreateQcs {thresh} (known : byzantineCommitThreshold crypto.config = some thresh)
    (result : maybeCreateQcs crypto staging = some after) :
    Processed staging
      (proposeQcs staging.view thresh (byzantineFastPathThreshold crypto.config) staging.pendingBlocks).2 after := by
  simp only [Staging.maybeCreateQcs, known] at result
  have marked : Processed staging [] { staging with
      pendingBlocks := staging.pendingBlocks.map
        (markProposed thresh (byzantineFastPathThreshold crypto.config)) } :=
    .same rfl rfl rfl (by simp only [StagingCore.log, StagingCore.blocks, blocks_markProposed]; rfl)
  exact marked.trans (emitQcs result)

theorem processVote (result : processVote crypto staging sender vote = some after) :
    Processed staging (completedQcs crypto staging sender vote) after := by
  rcases processVote_cases result with ⟨irrelevant, rfl⟩ | ⟨relevant, _, committed, ends⟩
  · have none : completedQcs crypto after sender vote = [] := by
      unfold completedQcs
      split
      · next first last _ head tail _ =>
        exact if_neg fun counts => irrelevant ⟨counts.1, first, head, last, tail, counts.2.1⟩
      · rfl
    exact none ▸ .of_core rfl
  · obtain ⟨sameView, first, head, last, tail, inside⟩ := relevant
    obtain ⟨crashes, pendingBlocks⟩ := maybeCrashCommit committed
    have counted := (countVote staging sender vote).trans crashes
    split at ends
    · next noQc =>
      cases ends
      have none : completedQcs crypto staging sender vote = [] := by
        unfold completedQcs
        split <;> simp [noQc]
      exact none ▸ counted.trans (doByzantineCommit _ _ _)
    · next withQcs =>
      cases known : byzantineCommitThreshold crypto.config with
      | none =>
        rw [Staging.maybeCreateQcs, known] at ends
        cases ends
      | some thresh =>
        have created := maybeCreateQcs known ends
        rw [pendingBlocks, counted.view] at created
        have all : completedQcs crypto staging sender vote = (proposeQcs staging.view thresh
            (byzantineFastPathThreshold crypto.config)
            (recordVote sender vote.n vote.sigArray staging.pendingBlocks)).2 := by
          simp only [completedQcs, Option.mem_def.mp head, Option.mem_def.mp tail, known]
          rw [if_pos ⟨sameView, inside, by simpa using withQcs⟩]
        rw [all]
        exact counted.trans created

theorem sendVote (result : sendVoteOnLastBlockToLeader crypto staging storageAck = some after) :
    Processed staging [] after := by
  obtain ⟨_, -, core⟩ := sendVote_core result
  exact .same (by rw [core]) (by rw [core]) (by rw [core])
    (by rw [core]; simp only [StagingCore.log, StagingCore.blocks, StagingCore.committed])

theorem checkGap (config oldViewIsStable staging) :
    Processed staging [] (checkGap config oldViewIsStable staging) := by
  simp only [Staging.checkGap]
  split <;> exact .of_core rfl

theorem followBlock (result : followBlock crypto staging block storageAck aeStats final = some after) :
    Processed staging block.block.qc after := by
  simp only [Staging.followBlock] at result
  split at result
  · cases result
  · next certified processed =>
    have crashed : Processed staging []
        (if final then Staging.doCrashCommit staging staging.ci aeStats.ci else staging) := by
      split
      · exact doCrashCommit _ _ _
      · exact .of_core rfl
    have attached := crashed.trans (processQcs id processed)
    obtain ⟨voted, votes, rfl⟩ := Option.map_eq_some_iff.mp result
    have ended : Processed certified [] voted := by
      have committed : Processed certified [] (if crypto.config.features.noQc && final then
          Staging.doByzantineCommit certified certified.bci certified.ci else certified) := by
        split
        · exact doByzantineCommit _ _ _
        · exact .of_core rfl
      split at votes
      · exact committed.trans (sendVote votes)
      · cases votes
        exact committed.trans (.of_core rfl)
    simpa using (attached.trans ended).trans (checkGap _ _ _)

theorem endsLeading (isLast : staging.pendingBlocks.getLast? = some { block })
    (result : (if final then voteOnLastBlockForSelf crypto staging storageAck
      else some (bufferAck staging storageAck)) = some after) :
    Processed staging (if final then completedQcs crypto staging crypto.config.netConfig.name
        (voteFor staging block (voteSignature crypto block)) else []) after := by
  split at result
  · next isFinal =>
    rw [voteOnLastBlockForSelf, isLast] at result
    have awaited : Processed staging [] { staging with storageAckBuffer := [] } := .of_core rfl
    rw [if_pos isFinal]
    exact awaited.trans (processVote result)
  · next more =>
    cases result
    rw [if_neg more]
    exact .of_core rfl

theorem acceptBlock (result : acceptBlock crypto staging block storageAck aeStats final = some after) :
    Processed (processingBlock crypto (settleForBlock staging block aeStats) block final).1
      (processingBlock crypto (settleForBlock staging block aeStats) block final).2 after := by
  have leader : iAmLeader crypto.config (pushBlock (settleForBlock staging block aeStats) block final) =
      iAmLeader crypto.config staging := by
    rw [iAmLeader, show (pushBlock (settleForBlock staging block aeStats) block final).view = staging.view
      from view_settleForBlock staging block aeStats, iAmLeader]
  simp only [Staging.acceptBlock, acceptAsLeader, acceptAsFollower] at result
  simp only [processingBlock, leader]
  split at result
  · next leads =>
    split at result
    · next rejected =>
      cases result
      rw [if_pos rejected]
      exact .of_core rfl
    · next continues =>
      rw [if_neg continues, if_pos leads]
      exact endsLeading (by simp [pushBlock]) result
  · next follows =>
    split at result
    · next rejected =>
      cases result
      rw [if_pos rejected]
      exact .of_core rfl
    · next continues =>
      rw [if_neg continues, if_neg follows]
      exact followBlock result

end Processed

theorem quiet_of_transition {event} (transition : Transition crypto staging event after)
    (without : (∃ enough, event = .timerTick enough) ∨ ∃ cmd, event = .pacemaker cmd) :
    after.lastQc = staging.lastQc ∧ (after.viewIsStable = true → staging.viewIsStable = true) := by
  cases transition with
  | idle core =>
    rw [core]
    exact ⟨rfl, id⟩
  | enterView _ _ core =>
    rw [core]
    exact ⟨rfl, nofun⟩
  | newView _ _ _ _ core =>
    rw [core]
    unfold truncateForNewView
    dsimp only
    split <;> exact ⟨rfl, id⟩
  | vote | reject | append | lead | follow => simp at without

/-- A step does to `last_qc` and to the view's stability what its certificates do, unless
it changes the view without a block. -/
theorem step_processed {event} (taken : step crypto staging event = some after) :
    Processed (processing crypto staging event).1 (processing crypto staging event).2 after ∨
      after.lastQc = staging.lastQc ∧ (after.viewIsStable = true → staging.viewIsStable = true) ∧
        ((∃ enough, event = .timerTick enough) ∨ ∃ cmd, event = .pacemaker cmd) := by
  cases event with
  | vote sender vote =>
    left
    simp only [step, verifyAndProcessVote, processing, Bool.and_eq_true] at taken ⊢
    split at taken
    · next leads =>
      split at taken
      · next valid =>
        rw [if_pos ⟨leads, valid⟩]
        exact .processVote taken
      · next invalid =>
        cases taken
        rw [if_neg fun both => invalid both.2]
        exact .of_core rfl
    · next follows =>
      cases taken
      rw [if_neg fun both => follows both.1]
      exact .of_core rfl
  | block block storageAck aeStats final =>
    left
    rcases step_block_enters taken with ⟨lower, rfl⟩ | ⟨entered, enters, accepted⟩
    · simp only [processing, lower, if_true]
      exact .of_core rfl
    · have meets : processing crypto staging (.block block storageAck aeStats final) =
          processingBlock crypto (settleForBlock entered block aeStats) block final := by
        cases enters with
        | sameView same => simp [processing, settledFor, same]
        | leaderJumps later leads => simp [processing, settledFor, later.not_gt, later.ne', leads]
        | followerJumps later follows => simp [processing, settledFor, later.not_gt, later.ne', follows]
      rw [meets]
      exact .acceptBlock accepted
  | timerTick enough =>
    right
    have quiet := quiet_of_transition (timerTick_transition taken) (.inl ⟨enough, rfl⟩)
    exact ⟨quiet.1, quiet.2, .inl ⟨enough, rfl⟩⟩
  | pacemaker cmd =>
    right
    have quiet := quiet_of_transition (pacemaker_transition taken) (.inr ⟨cmd, rfl⟩)
    exact ⟨quiet.1, quiet.2, .inr ⟨cmd, rfl⟩⟩

end PirateShip.Staging
