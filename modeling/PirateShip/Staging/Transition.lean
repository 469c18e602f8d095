import PirateShip.Staging.SteadyState

/-! What one step of the worker can do to the core of the state, said once for
every invariant of the stage. -/

set_option autoImplicit false

namespace PirateShip.Staging

open Option

variable (crypto : CryptoService)
variable {viewNum configNum : Nat}

def MovesView (staging : Staging) : Event → Prop
  | .timerTick enough => crypto.config.features.viewChange = true ∧
      (staging.view = 0 ∨ staging.viewIsStable = true ∨ (enough = true ∧ 100 ≤ staging.vcRetryNum))
  | .pacemaker (.updateView viewNum _) => staging.view < viewNum
  | _ => False

instance (staging : Staging) : ∀ event, Decidable (MovesView crypto staging event)
  | .timerTick _ => inferInstanceAs (Decidable (_ ∧ _))
  | .pacemaker (.updateView _ _) => inferInstanceAs (Decidable (_ < _))
  | .block .. | .vote .. | .pacemaker (.queryEnoughVCMsg ..) | .pacemaker (.newViewForks ..)
  | .pacemaker (.myViewJumped ..) | .pacemaker (.updateBCI _) => inferInstanceAs (Decidable False)

inductive Enters (staging : Staging) (block : CachedBlock) (aeStats : AppendEntriesStats) :
    Staging → Prop where
  | sameView : aeStats.view = staging.view → Enters staging block aeStats staging
  | leaderJumps : staging.view < aeStats.view → iAmLeader crypto.config staging = true →
      Enters staging block aeStats (jumpAsLeader staging block aeStats)
  | followerJumps : staging.view < aeStats.view → iAmLeader crypto.config staging = false →
      Enters staging block aeStats (jumpAsFollower staging block aeStats)

structure Counts (staging : Staging) (sender : String) (vote : ProtoVote) (after : Staging) : Prop where
  sameView : staging.view = vote.view
  inRange : ∃ first last, staging.pendingBlocks.head? = some first ∧
    staging.pendingBlocks.getLast? = some last ∧ first.n ≤ vote.n ∧ vote.n ≤ last.n
  result : ∃ crashed, maybeCrashCommit crypto (countVote staging sender vote) = some crashed ∧
    maybeCreateQcs crypto crashed = some after

/-- The vote for the last block, with the signatures that are sent along. -/
def voteFor (staging : Staging) (block : CachedBlock) (sigArray : List ProtoSignatureArrayEntry) :
    ProtoVote where
  sigArray
  forkDigest := block.blockHash
  n := block.block.n
  view := staging.view
  configNum := staging.configNum

def crashAsFollower (staging : Staging) (aeStats : AppendEntriesStats) (final : Bool) : Staging :=
  if final then doCrashCommit staging staging.ci aeStats.ci else staging

/-- A follower ends the processing of a block with its vote, if it is the final one. -/
inductive EndsFollowing (staging : Staging) (final : Bool) (after : Staging) : Prop where
  | waits : final = false → after.toStagingCore = staging.toStagingCore →
      EndsFollowing staging final after
  | votes {storageAck : StorageAck} {voted : Staging} : final = true →
      sendVoteOnLastBlockToLeader crypto staging storageAck = some voted →
      after.toStagingCore = voted.toStagingCore → EndsFollowing staging final after

inductive Handles (entered : Staging) (block : CachedBlock) (aeStats : AppendEntriesStats) (final : Bool) :
    Staging → Prop where
  | reject : checkContinuity (settleForBlock entered block aeStats) block = false →
      Handles entered block aeStats final (settleForBlock entered block aeStats)
  | append {after : Staging} : iAmLeader crypto.config entered = true →
      checkContinuity (settleForBlock entered block aeStats) block = true →
      after.toStagingCore =
        (pushBlock (settleForBlock entered block aeStats) block final).toStagingCore →
      Handles entered block aeStats final after
  | lead {pushed after : Staging} : iAmLeader crypto.config entered = true →
      checkContinuity (settleForBlock entered block aeStats) block = true →
      pushed.toStagingCore =
        (pushBlock (settleForBlock entered block aeStats) block final).toStagingCore →
      Counts crypto pushed crypto.config.netConfig.name
        (voteFor pushed block (voteSignature crypto block)) after → final = true →
      Handles entered block aeStats final after
  | follow {certified after : Staging} {oldViewIsStable : Bool} : iAmLeader crypto.config entered = false →
      checkContinuity (settleForBlock entered block aeStats) block = true →
      processQcs crypto oldViewIsStable
        (crashAsFollower (pushBlock (settleForBlock entered block aeStats) block final) aeStats final)
        block.block.qc = some certified →
      EndsFollowing crypto certified final after →
      Handles entered block aeStats final after

inductive Transition : Staging → Event → Staging → Prop where
  | idle {staging after : Staging} {event : Event} :
      after.toStagingCore = staging.toStagingCore → Transition staging event after
  | enterView {staging after : Staging} {event : Event} {viewNum configNum : Nat}
      {vcMsg : ProtoViewChange} :
      MovesView crypto staging event → staging.view < viewNum →
      after.toStagingCore = { staging.toStagingCore with
        view := viewNum
        configNum
        viewIsStable := false
        client := staging.client ++
          (getEveryoneExceptMe crypto.config).map fun name => (name, .viewChange vcMsg) } →
      Transition staging event after
  | newView {staging after : Staging} {viewNum configNum retainN : Nat}
      {forks : HashMap SenderType ProtoViewChange} {chosenFork : ForkStat} :
      viewNum = staging.view → staging.viewIsStable = false →
      iAmLeader crypto.config staging = true →
      checkByzCommitInvariant staging chosenFork = some retainN →
      after.toStagingCore = (truncateForNewView staging retainN).toStagingCore →
      Transition staging (.pacemaker (.newViewForks viewNum configNum forks)) after
  | vote {staging after : Staging} {sender : SenderType} {vote : ProtoVote} :
      iAmLeader crypto.config staging = true →
      voteSignaturesValid crypto staging sender.toNameAndSubId.1 vote.sigArray = true →
      Counts crypto staging sender.toNameAndSubId.1 vote after →
      Transition staging (.vote sender vote) after
  | reject {staging entered : Staging} {block : CachedBlock} {storageAck : StorageAck}
      {aeStats : AppendEntriesStats} {final : Bool} :
      Enters crypto staging block aeStats entered →
      checkContinuity (settleForBlock entered block aeStats) block = false →
      Transition staging (.block block storageAck aeStats final) (settleForBlock entered block aeStats)
  | append {staging entered after : Staging} {block : CachedBlock} {storageAck : StorageAck}
      {aeStats : AppendEntriesStats} {final : Bool} :
      Enters crypto staging block aeStats entered → iAmLeader crypto.config entered = true →
      checkContinuity (settleForBlock entered block aeStats) block = true →
      after.toStagingCore =
        (pushBlock (settleForBlock entered block aeStats) block final).toStagingCore →
      Transition staging (.block block storageAck aeStats final) after
  | lead {staging entered pushed after : Staging} {block : CachedBlock} {storageAck : StorageAck}
      {aeStats : AppendEntriesStats} {final : Bool} :
      Enters crypto staging block aeStats entered → iAmLeader crypto.config entered = true →
      checkContinuity (settleForBlock entered block aeStats) block = true →
      pushed.toStagingCore =
        (pushBlock (settleForBlock entered block aeStats) block final).toStagingCore →
      Counts crypto pushed crypto.config.netConfig.name
        (voteFor pushed block (voteSignature crypto block)) after → final = true →
      Transition staging (.block block storageAck aeStats final) after
  | follow {staging entered certified after : Staging} {block : CachedBlock}
      {storageAck : StorageAck} {aeStats : AppendEntriesStats} {final oldViewIsStable : Bool} :
      Enters crypto staging block aeStats entered → iAmLeader crypto.config entered = false →
      checkContinuity (settleForBlock entered block aeStats) block = true →
      processQcs crypto oldViewIsStable
        (crashAsFollower (pushBlock (settleForBlock entered block aeStats) block final) aeStats final)
        block.block.qc = some certified →
      EndsFollowing crypto certified final after →
      Transition staging (.block block storageAck aeStats final) after

/-!
## Every step is one of these
-/

variable {crypto} {staging after : Staging}

theorem Enters.view {entered block aeStats} (enters : Enters crypto staging block aeStats entered) :
    staging.view ≤ aeStats.view ∧ entered.view = aeStats.view := by
  cases enters with
  | sameView same => exact ⟨same.symm.le, same.symm⟩
  | leaderJumps later => exact ⟨later.le, rfl⟩
  | followerJumps later => exact ⟨later.le, rfl⟩

private theorem updateView_core (result : updateView crypto staging viewNum configNum = some after) :
    ∃ vcMsg, after.toStagingCore = { staging.toStagingCore with
      view := viewNum
      configNum
      viewIsStable := false
      client := staging.client ++
        (getEveryoneExceptMe crypto.config).map fun name => (name, .viewChange vcMsg) } := by
  unfold updateView at result
  dsimp only at result
  split at result
  · cases result
  · next vcMsg _ =>
    split at result
    · cases result
    · cases result
      exact ⟨vcMsg, rfl⟩

private theorem maybeUpdateView_transition {event} (moves : staging.view < viewNum → MovesView crypto staging event)
    (result : maybeUpdateView crypto staging viewNum configNum = some after) :
    Transition crypto staging event after := by
  unfold maybeUpdateView at result
  split at result
  · cases result
    exact .idle rfl
  · next _ =>
    obtain ⟨_, core⟩ := updateView_core result
    exact .enterView (moves (by omega)) (by omega) core

theorem timerTick_transition {enough} (result : handleViewChangeTimerTick crypto staging enough = some after) :
    Transition crypto staging (.timerTick enough) after := by
  unfold handleViewChangeTimerTick at result
  split at result
  · cases result
    exact .idle rfl
  · next enabled =>
    have enabled : crypto.config.features.viewChange = true := by simpa using enabled
    split at result
    · next ready =>
      refine maybeUpdateView_transition (fun _ => ⟨enabled, ?_⟩) result
      rcases ready with zero | stable
      · exact .inl zero
      · exact .inr (.inl stable)
    · dsimp only at result
      split at result
      · cases result
        exact .idle rfl
      · next answered =>
        have answered : enough = true := by simpa using answered
        split at result
        · next retried =>
          obtain ⟨_, updated, rfl⟩ := map_eq_some_iff.mp result
          unfold maybeUpdateView at updated
          split at updated
          · cases updated
            exact .idle rfl
          · obtain ⟨_, core⟩ := updateView_core updated
            exact .enterView ⟨enabled, .inr (.inr ⟨answered, retried⟩)⟩ (Nat.lt_succ_self _) core
        · cases result
          exact .idle rfl

def chosenVc (crypto : CryptoService) (forks : HashMap SenderType ProtoViewChange) :
    Option ProtoViewChange := do
  let forkStats ← vcToStats crypto.primitives forks
  let applicable ← forkChoiceFilter crypto.config.features forkStats (fastPathSelectionThreshold crypto.config)
  let chosen ← applicable.head?
  forks.lookup chosen

def forkBlocks (crypto : CryptoService) (vc : ProtoViewChange) : Option (List CachedBlock) := do
  let fork ← vc.fork
  let minQcLen ← byzantineLivenessThreshold crypto.config
  prepareForRebroadcast crypto fork.serializedBlocks minQcLen

/-- A call is turned away, or it sends the chosen fork to the broadcaster and the
end of it to the sequencer. -/
inductive Decides (crypto : CryptoService) (staging : Staging) (viewNum configNum : Nat)
    (forks : HashMap SenderType ProtoViewChange) : Staging → Prop where
  | turnedAway :
      (viewNum ≠ staging.view ∨ configNum ≠ staging.configNum) ∨ staging.viewIsStable = true ∨
        iAmLeader crypto.config staging = false →
      Decides crypto staging viewNum configNum forks staging
  | proposes {chosen : SenderType} (vc : ProtoViewChange) (sent : Staging) (stat : ForkStat)
      (validation : List ProtoForkValidation) (retainN : Nat) :
      viewNum = staging.view → configNum = staging.configNum → staging.viewIsStable = false →
      iAmLeader crypto.config staging = true → forks.lookup chosen = some vc →
      chosenVc crypto forks = some vc →
      sendBlocksToBroadcasterAndGetStats crypto staging vc = some (sent, stat) →
      checkByzCommitInvariant staging stat = some retainN →
      Decides crypto staging viewNum configNum forks { truncateForNewView sent retainN with
        blockSequencerCommandTx := (truncateForNewView sent retainN).blockSequencerCommandTx ++
          [.newViewMessage (truncateForNewView sent retainN).view (truncateForNewView sent retainN).configNum
            validation (newParentHash (truncateForNewView sent retainN) stat) stat.forkLastN] }

theorem sendBlocks_eq {vc stat} (result : sendBlocksToBroadcasterAndGetStats crypto staging vc = some (after, stat)) :
    ∃ fork, forkBlocks crypto vc = some fork ∧ after = { staging with
      blockBroadcasterCommandTx := staging.blockBroadcasterCommandTx ++ [.nextAEForkPrefix fork] } := by
  unfold sendBlocksToBroadcasterAndGetStats at result
  split at result
  · next _ _ present threshold =>
    split at result
    · cases result
    · next fork prepared =>
      obtain ⟨_, -, pair⟩ := map_eq_some_iff.mp result
      cases pair
      exact ⟨fork, by simp [forkBlocks, present, threshold, prepared], rfl⟩
  · cases result

theorem sendBlocks_core {vc stat}
    (result : sendBlocksToBroadcasterAndGetStats crypto staging vc = some (after, stat)) :
    after.toStagingCore = staging.toStagingCore := by
  obtain ⟨_, -, rfl⟩ := sendBlocks_eq result
  rfl

private theorem applyForkChoiceRule_sends {forks stat validation}
    (result : applyForkChoiceRule crypto staging forks = some (after, stat, validation)) :
    ∃ chosen vc, forks.lookup chosen = some vc ∧ chosenVc crypto forks = some vc ∧
      sendBlocksToBroadcasterAndGetStats crypto staging vc = some (after, stat) := by
  simp only [applyForkChoiceRule, bind_eq_bind, bind_eq_some_iff] at result
  obtain ⟨_, toStats, _, _, _, filtered, chosen, first, vc, found, ⟨_, stat⟩, sends, pair⟩ := result
  cases pair
  exact ⟨chosen, vc, found, by simp [chosenVc, toStats, filtered, first, found], sends⟩

private theorem truncateForNewView_core {other} (retainN) (core : other.toStagingCore = staging.toStagingCore) :
    (truncateForNewView other retainN).toStagingCore = (truncateForNewView staging retainN).toStagingCore := by
  cases other
  cases staging
  cases core
  unfold truncateForNewView
  dsimp only
  split <;> rfl

theorem checkByzCommitInvariant_core {other} (chosenFork) (core : other.toStagingCore = staging.toStagingCore) :
    checkByzCommitInvariant other chosenFork = checkByzCommitInvariant staging chosenFork := by
  cases other
  cases staging
  cases core
  rfl

theorem proposeNewView_decides {viewNum configNum forks}
    (result : proposeNewView crypto staging viewNum configNum forks = some after) :
    Decides crypto staging viewNum configNum forks after := by
  unfold proposeNewView at result
  split at result
  · next elsewhere =>
    cases result
    exact .turnedAway (.inl elsewhere)
  · next current =>
    simp only [not_or, Decidable.not_not] at current
    split at result
    · next refused =>
      cases result
      simp only [Bool.or_eq_true, Bool.not_eq_true'] at refused
      exact .turnedAway (.inr refused)
    · next accepted =>
      simp only [Bool.or_eq_true, Bool.not_eq_true', not_or, Bool.not_eq_true, Bool.not_eq_false] at accepted
      split at result
      · cases result
      · next sent stat validation applied =>
        obtain ⟨_, vc, found, picked, sends⟩ := applyForkChoiceRule_sends applied
        split at result
        · cases result
        · next retainN retained =>
          cases result
          rw [checkByzCommitInvariant_core stat (sendBlocks_core sends)] at retained
          exact .proposes vc sent stat validation retainN current.1 current.2 accepted.1 accepted.2 found picked
            sends retained

private theorem proposeNewView_transition {viewNum configNum forks}
    (result : proposeNewView crypto staging viewNum configNum forks = some after) :
    Transition crypto staging (.pacemaker (.newViewForks viewNum configNum forks)) after := by
  cases proposeNewView_decides result with
  | turnedAway _ => exact .idle rfl
  | proposes _ _ _ _ retainN inView _ unstable leads _ _ sends retained =>
    exact .newView inView unstable leads retained (truncateForNewView_core retainN (sendBlocks_core sends))

theorem pacemaker_transition {cmd} (result : processViewChangeMessage crypto staging cmd = some after) :
    Transition crypto staging (.pacemaker cmd) after := by
  cases cmd with
  | updateView viewNum configNum => exact maybeUpdateView_transition id result
  | newViewForks viewNum configNum forks => exact proposeNewView_transition result
  | queryEnoughVCMsg | myViewJumped | updateBCI => cases result

/-- The vote is of the current view and for a number in the range of the pending blocks. -/
def Relevant (staging : Staging) (vote : ProtoVote) : Prop :=
  staging.view = vote.view ∧ ∃ first ∈ staging.pendingBlocks.head?, ∃ last ∈ staging.pendingBlocks.getLast?,
    first.n ≤ vote.n ∧ vote.n ≤ last.n

theorem processVote_cases {sender vote} (result : processVote crypto staging sender vote = some after) :
    ¬ Relevant staging vote ∧ after = staging ∨
      Relevant staging vote ∧ ∃ crashed, maybeCrashCommit crypto (countVote staging sender vote) = some crashed ∧
        (if crypto.config.features.noQc then some (doByzantineCommit crashed crashed.bci crashed.ci)
          else maybeCreateQcs crypto crashed) = some after := by
  unfold processVote at result
  split at result
  · next elsewhere => exact .inl ⟨fun relevant => elsewhere relevant.1, (some.inj result).symm⟩
  · next sameView =>
    split at result
    · next first last head tail =>
      split at result
      · next outside =>
        refine .inl ⟨?_, (some.inj result).symm⟩
        rintro ⟨-, _, head', _, tail', inside⟩
        cases mem_unique head head'
        cases mem_unique tail tail'
        exact outside inside
      · next inside =>
        split at result
        · cases result
        · next crashed committed =>
          exact .inr ⟨⟨not_not.mp sameView, first, head, last, tail, not_not.mp inside⟩, crashed, committed, result⟩
    · next missing =>
      refine .inl ⟨?_, (some.inj result).symm⟩
      rintro ⟨-, first, head, last, tail, -⟩
      exact missing first last head tail

theorem step_block_enters {block storageAck aeStats final}
    (taken : step crypto staging (.block block storageAck aeStats final) = some after) :
    aeStats.view < staging.view ∧ after = staging ∨ ∃ entered, Enters crypto staging block aeStats entered ∧
        acceptBlock crypto entered block storageAck aeStats final = some after := by
  simp only [step, processBlockAsLeader, processBlockAsFollower] at taken
  split at taken
  · next leads =>
    split at taken
    · next old => exact .inl ⟨old, (some.inj taken).symm⟩
    · right
      split at taken
      · next same => exact ⟨_, .sameView same, (if_pos leads).trans taken⟩
      · exact ⟨_, .leaderJumps (by omega) leads, taken⟩
  · next follows =>
    split at taken
    · next old => exact .inl ⟨old, (some.inj taken).symm⟩
    · right
      split at taken
      · next same => exact ⟨_, .sameView same, (if_neg follows).trans taken⟩
      · exact ⟨_, .followerJumps (by omega) (by simpa using follows), taken⟩

variable (withQcs : crypto.config.features.noQc = false)
include withQcs

private theorem processVote_counts {sender vote} (result : processVote crypto staging sender vote = some after) :
    after = staging ∨ Counts crypto staging sender vote after := by
  rcases processVote_cases result with ⟨-, same⟩ | ⟨⟨sameView, first, head, last, tail, range⟩,
    crashed, counted, ends⟩
  · exact .inl same
  · rw [withQcs] at ends
    exact .inr ⟨sameView, ⟨first, last, head, tail, range⟩, ⟨crashed, counted, ends⟩⟩

private theorem acceptAsLeader_handles {entered block storageAck aeStats final}
    (leads : iAmLeader crypto.config entered = true)
    (result : acceptAsLeader crypto entered block storageAck aeStats final = some after) :
    Handles crypto entered block aeStats final after := by
  unfold acceptAsLeader at result
  dsimp only at result
  split at result
  · next broken =>
    cases result
    exact .reject (by simpa using broken)
  · next continuous =>
    have continuous : checkContinuity (settleForBlock entered block aeStats) block = true := by
      simpa using continuous
    split at result
    · next isFinal =>
      unfold voteOnLastBlockForSelf at result
      simp only [pushBlock, List.getLast?_append] at result
      rcases processVote_counts withQcs result with rfl | counts
      · exact .append leads continuous rfl
      · let pushed : Staging := { pushBlock (settleForBlock entered block aeStats) block final with
          storageAckBuffer := [] }
        have counts : Counts crypto pushed crypto.config.netConfig.name
            (voteFor pushed block (voteSignature crypto block)) after := counts
        have core : pushed.toStagingCore =
            (pushBlock (settleForBlock entered block aeStats) block final).toStagingCore := rfl
        exact .lead leads continuous core counts isFinal
    · cases result
      exact .append leads continuous rfl

private theorem acceptAsFollower_handles {entered block storageAck aeStats final}
    (follows : iAmLeader crypto.config entered = false)
    (result : acceptAsFollower crypto entered block storageAck aeStats final = some after) :
    Handles crypto entered block aeStats final after := by
  unfold acceptAsFollower at result
  dsimp only at result
  split at result
  · next broken =>
    cases result
    exact .reject (by simpa using broken)
  · next continuous =>
    unfold followBlock at result
    dsimp only at result
    split at result
    · cases result
    · next certified processed =>
      refine .follow follows (by simpa using continuous) processed ?_
      rw [withQcs] at result
      obtain ⟨voted, sends, rfl⟩ := map_eq_some_iff.mp result
      have sameCore : ∀ old : Bool, (checkGap crypto.config old voted).toStagingCore =
          voted.toStagingCore := fun old => by
        unfold checkGap
        dsimp only
        split <;> rfl
      cases final with
      | true =>
        have sends : sendVoteOnLastBlockToLeader crypto certified storageAck = some voted := sends
        exact .votes rfl sends (sameCore _)
      | false =>
        cases sends
        exact .waits rfl (sameCore _)

private theorem acceptBlock_handles {entered block storageAck aeStats final}
    (result : acceptBlock crypto entered block storageAck aeStats final = some after) :
    Handles crypto entered block aeStats final after := by
  unfold acceptBlock at result
  split at result
  · next leads => exact acceptAsLeader_handles withQcs leads result
  · next follows => exact acceptAsFollower_handles withQcs (by simpa using follows) result

theorem step_block {block storageAck aeStats final}
    (taken : step crypto staging (.block block storageAck aeStats final) = some after) :
    aeStats.view < staging.view ∧ after = staging ∨ ∃ entered, Enters crypto staging block aeStats entered ∧
        Handles crypto entered block aeStats final after :=
  (step_block_enters taken).imp_right fun ⟨entered, enters, accepted⟩ =>
    ⟨entered, enters, acceptBlock_handles withQcs accepted⟩

theorem step_transition {event} (taken : step crypto staging event = some after) :
    Transition crypto staging event after := by
  cases event with
  | timerTick enough => exact timerTick_transition taken
  | pacemaker cmd => exact pacemaker_transition taken
  | vote sender vote =>
    simp only [step] at taken
    split at taken
    · next leads =>
      unfold verifyAndProcessVote at taken
      split at taken
      · next valid =>
        rcases processVote_counts withQcs taken with rfl | counts
        · exact .idle rfl
        · exact .vote leads valid counts
      · cases taken
        exact .idle rfl
    · cases taken
      exact .idle rfl
  | block block storageAck aeStats final =>
    rcases step_block withQcs taken with ⟨-, rfl⟩ | ⟨_, enters, handles⟩
    · exact .idle rfl
    · cases handles with
      | reject broken => exact .reject enters broken
      | append leads continuous core => exact .append enters leads continuous core
      | lead leads continuous core counts isFinal => exact .lead enters leads continuous core counts isFinal
      | follow follows continuous processed ends => exact .follow enters follows continuous processed ends

end PirateShip.Staging
