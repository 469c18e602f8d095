import PirateShip.Staging.ChainInvariant
import PirateShip.Staging.Operations

/-! A block that the stage does not append. The branches for an unstable view and for a
higher view cut the log before the continuity check decides about the block, so that
a rejected block leaves the log intact only where neither is taken. -/

set_option autoImplicit false

namespace PirateShip.Staging

open List

variable {crypto : CryptoService} {staging entered after : Staging} {block : CachedBlock}
  {storageAck : StorageAck} {aeStats : AppendEntriesStats} {asLeader final : Bool}

def processBlock (crypto : CryptoService) (asLeader : Bool) (staging : Staging) (block : CachedBlock)
    (storageAck : StorageAck) (aeStats : AppendEntriesStats) (final : Bool) : Option Staging :=
  if asLeader then processBlockAsLeader crypto staging block storageAck aeStats final
  else processBlockAsFollower crypto staging block storageAck aeStats final

/-- The pending blocks and signatures and the commit index are as before, and no
rollback has been sent. -/
structure Intact (staging after : Staging) : Prop where
  pendingBlocks : after.pendingBlocks = staging.pendingBlocks
  pendingSignatures : after.pendingSignatures = staging.pendingSignatures
  ci : after.ci = staging.ci
  appTx : ∃ sent, after.appTx = staging.appTx ++ sent ∧ ∀ n, .rollback n ∉ sent
  logserverTx : ∃ sent, after.logserverTx = staging.logserverTx ++ sent ∧ ∀ n, .rollback n ∉ sent

theorem Intact.refl (staging) : Intact staging staging := ⟨rfl, rfl, rfl, ⟨[], by simp⟩, ⟨[], by simp⟩⟩

/-!
## Appended blocks
-/

theorem appended_respected : RespectsBlocks fun staging after => staging.appended <+: after.appended where
  refl _ := prefix_rfl
  trans := .trans
  settle _ _ _ _ := prefix_rfl
  note _ _ _ _ := prefix_rfl
  sendQc _ _ := prefix_rfl
  noteCommit _ _ := prefix_rfl
  rollback staging n := by simp [Staging.rollback, StagingCore.appended]
  crashCommit _ _ _ := prefix_rfl
  byzantineCommit _ _ _ _ := by simp [StagingCore.appended]
  stabilize _ _ := prefix_rfl
  markProposed _ _ _ := prefix_rfl
  pushBlock staging block final := by
    rw [appended_pushBlock]
    exact prefix_append _ _
  storageAcks _ _ := prefix_rfl
  countVote _ _ _ := prefix_rfl
  sendVote _ _ _ _ := prefix_rfl

theorem appended_settleForBlock (staging block aeStats) :
    (settleForBlock staging block aeStats).appended = staging.appended := by
  rw [settleForBlock_core]
  split
  · rfl
  · simp [Staging.rollback, StagingCore.appended, LogServerCommand.block?]

theorem accept_rejected (result : (if asLeader then acceptAsLeader crypto staging block storageAck aeStats final
      else acceptAsFollower crypto staging block storageAck aeStats final) = some after)
    (rejected : after.appended = staging.appended) : after = settleForBlock staging block aeStats := by
  have pushed : ¬ (pushBlock (settleForBlock staging block aeStats) block final).appended <+: after.appended := by
    intro grows
    rw [appended_pushBlock, appended_settleForBlock, rejected] at grows
    have longer := grows.length_le
    rw [length_append, length_singleton] at longer
    omega
  cases asLeader with
  | true =>
    simp only [if_true, acceptAsLeader] at result
    split at result
    · exact (Option.some.inj result).symm
    · exact absurd (appended_respected.endsLeading result) pushed
  | false =>
    simp only [Bool.false_eq_true, if_false, acceptAsFollower] at result
    split at result
    · exact (Option.some.inj result).symm
    · exact absurd (appended_respected.followBlock result) pushed

/-!
## Rollbacks
-/

def SendsRollback (staging after : Staging) : Prop :=
  ∃ sent n, after.appTx = staging.appTx ++ sent ∧ .rollback n ∈ sent

theorem SendsRollback.not_intact (sends : SendsRollback staging after) : ¬ Intact staging after := by
  intro intact
  obtain ⟨sent, n, grown, member⟩ := sends
  obtain ⟨others, same, none⟩ := intact.appTx
  have equal : sent = others := append_cancel_left (grown.symm.trans same)
  exact none n (equal ▸ member)

theorem settleForBlock_sendsRollback (entered block)
    (unsettled : ¬ (entered.viewIsStable = true ∧ aeStats.viewIsStable = true))
    (kept : ∃ sent, entered.appTx = staging.appTx ++ sent) :
    SendsRollback staging (settleForBlock entered block aeStats) := by
  obtain ⟨sent, grown⟩ := kept
  refine ⟨sent ++ [.rollback (wrappingPred block.block.n)], wrappingPred block.block.n, ?_, by simp⟩
  rw [settleForBlock_core, if_neg unsettled]
  simp [Staging.rollback, grown]

theorem settleForBlock_stable (stays : staging.viewIsStable = true ∧ aeStats.viewIsStable = true) :
    settleForBlock staging block aeStats = staging := by
  obtain ⟨stable, aeStable⟩ := stays
  have same : settleStability staging aeStats = staging := by
    simp only [settleStability, stable, aeStable, Bool.true_or, if_true]
    rw [← stable]
  simp [settleForBlock, same, stable]

theorem rejected_jump (jumped : entered.viewIsStable = false) (kept : ∃ sent, entered.appTx = staging.appTx ++ sent)
    (same : entered.appended = staging.appended)
    (result : acceptBlock crypto entered block storageAck aeStats final = some after)
    (rejected : after.appended = staging.appended) : SendsRollback staging after := by
  rw [accept_rejected result (rejected.trans same.symm)]
  exact settleForBlock_sendsRollback entered block (by simp [jumped]) kept

/-- A block that is not appended leaves the log intact exactly when it is of a lower
view, or of the current one and both sides take this view for stable. -/
theorem rejected_intact_iff
    (result : processBlock crypto asLeader staging block storageAck aeStats final = some after)
    (rejected : after.appended = staging.appended) :
    Intact staging after ↔ aeStats.view < staging.view ∨
      aeStats.view = staging.view ∧ staging.viewIsStable = true ∧ aeStats.viewIsStable = true := by
  rcases Nat.lt_trichotomy aeStats.view staging.view with lower | same | higher
  · have unchanged : after = staging := by
      cases asLeader <;>
        simpa [processBlock, processBlockAsLeader, processBlockAsFollower, lower] using result.symm
    exact ⟨fun _ => .inl lower, fun _ => unchanged ▸ .refl staging⟩
  · have settled : after = settleForBlock staging block aeStats := by
      simp only [processBlock, processBlockAsLeader, processBlockAsFollower, same, lt_irrefl, if_false,
        if_true] at result
      exact accept_rejected result rejected
    by_cases stays : staging.viewIsStable = true ∧ aeStats.viewIsStable = true
    · rw [settled, settleForBlock_stable stays]
      exact ⟨fun _ => .inr ⟨same, stays⟩, fun _ => .refl staging⟩
    · have cut : SendsRollback staging after :=
        settled ▸ settleForBlock_sendsRollback staging block stays ⟨[], (append_nil _).symm⟩
      simp [cut.not_intact, same, stays]
  · have cut : SendsRollback staging after := by
      cases asLeader with
      | true =>
        simp only [processBlock, processBlockAsLeader, higher.not_gt, higher.ne'] at result
        refine rejected_jump rfl ⟨_, rfl⟩ ?_ result rejected
        simp [jumpAsLeader, clearVotes, cancelRequests, announceView, Staging.rollback, StagingCore.appended,
          LogServerCommand.block?]
      | false =>
        simp only [processBlock, processBlockAsFollower, higher.not_gt, higher.ne', Bool.false_eq_true,
          if_false] at result
        have kept : (jumpAsFollower staging block aeStats).appTx = staging.appTx ++ [] :=
          (append_nil _).symm
        exact rejected_jump rfl ⟨[], kept⟩ rfl result rejected
    simp [cut.not_intact, higher.not_gt, higher.ne']

def twoPending (viewIsStable : Bool) : Staging where
  ci := 2
  view := 1
  viewIsStable
  pendingBlocks := [{ block := sampleBlock 1 1 1 0 [] }, { block := sampleBlock 2 1 2 1 [] }]

def orphanBlock : CachedBlock := sampleBlock 2 1 9 8 []

def statsOfView (view : Nat) (viewIsStable : Bool) : AppendEntriesStats where
  view
  viewIsStable
  configNum := 1
  sender := "node1"
  ci := 0

theorem intact_in_stable_view :
    checkContinuity (twoPending true) orphanBlock = false ∧ Intact (twoPending true) (twoPending true) := by
  refine ⟨by decide, ?_⟩
  have result : processBlock (threeNodes "node2") false (twoPending true) orphanBlock (.ok ())
      (statsOfView 1 true) true = some (twoPending true) := rfl
  exact (rejected_intact_iff result rfl).mpr (.inr (by decide))

/-- In an unstable view the same block costs the follower its second block. -/
theorem rejected_block_cuts_log :
    ∃ after, processBlock (threeNodes "node2") false (twoPending false) orphanBlock (.ok ())
        (statsOfView 1 false) true = some after ∧
      after.appended = (twoPending false).appended ∧
      after.blocks = [sampleBlock 1 1 1 0 []] ∧ after.ci = 2 ∧
      .rollback 1 ∈ after.appTx ∧ .rollback 1 ∈ after.logserverTx :=
  ⟨(twoPending false).rollback 1, rfl, rfl, rfl, rfl, mem_singleton_self _, mem_singleton_self _⟩

end PirateShip.Staging
