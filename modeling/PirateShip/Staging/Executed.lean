import PirateShip.Staging.ChainInvariant
import PirateShip.Staging.Operations

/-! The blocks that were ever executed. A rollback may take one out of the log again,
but as long as no other block takes its place, the log agrees with it wherever it
reaches. -/

set_option autoImplicit false

namespace PirateShip

open List HashLinked

/-- The blocks of all `CrashCommit` batches, in the order they were sent. -/
def crashCommitted (commands : List AppCommand) : List CachedBlock :=
  commands.flatMap fun
    | .crashCommit blocks => blocks
    | _ => []

def StagingCore.executed (core : StagingCore) : List CachedBlock := crashCommitted core.appTx

namespace Staging

variable {crypto : CryptoService} {staging entered after : Staging} {core next : StagingCore} {block : CachedBlock}
variable {aeStats : AppendEntriesStats} {final : Bool} {event : Event}

/-!
## Operations
-/

theorem executed_rollback (n) : (staging.rollback n).executed = staging.executed := by
  simp [rollback, StagingCore.executed, crashCommitted]

theorem executed_respected : RespectsCreate fun staging after => after.executed = staging.executed where
  refl _ := rfl
  trans first second := second.trans first
  settle _ _ _ _ := rfl
  rollback _ _ := executed_rollback _
  note _ _ _ _ := rfl
  byzantineCommit _ _ _ _ := by simp [StagingCore.executed, crashCommitted]
  stabilize _ _ := rfl
  sendQc _ _ := rfl
  markProposed _ _ _ := rfl

theorem Enters.executed (enters : Enters crypto staging block aeStats entered) :
    entered.executed = staging.executed := by
  cases enters with
  | sameView => rfl
  | leaderJumps => exact executed_rollback _
  | followerJumps => rfl

theorem executed_truncateForNewView (retainN) : (truncateForNewView staging retainN).executed = staging.executed := by
  unfold truncateForNewView
  dsimp only
  split
  · simp [StagingCore.executed, crashCommitted]
  · rfl

theorem executed_doCrashCommit {oldCi newCi} (member : block ∈ (doCrashCommit staging oldCi newCi).executed) :
    block ∈ staging.executed ∨ block ∈ staging.blocks := by
  rw [doCrashCommit_core] at member
  split at member
  · exact .inl member
  · simp only [StagingCore.executed, crashCommitted, flatMap_append, flatMap_singleton, mem_append] at member
    exact member.imp_right mem_of_mem_filter

theorem Counts.executed {sender vote} (counts : Counts crypto staging sender vote after)
    (member : block ∈ after.executed) : block ∈ staging.executed ∨ block ∈ staging.blocks := by
  obtain ⟨_, crashes, creates⟩ := counts.result
  obtain ⟨_, -, rfl⟩ := Option.map_eq_some_iff.mp crashes
  rw [executed_respected.maybeCreateQcs creates] at member
  have before := executed_doCrashCommit member
  rwa [← blocks_countVote sender vote]

theorem EndsFollowing.executed (ends : EndsFollowing crypto staging final after) :
    after.executed = staging.executed := by
  obtain ⟨_, _, core⟩ := ends.core
  rw [core]
  rfl

/-!
## What is sent stays sent
-/

def Sends (staging after : Staging) : Prop := staging.appTx <+: after.appTx

theorem Sends.same (app : after.appTx = staging.appTx) : Sends staging after := by
  unfold Sends
  rw [app]

theorem sends_respected : RespectsAll Sends where
  refl _ := .same rfl
  trans := List.IsPrefix.trans
  settle _ _ _ _ := .same rfl
  note _ _ _ _ := .same rfl
  sendQc _ _ := .same rfl
  noteCommit _ _ := .same rfl
  rollback _ _ := prefix_append _ _
  crashCommit _ _ _ := prefix_append _ _
  byzantineCommit _ _ _ _ := prefix_append _ _
  stabilize _ _ := .same rfl
  markProposed _ _ _ := .same rfl
  jumpAsLeader _ _ _ _ := prefix_append _ _
  jumpAsFollower _ _ _ _ := .same rfl
  updateView _ _ _ _ _ _ _ := .same rfl
  queryPacemaker _ _ := .same rfl
  pushBlock _ _ _ := .same rfl
  storageAcks _ _ := .same rfl
  countVote _ _ _ := .same rfl
  sendVote _ _ _ _ := .same rfl

theorem step_sends (taken : step crypto staging event = some after) : Sends staging after := by
  refine sends_respected.step (fun _ result => ?_) taken
  cases proposeNewView_decides result with
  | turnedAway _ => exact .same rfl
  | proposes _ _ _ _ _ _ _ _ _ _ _ sends _ =>
    unfold Sends
    rw [← sendBlocks_core sends]
    unfold truncateForNewView
    dsimp only
    split
    · exact prefix_append _ _
    · exact prefix_rfl

theorem Sends.executed (sends : Sends staging after) : staging.executed <+: after.executed := by
  obtain ⟨_, sent⟩ := sends
  rw [StagingCore.executed, StagingCore.executed, ← sent, crashCommitted, crashCommitted, flatMap_append]
  exact prefix_append _ _

theorem Sends.committed (sends : Sends staging after) : staging.committed <+: after.committed := by
  obtain ⟨_, sent⟩ := sends
  rw [StagingCore.committed, StagingCore.committed, ← sent, byzCommitted, byzCommitted, flatMap_append]
  exact prefix_append _ _

/-!
## What a step executes
-/

theorem mem_log_of_mem_blocks (member : block ∈ core.blocks) : block ∈ core.log := mem_append_right _ member

theorem Handles.executed {storageAck} (handles : Handles crypto entered block aeStats final after)
    (inv : ChainInv staging.toStagingCore) (ok : ChainOk staging (.block block storageAck aeStats final))
    (enters : Enters crypto staging block aeStats entered) :
    (∀ other ∈ after.executed, other ∈ staging.executed ∨ other ∈ after.log) ∧
      ∀ other ∈ after.log, other ∈ staging.log ∨ other = block := by
  have settled : (settleForBlock entered block aeStats).executed = staging.executed :=
    (executed_respected.settleForBlock _ _ aeStats).trans enters.executed
  have shorter : (settleForBlock entered block aeStats).log <+: staging.log :=
    (settleForBlock_cut (inv.cut (enters.cut inv)) block aeStats).log.trans (enters.cut inv).log
  cases continuous : checkContinuity (settleForBlock entered block aeStats) block with
  | false =>
    have rejected : after = settleForBlock entered block aeStats := by
      cases handles with
      | reject => rfl
      | append _ accepted | lead _ accepted | follow _ accepted => simp [continuous] at accepted
    rw [rejected]
    exact ⟨fun other member => .inl (settled ▸ member), fun other member => .inl (shorter.subset member)⟩
  | true =>
    have grown := (handles.chain inv ok enters continuous).2
    obtain ⟨-, pushed, -⟩ := pushBlock_chain inv ok enters continuous
    have inLog (other : CachedBlock) (member : other ∈ (settleForBlock entered block aeStats).executed ∨
        other ∈ (pushBlock (settleForBlock entered block aeStats) block final).blocks) :
        other ∈ staging.executed ∨ other ∈ after.log := by
      refine member.imp (fun earlier => settled ▸ earlier) fun pending => ?_
      rw [grown, ← pushed]
      exact mem_log_of_mem_blocks pending
    constructor
    · intro other member
      refine inLog other ?_
      cases handles with
      | reject broken => simp [continuous] at broken
      | append _ _ core =>
        rw [core] at member
        exact .inl member
      | lead _ _ core counts =>
        have before := counts.executed member
        rw [core] at before
        exact before
      | follow _ _ processed ends =>
        rw [ends.executed, executed_respected.processQcs processed] at member
        unfold crashAsFollower at member
        split at member
        · exact executed_doCrashCommit member
        · exact .inl member
    · intro other member
      rw [grown, mem_append, mem_singleton] at member
      exact member.imp_left fun earlier => shorter.subset earlier

def Offers (staging : Staging) (block : CachedBlock) : Event → Prop
  | .block other _ aeStats _ => other = block ∧ staging.view ≤ aeStats.view
  | _ => False

theorem Transition.executed (transition : Transition crypto staging event after)
    (inv : ChainInv staging.toStagingCore) (ok : ChainOk staging event) :
    (∀ block ∈ after.executed, block ∈ staging.executed ∨ block ∈ after.log) ∧
      ∀ block ∈ after.log, block ∈ staging.log ∨ Offers staging block event := by
  have handled {block : CachedBlock} {storageAck : StorageAck} {aeStats : AppendEntriesStats} {final : Bool}
      {entered : Staging} (enters : Enters crypto staging block aeStats entered)
      (handles : Handles crypto entered block aeStats final after)
      (ok : ChainOk staging (.block block storageAck aeStats final)) :
      (∀ other ∈ after.executed, other ∈ staging.executed ∨ other ∈ after.log) ∧
        ∀ other ∈ after.log, other ∈ staging.log ∨ Offers staging other (.block block storageAck aeStats final) := by
    obtain ⟨executed, log⟩ := handles.executed inv ok enters
    exact ⟨executed, fun other member => (log other member).imp_right fun same => ⟨same.symm, enters.view.1⟩⟩
  cases transition with
  | idle core =>
    rw [core]
    exact ⟨fun _ member => .inl member, fun _ member => .inl member⟩
  | enterView _ _ core =>
    rw [core]
    exact ⟨fun _ member => .inl member, fun _ member => .inl member⟩
  | newView _ _ _ _ core =>
    rw [core]
    exact ⟨fun _ member => .inl (executed_truncateForNewView _ ▸ member),
      fun _ member => .inl ((truncateForNewView_cut inv _).log.subset member)⟩
  | vote _ _ counts =>
    have same := (counts.chain inv).2
    rw [same]
    exact ⟨fun _ member => (counts.executed member).imp_right mem_log_of_mem_blocks, fun _ member => .inl member⟩
  | reject enters broken => exact handled enters (.reject broken) ok
  | append enters leads continuous core => exact handled enters (.append leads continuous core) ok
  | lead enters leads continuous core counts isFinal =>
    exact handled enters (.lead leads continuous core counts isFinal) ok
  | follow enters follows continuous processed ends =>
    exact handled enters (.follow follows continuous processed ends) ok

/-!
## No other block takes the place
-/

/-- A block is not accepted at the number of another block that was executed. -/
def KeepsExecuted (staging : Staging) : Event → Prop
  | .block block _ aeStats _ => staging.view ≤ aeStats.view →
    ∀ other ∈ staging.executed, other.block.n = block.block.n → other.blockHash = block.blockHash
  | _ => True

instance (staging : Staging) : ∀ event, Decidable (KeepsExecuted staging event)
  | .block .. => inferInstanceAs (Decidable (_ → _))
  | .timerTick _ | .vote .. | .pacemaker _ => inferInstanceAs (Decidable True)

def PositionOk (staging : Staging) (event : Event) : Prop := ChainOk staging event ∧ KeepsExecuted staging event

instance (staging : Staging) (event : Event) : Decidable (PositionOk staging event) :=
  inferInstanceAs (Decidable (_ ∧ _))

def Agrees (core : StagingCore) : Prop :=
  ∀ block ∈ core.executed, 0 < block.block.n ∧
    ∀ other ∈ core.log, other.block.n = block.block.n → other.blockHash = block.blockHash

theorem Transition.agrees (transition : Transition crypto staging event after)
    (inv : ChainInv staging.toStagingCore) (ok : PositionOk staging event) (agrees : Agrees staging.toStagingCore) :
    Agrees after.toStagingCore := by
  have chain := (transition.chain inv ok.1).chain
  obtain ⟨executed, log⟩ := transition.executed inv ok.1
  intro block member
  rcases executed block member with earlier | inLog
  · refine ⟨(agrees block earlier).1, fun other held number => ?_⟩
    rcases log other held with before | offers
    · exact (agrees block earlier).2 other before number
    · cases event with
      | block =>
        obtain ⟨rfl, notOld⟩ := offers
        exact (ok.2 notOld block earlier number.symm).symm
      | timerTick | vote | pacemaker => cases offers
  · refine ⟨(chain.seq_mem inLog).1, fun other held number => ?_⟩
    rw [chain.eq_of_seq_eq held inLog number]

theorem agrees_new (config) : Agrees (new config).toStagingCore := by
  unfold new
  split <;> exact forall_mem_nil _

theorem Agrees.committed (agrees : Agrees core) (inv : ChainInv core) (executed : block ∈ core.executed)
    (below : block.block.n ≤ core.bci) : block.blockHash ∈ core.committed.map (·.blockHash) := by
  obtain ⟨positive, same⟩ := agrees block executed
  have chain := (follows_append.mp inv.chain).1
  obtain ⟨other, member, number⟩ := chain.exists_seq positive (by rwa [Nat.zero_add, inv.length])
  exact mem_map.mpr ⟨other, member, same other (mem_append_left _ member) number⟩

end Staging

end PirateShip
