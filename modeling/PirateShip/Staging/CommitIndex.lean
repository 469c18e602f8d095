import PirateShip.Staging.NewView
import PirateShip.Staging.Stored

/-! The commit index of the staging stage and what the other stages hear of it. The
broadcaster is told whenever the index rises. A proposal may lower it, and then nobody
but the application is told. -/

set_option autoImplicit false

namespace PirateShip.Staging

open List Option

variable {crypto : CryptoService} {staging middle after : Staging} {event : Event}
variable {viewNum configNum : Nat} {stat : ForkStat} {block : CachedBlock} {storageAck : StorageAck}
  {aeStats : AppendEntriesStats} {final : Bool}

def commitIndex? : BlockBroadcasterCommand → Option Nat
  | .updateCI ci => some ci
  | .nextAEForkPrefix _ => none

def newViewOrder? : BlockSequencerControlCommand → Option (Nat × Nat)
  | .newViewMessage view _ _ _ lastN => some (view, lastN)
  | _ => none

/-!
## Everything but a proposal
-/

/-- The commit index and the view rise, and the broadcaster hears of every index
on the way. -/
structure Tells (staging after : Staging) : Prop where
  ci : staging.ci ≤ after.ci
  view : staging.view ≤ after.view
  broadcaster : ∃ cmds, after.blockBroadcasterCommandTx = staging.blockBroadcasterCommandTx ++ cmds ∧
    ∀ ci ∈ cmds.filterMap commitIndex?, staging.ci < ci ∧ ci ≤ after.ci

theorem Tells.same (ci : after.ci = staging.ci) (view : staging.view ≤ after.view)
    (broadcaster : after.blockBroadcasterCommandTx = staging.blockBroadcasterCommandTx) : Tells staging after where
  ci := ci.ge
  view := view
  broadcaster := ⟨[], by rw [broadcaster, append_nil], nofun⟩

theorem Tells.trans (first : Tells staging middle) (second : Tells middle after) : Tells staging after := by
  obtain ⟨cmds, sent, rises⟩ := first.broadcaster
  obtain ⟨more, moreSent, moreRises⟩ := second.broadcaster
  refine ⟨first.ci.trans second.ci, first.view.trans second.view, ⟨cmds ++ more, ?_, ?_⟩⟩
  · rw [moreSent, sent, append_assoc]
  · intro ci member
    rw [filterMap_append, mem_append] at member
    rcases member with early | late
    · exact ⟨(rises ci early).1, (rises ci early).2.trans second.ci⟩
    · exact ⟨first.ci.trans_lt (moreRises ci late).1, (moreRises ci late).2⟩

theorem tells_respected : RespectsAll Tells where
  refl _ := .same rfl (Nat.le_refl _) rfl
  trans := .trans
  settle _ _ _ _ := .same rfl (Nat.le_refl _) rfl
  note _ _ _ _ := .same rfl (Nat.le_refl _) rfl
  sendQc _ _ := .same rfl (Nat.le_refl _) rfl
  noteCommit _ _ := .same rfl (Nat.le_refl _) rfl
  rollback _ _ := .same rfl (Nat.le_refl _) rfl
  crashCommit staging newCi higher := by
    refine ⟨higher.le, Nat.le_refl _, ⟨_, rfl, fun ci member => ?_⟩⟩
    cases mem_singleton.mp member
    exact ⟨higher, Nat.le_refl _⟩
  byzantineCommit _ _ _ _ := .same rfl (Nat.le_refl _) rfl
  stabilize _ _ := .same rfl (Nat.le_refl _) rfl
  markProposed _ _ _ := .same rfl (Nat.le_refl _) rfl
  jumpAsLeader _ _ _ later := .same rfl later.le rfl
  jumpAsFollower _ _ _ later := .same rfl later.le rfl
  updateView _ _ _ _ _ _ later := .same rfl later.le rfl
  queryPacemaker _ _ := .same rfl (Nat.le_refl _) rfl
  pushBlock _ _ _ := .same rfl (Nat.le_refl _) rfl
  storageAcks _ _ := .same rfl (Nat.le_refl _) rfl
  countVote _ _ _ := .same rfl (Nat.le_refl _) rfl
  sendVote _ _ _ _ := .same rfl (Nat.le_refl _) rfl

/-!
## Views
-/

theorem view_respected : RespectsBlocks fun staging after => after.view = staging.view where
  refl _ := rfl
  trans first second := second.trans first
  settle _ _ _ _ := rfl
  note _ _ _ _ := rfl
  sendQc _ _ := rfl
  noteCommit _ _ := rfl
  rollback _ _ := rfl
  crashCommit _ _ _ := rfl
  byzantineCommit _ _ _ _ := rfl
  stabilize _ _ := rfl
  markProposed _ _ _ := rfl
  pushBlock _ _ _ := rfl
  storageAcks _ _ := rfl
  countVote _ _ _ := rfl
  sendVote _ _ _ _ := rfl

/-- The view that an event other than a block can move the node to. -/
def movedTo (staging : Staging) : Event → Nat
  | .timerTick _ => staging.view + 1
  | .pacemaker (.updateView viewNum _) => viewNum
  | _ => staging.view

structure Moves (crypto : CryptoService) (staging : Staging) (event : Event) (after : Staging) : Prop where
  ci : after.ci = staging.ci
  blocks : after.blocks = staging.blocks
  view : after.view = staging.view ∨ MovesView crypto staging event ∧ after.view = movedTo staging event

theorem maybeUpdateView_moves
    (moves : staging.view < viewNum → MovesView crypto staging event) (target : movedTo staging event = viewNum)
    (result : maybeUpdateView crypto staging viewNum configNum = some after) : Moves crypto staging event after := by
  unfold maybeUpdateView at result
  split at result
  · cases result
    exact ⟨rfl, rfl, .inl rfl⟩
  · next higher =>
    simp only [updateView] at result
    split at result
    · cases result
    · split at result
      · cases result
      · cases result
        exact ⟨rfl, rfl, .inr ⟨moves (Nat.lt_of_not_le higher), target.symm⟩⟩

theorem timerTick_moves {enough} (taken : step crypto staging (.timerTick enough) = some after) :
    Moves crypto staging (.timerTick enough) after := by
  simp only [step, handleViewChangeTimerTick] at taken
  split at taken
  · cases taken
    exact ⟨rfl, rfl, .inl rfl⟩
  · next enabled =>
    have enabled : crypto.config.features.viewChange = true := by simpa using enabled
    split at taken
    · next ready =>
      refine maybeUpdateView_moves (fun _ => ⟨enabled, ?_⟩) rfl taken
      exact ready.imp_right .inl
    · split at taken
      · cases taken
        exact ⟨rfl, rfl, .inl rfl⟩
      · next answered =>
        have answered : enough = true := by simpa using answered
        split at taken
        · next retried =>
          obtain ⟨moved, updated, rfl⟩ := map_eq_some_iff.mp taken
          -- The query to the pacemaker does not count.
          have moves : Moves crypto { staging with pacemakerTx := staging.pacemakerTx ++
              [.queryEnoughVCMsg staging.view staging.configNum] } (.timerTick enough) moved :=
            maybeUpdateView_moves (fun _ => ⟨enabled, .inr (.inr ⟨answered, retried⟩)⟩) rfl updated
          exact ⟨moves.ci, moves.blocks, moves.view⟩
        · cases taken
          exact ⟨rfl, rfl, .inl rfl⟩

/-!
## Proposals
-/

def firstNumber (vc : ProtoViewChange) : Nat :=
  ((vc.fork.bind fun fork => fork.serializedBlocks.head?).map (·.n)).getD 0

def lastNumber (vc : ProtoViewChange) : Nat :=
  ((vc.fork.bind fun fork => fork.serializedBlocks.getLast?).map (·.n)).getD 0

/-- Blocks up to the byzantine commit index and below the chosen fork stay pending,
and all of them if the fork is empty. -/
def Retained (staging : Staging) (vc : ProtoViewChange) (block : CachedBlock) : Prop :=
  block.block.n ≤ staging.bci ∨ block.block.n < firstNumber vc ∨ lastNumber vc = 0

instance (staging : Staging) (vc : ProtoViewChange) : DecidablePred (Retained staging vc) :=
  fun _ => inferInstanceAs (Decidable (_ ∨ _))

structure Proposed (crypto : CryptoService) (staging : Staging) (vc : ProtoViewChange) (after : Staging) : Prop where
  unstable : staging.viewIsStable = false
  leads : iAmLeader crypto.config staging = true
  view : after.view = staging.view
  broadcaster : ∃ fork,
    after.blockBroadcasterCommandTx = staging.blockBroadcasterCommandTx ++ [.nextAEForkPrefix fork]
  sequencer : ∃ validation hash, after.blockSequencerCommandTx = staging.blockSequencerCommandTx ++
    [.newViewMessage staging.view staging.configNum validation hash (lastNumber vc)]
  kept : ∀ block ∈ after.blocks, block ∈ staging.blocks ∧ Retained staging vc block

theorem retained_of_check {retainN} (check : checkByzCommitInvariant staging stat = some retainN) :
    retainN ≤ staging.bci ∨ retainN < stat.firstN ∨ stat.forkLastN = 0 := by
  unfold checkByzCommitInvariant at check
  split at check
  · cases check
    exact .inl (Nat.zero_le _)
  · split at check
    · cases check
    · split at check
      · next empty => exact .inr (.inr empty)
      · split at check
        · split at check
          · cases check
            exact .inl (Nat.le_refl _)
          · cases check
        · split at check
          · split at check
            · cases check
              exact .inl (Nat.le_refl _)
            · cases check
          · dsimp only at check
            split at check
            · cases check
              right
              left
              omega
            · cases check

theorem numbers_of_sendBlocks {vc}
    (sends : sendBlocksToBroadcasterAndGetStats crypto staging vc = some (after, stat)) :
    stat.firstN = firstNumber vc ∧ stat.forkLastN = lastNumber vc := by
  unfold sendBlocksToBroadcasterAndGetStats at sends
  split at sends
  · next fork minQcLen present threshold =>
    split at sends
    · cases sends
    · obtain ⟨parent, -, same⟩ := map_eq_some_iff.mp sends
      cases same
      simp [firstNumber, lastNumber, present]
  · cases sends

theorem proposeNewView_proposed {forks}
    (result : proposeNewView crypto staging viewNum configNum forks = some after) : after = staging ∨
      ∃ vc, chosenVc crypto forks = some vc ∧ viewNum = staging.view ∧ configNum = staging.configNum ∧
        Proposed crypto staging vc after := by
  cases proposeNewView_decides result with
  | turnedAway _ => exact .inl rfl
  | proposes vc sent stat validation retainN inView inConfig unstable leads _ picked sends check =>
    obtain ⟨first, last⟩ := numbers_of_sendBlocks sends
    have retained := retained_of_check check
    rw [first, last] at retained
    obtain ⟨fork, -, rfl⟩ := sendBlocks_eq sends
    obtain ⟨broadcaster, sequencer, view, config⟩ := sent_truncateForNewView
      { staging with
        blockBroadcasterCommandTx := staging.blockBroadcasterCommandTx ++ [.nextAEForkPrefix fork] } retainN
    refine .inr ⟨vc, picked, inView, inConfig, ⟨unstable, leads, view, ⟨fork, broadcaster⟩, ?_, fun block held => ?_⟩⟩
    · rw [sequencer, view, config, last]
      exact ⟨_, _, rfl⟩
    · have held : block ∈ (truncateForNewView { staging with blockBroadcasterCommandTx :=
          staging.blockBroadcasterCommandTx ++ [.nextAEForkPrefix fork] } retainN).blocks := held
      rw [blocks_truncateForNewView, mem_filter, decide_eq_true_eq] at held
      exact ⟨held.1, retained.imp held.2.trans (.imp held.2.trans_lt id)⟩

theorem step_view (taken : step crypto staging event = some after) : after.view = staging.view ∨
    Moves crypto staging event after ∨ ∃ block storageAck aeStats final,
      event = .block block storageAck aeStats final ∧ staging.view < aeStats.view ∧ after.view = aeStats.view := by
  cases event with
  | timerTick enough => exact .inr (.inl (timerTick_moves taken))
  | vote sender vote =>
    left
    exact view_respected.stepVote taken
  | pacemaker cmd =>
    cases cmd with
    | updateView viewNum configNum => exact .inr (.inl (maybeUpdateView_moves id rfl taken))
    | newViewForks viewNum configNum forks =>
      left
      rcases proposeNewView_proposed taken with rfl | ⟨_, _, _, _, proposed⟩
      · rfl
      · exact proposed.view
    | queryEnoughVCMsg | myViewJumped | updateBCI => cases taken
  | block block storageAck aeStats final =>
    rcases step_block_enters taken with ⟨-, rfl⟩ | ⟨entered, enters, accepted⟩
    · exact .inl rfl
    · have inView := view_respected.acceptBlock accepted
      cases enters with
      | sameView => exact .inl inView
      | leaderJumps later | followerJumps later =>
        exact .inr (.inr ⟨block, storageAck, aeStats, final, rfl, later, inView⟩)

/-!
## The commit index of a leader
-/

theorem ci_maybeCrashCommit (result : maybeCrashCommit crypto staging = some after) :
    after.ci = staging.ci ∨ ∃ block ∈ staging.blocks, block.block.n = after.ci := by
  obtain ⟨thresh, -, rfl⟩ := map_eq_some_iff.mp result
  obtain ⟨-, reached, -⟩ := crashCommitIndex_spec thresh staging.ci staging.pendingBlocks
  simp only [doCrashCommit]
  split
  · exact .inl rfl
  · rcases reached with same | ⟨entry, member, isCi, -⟩
    · exact .inl same
    · exact .inr ⟨entry.block, mem_map_of_mem member, isCi⟩

theorem ci_processVote {sender vote} (result : processVote crypto staging sender vote = some after) :
    after.ci = staging.ci ∨ ∃ block ∈ staging.blocks, block.block.n = after.ci := by
  rcases processVote_cases result with ⟨-, rfl⟩ | ⟨-, crashed, committed, ends⟩
  · exact .inl rfl
  · have crashes := ci_maybeCrashCommit committed
    rw [blocks_countVote] at crashes
    split at ends
    · cases ends
      rw [(commits_respected.doByzantineCommit _ _ _).1]
      exact crashes
    · rw [(commits_respected.maybeCreateQcs ends).1]
      exact crashes

theorem ci_acceptAsLeader (result : acceptAsLeader crypto staging block storageAck aeStats final = some after) :
    after.ci = staging.ci ∨ ∃ counted ∈ staging.blocks ++ [block], counted.block.n = after.ci := by
  have settled := (commits_respected.settleForBlock staging block aeStats).1
  have kept := (drops_respected.settleForBlock staging block aeStats).blocks
  simp only [acceptAsLeader] at result
  generalize settleForBlock staging block aeStats = ready at *
  rw [← settled]
  split at result
  · cases result
    exact .inl rfl
  · split at result
    · unfold voteOnLastBlockForSelf at result
      split at result
      · cases result
      · rcases ci_processVote result with same | ⟨counted, held, isCi⟩
        · exact .inl same
        · have held : counted ∈ (pushBlock ready block final).blocks := held
          rw [blocks_pushBlock, mem_append] at held
          exact .inr ⟨counted, mem_append.mpr (held.imp_left (kept ·)), isCi⟩
    · cases result
      exact .inl rfl

/-- The pending blocks of a step, and the commit index if it changes, stay within
a bound. -/
structure Within (bound : Nat) (staging after : Staging) : Prop where
  blocks : ∀ block ∈ after.blocks, block.block.n ≤ bound
  ci : after.ci = staging.ci ∨ after.ci ≤ bound

theorem step_within {bound} (taken : step crypto staging event = some after)
    (leads : iAmLeader crypto.config staging = true) (same : after.view = staging.view)
    (silent : ∀ viewNum configNum forks, event ≠ .pacemaker (.newViewForks viewNum configNum forks))
    (held : ∀ block ∈ staging.blocks, block.block.n ≤ bound)
    (handed : ∀ block storageAck aeStats final, event = .block block storageAck aeStats final →
      aeStats.view = staging.view → block.block.n ≤ bound) : Within bound staging after := by
  have unmoved (moves : Moves crypto staging event after) : Within bound staging after :=
    ⟨moves.blocks ▸ held, .inl moves.ci⟩
  have bounded {others : List CachedBlock} (within : ∀ block ∈ others, block.block.n ≤ bound) :
      (∃ counted ∈ others, counted.block.n = after.ci) → after.ci ≤ bound := by
    rintro ⟨counted, member, isCi⟩
    exact isCi ▸ within counted member
  cases event with
  | timerTick enough => exact unmoved (timerTick_moves taken)
  | vote sender vote =>
    refine ⟨fun block member => held block ((vote_drops taken).1 member), ?_⟩
    simp only [step, leads, if_true, verifyAndProcessVote] at taken
    split at taken
    · exact (ci_processVote taken).imp_right (bounded held)
    · cases taken
      exact .inl rfl
  | pacemaker cmd =>
    cases cmd with
    | updateView viewNum configNum => exact unmoved (maybeUpdateView_moves id rfl taken)
    | newViewForks viewNum configNum forks => exact absurd rfl (silent viewNum configNum forks)
    | queryEnoughVCMsg | myViewJumped | updateBCI => cases taken
  | block block storageAck aeStats final =>
    simp only [step, leads, if_true, processBlockAsLeader] at taken
    split at taken
    · cases taken
      exact ⟨held, .inl rfl⟩
    · split at taken
      · next inView =>
        have within : ∀ other ∈ staging.blocks ++ [block], other.block.n ≤ bound := by
          intro other member
          rcases mem_append.mp member with old | new
          · exact held other old
          · exact mem_singleton.mp new ▸ handed block storageAck aeStats final rfl inView
        exact ⟨fun other member => within other ((acceptAsLeader_outcome taken).blocks member),
          (ci_acceptAsLeader taken).imp_right (bounded within)⟩
      · next elsewhere =>
        exact absurd ((view_respected.acceptBlock taken).symm.trans same) elsewhere

end PirateShip.Staging
