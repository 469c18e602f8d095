import Mathlib.Order.Bounds.Basic
import PirateShip.Staging.CommitIndex
import PirateShip.Staging.VoteScope

/-! The names on the leader's pending blocks. `maybe_crash_commit` moves to the last
block with a quorum and does not look at those in between; they have a quorum because
a vote for a block counts on all blocks below it. -/

set_option autoImplicit false

namespace PirateShip.Staging

open List StepSystem Option

variable {crypto : CryptoService} {staging middle after : Staging}
variable {block : CachedBlock} {sender : String}

/-- One of the two blocks is of the view. -/
def Touches (view : Nat) (entry later : CachedBlock) : Prop := entry.block.view = view ∨ later.block.view = view

/-- Who is on the later of two related blocks is on the earlier one, too. -/
def Nested (own : CachedBlock → CachedBlock → Prop) (pending : List CachedBlockWithVotes) : Prop :=
  ∀ entry ∈ pending, ∀ later ∈ pending, own entry.block later.block → entry.n ≤ later.n →
    later.replicationSet ⊆ entry.replicationSet

/-!
## Operations that do not count
-/

def Keeps (staging after : Staging) : Prop :=
  ∀ entry ∈ after.pendingBlocks, ∃ old ∈ staging.pendingBlocks,
    entry.block = old.block ∧ entry.replicationSet = old.replicationSet

theorem Keeps.of_subset (fewer : after.pendingBlocks ⊆ staging.pendingBlocks) : Keeps staging after :=
  fun entry member => ⟨entry, fewer member, rfl, rfl⟩

theorem Keeps.trans (first : Keeps staging middle) (second : Keeps middle after) : Keeps staging after := by
  intro entry member
  obtain ⟨between, held, block, names⟩ := second entry member
  obtain ⟨old, held, block', names'⟩ := first between held
  exact ⟨old, held, block.trans block', names.trans names'⟩

theorem keeps_respected : RespectsInView Keeps where
  refl _ := .of_subset (List.Subset.refl _)
  trans := .trans
  settle _ _ _ _ := .of_subset (List.Subset.refl _)
  note _ _ _ _ := .of_subset (List.Subset.refl _)
  sendQc _ _ := .of_subset (List.Subset.refl _)
  noteCommit _ _ := .of_subset (List.Subset.refl _)
  rollback _ _ := .of_subset filter_sublist.subset
  crashCommit _ _ _ := .of_subset (List.Subset.refl _)
  byzantineCommit _ _ _ _ := .of_subset (dropWhile_sublist _).subset
  stabilize _ _ := .of_subset (List.Subset.refl _)
  markProposed staging thresh fastThresh := by
    intro entry member
    obtain ⟨old, held, rfl⟩ := mem_map.mp member
    exact ⟨old, held, markProposed_block thresh fastThresh old, (markProposed_votes thresh fastThresh old).1⟩

theorem Nested.of_keeps {own} (nested : Nested own staging.pendingBlocks) (keeps : Keeps staging after) :
    Nested own after.pendingBlocks := by
  intro entry member later member' isOwn le
  obtain ⟨old, held, block, names⟩ := keeps entry member
  obtain ⟨old', held', block', names'⟩ := keeps later member'
  unfold CachedBlockWithVotes.n at le
  rw [block, block'] at le
  rw [names, names']
  exact nested old held old' held' (block ▸ block' ▸ isOwn) le

/-!
## Counting
-/

theorem Nested.countVote {own} (nested : Nested own staging.pendingBlocks) (sender vote) :
    Nested own (countVote staging sender vote).pendingBlocks := by
  intro entry member later member' isOwn le
  obtain ⟨old, held, block, names, -⟩ := mem_recordVote member
  obtain ⟨old', held', block', names', -⟩ := mem_recordVote member'
  unfold CachedBlockWithVotes.n at le
  rw [block, block'] at le
  have inside := nested old held old' held' (block ▸ block' ▸ isOwn) le
  rw [names, names']
  -- A vote that counts on the later block counts on the earlier one.
  by_cases counts : old'.n ≤ vote.n
  · rw [if_pos counts, if_pos (le.trans counts)]
    exact Finset.insert_subset_insert sender inside
  · rw [if_neg counts]
    split
    · exact inside.trans (Finset.subset_insert _ _)
    · exact inside

theorem Nested.push {own} (nested : Nested own staging.pendingBlocks) (final)
    (above : ∀ entry ∈ staging.pendingBlocks, entry.n < block.block.n) :
    Nested own (pushBlock staging block final).pendingBlocks := by
  intro entry member later member' isOwn le
  rcases mem_append.mp member' with held' | last'
  · rcases mem_append.mp member with held | last
    · exact nested entry held later held' isOwn le
    · rw [mem_singleton.mp last] at le
      exact absurd (above later held') (Nat.not_lt.mpr le)
  · rw [mem_singleton.mp last']
    exact Finset.empty_subset _

theorem processVote_counts_iff {vote} (result : processVote crypto staging sender vote = some after) :
    ¬ Relevant staging vote ∧ after = staging ∨
      Relevant staging vote ∧ ∃ crashed, maybeCrashCommit crypto (countVote staging sender vote) = some crashed ∧
        Keeps crashed after ∧ after.ci = crashed.ci := by
  refine (processVote_cases result).imp_right fun ⟨relevant, crashed, committed, ends⟩ =>
    ⟨relevant, crashed, committed, ?_⟩
  split at ends
  · cases ends
    exact ⟨keeps_respected.doByzantineCommit crashed _ _, (commits_respected.doByzantineCommit _ _ _).1⟩
  · exact ⟨keeps_respected.maybeCreateQcs ends, (commits_respected.maybeCreateQcs ends).1⟩

/-- The threshold that a call selects. The commit index is the highest of its old value and the
numbers of the pending blocks that reach the threshold. -/
structure Settles (config : Config) (staging : Staging) (sender : String) (vote : ProtoVote) (after : Staging)
    (thresh : Nat) : Prop where
  selected : crashCommitQuorum config staging = some thresh
  greatest : IsGreatest (insert staging.ci { n | ∃ entry ∈ (countVote staging sender vote).pendingBlocks,
    entry.n = n ∧ thresh ≤ entry.replicationSet.card }) after.ci
  rest : ∀ entry ∈ after.pendingBlocks, after.ci < entry.n → entry.replicationSet.card < thresh

theorem ci_maybeCrashCommit_eq (result : maybeCrashCommit crypto staging = some after) : ∃ thresh,
    crashCommitQuorum crypto.config staging = some thresh ∧
      after.ci = crashCommitIndex thresh staging.ci staging.pendingBlocks := by
  obtain ⟨thresh, selected, rfl⟩ := map_eq_some_iff.mp result
  refine ⟨thresh, selected, ?_⟩
  have grows := (crashCommitIndex_spec thresh staging.ci staging.pendingBlocks).1
  simp only [doCrashCommit]
  split
  · next same => exact Nat.le_antisymm grows same
  · rfl

theorem processVote_settles {vote} (result : processVote crypto staging sender vote = some after) :
    ¬ Relevant staging vote ∧ after = staging ∨
      Relevant staging vote ∧ ∃ thresh, Settles crypto.config staging sender vote after thresh := by
  rcases processVote_counts_iff result with ignored | ⟨relevant, _, committed, keeps, ci⟩
  · exact .inl ignored
  · obtain ⟨thresh, selected, isIndex⟩ := ci_maybeCrashCommit_eq committed
    obtain ⟨grows, reached, covers⟩ :=
      crashCommitIndex_spec thresh staging.ci (countVote staging sender vote).pendingBlocks
    rw [show (countVote staging sender vote).ci = staging.ci from rfl] at isIndex
    rw [← isIndex, ← ci] at grows reached covers
    refine .inr ⟨relevant, thresh, selected, ⟨reached, ?_⟩, ?_⟩
    · rintro n (rfl | ⟨entry, member, rfl, enough⟩)
      · exact grows
      · exact covers entry member enough
    · intro entry member beyond
      obtain ⟨old, held, block, names⟩ := ((keeps_respected.maybeCrashCommit committed).trans keeps) entry member
      rw [names]
      by_contra enough
      have inside := covers old held (Nat.not_lt.mp enough)
      unfold CachedBlockWithVotes.n at inside beyond
      rw [block] at beyond
      omega

/-!
## One view of a leader
-/

/-- A leader and the number of its next block. -/
structure Leading where
  staging : Staging
  next : Nat

def lead (crypto : CryptoService) (leading : Leading) (event : Event) : Option Leading :=
  (step crypto leading.staging event).map fun staging =>
    { staging, next := match event with
      | .block .. => leading.next + 1
      | _ => leading.next }

/-- The leader's own blocks one after the other, and votes. -/
def OwnOrVote (leading : Leading) : Event → Prop
  | .block block _ aeStats _ => block.block.n = leading.next ∧ block.block.view = leading.staging.view ∧
      aeStats.view = leading.staging.view
  | .vote .. => True
  | _ => False

instance (leading : Leading) : ∀ event, Decidable (OwnOrVote leading event)
  | .block .. => inferInstanceAs (Decidable (_ ∧ _))
  | .vote .. => isTrue trivial
  | .timerTick _ | .pacemaker _ => isFalse id

/-- The view begins with the block `next`: nothing from there on is pending or committed. -/
structure Opens (config : Config) (leading : Leading) : Prop where
  leads : iAmLeader config leading.staging = true
  pending : ∀ entry ∈ leading.staging.pendingBlocks,
    entry.n < leading.next ∧ entry.block.block.view ≠ leading.staging.view
  ci : leading.staging.ci < leading.next

/-- Every committed block of the view that is still pending has a quorum. -/
def Committed (config : Config) (staging : Staging) : Prop :=
  ∀ entry ∈ staging.pendingBlocks, entry.block.block.view = staging.view → entry.n ≤ staging.ci →
    crashCommitThreshold config ≤ entry.replicationSet.card

structure Led (config : Config) (own : CachedBlock → CachedBlock → Prop) (leading : Leading) : Prop where
  leads : iAmLeader config leading.staging = true
  below : ∀ entry ∈ leading.staging.pendingBlocks, entry.n < leading.next
  ci : leading.staging.ci < leading.next
  covers : ∀ entry later, Touches leading.staging.view entry later → own entry later
  nested : Nested own leading.staging.pendingBlocks
  committed : Committed config leading.staging

variable {config : Config} {own : CachedBlock → CachedBlock → Prop} {next : Nat}

theorem iAmLeader_of_view_eq (same : after.view = staging.view) (leads : iAmLeader config staging = true) :
    iAmLeader config after = true := by
  rwa [iAmLeader, same]

theorem Led.of_keeps (led : Led config own ⟨staging, next⟩) (keeps : Keeps staging after)
    (view : after.view = staging.view) (ci : after.ci = staging.ci) : Led config own ⟨after, next⟩ where
  leads := iAmLeader_of_view_eq view led.leads
  below entry member := by
    obtain ⟨old, held, block, -⟩ := keeps entry member
    unfold CachedBlockWithVotes.n
    rw [block]
    exact led.below old held
  ci := ci ▸ led.ci
  covers := view ▸ led.covers
  nested := led.nested.of_keeps keeps
  committed := by
    intro entry member inView below
    obtain ⟨old, held, block, names⟩ := keeps entry member
    unfold CachedBlockWithVotes.n at below
    rw [names]
    rw [block] at inView below
    exact led.committed old held (inView.trans view) (below.trans ci.le)

theorem Led.skip (led : Led config own ⟨staging, next⟩) : Led config own ⟨staging, next + 1⟩ := { led with
    below := fun entry member => Nat.lt_succ_of_lt (led.below entry member)
    ci := Nat.lt_succ_of_lt led.ci }

theorem Led.push (led : Led config own ⟨staging, next⟩) (number : block.block.n = next) (final) :
    Led config own ⟨pushBlock staging block final, next + 1⟩ where
  leads := led.leads
  below entry member := by
    rcases mem_append.mp member with held | last
    · exact Nat.lt_succ_of_lt (led.below entry held)
    · rw [mem_singleton.mp last]
      exact Nat.lt_succ_of_le number.le
  ci := Nat.lt_succ_of_lt led.ci
  covers := led.covers
  nested := led.nested.push final (number ▸ led.below)
  committed := by
    intro entry member inView below
    rcases mem_append.mp member with held | last
    · exact led.committed entry held inView below
    · rw [mem_singleton.mp last] at below
      have := led.ci
      exact absurd (number ▸ below) (Nat.not_le.mpr this)

/-- The thresholds of the configuration: the one for a wide gap is no smaller. -/
def GapQuorumLarger (config : Config) : Prop :=
  ∀ thresh, byzantineCommitThreshold config = some thresh → crashCommitThreshold config ≤ thresh

theorem GapQuorumLarger.le {thresh} (larger : GapQuorumLarger config)
    (selected : crashCommitQuorum config staging = some thresh) : crashCommitThreshold config ≤ thresh := by
  unfold crashCommitQuorum at selected
  split at selected
  · exact (some.inj selected).le
  · split at selected
    · exact larger thresh selected
    · exact (some.inj selected).le

theorem Led.countVote (led : Led config own ⟨staging, next⟩) (sender vote) :
    Led config own ⟨countVote staging sender vote, next⟩ where
  leads := led.leads
  below entry member := by
    obtain ⟨old, held, block, -⟩ := mem_recordVote member
    unfold CachedBlockWithVotes.n
    rw [block]
    exact led.below old held
  ci := led.ci
  covers := led.covers
  nested := led.nested.countVote sender vote
  committed := by
    intro entry member inView below
    obtain ⟨old, held, block, names, -⟩ := mem_recordVote member
    unfold CachedBlockWithVotes.n at below
    rw [block] at inView below
    refine (led.committed old held inView below).trans (Finset.card_le_card ?_)
    rw [names]
    split
    · exact Finset.subset_insert _ _
    · exact Finset.Subset.refl _

theorem Led.maybeCrashCommit (led : Led crypto.config own ⟨staging, next⟩) (larger : GapQuorumLarger crypto.config)
    (result : maybeCrashCommit crypto staging = some after) : Led crypto.config own ⟨after, next⟩ := by
  obtain ⟨thresh, selected, isIndex⟩ := ci_maybeCrashCommit_eq result
  obtain ⟨-, reached, -⟩ := crashCommitIndex_spec thresh staging.ci staging.pendingBlocks
  rw [← isIndex] at reached
  have keeps := keeps_respected.maybeCrashCommit result
  have view : after.view = staging.view := view_respected.maybeCrashCommit result
  rcases reached with same | ⟨stop, held, number, enough⟩
  · exact led.of_keeps keeps view same
  · have below : after.ci < next := number ▸ led.below stop held
    refine ⟨iAmLeader_of_view_eq view led.leads, ?_, below, view ▸ led.covers, led.nested.of_keeps keeps, ?_⟩
    · intro entry member
      obtain ⟨old, held', block, -⟩ := keeps entry member
      unfold CachedBlockWithVotes.n
      rw [block]
      exact led.below old held'
    · intro entry member inView passed
      obtain ⟨old, held', block, names⟩ := keeps entry member
      unfold CachedBlockWithVotes.n at passed
      rw [block] at inView passed
      have inside := led.nested old held' stop held (led.covers _ _ (.inl (inView.trans view)))
        (passed.trans number.ge)
      rw [names]
      exact (larger.le selected).trans (enough.trans (Finset.card_le_card inside))

theorem Led.processVote (led : Led crypto.config own ⟨staging, next⟩) (larger : GapQuorumLarger crypto.config)
    {vote} (result : processVote crypto staging sender vote = some after) :
    Led crypto.config own ⟨after, next⟩ := by
  have view : after.view = staging.view := view_respected.vote result
  rcases processVote_counts_iff result with ⟨-, rfl⟩ | ⟨-, crashed, committed, keeps, ci⟩
  · exact led
  · have view' : crashed.view = (Staging.countVote staging sender vote).view :=
      view_respected.maybeCrashCommit committed
    exact ((led.countVote sender vote).maybeCrashCommit larger committed).of_keeps keeps (view.trans view'.symm) ci

theorem Led.step {leading last event} (led : Led crypto.config own leading)
    (larger : GapQuorumLarger crypto.config) (permitted : OwnOrVote leading event)
    (taken : lead crypto leading event = some last) : Led crypto.config own last := by
  obtain ⟨staging, next⟩ := leading
  obtain ⟨_, stepped, rfl⟩ := map_eq_some_iff.mp taken
  cases event with
  | timerTick enough => exact permitted.elim
  | pacemaker cmd => exact permitted.elim
  | vote sender vote =>
    simp only [Staging.step, verifyAndProcessVote] at stepped
    split at stepped
    · split at stepped
      · exact led.processVote larger stepped
      · cases stepped
        exact led
    · cases stepped
      exact led
  | block block storageAck aeStats final =>
    obtain ⟨number, -, inView⟩ := permitted
    simp only [Staging.step, led.leads, processBlockAsLeader, inView, lt_irrefl, ↓reduceIte] at stepped
    have settled := led.of_keeps (keeps_respected.settleForBlock staging block aeStats)
      (view_respected.settleForBlock staging block aeStats) (commits_respected.settleForBlock staging block aeStats).1
    simp only [acceptAsLeader] at stepped
    split at stepped
    · cases stepped
      exact settled.skip
    · have pushed := settled.push number final
      split at stepped
      · unfold voteOnLastBlockForSelf at stepped
        split at stepped
        · cases stepped
        · have awaited : Led crypto.config own ⟨{ pushBlock (settleForBlock staging block aeStats) block final with
              storageAckBuffer := [] }, next + 1⟩ := pushed.of_keeps (.of_subset (List.Subset.refl _)) rfl rfl
          exact awaited.processVote larger stepped
      · cases stepped
        exact pushed.of_keeps (.of_subset (List.Subset.refl _)) rfl rfl

theorem Led.run {start leading} (led : Led crypto.config own start) (larger : GapQuorumLarger crypto.config)
    (reached : Reaches (lead crypto) OwnOrVote start leading) : Led crypto.config own leading :=
  reached.invariant led fun led permitted taken => led.step larger permitted taken

theorem Opens.led {leading} (opens : Opens config leading)
    (covers : ∀ entry later, Touches leading.staging.view entry later → own entry later)
    (nested : Nested own leading.staging.pendingBlocks) : Led config own leading where
  leads := opens.leads
  below entry member := (opens.pending entry member).1
  ci := opens.ci
  covers := covers
  nested := nested
  committed entry member inView := absurd inView (opens.pending entry member).2

/-- No commit leaves a hole: the sets of the view's blocks are nested in those of all blocks before
them, inherited ones among them, and the sets of later blocks in theirs; a committed block of the
view has a quorum, and a vote that counts moves the commit index to the last block with the quorum
that is asked for. -/
theorem noHoles_of_reaches (larger : GapQuorumLarger crypto.config) {start leading : Leading}
    (opens : Opens crypto.config start) (reached : Reaches (lead crypto) OwnOrVote start leading) :
    Nested (Touches leading.staging.view) leading.staging.pendingBlocks ∧
    (Nested (fun _ _ => True) start.staging.pendingBlocks →
      Nested (fun _ _ => True) leading.staging.pendingBlocks) ∧
    Committed crypto.config leading.staging ∧
    ∀ {caller after : Staging} {sender : String} {vote : ProtoVote},
      processVote crypto caller sender vote = some after →
      ¬ Relevant caller vote ∧ after = caller ∨
        Relevant caller vote ∧ ∃ thresh, Settles crypto.config caller sender vote after thresh := by
  have led : Led crypto.config (Touches start.staging.view) leading := by
    refine (opens.led (fun _ _ touches => touches) ?_).run larger reached
    rintro entry member later member' (inView | inView)
    · exact absurd inView (opens.pending entry member).2
    · exact absurd inView (opens.pending later member').2
  refine ⟨fun entry member later member' touches => led.nested entry member later member' (led.covers _ _ touches),
    fun nested => ?_, led.committed, processVote_settles⟩
  exact ((opens.led (fun _ _ _ => trivial) nested).run larger reached).nested

def fiveNodes : CryptoService :=
  { threeNodes "node1" with
    config :=
      { netConfig := { name := "node1" }
        consensusConfig :=
          { nodeList := ["node1", "node2", "node3", "node4", "node5"], livenessU := 1, commitIndexGapSoft := 1 }
        features := { viewChange := false } } }

def threeBlocks : List Event :=
  [deliver (sampleBlock 1 1 1 0 []) 1 0 true, deliver (sampleBlock 2 1 2 1 []) 1 0 true,
    deliver (sampleBlock 3 1 3 2 []) 1 0 true]

theorem fiveNodes_larger : GapQuorumLarger fiveNodes.config := fun _ known =>
  (byzantineCommitThreshold_bounds (by decide) known).1

theorem fiveNodes_opens : Opens fiveNodes.config ⟨new fiveNodes.config, 1⟩ := ⟨by decide, forall_mem_nil _, by decide⟩

theorem noHoles_after_two_votes : ∃ leading,
    Reaches (lead fiveNodes) OwnOrVote ⟨new fiveNodes.config, 1⟩ leading ∧
    (leading.staging.ci = 2 ∧ leading.staging.pendingBlocks.map (·.replicationSet.card) = [3, 3, 2]) ∧
    Nested (fun _ _ => True) leading.staging.pendingBlocks ∧ Committed fiveNodes.config leading.staging := by
  obtain ⟨leading, reached, counted⟩ : ∃ leading,
      Reaches (lead fiveNodes) OwnOrVote ⟨new fiveNodes.config, 1⟩ leading ∧
      leading.staging.ci = 2 ∧ leading.staging.pendingBlocks.map (·.replicationSet.card) = [3, 3, 2] :=
    exists_reaches (threeBlocks ++ [sampleVote "node2" 3 1 3, sampleVote "node3" 2 1 2])
      (by decide +kernel) (by decide +kernel)
  obtain ⟨-, nested, committed, -⟩ := noHoles_of_reaches fiveNodes_larger fiveNodes_opens reached
  exact ⟨leading, reached, counted, nested (forall_mem_nil _), committed⟩

/-!
## The soft gap
-/

/-- Each block that a commit passes more than the soft gap above `bci` has `thresh` names. -/
def SoftGapKept (config : Config) (thresh : Nat) (staging after : Staging) : Prop :=
  ∀ entry ∈ after.pendingBlocks, staging.ci < entry.n → entry.n ≤ after.ci →
    after.bci + config.consensusConfig.commitIndexGapSoft < entry.n → thresh ≤ entry.replicationSet.card

instance (config : Config) (thresh : Nat) (staging after : Staging) :
    Decidable (SoftGapKept config thresh staging after) :=
  inferInstanceAs (Decidable (∀ _ ∈ _, _ → _ → _ → _))

/-- The gap is wide before the call, and the build looks at it. -/
def WideGap (config : Config) (staging : Staging) : Prop :=
  config.features.noQc = false ∧
    (config.consensusConfig.commitIndexGapSoft : Int) < (staging.ci : Int) - (staging.bci : Int)

theorem maybeCrashCommit_pending (result : maybeCrashCommit crypto staging = some after) :
    after.pendingBlocks = staging.pendingBlocks ∧ after.bci = staging.bci := by
  obtain ⟨_, -, rfl⟩ := map_eq_some_iff.mp result
  simp only [doCrashCommit]
  split <;> exact ⟨rfl, rfl⟩

theorem crashCommitQuorum_of_not_wideGap (narrow : ¬ WideGap config staging) :
    crashCommitQuorum config staging = some (crashCommitThreshold config) := by
  unfold crashCommitQuorum
  split
  · rfl
  · next withQcs => exact if_neg fun wide => narrow ⟨Bool.not_eq_true _ ▸ withQcs, wide⟩

/-- The threshold is selected once, for the gap before the call. In a narrow gap the claim is left to
the votes: each pending block beyond the gap that they commit must have the larger quorum already. -/
theorem softGapKept_iff {sender : String} {vote : ProtoVote} {thresh : Nat}
    (nested : Nested (fun _ _ => True) staging.pendingBlocks)
    (known : byzantineCommitThreshold crypto.config = some thresh)
    (result : maybeCrashCommit crypto (countVote staging sender vote) = some after) :
    SoftGapKept crypto.config thresh staging after ↔ WideGap crypto.config staging ∨
      ∀ entry ∈ (countVote staging sender vote).pendingBlocks, staging.ci < entry.n →
        staging.bci + crypto.config.consensusConfig.commitIndexGapSoft < entry.n →
        crashCommitThreshold crypto.config ≤ entry.replicationSet.card → thresh ≤ entry.replicationSet.card := by
  obtain ⟨pending, bci⟩ := maybeCrashCommit_pending result
  rw [show (countVote staging sender vote).bci = staging.bci from rfl] at bci
  obtain ⟨selected, quorum, isIndex⟩ := ci_maybeCrashCommit_eq result
  obtain ⟨-, reached, covers⟩ :=
    crashCommitIndex_spec selected staging.ci (countVote staging sender vote).pendingBlocks
  rw [show (countVote staging sender vote).ci = staging.ci from rfl] at isIndex
  rw [← isIndex] at reached covers
  have quorum : crashCommitQuorum crypto.config staging = some selected := quorum
  constructor
  · intro kept
    rw [or_iff_not_imp_left]
    intro narrow entry member above far enough
    cases (crashCommitQuorum_of_not_wideGap narrow).symm.trans quorum
    exact kept entry (pending ▸ member) above (covers entry member enough) (bci ▸ far)
  · intro enough entry member above passed far
    rw [pending] at member
    rw [bci] at far
    rcases reached with _ | ⟨stop, held, number, counted⟩
    · omega
    · have inside := Finset.card_le_card
        (nested.countVote sender vote entry member stop held trivial (passed.trans number.ge))
      by_cases wide : WideGap crypto.config staging
      · rw [crashCommitQuorum, wide.1, if_pos wide.2, known] at quorum
        exact some.inj quorum ▸ counted.trans inside
      · cases (crashCommitQuorum_of_not_wideGap wide).symm.trans quorum
        exact (enough.resolve_left wide) entry member above far (counted.trans inside)

instance (config : Config) (staging : Staging) : Decidable (WideGap config staging) :=
  inferInstanceAs (Decidable (_ ∧ _))

def bareVote (n : Nat) : ProtoVote := { sigArray := [], forkDigest := [], n, view := 1, configNum := 1 }

theorem softGapKept_of_wide_gap : ∃ leading after,
    Reaches (lead fiveNodes) OwnOrVote ⟨new fiveNodes.config, 1⟩ leading ∧
    maybeCrashCommit fiveNodes (countVote leading.staging "node4" (bareVote 3)) = some after ∧
    (WideGap fiveNodes.config leading.staging ∧ after.ci = 3) ∧
      SoftGapKept fiveNodes.config 4 leading.staging after := by
  have ran : ∃ leading, Reaches (lead fiveNodes) OwnOrVote ⟨new fiveNodes.config, 1⟩ leading ∧
      ∃ after ∈ maybeCrashCommit fiveNodes (countVote leading.staging "node4" (bareVote 3)),
        WideGap fiveNodes.config leading.staging ∧ after.ci = 3 :=
    exists_reaches (threeBlocks ++ [sampleVote "node2" 2 1 2, sampleVote "node3" 2 1 2, sampleVote "node2" 3 1 3,
      sampleVote "node3" 3 1 3]) (by decide +kernel) (by decide +kernel)
  obtain ⟨leading, reached, after, result, wide, moved⟩ := ran
  have led := (fiveNodes_opens.led (fun _ _ _ => trivial) (forall_mem_nil _)).run fiveNodes_larger reached
  exact ⟨leading, after, reached, result, ⟨wide, moved⟩, (softGapKept_iff led.nested rfl result).mpr (.inl wide)⟩

/-- One vote commits three blocks with three names, two of them beyond the gap. -/
theorem one_vote_crosses_soft_gap : ∃ staging after,
    Reaches (step fiveNodes) Any (new fiveNodes.config) staging ∧
    byzantineCommitThreshold fiveNodes.config = some 4 ∧
    step fiveNodes staging (sampleVote "node3" 3 1 3) = some after ∧ (staging.ci = 0 ∧ after.ci = 3 ∧ after.bci = 0) ∧
    ¬ SoftGapKept fiveNodes.config 4 staging after := by
  have ran : ∃ staging, Reaches (step fiveNodes) Any (new fiveNodes.config) staging ∧
      ∃ after ∈ step fiveNodes staging (sampleVote "node3" 3 1 3),
        (staging.ci = 0 ∧ after.ci = 3 ∧ after.bci = 0) ∧ ¬ SoftGapKept fiveNodes.config 4 staging after :=
    exists_reaches_any (threeBlocks ++ [sampleVote "node2" 3 1 3]) (by decide +kernel)
  obtain ⟨staging, reached, after, taken, moved, broken⟩ := ran
  exact ⟨staging, after, reached, rfl, taken, moved, broken⟩

end PirateShip.Staging
