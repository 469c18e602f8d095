import Mathlib.Tactic.MkIffOfInductiveProp
import PirateShip.Staging.NewView
import PirateShip.Staging.ViewLock

/-! Blocks on their way to the stage, and what makes it accept them one after the
other: they are a chain that starts from a block of the log, and the pending
blocks that they replace are rolled back for the first of them. -/

set_option autoImplicit false

namespace PirateShip.Staging

open List HashLinked Option

variable {crypto : CryptoService} {staging entered after : Staging} {block : CachedBlock}
  {aeStats : AppendEntriesStats} {items new : List (CachedBlock × AppendEntriesStats)}
variable {final : Bool} {event : Event}

/-- The stage rolls back before it looks at a block of the message. -/
def Cuts (staging : Staging) (aeStats : AppendEntriesStats) : Prop :=
  aeStats.view = staging.view → staging.viewIsStable = true → aeStats.viewIsStable = false

instance : Decidable (Cuts staging aeStats) := inferInstanceAs (Decidable (_ → _ → _))

/-- The blocks continue the log from some block of it on, and agree with what is
committed. -/
structure Continues (staging : Staging) (items : List (CachedBlock × AppendEntriesStats)) : Prop where
  current : ∀ item ∈ items, staging.view ≤ item.2.view
  views : items.Pairwise fun first second => first.2.view ≤ second.2.view
  replaces : ∀ first ∈ items.head?,
    Cuts staging first.2 ∨ ∀ other ∈ staging.blocks, other.block.n < first.1.block.n
  inside : ∀ first ∈ items.head?, first.1.block.n ≤ staging.log.length + 1
  chain : ∀ first ∈ items.head?, Follows (first.1.block.n - 1)
    (endTip none (staging.log.take (first.1.block.n - 1))) (items.map (·.1))
  committed : ∀ item ∈ items, ∀ held ∈ staging.committed, held.block.n = item.1.block.n →
    held.blockHash = item.1.blockHash

theorem continues_nil (staging) : Continues staging [] := by
  constructor <;> simp

theorem Continues.of_prefix (continues : Continues staging items) (isPrefix : new <+: items) :
    Continues staging new := by
  obtain ⟨_, rfl⟩ := isPrefix
  cases new with
  | nil => exact continues_nil staging
  | cons first others =>
    constructor
    · exact fun item member => continues.current item (mem_append_left _ member)
    · exact (pairwise_append.mp continues.views).1
    · exact continues.replaces
    · exact continues.inside
    · intro start isFirst
      have chain := continues.chain start isFirst
      rw [map_append] at chain
      exact (follows_append.mp chain).1
    · exact fun item member => continues.committed item (mem_append_left _ member)

theorem continues_of_follows (inv : ChainInv staging.toStagingCore)
    (current : ∀ item ∈ items, staging.view ≤ item.2.view)
    (views : items.Pairwise fun first second => first.2.view ≤ second.2.view)
    (chain : Follows staging.log.length (endTip none staging.log) (items.map (·.1))) :
    Continues staging items := by
  have above {held : CachedBlock} (logged : held ∈ staging.log) {item : CachedBlock × AppendEntriesStats}
      (member : item ∈ items) : held.block.n < item.1.block.n := by
    have low := (inv.chain.seq_mem logged).2
    have high := (chain.seq_mem (mem_map_of_mem member)).1
    simp only [CachedBlock.seq_eq] at low high
    omega
  have number {first : CachedBlock × AppendEntriesStats} (isFirst : first ∈ items.head?) :
      first.1.block.n = staging.log.length + 1 := by
    obtain ⟨_, rfl⟩ := head?_eq_some_iff.mp isFirst
    exact chain.1
  constructor
  · exact current
  · exact views
  · exact fun first isFirst => .inr fun other pending =>
      above (mem_append_right _ pending) (mem_of_head? isFirst)
  · exact fun first isFirst => (number isFirst).le
  · intro first isFirst
    rw [number isFirst, Nat.add_sub_cancel, take_length]
    exact chain
  · intro item member held isHeld same
    exact absurd same (above (mem_append_left _ isHeld) member).ne

/-!
## More blocks
-/

/-- Blocks that stand behind those under way, or behind a block of the log if there
are none, except that their parent is not looked at. -/
@[mk_iff] structure Joins (staging : Staging) (items new : List (CachedBlock × AppendEntriesStats)) : Prop where
  views : ∀ old ∈ items, ∀ item ∈ new, old.2.view ≤ item.2.view
  inner : ∀ first ∈ new.head?, Follows (first.1.block.n - 1) none (new.map (·.1))
  behind : ∀ first ∈ new.head?, ∀ last ∈ items.getLast?, first.1.block.n = last.1.block.n + 1
  inside : items = [] → ∀ first ∈ new.head?, first.1.block.n ≤ staging.log.length + 1
  replaces : items = [] → ∀ first ∈ new.head?,
    Cuts staging first.2 ∨ ∀ other ∈ staging.blocks, other.block.n < first.1.block.n
  committed : ∀ item ∈ new, ∀ held ∈ staging.committed, held.block.n = item.1.block.n →
    held.blockHash = item.1.blockHash

instance : Decidable (Joins staging items new) := decidable_of_iff _ (joins_iff _ _ _).symm

/-- The hash of the block that one with the number `n + 1` has to name as its parent. -/
def tipBefore (staging : Staging) (items : List (CachedBlock × AppendEntriesStats)) (n : Nat) : Option HashType :=
  endTip none (staging.log.take n ++ items.map (·.1))

theorem Continues.append {view} (continues : Continues staging items) (joins : Joins staging items new)
    (current : staging.view ≤ view) (ofView : ∀ item ∈ new, item.2.view = view)
    (linked : ∀ first ∈ new.head?, ∀ hash ∈ tipBefore staging items (first.1.block.n - 1),
      first.1.block.parent = hash) :
    Continues staging (items ++ new) := by
  have views : (items ++ new).Pairwise fun first second => first.2.view ≤ second.2.view := by
    refine pairwise_append.mpr ⟨continues.views, ?_, joins.views⟩
    apply pairwise_of_forall_mem_list
    intro first isFirst second isSecond
    rw [ofView first isFirst, ofView second isSecond]
  have current : ∀ item ∈ items ++ new, staging.view ≤ item.2.view := by
    intro item member
    rcases mem_append.mp member with old | isNew
    · exact continues.current item old
    · rwa [ofView item isNew]
  have committed : ∀ item ∈ items ++ new, ∀ held ∈ staging.committed, held.block.n = item.1.block.n →
      held.blockHash = item.1.blockHash := by
    intro item member
    rcases mem_append.mp member with old | isNew
    · exact continues.committed item old
    · exact joins.committed item isNew
  cases new with
  | nil => rwa [append_nil]
  | cons next _ =>
    have inner := joins.inner next rfl
    have linked := linked next rfl
    cases items with
    | nil =>
      simp only [tipBefore, map_nil, append_nil] at linked
      constructor
      · exact current
      · exact views
      · exact joins.replaces rfl
      · exact joins.inside rfl
      · rintro first ⟨⟩
        exact inner.onto linked
      · exact committed
    | cons first rest =>
      constructor
      · exact current
      · exact views
      · exact continues.replaces
      · exact continues.inside
      · rintro _ ⟨⟩
        obtain ⟨last, isLast⟩ : ∃ last, (first :: rest).getLast? = some last :=
          ⟨_, getLast?_eq_some_getLast (cons_ne_nil _ _)⟩
        have lastBlock : ((first :: rest).map (·.1)).getLast? = some last.1 := by
          rw [getLast?_map, isLast, map_some]
        have chain := continues.chain first rfl
        have number := chain.seq_getLast? lastBlock
        have behind := joins.behind next rfl last isLast
        rw [map_append, follows_append]
        refine ⟨chain, ?_⟩
        simp only [CachedBlock.seq_eq] at number
        rw [← number, show last.1.block.n = next.1.block.n - 1 by omega]
        apply inner.onto
        intro hash isTip
        apply linked
        rw [tipBefore, endTip_append]
        simpa only [endTip, lastBlock, map_some, some_or] using isTip
      · exact committed

/-!
## The stage takes a block
-/

theorem settled_blocks (enters : Enters crypto staging block aeStats entered) (positive : 0 < block.block.n)
    (replaces : Cuts staging aeStats ∨ ∀ other ∈ staging.blocks, other.block.n < block.block.n) :
    (settleForBlock entered block aeStats).blocks =
      staging.blocks.filter fun other => decide (other.block.n < block.block.n) := by
  have below (other : CachedBlock) : decide (other.block.n ≤ wrappingPred block.block.n) =
      decide (other.block.n < block.block.n) := by
    rw [wrappingPred_of_pos positive, decide_eq_decide]
    omega
  have enteredBlocks : entered.blocks = staging.blocks ∨
      entered.blocks = staging.blocks.filter fun other => decide (other.block.n < block.block.n) := by
    cases enters with
    | sameView => exact .inl rfl
    | leaderJumps => exact .inr (by simp only [blocks_jumpAsLeader, below])
    | followerJumps => exact .inr (blocks_jumpAsFollower block aeStats)
  rw [settleForBlock_core]
  split
  · next stable =>
    cases enters with
    | sameView same =>
      rcases replaces with cuts | above
      · exact absurd stable.2 (by simp [cuts same stable.1])
      · exact (filter_eq_self.mpr fun other pending => decide_eq_true (above other pending)).symm
    | leaderJumps => cases stable.1
    | followerJumps => cases stable.1
  · rw [blocks_rollback]
    simp only [below]
    change entered.blocks.filter _ = _
    rcases enteredBlocks with same | filtered
    · rw [same]
    · rw [filtered]
      simp

theorem settled_log (inv : ChainInv staging.toStagingCore) (enters : Enters crypto staging block aeStats entered)
    (replaces : Cuts staging aeStats ∨ ∀ other ∈ staging.blocks, other.block.n < block.block.n)
    (above : staging.bci < block.block.n) :
    (settleForBlock entered block aeStats).log = staging.log.take (block.block.n - 1) := by
  have cut := (enters.cut inv).trans (settleForBlock_cut (inv.cut (enters.cut inv)) block aeStats)
  have below : (fun other : CachedBlock => decide (other.block.n < block.block.n)) =
      fun other => decide (other.block.n ≤ block.block.n - 1) := by
    funext other
    rw [decide_eq_decide]
    omega
  rw [StagingCore.log, cut.committed, settled_blocks enters (by omega) replaces, below]
  exact inv.log_filter (by omega)

theorem Continues.accepts {rest} (continues : Continues staging ((block, aeStats) :: rest))
    (inv : ChainInv staging.toStagingCore) (enters : Enters crypto staging block aeStats entered)
    (above : staging.bci < block.block.n) :
    checkContinuity (settleForBlock entered block aeStats) block = true := by
  have entry := inv.cut (enters.cut inv)
  have settled := entry.cut (settleForBlock_cut entry block aeStats)
  have log := settled_log inv enters (continues.replaces _ rfl) above
  have inside := continues.inside _ rfl
  obtain ⟨-, linked, -⟩ := continues.chain _ rfl
  apply checkContinuity_of_next settled.logChain
  · have length := settled.log_length
    rw [log, length_take] at length
    dsimp only at inside
    omega
  · rw [← log, StagingCore.log, endTip_append, settled.tip] at linked
    exact linked

theorem Handles.view (handles : Handles crypto entered block aeStats final after) : after.view = entered.view := by
  have settled := (quiet_respected.settleForBlock entered block aeStats).view
  cases handles with
  | reject => exact settled
  | append _ _ core =>
    rw [core]
    exact settled
  | lead _ _ core counts =>
    rw [counts.quiet.view, core]
    exact settled
  | follow _ _ processed ends =>
    rw [ends.fewer.view, (quiet_respected.followQcs processed).view]
    exact settled

theorem Continues.skipped {rest} (continues : Continues staging ((block, aeStats) :: rest))
    (inv : ChainInv staging.toStagingCore) (enters : Enters crypto staging block aeStats entered)
    (below : block.block.n ≤ staging.bci) :
    Continues (settleForBlock entered block aeStats) rest := by
  obtain ⟨number, -, chain⟩ := continues.chain _ rfl
  simp only [CachedBlock.seq_eq] at number chain
  have cut := (enters.cut inv).trans (settleForBlock_cut (inv.cut (enters.cut inv)) block aeStats)
  have nothing : (settleForBlock entered block aeStats).blocks = [] := by
    rw [settled_blocks enters (by omega) (continues.replaces _ rfl), filter_eq_nil_iff]
    intro other pending
    have := (inv.pending.seq_mem pending).1
    simp only [CachedBlock.seq_eq] at this
    simp only [decide_eq_true_eq]
    omega
  have log : (settleForBlock entered block aeStats).log = staging.committed := by
    rw [StagingCore.log, nothing, cut.committed, append_nil]
  have committed := (follows_append.mp inv.chain).1
  -- The block has the hash of the committed one.
  have tip : endTip none (staging.committed.take block.block.n) = some block.blockHash := by
    obtain ⟨held, isHeld⟩ : ∃ held, (staging.committed.take block.block.n).getLast? = some held := by
      apply isSome_iff_exists.mp
      rw [getLast?_isSome, ← length_pos_iff, length_take, inv.length]
      omega
    have heldNumber := (committed.take block.block.n).seq_getLast? isHeld
    rw [length_take, inv.length] at heldNumber
    simp only [CachedBlock.seq_eq] at heldNumber
    have same := continues.committed _ mem_cons_self held
      (mem_of_mem_take (mem_of_getLast? isHeld)) (by dsimp only; omega)
    rw [endTip, isHeld, map_some, some_or, CachedBlock.digest_eq, same]
  have next {first : CachedBlock × AppendEntriesStats} (isFirst : first ∈ rest.head?) :
      first.1.block.n = block.block.n + 1 := by
    obtain ⟨_, rfl⟩ := head?_eq_some_iff.mp isFirst
    have := chain.1
    simp only [CachedBlock.seq_eq] at this
    omega
  constructor
  · rw [(quiet_respected.settleForBlock entered block aeStats).view, enters.view.2]
    exact (pairwise_cons.mp continues.views).1
  · exact (pairwise_cons.mp continues.views).2
  · rw [nothing]
    exact fun first _ => .inr (forall_mem_nil _)
  · intro first isFirst
    rw [next isFirst, log, inv.length]
    omega
  · intro first isFirst
    rw [next isFirst, log, Nat.add_sub_cancel, tip]
    rwa [← number] at chain
  · rw [cut.committed]
    exact fun item member => continues.committed item (mem_cons_of_mem _ member)

theorem Continues.handled {rest} (continues : Continues staging ((block, aeStats) :: rest))
    (inv : ChainInv staging.toStagingCore) (ordered : ∀ qc ∈ block.block.qc, qc.n ≤ block.block.n)
    (enters : Enters crypto staging block aeStats entered)
    (handles : Handles crypto entered block aeStats final after) :
    ChainInv after.toStagingCore ∧ after.view = aeStats.view ∧ Continues after rest := by
  have ok : ChainOk staging (.block block (.ok ()) aeStats final) := by
    refine ⟨ordered, fun same stable aeStable other pending number => ?_⟩
    rcases continues.replaces _ rfl with cuts | above
    · have unstable : aeStats.viewIsStable = false := cuts same stable
      simp [unstable] at aeStable
    · exact absurd number (above other pending).ne
  have view := handles.view.trans enters.view.2
  have entry := inv.cut (enters.cut inv)
  have cut := (enters.cut inv).trans (settleForBlock_cut entry block aeStats)
  cases continuous : checkContinuity (settleForBlock entered block aeStats) block with
  | false =>
    have below : block.block.n ≤ staging.bci := by
      by_contra above
      have := continues.accepts inv enters (Nat.not_le.mp above)
      simp [continuous] at this
    cases handles with
    | reject => exact ⟨inv.cut cut, view, continues.skipped inv enters below⟩
    | append _ accepted => simp [continuous] at accepted
    | lead _ accepted => simp [continuous] at accepted
    | follow _ accepted => simp [continuous] at accepted
  | true =>
    obtain ⟨chained, log⟩ := handles.chain inv ok enters continuous
    obtain ⟨number, -, chain⟩ := continues.chain _ rfl
    have length : block.block.n = after.log.length := by
      rw [log]
      obtain ⟨-, grown, number⟩ := pushBlock_chain inv ok enters continuous
      exact grown ▸ number
    refine ⟨chained, view, continues_of_follows chained ?_ ?_ ?_⟩
    · rw [view]
      exact (pairwise_cons.mp continues.views).1
    · exact (pairwise_cons.mp continues.views).2
    · rw [← length, log, endTip_concat]
      rwa [← number] at chain

/-!
## Other events
-/

/-- The event leaves a place for the blocks under way: votes commit no block that
they replace, no new view is proposed without them, and moving to another view
outdates all of them or none. No certificate points above the block that carries it. -/
def Spares (crypto : CryptoService) (staging : Staging) (items : List (CachedBlock × AppendEntriesStats)) :
    Event → Prop
  | .block block _ aeStats _ => staging.view ≤ aeStats.view → ∀ qc ∈ block.block.qc, qc.n ≤ block.block.n
  | .vote .. => iAmLeader crypto.config staging = true →
      ∀ item ∈ items, ∀ other ∈ staging.blocks, other.block.n < item.1.block.n
  | .pacemaker (.newViewForks ..) => iAmLeader crypto.config staging = true → items = []
  | event => MovesView crypto staging event → ∀ first ∈ items, ∀ second ∈ items, first.2.view = second.2.view

instance : ∀ event, Decidable (Spares crypto staging items event)
  | .block .. => inferInstanceAs (Decidable (_ → _))
  | .vote .. => inferInstanceAs (Decidable (_ → _))
  | .pacemaker (.newViewForks ..) => inferInstanceAs (Decidable (_ → _ = _))
  | .timerTick _ | .pacemaker (.updateView ..) | .pacemaker (.myViewJumped ..) | .pacemaker (.updateBCI _)
  | .pacemaker (.queryEnoughVCMsg ..) => inferInstanceAs (Decidable (_ → ∀ _ ∈ _, _))

theorem Spares.moves (spares : Spares crypto staging items event)
    (moves : MovesView crypto staging event) : ∀ first ∈ items, ∀ second ∈ items, first.2.view = second.2.view := by
  cases event with
  | timerTick enough => exact spares moves
  | block => exact moves.elim
  | vote => exact moves.elim
  | pacemaker cmd =>
    cases cmd with
    | updateView => exact spares moves
    | queryEnoughVCMsg | newViewForks | myViewJumped | updateBCI => exact moves.elim

theorem Continues.counted {sender vote} (continues : Continues staging items) (inv : ChainInv staging.toStagingCore)
    (above : ∀ item ∈ items, ∀ other ∈ staging.blocks, other.block.n < item.1.block.n)
    (counts : Counts crypto staging sender vote after) :
    ChainInv after.toStagingCore ∧ after.view = staging.view ∧ Continues after items := by
  obtain ⟨chained, log⟩ := counts.chain inv
  refine ⟨chained, counts.quiet.view, ?_⟩
  cases items with
  | nil => exact continues_nil after
  | cons first rest =>
    -- There is a pending block, so that what is under way stands behind the whole log.
    obtain ⟨_, last, -, isLast, -⟩ := counts.inRange
    have lastBlock : staging.blocks.getLast? = some last.block := by
      rw [StagingCore.blocks, getLast?_map, isLast, map_some]
    have lastNumber := inv.pending.seq_getLast? lastBlock
    have behind := above first mem_cons_self last.block (mem_of_getLast? lastBlock)
    have inside := continues.inside first rfl
    have length := inv.log_length
    simp only [CachedBlock.seq_eq] at lastNumber
    have chain := continues.chain first rfl
    rw [show first.1.block.n - 1 = staging.log.length by omega, take_length] at chain
    apply continues_of_follows chained
    · rw [counts.quiet.view]
      exact continues.current
    · exact continues.views
    · rwa [log]

theorem Continues.moved (continues : Continues staging items)
    (together : ∀ first ∈ items, ∀ second ∈ items, first.2.view = second.2.view) (log : after.log = staging.log)
    (committed : after.committed = staging.committed) (unstable : after.viewIsStable = false) :
    Continues after (items.filter fun item => decide (after.view ≤ item.2.view)) := by
  by_cases current : ∀ item ∈ items, after.view ≤ item.2.view
  · rw [filter_eq_self.mpr fun item member => decide_eq_true (current item member)]
    constructor
    · exact current
    · exact continues.views
    · exact fun first _ => .inl fun _ stable => absurd stable (by simp [unstable])
    · rw [log]
      exact continues.inside
    · rw [log]
      exact continues.chain
    · rw [committed]
      exact continues.committed
  · have outdated : (items.filter fun item => decide (after.view ≤ item.2.view)) = [] := by
      simp only [not_forall] at current
      obtain ⟨old, isOld, before⟩ := current
      rw [filter_eq_nil_iff]
      intro item member
      simpa [together item member old isOld] using before
    rw [outdated]
    exact continues_nil after

theorem Continues.stage (withQcs : crypto.config.features.noQc = false)
    (continues : Continues staging items) (inv : ChainInv staging.toStagingCore)
    (spares : Spares crypto staging items event)
    (noBlock : ∀ block storageAck aeStats final, event ≠ .block block storageAck aeStats final)
    (taken : step crypto staging event = some after) :
    ChainInv after.toStagingCore ∧ staging.view ≤ after.view ∧
      Continues after (items.filter fun item => decide (after.view ≤ item.2.view)) := by
  have all (same : after.view = staging.view) :
      (items.filter fun item => decide (after.view ≤ item.2.view)) = items := by
    rw [same]
    exact filter_eq_self.mpr fun item member => decide_eq_true (continues.current item member)
  cases step_transition withQcs taken with
  | idle core =>
    have same : after.view = staging.view := by rw [core]
    rw [all same]
    refine ⟨core ▸ inv, same.ge, ?_⟩
    obtain ⟨_, views, replaces, inside, chain, committed⟩ := continues
    constructor
    · rwa [same]
    · exact views
    · simpa only [Cuts, core] using replaces
    · simpa only [core] using inside
    · simpa only [core] using chain
    · simpa only [core] using committed
  | enterView moves later core =>
    refine ⟨?_, ?_, ?_⟩
    · rw [core]
      exact inv.cut ⟨prefix_rfl, rfl, rfl, rfl⟩
    · rw [core]
      exact later.le
    · exact continues.moved (spares.moves moves) (by rw [core]; rfl) (by rw [core]; rfl) (by rw [core])
  | newView _ _ leads _ core =>
    obtain rfl := spares leads
    refine ⟨?_, ?_, continues_nil after⟩
    · rw [core]
      exact inv.cut (truncateForNewView_cut inv _)
    · rw [core]
      exact (truncateForNewView_quiet _ _).view.ge
  | vote leads _ counts =>
    obtain ⟨chained, same, continues⟩ := continues.counted inv (spares leads) counts
    rw [all same]
    exact ⟨chained, same.ge, continues⟩
  | reject => exact absurd rfl (noBlock _ _ _ _)
  | append => exact absurd rfl (noBlock _ _ _ _)
  | lead => exact absurd rfl (noBlock _ _ _ _)
  | follow => exact absurd rfl (noBlock _ _ _ _)

end PirateShip.Staging
