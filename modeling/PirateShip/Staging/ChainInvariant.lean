import PirateShip.Lib.Run
import PirateShip.Staging.Log

/-! The pending blocks are a hash chain on top of what is byzantine committed,
as long as no certificate points above the block that carries it and no block
is delivered again to a node that holds it in a stable view. -/

set_option autoImplicit false

namespace PirateShip.Staging

open List HashLinked StepSystem Option

variable {crypto : CryptoService} {staging entered after : Staging} {core next : StagingCore}
variable {block : CachedBlock} {aeStats : AppendEntriesStats} {qcs : List ProtoQuorumCertificate}
  {oldViewIsStable final : Bool} {storageAck : StorageAck}

/-- What is committed and what is pending are one chain, cut at `bci`. -/
structure LogChain (core : StagingCore) : Prop where
  chain : Follows 0 none core.log
  length : core.committed.length = core.bci
  parent : core.currParentForPending = core.committed.getLast?

namespace LogChain

variable (logChain : LogChain core)
include logChain

theorem tip : endTip none core.committed = core.currParentForPending.map (·.blockHash) := by
  rw [logChain.parent, endTip, or_none]
  rfl

theorem pending : Follows core.bci (core.currParentForPending.map (·.blockHash)) core.blocks := by
  have chain := (follows_append.mp logChain.chain).2
  rwa [Nat.zero_add, logChain.length, logChain.tip] at chain

theorem parent_n {parent} (held : core.currParentForPending = some parent) : parent.block.n = core.bci := by
  have number := (follows_append.mp logChain.chain).1.seq_getLast? (logChain.parent ▸ held)
  rwa [Nat.zero_add, logChain.length] at number

theorem bci_eq_zero (held : core.currParentForPending = none) : core.bci = 0 := by
  rw [logChain.parent, getLast?_eq_none_iff] at held
  rw [← logChain.length, held, length_nil]

theorem bci_pos {parent} (held : core.currParentForPending = some parent) : 0 < core.bci := by
  rw [← logChain.length]
  exact length_pos_of_mem (mem_of_getLast? (logChain.parent ▸ held))

end LogChain

structure ChainInv (core : StagingCore) : Prop where
  chain : Follows 0 none core.log
  length : core.committed.length = core.bci
  parent : core.currParentForPending = core.committed.getLast?
  qcs : ∀ block ∈ core.blocks, ∀ qc ∈ block.block.qc, qc.n ≤ block.block.n

theorem ChainInv.logChain (inv : ChainInv core) : LogChain core := ⟨inv.chain, inv.length, inv.parent⟩

structure Cut (core next : StagingCore) : Prop where
  blocks : next.blocks <+: core.blocks
  committed : next.committed = core.committed
  bci : next.bci = core.bci
  parent : next.currParentForPending = core.currParentForPending

theorem Cut.refl (core) : Cut core core := ⟨prefix_rfl, rfl, rfl, rfl⟩

theorem Cut.trans {last} (first : Cut core next) (second : Cut next last) : Cut core last :=
  ⟨second.blocks.trans first.blocks, second.committed.trans first.committed,
    second.bci.trans first.bci, second.parent.trans first.parent⟩

theorem Cut.log (cut : Cut core next) : next.log <+: core.log := by
  rw [StagingCore.log, cut.committed]
  exact (prefix_append_right_inj _).mpr cut.blocks

namespace ChainInv

variable {m : Nat} {block : CachedBlock}

variable (inv : ChainInv core)
include inv

theorem tip : endTip none core.committed = core.currParentForPending.map (·.blockHash) := inv.logChain.tip

theorem pending : Follows core.bci (core.currParentForPending.map (·.blockHash)) core.blocks := inv.logChain.pending

theorem parent_n {parent} (held : core.currParentForPending = some parent) : parent.block.n = core.bci :=
  inv.logChain.parent_n held

theorem bci_eq_zero (held : core.currParentForPending = none) : core.bci = 0 := inv.logChain.bci_eq_zero held

theorem log_length : core.log.length = core.bci + core.blocks.length := by
  rw [StagingCore.log, length_append, inv.length]

theorem log_take (above : core.bci ≤ m) : core.log.take m = core.committed ++ core.blocks.take (m - core.bci) := by
  have whole : core.committed.take m = core.committed := take_of_length_le (by rw [inv.length]; exact above)
  rw [StagingCore.log, take_append, whole, inv.length]

theorem log_filter (above : core.bci ≤ m) :
    (core.committed ++ core.blocks.filter fun block => decide (block.block.n ≤ m)) = core.log.take m := by
  have pending : (core.blocks.filter fun block => decide (block.block.n ≤ m)) =
      core.blocks.take (m - core.bci) := inv.pending.filter_seq_le m
  rw [pending, inv.log_take above]

theorem cut (cut : Cut core next) : ChainInv next where
  chain := inv.chain.of_prefix cut.log
  length := by rw [cut.committed, cut.bci, inv.length]
  parent := by rw [cut.parent, cut.committed, inv.parent]
  qcs block member := inv.qcs block (cut.blocks.subset member)

theorem qcs_le (member : block ∈ core.blocks) {qc} (attached : qc ∈ block.block.qc) : qc.n ≤ core.log.length := by
  have inside := (inv.pending.seq_mem member).2
  have := inv.qcs block member qc attached
  rw [inv.log_length]
  simp only [CachedBlock.seq_eq] at inside
  omega

theorem push (same : next.committed = core.committed)
    (blocks : next.blocks = core.blocks ++ [block]) (bci : next.bci = core.bci)
    (parent : next.currParentForPending = core.currParentForPending)
    (number : block.block.n = core.bci + core.blocks.length + 1)
    (linked : ∀ hash ∈ endTip (core.currParentForPending.map (·.blockHash)) core.blocks, block.block.parent = hash)
    (certified : ∀ qc ∈ block.block.qc, qc.n ≤ block.block.n) : ChainInv next where
  chain := by
    have chain := follows_concat.mpr ⟨inv.pending, number, linked⟩
    have split := (follows_append.mp inv.chain).1
    rw [StagingCore.log, same, blocks]
    refine follows_append.mpr ⟨split, ?_⟩
    rwa [Nat.zero_add, inv.length, inv.tip]
  length := by rw [same, bci, inv.length]
  parent := by rw [same, parent, inv.parent]
  qcs other member := by
    rw [blocks, mem_append, mem_singleton] at member
    rcases member with member | rfl
    · exact inv.qcs other member
    · exact certified

end ChainInv

/-!
## Cutting the log
-/

private theorem cut_filter (inv : ChainInv core) {m} (committed : next.committed = core.committed)
    (bci : next.bci = core.bci) (parent : next.currParentForPending = core.currParentForPending)
    (blocks : next.blocks = core.blocks.filter fun block => decide (block.block.n ≤ m)) :
    Cut core next := by
  refine ⟨?_, committed, bci, parent⟩
  rw [blocks]
  have cutAt := inv.pending.filter_seq_le m
  simp only [CachedBlock.seq_eq] at cutAt
  rw [cutAt]
  exact take_prefix _ _

variable (inv : ChainInv staging.toStagingCore)
include inv

theorem rollback_cut (m) : Cut staging.toStagingCore (staging.rollback m).toStagingCore :=
  cut_filter inv (committed_rollback m) rfl rfl (blocks_rollback m)

theorem truncateForNewView_cut (retainN) :
    Cut staging.toStagingCore (truncateForNewView staging retainN).toStagingCore := by
  refine cut_filter inv (committed_truncateForNewView retainN) ?_ ?_ (blocks_truncateForNewView retainN)
  · unfold truncateForNewView
    dsimp only
    split <;> rfl
  · unfold truncateForNewView
    dsimp only
    split <;> rfl

theorem settleForBlock_cut (block aeStats) :
    Cut staging.toStagingCore (settleForBlock staging block aeStats).toStagingCore := by
  rw [settleForBlock_core]
  split
  · exact .refl _
  · let unstable : Staging := { staging with viewIsStable := false }
    have same : Cut staging.toStagingCore unstable.toStagingCore := ⟨prefix_rfl, rfl, rfl, rfl⟩
    exact same.trans (rollback_cut (inv.cut same) _)

omit inv

theorem Enters.cut (enters : Enters crypto staging block aeStats entered) (inv : ChainInv staging.toStagingCore) :
    Cut staging.toStagingCore entered.toStagingCore := by
  cases enters with
  | sameView => exact .refl _
  | leaderJumps =>
    exact cut_filter inv (committed_jumpAsLeader block aeStats) rfl rfl (blocks_jumpAsLeader block aeStats)
  | followerJumps =>
    refine ⟨?_, rfl, rfl, rfl⟩
    have cutAt := inv.pending.filter_seq_lt block.block.n
    simp only [CachedBlock.seq_eq] at cutAt
    rw [blocks_jumpAsFollower, cutAt]
    exact take_prefix _ _

theorem Enters.ci (enters : Enters crypto staging block aeStats entered) :
    (settleForBlock entered block aeStats).ci = staging.ci := by
  have same : entered.ci = staging.ci := by cases enters <;> rfl
  rw [settleForBlock_core, ← same]
  split <;> rfl

/-!
## Growing the log
-/

theorem checkContinuity_next (inv : ChainInv staging.toStagingCore)
    (fresh : ∀ other ∈ staging.blocks, other.block.n = block.block.n → other.blockHash ≠ block.blockHash)
    (continuous : checkContinuity staging block = true) :
    block.block.n = staging.bci + staging.blocks.length + 1 ∧
      ∀ hash ∈ endTip (staging.currParentForPending.map (·.blockHash)) staging.blocks, block.block.parent = hash := by
  unfold checkContinuity at continuous
  split at continuous
  · next first last _ tail =>
    have lastBlock : staging.blocks.getLast? = some last.block := by
      rw [StagingCore.blocks, getLast?_map, tail, map_some]
    have lastNumber : last.n = staging.bci + staging.blocks.length := inv.pending.seq_getLast? lastBlock
    split at continuous
    · cases continuous
    · split at continuous
      · cases continuous
      · split at continuous
        · next _ =>
          refine ⟨by omega, fun hash isTip => ?_⟩
          rw [endTip, lastBlock, map_some, some_or, mem_some] at isTip
          rw [← isTip]
          exact beq_iff_eq.mp continuous
        · obtain ⟨held, member, same⟩ := any_eq_true.mp continuous
          rw [Bool.and_eq_true, beq_iff_eq, beq_iff_eq] at same
          exact absurd same.2 (fresh held.block (mem_map_of_mem member) same.1)
  · next notBoth =>
    have empty : staging.pendingBlocks = [] := by
      cases blocks : staging.pendingBlocks with
      | nil => rfl
      | cons first rest =>
        exact (notBoth first _ (by rw [blocks, head?_cons])
          (by rw [blocks, getLast?_eq_some_getLast (cons_ne_nil first rest)])).elim
    have noBlocks : staging.blocks = [] := by rw [StagingCore.blocks, empty, map_nil]
    rw [noBlocks]
    split at continuous
    · next held =>
      rw [inv.bci_eq_zero held, held]
      refine ⟨beq_iff_eq.mp continuous, fun hash isTip => ?_⟩
      cases isTip
    · next _ held =>
      rw [Bool.and_eq_true, beq_iff_eq, beq_iff_eq, inv.parent_n held] at continuous
      rw [held]
      exact ⟨continuous.2, fun hash isTip => continuous.1.trans (some.inj isTip)⟩

private theorem foldl_parent {n : Nat} {batch : List CachedBlock} {last : CachedBlock} (parent)
    (atEnd : batch.getLast? = some last) (number : last.block.n = n) :
    batch.foldl (fun parent block => if block.block.n = n then some block else parent) parent = some last := by
  obtain ⟨_, rfl⟩ := getLast?_eq_some_iff.mp atEnd
  rw [foldl_append, foldl_cons, foldl_nil, if_pos number]

theorem ChainInv.batch (inv : ChainInv core) {newBci} (advances : core.bci < newBci)
    (inside : newBci ≤ core.log.length) :
    (core.blocks.takeWhile fun block => decide (block.block.n ≤ newBci)) =
        core.blocks.take (newBci - core.bci) ∧ (core.blocks.take (newBci - core.bci)).length = newBci - core.bci ∧
      ∃ last, (core.blocks.take (newBci - core.bci)).getLast? = some last ∧ last.block.n = newBci := by
  have size : (core.blocks.take (newBci - core.bci)).length = newBci - core.bci := by
    have := inv.log_length
    rw [length_take]
    omega
  obtain ⟨last, atEnd⟩ : ∃ last, (core.blocks.take (newBci - core.bci)).getLast? = some last := by
    refine isSome_iff_exists.mp ?_
    rw [getLast?_isSome, ← length_pos_iff]
    omega
  refine ⟨inv.pending.takeWhile_seq_le newBci, size, last, atEnd, ?_⟩
  have := (inv.pending.take _).seq_getLast? atEnd
  rw [CachedBlock.seq_eq] at this
  omega

theorem ChainInv.doByzantineCommit (inv : ChainInv staging.toStagingCore) {newBci}
    (inside : newBci ≤ staging.log.length) :
    ChainInv (doByzantineCommit staging staging.bci newBci).toStagingCore := by
  by_cases advances : staging.bci < newBci
  · have blocks := blocks_doByzantineCommit staging advances
    have committed := committed_doByzantineCommit staging advances
    obtain ⟨popped, _, _, atEnd, number⟩ := inv.batch advances inside
    refine ⟨by rw [log_doByzantineCommit]; exact inv.chain, ?_, ?_, ?_⟩
    · rw [committed, popped, length_append, inv.length, bci_doByzantineCommit staging advances]
      omega
    · rw [parent_doByzantineCommit staging advances, committed, popped, foldl_parent _ atEnd number,
        getLast?_append, atEnd, some_or]
    · rw [blocks]
      exact fun block member => inv.qcs block ((dropWhile_sublist _).subset member)
  · rw [Staging.doByzantineCommit, if_pos (Nat.not_lt.mp advances)]
    exact inv

theorem ChainInv.maybeByzantineCommit (crypto) (inv : ChainInv staging.toStagingCore) {qc}
    (inside : qc.n ≤ staging.log.length) :
    ChainInv (maybeByzantineCommit crypto staging qc).toStagingCore ∧
      (maybeByzantineCommit crypto staging qc).log = staging.log := by
  obtain ⟨_, noted⟩ := noteQc_core staging qc
  have same : Cut staging.toStagingCore (noteQc staging qc).toStagingCore := by
    rw [noted]
    exact ⟨prefix_rfl, rfl, rfl, rfl⟩
  have sameLog : (noteQc staging qc).log = staging.log := by
    rw [noted]
    rfl
  have inv' := inv.cut same
  have bounded : newBci crypto.config (noteQc staging qc) qc ≤ (noteQc staging qc).log.length := by
    refine newBci_le ?_ (fun _ => sameLog ▸ inside) inv'.qcs fun block member _ qc attached =>
      inv'.qcs_le member attached
    rw [inv'.log_length]
    omega
  exact ⟨inv'.doByzantineCommit bounded, (log_doByzantineCommit _ _).trans sameLog⟩

/-!
## Votes and certificates
-/

theorem doCrashCommit_cut (staging oldCi newCi) :
    Cut staging.toStagingCore (doCrashCommit staging oldCi newCi).toStagingCore := by
  refine ⟨by rw [blocks_doCrashCommit], committed_doCrashCommit _ _, ?_, ?_⟩
  · rw [doCrashCommit_core]
    split <;> rfl
  · rw [doCrashCommit_core]
    split <;> rfl

theorem log_doCrashCommit (staging oldCi newCi) : (doCrashCommit staging oldCi newCi).log = staging.log := by
  rw [StagingCore.log, blocks_doCrashCommit, committed_doCrashCommit, StagingCore.log]

include inv

theorem ChainInv.processQcs (inside : ∀ qc ∈ qcs, qc.n ≤ staging.log.length)
    (result : processQcs crypto oldViewIsStable staging qcs = some after) :
    ChainInv after.toStagingCore ∧ after.log = staging.log := by
  refine processQcs_rule (motive := fun core => ChainInv core ∧ core.log = staging.log)
    (fun core kept => ⟨kept.1.cut ⟨prefix_rfl, rfl, rfl, rfl⟩, kept.2⟩) ?_ ⟨inv, rfl⟩ result
  intro current qc member ⟨inv, same⟩
  obtain ⟨inv, unchanged⟩ := inv.maybeByzantineCommit crypto (same ▸ inside qc member)
  exact ⟨inv, unchanged.trans same⟩

theorem ChainInv.maybeCreateQcs (result : maybeCreateQcs crypto staging = some after) :
    ChainInv after.toStagingCore ∧ after.log = staging.log := by
  refine maybeCreateQcs_rule (motive := fun core => ChainInv core ∧ core.log = staging.log)
    (fun core kept => ⟨kept.1.cut ⟨prefix_rfl, rfl, rfl, rfl⟩, kept.2⟩)
    (fun core _ _ _ _ _ kept => ⟨kept.1.cut ⟨prefix_rfl, rfl, rfl, rfl⟩, kept.2⟩) ?_ ?_ result
  · intro current entry member thresh _ _ ⟨inv', same⟩
    have inside : (qcOf staging.view entry).n ≤ current.log.length := by
      rw [same, inv.log_length]
      exact (inv.pending.seq_mem (mem_map_of_mem member)).2
    obtain ⟨inv', unchanged⟩ := inv'.maybeByzantineCommit crypto inside
    exact ⟨inv', unchanged.trans same⟩
  · intro thresh
    have blocks := blocks_markProposed thresh (byzantineFastPathThreshold crypto.config) staging.pendingBlocks
    exact ⟨inv.cut ⟨by rw [StagingCore.blocks, blocks, StagingCore.blocks], rfl, rfl, rfl⟩,
      congrArg (staging.committed ++ ·) blocks⟩

theorem ChainInv.maybeCrashCommit (result : maybeCrashCommit crypto staging = some after) :
    ChainInv after.toStagingCore ∧ after.log = staging.log := by
  obtain ⟨thresh, -, rfl⟩ := map_eq_some_iff.mp result
  have noted : Cut staging.toStagingCore (noteCommit staging
      (crashCommitIndex thresh staging.ci staging.pendingBlocks)).toStagingCore :=
    ⟨prefix_rfl, rfl, rfl, rfl⟩
  exact ⟨inv.cut (noted.trans (doCrashCommit_cut _ _ _)), log_doCrashCommit _ _ _⟩

omit inv

theorem countVote_cut (staging sender vote) :
    Cut staging.toStagingCore (countVote staging sender vote).toStagingCore :=
  ⟨by rw [blocks_countVote], rfl, rfl, rfl⟩

theorem Counts.chain {sender vote} (counts : Counts crypto staging sender vote after)
    (inv : ChainInv staging.toStagingCore) :
    ChainInv after.toStagingCore ∧ after.log = staging.log := by
  have sameLog : (countVote staging sender vote).log = staging.log := by
    rw [StagingCore.log, blocks_countVote]
    rfl
  obtain ⟨_, crashes, creates⟩ := counts.result
  obtain ⟨inv, crashLog⟩ := (inv.cut (countVote_cut staging sender vote)).maybeCrashCommit crashes
  obtain ⟨inv, createLog⟩ := inv.maybeCreateQcs creates
  exact ⟨inv, createLog.trans (crashLog.trans sameLog)⟩

/-!
## The invariant over whole runs
-/

/-- No certificate points above the block that carries it, and a block is not
delivered again in a stable view to a node that holds it. -/
def ChainOk (staging : Staging) : Event → Prop
  | .block block _ aeStats _ =>
    (∀ qc ∈ block.block.qc, qc.n ≤ block.block.n) ∧
      (aeStats.view = staging.view → staging.viewIsStable = true → aeStats.viewIsStable = true →
        ∀ other ∈ staging.blocks, other.block.n = block.block.n → other.blockHash ≠ block.blockHash)
  | _ => True

instance (staging : Staging) : ∀ event, Decidable (ChainOk staging event)
  | .block .. => inferInstanceAs (Decidable (_ ∧ _))
  | .timerTick _ | .vote .. | .pacemaker _ => inferInstanceAs (Decidable True)

include inv

variable (ok : ChainOk staging (.block block storageAck aeStats final))
include ok

theorem settleForBlock_fresh (enters : Enters crypto staging block aeStats entered) :
    ∀ other ∈ (settleForBlock entered block aeStats).blocks, other.block.n = block.block.n →
      other.blockHash ≠ block.blockHash := by
  have inv := inv.cut (enters.cut inv)
  intro other member number
  rw [settleForBlock_core] at member
  split at member
  · next stable =>
    cases enters with
    | sameView same => exact ok.2 same stable.1 stable.2 other member number
    | leaderJumps => cases stable.1
    | followerJumps => cases stable.1
  · rw [blocks_rollback, mem_filter, decide_eq_true_eq] at member
    have positive := (inv.pending.seq_mem member.1).1
    simp only [CachedBlock.seq_eq] at positive
    have := member.2
    rw [wrappingPred_of_pos (by omega)] at this
    omega

theorem pushBlock_chain (enters : Enters crypto staging block aeStats entered)
    (continuous : checkContinuity (settleForBlock entered block aeStats) block = true) :
    let settled := settleForBlock entered block aeStats
    ChainInv (pushBlock settled block final).toStagingCore ∧
      (pushBlock settled block final).log = settled.log ++ [block] ∧
      block.block.n = (pushBlock settled block final).log.length := by
  intro settled
  have entry := inv.cut (enters.cut inv)
  have settledInv := entry.cut (settleForBlock_cut entry block aeStats)
  obtain ⟨number, linked⟩ := checkContinuity_next settledInv (settleForBlock_fresh inv ok enters) continuous
  have pushed : ChainInv (pushBlock settled block final).toStagingCore :=
    settledInv.push rfl (blocks_pushBlock block final) rfl rfl number linked ok.1
  have grown : (pushBlock settled block final).log = settled.log ++ [block] := by
    rw [StagingCore.log, blocks_pushBlock, ← append_assoc]
    rfl
  refine ⟨pushed, grown, ?_⟩
  rw [grown, length_append, settledInv.log_length]
  exact number

omit ok

omit inv

theorem EndsFollowing.cut (ends : EndsFollowing crypto staging final after) :
    Cut staging.toStagingCore after.toStagingCore ∧ after.log = staging.log := by
  obtain ⟨_, _, core⟩ := ends.core
  rw [core]
  exact ⟨⟨prefix_rfl, rfl, rfl, rfl⟩, rfl⟩

theorem crashAsFollower_cut (staging aeStats final) :
    Cut staging.toStagingCore (crashAsFollower staging aeStats final).toStagingCore ∧
      (crashAsFollower staging aeStats final).log = staging.log := by
  unfold crashAsFollower
  split
  · exact ⟨doCrashCommit_cut _ _ _, log_doCrashCommit _ _ _⟩
  · exact ⟨.refl _, rfl⟩

theorem certify_chain {certified} (inv : ChainInv staging.toStagingCore)
    (inside : ∀ qc ∈ qcs, qc.n ≤ staging.log.length)
    (processed : processQcs crypto oldViewIsStable (crashAsFollower staging aeStats final) qcs = some certified) :
    ChainInv certified.toStagingCore ∧ certified.log = staging.log := by
  obtain ⟨crash, crashLog⟩ := crashAsFollower_cut staging aeStats final
  obtain ⟨inv, certifiedLog⟩ := (inv.cut crash).processQcs (crashLog ▸ inside) processed
  exact ⟨inv, certifiedLog.trans crashLog⟩

theorem follow_chain {certified} (inv : ChainInv staging.toStagingCore)
    (inside : ∀ qc ∈ qcs, qc.n ≤ staging.log.length)
    (processed : processQcs crypto oldViewIsStable (crashAsFollower staging aeStats final) qcs =
      some certified) (ends : EndsFollowing crypto certified final after) :
    ChainInv after.toStagingCore ∧ after.log = staging.log := by
  obtain ⟨inv, certifiedLog⟩ := certify_chain inv inside processed
  obtain ⟨cut, endLog⟩ := ends.cut
  exact ⟨inv.cut cut, endLog.trans certifiedLog⟩

theorem Handles.chain
    (handles : Handles crypto entered block aeStats final after) (inv : ChainInv staging.toStagingCore)
    (ok : ChainOk staging (.block block storageAck aeStats final))
    (enters : Enters crypto staging block aeStats entered)
    (continuous : checkContinuity (settleForBlock entered block aeStats) block = true) :
    ChainInv after.toStagingCore ∧ after.log = (settleForBlock entered block aeStats).log ++ [block] := by
  obtain ⟨pushed, grown, number⟩ := pushBlock_chain inv ok enters continuous
  rw [← grown]
  cases handles with
  | reject broken => exact absurd continuous (by simp [broken])
  | append _ _ core =>
    rw [core]
    exact ⟨pushed, rfl⟩
  | lead _ _ core counts =>
    obtain ⟨counted, same⟩ := counts.chain (core ▸ pushed)
    rw [same, core]
    exact ⟨counted, rfl⟩
  | follow _ _ processed ends =>
    exact follow_chain pushed (number ▸ ok.1) processed ends

theorem Transition.chain {event} (inv : ChainInv staging.toStagingCore) (ok : ChainOk staging event)
    (transition : Transition crypto staging event after) :
    ChainInv after.toStagingCore := by
  cases transition with
  | idle core => rwa [core]
  | enterView _ _ core =>
    rw [core]
    exact inv.cut ⟨prefix_rfl, rfl, rfl, rfl⟩
  | newView _ _ _ _ core =>
    rw [core]
    exact inv.cut (truncateForNewView_cut inv _)
  | vote _ _ counts => exact (counts.chain inv).1
  | reject enters _ =>
    have entry := inv.cut (enters.cut inv)
    exact entry.cut (settleForBlock_cut entry _ _)
  | append enters leads continuous core =>
    exact (Handles.chain (.append leads continuous core) inv ok enters continuous).1
  | lead enters leads continuous core counts isFinal =>
    exact (Handles.chain (.lead leads continuous core counts isFinal) inv ok enters continuous).1
  | follow enters follows continuous processed ends =>
    exact (Handles.chain (.follow follows continuous processed ends) inv ok enters continuous).1

theorem chainInv_new (config) : ChainInv (new config).toStagingCore := by
  unfold new
  split <;> exact ⟨trivial, rfl, rfl, fun _ member => nomatch member⟩

theorem chainInv_of_reaches (withQcs : crypto.config.features.noQc = false)
    (reached : Reaches (step crypto) ChainOk (new crypto.config) staging) :
    ChainInv staging.toStagingCore :=
  reached.invariant (motive := fun staging => ChainInv staging.toStagingCore) (chainInv_new crypto.config)
    fun inv ok taken => (step_transition withQcs taken).chain inv ok

/-- The pending blocks continue the chain from `curr_parent_for_pending`, and
the batches sent as byzantine committed are one chain from the first block. -/
structure Represented (core : StagingCore) : Prop where
  pending : Follows core.bci (core.currParentForPending.map (·.blockHash)) core.blocks
  parent : 0 < core.bci → core.currParentForPending.map (·.block.n) = some core.bci
  committed : Follows 0 none core.committed

theorem represented_iff : Represented core ↔
    Follows core.bci (core.currParentForPending.map (·.blockHash)) core.blocks ∧
      (0 < core.bci → core.currParentForPending.map (·.block.n) = some core.bci) ∧
      Follows 0 none core.committed :=
  ⟨fun rep => ⟨rep.pending, rep.parent, rep.committed⟩, fun ⟨pending, parent, committed⟩ =>
    ⟨pending, parent, committed⟩⟩

instance : Decidable (Represented core) := decidable_of_iff _ represented_iff.symm

theorem ChainInv.represented (inv : ChainInv core) : Represented core where
  pending := inv.pending
  parent positive := by
    cases held : core.currParentForPending with
    | none => exact absurd (inv.bci_eq_zero held) (by omega)
    | some parent => rw [map_some, inv.parent_n held]
  committed := (follows_append.mp inv.chain).1

/-- In every run without such deliveries the representation invariant holds. -/
theorem represented_of_reaches (withQcs : crypto.config.features.noQc = false)
    (reached : Reaches (step crypto) ChainOk (new crypto.config) staging) :
    Represented staging.toStagingCore :=
  (chainInv_of_reaches withQcs reached).represented

/-!
## A block delivered twice
-/

def threeNodes (name : String) : CryptoService where
  primitives :=
    { sha512 := id
      sign := fun _ data => data
      verify := fun _ data sig => data == sig
      verifyBatch := fun msgs sigs _ => msgs == sigs }
  codec := { encodeBlock := fun _ => [], decodeBlock := fun _ => none, encodeQc := fun _ => [] }
  keystore := { pubKeys := ∅, privKey := [] }
  config :=
    { netConfig := { name }
      consensusConfig := { nodeList := ["node1", "node2", "node3"], livenessU := 1 } }

def sampleHash (tag : UInt8) : HashType := List.replicate digestLength tag

def sampleBlock (n view : Nat) (tag parent : UInt8) (qc : List ProtoQuorumCertificate) : CachedBlock where
  block :=
    { n, parent := sampleHash parent, view, qc, configNum := 1, sig := some (.proposerSig []) }
  blockSer := List.replicate (digestLength + signatureLength) tag
  blockHash := sampleHash tag

def sampleQc (n view : Nat) (tag : UInt8) : ProtoQuorumCertificate where
  digest := sampleHash tag
  n
  view
  sig := ["node1", "node2"].map fun name => { name, sig := sampleHash tag }

def deliver (block : CachedBlock) (view ci : Nat) (viewIsStable : Bool) : Event :=
  .block block (.ok ()) { view, viewIsStable, configNum := 1, sender := "node1", ci } true

/-- Three blocks of view 1, each certifying the one before it. The second makes
the view stable, the third commits the first. -/
def delivery : List Event :=
  [deliver (sampleBlock 1 1 1 0 []) 1 0 false, deliver (sampleBlock 2 1 2 1 [sampleQc 1 1 1]) 1 0 false,
    deliver (sampleBlock 3 1 3 2 [sampleQc 2 1 2]) 1 0 true]

/-- The last block of the three comes once more. -/
theorem redelivered_block_breaks_chain :
    ∃ staging, Reaches (step (threeNodes "node2")) Any (new (threeNodes "node2").config) staging ∧
      ¬ Represented staging.toStagingCore :=
  exists_reaches_any (delivery ++ [deliver (sampleBlock 3 1 3 2 [sampleQc 2 1 2]) 1 0 true]) (by decide)

theorem represented_after_delivery :
    ∃ staging, Reaches (step (threeNodes "node2")) ChainOk (new (threeNodes "node2").config) staging ∧
      (staging.bci = 1 ∧ staging.blocks.length = 2) ∧ Represented staging.toStagingCore :=
  exists_reaches_and delivery (by decide) (by decide) fun reached _ => represented_of_reaches rfl reached

end PirateShip.Staging
