import PirateShip.LogServer
import PirateShip.Staging.ChainInvariant

/-! The log server's copy of the log against the log of the staging stage. They
agree as long as no rollback reaches down to the first block above `bci` and
the leader of a new view holds no pending blocks that it would drop. -/

set_option autoImplicit false

namespace PirateShip.LogServer

open List HashLinked StepSystem Staging

def commandsOf (inputs : List Input) : List LogServerCommand :=
  inputs.filterMap fun
    | .command cmd => some cmd
    | .gc _ => none

/-- Garbage collection stays below the commit index that the server knows. -/
def GcBelow : LogServer → List Input → Prop
  | _, [] => True
  | server, .command cmd :: rest => GcBelow (server.handleCommand cmd) rest
  | server, .gc n :: rest => n < server.bci ∧ GcBelow (server.handleGc n) rest

instance decidableGcBelow : ∀ (server : LogServer) (inputs : List Input), Decidable (GcBelow server inputs)
  | _, [] => isTrue trivial
  | server, .command cmd :: rest => decidableGcBelow (server.handleCommand cmd) rest
  | server, .gc n :: rest =>
    have := decidableGcBelow (server.handleGc n) rest
    inferInstanceAs (Decidable (_ ∧ _))

theorem gcBelow_append {server inputs more} : GcBelow server (inputs ++ more) ↔
      GcBelow server inputs ∧ GcBelow (inputs.foldl handle server) more := by
  induction inputs generalizing server with
  | nil => simp [GcBelow]
  | cons input rest ih =>
    cases input with
    | command cmd => exact ih
    | gc n =>
      rw [cons_append, GcBelow, GcBelow, ih, and_assoc]
      rfl

structure Mirrors (server : LogServer) (core : StagingCore) : Prop where
  bci : server.bci = core.bci
  log : ∃ collected, server.log = core.log.drop collected ∧ (collected < core.bci ∨ collected = 0)

variable {server : LogServer} {core next : StagingCore}

theorem Mirrors.above (mirrors : Mirrors server core) (inv : ChainInv core) :
    (server.log.filter fun block => decide (core.bci < block.block.n)) = core.blocks := by
  obtain ⟨collected, log, _⟩ := mirrors.log
  have committed : core.committed.length = core.bci := inv.length
  have inside : collected ≤ core.committed.length := by omega
  have kept : (core.blocks.filter fun block => decide (core.bci < block.block.n)) = core.blocks := by
    refine filter_eq_self.mpr fun block member => ?_
    exact decide_eq_true (inv.pending.seq_mem member).1
  have dropped : ((core.committed.drop collected).filter fun block =>
      decide (core.bci < block.block.n)) = [] := by
    refine filter_eq_nil_iff.mpr fun block member => ?_
    have number := ((follows_append.mp inv.chain).1.seq_mem (drop_subset _ _ member)).2
    rw [CachedBlock.seq_eq] at number
    simp only [decide_eq_true_eq]
    omega
  rw [log, StagingCore.log, drop_append_of_le_length inside, filter_append, dropped, kept, nil_append]

theorem Mirrors.gc (mirrors : Mirrors server core) (inv : ChainInv core) {n}
    (below : n < server.bci) : Mirrors (server.handleGc n) core := by
  obtain ⟨collected, log, _⟩ := mirrors.log
  have known := mirrors.bci
  refine ⟨known, max collected n, ?_, by omega⟩
  have length := inv.log_length
  have cut := (inv.chain.drop collected).filter_lt_seq n
  simp only [CachedBlock.seq_eq] at cut
  have position : collected + (n - (0 + min collected core.log.length)) = max collected n := by omega
  rw [handleGc, log, cut, drop_drop, length_take, position]

theorem Mirrors.gcs (inv : ChainInv core) {inputs} (mirrors : Mirrors server core)
    (noCommand : commandsOf inputs = []) (below : GcBelow server inputs) :
    Mirrors (inputs.foldl handle server) core := by
  induction inputs generalizing server with
  | nil => exact mirrors
  | cons input rest ih =>
    cases input with
    | command cmd => cases noCommand
    | gc n => exact ih (mirrors.gc inv below.1) noCommand below.2

def Mirrored (core : StagingCore) : Prop :=
  ∀ inputs, commandsOf inputs = core.logserverTx → GcBelow {} inputs →
    Mirrors (inputs.foldl handle {}) core

theorem Mirrored.send (mirrored : Mirrored core) (inv : ChainInv next) {cmd}
    (sent : next.logserverTx = core.logserverTx ++ [cmd])
    (handled : ∀ {server}, Mirrors server core → Mirrors (server.handleCommand cmd) next) :
    Mirrored next := by
  intro inputs commands below
  obtain ⟨before, _, rfl, first, second⟩ := filterMap_eq_append_iff.mp (commands.trans sent)
  obtain ⟨silent, input, _, rfl, noCommand, isCommand, finished⟩ := filterMap_eq_cons_iff.mp second
  cases input with
  | gc n => cases isCommand
  | command given =>
    obtain rfl : given = cmd := Option.some.inj isCommand
    rw [← append_assoc] at below ⊢
    obtain ⟨belowBefore, belowAfter⟩ := gcBelow_append.mp below
    have received : commandsOf (before ++ silent) = core.logserverTx := by
      rw [commandsOf, filterMap_append, first, filterMap_eq_nil_iff.mpr noCommand, append_nil]
    rw [foldl_append]
    exact (handled (mirrored _ received belowBefore)).gcs inv finished belowAfter

theorem Mirrored.quiet (mirrored : Mirrored core) (sent : next.logserverTx = core.logserverTx)
    (bci : next.bci = core.bci) (log : next.log = core.log) : Mirrored next := by
  intro inputs commands below
  have mirrors := mirrored inputs (commands.trans sent) below
  exact ⟨mirrors.bci.trans bci.symm, by rw [log, bci]; exact mirrors.log⟩

/-!
## The three commands
-/

theorem Mirrors.updateBCI (mirrors : Mirrors server core) {n} (grows : core.bci ≤ n) (bci : next.bci = n)
    (log : next.log = core.log) :
    Mirrors (server.handleCommand (.updateBCI n)) next := by
  obtain ⟨collected, held, _⟩ := mirrors.log
  exact ⟨bci.symm, collected, by rw [log]; exact held, by omega⟩

theorem Mirrors.newBlock (mirrors : Mirrors server core) (inv : ChainInv core) {block}
    (chain : Follows 0 none (core.log ++ [block])) (bci : next.bci = core.bci)
    (log : next.log = core.log ++ [block]) :
    Mirrors (server.handleCommand (.newBlock block)) next := by
  obtain ⟨collected, held, _⟩ := mirrors.log
  obtain ⟨-, number, linked⟩ := follows_concat.mp chain
  have inside : collected < core.log.length ∨ collected = 0 := by
    have := inv.log_length
    omega
  have last : server.log.getLast? = core.log.getLast? := by
    rw [held, getLast?_drop]
    split
    · next _ =>
      have : core.log = [] := length_eq_zero_iff.mp (by omega)
      rw [this, getLast?_nil]
    · rfl
  have lastNumber : server.lastN = core.log.length := by
    rw [lastN, last]
    cases atEnd : core.log.getLast? with
    | none => rw [getLast?_eq_none_iff.mp atEnd]; rfl
    | some tip => exact (inv.chain.seq_getLast? atEnd).trans (Nat.zero_add _)
  have accepted : server.handleNewBlock block = { server with log := server.log ++ [block] } := by
    rw [handleNewBlock, if_neg (by rw [lastNumber]; simpa using number), if_neg]
    rintro ⟨nonempty, mismatch⟩
    refine mismatch ?_
    rw [last]
    cases atEnd : core.log.getLast? with
    | none =>
      rw [lastNumber, getLast?_eq_none_iff.mp atEnd] at nonempty
      cases nonempty
    | some tip =>
      have := linked tip.blockHash (by rw [endTip, atEnd]; rfl)
      rw [Option.map_some, ← this]
      rfl
  rw [handleCommand, accepted]
  refine ⟨mirrors.bci.trans bci.symm, collected, ?_, by omega⟩
  rw [log, held, drop_append_of_le_length (by omega)]

theorem Mirrors.rollback (mirrors : Mirrors server core) (inv : ChainInv core) {m}
    (above : core.bci < m ∨ core.blocks = []) (bci : next.bci = core.bci)
    (committed : next.committed = core.committed)
    (blocks : next.blocks = core.blocks.filter fun block => decide (block.block.n ≤ m)) :
    Mirrors (server.handleCommand (.rollback m)) next := by
  obtain ⟨collected, held, _⟩ := mirrors.log
  refine ⟨mirrors.bci.trans bci.symm, collected, ?_, by omega⟩
  have length := inv.log_length
  simp only [handleCommand, handleRollback, mirrors.bci, held]
  rcases above with above | empty
  · have cut := (inv.chain.drop collected).filter_seq_le m
    simp only [CachedBlock.seq_eq] at cut
    have position : m - (0 + min collected core.log.length) = m - collected := by omega
    have shorter : next.log = core.log.take m := by
      rw [StagingCore.log, committed, blocks, inv.log_filter (by omega)]
    rw [if_neg (by omega), cut, length_take, position, shorter, drop_take]
  · rw [filter_eq_self.mpr, StagingCore.log, StagingCore.log, committed, blocks, empty, filter_nil]
    intro block member
    have number := (inv.chain.seq_mem (drop_subset _ _ member)).2
    rw [CachedBlock.seq_eq, length, empty, length_nil] at number
    refine decide_eq_true ?_
    split <;> omega

/-!
## Whole runs of the staging stage
-/

variable {crypto : CryptoService} {staging entered after : Staging}

/-- Beside the conditions for a chain: a rollback stays above the first block
after `bci`, and a leader that proposes a new view has nothing pending. -/
def RollbackOk (staging : Staging) : Event → Prop
  | .block block _ aeStats _ =>
    staging.view ≤ aeStats.view →
      (aeStats.view = staging.view ∧ staging.viewIsStable = true ∧ aeStats.viewIsStable = true) ∨
        staging.bci + 1 < block.block.n ∨ staging.pendingBlocks = []
  | .pacemaker (.newViewForks viewNum _ _) =>
    viewNum = staging.view → staging.viewIsStable = false → staging.pendingBlocks = []
  | _ => True

instance (staging : Staging) : ∀ event, Decidable (RollbackOk staging event)
  | .block .. => inferInstanceAs (Decidable (_ → _))
  | .pacemaker (.newViewForks ..) => inferInstanceAs (Decidable (_ → _ → _))
  | .timerTick _ | .vote .. | .pacemaker (.updateView ..) | .pacemaker (.queryEnoughVCMsg ..)
  | .pacemaker (.myViewJumped ..) | .pacemaker (.updateBCI _) => inferInstanceAs (Decidable True)

def MirrorOk (staging : Staging) (event : Event) : Prop :=
  ChainOk staging event ∧ RollbackOk staging event

instance (staging : Staging) (event : Event) : Decidable (MirrorOk staging event) :=
  inferInstanceAs (Decidable (_ ∧ _))

theorem Mirrored.rollback (mirrored : Mirrored core) (inv : ChainInv core) (nextInv : ChainInv next) {n}
    (above : core.bci + 1 < n ∨ core.blocks = [])
    (sent : next.logserverTx = core.logserverTx ++ [.rollback (wrappingPred n)]) (bci : next.bci = core.bci)
    (committed : next.committed = core.committed)
    (blocks : next.blocks = core.blocks.filter fun block => decide (block.block.n ≤ wrappingPred n)) :
    Mirrored next := by
  refine mirrored.send nextInv sent fun mirrors => mirrors.rollback inv ?_ bci committed blocks
  refine above.imp_left fun above => ?_
  rw [wrappingPred_of_pos (by omega)]
  omega

theorem mirrored_settle {block} (aeStats) (mirrored : Mirrored staging.toStagingCore)
    (inv : ChainInv staging.toStagingCore) (above : staging.bci + 1 < block.block.n ∨ staging.blocks = []) :
    Mirrored (settleForBlock staging block aeStats).toStagingCore := by
  have settledInv := inv.cut (settleForBlock_cut inv block aeStats)
  rw [settleForBlock_core] at settledInv ⊢
  split
  · exact mirrored
  · next unstable =>
    rw [if_neg unstable] at settledInv
    exact mirrored.rollback inv settledInv above rfl rfl (committed_rollback _) (blocks_rollback _)

/-- Up to the continuity check the two logs stay together. A follower that
jumps drops its blocks first and sends the rollback right after. -/
theorem mirrored_enters {block storageAck aeStats final} (enters : Enters crypto staging block aeStats entered)
    (mirrored : Mirrored staging.toStagingCore) (inv : ChainInv staging.toStagingCore)
    (ok : RollbackOk staging (.block block storageAck aeStats final)) :
    Mirrored (settleForBlock entered block aeStats).toStagingCore := by
  have entry := inv.cut (enters.cut inv)
  have nothing (empty : staging.pendingBlocks = []) : staging.blocks = [] := by
    rw [StagingCore.blocks, empty, map_nil]
  cases enters with
  | sameView same =>
    rcases ok (by omega) with ⟨-, stable⟩ | above
    · rwa [settleForBlock_core, if_pos stable]
    · exact mirrored_settle aeStats mirrored inv (above.imp_right nothing)
  | leaderJumps later _ =>
    have above := ((ok (by omega)).resolve_left fun same => absurd same.1 (by omega)).imp_right nothing
    refine mirrored_settle aeStats ?_ entry (above.imp_right fun empty => ?_)
    · exact mirrored.rollback inv entry above rfl rfl (committed_jumpAsLeader block aeStats)
        (blocks_jumpAsLeader block aeStats)
    · rw [blocks_jumpAsLeader, empty, filter_nil]
  | followerJumps later _ =>
    have above := ((ok (by omega)).resolve_left fun same => absurd same.1 (by omega)).imp_right nothing
    have settledInv := entry.cut (settleForBlock_cut entry block aeStats)
    have core := settleForBlock_core (jumpAsFollower staging block aeStats) block aeStats
    rw [core] at settledInv ⊢
    refine mirrored.rollback inv settledInv above rfl rfl (committed_rollback _) ?_
    refine (blocks_rollback _).trans ?_
    have jumped : ({ jumpAsFollower staging block aeStats with viewIsStable := false } : Staging).blocks =
        staging.blocks.filter fun other => decide (other.block.n < block.block.n) :=
      blocks_jumpAsFollower block aeStats
    rw [jumped, filter_filter]
    refine filter_congr fun other member => ?_
    rcases above with above | empty
    · rw [wrappingPred_of_pos (by omega), ← Bool.decide_and, decide_eq_decide]
      omega
    · rw [empty] at member
      cases member

theorem mirrored_pushBlock {block final} (mirrored : Mirrored staging.toStagingCore)
    (inv : ChainInv staging.toStagingCore) (pushedInv : ChainInv (pushBlock staging block final).toStagingCore) :
    Mirrored (pushBlock staging block final).toStagingCore := by
  have grown : (pushBlock staging block final).log = staging.log ++ [block] := by
    rw [StagingCore.log, blocks_pushBlock, ← append_assoc]
    rfl
  exact mirrored.send pushedInv rfl fun mirrors =>
    mirrors.newBlock inv (grown ▸ pushedInv.chain) rfl grown

theorem mirrored_maybeByzantineCommit (crypto) {qc} (mirrored : Mirrored staging.toStagingCore)
    (inv : ChainInv staging.toStagingCore) (inside : qc.n ≤ staging.log.length) :
    Mirrored (maybeByzantineCommit crypto staging qc).toStagingCore := by
  have committedInv := (inv.maybeByzantineCommit crypto inside).1
  obtain ⟨_, noted⟩ := noteQc_core staging qc
  have mirroredNoted : Mirrored (noteQc staging qc).toStagingCore := by
    rw [noted]
    exact mirrored.quiet rfl rfl rfl
  unfold maybeByzantineCommit at committedInv ⊢
  dsimp only at committedInv ⊢
  generalize newBci crypto.config (noteQc staging qc) qc = target at committedInv ⊢
  by_cases advances : (noteQc staging qc).bci < target
  · let committed := doByzantineCommit (noteQc staging qc) (noteQc staging qc).bci target
    have sent : committed.logserverTx = (noteQc staging qc).logserverTx ++ [.updateBCI target] := by
      simp only [committed, doByzantineCommit, if_neg (Nat.not_le.mpr advances)]
    exact mirroredNoted.send committedInv sent fun mirrors =>
      mirrors.updateBCI (by omega) (bci_doByzantineCommit _ advances) (log_doByzantineCommit _ _)
  · rwa [doByzantineCommit, if_pos (Nat.not_lt.mp advances)]

private def Together (log : List CachedBlock) (core : StagingCore) : Prop :=
  ChainInv core ∧ core.log = log ∧ Mirrored core

private theorem Together.quiet {log} (together : Together log core) (cut : Cut core next)
    (sameLog : next.log = core.log) (sent : next.logserverTx = core.logserverTx) :
    Together log next :=
  ⟨together.1.cut cut, sameLog.trans together.2.1, together.2.2.quiet sent cut.bci sameLog⟩

private theorem Together.commit {log} (together : Together log staging.toStagingCore) {qc}
    (inside : qc.n ≤ log.length) :
    Together log (maybeByzantineCommit crypto staging qc).toStagingCore := by
  obtain ⟨inv, rfl, mirrored⟩ := together
  obtain ⟨inv', sameLog⟩ := inv.maybeByzantineCommit crypto inside
  exact ⟨inv', sameLog, mirrored_maybeByzantineCommit crypto mirrored inv inside⟩

private theorem Together.crash {log} (together : Together log staging.toStagingCore) (oldCi newCi) :
    Together log (doCrashCommit staging oldCi newCi).toStagingCore := by
  refine together.quiet (doCrashCommit_cut _ _ _) (log_doCrashCommit _ _ _) ?_
  rw [doCrashCommit_core]
  split <;> rfl

private theorem Together.create {log} (together : Together log staging.toStagingCore)
    (result : maybeCreateQcs crypto staging = some after) : Together log after.toStagingCore := by
  refine maybeCreateQcs_rule (motive := Together log) (fun _ kept => kept.quiet ⟨prefix_rfl, rfl, rfl, rfl⟩ rfl rfl)
    (fun _ _ _ _ _ _ kept => kept.quiet ⟨prefix_rfl, rfl, rfl, rfl⟩ rfl rfl) ?_ ?_ result
  · intro current entry member _ _ _ kept
    refine kept.commit ?_
    rw [← together.2.1, together.1.log_length]
    exact (together.1.pending.seq_mem (mem_map_of_mem member)).2
  · intro thresh
    have blocks := blocks_markProposed thresh (byzantineFastPathThreshold crypto.config) staging.pendingBlocks
    exact together.quiet ⟨by rw [StagingCore.blocks, blocks, StagingCore.blocks], rfl, rfl, rfl⟩
      (congrArg (staging.committed ++ ·) blocks) rfl

theorem mirrored_counts {sender vote} (counts : Counts crypto staging sender vote after)
    (inv : ChainInv staging.toStagingCore) (mirrored : Mirrored staging.toStagingCore) :
    Mirrored after.toStagingCore := by
  obtain ⟨_, crashes, creates⟩ := counts.result
  obtain ⟨thresh, -, rfl⟩ := Option.map_eq_some_iff.mp crashes
  let counted := countVote staging sender vote
  let noted := noteCommit counted (crashCommitIndex thresh counted.ci counted.pendingBlocks)
  have together : Together staging.log counted.toStagingCore := by
    have before : Together staging.log staging.toStagingCore := ⟨inv, rfl, mirrored⟩
    refine before.quiet ⟨by rw [blocks_countVote], rfl, rfl, rfl⟩ ?_ rfl
    rw [StagingCore.log, blocks_countVote]
    rfl
  have together : Together staging.log noted.toStagingCore := together.quiet ⟨prefix_rfl, rfl, rfl, rfl⟩ rfl rfl
  exact ((together.crash _ _).create creates).2.2

theorem mirrored_follow {certified qcs aeStats final oldViewIsStable} (inv : ChainInv staging.toStagingCore)
    (mirrored : Mirrored staging.toStagingCore) (inside : ∀ qc ∈ qcs, qc.n ≤ staging.log.length)
    (processed : processQcs crypto oldViewIsStable (crashAsFollower staging aeStats final) qcs =
      some certified) (ends : EndsFollowing crypto certified final after) : Mirrored after.toStagingCore := by
  have together : Together staging.log staging.toStagingCore := ⟨inv, rfl, mirrored⟩
  have crashed : Together staging.log (crashAsFollower staging aeStats final).toStagingCore := by
    unfold crashAsFollower
    split
    · exact together.crash _ _
    · exact together
  have followed : Together staging.log certified.toStagingCore :=
    processQcs_rule (fun _ kept => kept.quiet ⟨prefix_rfl, rfl, rfl, rfl⟩ rfl rfl)
      (fun _ qc attached kept => kept.commit (inside qc attached)) crashed processed
  obtain ⟨cut, sameLog⟩ := ends.cut
  obtain ⟨_, _, core⟩ := ends.core
  exact (followed.quiet cut sameLog (by rw [core])).2.2

theorem mirrored_accepts {block storageAck aeStats final} (enters : Enters crypto staging block aeStats entered)
    (mirrored : Mirrored staging.toStagingCore) (inv : ChainInv staging.toStagingCore)
    (ok : MirrorOk staging (.block block storageAck aeStats final))
    (continuous : checkContinuity (settleForBlock entered block aeStats) block = true) :
    Mirrored (pushBlock (settleForBlock entered block aeStats) block final).toStagingCore := by
  have entry := inv.cut (enters.cut inv)
  exact mirrored_pushBlock (mirrored_enters enters mirrored inv ok.2)
    (entry.cut (settleForBlock_cut entry block aeStats)) (pushBlock_chain inv ok.1 enters continuous).1

theorem mirrored_truncate (inv : ChainInv staging.toStagingCore) (mirrored : Mirrored staging.toStagingCore)
    (empty : staging.pendingBlocks = []) (retainN) :
    Mirrored (truncateForNewView staging retainN).toStagingCore := by
  have kept := truncateForNewView_cut inv retainN
  refine mirrored.quiet ?_ kept.bci ?_
  · unfold truncateForNewView
    dsimp only
    split <;> rfl
  · rw [StagingCore.log, kept.committed, blocks_truncateForNewView, StagingCore.log,
      StagingCore.blocks, empty, map_nil, filter_nil]

theorem transition_mirrored {event} (transition : Transition crypto staging event after)
    (inv : ChainInv staging.toStagingCore) (mirrored : Mirrored staging.toStagingCore)
    (ok : MirrorOk staging event) : Mirrored after.toStagingCore := by
  cases transition with
  | idle core => rwa [core]
  | enterView _ _ core =>
    rw [core]
    exact mirrored.quiet rfl rfl rfl
  | newView current unstable _ _ core =>
    rw [core]
    exact mirrored_truncate inv mirrored (ok.2 current unstable) _
  | vote _ _ counts => exact mirrored_counts counts inv mirrored
  | reject enters _ => exact mirrored_enters enters mirrored inv ok.2
  | append enters _ continuous core =>
    rw [core]
    exact mirrored_accepts enters mirrored inv ok continuous
  | lead enters _ continuous core counts =>
    refine mirrored_counts counts ?_ ?_
    · rw [core]
      exact (pushBlock_chain inv ok.1 enters continuous).1
    · rw [core]
      exact mirrored_accepts enters mirrored inv ok continuous
  | follow enters _ continuous processed ends =>
    obtain ⟨pushed, -, number⟩ := pushBlock_chain inv ok.1 enters continuous
    exact mirrored_follow pushed (mirrored_accepts enters mirrored inv ok continuous) (number ▸ ok.1.1) processed ends

/-- In every run in which rollbacks stay above the first block after `bci`, the
log server follows the staging stage: whatever it collected below `bci`, above
it holds exactly the pending blocks. -/
theorem log_above_bci_eq_pending (withQcs : crypto.config.features.noQc = false)
    (reached : Reaches (step crypto) MirrorOk (new crypto.config) staging) (inputs : List Input)
    (received : commandsOf inputs = staging.logserverTx) (below : GcBelow {} inputs) :
    let server := inputs.foldl handle {}
    server.bci = staging.bci ∧
      (server.log.filter fun block => decide (staging.bci < block.block.n)) = staging.blocks := by
  have both := reached.invariant
    (motive := fun staging => ChainInv staging.toStagingCore ∧ Mirrored staging.toStagingCore) ?_ ?_
  · have mirrors := both.2 inputs received below
    exact ⟨mirrors.bci, mirrors.above both.1⟩
  · refine ⟨chainInv_new crypto.config, fun inputs received below => ?_⟩
    have initial : ChainInv (new crypto.config).toStagingCore := chainInv_new crypto.config
    have start : Mirrors {} (new crypto.config).toStagingCore := by
      unfold new
      split <;> exact ⟨rfl, 0, rfl, .inr rfl⟩
    refine start.gcs initial (received.trans ?_) below
    unfold new
    split <;> rfl
  · intro before after event ⟨inv, mirrored⟩ ok taken
    have transition := step_transition withQcs taken
    exact ⟨transition.chain inv ok.1, transition_mirrored transition inv mirrored ok⟩

/-- A block right above `bci` is replaced in view 2. The server keeps the old
block and refuses the new one. -/
theorem replaced_block_is_refused :
    ∃ staging, Reaches (step (threeNodes "node3")) Any (new (threeNodes "node3").config) staging ∧
      let server := (staging.logserverTx.map Input.command).foldl handle {}
      (server.log.filter fun block => decide (staging.bci < block.block.n)) ≠ staging.blocks :=
  exists_reaches_any [deliver (sampleBlock 1 1 1 0 []) 1 0 false, deliver (sampleBlock 1 2 2 0 []) 2 0 false]
    (by decide)

theorem log_above_bci_after_delivery :
    ∃ staging, Reaches (step (threeNodes "node3")) MirrorOk (new (threeNodes "node3").config) staging ∧
      staging.bci = 1 ∧
      let server := (staging.logserverTx.map Input.command ++ [Input.gc 0]).foldl handle {}
      server.bci = staging.bci ∧
        (server.log.filter fun block => decide (staging.bci < block.block.n)) = staging.blocks := by
  have ran : ∃ staging, Reaches (step (threeNodes "node3")) MirrorOk (new (threeNodes "node3").config)
      staging ∧ staging.bci = 1 ∧ GcBelow {} (staging.logserverTx.map Input.command ++ [Input.gc 0]) :=
    exists_reaches delivery (by decide) (by decide)
  obtain ⟨staging, reached, bci, below⟩ := ran
  refine ⟨staging, reached, bci, log_above_bci_eq_pending rfl reached _ ?_ below⟩
  simp [commandsOf]

end PirateShip.LogServer
