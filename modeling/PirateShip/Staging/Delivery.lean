import PirateShip.Staging.ChainInvariant
import PirateShip.Staging.Votes

/-! What the application is told, read as a log of executions: crash commits
execute, rollbacks undo, and a byzantine commit names executed blocks. -/

set_option autoImplicit false

namespace PirateShip

open List HashLinked Option

/-- The blocks executed and not undone, and the last byzantine committed number. -/
structure Execution where
  executed : List CachedBlock := []
  byz : Nat := 0

namespace Execution

def apply (execution : Execution) : AppCommand → Execution
  | .newRequestBatch .. => execution
  | .crashCommit blocks => { execution with executed := execution.executed ++ blocks }
  | .byzCommit blocks => { execution with byz := (blocks.getLast?.map (·.block.n)).getD execution.byz }
  | .rollback m => { execution with
      executed := execution.executed.filter fun block => decide (block.block.n ≤ max m execution.byz) }

def lastN (execution : Execution) : Nat := (execution.executed.getLast?.map (·.block.n)).getD 0

/-- A crash commit continues the execution, a byzantine commit names executed blocks. -/
def Disciplined (execution : Execution) : AppCommand → Prop
  | .crashCommit blocks => Follows execution.lastN (execution.executed.getLast?.map (·.blockHash)) blocks
  | .byzCommit blocks => ∀ block ∈ blocks, block ∈ execution.executed
  | .newRequestBatch .. | .rollback _ => True

def AllDisciplined : Execution → List AppCommand → Prop
  | _, [] => True
  | execution, command :: rest =>
    execution.Disciplined command ∧ AllDisciplined (execution.apply command) rest

instance (execution : Execution) : ∀ command, Decidable (execution.Disciplined command)
  | .crashCommit _ => inferInstanceAs (Decidable (Follows _ _ _))
  | .byzCommit _ => inferInstanceAs (Decidable (∀ _ ∈ _, _))
  | .newRequestBatch .. | .rollback _ => isTrue trivial

instance decidableAllDisciplined :
    ∀ (execution : Execution) (commands : List AppCommand), Decidable (AllDisciplined execution commands)
  | _, [] => isTrue trivial
  | execution, command :: rest =>
    have := decidableAllDisciplined (execution.apply command) rest
    inferInstanceAs (Decidable (_ ∧ _))

theorem allDisciplined_concat {execution commands command} : AllDisciplined execution (commands ++ [command]) ↔
      AllDisciplined execution commands ∧ (commands.foldl apply execution).Disciplined command := by
  induction commands generalizing execution with
  | nil => simp [AllDisciplined]
  | cons first rest ih =>
    rw [cons_append, AllDisciplined, AllDisciplined, ih, foldl_cons, and_assoc]

end Execution

namespace Staging

open StepSystem

variable {crypto : CryptoService} {staging entered after : Staging} {core next : StagingCore}
variable {block : CachedBlock} {storageAck : StorageAck} {aeStats : AppendEntriesStats} {final oldViewIsStable : Bool}
  {qc : ProtoQuorumCertificate} {sender : String} {thresh retainN : Nat}

def execution (core : StagingCore) : Execution := core.appTx.foldl Execution.apply {}

structure Delivered (core : StagingCore) : Prop where
  disciplined : Execution.AllDisciplined {} core.appTx
  executed : (execution core).executed = core.log.take core.ci
  byz : (execution core).byz = core.bci
  bci_le : core.bci ≤ core.ci
  ci_le : core.ci ≤ core.log.length

namespace Delivered

variable {newCi : Nat}

theorem executed_le (delivered : Delivered core) (inv : ChainInv core) {block}
    (member : block ∈ (execution core).executed) : block.block.n ≤ core.ci := by
  rw [delivered.executed] at member
  have number := ((inv.chain.take core.ci).seq_mem member).2
  rw [length_take, CachedBlock.seq_eq] at number
  omega

theorem quiet (delivered : Delivered core) (app : next.appTx = core.appTx) (ci : next.ci = core.ci)
    (bci : next.bci = core.bci) (log : next.log.take core.ci = core.log.take core.ci) : Delivered next := by
  have length := congrArg List.length log
  rw [length_take, length_take] at length
  have := delivered.ci_le
  refine ⟨app ▸ delivered.disciplined, ?_, ?_, by rw [bci, ci]; exact delivered.bci_le, by omega⟩
  · rw [execution, app, ci, log]
    exact delivered.executed
  · rw [execution, app, bci]
    exact delivered.byz

theorem rollback (delivered : Delivered core) (inv : ChainInv core) {m}
    (app : next.appTx = core.appTx ++ [.rollback m]) (ci : next.ci = core.ci) (bci : next.bci = core.bci)
    (log : next.log.take core.ci = core.log.take core.ci) (above : core.ci ≤ max m core.bci) : Delivered next := by
  have same : execution next = execution core := by
    have keeps : ((execution core).executed.filter fun block =>
        decide (block.block.n ≤ max m (execution core).byz)) = (execution core).executed := by
      refine filter_eq_self.mpr fun block member => decide_eq_true ?_
      have := delivered.executed_le inv member
      rw [delivered.byz]
      omega
    rw [execution, app, foldl_append]
    exact congrArg (fun executed => { execution core with executed }) keeps
  have length := congrArg List.length log
  rw [length_take, length_take] at length
  have := delivered.ci_le
  refine ⟨?_, ?_, ?_, by rw [bci, ci]; exact delivered.bci_le, by omega⟩
  · rw [app]
    exact Execution.allDisciplined_concat.mpr ⟨delivered.disciplined, trivial⟩
  · rw [same, ci, log]
    exact delivered.executed
  · rw [same, bci]
    exact delivered.byz

theorem crash_batch (inv : ChainInv core) {oldCi} (ordered : core.bci ≤ oldCi) (grows : oldCi ≤ newCi) :
    (core.log.take oldCi ++ core.blocks.filter fun block => decide (oldCi < block.block.n ∧ block.block.n ≤ newCi)) =
      core.log.take newCi := by
  have upper : (core.blocks.filter fun block => decide (block.block.n ≤ newCi)) =
      core.blocks.take (newCi - core.bci) := inv.pending.filter_seq_le newCi
  have lower : ((core.blocks.take (newCi - core.bci)).filter fun block => decide (oldCi < block.block.n)) =
      (core.blocks.take (newCi - core.bci)).drop (oldCi - core.bci) :=
    (inv.pending.take _).filter_lt_seq oldCi
  have batch : (core.blocks.filter fun block => decide (oldCi < block.block.n ∧ block.block.n ≤ newCi)) =
      (core.blocks.take (newCi - core.bci)).drop (oldCi - core.bci) := by
    rw [← lower, ← upper, List.filter_filter]
    simp only [Bool.decide_and]
  have shorter : core.blocks.take (oldCi - core.bci) =
      (core.blocks.take (newCi - core.bci)).take (oldCi - core.bci) := by
    rw [take_take, Nat.min_eq_left (by omega)]
  rw [batch, inv.log_take ordered, inv.log_take (ordered.trans grows), append_assoc, shorter, take_append_drop]

theorem executed_end (delivered : Delivered core) (inv : ChainInv core) : (execution core).lastN = core.ci ∧
      (execution core).executed.getLast?.map (·.blockHash) = endTip none (core.log.take core.ci) := by
  have known := delivered.ci_le
  rw [Execution.lastN, delivered.executed]
  refine ⟨?_, or_none.symm⟩
  cases atEnd : (core.log.take core.ci).getLast? with
  | none =>
    have empty := congrArg List.length (getLast?_eq_none_iff.mp atEnd)
    rw [length_take, length_nil] at empty
    rw [map_none, getD_none]
    omega
  | some tip =>
    have number := (inv.chain.take core.ci).seq_getLast? atEnd
    rw [length_take, CachedBlock.seq_eq] at number
    rw [map_some, getD_some]
    omega

theorem crash (delivered : Delivered core) (inv : ChainInv core) {batch} (grows : core.ci ≤ newCi)
    (inside : newCi ≤ core.log.length) (whole : core.log.take core.ci ++ batch = core.log.take newCi)
    (app : next.appTx = core.appTx ++ [.crashCommit batch]) (ci : next.ci = newCi) (bci : next.bci = core.bci)
    (log : next.log = core.log) : Delivered next := by
  have executes : execution next = { execution core with executed := (execution core).executed ++ batch } := by
    rw [execution, app, foldl_append]
    rfl
  have ordered := delivered.bci_le
  refine ⟨?_, ?_, ?_, by omega, by rw [ci, log]; exact inside⟩
  · rw [app]
    refine Execution.allDisciplined_concat.mpr ⟨delivered.disciplined, ?_⟩
    obtain ⟨lastNumber, lastHash⟩ := delivered.executed_end inv
    have chain := inv.chain.take newCi
    rw [← whole, follows_append, length_take, Nat.min_eq_left delivered.ci_le, Nat.zero_add] at chain
    rw [Execution.Disciplined]
    exact lastNumber ▸ lastHash ▸ chain.2
  · rw [executes, ci, log, ← whole, delivered.executed]
  · rw [executes, bci]
    exact delivered.byz

theorem doCrashCommit (delivered : Delivered staging.toStagingCore)
    (inv : ChainInv staging.toStagingCore) (inside : newCi ≤ max staging.ci staging.log.length) :
    Delivered (Staging.doCrashCommit staging staging.ci newCi).toStagingCore := by
  by_cases grows : newCi ≤ staging.ci
  · rwa [doCrashCommit_core, if_pos grows]
  · have whole := crash_batch inv delivered.bci_le (Nat.le_of_not_le grows)
    have ci : (Staging.doCrashCommit staging staging.ci newCi).ci = newCi := by
      rw [doCrashCommit_core, if_neg grows]
    refine delivered.crash inv (by omega) (by omega) whole ?_ ci ?_ (log_doCrashCommit _ _ _)
    · rw [doCrashCommit_core, if_neg grows]
    · rw [doCrashCommit_core, if_neg grows]

theorem commit (delivered : Delivered core) {newBci batch last} (below : newBci ≤ core.ci)
    (named : ∀ block ∈ batch, block ∈ core.log.take core.ci) (atEnd : batch.getLast? = some last)
    (number : last.block.n = newBci) (app : next.appTx = core.appTx ++ [.byzCommit batch]) (ci : next.ci = core.ci)
    (bci : next.bci = newBci) (log : next.log = core.log) : Delivered next := by
  have names : execution next = { execution core with byz := newBci } := by
    rw [execution, app, foldl_append]
    simp only [foldl_cons, Execution.apply, atEnd, map_some, number]
    rfl
  refine ⟨?_, ?_, by rw [names, bci], by omega, by rw [ci, log]; exact delivered.ci_le⟩
  · rw [app]
    refine Execution.allDisciplined_concat.mpr ⟨delivered.disciplined, fun block member => ?_⟩
    exact delivered.executed ▸ named block member
  · rw [names, ci, log]
    exact delivered.executed

theorem doByzantineCommit (delivered : Delivered staging.toStagingCore) (inv : ChainInv staging.toStagingCore)
    {newBci} (below : newBci ≤ staging.ci) :
    Delivered (Staging.doByzantineCommit staging staging.bci newBci).toStagingCore := by
  by_cases advances : staging.bci < newBci
  · obtain ⟨popped, -, _, atEnd, number⟩ := inv.batch advances (below.trans delivered.ci_le)
    have app := appTx_doByzantineCommit staging advances
    rw [popped] at app
    refine delivered.commit below (fun block member => ?_) atEnd number app ?_
      (bci_doByzantineCommit staging advances) (log_doByzantineCommit _ _)
    · rw [← Nat.min_eq_left (Nat.sub_le_sub_right below staging.bci), ← take_take] at member
      rw [inv.log_take delivered.bci_le]
      exact mem_append_right _ (take_subset _ _ member)
    · simp only [Staging.doByzantineCommit, if_neg (Nat.not_le.mpr advances)]
  · rwa [Staging.doByzantineCommit, if_pos (Nat.not_lt.mp advances)]

/-- Cutting the log before a block keeps what is executed, if the block is above
`ci` or everything executed is committed. -/
theorem kept (delivered : Delivered core) (inv : ChainInv core) {n} (above : core.ci < n ∨ core.ci = core.bci)
    (cut : Cut core next)
    (blocks : 0 < n → next.blocks = core.blocks.filter fun block => decide (block.block.n < n)) :
    next.log.take core.ci = core.log.take core.ci := by
  have inside : core.ci ≤ next.log.length := by
    rcases above with above | committed
    · have pending : (core.blocks.filter fun block => decide (block.block.n < n)) =
          core.blocks.take (n - 1 - core.bci) := inv.pending.filter_seq_lt n
      have length := inv.log_length
      have known := delivered.ci_le
      rw [StagingCore.log, length_append, cut.committed, inv.length, blocks (by omega), pending, length_take]
      omega
    · rw [committed, ← cut.bci, (inv.cut cut).log_length]
      omega
  obtain ⟨_, whole⟩ := cut.log
  rw [← whole, take_append_of_le_length inside]

theorem rollbackBefore (delivered : Delivered core) (inv : ChainInv core) {n}
    (above : core.ci < n ∨ core.ci = core.bci) (cut : Cut core next)
    (app : next.appTx = core.appTx ++ [.rollback (wrappingPred n)]) (ci : next.ci = core.ci)
    (blocks : next.blocks = core.blocks.filter fun block => decide (block.block.n ≤ wrappingPred n)) :
    Delivered next := by
  refine delivered.rollback inv app ci cut.bci (delivered.kept inv above cut fun positive => ?_) ?_
  · refine blocks.trans (filter_congr fun block _ => ?_)
    rw [wrappingPred_of_pos positive, decide_eq_decide]
    omega
  · rcases above with above | _
    · rw [wrappingPred_of_pos (by omega)]
      omega
    · omega

end Delivered

/-!
## Blocks and votes
-/

def ciWith (staging : Staging) (aeStats : AppendEntriesStats) (final : Bool) : Nat :=
  if final then max staging.ci aeStats.ci else staging.ci

/-- What the commit rules would make of a certificate of the block is not above `ci`. -/
def CommitsBelow (config : Config) (staging : Staging) (block : CachedBlock) (ci : Nat)
    (qc : ProtoQuorumCertificate) : Prop :=
  (byzantineFastPathThreshold config ≤ qc.sig.length → qc.n ≤ ci) ∧
    ∀ other ∈ block :: staging.blocks, other.block.n < block.block.n ∨ other = block →
      other.block.n ≤ qc.n → ∀ inner ∈ other.block.qc, inner.n ≤ ci

instance (config : Config) (staging : Staging) (block : CachedBlock) (ci : Nat)
    (qc : ProtoQuorumCertificate) : Decidable (CommitsBelow config staging block ci qc) :=
  inferInstanceAs (Decidable (_ ∧ _))

/-- Beside the conditions for a chain: a rollback undoes nothing that is
executed, and the commit index a follower takes over neither passes the block
nor stays behind what its certificates commit. A vote signs nothing above the
block it votes for. -/
def ExecutionOk (crypto : CryptoService) (staging : Staging) : Event → Prop
  | .block block _ aeStats final => staging.view ≤ aeStats.view →
    ((aeStats.view = staging.view ∧ staging.viewIsStable = true ∧ aeStats.viewIsStable = true) ∨
      staging.ci < block.block.n ∨ staging.ci = staging.bci) ∧
    (crypto.config.getLeaderForView aeStats.view ≠ crypto.config.netConfig.name →
      ciWith staging aeStats final ≤ max staging.ci block.block.n ∧
      ∀ qc ∈ block.block.qc,
        CommitsBelow crypto.config staging block (ciWith staging aeStats final) qc)
  | .vote _ vote => ∀ sig ∈ vote.sigArray, sig.n ≤ vote.n
  | _ => True

instance (crypto : CryptoService) (staging : Staging) : ∀ event, Decidable (ExecutionOk crypto staging event)
  | .block .. => inferInstanceAs (Decidable (_ → _ ∧ _))
  | .vote .. => inferInstanceAs (Decidable (∀ _ ∈ _, _))
  | .timerTick _ | .pacemaker _ => inferInstanceAs (Decidable True)

def DeliveryOk (crypto : CryptoService) (staging : Staging) (event : Event) : Prop :=
  ChainOk staging event ∧ ExecutionOk crypto staging event

instance (crypto : CryptoService) (staging : Staging) (event : Event) :
    Decidable (DeliveryOk crypto staging event) :=
  inferInstanceAs (Decidable (_ ∧ _))

theorem Delivered.settle (aeStats) (delivered : Delivered staging.toStagingCore)
    (inv : ChainInv staging.toStagingCore) (above : staging.ci < block.block.n ∨ staging.ci = staging.bci) :
    Delivered (settleForBlock staging block aeStats).toStagingCore := by
  have cut := settleForBlock_cut inv block aeStats
  rw [settleForBlock_core] at cut ⊢
  split
  · exact delivered
  · next unstable =>
    rw [if_neg unstable] at cut
    exact delivered.rollbackBefore inv above cut rfl rfl (blocks_rollback _)

theorem Enters.delivered
    (enters : Enters crypto staging block aeStats entered) (delivered : Delivered staging.toStagingCore)
    (inv : ChainInv staging.toStagingCore)
    (ok : ExecutionOk crypto staging (.block block storageAck aeStats final)) :
    Delivered (settleForBlock entered block aeStats).toStagingCore := by
  have cut := enters.cut inv
  have entry := inv.cut cut
  cases enters with
  | sameView same =>
    rcases (ok (by omega)).1 with ⟨-, stable⟩ | above
    · rwa [settleForBlock_core, if_pos stable]
    · exact delivered.settle aeStats inv above
  | leaderJumps later _ =>
    have above := (ok (by omega)).1.resolve_left fun same => absurd same.1 (by omega)
    refine Delivered.settle aeStats ?_ entry above
    exact delivered.rollbackBefore inv above cut rfl rfl (blocks_jumpAsLeader block aeStats)
  | followerJumps later _ =>
    have above := (ok (by omega)).1.resolve_left fun same => absurd same.1 (by omega)
    refine Delivered.settle aeStats ?_ entry above
    exact delivered.quiet rfl rfl rfl (delivered.kept inv above cut fun _ => blocks_jumpAsFollower block aeStats)

theorem Delivered.push (delivered : Delivered staging.toStagingCore) (block final) :
    Delivered (pushBlock staging block final).toStagingCore := by
  refine delivered.quiet rfl rfl rfl ?_
  have grown : (pushBlock staging block final).log = staging.log ++ [block] := by
    rw [StagingCore.log, blocks_pushBlock, ← append_assoc]
    rfl
  rw [grown, take_append_of_le_length delivered.ci_le]

theorem Delivered.maybeByzantineCommit (crypto) (delivered : Delivered staging.toStagingCore)
    (inv : ChainInv staging.toStagingCore)
    (fast : byzantineFastPathThreshold crypto.config ≤ qc.sig.length → qc.n ≤ staging.ci)
    (pending : ∀ block ∈ staging.blocks, block.block.n ≤ qc.n → ∀ other ∈ block.block.qc, other.n ≤ staging.ci) :
    Delivered (maybeByzantineCommit crypto staging qc).toStagingCore ∧
      (maybeByzantineCommit crypto staging qc).ci = staging.ci ∧
      (maybeByzantineCommit crypto staging qc).blocks ⊆ staging.blocks := by
  obtain ⟨_, noted⟩ := noteQc_core staging qc
  have notedInv : ChainInv (noteQc staging qc).toStagingCore := by
    rw [noted]
    exact inv.cut ⟨prefix_rfl, rfl, rfl, rfl⟩
  have notedDelivered : Delivered (noteQc staging qc).toStagingCore := by
    rw [noted]
    exact delivered.quiet rfl rfl rfl rfl
  have ci : (noteQc staging qc).ci = staging.ci := by rw [noted]
  have blocks : (noteQc staging qc).blocks = staging.blocks := by
    rw [noted]
    rfl
  have target : newBci crypto.config (noteQc staging qc) qc ≤ (noteQc staging qc).ci := by
    rw [ci]
    exact newBci_le (ci ▸ notedDelivered.bci_le) fast notedInv.qcs (blocks ▸ pending)
  refine ⟨notedDelivered.doByzantineCommit notedInv target, ?_, ?_⟩
  · rw [← ci, Staging.maybeByzantineCommit]
    unfold Staging.doByzantineCommit
    split <;> rfl
  · have fewer := (fewer_respected.maybeByzantineCommit crypto staging qc).pending
    exact map_subset _ fewer

/-!
## Following
-/

theorem follow_delivered {certified} (inv : ChainInv staging.toStagingCore)
    (delivered : Delivered staging.toStagingCore)
    (inside : ciWith staging aeStats final ≤ max staging.ci staging.log.length)
    (below : ∀ qc ∈ block.block.qc,
      (byzantineFastPathThreshold crypto.config ≤ qc.sig.length → qc.n ≤ ciWith staging aeStats final) ∧
      ∀ other ∈ staging.blocks, other.block.n ≤ qc.n →
        ∀ inner ∈ other.block.qc, inner.n ≤ ciWith staging aeStats final)
    (certificates : ∀ qc ∈ block.block.qc, qc.n ≤ staging.log.length)
    (processed : processQcs crypto oldViewIsStable (crashAsFollower staging aeStats final)
      block.block.qc = some certified) (ends : EndsFollowing crypto certified final after) :
    Delivered after.toStagingCore := by
  let crashed := crashAsFollower staging aeStats final
  obtain ⟨crash, crashLog⟩ := crashAsFollower_cut staging aeStats final
  have crashedDelivered : Delivered crashed.toStagingCore ∧ crashed.ci = ciWith staging aeStats final := by
    simp only [crashed, crashAsFollower, ciWith] at inside ⊢
    split
    · next isFinal =>
      rw [if_pos isFinal] at inside
      refine ⟨delivered.doCrashCommit inv (by omega), ?_⟩
      rw [doCrashCommit_core]
      split
      · omega
      · simp only
        omega
    · exact ⟨delivered, rfl⟩
  have followed := processQcs_rule (motive := fun core => (ChainInv core ∧ core.log = staging.log) ∧ Delivered core ∧
      core.ci = ciWith staging aeStats final ∧ core.blocks ⊆ staging.blocks)
    (fun core ⟨⟨inv, log⟩, delivered, rest⟩ =>
      ⟨⟨inv.cut ⟨prefix_rfl, rfl, rfl, rfl⟩, log⟩, delivered.quiet rfl rfl rfl rfl, rest⟩)
    ?_ ⟨⟨inv.cut crash, crashLog⟩, crashedDelivered.1, crashedDelivered.2, crash.blocks.subset⟩ processed
  · obtain ⟨_, _, core⟩ := ends.core
    rw [core]
    exact followed.2.1.quiet rfl rfl rfl rfl
  · intro current qc attached ⟨⟨inv, log⟩, delivered, ci, blocks⟩
    obtain ⟨fast, slow⟩ := below qc attached
    obtain ⟨delivered', ci', fewer⟩ := delivered.maybeByzantineCommit crypto inv (ci ▸ fast)
      (ci ▸ fun other member => slow other (blocks member))
    obtain ⟨inv', log'⟩ := inv.maybeByzantineCommit crypto (log ▸ certificates qc attached)
    exact ⟨⟨inv', log'.trans log⟩, delivered', ci'.trans ci, fun _ member => blocks (fewer member)⟩

/-!
## Leading
-/

def SignersAck (core : StagingCore) : Prop :=
  ∀ entry ∈ core.pendingBlocks, ∀ name ∈ entry.voteSigs.keys, name ∈ entry.replicationSet

theorem SignersAck.fewer (acks : SignersAck core) (fewer : Fewer core next) : SignersAck next :=
  fun entry member => acks entry (fewer.pending member)

theorem signersAck_of_unvoted (unvoted : ∀ entry ∈ core.pendingBlocks, Unvoted entry) : SignersAck core := by
  intro entry member name signed
  rw [(unvoted entry member).2] at signed
  cases signed

theorem SignersAck.push (acks : SignersAck staging.toStagingCore) (block final) :
    SignersAck (pushBlock staging block final).toStagingCore := by
  intro entry member name signed
  rcases mem_append.mp member with member | member
  · exact acks entry member name signed
  · rw [mem_singleton.mp member] at signed
    cases signed

theorem SignersAck.countVote (acks : SignersAck staging.toStagingCore) {vote}
    (signs : ∀ sig ∈ vote.sigArray, sig.n ≤ vote.n) :
    SignersAck (countVote staging sender vote).toStagingCore := by
  intro entry member name signed
  obtain ⟨old, held, -, replicated, sigsOf⟩ := mem_recordVote member
  obtain ⟨sig, found⟩ := isSome_iff_exists.mp (AList.lookup_isSome.mpr (AList.mem_keys.mp signed))
  have known (member : name ∈ old.replicationSet) : name ∈ entry.replicationSet := by
    rw [replicated]
    split
    · exact Finset.mem_insert_of_mem member
    · exact member
  rcases sigsOf name sig found with found | ⟨rfl, mine, number, -⟩
  · exact known (acks old held name (AList.mem_keys.mpr (AList.lookup_isSome.mp (isSome_of_mem found))))
  · rw [replicated, if_pos (number ▸ signs sig mine)]
    exact Finset.mem_insert_self _ _

theorem crashCommitQuorum_le {config} (valid : config.consensusConfig.Valid) {byz}
    (quorum : crashCommitQuorum config staging = some thresh) (known : byzantineCommitThreshold config = some byz) :
    thresh ≤ byz ∧ thresh ≤ byzantineFastPathThreshold config := by
  obtain ⟨majority, fast⟩ := byzantineCommitThreshold_bounds valid known
  unfold crashCommitQuorum at quorum
  split at quorum
  · cases quorum
    exact ⟨majority, majority.trans fast⟩
  · split at quorum
    · rw [known] at quorum
      cases quorum
      exact ⟨Nat.le_refl _, fast⟩
    · cases quorum
      exact ⟨majority, majority.trans fast⟩

theorem signed_le_crashCommitIndex (acks : SignersAck core) {enough} (quorum : thresh ≤ enough) {entry}
    (member : entry ∈ core.pendingBlocks) (signed : enough ≤ entry.voteSigs.keys.length) :
    entry.n ≤ crashCommitIndex thresh core.ci core.pendingBlocks := by
  refine (crashCommitIndex_spec thresh core.ci core.pendingBlocks).2.2 entry member ?_
  have distinct := toFinset_card_of_nodup entry.voteSigs.keys_nodup
  have covered : entry.voteSigs.keys.toFinset ⊆ entry.replicationSet := fun name signed =>
    acks entry member name (mem_toFinset.mp signed)
  have := Finset.card_le_card covered
  omega

theorem SignersAck.markProposed (acks : SignersAck core) (thresh fastThresh) :
    SignersAck { core with pendingBlocks := core.pendingBlocks.map (markProposed thresh fastThresh) } := by
  intro entry member name signed
  obtain ⟨old, held, rfl⟩ := mem_map.mp member
  have same : (Staging.markProposed thresh fastThresh old).replicationSet = old.replicationSet ∧
      (Staging.markProposed thresh fastThresh old).voteSigs = old.voteSigs := by
    unfold Staging.markProposed
    split <;> exact ⟨rfl, rfl⟩
  rw [same.1]
  rw [same.2] at signed
  exact acks old held name signed

theorem le_ci_doCrashCommit (staging newCi) : newCi ≤ (doCrashCommit staging staging.ci newCi).ci := by
  rw [doCrashCommit_core]
  split
  · assumption
  · exact Nat.le_refl _

theorem create_delivered (inv : ChainInv staging.toStagingCore)
    (delivered : Delivered staging.toStagingCore) (acks : SignersAck staging.toStagingCore)
    (executed : ∀ entry ∈ staging.pendingBlocks, ∀ byz, byzantineCommitThreshold crypto.config = some byz →
      (byz ≤ entry.voteSigs.keys.length ∨
        byzantineFastPathThreshold crypto.config ≤ entry.voteSigs.keys.length) → entry.n ≤ staging.ci)
    (result : maybeCreateQcs crypto staging = some after) :
    Delivered after.toStagingCore ∧ SignersAck after.toStagingCore := by
  have created := maybeCreateQcs_rule
    (motive := fun core => (ChainInv core ∧ core.log = staging.log) ∧ (Delivered core ∧ SignersAck core) ∧
      core.ci = staging.ci)
    (fun core ⟨⟨inv, log⟩, ⟨delivered, acks⟩, ci⟩ => ⟨⟨inv.cut ⟨prefix_rfl, rfl, rfl, rfl⟩, log⟩,
      ⟨delivered.quiet rfl rfl rfl rfl, acks⟩, ci⟩)
    (fun core _ _ _ _ _ ⟨⟨inv, log⟩, ⟨delivered, acks⟩, ci⟩ => ⟨⟨inv.cut ⟨prefix_rfl, rfl, rfl, rfl⟩, log⟩,
      ⟨delivered.quiet rfl rfl rfl rfl, acks⟩, ci⟩) ?_ ?_ result
  · exact created.2.1
  · intro current entry member byz known enough ⟨⟨inv', log⟩, ⟨delivered', acks'⟩, ci⟩
    have below : (qcOf staging.view entry).n ≤ current.ci := ci ▸ executed entry member byz known enough
    have inside : (qcOf staging.view entry).n ≤ current.log.length := below.trans delivered'.ci_le
    obtain ⟨inv'', log'⟩ := inv'.maybeByzantineCommit crypto inside
    obtain ⟨delivered'', ci', -⟩ := delivered'.maybeByzantineCommit crypto inv' (fun _ => below)
      fun block held upTo other attached => ((inv'.qcs block held other attached).trans upTo).trans below
    exact ⟨⟨inv'', log'.trans log⟩,
      ⟨delivered'', acks'.fewer (fewer_respected.maybeByzantineCommit crypto current _)⟩, ci'.trans ci⟩
  · intro thresh
    have blocks := blocks_markProposed thresh (byzantineFastPathThreshold crypto.config) staging.pendingBlocks
    have log := congrArg (staging.committed ++ ·) blocks
    refine ⟨⟨inv.cut ⟨by rw [StagingCore.blocks, blocks, StagingCore.blocks], rfl, rfl, rfl⟩, log⟩,
      ⟨delivered.quiet rfl rfl rfl (congrArg (·.take staging.ci) log), acks.markProposed _ _⟩, rfl⟩

theorem Counts.delivered {vote} (counts : Counts crypto staging sender vote after)
    (valid : crypto.config.consensusConfig.Valid) (inv : ChainInv staging.toStagingCore)
    (delivered : Delivered staging.toStagingCore) (acks : SignersAck staging.toStagingCore)
    (signs : ∀ sig ∈ vote.sigArray, sig.n ≤ vote.n) :
    Delivered after.toStagingCore ∧ SignersAck after.toStagingCore := by
  obtain ⟨_, crashes, creates⟩ := counts.result
  obtain ⟨thresh, quorum, rfl⟩ := map_eq_some_iff.mp crashes
  let counted := countVote staging sender vote
  let newCi := crashCommitIndex thresh counted.ci counted.pendingBlocks
  let noted := noteCommit counted newCi
  have sameBlocks : noted.blocks = staging.blocks := blocks_countVote sender vote
  have sameLog : noted.log = staging.log := by
    rw [StagingCore.log, sameBlocks]
    rfl
  have notedInv : ChainInv noted.toStagingCore := inv.cut ⟨by rw [sameBlocks], rfl, rfl, rfl⟩
  have notedDelivered : Delivered noted.toStagingCore :=
    delivered.quiet rfl rfl rfl (congrArg (·.take staging.ci) sameLog)
  have notedAcks : SignersAck noted.toStagingCore := acks.countVote signs
  obtain ⟨_, reached, -⟩ := crashCommitIndex_spec thresh noted.ci noted.pendingBlocks
  have inside : newCi ≤ max noted.ci noted.log.length := by
    rcases reached with same | ⟨entry, member, number, -⟩
    · exact same.le.trans (Nat.le_max_left _ _)
    · have inLog : entry.n ≤ noted.log.length := by
        rw [notedInv.log_length]
        exact (notedInv.pending.seq_mem (mem_map_of_mem member)).2
      exact (number.symm.le.trans inLog).trans (Nat.le_max_right _ _)
  have crashedInv := notedInv.cut (doCrashCommit_cut noted counted.ci newCi)
  have crashedDelivered := notedDelivered.doCrashCommit notedInv inside
  have crashedFewer := fewer_respected.doCrashCommit noted newCi
  refine create_delivered crashedInv crashedDelivered (notedAcks.fewer crashedFewer) ?_ creates
  intro entry member byz known enough
  obtain ⟨slow, fast⟩ := crashCommitQuorum_le valid quorum known
  have held := crashedFewer.pending member
  have counted : entry.n ≤ newCi :=
    enough.elim (signed_le_crashCommitIndex notedAcks slow held) (signed_le_crashCommitIndex notedAcks fast held)
  exact counted.trans (le_ci_doCrashCommit _ _)

/-!
## Proposing a new view
-/

theorem bci_le_retainN (inv : ChainInv staging.toStagingCore) {chosenFork}
    (check : checkByzCommitInvariant staging chosenFork = some retainN) : staging.bci ≤ retainN := by
  unfold checkByzCommitInvariant at check
  split at check
  · next _ => omega
  · split at check
    · cases check
    · split at check
      · cases check
        cases atEnd : staging.pendingBlocks.getLast? with
        | none => exact Nat.le_refl _
        | some last =>
          have member := mem_map_of_mem (f := (·.block)) (mem_of_getLast? atEnd)
          exact (inv.pending.seq_mem member).1.le
      · split at check
        · split at check
          · cases check
            exact Nat.le_refl _
          · cases check
        · split at check
          · split at check
            · cases check
              exact Nat.le_refl _
            · cases check
          · dsimp only at check
            split at check
            · cases check
              omega
            · cases check

theorem Delivered.truncate (delivered : Delivered staging.toStagingCore)
    (inv : ChainInv staging.toStagingCore) (retained : staging.bci ≤ retainN) :
    Delivered (truncateForNewView staging retainN).toStagingCore := by
  have log : (truncateForNewView staging retainN).log = staging.log.take retainN := by
    rw [StagingCore.log, committed_truncateForNewView, blocks_truncateForNewView, inv.log_filter retained]
  have known := delivered.ci_le
  by_cases drops : retainN < staging.ci
  · have core : (truncateForNewView staging retainN).toStagingCore = { staging.toStagingCore with
        pendingBlocks := staging.pendingBlocks.filter fun entry => decide (entry.n ≤ retainN)
        ci := retainN
        appTx := staging.appTx ++ [.rollback retainN] } := by
      simp only [truncateForNewView, if_pos drops]
    have undone : ((execution staging.toStagingCore).executed.filter fun block =>
        decide (block.block.n ≤ max retainN (execution staging.toStagingCore).byz)) =
        staging.log.take retainN := by
      have cut := (inv.chain.take staging.ci).filter_seq_le retainN
      simp only [CachedBlock.seq_eq] at cut
      rw [delivered.executed, delivered.byz, Nat.max_eq_left retained, cut, take_take]
      congr 1
      omega
    have runs : execution (truncateForNewView staging retainN).toStagingCore =
        { execution staging.toStagingCore with executed := staging.log.take retainN } := by
      rw [core, execution, foldl_append, ← undone]
      rfl
    refine ⟨?_, ?_, ?_, ?_, ?_⟩
    · rw [core]
      exact Execution.allDisciplined_concat.mpr ⟨delivered.disciplined, trivial⟩
    · rw [runs, log, core, take_take, Nat.min_self]
    · rw [runs, core]
      exact delivered.byz
    · rw [core]
      exact retained
    · rw [log, core, length_take]
      simp only
      omega
  · have core : (truncateForNewView staging retainN).toStagingCore = { staging.toStagingCore with
        pendingBlocks := staging.pendingBlocks.filter fun entry => decide (entry.n ≤ retainN) } := by
      simp only [truncateForNewView, if_neg drops]
    refine delivered.quiet (by rw [core]) (by rw [core]) (by rw [core]) ?_
    rw [log, take_take, Nat.min_eq_left (by omega)]

/-!
## Whole runs
-/

theorem Enters.signersAck
    (enters : Enters crypto staging block aeStats entered) (acks : SignersAck staging.toStagingCore) :
    SignersAck entered.toStagingCore := by
  cases enters with
  | sameView => exact acks
  | leaderJumps => exact signersAck_of_unvoted (unvoted_clearVotes _)
  | followerJumps => exact signersAck_of_unvoted (unvoted_clearVotes _)

theorem commitsBelow_pushBlock {ci} (inv : ChainInv staging.toStagingCore)
    (ok : ChainOk staging (.block block storageAck aeStats final))
    (enters : Enters crypto staging block aeStats entered)
    (continuous : checkContinuity (settleForBlock entered block aeStats) block = true)
    (below : CommitsBelow crypto.config staging block ci qc) :
    ∀ other ∈ (pushBlock (settleForBlock entered block aeStats) block final).blocks,
      other.block.n ≤ qc.n → ∀ inner ∈ other.block.qc, inner.n ≤ ci := by
  intro other member
  have cut := enters.cut inv
  have entry := inv.cut cut
  have settle := settleForBlock_cut entry block aeStats
  rw [blocks_pushBlock, mem_append, mem_singleton] at member
  rcases member with member | rfl
  · have held := cut.blocks.subset (settle.blocks.subset member)
    refine below.2 other (mem_cons_of_mem _ held) (.inl ?_)
    have number := (checkContinuity_next (entry.cut settle) (settleForBlock_fresh inv ok enters) continuous).1
    have inside := ((entry.cut settle).pending.seq_mem member).2
    rw [CachedBlock.seq_eq] at inside
    omega
  · exact below.2 other mem_cons_self (.inr rfl)

theorem Enters.followed_delivered {certified} (enters : Enters crypto staging block aeStats entered)
    (delivered : Delivered staging.toStagingCore) (inv : ChainInv staging.toStagingCore)
    (ok : DeliveryOk crypto staging (.block block storageAck aeStats final))
    (follows : iAmLeader crypto.config entered = false)
    (continuous : checkContinuity (settleForBlock entered block aeStats) block = true)
    (processed : processQcs crypto oldViewIsStable
      (crashAsFollower (pushBlock (settleForBlock entered block aeStats) block final) aeStats final)
      block.block.qc = some certified) (ends : EndsFollowing crypto certified final after) :
    Delivered after.toStagingCore := by
  obtain ⟨notOld, view⟩ := enters.view
  have notLeader : crypto.config.getLeaderForView aeStats.view ≠ crypto.config.netConfig.name := by
    rw [← view]
    simpa [iAmLeader] using follows
  obtain ⟨inside, below⟩ := (ok.2 notOld).2 notLeader
  obtain ⟨pushed, -, number⟩ := pushBlock_chain inv ok.1 enters continuous
  have sameCi : ciWith (pushBlock (settleForBlock entered block aeStats) block final) aeStats final =
      ciWith staging aeStats final := by
    unfold ciWith
    rw [← enters.ci]
    rfl
  refine follow_delivered pushed ((enters.delivered delivered inv ok.2).push block final) ?_ ?_
    (number ▸ ok.1.1) processed ends
  · rw [sameCi, ← number]
    exact inside.trans (max_le_max_right _ enters.ci.symm.le)
  · rw [sameCi]
    exact fun qc attached => ⟨(below qc attached).1,
      commitsBelow_pushBlock inv ok.1 enters continuous (below qc attached)⟩

theorem Transition.delivered {event} (transition : Transition crypto staging event after)
    (valid : crypto.config.consensusConfig.Valid) (inv : ChainInv staging.toStagingCore)
    (delivered : Delivered staging.toStagingCore) (acks : SignersAck staging.toStagingCore)
    (ok : DeliveryOk crypto staging event) :
    Delivered after.toStagingCore ∧ SignersAck after.toStagingCore := by
  cases transition with
  | idle core => exact core ▸ ⟨delivered, acks⟩
  | enterView _ _ core =>
    rw [core]
    exact ⟨delivered.quiet rfl rfl rfl rfl, acks⟩
  | newView _ _ _ check core =>
    rw [core]
    exact ⟨delivered.truncate inv (bci_le_retainN inv check), acks.fewer (truncateForNewView_fewer _ _)⟩
  | vote _ _ counts => exact counts.delivered valid inv delivered acks ok.2
  | reject enters _ =>
    exact ⟨enters.delivered delivered inv ok.2, (enters.signersAck acks).fewer (fewer_respected.settleForBlock _ _ _)⟩
  | append enters _ _ core =>
    rw [core]
    exact ⟨(enters.delivered delivered inv ok.2).push _ _,
      ((enters.signersAck acks).fewer (fewer_respected.settleForBlock _ _ _)).push _ _⟩
  | lead enters _ continuous core counts =>
    refine counts.delivered valid ?_ ?_ ?_ ?_
    · exact core ▸ (pushBlock_chain inv ok.1 enters continuous).1
    · exact core ▸ (enters.delivered delivered inv ok.2).push _ _
    · exact core ▸ ((enters.signersAck acks).fewer (fewer_respected.settleForBlock _ _ _)).push _ _
    · intro sig mine
      unfold voteSignature at mine
      split at mine
      · rw [mem_singleton.mp mine]
        exact Nat.le_refl _
      · cases mine
  | follow enters follows continuous processed ends =>
    refine ⟨enters.followed_delivered delivered inv ok follows continuous processed ends, ?_⟩
    refine SignersAck.fewer ?_ ((fewer_respected.followQcs processed).trans ends.fewer)
    exact ((enters.signersAck acks).fewer (fewer_respected.settleForBlock _ _ _)).push _ _

/-- In every run that meets the conditions, crash commits execute the chain
block by block and byzantine commits name executed blocks only. -/
theorem allDisciplined_of_reaches (withQcs : crypto.config.features.noQc = false)
    (valid : crypto.config.consensusConfig.Valid)
    (reached : Reaches (step crypto) (DeliveryOk crypto) (new crypto.config) staging) :
    Execution.AllDisciplined {} staging.appTx := by
  have invariant := reached.invariant
    (motive := fun staging => ChainInv staging.toStagingCore ∧ Delivered staging.toStagingCore ∧
      SignersAck staging.toStagingCore) ?_ ?_
  · exact invariant.2.1.disciplined
  · refine ⟨chainInv_new crypto.config, ?_⟩
    unfold new
    split <;> exact ⟨⟨trivial, rfl, rfl, Nat.le_refl _, Nat.le_refl _⟩, nofun⟩
  · intro before after event ⟨inv, delivered, acks⟩ ok taken
    have transition := step_transition withQcs taken
    exact ⟨transition.chain inv ok.1, transition.delivered valid inv delivered acks ok⟩

def deliverPart (block : CachedBlock) (view ci : Nat) : Event :=
  .block block (.ok ()) { view, viewIsStable := false, configNum := 1, sender := "node2", ci } false

/-- Block 1 is executed in view 1. The leader of view 2 sends the fork from its
beginning, which undoes block 1, and the next commit goes on after it. -/
theorem new_view_skips_executed_block :
    ∃ staging, Reaches (step (threeNodes "node3")) Any (new (threeNodes "node3").config) staging ∧
      ¬ Execution.AllDisciplined {} staging.appTx :=
  exists_reaches_any
    [deliver (sampleBlock 1 1 1 0 []) 1 0 false, deliver (sampleBlock 2 1 2 1 [sampleQc 1 1 1]) 1 1 true,
      deliverPart (sampleBlock 1 1 1 0 []) 2 1, deliverPart (sampleBlock 2 1 2 1 [sampleQc 1 1 1]) 2 1,
      deliver (sampleBlock 3 2 3 2 []) 2 1 false, deliver (sampleBlock 4 2 4 3 [sampleQc 3 2 3]) 2 3 true]
    (by decide +kernel)

theorem allDisciplined_after_delivery :
    ∃ staging, Reaches (step (threeNodes "node3")) (DeliveryOk (threeNodes "node3"))
      (new (threeNodes "node3").config) staging ∧ (staging.ci = 2 ∧ staging.bci = 1) ∧
      Execution.AllDisciplined {} staging.appTx :=
  exists_reaches_and
    [deliver (sampleBlock 1 1 1 0 []) 1 0 false, deliver (sampleBlock 2 1 2 1 [sampleQc 1 1 1]) 1 1 false,
      deliver (sampleBlock 3 1 3 2 [sampleQc 2 1 2]) 1 2 true]
    (by decide +kernel) (by decide +kernel) fun reached _ => allDisciplined_of_reaches rfl (by decide) reached

end Staging

end PirateShip
