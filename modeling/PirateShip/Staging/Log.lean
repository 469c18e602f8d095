import PirateShip.Lib.Chain
import PirateShip.Staging.Transition

/-! The log of a node: the blocks it has sent out as byzantine committed,
followed by its pending blocks. What each operation of the stage does to it. -/

set_option autoImplicit false

namespace PirateShip

open List HashLinked

instance : HashLinked CachedBlock HashType where
  seq block := block.block.n
  parent block := block.block.parent
  digest block := block.blockHash

@[simp] theorem CachedBlock.seq_eq (block : CachedBlock) : seq block = block.block.n := rfl

@[simp] theorem CachedBlock.parent_eq (block : CachedBlock) : parent block = block.block.parent := rfl

@[simp] theorem CachedBlock.digest_eq (block : CachedBlock) : digest block = block.blockHash := rfl

/-- The blocks of all `ByzCommit` batches, in the order they were sent. -/
def byzCommitted (commands : List AppCommand) : List CachedBlock :=
  commands.flatMap fun
    | .byzCommit blocks => blocks
    | _ => []

def LogServerCommand.block? : LogServerCommand → Option CachedBlock
  | .newBlock block => some block
  | .rollback _ | .updateBCI _ => none

def StagingCore.appended (core : StagingCore) : List CachedBlock := core.logserverTx.filterMap (·.block?)

namespace StagingCore

def blocks (core : StagingCore) : List CachedBlock := core.pendingBlocks.map (·.block)

def committed (core : StagingCore) : List CachedBlock := byzCommitted core.appTx

def log (core : StagingCore) : List CachedBlock := core.committed ++ core.blocks

end StagingCore

namespace Staging

variable {crypto : CryptoService} {staging after : Staging}
variable {oldBci default bound : Nat} {qc : ProtoQuorumCertificate}

/-!
## The operations on the log
-/

@[simp] theorem blocks_rollback (m) :
    (staging.rollback m).blocks = staging.blocks.filter fun block => decide (block.block.n ≤ m) := by
  simp only [StagingCore.blocks, filter_map]
  rfl

@[simp] theorem committed_rollback (m) : (staging.rollback m).committed = staging.committed := by
  simp [rollback, StagingCore.committed, byzCommitted]

@[simp] theorem blocks_pushBlock (block final) :
    (pushBlock staging block final).blocks = staging.blocks ++ [block] := by
  simp [pushBlock, StagingCore.blocks]

theorem appended_pushBlock (staging block final) :
    (pushBlock staging block final).appended = staging.appended ++ [block] := by
  simp [pushBlock, StagingCore.appended, LogServerCommand.block?]

@[simp] theorem blocks_clearVotes : (clearVotes staging).blocks = staging.blocks := by
  simp [clearVotes, StagingCore.blocks]

@[simp] theorem blocks_jumpAsLeader (block aeStats) : (jumpAsLeader staging block aeStats).blocks =
      staging.blocks.filter fun other => decide (other.block.n ≤ wrappingPred block.block.n) := by
  rw [jumpAsLeader, blocks_clearVotes]
  exact blocks_rollback _

@[simp] theorem blocks_jumpAsFollower (block aeStats) : (jumpAsFollower staging block aeStats).blocks =
      staging.blocks.filter fun other => decide (other.block.n < block.block.n) := by
  rw [jumpAsFollower, blocks_clearVotes]
  simp only [StagingCore.blocks, filter_map]
  rfl

@[simp] theorem committed_jumpAsLeader (block aeStats) :
    (jumpAsLeader staging block aeStats).committed = staging.committed :=
  committed_rollback _

theorem settleForBlock_core (staging block aeStats) : (settleForBlock staging block aeStats).toStagingCore =
      if staging.viewIsStable = true ∧ aeStats.viewIsStable = true then staging.toStagingCore
      else (rollback { staging with viewIsStable := false } (wrappingPred block.block.n)).toStagingCore := by
  unfold settleForBlock settleStability
  cases stable : staging.viewIsStable <;> cases aeStable : aeStats.viewIsStable <;> simp [stable, rollback]
  rw [← stable]

theorem blocks_truncateForNewView (retainN) : (truncateForNewView staging retainN).blocks =
    staging.blocks.filter fun block => decide (block.block.n ≤ retainN) := by
  unfold truncateForNewView
  simp only [StagingCore.blocks, filter_map]
  split <;> rfl

theorem committed_truncateForNewView (retainN) :
    (truncateForNewView staging retainN).committed = staging.committed := by
  unfold truncateForNewView
  dsimp only
  split <;> simp [StagingCore.committed, byzCommitted]

theorem doCrashCommit_core (oldCi newCi) : (doCrashCommit staging oldCi newCi).toStagingCore =
      if newCi ≤ oldCi then staging.toStagingCore
      else { staging.toStagingCore with
        ci := newCi
        appTx := staging.appTx ++ [.crashCommit
          (staging.blocks.filter fun block => decide (oldCi < block.block.n ∧ block.block.n ≤ newCi))] } := by
  simp only [doCrashCommit, StagingCore.blocks, filter_map]
  split <;> rfl

@[simp] theorem blocks_doCrashCommit (oldCi newCi) : (doCrashCommit staging oldCi newCi).blocks = staging.blocks := by
  rw [doCrashCommit_core]
  split <;> rfl

@[simp] theorem committed_doCrashCommit (oldCi newCi) :
    (doCrashCommit staging oldCi newCi).committed = staging.committed := by
  rw [doCrashCommit_core]
  split <;> simp [StagingCore.committed, byzCommitted]

theorem blocks_doByzantineCommit (staging) {newBci} (advances : oldBci < newBci) :
    (doByzantineCommit staging oldBci newBci).blocks =
      staging.blocks.dropWhile fun block => decide (block.block.n ≤ newBci) := by
  simp only [doByzantineCommit, if_neg (Nat.not_le.mpr advances), StagingCore.blocks, dropWhile_map]
  rfl

theorem appTx_doByzantineCommit (staging) {newBci} (advances : oldBci < newBci) :
    (doByzantineCommit staging oldBci newBci).appTx = staging.appTx ++
      [.byzCommit (staging.blocks.takeWhile fun block => decide (block.block.n ≤ newBci))] := by
  simp only [doByzantineCommit, if_neg (Nat.not_le.mpr advances), StagingCore.blocks, takeWhile_map]
  rfl

theorem bci_doByzantineCommit (staging) {newBci} (advances : oldBci < newBci) :
    (doByzantineCommit staging oldBci newBci).bci = newBci := by
  simp only [doByzantineCommit, if_neg (Nat.not_le.mpr advances)]

theorem committed_doByzantineCommit (staging) {newBci} (advances : oldBci < newBci) :
    (doByzantineCommit staging oldBci newBci).committed = staging.committed ++
      staging.blocks.takeWhile fun block => decide (block.block.n ≤ newBci) := by
  rw [StagingCore.committed, appTx_doByzantineCommit staging advances, byzCommitted, flatMap_append,
    flatMap_singleton]
  rfl

theorem parent_doByzantineCommit (staging) {newBci} (advances : oldBci < newBci) :
    (doByzantineCommit staging oldBci newBci).currParentForPending =
      (staging.blocks.takeWhile fun block => decide (block.block.n ≤ newBci)).foldl
        (fun parent block => if block.block.n = newBci then some block else parent)
        staging.currParentForPending := by
  simp only [doByzantineCommit, if_neg (Nat.not_le.mpr advances), StagingCore.blocks, takeWhile_map]
  rfl

@[simp] theorem log_doByzantineCommit (oldBci newBci) :
    (doByzantineCommit staging oldBci newBci).log = staging.log := by
  by_cases advances : oldBci < newBci
  · rw [StagingCore.log, blocks_doByzantineCommit staging advances, committed_doByzantineCommit staging advances,
      append_assoc, takeWhile_append_dropWhile, StagingCore.log]
  · rw [doByzantineCommit, if_pos (Nat.not_lt.mp advances)]

/-!
## Certificates
-/

theorem noteQc_core (staging qc) : ∃ lastQc, (noteQc staging qc).toStagingCore = { staging.toStagingCore with
      lastQc
      pendingSignatures := staging.pendingSignatures.filter fun entry => decide (qc.n < entry.1) } := by
  unfold noteQc
  split
  · unfold maybeUpdateLastQc
    split <;> exact ⟨_, rfl⟩
  · exact ⟨_, rfl⟩

private theorem getD_max?_le {values : List Nat} (known : default ≤ bound)
    (inside : ∀ value ∈ values, value ≤ bound) : values.max?.getD default ≤ bound := by
  cases highest : values.max? with
  | none => exact known
  | some top => exact inside top (max?_mem highest)

private theorem highestQcUpTo_le {pending upTo} (known : default ≤ bound)
    (certified : ∀ entry ∈ pending, entry.n ≤ upTo → ∀ qc ∈ entry.block.block.qc, qc.n ≤ bound) :
    highestQcUpTo pending upTo default ≤ bound := by
  refine getD_max?_le known fun value member => ?_
  obtain ⟨entry, kept, member⟩ := mem_flatMap.mp member
  obtain ⟨qc, attached, rfl⟩ := mem_map.mp member
  obtain ⟨held, below⟩ := mem_filter.mp kept
  exact certified entry (mem_reverse.mp held) (of_decide_eq_true below) qc attached

/-- Neither rule commits above a bound on the certificate, where it can be a
fast one, and on the certificates in the blocks up to it. -/
theorem newBci_le (known : staging.bci ≤ bound)
    (fast : byzantineFastPathThreshold crypto.config ≤ qc.sig.length → qc.n ≤ bound)
    (ordered : ∀ block ∈ staging.blocks, ∀ other ∈ block.block.qc, other.n ≤ block.block.n)
    (pending : ∀ block ∈ staging.blocks, block.block.n ≤ qc.n → ∀ other ∈ block.block.qc, other.n ≤ bound) :
    newBci crypto.config staging qc ≤ bound := by
  have certified : ∀ entry ∈ staging.pendingBlocks, entry.n ≤ qc.n →
      ∀ other ∈ entry.block.block.qc, other.n ≤ bound :=
    fun entry member => pending entry.block (mem_map_of_mem member)
  refine Nat.max_le.mpr ⟨?_, ?_⟩
  · unfold newBciFastPath
    split
    · next allVotes =>
      split
      · exact fast (of_decide_eq_true (Bool.and_eq_true_iff.mp allVotes).2)
      · exact known
    · exact known
  · unfold newBciSlowPath
    dsimp only
    split
    · next further =>
      -- The second hop looks at blocks below the first one, so still up to the certificate.
      have hop : highestQcUpTo staging.pendingBlocks qc.n staging.bci ≤ max staging.bci qc.n :=
        highestQcUpTo_le (Nat.le_max_left _ _) fun entry member below other attached =>
          ((ordered entry.block (mem_map_of_mem member) other attached).trans below).trans (Nat.le_max_right _ _)
      have advances := of_decide_eq_true (Bool.and_eq_true_iff.mp further).2
      refine highestQcUpTo_le known fun entry member below => certified entry member ?_
      omega
    · exact highestQcUpTo_le known certified

theorem maybeStabilizeView_core (result : maybeStabilizeView crypto staging qc = some after) :
    after.toStagingCore = staging.toStagingCore ∨ qc.view = staging.view ∧
        after.toStagingCore = { staging.toStagingCore with viewIsStable := true } := by
  unfold maybeStabilizeView at result
  split at result
  · cases result
  · split at result
    · cases result
      exact .inl rfl
    · next sameView =>
      cases result
      exact .inr ⟨not_not.mp sameView, rfl⟩

section Rules

variable {motive : StagingCore → Prop} {qcs : List ProtoQuorumCertificate}
  (stabilize : ∀ core, motive core → motive { core with viewIsStable := true })

include stabilize

private theorem stabilize_rule {skip : Bool} {qc : ProtoQuorumCertificate} (initial : motive staging.toStagingCore)
    (result : (if skip then some staging else maybeStabilizeView crypto staging qc) = some after) :
    motive after.toStagingCore := by
  split at result
  · cases result
    exact initial
  · rcases maybeStabilizeView_core result with core | ⟨-, core⟩
    · exact core ▸ initial
    · exact core ▸ stabilize _ initial

theorem processQcs_rule {oldViewIsStable} (commit : ∀ (staging : Staging), ∀ qc ∈ qcs, motive staging.toStagingCore →
      motive (maybeByzantineCommit crypto staging qc).toStagingCore) (initial : motive staging.toStagingCore)
    (result : processQcs crypto oldViewIsStable staging qcs = some after) :
    motive after.toStagingCore := by
  induction qcs generalizing staging with
  | nil =>
    cases result
    exact initial
  | cons qc rest ih =>
    unfold processQcs at result
    split at result
    · cases result
    · next settled stabilized =>
      refine ih (fun staging qc member => commit staging qc (mem_cons_of_mem _ member)) ?_ result
      exact commit settled qc mem_cons_self (stabilize_rule stabilize initial stabilized)

end Rules

/-!
## Votes
-/

theorem blocks_recordVote (sender voteN sigs pending) :
    (recordVote sender voteN sigs pending).map (·.block) = pending.map (·.block) := by
  induction pending generalizing sigs with
  | nil => rfl
  | cons entry rest ih =>
    unfold recordVote
    dsimp only
    split <;> simp [ih]

@[simp] theorem blocks_countVote (sender vote) : (countVote staging sender vote).blocks = staging.blocks :=
  blocks_recordVote sender vote.n vote.sigArray staging.pendingBlocks

@[simp] theorem markProposed_block (thresh fastThresh entry) :
    (markProposed thresh fastThresh entry).block = entry.block := by
  unfold markProposed
  split <;> rfl

theorem blocks_markProposed (thresh fastThresh : Nat) (pending : List CachedBlockWithVotes) :
    (pending.map (markProposed thresh fastThresh)).map (·.block) = pending.map (·.block) := by
  simp

theorem mem_proposeQcs {view thresh fastThresh pending}
    (member : qc ∈ (proposeQcs view thresh fastThresh pending).2) :
    ∃ entry ∈ pending, qc = qcOf view entry ∧
      (thresh ≤ entry.voteSigs.keys.length ∨ fastThresh ≤ entry.voteSigs.keys.length) := by
  obtain ⟨entry, kept, rfl⟩ := mem_map.mp member
  obtain ⟨member, needed⟩ := mem_filter.mp kept
  refine ⟨entry, member, rfl, ?_⟩
  have enough := of_decide_eq_true (Bool.and_eq_true_iff.mp needed).2
  split at enough
  · exact .inr enough
  · exact .inl enough

section CreateQcs

variable {motive : StagingCore → Prop}
  (stabilize : ∀ core, motive core → motive { core with viewIsStable := true })

include stabilize

private theorem emitQcs_rule {qcs}
    (emit : ∀ core, ∀ qc ∈ qcs, motive core → motive { core with qcTx := core.qcTx ++ [qc] })
    (commit : ∀ (current : Staging), ∀ qc ∈ qcs, motive current.toStagingCore →
      motive (maybeByzantineCommit crypto current qc).toStagingCore) (initial : motive staging.toStagingCore)
    (result : emitQcs crypto staging qcs = some after) : motive after.toStagingCore := by
  induction qcs generalizing staging with
  | nil =>
    cases result
    exact initial
  | cons qc rest ih =>
    unfold emitQcs at result
    split at result
    · cases result
    · next _ stabilized =>
      refine ih (fun core qc member => emit core qc (mem_cons_of_mem _ member))
        (fun current qc member => commit current qc (mem_cons_of_mem _ member)) ?_ result
      refine commit _ qc mem_cons_self (emit _ qc mem_cons_self ?_)
      exact stabilize_rule stabilize initial stabilized

theorem maybeCreateQcs_rule (emit : ∀ core, ∀ entry ∈ staging.pendingBlocks, ∀ thresh,
      byzantineCommitThreshold crypto.config = some thresh →
      (thresh ≤ entry.voteSigs.keys.length ∨ byzantineFastPathThreshold crypto.config ≤ entry.voteSigs.keys.length) →
      motive core → motive { core with qcTx := core.qcTx ++ [qcOf staging.view entry] })
    (commit : ∀ (current : Staging), ∀ entry ∈ staging.pendingBlocks, ∀ thresh,
      byzantineCommitThreshold crypto.config = some thresh →
      (thresh ≤ entry.voteSigs.keys.length ∨ byzantineFastPathThreshold crypto.config ≤ entry.voteSigs.keys.length) →
      motive current.toStagingCore →
      motive (maybeByzantineCommit crypto current (qcOf staging.view entry)).toStagingCore)
    (initial : ∀ thresh, motive { staging.toStagingCore with
      pendingBlocks := staging.pendingBlocks.map
        (markProposed thresh (byzantineFastPathThreshold crypto.config)) })
    (result : maybeCreateQcs crypto staging = some after) : motive after.toStagingCore := by
  unfold maybeCreateQcs at result
  split at result
  · cases result
  · next thresh known =>
    refine emitQcs_rule stabilize ?_ ?_ (initial thresh) result
    · intro core qc member holds
      obtain ⟨entry, held, rfl, enough⟩ := mem_proposeQcs member
      exact emit core entry held thresh known enough holds
    · intro current qc member holds
      obtain ⟨entry, held, rfl, enough⟩ := mem_proposeQcs member
      exact commit current entry held thresh known enough holds

end CreateQcs

theorem crashCommitIndex_spec (thresh ci pending) : ci ≤ crashCommitIndex thresh ci pending ∧
      (crashCommitIndex thresh ci pending = ci ∨ ∃ entry ∈ pending,
        entry.n = crashCommitIndex thresh ci pending ∧ thresh ≤ entry.replicationSet.card) ∧
      ∀ entry ∈ pending, thresh ≤ entry.replicationSet.card → entry.n ≤ crashCommitIndex thresh ci pending := by
  induction pending generalizing ci with
  | nil => simp [crashCommitIndex]
  | cons entry rest ih =>
    by_cases counted : ci < entry.n ∧ thresh ≤ entry.replicationSet.card
    · have moves : crashCommitIndex thresh ci (entry :: rest) = crashCommitIndex thresh entry.n rest := by
        rw [crashCommitIndex, if_neg (Nat.not_le.mpr counted.1), if_pos counted.2]
      obtain ⟨grows, reached, covers⟩ := ih entry.n
      rw [moves]
      refine ⟨by omega, .inr ?_, ?_⟩
      · rcases reached with same | ⟨other, member, found⟩
        · exact ⟨entry, mem_cons_self, same.symm, counted.2⟩
        · exact ⟨other, mem_cons_of_mem _ member, found⟩
      · intro other member enough
        rcases mem_cons.mp member with rfl | member
        · exact grows
        · exact covers other member enough
    · have stays : crashCommitIndex thresh ci (entry :: rest) = crashCommitIndex thresh ci rest := by
        grind [crashCommitIndex]
      obtain ⟨grows, reached, covers⟩ := ih ci
      rw [stays]
      refine ⟨grows, reached.imp_right ?_, ?_⟩
      · exact fun ⟨other, member, found⟩ => ⟨other, mem_cons_of_mem _ member, found⟩
      · intro other member enough
        rcases mem_cons.mp member with rfl | member
        · omega
        · exact covers other member enough

theorem sendVote_core {storageAck} (result : sendVoteOnLastBlockToLeader crypto staging storageAck = some after) :
    ∃ last ∈ staging.pendingBlocks.getLast?, after.toStagingCore = { staging.toStagingCore with
        pendingSignatures := staging.pendingSignatures ++
          (voteSignature crypto last.block).map fun sig => (last.n, sig)
        client := staging.client ++ [(crypto.config.getLeaderForView staging.view,
          .vote (voteFor staging last.block
            ((if last.block.block.isSigned then staging.pendingSignatures.map (·.2) else []) ++
              voteSignature crypto last.block)))] } := by
  unfold sendVoteOnLastBlockToLeader at result
  split at result
  · cases result
  · next last atEnd =>
    cases result
    exact ⟨last, atEnd, rfl⟩

theorem EndsFollowing.core {final} (ends : EndsFollowing crypto staging final after) :
    ∃ pendingSignatures client,
      after.toStagingCore = { staging.toStagingCore with pendingSignatures, client } := by
  cases ends with
  | waits _ core => exact ⟨staging.pendingSignatures, staging.client, core⟩
  | votes _ sends core =>
    obtain ⟨_, -, sent⟩ := sendVote_core sends
    exact ⟨_, _, core.trans sent⟩

end Staging

end PirateShip
