import PirateShip.Crypto.Accepted
import PirateShip.ForkReceiver
import PirateShip.Staging.Certificates
import PirateShip.Staging.VoteCount

/-! The certificates that a leader makes. Whatever votes arrive, the signatures on the
pending blocks are verified ones, so that followers accept what is made of them; and
no pending block gets more than two certificates. -/

set_option autoImplicit false

namespace PirateShip

open List

abbrev CachedBlockWithVotes.marks (entry : CachedBlockWithVotes) : CachedBlock × Bool × Bool :=
  (entry.block, entry.qcIsProposed, entry.fastQcIsProposed)

namespace Staging

open StepSystem

variable {crypto : CryptoService} {publicKey : SigningKey → VerifyingKey} {staging entered after : Staging}
  {core next : StagingCore}
variable {block : CachedBlock} {qc : ProtoQuorumCertificate} {sender : String} {storageAck : StorageAck}
  {aeStats : AppendEntriesStats} {final : Bool}

/-!
## Operations that make no certificate
-/

theorem marks_recordVote (sender voteN sigs pending) :
    (recordVote sender voteN sigs pending).map (·.marks) = pending.map (·.marks) := by
  induction pending generalizing sigs with
  | nil => rfl
  | cons entry rest ih =>
    unfold recordVote
    dsimp only
    split
    · rw [map_cons, map_cons, ih]
    · rw [map_cons, map_cons, ih]

structure Shrinks (core next : StagingCore) : Prop where
  marks : (next.pendingBlocks.map (·.marks)).Sublist (core.pendingBlocks.map (·.marks))
  signatures : ∀ entry ∈ next.pendingBlocks, ∀ name, ∀ sig ∈ entry.voteSigs.lookup name,
    ∃ old ∈ core.pendingBlocks, old.block = entry.block ∧ sig ∈ old.voteSigs.lookup name
  qcTx : next.qcTx = core.qcTx
  appended : next.appended = core.appended
  countedVotes : next.countedVotes = core.countedVotes

namespace Shrinks

theorem of_sublist (fewer : next.pendingBlocks.Sublist core.pendingBlocks) (qcTx : next.qcTx = core.qcTx)
    (appended : next.appended = core.appended) (countedVotes : next.countedVotes = core.countedVotes) :
    Shrinks core next where
  marks := fewer.map _
  signatures entry member _ _ found := ⟨entry, fewer.subset member, rfl, found⟩
  qcTx
  appended
  countedVotes

theorem refl (core) : Shrinks core core := of_sublist (.refl _) rfl rfl rfl

theorem trans {last} (first : Shrinks core next) (second : Shrinks next last) : Shrinks core last where
  marks := second.marks.trans first.marks
  signatures := by
    intro entry member name sig found
    obtain ⟨middle, held, block, found⟩ := second.signatures entry member name sig found
    obtain ⟨old, oldHeld, oldBlock, found⟩ := first.signatures middle held name sig found
    exact ⟨old, oldHeld, oldBlock.trans block, found⟩
  qcTx := second.qcTx.trans first.qcTx
  appended := second.appended.trans first.appended
  countedVotes := second.countedVotes.trans first.countedVotes

theorem send (shrinks : Shrinks core next) (qcs) :
    Shrinks { core with qcTx := core.qcTx ++ qcs } { next with qcTx := next.qcTx ++ qcs } :=
  { shrinks with qcTx := congrArg (· ++ qcs) shrinks.qcTx }

theorem rollback (staging : Staging) (n : Nat) : Shrinks staging.toStagingCore (staging.rollback n).toStagingCore :=
  of_sublist filter_sublist rfl (by simp [Staging.rollback, StagingCore.appended, LogServerCommand.block?]) rfl

theorem clearVotes (staging) : Shrinks staging.toStagingCore (clearVotes staging).toStagingCore where
  marks := by simp [Staging.clearVotes, Function.comp_def]
  signatures := by
    intro entry member name sig found
    obtain ⟨_, -, rfl⟩ := mem_map.mp member
    cases found
  qcTx := rfl
  appended := rfl
  countedVotes := rfl

theorem truncateForNewView (staging retainN) :
    Shrinks staging.toStagingCore (truncateForNewView staging retainN).toStagingCore := by
  unfold Staging.truncateForNewView
  dsimp only
  split <;> exact of_sublist filter_sublist rfl (by simp [StagingCore.appended]) rfl

theorem respected : RespectsCrash fun staging after => Shrinks staging.toStagingCore after.toStagingCore where
  refl _ := .refl _
  trans := .trans
  settle _ _ _ _ := of_sublist (.refl _) rfl rfl rfl
  rollback _ _ := .rollback _ _
  note _ _ _ _ := of_sublist (.refl _) rfl rfl rfl
  byzantineCommit _ _ _ _ :=
    of_sublist (dropWhile_sublist _) rfl (by simp [StagingCore.appended, LogServerCommand.block?]) rfl
  stabilize _ _ := of_sublist (.refl _) rfl rfl rfl
  crashCommit _ _ _ := of_sublist (.refl _) rfl rfl rfl

theorem endsFollowing {final} (ends : EndsFollowing crypto staging final after) :
    Shrinks staging.toStagingCore after.toStagingCore := by
  obtain ⟨_, _, core⟩ := ends.core
  rw [core]
  exact of_sublist (.refl _) rfl rfl rfl

theorem enters {block aeStats} (enters : Enters crypto staging block aeStats entered) :
    Shrinks staging.toStagingCore entered.toStagingCore := by
  cases enters with
  | sameView => exact .refl _
  | leaderJumps =>
    refine .trans (.trans ?_ (.rollback (announceView staging aeStats.view aeStats.configNum) _)) (.clearVotes _)
    exact of_sublist (.refl _) rfl rfl rfl
  | followerJumps =>
    refine Shrinks.trans ?_ (.clearVotes _)
    exact of_sublist filter_sublist rfl rfl rfl

theorem maybeCrashCommit (result : maybeCrashCommit crypto staging = some after) :
    Shrinks staging.toStagingCore after.toStagingCore := by
  obtain ⟨_, -, rfl⟩ := Option.map_eq_some_iff.mp result
  refine .trans ?_ (respected.doCrashCommit (noteCommit staging _) _)
  exact of_sublist (.refl _) rfl rfl rfl

end Shrinks

theorem emitQcs_shrinks {qcs} (result : emitQcs crypto staging qcs = some after) :
    Shrinks { staging.toStagingCore with qcTx := staging.qcTx ++ qcs } after.toStagingCore := by
  induction qcs generalizing staging with
  | nil =>
    cases result
    exact .of_sublist (.refl _) (append_nil _).symm rfl rfl
  | cons qc rest ih =>
    unfold emitQcs at result
    split at result
    · cases result
    · next settled stabilized =>
      have stays := Shrinks.respected.maybeStabilize stabilized
      have commits := (Shrinks.respected.maybeByzantineCommit crypto
        { settled with qcTx := settled.qcTx ++ [qc] } qc).send rest
      simp only [append_assoc] at commits
      exact ((stays.send (qc :: rest)).trans commits).trans (ih result)

/-!
## The order of the pending blocks
-/

/-- A block is not delivered again in a stable view while it is pending. -/
def InSequence (staging : Staging) : Event → Prop
  | .block block _ aeStats _ =>
    aeStats.view = staging.view → staging.viewIsStable = true → aeStats.viewIsStable = true →
      ∀ entry ∈ staging.pendingBlocks, entry.n = block.block.n → entry.block.blockHash ≠ block.blockHash
  | _ => True

instance (staging : Staging) : ∀ event, Decidable (InSequence staging event)
  | .block .. => inferInstanceAs (Decidable (_ → _ → _ → _))
  | .timerTick _ | .vote .. | .pacemaker _ => inferInstanceAs (Decidable True)

def InOrder (core : StagingCore) : Prop := (0 :: core.pendingBlocks.map (·.n)).Pairwise (· < ·)

theorem InOrder.sorted (inOrder : InOrder core) : Sorted core := (pairwise_cons.mp inOrder).2

theorem InOrder.positive (inOrder : InOrder core) {entry} (member : entry ∈ core.pendingBlocks) : 0 < entry.n :=
  (pairwise_cons.mp inOrder).1 _ (mem_map_of_mem member)

theorem InOrder.of_marks (inOrder : InOrder core)
    (marks : (next.pendingBlocks.map (·.marks)).Sublist (core.pendingBlocks.map (·.marks))) : InOrder next := by
  have numbers := marks.map (·.1.block.n)
  rw [map_map, map_map] at numbers
  exact List.Pairwise.sublist (numbers.cons_cons 0) inOrder

theorem Sorted.le_getLast? (sorted : Sorted core) {entry last} (tail : core.pendingBlocks.getLast? = some last)
    (member : entry ∈ core.pendingBlocks) : entry.n ≤ last.n := by
  obtain ⟨_, split⟩ := getLast?_eq_some_iff.mp tail
  rw [Sorted, split, map_append, pairwise_append] at sorted
  rw [split, mem_append, mem_singleton] at member
  rcases member with member | rfl
  · exact (sorted.2.2 _ (mem_map_of_mem member) _ mem_cons_self).le
  · exact Nat.le_refl _

theorem InOrder.above_of_checkContinuity (inOrder : InOrder staging.toStagingCore)
    (fresh : ∀ entry ∈ staging.pendingBlocks, entry.n = block.block.n → entry.block.blockHash ≠ block.blockHash)
    (continues : checkContinuity staging block = true) :
    0 < block.block.n ∧ ∀ entry ∈ staging.pendingBlocks, entry.n < block.block.n := by
  unfold checkContinuity at continues
  split at continues
  · next _ last head tail =>
    split at continues
    · cases continues
    · split at continues
      · cases continues
      · split at continues
        · next _ =>
          refine ⟨by omega, ?_⟩
          intro entry member
          have := inOrder.sorted.le_getLast? tail member
          omega
        · -- A block that is not above the last one is let through only if it is pending already.
          obtain ⟨entry, held, same⟩ := any_eq_true.mp continues
          rw [Bool.and_eq_true, beq_iff_eq, beq_iff_eq] at same
          exact absurd same.2 (fresh entry held same.1)
  · next missing =>
    have empty : staging.pendingBlocks = [] := by
      by_contra nonempty
      exact missing _ _ (head?_eq_some_head nonempty) (getLast?_eq_some_getLast nonempty)
    rw [empty]
    refine ⟨?_, forall_mem_nil _⟩
    split at continues
    · exact (beq_iff_eq.mp continues).symm ▸ Nat.one_pos
    · rw [Bool.and_eq_true, beq_iff_eq, beq_iff_eq] at continues
      omega

theorem InOrder.push (inOrder : InOrder staging.toStagingCore) (final)
    (fresh : ∀ entry ∈ staging.pendingBlocks, entry.n = block.block.n → entry.block.blockHash ≠ block.blockHash)
    (continues : checkContinuity staging block = true) : InOrder (pushBlock staging block final).toStagingCore := by
  obtain ⟨positive, above⟩ := inOrder.above_of_checkContinuity fresh continues
  have numbers : (pushBlock staging block final).pendingBlocks.map (·.n) =
      staging.pendingBlocks.map (·.n) ++ [block.block.n] := by
    simp [pushBlock]
  rw [InOrder, numbers, ← cons_append, pairwise_append]
  refine ⟨inOrder, pairwise_singleton _ _, ?_⟩
  intro n member last isLast
  rw [mem_singleton.mp isLast]
  rcases mem_cons.mp member with rfl | member
  · exact positive
  · obtain ⟨entry, held, rfl⟩ := mem_map.mp member
    exact above entry held

/-!
## How many certificates a block gets
-/

def madeFor (kind : Nat → Bool) (hash : HashType) (qcs : List ProtoQuorumCertificate) : Nat :=
  qcs.countP fun qc => qc.digest == hash && kind qc.sig.length

def openFor (done : CachedBlock × Bool × Bool → Bool) (hash : HashType) (marks : List (CachedBlock × Bool × Bool)) :
    Nat :=
  marks.countP fun mark => mark.1.blockHash == hash && !done mark

/-- Every block that was appended has got at most one certificate of the kind, and none
as long as it is not marked. -/
def Budgeted (kind : Nat → Bool) (done : CachedBlock × Bool × Bool → Bool) (core : StagingCore) : Prop :=
  ∀ hash, madeFor kind hash core.qcTx + openFor done hash (core.pendingBlocks.map (·.marks)) ≤
    core.appended.countP (·.blockHash == hash)

section Budget

variable {kind : Nat → Bool} {done : CachedBlock × Bool × Bool → Bool}
variable {thresh fastThresh : Nat}

theorem Budgeted.of_marks (budgeted : Budgeted kind done core)
    (marks : (next.pendingBlocks.map (·.marks)).Sublist (core.pendingBlocks.map (·.marks)))
    (qcTx : next.qcTx = core.qcTx) (appended : next.appended = core.appended) : Budgeted kind done next := by
  intro hash
  rw [qcTx, appended]
  exact (Nat.add_le_add_left marks.countP_le _).trans (budgeted hash)

theorem Budgeted.push (budgeted : Budgeted kind done staging.toStagingCore) (block final) :
    Budgeted kind done (pushBlock staging block final).toStagingCore := by
  intro hash
  have before := budgeted hash
  have opened : openFor done hash [({ block } : CachedBlockWithVotes).marks] ≤
      [block].countP (·.blockHash == hash) := by
    rw [openFor, countP_singleton, countP_singleton]
    cases block.blockHash == hash <;> cases done (block, false, false) <;> decide
  rw [appended_pushBlock]
  simp only [openFor, pushBlock, map_append, map_singleton, countP_append] at opened before ⊢
  omega

theorem countP_add_countP_le {α : Type} {first second both : α → Bool} {items : List α}
    (firstly : ∀ item ∈ items, first item = true → second item = false ∧ both item = true)
    (secondly : ∀ item ∈ items, second item = true → both item = true) :
    items.countP first + items.countP second ≤ items.countP both := by
  induction items with
  | nil => exact Nat.le_refl _
  | cons item rest ih =>
    have fewer := ih (fun other member => firstly other (mem_cons_of_mem _ member))
      (fun other member => secondly other (mem_cons_of_mem _ member))
    have isFirst := firstly item mem_cons_self
    have isSecond := secondly item mem_cons_self
    simp only [countP_cons]
    cases inFirst : first item with
    | true =>
      simp only [isFirst inFirst, Bool.false_eq_true, if_false]
      omega
    | false =>
      cases inSecond : second item with
      | true =>
        simp only [isSecond inSecond, Bool.false_eq_true, if_false]
        omega
      | false =>
        simp only [Bool.false_eq_true, if_false]
        omega

theorem madeFor_add_openFor_le {pending} (view hash)
    (pays : ∀ entry ∈ pending, needsQc thresh fastThresh entry = true → kind entry.voteSigs.keys.length = true →
      done entry.marks = false ∧ done (markProposed thresh fastThresh entry).marks = true)
    (keeps : ∀ entry ∈ pending, done entry.marks = true → done (markProposed thresh fastThresh entry).marks = true) :
    madeFor kind hash (proposeQcs view thresh fastThresh pending).2 +
      openFor done hash ((proposeQcs view thresh fastThresh pending).1.map (·.marks)) ≤
    openFor done hash (pending.map (·.marks)) := by
  simp only [madeFor, openFor, proposeQcs, countP_map, countP_filter]
  apply countP_add_countP_le
  · intro entry member made
    simp only [Function.comp_apply, Bool.and_eq_true] at made
    have size : (qcOf view entry).sig.length = entry.voteSigs.keys.length := by
      simp [qcOf, AList.toPairs, AList.keys, List.keys]
    obtain ⟨isOpen, closed⟩ := pays entry member made.2 (size ▸ made.1.2)
    simp only [Function.comp_apply, closed, isOpen, Bool.not_true, Bool.and_false, Bool.not_false, Bool.and_true]
    exact ⟨trivial, made.1.1⟩
  · intro entry member stillOpen
    simp only [Function.comp_apply, Bool.and_eq_true, Bool.not_eq_true', markProposed_block] at stillOpen ⊢
    refine ⟨stillOpen.1, ?_⟩
    by_contra closed
    rw [keeps entry member (Bool.eq_true_of_not_eq_false closed)] at stillOpen
    cases stillOpen.2

theorem Budgeted.propose (budgeted : Budgeted kind done core) (view)
    (pays : ∀ entry ∈ core.pendingBlocks, needsQc thresh fastThresh entry = true →
      kind entry.voteSigs.keys.length = true →
      done entry.marks = false ∧ done (markProposed thresh fastThresh entry).marks = true)
    (keeps : ∀ entry ∈ core.pendingBlocks, done entry.marks = true →
      done (markProposed thresh fastThresh entry).marks = true) :
    Budgeted kind done { core with
      pendingBlocks := (proposeQcs view thresh fastThresh core.pendingBlocks).1
      qcTx := core.qcTx ++ (proposeQcs view thresh fastThresh core.pendingBlocks).2 } := by
  intro hash
  have before := budgeted hash
  have paid := madeFor_add_openFor_le view hash pays keeps
  have made (more : List ProtoQuorumCertificate) :
      madeFor kind hash (core.qcTx ++ more) = madeFor kind hash core.qcTx + madeFor kind hash more :=
    countP_append
  dsimp only [StagingCore.appended] at before ⊢
  rw [made]
  omega

end Budget

/-!
## What the leader makes
-/

def Verified (crypto : CryptoService) (block : CachedBlock) (name : String) (sig : ProtoSignatureArrayEntry) : Prop :=
  block.block.isSigned = true ∧ sig.sig.length = signatureLength ∧ crypto.verify block.blockHash name sig.sig = true

/-- Over a signed block that was pending when a vote was counted, with verified signatures
of enough different names. -/
structure WellMade (crypto : CryptoService) (votes : List CountedVote) (qc : ProtoQuorumCertificate) : Prop where
  certifies : ∃ counted ∈ votes, ∃ block ∈ counted.pending,
    block.block.isSigned = true ∧ block.block.n = qc.n ∧ block.blockHash = qc.digest
  names : (qc.sig.map (·.name)).Nodup
  enough : ∃ thresh ∈ byzantineLivenessThreshold crypto.config, thresh ≤ qc.sig.length
  valid : ∀ entry ∈ qc.sig, entry.Valid crypto.primitives crypto.keystore qc.digest

theorem WellMade.append {votes} (made : WellMade crypto votes qc) (more) : WellMade crypto (votes ++ more) qc := by
  obtain ⟨counted, member, certified⟩ := made.certifies
  exact { made with certifies := ⟨counted, mem_append_left _ member, certified⟩ }

theorem minQcLen_le {config thresh} (known : byzantineLivenessThreshold config = some thresh) :
    ForkReceiver.byzantineLivenessThreshold config ≤ thresh := by
  unfold byzantineLivenessThreshold at known
  unfold ForkReceiver.byzantineLivenessThreshold
  dsimp only at known ⊢
  split at known
  · next platforms =>
    rw [if_pos platforms]
    split at known
    · cases known
      rw [wrappingSub]
      omega
    · cases known
  · next basic =>
    cases known
    rw [if_neg basic]

theorem byzantineCommitThreshold_le_fast {config thresh} (known : byzantineCommitThreshold config = some thresh) :
    thresh ≤ byzantineFastPathThreshold config := by
  unfold byzantineCommitThreshold byzantineLivenessThreshold at known
  dsimp only at known
  split at known
  · split at known
    · cases known
      exact Nat.sub_le _ _
    · cases known
  · cases known
    exact Nat.sub_le _ _

theorem names_qcOf (view entry) : (qcOf view entry).sig.map (·.name) = entry.voteSigs.keys := by
  simp [qcOf, AList.toPairs, AList.keys, List.keys]

theorem wellMade_qcOf {entry view thresh votes}
    (verified : ∀ name, ∀ sig ∈ entry.voteSigs.lookup name, Verified crypto entry.block name sig)
    (voted : ∃ counted ∈ votes, entry.block ∈ counted.pending)
    (known : byzantineCommitThreshold crypto.config = some thresh) (positive : 0 < thresh)
    (enough : thresh ≤ entry.voteSigs.keys.length ∨
      byzantineFastPathThreshold crypto.config ≤ entry.voteSigs.keys.length) :
    WellMade crypto votes (qcOf view entry) := by
  have fast := byzantineCommitThreshold_le_fast known
  have many : thresh ≤ entry.voteSigs.keys.length := by omega
  have names := names_qcOf view entry
  obtain ⟨counted, member, pending⟩ := voted
  refine ⟨⟨counted, member, entry.block, pending, ?_, rfl, rfl⟩, ?_, ?_, ?_⟩
  · obtain ⟨name, named⟩ := exists_mem_of_length_pos (positive.trans_le many)
    obtain ⟨sig, found⟩ := Option.isSome_iff_exists.mp (AList.lookup_isSome.mpr (AList.mem_keys.mp named))
    exact (verified name sig found).1
  · rw [names]
    exact entry.voteSigs.keys_nodup
  · refine ⟨thresh, known, ?_⟩
    rw [← length_map (f := (·.name)), names]
    exact many
  · intro named attached
    obtain ⟨_, bound, rfl⟩ := mem_map.mp attached
    obtain ⟨pair, held, rfl⟩ := mem_map.mp bound
    exact (verified pair.1 pair.2 (AList.mem_lookup_iff.mpr held)).2

/-- The pending blocks are in order, and carry only what the leader has verified; every
certificate is well made, and blocks with one are marked. -/
structure Creating (crypto : CryptoService) (core : StagingCore) : Prop where
  inOrder : InOrder core
  verified : ∀ entry ∈ core.pendingBlocks, ∀ name, ∀ sig ∈ entry.voteSigs.lookup name,
    Verified crypto entry.block name sig
  wellMade : ∀ qc ∈ core.qcTx, WellMade crypto core.countedVotes qc
  slowFirst : ∀ mark ∈ core.pendingBlocks.map (·.marks), mark.2.2 = true → mark.2.1 = true
  slow : Budgeted (fun count => decide (count < byzantineFastPathThreshold crypto.config)) (·.2.1) core
  fast : Budgeted (fun count => decide (byzantineFastPathThreshold crypto.config ≤ count)) (·.2.2) core

namespace Creating

theorem shrinks (creating : Creating crypto core) (shrinks : Shrinks core next) : Creating crypto next where
  inOrder := creating.inOrder.of_marks shrinks.marks
  verified := by
    intro entry member name sig found
    obtain ⟨old, held, block, found⟩ := shrinks.signatures entry member name sig found
    exact block ▸ creating.verified old held name sig found
  wellMade := by
    rw [shrinks.qcTx, shrinks.countedVotes]
    exact creating.wellMade
  slowFirst mark member := creating.slowFirst mark (shrinks.marks.subset member)
  slow := creating.slow.of_marks shrinks.marks shrinks.qcTx shrinks.appended
  fast := creating.fast.of_marks shrinks.marks shrinks.qcTx shrinks.appended

theorem push (creating : Creating crypto staging.toStagingCore) {block} (final)
    (fresh : ∀ entry ∈ staging.pendingBlocks, entry.n = block.block.n → entry.block.blockHash ≠ block.blockHash)
    (continues : checkContinuity staging block = true) :
    Creating crypto (pushBlock staging block final).toStagingCore where
  inOrder := creating.inOrder.push final fresh continues
  verified := by
    intro entry member name sig found
    rcases mem_append.mp member with member | member
    · exact creating.verified entry member name sig found
    · rw [mem_singleton.mp member] at found
      cases found
  wellMade := creating.wellMade
  slowFirst := by
    intro mark member isFast
    simp only [pushBlock, map_append, mem_append] at member
    rcases member with member | member
    · exact creating.slowFirst mark member isFast
    · rw [mem_singleton.mp member] at isFast
      cases isFast
  slow := creating.slow.push block final
  fast := creating.fast.push block final

theorem countVote (creating : Creating crypto staging.toStagingCore) {sender vote}
    (signs : ∀ entry ∈ staging.pendingBlocks, ∀ sig ∈ vote.sigArray, sig.n = entry.n →
      entry.block.block.isSigned = true → Verified crypto entry.block sender sig) :
    Creating crypto (countVote staging sender vote).toStagingCore where
  inOrder := creating.inOrder.of_marks (marks_recordVote sender vote.n vote.sigArray staging.pendingBlocks ▸ .refl _)
  verified := by
    intro entry member name sig found
    obtain ⟨old, held, block, -, sigsOf⟩ := mem_recordVote member
    rw [block]
    rcases sigsOf name sig found with found | ⟨rfl, mine, number, isSigned⟩
    · exact creating.verified old held name sig found
    · exact signs old held sig mine number isSigned
  wellMade qc member := (creating.wellMade qc member).append _
  slowFirst := by
    rw [Staging.countVote, marks_recordVote]
    exact creating.slowFirst
  slow := creating.slow.of_marks
    (marks_recordVote sender vote.n vote.sigArray staging.pendingBlocks ▸ .refl _) rfl rfl
  fast := creating.fast.of_marks
    (marks_recordVote sender vote.n vote.sigArray staging.pendingBlocks ▸ .refl _) rfl rfl

end Creating

section Marks

variable {thresh fastThresh : Nat} {entry : CachedBlockWithVotes}

theorem marks_of_needsQc (needed : needsQc thresh fastThresh entry = true) :
    (markProposed thresh fastThresh entry).marks =
      (entry.block, true, entry.fastQcIsProposed || decide (fastThresh ≤ entry.voteSigs.keys.length)) := by
  rw [markProposed, if_pos needed]

theorem marks_of_not_needsQc (needless : ¬needsQc thresh fastThresh entry = true) :
    (markProposed thresh fastThresh entry).marks = entry.marks := by
  rw [markProposed, if_neg needless]

theorem slow_of_needsQc (needed : needsQc thresh fastThresh entry = true)
    (few : entry.voteSigs.keys.length < fastThresh) : entry.qcIsProposed = false := by
  by_contra proposed
  have enough := of_decide_eq_true (Bool.and_eq_true_iff.mp needed).2
  rw [if_pos (Bool.eq_true_of_not_eq_false proposed)] at enough
  omega

theorem fast_of_needsQc (needed : needsQc thresh fastThresh entry = true)
    (slowFirst : entry.fastQcIsProposed = true → entry.qcIsProposed = true) : entry.fastQcIsProposed = false := by
  by_contra proposed
  have isFast := Bool.eq_true_of_not_eq_false proposed
  have open_ := (Bool.and_eq_true_iff.mp needed).1
  rw [isFast, slowFirst isFast] at open_
  cases open_

end Marks

theorem Creating.proposeQcs (creating : Creating crypto staging.toStagingCore) {thresh}
    (known : byzantineCommitThreshold crypto.config = some thresh) (positive : 0 < thresh)
    (voted : ∀ entry ∈ staging.pendingBlocks, ∃ counted ∈ staging.countedVotes, entry.block ∈ counted.pending) :
    Creating crypto { staging.toStagingCore with
      pendingBlocks := (proposeQcs staging.view thresh (byzantineFastPathThreshold crypto.config)
        staging.pendingBlocks).1
      qcTx := staging.qcTx ++ (proposeQcs staging.view thresh (byzantineFastPathThreshold crypto.config)
        staging.pendingBlocks).2 } where
  inOrder := by
    have numbers : ((staging.pendingBlocks.map (markProposed thresh
        (byzantineFastPathThreshold crypto.config))).map (·.n)) = staging.pendingBlocks.map (·.n) := by
      simp [CachedBlockWithVotes.n]
    rw [InOrder, Staging.proposeQcs, numbers]
    exact creating.inOrder
  verified := by
    intro entry member name sig found
    obtain ⟨old, held, rfl⟩ := mem_map.mp member
    rw [(markProposed_votes _ _ old).2] at found
    rw [markProposed_block]
    exact creating.verified old held name sig found
  wellMade := by
    intro qc member
    rcases mem_append.mp member with member | member
    · exact creating.wellMade qc member
    · obtain ⟨entry, held, rfl, enough⟩ := mem_proposeQcs member
      exact wellMade_qcOf (creating.verified entry held) (voted entry held) known positive enough
  slowFirst := by
    intro mark member isFast
    simp only [Staging.proposeQcs, map_map] at member
    obtain ⟨entry, held, rfl⟩ := mem_map.mp member
    by_cases needed : needsQc thresh (byzantineFastPathThreshold crypto.config) entry = true
    · rw [Function.comp_apply, marks_of_needsQc needed]
    · rw [Function.comp_apply, marks_of_not_needsQc needed] at isFast ⊢
      exact creating.slowFirst _ (mem_map_of_mem held) isFast
  slow := by
    apply creating.slow.propose
    · intro entry held needed few
      rw [marks_of_needsQc needed]
      exact ⟨slow_of_needsQc needed (of_decide_eq_true few), rfl⟩
    · intro entry held proposed
      by_cases needed : needsQc thresh (byzantineFastPathThreshold crypto.config) entry = true
      · rw [marks_of_needsQc needed]
      · rw [marks_of_not_needsQc needed]
        exact proposed
  fast := by
    apply creating.fast.propose
    · intro entry held needed many
      rw [marks_of_needsQc needed]
      refine ⟨fast_of_needsQc needed (creating.slowFirst _ (mem_map_of_mem held)), ?_⟩
      exact Bool.or_eq_true_iff.mpr (.inr many)
    · intro entry held proposed
      by_cases needed : needsQc thresh (byzantineFastPathThreshold crypto.config) entry = true
      · rw [marks_of_needsQc needed]
        exact Bool.or_eq_true_iff.mpr (.inl proposed)
      · rw [marks_of_not_needsQc needed]
        exact proposed

theorem Creating.maybeCreateQcs (creating : Creating crypto staging.toStagingCore)
    (positive : ∀ thresh ∈ byzantineCommitThreshold crypto.config, 0 < thresh)
    (voted : ∀ entry ∈ staging.pendingBlocks, ∃ counted ∈ staging.countedVotes, entry.block ∈ counted.pending)
    (result : maybeCreateQcs crypto staging = some after) : Creating crypto after.toStagingCore := by
  unfold Staging.maybeCreateQcs at result
  split at result
  · cases result
  · next thresh known =>
    exact (creating.proposeQcs known (positive thresh known) voted).shrinks (emitQcs_shrinks result)

theorem Counts.creating {vote} (counts : Counts crypto staging sender vote after)
    (positive : ∀ thresh ∈ byzantineCommitThreshold crypto.config, 0 < thresh)
    (creating : Creating crypto staging.toStagingCore)
    (signs : ∀ entry ∈ staging.pendingBlocks, ∀ sig ∈ vote.sigArray, sig.n = entry.n →
      entry.block.block.isSigned = true → Verified crypto entry.block sender sig) :
    Creating crypto after.toStagingCore := by
  obtain ⟨_, crashes, creates⟩ := counts.result
  have shrinks := Shrinks.maybeCrashCommit crashes
  refine ((creating.countVote signs).shrinks shrinks).maybeCreateQcs positive ?_ creates
  intro entry member
  have marked := shrinks.marks.subset (mem_map_of_mem member)
  rw [Staging.countVote, marks_recordVote] at marked
  obtain ⟨old, held, same⟩ := mem_map.mp marked
  have block : entry.block = old.block := (congrArg Prod.fst same).symm
  rw [shrinks.countedVotes, block]
  exact ⟨_, mem_append_right _ mem_cons_self, mem_map_of_mem held⟩

/-!
## Whole runs
-/

theorem InOrder.settleForBlock_fresh (inOrder : InOrder staging.toStagingCore)
    (inSequence : InSequence staging (.block block storageAck aeStats final))
    (enters : Enters crypto staging block aeStats entered) :
    ∀ entry ∈ (settleForBlock entered block aeStats).pendingBlocks, entry.n = block.block.n →
      entry.block.blockHash ≠ block.blockHash := by
  have entered' := inOrder.of_marks (Shrinks.enters enters).marks
  intro entry member number
  rw [settleForBlock_core] at member
  split at member
  · next stable =>
    cases enters with
    | sameView same => exact inSequence same stable.1 stable.2 entry member number
    | leaderJumps => cases stable.1
    | followerJumps => cases stable.1
  · obtain ⟨held, kept⟩ := mem_filter.mp member
    have positive := entered'.positive held
    have below := of_decide_eq_true kept
    rw [wrappingPred_of_pos (by omega)] at below
    omega

theorem Creating.pushBlock (creating : Creating crypto staging.toStagingCore)
    (inSequence : InSequence staging (.block block storageAck aeStats final))
    (enters : Enters crypto staging block aeStats entered)
    (continues : checkContinuity (settleForBlock entered block aeStats) block = true) :
    Creating crypto (pushBlock (settleForBlock entered block aeStats) block final).toStagingCore :=
  (creating.shrinks ((Shrinks.enters enters).trans (Shrinks.respected.settleForBlock _ _ _))).push final
    (creating.inOrder.settleForBlock_fresh inSequence enters) continues

theorem verified_of_voteSignaturesValid {sigs} (sorted : Sorted staging.toStagingCore)
    (valid : voteSignaturesValid crypto staging sender sigs = true) {entry} (held : entry ∈ staging.pendingBlocks)
    {sig} (mine : sig ∈ sigs) (number : sig.n = entry.n) (isSigned : entry.block.block.isSigned = true) :
    Verified crypto entry.block sender sig := by
  have checked := all_eq_true.mp valid sig mine
  cases found : staging.pendingBlocks.find? fun entry => entry.n == sig.n with
  | none => exact absurd (beq_iff_eq.mpr number.symm) (find?_eq_none.mp found entry held)
  | some first =>
    have isFirst := find?_some found
    have same : first = entry := sorted.eq_of_n_eq (mem_of_find?_eq_some found) held
      ((beq_iff_eq.mp isFirst).trans number)
    rw [found] at checked
    subst same
    rw [Bool.and_eq_true, beq_iff_eq] at checked
    exact ⟨isSigned, checked⟩

def Registered (publicKey : SigningKey → VerifyingKey) (crypto : CryptoService) : Prop :=
  crypto.keystore.getPubkey crypto.config.netConfig.name = some (publicKey crypto.keystore.privKey)

theorem Registered.verify_sign (registered : Registered publicKey crypto)
    (ed25519 : Ed25519 crypto.primitives publicKey) (data) :
    crypto.verify data crypto.config.netConfig.name (crypto.sign data) = true := by
  rw [CryptoService.verify, KeyStore.verify, registered]
  exact ed25519.verify_sign _ _

theorem Creating.lead {pushed} (creating : Creating crypto pushed.toStagingCore)
    (ed25519 : Ed25519 crypto.primitives publicKey) (registered : Registered publicKey crypto)
    (positive : ∀ thresh ∈ byzantineCommitThreshold crypto.config, 0 < thresh)
    (last : { block } ∈ pushed.pendingBlocks)
    (counts : Counts crypto pushed crypto.config.netConfig.name
      (voteFor pushed block (voteSignature crypto block)) after) :
    Creating crypto after.toStagingCore := by
  refine counts.creating positive creating ?_
  intro entry held sig mine number isSigned
  have signature : sig = { n := block.block.n, sig := crypto.sign block.blockHash } := by
    rw [voteSignature] at mine
    split at mine
    · exact mem_singleton.mp mine
    · cases mine
  have same : entry = { block } := creating.inOrder.sorted.eq_of_n_eq held last (by rw [← number, signature])
  rw [same] at isSigned ⊢
  rw [signature]
  exact ⟨isSigned, ed25519.sign_length _ _, registered.verify_sign ed25519 _⟩

theorem Transition.creating {event} (transition : Transition crypto staging event after)
    (ed25519 : Ed25519 crypto.primitives publicKey) (registered : Registered publicKey crypto)
    (positive : ∀ thresh ∈ byzantineCommitThreshold crypto.config, 0 < thresh)
    (inSequence : InSequence staging event) (creating : Creating crypto staging.toStagingCore) :
    Creating crypto after.toStagingCore := by
  cases transition with
  | idle core => rwa [core]
  | enterView _ _ core =>
    rw [core]
    exact creating.shrinks (.of_sublist (.refl _) rfl rfl rfl)
  | newView _ _ _ _ core =>
    rw [core]
    exact creating.shrinks (.truncateForNewView _ _)
  | vote _ valid counts =>
    exact counts.creating positive creating fun entry held sig mine number isSigned =>
      verified_of_voteSignaturesValid creating.inOrder.sorted valid held mine number isSigned
  | reject enters _ => exact creating.shrinks ((Shrinks.enters enters).trans (Shrinks.respected.settleForBlock _ _ _))
  | append enters _ continues core =>
    rw [core]
    exact creating.pushBlock inSequence enters continues
  | lead enters _ continues core counts =>
    have appended := creating.pushBlock inSequence enters continues
    rw [← core] at appended
    refine appended.lead ed25519 registered positive ?_ counts
    rw [congrArg StagingCore.pendingBlocks core]
    exact mem_append_right _ mem_cons_self
  | follow enters _ continues processed ends =>
    exact (creating.pushBlock inSequence enters continues).shrinks
      ((Shrinks.respected.followQcs processed).trans (.endsFollowing ends))

/-- The threshold is not zero: `liveness_u` is not the number of nodes, or the list
of nodes is not empty. -/
def NeedsVotes (config : Config) : Prop :=
  (config.features.platforms = true →
    config.consensusConfig.livenessU ≠ config.consensusConfig.nodeList.length) ∧
  (config.features.platforms = false → config.consensusConfig.nodeList ≠ [])

instance (config : Config) : Decidable (NeedsVotes config) := inferInstanceAs (Decidable (_ ∧ _))

theorem NeedsVotes.positive {config} (needsVotes : NeedsVotes config) :
    ∀ thresh ∈ byzantineCommitThreshold config, 0 < thresh := by
  intro thresh known
  rw [byzantineCommitThreshold, byzantineLivenessThreshold] at known
  split at known
  · next platforms =>
    have different := needsVotes.1 platforms
    split at known
    · cases known
      omega
    · cases known
  · next basic =>
    have nonempty := length_pos_iff.mpr (needsVotes.2 (Bool.eq_false_of_not_eq_true basic))
    cases known
    omega

theorem creating_of_reaches (ed25519 : Ed25519 crypto.primitives publicKey) (registered : Registered publicKey crypto)
    (withQcs : crypto.config.features.noQc = false) (needsVotes : NeedsVotes crypto.config)
    (reached : Reaches (step crypto) InSequence (new crypto.config) staging) :
    Creating crypto staging.toStagingCore := by
  refine reached.invariant (motive := fun staging => Creating crypto staging.toStagingCore) ?_
    fun creating inSequence taken =>
      (step_transition withQcs taken).creating ed25519 registered needsVotes.positive inSequence creating
  unfold new
  split <;> exact ⟨pairwise_singleton _ _, forall_mem_nil _, forall_mem_nil _, forall_mem_nil _,
    fun _ => Nat.le_refl _, fun _ => Nat.le_refl _⟩

structure Peer (crypto follower : CryptoService) : Prop where
  primitives : follower.primitives = crypto.primitives
  pubKeys : follower.keystore.pubKeys = crypto.keystore.pubKeys
  consensusConfig : follower.config.consensusConfig = crypto.config.consensusConfig
  features : follower.config.features = crypto.config.features

theorem WellMade.accepted {follower votes} (made : WellMade crypto votes qc)
    (ed25519 : Ed25519 crypto.primitives publicKey) (peer : Peer crypto follower) :
    verifyQc follower.primitives follower.keystore qc
      (ForkReceiver.byzantineLivenessThreshold follower.config) = true := by
  obtain ⟨_, known, enough⟩ := made.enough
  have sameLength : ForkReceiver.byzantineLivenessThreshold follower.config =
      ForkReceiver.byzantineLivenessThreshold crypto.config := by
    rw [ForkReceiver.byzantineLivenessThreshold, ForkReceiver.byzantineLivenessThreshold, peer.consensusConfig,
      peer.features]
  rw [peer.primitives, sameLength]
  refine (verifyQc_iff ed25519).mpr ⟨(minQcLen_le known).trans enough, ?_⟩
  intro entry attached
  have valid := made.valid entry attached
  simp only [ProtoNameWithSignature.Valid, KeyStore.verify, KeyStore.getPubkey] at valid ⊢
  rw [peer.pubKeys]
  exact valid

/-- In every run in which the pending blocks stay in sequence, every certificate is made
of a quorum of verified signatures on a signed block, followers accept it, and a block
gets one certificate below the fast threshold and one at it, if any, each time it is
appended. -/
theorem wellMade_of_reaches (ed25519 : Ed25519 crypto.primitives publicKey) (registered : Registered publicKey crypto)
    (withQcs : crypto.config.features.noQc = false) (needsVotes : NeedsVotes crypto.config)
    (reached : Reaches (step crypto) InSequence (new crypto.config) staging) :
    (∀ qc ∈ staging.qcTx, WellMade crypto staging.countedVotes qc ∧
      ∀ follower, Peer crypto follower → verifyQc follower.primitives follower.keystore qc
        (ForkReceiver.byzantineLivenessThreshold follower.config) = true) ∧
    ∀ hash,
      madeFor (fun count => decide (count < byzantineFastPathThreshold crypto.config)) hash staging.qcTx ≤
        staging.appended.countP (·.blockHash == hash) ∧
      madeFor (fun count => decide (byzantineFastPathThreshold crypto.config ≤ count)) hash staging.qcTx ≤
        staging.appended.countP (·.blockHash == hash) := by
  have creating := creating_of_reaches ed25519 registered withQcs needsVotes reached
  constructor
  · intro qc sent
    have made := creating.wellMade qc sent
    exact ⟨made, fun follower peer => made.accepted ed25519 peer⟩
  · intro hash
    exact ⟨(Nat.le_add_right _ _).trans (creating.slow hash), (Nat.le_add_right _ _).trans (creating.fast hash)⟩

def thirdLeaderBlock : CachedBlock := signedBlock [3] defaultHash (plainBlock 1 3 [])

theorem wellMade_after_vote :
    ∃ staging, Reaches (step (keyedNode "node3")) InSequence (new (keyedNode "node3").config) staging ∧
      staging.qcTx.map (fun qc => qc.sig.map (·.name)) = [["node2", "node3"]] ∧
      (∀ qc ∈ staging.qcTx, WellMade (keyedNode "node3") staging.countedVotes qc ∧
        ∀ follower, Peer (keyedNode "node3") follower → verifyQc follower.primitives follower.keystore qc
          (ForkReceiver.byzantineLivenessThreshold follower.config) = true) ∧
      ∀ hash,
        madeFor (fun count => decide (count < 3)) hash staging.qcTx ≤
          staging.appended.countP (·.blockHash == hash) ∧
        madeFor (fun count => decide (3 ≤ count)) hash staging.qcTx ≤
          staging.appended.countP (·.blockHash == hash) :=
  exists_reaches_and
    [.block thirdLeaderBlock (.ok ())
        { view := 3, viewIsStable := false, configNum := 1, sender := "node3", ci := 0 } true,
      .vote (.auth "node2" 0)
        { sigArray := [{ n := 1, sig := repeatingPrimitives.sign [2] thirdLeaderBlock.blockHash }]
          forkDigest := thirdLeaderBlock.blockHash, n := 1, view := 3, configNum := 1 }]
    (by decide +kernel) (by decide +kernel)
    fun reached _ => wellMade_of_reaches ed25519_repeatingPrimitives rfl rfl (by decide) reached

def needlessNode : CryptoService :=
  { keyedNode "node1" with
    config :=
      { netConfig := { name := "node1" }, consensusConfig := { nodeList := ["node1"], livenessU := 1 } } }

/-- No votes are needed for a certificate over a block without a signature. -/
theorem certificate_without_votes :
    ∃ staging, Reaches (step needlessNode) InSequence (new needlessNode.config) staging ∧
      ∃ qc ∈ staging.qcTx, qc.sig = [] ∧
        ∀ counted ∈ staging.countedVotes, ∀ block ∈ counted.pending, block.blockHash = qc.digest →
          block.block.isSigned = false :=
  exists_reaches
    [.block (tinyBlock 1 1 false defaultHash) (.ok ())
      { view := 1, viewIsStable := false, configNum := 1, sender := "node1", ci := 0 } true]
    (by decide +kernel) (by decide +kernel)

end Staging

end PirateShip
