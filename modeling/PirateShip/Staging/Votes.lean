import PirateShip.Staging.Log
import PirateShip.Staging.Operations

/-! Where the names and signatures on the pending blocks come from: a relation
that holds of every counted vote holds of everything that is on the blocks. -/

set_option autoImplicit false

namespace PirateShip.Staging

open List

variable {sender : String} {sigs : List ProtoSignatureArrayEntry} {voteN : Nat}

/-- Every name and every signature on a pending block is in the relations. -/
structure Tracked (acked : CachedBlock → String → Prop)
    (signed : CachedBlock → String → ProtoSignatureArrayEntry → Prop)
    (pending : List CachedBlockWithVotes) : Prop where
  acked : ∀ entry ∈ pending, ∀ name ∈ entry.replicationSet, acked entry.block name
  signed : ∀ entry ∈ pending, ∀ name, ∀ sig ∈ entry.voteSigs.lookup name, signed entry.block name sig

def Unvoted (entry : CachedBlockWithVotes) : Prop :=
  entry.replicationSet = ∅ ∧ entry.voteSigs.keys = []

instance (entry : CachedBlockWithVotes) : Decidable (Unvoted entry) :=
  inferInstanceAs (Decidable (_ ∧ _))

theorem unvoted_clearVotes (staging) : ∀ entry ∈ (clearVotes staging).pendingBlocks, Unvoted entry := by
  intro entry member
  obtain ⟨_, -, rfl⟩ := mem_map.mp member
  exact ⟨rfl, rfl⟩

variable {acked : CachedBlock → String → Prop}
  {signed : CachedBlock → String → ProtoSignatureArrayEntry → Prop}
  {pending next : List CachedBlockWithVotes}

theorem markProposed_votes (thresh fastThresh entry) :
    (markProposed thresh fastThresh entry).replicationSet = entry.replicationSet ∧
      (markProposed thresh fastThresh entry).voteSigs = entry.voteSigs := by
  unfold markProposed
  split <;> exact ⟨rfl, rfl⟩

namespace Tracked

theorem nil : Tracked acked signed [] := ⟨nofun, nofun⟩

theorem subset (tracked : Tracked acked signed pending) (fewer : next ⊆ pending) : Tracked acked signed next :=
  ⟨fun entry member => tracked.acked entry (fewer member), fun entry member => tracked.signed entry (fewer member)⟩

theorem mono {acked' signed'} (tracked : Tracked acked signed pending)
    (ackedMono : ∀ {block name}, acked block name → acked' block name)
    (signedMono : ∀ {block name sig}, signed block name sig → signed' block name sig) :
    Tracked acked' signed' pending :=
  ⟨fun entry member name voted => ackedMono (tracked.acked entry member name voted),
    fun entry member name sig found => signedMono (tracked.signed entry member name sig found)⟩

theorem append (first : Tracked acked signed pending) (second : Tracked acked signed next) :
    Tracked acked signed (pending ++ next) := by
  constructor
  · intro entry member
    exact (mem_append.mp member).elim (first.acked entry) (second.acked entry)
  · intro entry member
    exact (mem_append.mp member).elim (first.signed entry) (second.signed entry)

theorem of_unvoted (unvoted : ∀ entry ∈ pending, Unvoted entry) : Tracked acked signed pending := by
  constructor
  · intro entry member name voted
    rw [(unvoted entry member).1] at voted
    exact absurd voted (Finset.notMem_empty name)
  · intro entry member name sig found
    have held : name ∈ entry.voteSigs.keys := AList.mem_keys.mpr (AList.lookup_isSome.mp (Option.isSome_of_mem found))
    rw [(unvoted entry member).2] at held
    exact absurd held not_mem_nil

theorem push (tracked : Tracked acked signed pending) (block) :
    Tracked acked signed (pending ++ [({ block } : CachedBlockWithVotes)]) :=
  tracked.append (of_unvoted fun entry member => by
    rw [mem_singleton.mp member]
    exact ⟨rfl, rfl⟩)

theorem markProposed (tracked : Tracked acked signed pending) (thresh fastThresh) :
    Tracked acked signed (pending.map (markProposed thresh fastThresh)) := by
  constructor
  · intro entry member name voted
    obtain ⟨old, held, rfl⟩ := mem_map.mp member
    rw [(markProposed_votes thresh fastThresh old).1] at voted
    exact markProposed_block thresh fastThresh old ▸ tracked.acked old held name voted
  · intro entry member name sig found
    obtain ⟨old, held, rfl⟩ := mem_map.mp member
    rw [(markProposed_votes thresh fastThresh old).2] at found
    exact markProposed_block thresh fastThresh old ▸ tracked.signed old held name sig found

end Tracked

private theorem lookup_foldl_insert {name : String}
    {onBlock : HashMap String ProtoSignatureArrayEntry} {sig : ProtoSignatureArrayEntry}
    (found : sig ∈ (sigs.foldl (fun sigsOf sig => sigsOf.insert sender sig) onBlock).lookup name) :
    sig ∈ onBlock.lookup name ∨ name = sender ∧ sig ∈ sigs := by
  induction sigs generalizing onBlock with
  | nil => exact .inl found
  | cons first rest ih =>
    rcases ih found with found | ⟨same, member⟩
    · by_cases same : name = sender
      · subst same
        rw [AList.lookup_insert, Option.mem_some] at found
        exact .inr ⟨rfl, found ▸ mem_cons_self⟩
      · rw [AList.lookup_insert_ne same] at found
        exact .inl found
    · exact .inr ⟨same, mem_cons_of_mem _ member⟩

/-- What counting a vote adds to a pending block: the sender on the block it
votes for and below, and the signatures for the block itself, if it is signed. -/
theorem mem_recordVote {entry} (member : entry ∈ recordVote sender voteN sigs pending) :
    ∃ old ∈ pending, entry.block = old.block ∧
      entry.replicationSet = (if old.n ≤ voteN then insert sender old.replicationSet else old.replicationSet) ∧
      ∀ name, ∀ sig ∈ entry.voteSigs.lookup name, sig ∈ old.voteSigs.lookup name ∨
          name = sender ∧ sig ∈ sigs ∧ sig.n = old.n ∧ old.block.block.isSigned = true := by
  induction pending generalizing sigs with
  | nil => cases member
  | cons old rest ih =>
    unfold recordVote at member
    dsimp only at member
    split at member
    · next isSigned =>
      rcases mem_cons.mp member with rfl | member
      · refine ⟨old, mem_cons_self, rfl, rfl, fun name sig found => ?_⟩
        refine (lookup_foldl_insert found).imp_right (And.imp_right fun mine => ?_)
        obtain ⟨mine, number⟩ := mem_filter.mp mine
        exact ⟨mine, beq_iff_eq.mp number, isSigned⟩
      · obtain ⟨other, member, block, replicated, sigsOf⟩ := ih member
        refine ⟨other, mem_cons_of_mem _ member, block, replicated, fun name sig found => ?_⟩
        exact (sigsOf name sig found).imp_right (And.imp_right (And.imp_left mem_of_mem_filter))
    · rcases mem_cons.mp member with rfl | member
      · exact ⟨old, mem_cons_self, rfl, rfl, fun name sig found => .inl found⟩
      · obtain ⟨other, member, rest⟩ := ih member
        exact ⟨other, mem_cons_of_mem _ member, rest⟩

theorem Tracked.recordVote (tracked : Tracked acked signed pending)
    (acks : ∀ entry ∈ pending, entry.n ≤ voteN → acked entry.block sender)
    (signs : ∀ entry ∈ pending, ∀ sig ∈ sigs, sig.n = entry.n → entry.block.block.isSigned = true →
      signed entry.block sender sig) :
    Tracked acked signed (recordVote sender voteN sigs pending) := by
  constructor
  · intro entry member name voted
    obtain ⟨old, held, block, replicated, -⟩ := mem_recordVote member
    rw [block]
    rw [replicated] at voted
    split at voted
    · next covered =>
      rcases Finset.mem_insert.mp voted with rfl | voted
      · exact acks old held covered
      · exact tracked.acked old held name voted
    · exact tracked.acked old held name voted
  · intro entry member name sig found
    obtain ⟨old, held, block, -, sigsOf⟩ := mem_recordVote member
    rw [block]
    rcases sigsOf name sig found with found | ⟨rfl, mine, number, isSigned⟩
    · exact tracked.signed old held name sig found
    · exact signs old held sig mine number isSigned

/-!
## Operations that count nothing
-/

structure Fewer (core next : StagingCore) : Prop where
  pending : next.pendingBlocks ⊆ core.pendingBlocks
  view : next.view = core.view
  countedVotes : next.countedVotes = core.countedVotes
  countedCommits : next.countedCommits = core.countedCommits
  qcTx : next.qcTx = core.qcTx

variable {crypto : CryptoService} {staging after : Staging} {core : StagingCore}

theorem Fewer.refl (core) : Fewer core core := ⟨List.Subset.refl _, rfl, rfl, rfl, rfl⟩

theorem Fewer.trans {next last} (first : Fewer core next) (second : Fewer next last) : Fewer core last :=
  ⟨fun _ member => first.pending (second.pending member), second.view.trans first.view,
    second.countedVotes.trans first.countedVotes, second.countedCommits.trans first.countedCommits,
    second.qcTx.trans first.qcTx⟩

theorem fewer_respected : RespectsCrash fun staging after => Fewer staging.toStagingCore after.toStagingCore where
  refl _ := .refl _
  trans := .trans
  settle _ _ _ _ := ⟨List.Subset.refl _, rfl, rfl, rfl, rfl⟩
  rollback _ _ := ⟨filter_sublist.subset, rfl, rfl, rfl, rfl⟩
  note _ _ _ _ := ⟨List.Subset.refl _, rfl, rfl, rfl, rfl⟩
  byzantineCommit _ _ _ _ := ⟨(dropWhile_sublist _).subset, rfl, rfl, rfl, rfl⟩
  stabilize _ _ := ⟨List.Subset.refl _, rfl, rfl, rfl, rfl⟩
  crashCommit _ _ _ := ⟨List.Subset.refl _, rfl, rfl, rfl, rfl⟩

theorem truncateForNewView_fewer (staging retainN) :
    Fewer staging.toStagingCore (truncateForNewView staging retainN).toStagingCore := by
  unfold truncateForNewView
  dsimp only
  split <;> exact ⟨filter_sublist.subset, rfl, rfl, rfl, rfl⟩

theorem EndsFollowing.fewer {final} (ends : EndsFollowing crypto staging final after) :
    Fewer staging.toStagingCore after.toStagingCore := by
  obtain ⟨_, _, core⟩ := ends.core
  rw [core]
  exact ⟨List.Subset.refl _, rfl, rfl, rfl, rfl⟩

end PirateShip.Staging
