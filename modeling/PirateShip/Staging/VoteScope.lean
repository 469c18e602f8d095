import PirateShip.Staging.ChainInvariant
import PirateShip.Staging.Votes

/-! Votes count only in the view they were cast in, as long as `update_view`
finds no votes on the pending blocks: the other two ways into a view clear
them, this one does not. -/

set_option autoImplicit false

namespace PirateShip.Staging

open List StepSystem

variable {crypto : CryptoService} {staging entered after : Staging} {core next : StagingCore}
variable {block : CachedBlock} {more : List CountedVote} {name sender : String}

/-- `name` voted in `view`, and the vote was counted while `block` was pending. -/
def Acked (votes : List CountedVote) (view : Nat) (block : CachedBlock) (name : String) : Prop :=
  ∃ counted ∈ votes, counted.sender = name ∧ counted.vote.view = view ∧ block ∈ counted.pending

def Signed (votes : List CountedVote) (view : Nat) (block : CachedBlock) (name : String)
    (sig : ProtoSignatureArrayEntry) : Prop :=
  ∃ counted ∈ votes, counted.sender = name ∧ counted.vote.view = view ∧ block ∈ counted.pending ∧
    sig ∈ counted.vote.sigArray

/-- Every signature of the certificate came with a vote of the certificate's
view, while the certified block was pending. -/
def Certified (votes : List CountedVote) (qc : ProtoQuorumCertificate) : Prop :=
  ∃ block : CachedBlock, block.blockHash = qc.digest ∧ block.block.n = qc.n ∧
    ∀ entry ∈ qc.sig, ∃ sig, sig.sig = entry.sig ∧ Signed votes qc.view block entry.name sig

structure VoteScoped (core : StagingCore) : Prop where
  pending : Tracked (Acked core.countedVotes core.view) (Signed core.countedVotes core.view)
    core.pendingBlocks
  commits : ∀ commit ∈ core.countedCommits, ∀ name ∈ commit.voters,
    Acked core.countedVotes commit.view commit.block name
  certificates : ∀ qc ∈ core.qcTx, Certified core.countedVotes qc

namespace VoteScoped

theorem fewer (inScope : VoteScoped core) (fewer : Fewer core next) : VoteScoped next where
  pending := by
    rw [fewer.countedVotes, fewer.view]
    exact inScope.pending.subset fewer.pending
  commits := by
    rw [fewer.countedVotes, fewer.countedCommits]
    exact inScope.commits
  certificates := by
    rw [fewer.countedVotes, fewer.qcTx]
    exact inScope.certificates

theorem unvoted (inScope : VoteScoped core) (unvoted : ∀ entry ∈ next.pendingBlocks, Unvoted entry)
    (votes : next.countedVotes = core.countedVotes) (commits : next.countedCommits = core.countedCommits)
    (qcTx : next.qcTx = core.qcTx) : VoteScoped next where
  pending := .of_unvoted unvoted
  commits := by
    rw [votes, commits]
    exact inScope.commits
  certificates := by
    rw [votes, qcTx]
    exact inScope.certificates

theorem push (inScope : VoteScoped staging.toStagingCore) (block final) :
    VoteScoped (pushBlock staging block final).toStagingCore :=
  ⟨inScope.pending.push block, inScope.commits, inScope.certificates⟩

end VoteScoped

theorem Enters.voteScoped {aeStats} (enters : Enters crypto staging block aeStats entered)
    (inScope : VoteScoped staging.toStagingCore) :
    VoteScoped entered.toStagingCore := by
  cases enters with
  | sameView => exact inScope
  | leaderJumps => exact inScope.unvoted (unvoted_clearVotes _) rfl rfl rfl
  | followerJumps => exact inScope.unvoted (unvoted_clearVotes _) rfl rfl rfl

/-!
## Counting a vote
-/

private theorem acked_append {votes view} (acked : Acked votes view block name) :
    Acked (votes ++ more) view block name := by
  obtain ⟨counted, member, facts⟩ := acked
  exact ⟨counted, mem_append_left _ member, facts⟩

private theorem signed_append {votes view sig} (signed : Signed votes view block name sig) :
    Signed (votes ++ more) view block name sig := by
  obtain ⟨counted, member, facts⟩ := signed
  exact ⟨counted, mem_append_left _ member, facts⟩

theorem VoteScoped.countVote (inScope : VoteScoped staging.toStagingCore) {vote}
    (sameView : staging.view = vote.view) :
    VoteScoped (countVote staging sender vote).toStagingCore where
  pending := by
    refine (inScope.pending.mono acked_append signed_append).recordVote ?_ ?_
    · intro entry member _
      exact ⟨_, mem_append_right _ mem_cons_self, rfl, sameView.symm, mem_map_of_mem member⟩
    · intro entry member sig mine _ _
      exact ⟨_, mem_append_right _ mem_cons_self, rfl, sameView.symm, mem_map_of_mem member, mine⟩
  commits commit member name voted := acked_append (inScope.commits commit member name voted)
  certificates qc member := by
    obtain ⟨block, digest, number, sigs⟩ := inScope.certificates qc member
    refine ⟨block, digest, number, fun entry attached => ?_⟩
    obtain ⟨sig, same, signed⟩ := sigs entry attached
    exact ⟨sig, same, signed_append signed⟩

theorem VoteScoped.maybeCrashCommit (inScope : VoteScoped staging.toStagingCore)
    (result : maybeCrashCommit crypto staging = some after) : VoteScoped after.toStagingCore := by
  obtain ⟨_, -, rfl⟩ := Option.map_eq_some_iff.mp result
  refine VoteScoped.fewer ?_ (fewer_respected.doCrashCommit _ _)
  refine ⟨inScope.pending, fun commit member name voted => ?_, inScope.certificates⟩
  rcases mem_append.mp member with member | member
  · exact inScope.commits commit member name voted
  · split at member
    · obtain ⟨entry, kept, rfl⟩ := mem_map.mp member
      exact inScope.pending.acked entry (mem_filter.mp kept).1 name voted
    · cases member

theorem certified_qcOf (inScope : VoteScoped core) {entry} (member : entry ∈ core.pendingBlocks) :
    Certified core.countedVotes (qcOf core.view entry) := by
  refine ⟨entry.block, rfl, rfl, fun named attached => ?_⟩
  obtain ⟨_, bound, rfl⟩ := mem_map.mp attached
  obtain ⟨pair, held, rfl⟩ := mem_map.mp bound
  exact ⟨pair.2, rfl, inScope.pending.signed entry member pair.1 pair.2 (AList.mem_lookup_iff.mpr held)⟩

theorem VoteScoped.maybeCreateQcs (inScope : VoteScoped staging.toStagingCore)
    (result : maybeCreateQcs crypto staging = some after) : VoteScoped after.toStagingCore := by
  refine (maybeCreateQcs_rule (motive := fun core => VoteScoped core ∧ core.countedVotes = staging.countedVotes)
    (fun core kept => ⟨kept.1.fewer ⟨List.Subset.refl _, rfl, rfl, rfl, rfl⟩, kept.2⟩)
    ?_ ?_ ?_ result).1
  · intro core entry member _ _ _ ⟨inScope', same⟩
    refine ⟨⟨inScope'.pending, inScope'.commits, fun qc emitted => ?_⟩, same⟩
    rcases mem_append.mp emitted with emitted | new
    · exact inScope'.certificates qc emitted
    · rw [mem_singleton.mp new]
      exact same ▸ certified_qcOf inScope member
  · intro current entry member thresh _ _ ⟨inScope', same⟩
    have byz := fewer_respected.maybeByzantineCommit crypto current (qcOf staging.view entry)
    exact ⟨inScope'.fewer byz, byz.countedVotes.trans same⟩
  · intro thresh
    exact ⟨⟨inScope.pending.markProposed thresh _, inScope.commits, inScope.certificates⟩, rfl⟩

theorem Counts.voteScoped {vote} (counts : Counts crypto staging sender vote after)
    (inScope : VoteScoped staging.toStagingCore) :
    VoteScoped after.toStagingCore := by
  obtain ⟨_, crashes, creates⟩ := counts.result
  exact ((inScope.countVote counts.sameView).maybeCrashCommit crashes).maybeCreateQcs creates

/-!
## Whole runs
-/

def VotesCleared (crypto : CryptoService) (staging : Staging) (event : Event) : Prop :=
  MovesView crypto staging event → ∀ entry ∈ staging.pendingBlocks, Unvoted entry

instance (crypto : CryptoService) (staging : Staging) (event : Event) :
    Decidable (VotesCleared crypto staging event) :=
  inferInstanceAs (Decidable (_ → _))

theorem Transition.voteScoped {event} (transition : Transition crypto staging event after)
    (cleared : VotesCleared crypto staging event) (inScope : VoteScoped staging.toStagingCore) :
    VoteScoped after.toStagingCore := by
  cases transition with
  | idle core => rwa [core]
  | enterView moves _ core =>
    refine inScope.unvoted ?_ ?_ ?_ ?_
    · rw [core]
      exact cleared moves
    all_goals rw [core]
  | newView _ _ _ _ core =>
    rw [core]
    exact inScope.fewer (truncateForNewView_fewer _ _)
  | vote _ _ counts => exact counts.voteScoped inScope
  | reject enters _ => exact (enters.voteScoped inScope).fewer (fewer_respected.settleForBlock _ _ _)
  | append enters _ _ core =>
    rw [core]
    exact ((enters.voteScoped inScope).fewer (fewer_respected.settleForBlock _ _ _)).push _ _
  | lead enters _ _ core counts =>
    refine counts.voteScoped ?_
    rw [core]
    exact ((enters.voteScoped inScope).fewer (fewer_respected.settleForBlock _ _ _)).push _ _
  | follow enters _ _ processed ends =>
    refine VoteScoped.fewer ?_ ((fewer_respected.followQcs processed).trans ends.fewer)
    exact ((enters.voteScoped inScope).fewer (fewer_respected.settleForBlock _ _ _)).push _ _

/-- In every run in which no votes are left when `update_view` moves the view,
votes, commits and certificates stay within a view. -/
theorem voteScoped_of_reaches (withQcs : crypto.config.features.noQc = false)
    (reached : Reaches (step crypto) (VotesCleared crypto) (new crypto.config) staging) :
    VoteScoped staging.toStagingCore := by
  refine reached.invariant (motive := fun staging => VoteScoped staging.toStagingCore) ?_
    fun inScope cleared taken => (step_transition withQcs taken).voteScoped cleared inScope
  unfold new
  split <;> exact ⟨.nil, nofun, nofun⟩

/-!
## A vote that survives a view change
-/

instance (votes : List CountedVote) (view : Nat) (block : CachedBlock) (name : String) :
    Decidable (Acked votes view block name) :=
  inferInstanceAs (Decidable (∃ _ ∈ _, _))

def sampleVote (sender : String) (n view : Nat) (tag : UInt8) : Event :=
  .vote (.auth sender 0) { sigArray := [], forkDigest := sampleHash tag, n, view, configNum := 1 }

/-- A leader votes for its block in view 1. The pacemaker moves it to view 4,
which it leads again, and the vote of one other node commits the block. -/
theorem old_vote_counts_in_new_view :
    ∃ staging, Reaches (step (threeNodes "node1")) Any (new (threeNodes "node1").config) staging ∧
      (∃ commit ∈ staging.countedCommits, ∃ name ∈ commit.voters,
        ¬ Acked staging.countedVotes commit.view commit.block name) ∧
      ¬ VoteScoped staging.toStagingCore := by
  refine exists_reaches_and [deliver (sampleBlock 1 1 1 0 []) 1 0 false, .pacemaker (.updateView 4 1),
    sampleVote "node2" 1 4 1] (allAllowed_any _ _) (by decide +kernel) fun _ known inScope => ?_
  obtain ⟨commit, member, name, voted, unbacked⟩ := known
  exact unbacked (inScope.commits commit member name voted)

theorem voteScoped_after_commit :
    ∃ staging, Reaches (step (threeNodes "node1")) (VotesCleared (threeNodes "node1"))
      (new (threeNodes "node1").config) staging ∧ staging.ci = 1 ∧ VoteScoped staging.toStagingCore :=
  exists_reaches_and [deliver (sampleBlock 1 1 1 0 []) 1 0 false, sampleVote "node2" 1 1 1] (by decide) (by decide)
    fun reached _ => voteScoped_of_reaches rfl reached

end PirateShip.Staging
