import PirateShip.Staging.VoteScope

/-! Who counts on the leader's pending blocks. `process_vote` reads neither
`fork_digest` nor `node_list`, so the count is sound only as long as the votes
for a pending number name its block and come from members. -/

set_option autoImplicit false

namespace PirateShip.Staging

open List HashLinked StepSystem

variable {crypto : CryptoService} {staging entered after : Staging} {core next : StagingCore}
  {nodes : List String}
variable {block : CachedBlock} {sender : String} {oldViewIsStable final : Bool} {qcs : List ProtoQuorumCertificate}
  {storageAck : StorageAck} {aeStats : AppendEntriesStats} {pushed : Staging} {event : Event}

/-- A member voted in the view for the `target`, which was pending then and is
the block or descends from it. -/
structure Backs (nodes : List String) (view : Nat) (block target : CachedBlock) (name : String)
    (counted : CountedVote) : Prop where
  member : name ∈ nodes
  sender : counted.sender = name
  view : counted.vote.view = view
  digest : target.blockHash = counted.vote.forkDigest
  descends : Descends counted.pending block target

def Backing (nodes : List String) (core : StagingCore) (block : CachedBlock) (name : String) : Prop :=
  ∃ counted ∈ core.countedVotes, ∃ target ∈ core.pendingBlocks,
    Backs nodes core.view block target.block name counted ∧ block.block.n ≤ target.n ∧
      name ∈ target.replicationSet

def CommitBacked (config : Config) (votes : List CountedVote) (commit : CountedCommit) : Prop :=
  crashCommitThreshold config ≤ commit.voters.card ∧
    ∀ name ∈ commit.voters, ∃ counted ∈ votes, ∃ target,
      Backs config.consensusConfig.nodeList commit.view commit.block target name counted

theorem CommitBacked.append {config votes more commit} (backed : CommitBacked config votes commit) :
    CommitBacked config (votes ++ more) commit := by
  refine ⟨backed.1, fun name voted => ?_⟩
  obtain ⟨counted, member, backs⟩ := backed.2 name voted
  exact ⟨counted, mem_append_left _ member, backs⟩

theorem Backing.mono {name} (backing : Backing nodes core block name) (view : next.view = core.view)
    (votes : core.countedVotes ⊆ next.countedVotes)
    (kept : ∀ target ∈ core.pendingBlocks, block.block.n ≤ target.n → name ∈ target.replicationSet →
      ∃ target' ∈ next.pendingBlocks, target'.block = target.block ∧ name ∈ target'.replicationSet) :
    Backing nodes next block name := by
  obtain ⟨counted, member, target, held, backs, later, voted⟩ := backing
  obtain ⟨target', held', same, voted'⟩ := kept target held later voted
  refine ⟨counted, votes member, target', held', ?_, ?_, voted'⟩
  · rw [view, same]
    exact backs
  · unfold CachedBlockWithVotes.n
    rw [same]
    exact later

structure TallyInv (config : Config) (core : StagingCore) : Prop where
  pending : Tracked (Backing config.consensusConfig.nodeList core)
    (fun block name _ => Backing config.consensusConfig.nodeList core block name) core.pendingBlocks
  commits : ∀ commit ∈ core.countedCommits, CommitBacked config core.countedVotes commit

variable {config : Config}

namespace TallyInv

theorem fewer (tally : TallyInv config core) (fewer : Fewer core next)
    (kept : ∀ entry ∈ next.pendingBlocks, ∀ target ∈ core.pendingBlocks, entry.n ≤ target.n →
      target.replicationSet.Nonempty → target ∈ next.pendingBlocks) : TallyInv config next where
  pending := by
    have backing {entry : CachedBlockWithVotes} {name : String} (member : entry ∈ next.pendingBlocks)
        (backing : Backing config.consensusConfig.nodeList core entry.block name) :
        Backing config.consensusConfig.nodeList next entry.block name :=
      backing.mono fewer.view (by rw [fewer.countedVotes]; exact List.Subset.refl _) fun target held later voted =>
          ⟨target, kept entry member target held later ⟨name, voted⟩, rfl, voted⟩
    constructor
    · intro entry member name voted
      exact backing member (tally.pending.acked entry (fewer.pending member) name voted)
    · intro entry member name sig found
      exact backing member (tally.pending.signed entry (fewer.pending member) name sig found)
  commits := by
    rw [fewer.countedCommits, fewer.countedVotes]
    exact tally.commits

theorem same (tally : TallyInv config core) (fewer : Fewer core next)
    (pending : next.pendingBlocks = core.pendingBlocks) : TallyInv config next :=
  tally.fewer fewer fun _ _ _ held _ _ => pending ▸ held

theorem unvoted (tally : TallyInv config core) (unvoted : ∀ entry ∈ next.pendingBlocks, Unvoted entry)
    (votes : next.countedVotes = core.countedVotes) (commits : next.countedCommits = core.countedCommits) :
    TallyInv config next where
  pending := .of_unvoted unvoted
  commits := by
    rw [votes, commits]
    exact tally.commits

theorem push (tally : TallyInv config staging.toStagingCore) (block final) :
    TallyInv config (pushBlock staging block final).toStagingCore where
  pending := by
    have backing {older : CachedBlock} {name : String}
        (backing : Backing config.consensusConfig.nodeList staging.toStagingCore older name) :
        Backing config.consensusConfig.nodeList (pushBlock staging block final).toStagingCore older name :=
      backing.mono rfl (List.Subset.refl _) fun target held _ voted =>
        ⟨target, mem_append_left _ held, rfl, voted⟩
    exact (tally.pending.mono backing backing).push block
  commits := tally.commits

end TallyInv

/-!
## Counting a vote
-/

theorem exists_recordVote (sender voteN sigs) {pending old} (member : old ∈ pending) :
    ∃ entry ∈ recordVote sender voteN sigs pending, entry.block = old.block ∧ entry.replicationSet =
        if old.n ≤ voteN then insert sender old.replicationSet else old.replicationSet := by
  induction pending generalizing sigs with
  | nil => cases member
  | cons first rest ih =>
    unfold recordVote
    dsimp only
    rcases mem_cons.mp member with rfl | member
    · split <;> exact ⟨_, mem_cons_self, rfl, rfl⟩
    · split
      · obtain ⟨entry, held, facts⟩ := ih _ member
        exact ⟨entry, mem_cons_of_mem _ held, facts⟩
      · obtain ⟨entry, held, facts⟩ := ih _ member
        exact ⟨entry, mem_cons_of_mem _ held, facts⟩

theorem TallyInv.countVote (tally : TallyInv config staging.toStagingCore)
    (chain : ChainInv staging.toStagingCore) {vote} (sameView : staging.view = vote.view)
    (isMember : sender ∈ config.consensusConfig.nodeList) {target} (held : target ∈ staging.pendingBlocks)
    (number : target.n = vote.n) (digest : target.block.blockHash = vote.forkDigest)
    (signs : ∀ sig ∈ vote.sigArray, sig.n ≤ vote.n) :
    TallyInv config (Staging.countVote staging sender vote).toStagingCore := by
  have older {block : CachedBlock} {name : String}
      (backing : Backing config.consensusConfig.nodeList staging.toStagingCore block name) :
      Backing config.consensusConfig.nodeList (Staging.countVote staging sender vote).toStagingCore block name := by
    refine backing.mono rfl (subset_append_left _ _) fun target held _ voted => ?_
    obtain ⟨entry, recorded, same, names⟩ := exists_recordVote sender vote.n vote.sigArray held
    refine ⟨entry, recorded, same, ?_⟩
    rw [names]
    split
    · exact Finset.mem_insert_of_mem voted
    · exact voted
  have acks : ∀ entry ∈ staging.pendingBlocks, entry.n ≤ vote.n →
      Backing config.consensusConfig.nodeList (Staging.countVote staging sender vote).toStagingCore
        entry.block sender := by
    intro entry member covered
    obtain ⟨recorded, isRecorded, same, names⟩ := exists_recordVote sender vote.n vote.sigArray held
    rw [if_pos number.le] at names
    have descends : Descends (staging.pendingBlocks.map (·.block)) entry.block target.block :=
      chain.pending.descends (mem_map_of_mem member) (mem_map_of_mem held) (covered.trans number.ge)
    refine ⟨_, mem_append_right _ mem_cons_self, recorded, isRecorded, ?_, ?_, ?_⟩
    · rw [same]
      exact ⟨isMember, rfl, sameView.symm, digest, descends⟩
    · unfold CachedBlockWithVotes.n
      rw [same]
      exact covered.trans number.ge
    · rw [names]
      exact Finset.mem_insert_self _ _
  refine ⟨(tally.pending.mono older older).recordVote acks ?_, fun commit member =>
    (tally.commits commit member).append⟩
  exact fun entry member sig mine same _ => acks entry member (same ▸ signs sig mine)

def Sorted (core : StagingCore) : Prop := (core.pendingBlocks.map (·.n)).Pairwise (· < ·)

theorem ChainInv.sorted (chain : ChainInv core) : Sorted core := by
  have ordered := pairwise_map.mp chain.pending.pairwise_seq
  exact pairwise_map.mpr ordered

theorem Sorted.eq_of_n_eq (sorted : Sorted core) {first second} (firstHeld : first ∈ core.pendingBlocks)
    (secondHeld : second ∈ core.pendingBlocks) (same : first.n = second.n) : first = second :=
  inj_on_of_nodup_map (sorted.imp Nat.ne_of_lt) firstHeld secondHeld same

theorem crashCommitThreshold_le (valid : config.consensusConfig.Valid) {thresh}
    (quorum : crashCommitQuorum config staging = some thresh) : crashCommitThreshold config ≤ thresh := by
  unfold crashCommitQuorum at quorum
  split at quorum
  · exact (Option.some.inj quorum).le
  · split at quorum
    · exact (byzantineCommitThreshold_bounds valid quorum).1
    · exact (Option.some.inj quorum).le

theorem TallyInv.maybeCrashCommit (tally : TallyInv crypto.config staging.toStagingCore)
    (valid : crypto.config.consensusConfig.Valid) (sorted : Sorted staging.toStagingCore)
    (result : maybeCrashCommit crypto staging = some after) :
    TallyInv crypto.config after.toStagingCore := by
  obtain ⟨thresh, quorum, rfl⟩ := Option.map_eq_some_iff.mp result
  refine TallyInv.same ?_ (fewer_respected.doCrashCommit _ _) (by rw [doCrashCommit_core]; split <;> rfl)
  refine ⟨tally.pending, fun commit member => ?_⟩
  rcases mem_append.mp member with member | member
  · exact tally.commits commit member
  · split at member
    · next _ =>
      obtain ⟨entry, kept, rfl⟩ := mem_map.mp member
      obtain ⟨held, number⟩ := mem_filter.mp kept
      obtain ⟨-, reached, -⟩ := crashCommitIndex_spec thresh staging.ci staging.pendingBlocks
      rcases reached with same | ⟨_, otherHeld, otherNumber, enough⟩
      · omega
      · have same := sorted.eq_of_n_eq otherHeld held (otherNumber.trans (of_decide_eq_true number).symm)
        refine ⟨(crashCommitThreshold_le valid quorum).trans (same ▸ enough), fun name voted => ?_⟩
        obtain ⟨counted, member, target, -, backs, -⟩ := tally.pending.acked entry held name voted
        exact ⟨counted, member, target.block, backs⟩
    · cases member

/-!
## Certificates
-/

theorem TallyInv.maybeByzantineCommit (crypto) {qc} (tally : TallyInv config staging.toStagingCore)
    (sorted : Sorted staging.toStagingCore) :
    TallyInv config (maybeByzantineCommit crypto staging qc).toStagingCore ∧
      Sorted (maybeByzantineCommit crypto staging qc).toStagingCore := by
  have fewer := fewer_respected.maybeByzantineCommit crypto staging qc
  obtain ⟨older, split⟩ : ∃ older, staging.pendingBlocks =
      older ++ (Staging.maybeByzantineCommit crypto staging qc).pendingBlocks := by
    obtain ⟨_, noted⟩ := noteQc_core staging qc
    have same : (noteQc staging qc).pendingBlocks = staging.pendingBlocks := by rw [noted]
    rw [← same]
    unfold Staging.maybeByzantineCommit doByzantineCommit
    dsimp only
    split
    · exact ⟨[], rfl⟩
    · exact ⟨_, takeWhile_append_dropWhile.symm⟩
  unfold Sorted at sorted
  rw [split, map_append, pairwise_append] at sorted
  refine ⟨tally.fewer fewer fun entry member target held later _ => ?_, sorted.2.1⟩
  rw [split, mem_append] at held
  refine held.resolve_left fun isOlder => ?_
  have := sorted.2.2 _ (mem_map_of_mem isOlder) _ (mem_map_of_mem member)
  omega

theorem TallyInv.processQcs (tally : TallyInv config staging.toStagingCore) (sorted : Sorted staging.toStagingCore)
    (result : processQcs crypto oldViewIsStable staging qcs = some after) :
    TallyInv config after.toStagingCore :=
  (processQcs_rule (motive := fun core => TallyInv config core ∧ Sorted core)
    (fun _ kept => ⟨kept.1.same ⟨List.Subset.refl _, rfl, rfl, rfl, rfl⟩ rfl, kept.2⟩)
    (fun _ _ _ kept => kept.1.maybeByzantineCommit crypto kept.2) ⟨tally, sorted⟩ result).1

theorem TallyInv.markProposed (tally : TallyInv config core) (thresh fastThresh) : TallyInv config
      { core with pendingBlocks := core.pendingBlocks.map (markProposed thresh fastThresh) } := by
  have marked {block : CachedBlock} {name : String}
      (backing : Backing config.consensusConfig.nodeList core block name) :
      Backing config.consensusConfig.nodeList
        { core with pendingBlocks := core.pendingBlocks.map (Staging.markProposed thresh fastThresh) }
        block name := by
    refine backing.mono rfl (List.Subset.refl _) fun target held _ voted => ?_
    refine ⟨_, mem_map_of_mem held, markProposed_block _ _ _, ?_⟩
    rwa [(markProposed_votes _ _ _).1]
  exact ⟨(tally.pending.mono marked marked).markProposed thresh fastThresh, tally.commits⟩

theorem TallyInv.maybeCreateQcs (tally : TallyInv config staging.toStagingCore)
    (sorted : Sorted staging.toStagingCore) (result : maybeCreateQcs crypto staging = some after) :
    TallyInv config after.toStagingCore := by
  refine (maybeCreateQcs_rule (motive := fun core => TallyInv config core ∧ Sorted core)
    (fun _ kept => ⟨kept.1.same ⟨List.Subset.refl _, rfl, rfl, rfl, rfl⟩ rfl, kept.2⟩)
    (fun _ _ _ _ _ _ kept => ⟨⟨kept.1.pending, kept.1.commits⟩, kept.2⟩)
    (fun _ _ _ _ _ _ kept => kept.1.maybeByzantineCommit crypto kept.2)
    (fun thresh => ⟨tally.markProposed thresh _, ?_⟩) result).1
  have sameNumbers (entry : CachedBlockWithVotes) :
      (Staging.markProposed thresh (byzantineFastPathThreshold crypto.config) entry).n = entry.n := by
    unfold CachedBlockWithVotes.n
    rw [markProposed_block]
  unfold Sorted
  rw [map_map]
  exact (map_congr_left fun entry _ => sameNumbers entry) ▸ sorted

theorem Counts.target {vote} (counts : Counts crypto staging sender vote after)
    (chain : ChainInv staging.toStagingCore) :
    ∃ target ∈ staging.pendingBlocks, target.n = vote.n := by
  obtain ⟨_, _, head, tail, above, below⟩ := counts.inRange
  have firstNumber := (chain.pending.seq_mem (mem_map_of_mem (mem_of_head? head))).1
  have lastNumber := (chain.pending.seq_mem (mem_map_of_mem (mem_of_getLast? tail))).2
  obtain ⟨_, member, number⟩ := chain.pending.exists_seq (firstNumber.trans_le above) (below.trans lastNumber)
  obtain ⟨target, held, rfl⟩ := mem_map.mp member
  exact ⟨target, held, number⟩

theorem Counts.tally {vote} (counts : Counts crypto staging sender vote after)
    (valid : crypto.config.consensusConfig.Valid) (chain : ChainInv staging.toStagingCore)
    (tally : TallyInv crypto.config staging.toStagingCore)
    (matching : ∀ block ∈ staging.blocks, block.block.n = vote.n →
      sender ∈ crypto.config.consensusConfig.nodeList ∧ block.blockHash = vote.forkDigest ∧
        ∀ sig ∈ vote.sigArray, sig.n ≤ vote.n) :
    TallyInv crypto.config after.toStagingCore := by
  obtain ⟨target, held, number⟩ := counts.target chain
  obtain ⟨isMember, digest, signs⟩ := matching target.block (mem_map_of_mem held) number
  have counted := tally.countVote chain counts.sameView isMember held number digest signs
  have countedChain := chain.cut (countVote_cut staging sender vote)
  obtain ⟨_, crashes, creates⟩ := counts.result
  exact (counted.maybeCrashCommit valid countedChain.sorted crashes).maybeCreateQcs
    (countedChain.maybeCrashCommit crashes).1.sorted creates

theorem exists_commit_of_maybeCrashCommit (result : maybeCrashCommit crypto staging = some after)
    (advances : staging.ci < after.ci) :
    ∃ commit ∈ after.countedCommits, commit.view = after.view ∧ commit.block ∈ staging.blocks ∧
      commit.block.block.n = after.ci := by
  obtain ⟨thresh, -, rfl⟩ := Option.map_eq_some_iff.mp result
  obtain ⟨newCi, found⟩ : ∃ newCi, newCi = crashCommitIndex thresh staging.ci staging.pendingBlocks := ⟨_, rfl⟩
  obtain ⟨-, reached, -⟩ := crashCommitIndex_spec thresh staging.ci staging.pendingBlocks
  rw [doCrashCommit_core] at advances ⊢
  split at advances
  · exact absurd advances (Nat.lt_irrefl _)
  · next moved =>
    rw [if_neg moved]
    rcases reached with _ | ⟨entry, held, number, -⟩
    · omega
    · refine ⟨{ view := staging.view, block := entry.block, voters := entry.replicationSet }, ?_, rfl,
        mem_map_of_mem held, number⟩
      refine mem_append_right _ ?_
      rw [if_pos (by omega)]
      exact mem_map.mpr ⟨entry, mem_filter.mpr ⟨held, decide_eq_true number⟩, rfl⟩

theorem Counts.exists_commit {vote} (counts : Counts crypto staging sender vote after)
    (chain : ChainInv staging.toStagingCore) (advances : staging.ci < after.ci) :
    ∃ commit ∈ after.countedCommits, commit.view = after.view ∧ commit.block ∈ after.log ∧
      commit.block.block.n = after.ci := by
  have log := (counts.chain chain).2
  obtain ⟨crashed, crashes, creates⟩ := counts.result
  obtain ⟨ci, commits, view⟩ := commits_respected.maybeCreateQcs creates
  rw [ci] at advances ⊢
  rw [commits, view, log]
  obtain ⟨commit, member, atView, held, number⟩ := exists_commit_of_maybeCrashCommit crashes advances
  rw [blocks_countVote] at held
  exact ⟨commit, member, atView, mem_append_right _ held, number⟩

/-!
## Whole runs
-/

/-- A vote of the view for a pending number comes from a member, names the block
with the number and signs nothing above it; and blocks with votes on them are
dropped only by the ways into a view that clear the votes. -/
def VoteOk (crypto : CryptoService) (staging : Staging) (event : Event) : Prop :=
  ChainOk staging event ∧ VotesCleared crypto staging event ∧
    match event with
    | .vote sender vote => vote.view = staging.view →
      ∀ block ∈ staging.blocks, block.block.n = vote.n →
        sender.toNameAndSubId.1 ∈ crypto.config.consensusConfig.nodeList ∧
          block.blockHash = vote.forkDigest ∧ ∀ sig ∈ vote.sigArray, sig.n ≤ vote.n
    | .block block _ aeStats _ => aeStats.view = staging.view →
      ¬ (staging.viewIsStable = true ∧ aeStats.viewIsStable = true) →
        ∀ entry ∈ staging.pendingBlocks, block.block.n ≤ entry.n → Unvoted entry
    | .pacemaker (.newViewForks viewNum _ _) => viewNum = staging.view →
      ∀ entry ∈ staging.pendingBlocks, Unvoted entry
    | _ => True

instance (staging : Staging) : ∀ event, Decidable (VoteOk crypto staging event)
  | .vote .. => inferInstanceAs (Decidable (_ ∧ _ ∧ (_ → _)))
  | .block .. => inferInstanceAs (Decidable (_ ∧ _ ∧ (_ → _ → _)))
  | .pacemaker (.newViewForks ..) => inferInstanceAs (Decidable (_ ∧ _ ∧ (_ → _)))
  | .pacemaker (.updateView ..) | .pacemaker (.myViewJumped ..) | .pacemaker (.updateBCI _)
  | .pacemaker (.queryEnoughVCMsg ..) | .timerTick _ =>
    inferInstanceAs (Decidable (_ ∧ _ ∧ True))

variable (ok : VoteOk crypto staging (.block block storageAck aeStats final))
include ok

theorem Enters.tally (tally : TallyInv config staging.toStagingCore)
    (enters : Enters crypto staging block aeStats entered) :
    TallyInv config (settleForBlock entered block aeStats).toStagingCore := by
  have fewer := fewer_respected.settleForBlock entered block aeStats
  cases enters with
  | sameView same =>
    refine tally.fewer fewer fun entry _ target held _ voted => ?_
    rw [settleForBlock_core]
    split
    · exact held
    · next unstable =>
      refine mem_filter.mpr ⟨held, decide_eq_true ?_⟩
      by_contra dropped
      have above : block.block.n ≤ target.n := by
        unfold wrappingPred at dropped
        split at dropped <;> omega
      have := (ok.2.2 same unstable target held above).1
      exact absurd this voted.ne_empty
  | leaderJumps =>
    refine tally.unvoted (fun entry member => ?_) fewer.countedVotes fewer.countedCommits
    exact unvoted_clearVotes _ entry (fewer.pending member)
  | followerJumps =>
    refine tally.unvoted (fun entry member => ?_) fewer.countedVotes fewer.countedCommits
    exact unvoted_clearVotes _ entry (fewer.pending member)

theorem pushBlock_tally (tally : TallyInv config staging.toStagingCore)
    (enters : Enters crypto staging block aeStats entered) :
    TallyInv config (pushBlock (settleForBlock entered block aeStats) block final).toStagingCore :=
  (enters.tally ok tally).push block final

omit ok

theorem iAmLeader_congr {other} (view : other.view = staging.view) :
    iAmLeader config other = iAmLeader config staging := by
  unfold iAmLeader
  rw [view]

theorem iAmLeader_pushBlock (core : pushed.toStagingCore =
      (pushBlock (settleForBlock entered block aeStats) block final).toStagingCore) :
    iAmLeader config pushed = iAmLeader config entered := by
  refine iAmLeader_congr ?_
  rw [core]
  exact (fewer_respected.settleForBlock entered block aeStats).view

theorem lead_tally (valid : crypto.config.consensusConfig.Valid) (leads : iAmLeader crypto.config pushed = true)
    (chain : ChainInv pushed.toStagingCore) (appended : block ∈ pushed.blocks)
    (tally : TallyInv crypto.config pushed.toStagingCore)
    (counts : Counts crypto pushed crypto.config.netConfig.name
      (voteFor pushed block (voteSignature crypto block)) after) :
    TallyInv crypto.config after.toStagingCore := by
  refine counts.tally valid chain tally fun other member number => ⟨?_, ?_, fun sig signed => ?_⟩
  · have isLeader := crypto.config.getLeaderForView_mem pushed.view valid.1
    rwa [beq_iff_eq.mp leads] at isLeader
  · rw [chain.pending.eq_of_seq_eq member appended number]
    rfl
  · unfold voteSignature at signed
    split at signed
    · rw [mem_singleton.mp signed]
      exact le_rfl
    · cases signed

theorem EndsFollowing.pendingBlocks (ends : EndsFollowing crypto staging final after) :
    after.pendingBlocks = staging.pendingBlocks := by
  obtain ⟨_, _, core⟩ := ends.core
  rw [core]

theorem follow_tally {certified} (chain : ChainInv staging.toStagingCore)
    (tally : TallyInv config staging.toStagingCore)
    (processed : processQcs crypto oldViewIsStable (crashAsFollower staging aeStats final) qcs =
      some certified) (ends : EndsFollowing crypto certified final after) : TallyInv config after.toStagingCore := by
  have crashed : TallyInv config (crashAsFollower staging aeStats final).toStagingCore := by
    refine tally.same (fewer_respected.crashAsFollower _ _ _) ?_
    unfold crashAsFollower
    split
    · rw [doCrashCommit_core]
      split <;> rfl
    · rfl
  have sorted := (chain.cut (crashAsFollower_cut staging aeStats final).1).sorted
  exact (crashed.processQcs sorted processed).same ends.fewer ends.pendingBlocks

theorem Transition.tally (transition : Transition crypto staging event after)
    (valid : crypto.config.consensusConfig.Valid) (ok : VoteOk crypto staging event)
    (chain : ChainInv staging.toStagingCore) (tally : TallyInv crypto.config staging.toStagingCore) :
    TallyInv crypto.config after.toStagingCore := by
  cases transition with
  | idle core => rwa [core]
  | enterView moves _ core =>
    refine tally.unvoted ?_ ?_ ?_
    · rw [core]
      exact ok.2.1 moves
    all_goals rw [core]
  | newView current _ _ _ core =>
    have fewer := truncateForNewView_fewer staging
    rw [core]
    exact tally.unvoted (fun entry member => ok.2.2 current entry ((fewer _).pending member))
      (fewer _).countedVotes (fewer _).countedCommits
  | vote _ _ counts => exact counts.tally valid chain tally (ok.2.2 counts.sameView.symm)
  | reject enters _ => exact enters.tally ok tally
  | append enters _ _ core =>
    rw [core]
    exact pushBlock_tally ok tally enters
  | lead enters leads continuous core counts =>
    have pushed := pushBlock_tally ok tally enters
    have pushedChain := (pushBlock_chain chain ok.1 enters continuous).1
    rw [← core] at pushed pushedChain
    refine lead_tally valid ?_ pushedChain ?_ pushed counts
    · rwa [iAmLeader_pushBlock core]
    · rw [core, blocks_pushBlock]
      exact mem_append_right _ mem_cons_self
  | follow enters _ continuous processed ends =>
    exact follow_tally (pushBlock_chain chain ok.1 enters continuous).1
      (pushBlock_tally ok tally enters) processed ends

theorem tallyInv_of_reaches (withQcs : crypto.config.features.noQc = false)
    (valid : crypto.config.consensusConfig.Valid)
    (reached : Reaches (step crypto) (VoteOk crypto) (new crypto.config) staging) :
    ChainInv staging.toStagingCore ∧ TallyInv crypto.config staging.toStagingCore := by
  refine reached.invariant (motive := fun staging => ChainInv staging.toStagingCore ∧
    TallyInv crypto.config staging.toStagingCore) ⟨chainInv_new crypto.config, ?_⟩
    fun ⟨chain, tally⟩ ok taken =>
      have transition := step_transition withQcs taken
      ⟨transition.chain chain ok.1, transition.tally valid ok chain tally⟩
  unfold new
  split <;> exact ⟨.nil, nofun⟩

theorem iAmLeader_follow {certified}
    (processed : processQcs crypto oldViewIsStable
      (crashAsFollower (pushBlock (settleForBlock entered block aeStats) block final) aeStats final) qcs =
        some certified) (ends : EndsFollowing crypto certified final after) :
    iAmLeader config after = iAmLeader config entered := by
  have view := ((fewer_respected.followQcs processed).trans ends.fewer).view
  exact iAmLeader_congr (view.trans (fewer_respected.settleForBlock entered block aeStats).view)

theorem Transition.exists_commit (transition : Transition crypto staging event after)
    (ok : ChainOk staging event) (chain : ChainInv staging.toStagingCore)
    (leads : iAmLeader crypto.config after = true) (advances : staging.ci < after.ci) :
    ∃ commit ∈ after.countedCommits, commit.view = after.view ∧ commit.block ∈ after.log ∧
      commit.block.block.n = after.ci := by
  cases transition with
  | idle core =>
    rw [core] at advances
    exact absurd advances (Nat.lt_irrefl _)
  | enterView _ _ core =>
    rw [core] at advances
    exact absurd advances (Nat.lt_irrefl _)
  | newView _ _ _ _ core =>
    rw [core] at advances
    unfold truncateForNewView at advances
    dsimp only at advances
    split at advances
    · next shrinks => exact absurd advances (Nat.lt_asymm shrinks)
    · exact absurd advances (Nat.lt_irrefl _)
  | vote _ _ counts => exact counts.exists_commit chain advances
  | reject enters _ =>
    rw [enters.ci] at advances
    exact absurd advances (Nat.lt_irrefl _)
  | append enters _ _ core =>
    have same : after.ci = staging.ci := by
      rw [core]
      exact enters.ci
    exact absurd advances (by rw [same]; exact Nat.lt_irrefl _)
  | lead enters _ continuous core counts =>
    have pushedChain := (pushBlock_chain chain ok enters continuous).1
    rw [← core] at pushedChain
    refine counts.exists_commit pushedChain ?_
    rw [core]
    exact lt_of_eq_of_lt enters.ci advances
  | follow _ follows _ processed ends =>
    rw [iAmLeader_follow processed ends, follows] at leads
    cases leads

/-- In every run in which counted votes are members' votes for the blocks they
hit, every name on a pending block is a member that voted in the view for the
block or a descendant of it among the pending blocks, and whenever the commit
index of a leader moves, a majority of members voted for the block it moved to. -/
theorem votesBacked_of_reaches (withQcs : crypto.config.features.noQc = false)
    (valid : crypto.config.consensusConfig.Valid)
    (reached : Reaches (step crypto) (VoteOk crypto) (new crypto.config) staging) :
    (∀ entry ∈ staging.pendingBlocks, ∀ name,
      name ∈ entry.replicationSet ∨ name ∈ entry.voteSigs.keys →
        ∃ counted ∈ staging.countedVotes, ∃ target,
          Backs crypto.config.consensusConfig.nodeList staging.view entry.block target name counted ∧
            Descends staging.blocks entry.block target) ∧
    ∀ event after, VoteOk crypto staging event → step crypto staging event = some after →
      iAmLeader crypto.config after = true → staging.ci < after.ci →
        ∃ commit ∈ after.countedCommits, commit.view = after.view ∧ commit.block ∈ after.log ∧
          commit.block.block.n = after.ci ∧ CommitBacked crypto.config after.countedVotes commit := by
  obtain ⟨chain, tally⟩ := tallyInv_of_reaches withQcs valid reached
  constructor
  · intro entry member name counted
    have backing : Backing crypto.config.consensusConfig.nodeList staging.toStagingCore
        entry.block name := by
      rcases counted with acked | signed
      · exact tally.pending.acked entry member name acked
      · obtain ⟨sig, found⟩ := Option.isSome_iff_exists.mp
          (AList.lookup_isSome.mpr (AList.mem_keys.mp signed))
        exact tally.pending.signed entry member name sig found
    obtain ⟨counted, voted, target, held, backs, later, -⟩ := backing
    exact ⟨counted, voted, target.block, backs, chain.pending.descends
      (mem_map_of_mem member) (mem_map_of_mem held) later⟩
  · intro event after ok taken leads advances
    have transition := step_transition withQcs taken
    obtain ⟨commit, member, view, logged, number⟩ :=
      transition.exists_commit ok.1 chain leads advances
    exact ⟨commit, member, view, logged, number,
      (transition.tally valid ok chain tally).commits commit member⟩

/-!
## A vote from outside
-/

/-- A client that shares the keystore votes for a hash that is not the block's.
With the leader's own vote that commits the block. -/
theorem outsider_commits_block :
    ∃ staging, Reaches (step (threeNodes "node1")) Any (new (threeNodes "node1").config) staging ∧
      staging.ci = 1 ∧ ∃ entry ∈ staging.pendingBlocks, entry.n = 1 ∧ "client1" ∈ entry.replicationSet ∧
        "client1" ∉ (threeNodes "node1").config.consensusConfig.nodeList ∧
        ∀ counted ∈ staging.countedVotes, counted.sender = "client1" →
          ∀ block ∈ staging.blocks, block.blockHash ≠ counted.vote.forkDigest :=
  exists_reaches_any [deliver (sampleBlock 1 1 1 0 []) 1 0 false, sampleVote "client1" 1 1 7] (by decide +kernel)

theorem votesBacked_after_commit :
    ∃ staging after, Reaches (step (threeNodes "node1")) (VoteOk (threeNodes "node1"))
      (new (threeNodes "node1").config) staging ∧
      step (threeNodes "node1") staging (sampleVote "node2" 1 1 1) = some after ∧ after.ci = 1 ∧
      ∃ commit ∈ after.countedCommits, commit.view = after.view ∧ commit.block ∈ after.log ∧
        commit.block.block.n = after.ci ∧
        CommitBacked (threeNodes "node1").config after.countedVotes commit := by
  have ran : ∃ staging, Reaches (step (threeNodes "node1")) (VoteOk (threeNodes "node1"))
      (new (threeNodes "node1").config) staging ∧
      VoteOk (threeNodes "node1") staging (sampleVote "node2" 1 1 1) ∧
      ∃ after ∈ step (threeNodes "node1") staging (sampleVote "node2" 1 1 1),
        iAmLeader (threeNodes "node1").config after = true ∧ staging.ci < after.ci ∧ after.ci = 1 :=
    exists_reaches [deliver (sampleBlock 1 1 1 0 []) 1 0 false] (by decide +kernel) (by decide +kernel)
  obtain ⟨staging, reached, ok, after, taken, leads, advances, committed⟩ := ran
  exact ⟨staging, after, reached, taken, committed,
    (votesBacked_of_reaches rfl (by decide) reached).2 _ after ok taken leads advances⟩

end PirateShip.Staging
