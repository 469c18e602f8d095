import PirateShip.Crypto.Accepted
import PirateShip.Staging.ChainInvariant

/-! A new leader keeps a part of its log, sends the chosen fork around once more,
and tells the sequencer where to continue. The three fit together unless the
leader has committed nothing and the fork starts above block 1, or the leader has
committed something and the fork is empty. -/

set_option autoImplicit false

namespace PirateShip.Staging

open List HashLinked Option

variable {crypto : CryptoService} {staging final : Staging} {core : StagingCore}
  {forks : HashMap SenderType ProtoViewChange} {vc : ProtoViewChange}
  {fork : List CachedBlock} {viewNum configNum minQcLen : Nat}

/-!
## What is proposed
-/

/-- The numbers in front of the blocks are theirs, and the blocks are a chain on
top of a block of the log, or from the start. -/
def ContinuesLog (crypto : CryptoService) (core : StagingCore) (vc : ProtoViewChange) : Prop :=
  ∀ fork, forkBlocks crypto vc = some fork →
    ((vc.fork.map (·.serializedBlocks)).getD []).map (·.n) = fork.map (·.block.n) ∧
    ∃ n ≤ core.log.length, Follows n (endTip none (core.log.take n)) fork

/-- What a call sends to the broadcaster and to the sequencer, and the number up
to which it keeps pending blocks. -/
structure Proposal where
  fork : List CachedBlock
  retainN : Nat
  validation : List ProtoForkValidation
  parentHash : HashType
  lastN : Nat

def Proposal.rest (proposal : Proposal) : List CachedBlock :=
  proposal.fork.filter fun block => decide (proposal.retainN < block.block.n)

structure Proposes (crypto : CryptoService) (staging : Staging) (vc : ProtoViewChange)
    (proposal : Proposal) (final : Staging) : Prop where
  fork : forkBlocks crypto vc = some proposal.fork
  retainN : ∃ sent stat, sendBlocksToBroadcasterAndGetStats crypto staging vc = some (sent, stat) ∧
    checkByzCommitInvariant staging stat = some proposal.retainN
  blocks : final.blocks = staging.blocks.filter fun block => decide (block.block.n ≤ proposal.retainN)
  bci : final.bci = staging.bci
  parent : final.currParentForPending = staging.currParentForPending
  committed : final.committed = staging.committed
  broadcaster : final.blockBroadcasterCommandTx =
    staging.blockBroadcasterCommandTx ++ [.nextAEForkPrefix proposal.fork]
  sequencer : final.blockSequencerCommandTx = staging.blockSequencerCommandTx ++
    [.newViewMessage staging.view staging.configNum proposal.validation proposal.parentHash proposal.lastN]

/-!
## What a proposal is for
-/

def acceptsAll : Staging → List CachedBlock → Prop
  | _, [] => True
  | staging, block :: rest => checkContinuity staging block = true ∧
    acceptsAll { staging with pendingBlocks := staging.pendingBlocks ++ [{ block }] } rest

/-- The rest of the fork continues what is kept, the staging stage takes all of
it, and the sequencer continues from its end. -/
structure Extends (final : Staging) (proposal : Proposal) : Prop where
  chain : Follows final.bci (final.currParentForPending.map (·.blockHash)) (final.blocks ++ proposal.rest)
  accepted : acceptsAll final proposal.rest
  lastN : proposal.lastN = final.bci + (final.blocks ++ proposal.rest).length
  parentHash : proposal.parentHash =
    (endTip (final.currParentForPending.map (·.blockHash)) (final.blocks ++ proposal.rest)).getD defaultHash

/-- With nothing committed, the fork is empty or starts with block 1. Otherwise
it is not empty, and holds the last committed block if it starts below. -/
def Fits (core : StagingCore) (fork : List CachedBlock) : Prop :=
  match core.currParentForPending, fork with
  | none, [] => True
  | none, first :: _ => first.block.n = 1
  | some _, [] => False
  | some parent, first :: _ => core.bci < first.block.n ∨
    ∃ block ∈ fork, block.block.n = core.bci ∧ block.blockHash = parent.blockHash

/-!
## The staging stage takes what continues its log
-/

theorem checkContinuity_of_next (logChain : LogChain staging.toStagingCore) {block}
    (number : block.block.n = staging.bci + staging.blocks.length + 1)
    (linked : ∀ hash ∈ endTip (staging.currParentForPending.map (·.blockHash)) staging.blocks,
      block.block.parent = hash) :
    checkContinuity staging block = true := by
  cases pending : staging.pendingBlocks using List.reverseRecOn with
  | nil =>
    have noBlocks : staging.blocks = [] := by simp [StagingCore.blocks, pending]
    rw [noBlocks] at number linked
    simp only [checkContinuity, pending]
    cases held : staging.currParentForPending with
    | none =>
      rw [logChain.bci_eq_zero held] at number
      simpa using number
    | some parent =>
      simp only [held] at linked
      simpa [linked, logChain.parent_n held] using number
  | append_singleton initial last =>
    have lastBlock : staging.blocks.getLast? = some last.block := by simp [StagingCore.blocks, pending]
    have lastNumber : last.n = staging.bci + staging.blocks.length := logChain.pending.seq_getLast? lastBlock
    have parent : block.block.parent = last.block.blockHash := by
      apply linked
      simp [endTip, lastBlock]
    cases head : staging.pendingBlocks.head? with
    | none => simp [pending] at head
    | some first =>
      have firstMember : first.block ∈ staging.blocks := mem_map_of_mem (mem_of_head? head)
      have firstNumber : first.n ≤ last.n := lastNumber ▸ (logChain.pending.seq_mem firstMember).2
      simp only [checkContinuity, head]
      simp [pending, parent]
      omega

theorem LogChain.push {entry} (logChain : LogChain core)
    (chain : Follows core.bci (core.currParentForPending.map (·.blockHash)) (core.blocks ++ [entry.block])) :
    LogChain { core with pendingBlocks := core.pendingBlocks ++ [entry] } where
  chain := by
    have pushed := follows_append.mpr ⟨(follows_append.mp logChain.chain).1, by
      rwa [Nat.zero_add, logChain.length, logChain.tip]⟩
    simpa [StagingCore.log, StagingCore.blocks, StagingCore.committed] using pushed
  length := logChain.length
  parent := logChain.parent

theorem acceptsAll_of_follows {rest} (logChain : LogChain staging.toStagingCore)
    (chain : Follows staging.bci (staging.currParentForPending.map (·.blockHash)) (staging.blocks ++ rest)) :
    acceptsAll staging rest := by
  induction rest generalizing staging with
  | nil => trivial
  | cons block rest ih =>
    have chain : Follows staging.bci (staging.currParentForPending.map (·.blockHash))
        ((staging.blocks ++ [block]) ++ rest) := by simpa using chain
    have first := (follows_append.mp chain).1
    obtain ⟨-, number, linked⟩ := follows_concat.mp first
    constructor
    · exact checkContinuity_of_next logChain number linked
    · apply ih
      · exact logChain.push first
      · simpa [StagingCore.blocks] using chain

/-!
## What a call does
-/

structure StatOf (fork : List CachedBlock) (stat : ForkStat) : Prop where
  blockHashes : stat.blockHashes = fork.map (·.blockHash)
  forkLastN : stat.forkLastN = (fork.getLast?.map (·.block.n)).getD 0
  firstN : stat.firstN = (fork.head?.map (·.block.n)).getD 0
  firstParent : stat.firstParent = (fork.head?.map (·.block.parent)).getD defaultHash

theorem prepareForRebroadcast_nil (prepared : prepareForRebroadcast crypto [] minQcLen = some fork) : fork = [] := by
  simpa [prepareForRebroadcast] using prepared.symm

theorem prepareForRebroadcast_cons {first rest}
    (prepared : prepareForRebroadcast crypto (first :: rest) minQcLen = some fork) :
    ∃ cached others, fork = cached :: others ∧
      getParentHashInProtoBlockSer first.serializedBody = some cached.block.parent := by
  unfold prepareForRebroadcast at prepared
  rw [mapM_cons] at prepared
  simp only [bind_eq_bind, bind_eq_some_iff] at prepared
  obtain ⟨cached, accepted, others, -, same⟩ := prepared
  cases same
  split at accepted
  · next verified =>
    cases accepted
    exact ⟨_, _, rfl, (CryptoService.accepts_of_verifyBlockSer verified).parent⟩
  · cases accepted

theorem sendBlocks_spec {after stat}
    (sent : sendBlocksToBroadcasterAndGetStats crypto staging vc = some (after, stat))
    (continues : ContinuesLog crypto core vc) :
    ∃ fork, forkBlocks crypto vc = some fork ∧ StatOf fork stat ∧ after.toStagingCore = staging.toStagingCore ∧
      after.blockBroadcasterCommandTx = staging.blockBroadcasterCommandTx ++ [.nextAEForkPrefix fork] ∧
      after.blockSequencerCommandTx = staging.blockSequencerCommandTx := by
  unfold sendBlocksToBroadcasterAndGetStats at sent
  split at sent
  · next protoFork _ present threshold =>
    split at sent
    · cases sent
    · next fork prepared =>
      have decoded : forkBlocks crypto vc = some fork := by
        simp [forkBlocks, present, threshold, prepared]
      have numbers := (continues fork decoded).1
      simp only [present, map_some, getD_some] at numbers
      have lasts : protoFork.serializedBlocks.getLast?.map (·.n) = fork.getLast?.map (·.block.n) := by
        rw [← getLast?_map, numbers, getLast?_map]
      have heads : protoFork.serializedBlocks.head?.map (·.n) = fork.head?.map (·.block.n) := by
        rw [← head?_map, numbers, head?_map]
      cases blocks : protoFork.serializedBlocks with
      | nil =>
        rw [blocks] at sent prepared
        cases prepareForRebroadcast_nil prepared
        cases sent
        exact ⟨[], decoded, ⟨rfl, rfl, rfl, rfl⟩, rfl, rfl, rfl⟩
      | cons first rest =>
        rw [blocks] at prepared
        obtain ⟨_, _, rfl, parent⟩ := prepareForRebroadcast_cons prepared
        simp only [lasts, heads] at sent
        simp only [blocks, head?_cons, parent] at sent
        cases sent
        exact ⟨_, decoded, ⟨rfl, rfl, rfl, rfl⟩, rfl, rfl, rfl⟩
  · cases sent

@[simp] theorem bci_truncateForNewView (retainN) : (truncateForNewView staging retainN).bci = staging.bci := by
  simp only [truncateForNewView]
  split <;> rfl

@[simp] theorem currParent_truncateForNewView (retainN) :
    (truncateForNewView staging retainN).currParentForPending = staging.currParentForPending := by
  simp only [truncateForNewView]
  split <;> rfl

theorem sent_truncateForNewView (staging retainN) :
    (truncateForNewView staging retainN).blockBroadcasterCommandTx = staging.blockBroadcasterCommandTx ∧
    (truncateForNewView staging retainN).blockSequencerCommandTx = staging.blockSequencerCommandTx ∧
    (truncateForNewView staging retainN).view = staging.view ∧
    (truncateForNewView staging retainN).configNum = staging.configNum := by
  simp only [truncateForNewView]
  split <;> simp

theorem exists_proposes (continues : ∀ sender vc, forks.lookup sender = some vc →
      ContinuesLog crypto staging.toStagingCore vc)
    (inView : viewNum = staging.view) (inConfig : configNum = staging.configNum)
    (unstable : staging.viewIsStable = false) (leads : iAmLeader crypto.config staging = true)
    (ran : proposeNewView crypto staging viewNum configNum forks = some final) :
    ∃ vc proposal stat, chosenVc crypto forks = some vc ∧ ContinuesLog crypto staging.toStagingCore vc ∧
      Proposes crypto staging vc proposal final ∧ StatOf proposal.fork stat ∧
      checkByzCommitInvariant staging stat = some proposal.retainN ∧
      proposal.lastN = stat.forkLastN ∧ proposal.parentHash = newParentHash final stat := by
  cases proposeNewView_decides ran with
  | turnedAway refused => simp [inView, inConfig, unstable, leads] at refused
  | proposes vc sent stat validation retainN _ _ _ _ found picked sends check =>
    obtain ⟨fork, decoded, statOf, core, broadcaster, sequencer⟩ := sendBlocks_spec sends (continues _ vc found)
    let truncated := truncateForNewView sent retainN
    have tx := sent_truncateForNewView sent retainN
    refine ⟨vc, ⟨fork, retainN, validation, newParentHash truncated stat, stat.forkLastN⟩, stat, picked,
      continues _ vc found, ⟨decoded, ⟨sent, stat, sends, check⟩, ?_, ?_, ?_, ?_, ?_, ?_⟩, statOf, check, rfl,
      rfl⟩
    · exact (blocks_truncateForNewView retainN).trans (by rw [core])
    · exact (bci_truncateForNewView retainN).trans (by rw [core])
    · exact (currParent_truncateForNewView retainN).trans (by rw [core])
    · exact (committed_truncateForNewView retainN).trans (by rw [core])
    · exact tx.1.trans broadcaster
    · rw [tx.2.1, sequencer, tx.2.2.1, tx.2.2.2, core]

inductive Retains (core : StagingCore) (fork : List CachedBlock) : Nat → Prop where
  | nothing : core.currParentForPending = none → Retains core fork 0
  | everything {parent : CachedBlock} {retainN : Nat} : core.currParentForPending = some parent → fork = [] →
      (∀ block ∈ core.blocks, block.block.n ≤ retainN) → Retains core fork retainN
  | committed {parent first : CachedBlock} {rest : List CachedBlock} :
      core.currParentForPending = some parent → fork = first :: rest → first.block.n ≤ core.bci →
      Retains core fork core.bci
  | next {parent first : CachedBlock} {rest : List CachedBlock} :
      core.currParentForPending = some parent → fork = first :: rest → first.block.n = core.bci + 1 →
      first.block.parent = parent.blockHash → Retains core fork core.bci
  | pending {parent first held : CachedBlock} {rest : List CachedBlock} :
      core.currParentForPending = some parent → fork = first :: rest → core.bci + 1 < first.block.n →
      held ∈ core.blocks → held.block.n = first.block.n - 1 → first.block.parent = held.blockHash →
      Retains core fork (first.block.n - 1)

theorem retains_of_check {stat retainN} (logChain : LogChain staging.toStagingCore) (statOf : StatOf fork stat)
    (numbered : ∀ block ∈ fork, 0 < block.block.n) (check : checkByzCommitInvariant staging stat = some retainN) :
    Retains staging.toStagingCore fork retainN := by
  unfold checkByzCommitInvariant at check
  cases held : staging.currParentForPending with
  | none =>
    rw [if_pos (logChain.bci_eq_zero held)] at check
    cases check
    exact .nothing held
  | some parent =>
    rw [if_neg (logChain.bci_pos held).ne'] at check
    simp only [held] at check
    cases fork with
    | nil =>
      rw [if_pos (by simp [statOf.forkLastN])] at check
      cases check
      refine .everything held rfl fun block member => ?_
      obtain ⟨_, atEnd⟩ := isSome_iff_exists.mp (getLast?_isSome.mpr (ne_nil_of_mem member))
      have atEndNumber := logChain.pending.seq_getLast? atEnd
      rw [StagingCore.blocks, getLast?_map, map_eq_some_iff] at atEnd
      obtain ⟨entry, isLast, rfl⟩ := atEnd
      rw [isLast]
      exact ((logChain.pending.seq_mem member).2).trans atEndNumber.ge
    | cons first rest =>
      have firstN : stat.firstN = first.block.n := statOf.firstN
      have firstParent : stat.firstParent = first.block.parent := statOf.firstParent
      have lastN : stat.forkLastN ≠ 0 := by
        rw [statOf.forkLastN]
        exact (numbered _ (getLast_mem _)).ne'
      rw [if_neg lastN] at check
      split at check
      · split at check
        · next below _ =>
          cases check
          exact .committed held rfl (firstN ▸ below)
        · cases check
      · next above =>
        split at check
        · next isNext =>
          split at check
          · next same =>
            cases check
            exact .next held rfl (firstN ▸ isNext) (firstParent ▸ same.symm)
          · cases check
        · next notNext =>
          split at check
          · next found =>
            cases check
            obtain ⟨entry, member, same⟩ := any_eq_true.mp found
            rw [Bool.and_eq_true, beq_iff_eq, beq_iff_eq] at same
            rw [firstN] at same above notNext ⊢
            refine .pending held rfl (by omega) (mem_map_of_mem member) same.1 ?_
            rw [← firstParent, same.2]
          · cases check

/-!
## When the proposal extends what is kept
-/

section Extension

variable {proposal : Proposal} {stat : ForkStat}
variable {others : List CachedBlock}

theorem Proposes.logChain (proposes : Proposes crypto staging vc proposal final)
    (logChain : LogChain staging.toStagingCore) : LogChain final.toStagingCore where
  chain := by
    have kept : final.blocks = staging.blocks.take (proposal.retainN - staging.bci) :=
      proposes.blocks.trans (logChain.pending.filter_seq_le _)
    apply logChain.chain.of_prefix
    rw [StagingCore.log, proposes.committed, kept]
    exact (prefix_append_right_inj _).mpr (List.take_prefix _ _)
  length := by rw [proposes.committed, proposes.bci, logChain.length]
  parent := by rw [proposes.committed, proposes.parent, logChain.parent]

theorem newParentHash_eq (statOf : StatOf fork stat) : newParentHash final stat =
    (endTip (final.currParentForPending.map (·.blockHash)) (final.blocks ++ fork)).getD defaultHash := by
  unfold newParentHash
  rw [statOf.blockHashes, getLast?_map, endTip_append]
  cases atEnd : fork.getLast? with
  | some last => simp [endTip, atEnd]
  | none =>
    have : final.blocks.getLast? = final.pendingBlocks.getLast?.map (·.block) := getLast?_map
    simp only [endTip, atEnd, this]
    cases final.pendingBlocks.getLast? with
    | some last => rfl
    | none => cases final.currParentForPending <;> rfl

theorem forkLastN_eq {n tip} (statOf : StatOf fork stat) (chain : Follows n tip fork)
    (nonempty : fork ≠ []) : stat.forkLastN = n + fork.length := by
  rw [statOf.forkLastN, getLast?_eq_some_getLast nonempty]
  exact chain.seq_getLast? (getLast?_eq_some_getLast nonempty)

theorem rest_eq_fork {n tip} (chain : Follows n tip proposal.fork) (above : proposal.retainN ≤ n) :
    proposal.rest = proposal.fork := by
  unfold Proposal.rest
  rw [filter_eq_self]
  intro block member
  have := (chain.seq_mem member).1
  simpa using above.trans_lt this

theorem extends_of_onto {first n tip} (logChain : LogChain final.toStagingCore)
    (statOf : StatOf proposal.fork stat) (lastN : proposal.lastN = stat.forkLastN)
    (parentHash : proposal.parentHash = newParentHash final stat) (isFork : proposal.fork = first :: others)
    (chain : Follows n tip proposal.fork) (kept : final.bci + final.blocks.length = n)
    (above : proposal.retainN ≤ n)
    (linked : ∀ hash ∈ endTip (final.currParentForPending.map (·.blockHash)) final.blocks,
      first.block.parent = hash) :
    Extends final proposal := by
  have whole := rest_eq_fork chain above
  have extended : Follows final.bci (final.currParentForPending.map (·.blockHash))
      (final.blocks ++ proposal.rest) := by
    rw [whole, isFork]
    rw [isFork] at chain
    exact follows_append.mpr ⟨logChain.pending, kept ▸ chain.onto linked⟩
  constructor
  · exact extended
  · exact acceptsAll_of_follows logChain extended
  · rw [lastN, forkLastN_eq statOf chain (by simp [isFork]), ← kept, whole, length_append, Nat.add_assoc]
  · rw [parentHash, newParentHash_eq statOf, whole]

theorem extends_iff_holds {parent first n tip} (logChain : LogChain final.toStagingCore)
    (statOf : StatOf proposal.fork stat) (lastN : proposal.lastN = stat.forkLastN)
    (parentHash : proposal.parentHash = newParentHash final stat) (held : final.currParentForPending = some parent)
    (isFork : proposal.fork = first :: others) (chain : Follows n tip proposal.fork)
    (below : first.block.n ≤ final.bci) (retainN : proposal.retainN = final.bci) (noBlocks : final.blocks = []) :
    Extends final proposal ↔
      ∃ block ∈ proposal.fork, block.block.n = final.bci ∧ block.blockHash = parent.blockHash := by
  have nonempty : proposal.fork ≠ [] := by simp [isFork]
  have start : n < final.bci := by
    have : first.block.n = n + 1 := by
      rw [isFork] at chain
      exact chain.1
    omega
  have rest : proposal.rest = proposal.fork.drop (final.bci - n) := by
    rw [← chain.filter_lt_seq, ← retainN]
    rfl
  have number := forkLastN_eq statOf chain nonempty
  have parentHash := parentHash.trans (newParentHash_eq statOf)
  have split := take_append_drop (final.bci - n) proposal.fork
  have upper := chain.drop (final.bci - n)
  have lower := chain.take (final.bci - n)
  have short := length_take_le (final.bci - n) proposal.fork
  rw [← rest] at split upper
  rw [noBlocks, nil_append, ← split, endTip_append] at parentHash
  generalize proposal.fork.take (final.bci - n) = below at split upper lower parentHash short
  constructor
  · intro extended
    have length : below.length = final.bci - n := by
      have := extended.lastN
      rw [noBlocks, nil_append, lastN, number, ← split, length_append] at this
      omega
    obtain ⟨last, atEnd⟩ : ∃ last, below.getLast? = some last := by
      apply isSome_iff_exists.mp
      rw [getLast?_isSome]
      rintro rfl
      simp only [length_nil] at length
      omega
    refine ⟨last, ?_, ?_, ?_⟩
    · rw [← split]
      exact mem_append_left _ (mem_of_getLast? atEnd)
    · have := lower.seq_getLast? atEnd
      simp only [CachedBlock.seq_eq] at this
      omega
    · cases above : proposal.rest with
      | nil =>
        have := extended.parentHash
        rw [parentHash, above, noBlocks, held] at this
        simpa [endTip, atEnd] using this
      | cons next others =>
        have chain := extended.chain
        rw [noBlocks, held, above] at chain
        rw [above] at upper
        have linked := upper.2.1 last.blockHash (by simp [endTip, atEnd])
        rw [← linked]
        exact chain.2.1 _ rfl
  · rintro ⟨block, member, _, same⟩
    have inBelow : block ∈ below := by
      rw [← split, mem_append] at member
      rcases member with member | member
      · exact member
      · have := of_decide_eq_true (mem_filter.mp member).2
        omega
    have inside := (lower.seq_mem inBelow).2
    simp only [CachedBlock.seq_eq] at inside
    obtain ⟨last, atEnd⟩ := isSome_iff_exists.mp (getLast?_isSome.mpr (ne_nil_of_mem inBelow))
    have lastNumber := lower.seq_getLast? atEnd
    obtain rfl : last = block := by
      apply lower.eq_of_seq_eq (mem_of_getLast? atEnd) inBelow
      simp only [CachedBlock.seq_eq] at lastNumber ⊢
      omega
    have ends (start : Option HashType) : endTip start below = some parent.blockHash := by
      simp [endTip, atEnd, same]
    have extended : Follows final.bci (final.currParentForPending.map (·.blockHash))
        (final.blocks ++ proposal.rest) := by
      rw [noBlocks, held, map_some, ← ends tip, show final.bci = n + below.length by omega]
      exact upper
    constructor
    · exact extended
    · exact acceptsAll_of_follows logChain extended
    · rw [lastN, number, noBlocks, ← split, length_append, nil_append]
      omega
    · rw [parentHash, ends, noBlocks, held]
      rfl

/-- In every call on a log that is a chain, with forks that continue it, the
kept blocks and the fork fit together if and only if the fork suits what is
committed. -/
theorem extends_iff_fits (logChain : LogChain staging.toStagingCore)
    (continues : ∀ sender vc, forks.lookup sender = some vc → ContinuesLog crypto staging.toStagingCore vc)
    (inView : viewNum = staging.view) (inConfig : configNum = staging.configNum)
    (unstable : staging.viewIsStable = false) (leads : iAmLeader crypto.config staging = true)
    (ran : proposeNewView crypto staging viewNum configNum forks = some final) :
    ∃ vc proposal, chosenVc crypto forks = some vc ∧ Proposes crypto staging vc proposal final ∧
      (Extends final proposal ↔ Fits staging.toStagingCore proposal.fork) := by
  obtain ⟨vc, proposal, _, chosen, onLog, proposes, statOf, check, lastN, parentHash⟩ :=
    exists_proposes continues inView inConfig unstable leads ran
  refine ⟨vc, proposal, chosen, proposes, ?_⟩
  obtain ⟨-, n, -, chain⟩ := onLog _ proposes.fork
  have finalChain := proposes.logChain logChain
  have kept := proposes.blocks
  have retains := retains_of_check logChain statOf
    (fun block member => (Nat.zero_le n).trans_lt (chain.seq_mem member).1) check
  have noBlocks (low : proposal.retainN ≤ staging.bci) : final.blocks = [] := by
    rw [kept, filter_eq_nil_iff]
    intro block member
    have := (logChain.pending.seq_mem member).1
    simp only [CachedBlock.seq_eq] at this
    simp only [decide_eq_true_eq]
    omega
  have same := proposes.parent
  have bci := proposes.bci
  have number {first : CachedBlock} {others : List CachedBlock} (isFork : proposal.fork = first :: others) :
      first.block.n = n + 1 := by
    rw [isFork] at chain
    exact chain.1
  generalize retain : proposal.retainN = retainN at retains
  cases retains with
  | nothing held =>
    have empty := noBlocks (by omega)
    have zero := logChain.bci_eq_zero held
    cases isFork : proposal.fork with
    | nil =>
      have noRest : proposal.rest = [] := by simp [Proposal.rest, isFork]
      simp only [Fits, held, iff_true]
      constructor
      · rw [empty, noRest]
        trivial
      · rw [noRest]
        trivial
      · rw [lastN, statOf.forkLastN, isFork, empty, noRest, bci, zero]
        rfl
      · rw [parentHash, newParentHash_eq statOf, isFork, noRest]
    | cons first others =>
      simp only [Fits, held]
      constructor
      · intro extended
        have whole := rest_eq_fork chain (by omega)
        have chain := extended.chain
        rw [empty, whole, isFork, bci, zero] at chain
        exact chain.1
      · intro isFirst
        have first := number isFork
        apply extends_of_onto finalChain statOf lastN parentHash isFork chain
        · rw [empty]
          simp
          omega
        · omega
        · rw [empty, same, held]
          nofun
  | everything held isFork all =>
    simp only [Fits, held, isFork, iff_false]
    intro extended
    have positive := logChain.bci_pos held
    have := extended.lastN
    rw [lastN, statOf.forkLastN, isFork] at this
    simp at this
    omega
  | committed held isFork below =>
    have empty := noBlocks retain.le
    rw [extends_iff_holds finalChain statOf lastN parentHash (same.trans held) isFork chain (bci ▸ below)
      (retain.trans bci.symm) empty, bci]
    simp only [Fits, held, isFork]
    constructor
    · exact .inr
    · rintro (above | holds)
      · omega
      · exact holds
  | next held isFork _ linked =>
    have empty := noBlocks retain.le
    have first := number isFork
    have fits : Fits staging.toStagingCore proposal.fork := by
      simp only [Fits, held, isFork]
      exact .inl (by omega)
    refine iff_of_true (extends_of_onto finalChain statOf lastN parentHash isFork chain ?_ ?_ ?_) fits
    · rw [empty]
      simp
      omega
    · omega
    · rw [empty, same, held]
      simpa using linked
  | pending held isFork above heldMember heldNumber linked =>
    have first := number isFork
    obtain ⟨_, keeps, heldAt⟩ := logChain.pending.filter_seq_le_mem heldMember
    simp only [CachedBlock.seq_eq, heldNumber] at keeps heldAt
    rw [retain, keeps] at kept
    have fits : Fits staging.toStagingCore proposal.fork := by
      simp only [Fits, held, isFork]
      exact .inl (by omega)
    refine iff_of_true (extends_of_onto finalChain statOf lastN parentHash isFork chain ?_ ?_ ?_) fits
    · rw [kept, length_append, length_singleton]
      omega
    · omega
    · rw [kept]
      simpa using linked

end Extension

/-!
## Forks that do not fit
-/

def forkMessage (blocks : List CachedBlock) : ProtoViewChange where
  view := 2
  configNum := 1
  fork := some ⟨blocks.map (·.toHalfSerialized)⟩
  forkLastQc := none
  forkLastN := 0
  forkSig := []

def forkOf (blocks : List CachedBlock) : HashMap SenderType ProtoViewChange :=
  (∅ : HashMap SenderType ProtoViewChange).insert (.auth "node3" 0) (forkMessage blocks)

theorem lookup_forkOf {blocks sender} (found : (forkOf blocks).lookup sender = some vc) :
    vc = forkMessage blocks := by
  unfold forkOf at found
  by_cases same : sender = .auth "node3" 0
  · rw [same] at found
    exact (some.inj found).symm
  · rw [AList.lookup_insert_ne same] at found
    cases found

def chainBlock : Nat → CachedBlock
  | 0 => tinyBlock 1 1 false defaultHash
  | i + 1 => tinyBlock (UInt8.ofNat (i + 2)) 1 false (chainBlock i).blockHash

def newLeader : CryptoService := tinyNode (threeNodes "node2").config

def behindLeader : Staging := { view := 2, pendingBlocks := [{ block := chainBlock 0 }] }

def currentLeader : Staging :=
  { view := 2, ci := 1, bci := 1, currParentForPending := some (chainBlock 0)
    pendingBlocks := [{ block := chainBlock 1 }]
    appTx := [.crashCommit [chainBlock 0], .byzCommit [chainBlock 0]] }

theorem continuesLog_forkOf {blocks} (decoded : forkBlocks newLeader (forkMessage blocks) = some blocks) {n}
    (inside : n ≤ core.log.length) (chain : Follows n (endTip none (core.log.take n)) blocks) :
    ∀ sender vc, (forkOf blocks).lookup sender = some vc → ContinuesLog newLeader core vc := by
  intro sender vc found fork decodes
  cases lookup_forkOf found
  cases decoded.symm.trans decodes
  refine ⟨?_, n, inside, chain⟩
  simp [forkMessage, CachedBlock.toHalfSerialized]

/-- The leader drops block 1, and the chosen fork starts with block 2. -/
theorem uncommitted_leader_drops_parent :
    LogChain behindLeader.toStagingCore ∧
    (∀ sender vc, (forkOf [chainBlock 1]).lookup sender = some vc →
      ContinuesLog newLeader behindLeader.toStagingCore vc) ∧
    behindLeader.viewIsStable = false ∧ iAmLeader newLeader.config behindLeader = true ∧
    ∃ final, proposeNewView newLeader behindLeader 2 1 (forkOf [chainBlock 1]) = some final ∧
      ¬ ∃ vc proposal, chosenVc newLeader (forkOf [chainBlock 1]) = some vc ∧
        Proposes newLeader behindLeader vc proposal final ∧ Extends final proposal := by
  refine ⟨⟨by decide +kernel, rfl, rfl⟩, ?_, rfl, by decide +kernel, ?_⟩
  · exact continuesLog_forkOf (by decide +kernel) (by decide +kernel : 1 ≤ behindLeader.log.length)
      (by decide +kernel)
  · obtain ⟨final, ran⟩ : ∃ final,
        proposeNewView newLeader behindLeader 2 1 (forkOf [chainBlock 1]) = some final :=
      isSome_iff_exists.mp (by decide +kernel)
    refine ⟨final, ran, ?_⟩
    rintro ⟨vc, proposal, chosen, proposes, extended⟩
    have isVc : chosenVc newLeader (forkOf [chainBlock 1]) = some (forkMessage [chainBlock 1]) := by
      decide +kernel
    cases isVc.symm.trans chosen
    have isFork : forkBlocks newLeader (forkMessage [chainBlock 1]) = some [chainBlock 1] := by
      decide +kernel
    have fork : [chainBlock 1] = proposal.fork := some.inj (isFork.symm.trans proposes.fork)
    obtain ⟨-, _, -, check⟩ := proposes.retainN
    have retainN : 0 = proposal.retainN := some.inj check
    have chain := extended.chain
    rw [proposes.blocks, Proposal.rest, proposes.bci, proposes.parent, ← fork, ← retainN] at chain
    revert chain
    decide +kernel

theorem extends_of_current_leader :
    ∃ final vc proposal, proposeNewView newLeader currentLeader 2 1 (forkOf [chainBlock 2]) = some final ∧
      chosenVc newLeader (forkOf [chainBlock 2]) = some vc ∧
      Proposes newLeader currentLeader vc proposal final ∧ Extends final proposal := by
  obtain ⟨final, ran⟩ : ∃ final,
      proposeNewView newLeader currentLeader 2 1 (forkOf [chainBlock 2]) = some final :=
    isSome_iff_exists.mp (by decide +kernel)
  obtain ⟨vc, proposal, chosen, proposes, extends_iff⟩ := extends_iff_fits
    ⟨by decide +kernel, by decide +kernel, by decide +kernel⟩
    (continuesLog_forkOf (by decide +kernel) (by decide +kernel : 2 ≤ currentLeader.log.length)
      (by decide +kernel)) rfl rfl rfl (by decide +kernel) ran
  have isVc : chosenVc newLeader (forkOf [chainBlock 2]) = some (forkMessage [chainBlock 2]) := by
    decide +kernel
  cases isVc.symm.trans chosen
  have isFork : forkBlocks newLeader (forkMessage [chainBlock 2]) = some [chainBlock 2] := by
    decide +kernel
  have fork : [chainBlock 2] = proposal.fork := some.inj (isFork.symm.trans proposes.fork)
  refine ⟨final, _, proposal, ran, chosen, proposes, extends_iff.mpr ?_⟩
  rw [← fork]
  exact .inl (by decide +kernel)

end PirateShip.Staging
