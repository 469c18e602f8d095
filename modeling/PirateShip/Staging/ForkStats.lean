import Mathlib.Data.List.Chain
import PirateShip.Crypto.RoundTrip
import PirateShip.Staging.NewView

/-! The two ways to the statistics of a fork. `vc_to_stats` reads the hash of a block off
the parent field of the next one, the leader that installs the fork hashes every block.
They agree on the forks that are linked, as those that the stage sends itself are. -/

set_option autoImplicit false

namespace PirateShip

open List HashLinked StepSystem Option

/-!
## Cached blocks
-/

structure CachedBlock.Faithful (primitives : Primitives) (cached : CachedBlock) : Prop where
  hashed : hashProtoBlockSer primitives cached.blockSer = some cached.blockHash
  parent : getParentHashInProtoBlockSer cached.blockSer = some cached.block.parent

namespace CryptoService

/-- The three handlers that make cached blocks. -/
inductive Made (crypto : CryptoService) : CachedBlock → Prop where
  | prepared {protoBlock : ProtoBlock} {mustSign : Bool} {parent : HashType} {cached : CachedBlock} :
      crypto.prepareBlock protoBlock mustSign parent = some cached → Made crypto cached
  | checked {hash : HashType} {ser : Bytes} {cached : CachedBlock} :
      crypto.checkBlockSer hash ser = some (.ok cached) → Made crypto cached
  | verified {minQcLen : Nat} {ser : Bytes} {cached : CachedBlock} {hash : Except String HashType} :
      crypto.verifyBlockSer minQcLen ser = some (.ok cached, hash) → Made crypto cached

variable {crypto : CryptoService} {cached : CachedBlock}

theorem faithful_of_prepareBlock {protoBlock mustSign parent}
    (prepared : crypto.prepareBlock protoBlock mustSign parent = some cached) :
    cached.Faithful crypto.primitives := by
  have nulls : (List.replicate signatureLength (0 : UInt8)).length = signatureLength := length_replicate
  have noParent : (List.replicate digestLength (0 : UInt8)).length = digestLength := length_replicate
  unfold prepareBlock at prepared
  rw [show ({ protoBlock with sig := none, parent := [] } : ProtoBlock) = protoBlock.bare from rfl,
    serializeProtoBlockNascent_bare] at prepared
  dsimp only at prepared
  -- Writing the parent fails unless it has the length of a digest.
  by_cases fits : parent.length = digestLength
  · rw [updateParentHash_layout nulls noParent _ fits] at prepared
    dsimp only at prepared
    rw [drop_layout nulls, take_left' fits] at prepared
    split at prepared
    · split at prepared
      · cases prepared
      · next _ written =>
        have long := (ite_none_right_eq_some.mp written).1.2
        rw [updateSignature_layout nulls _ long] at written
        cases written
        cases prepared
        rw [take_layout long]
        exact ⟨hashProtoBlockSer_layout long fits _ _, getParentHash_layout long fits _⟩
    · cases prepared
      exact ⟨hashProtoBlockSer_layout nulls fits _ _, getParentHash_layout nulls fits _⟩
  · rw [updateParentHashInProtoBlockSer, overwrite, if_neg fun written => fits written.2] at prepared
    cases prepared

theorem Made.faithful (made : crypto.Made cached) : cached.Faithful crypto.primitives := by
  cases made with
  | prepared prepared => exact faithful_of_prepareBlock prepared
  | checked checked =>
    have hashed := hash_of_checkBlockSer checked
    unfold checkBlockSer at checked
    rw [hashed] at checked
    dsimp only at checked
    rw [if_neg (not_not.mpr rfl)] at checked
    split at checked
    · cases checked
    · cases checked
    · next decoded =>
      cases checked
      exact ⟨hashed, getParentHash_of_deserialize decoded⟩
  | verified verified =>
    have accepts := accepts_of_verifyBlockSer verified
    exact ⟨accepts.ser ▸ accepts.hashed, accepts.ser ▸ accepts.parent⟩

end CryptoService

namespace Staging

variable {crypto : CryptoService} {primitives : Primitives} {staging : Staging} {core : StagingCore}
  {vc : ProtoViewChange} {fork : ProtoFork} {hashOf : HalfSerializedBlock → HashType}
variable {minQcLen : Nat}

/-!
## Statistics of a linked fork
-/

def LinkedFork (primitives : Primitives) (blocks : List HalfSerializedBlock) : Prop :=
  blocks.IsChain fun block next =>
    getParentHashInProtoBlockSer next.serializedBody = hashProtoBlockSer primitives block.serializedBody

def statWith (vc : ProtoViewChange) (blocks : List HalfSerializedBlock) (hashes : List HashType) : ForkStat where
  blockHashes := hashes
  forkLastN := (blocks.getLast?.map (·.n)).getD 0
  firstN := (blocks.head?.map (·.n)).getD 0
  firstParent := match blocks.head? with
    | none => defaultHash
    | some first => (getParentHashInProtoBlockSer first.serializedBody).getD defaultHash
  lastQc := vc.forkLastQc
  lastView := (blocks.getLast?.map (·.view)).getD 0
  lastConfigNum := (blocks.getLast?.map (·.configNum)).getD 0

theorem parents_of_linked {first rest last} (linked : LinkedFork primitives (first :: rest))
    (isLast : (first :: rest).getLast? = some last)
    (hashed : ∀ block ∈ first :: rest, hashProtoBlockSer primitives block.serializedBody = some (hashOf block)) :
    (rest.mapM fun block => getParentHashInProtoBlockSer block.serializedBody).map (· ++ [hashOf last]) =
      some ((first :: rest).map hashOf) := by
  induction rest generalizing first with
  | nil =>
    cases isLast
    rfl
  | cons second rest ih =>
    obtain ⟨names, linked⟩ := isChain_cons_cons.mp linked
    have others := ih linked isLast fun block member => hashed block (mem_cons_of_mem _ member)
    obtain ⟨_, read, appended⟩ := map_eq_some_iff.mp others
    rw [hashed first mem_cons_self] at names
    rw [mapM_cons, names, read, map_cons, ← appended]
    rfl

theorem vcToStat_of_linked (isFork : vc.fork = some fork) (linked : LinkedFork primitives fork.serializedBlocks)
    (hashed : ∀ block ∈ fork.serializedBlocks,
      hashProtoBlockSer primitives block.serializedBody = some (hashOf block)) :
    vcToStat primitives vc = some (statWith vc fork.serializedBlocks (fork.serializedBlocks.map hashOf)) := by
  unfold vcToStat
  rw [isFork]
  dsimp only
  cases blocks : fork.serializedBlocks with
  | nil => rfl
  | cons first rest =>
    rw [blocks] at linked hashed
    obtain ⟨last, isLast⟩ : ∃ last, (first :: rest).getLast? = some last :=
      ⟨_, getLast?_eq_some_getLast (cons_ne_nil _ _)⟩
    have lastHash := hashed last (mem_of_getLast? isLast)
    have parents := parents_of_linked linked isLast hashed
    rw [isLast]
    dsimp only
    rw [lastHash]
    dsimp only
    rw [drop_one, tail_cons, parents]
    simp [statWith, isLast]

def Passes (crypto : CryptoService) (minQcLen : Nat) (block : HalfSerializedBlock) : Prop :=
  ∃ cached hash, crypto.verifyBlockSer minQcLen block.serializedBody = some (.ok cached, .ok hash)

def blockHashOf (primitives : Primitives) (block : HalfSerializedBlock) : HashType :=
  (hashProtoBlockSer primitives block.serializedBody).getD []

theorem Passes.hashed {block} (passes : Passes crypto minQcLen block) :
    hashProtoBlockSer crypto.primitives block.serializedBody = some (blockHashOf crypto.primitives block) := by
  obtain ⟨_, _, verified⟩ := passes
  rw [blockHashOf, (CryptoService.accepts_of_verifyBlockSer verified).hashed]
  rfl

theorem prepareForRebroadcast_eq_some {blocks} (passes : ∀ block ∈ blocks, Passes crypto minQcLen block) :
    ∃ cached, prepareForRebroadcast crypto blocks minQcLen = some cached ∧
      blocks.map (blockHashOf crypto.primitives) = cached.map (·.blockHash) := by
  induction blocks with
  | nil => exact ⟨[], rfl, rfl⟩
  | cons block blocks ih =>
    obtain ⟨cached, _, verified⟩ := passes block mem_cons_self
    obtain ⟨others, prepared, hashes⟩ := ih fun other member => passes other (mem_cons_of_mem _ member)
    refine ⟨cached :: others, ?_, ?_⟩
    · unfold prepareForRebroadcast at prepared ⊢
      rw [mapM_cons, verified, prepared]
      rfl
    · rw [map_cons, hashes, blockHashOf, (CryptoService.accepts_of_verifyBlockSer verified).hashed]
      rfl

theorem sendBlocks_of_passes (threshold : byzantineLivenessThreshold crypto.config = some minQcLen)
    (isFork : vc.fork = some fork) (passes : ∀ block ∈ fork.serializedBlocks, Passes crypto minQcLen block) :
    ∃ sent, sendBlocksToBroadcasterAndGetStats crypto staging vc = some (sent,
      statWith vc fork.serializedBlocks (fork.serializedBlocks.map (blockHashOf crypto.primitives))) := by
  obtain ⟨_, prepared, hashes⟩ := prepareForRebroadcast_eq_some passes
  unfold sendBlocksToBroadcasterAndGetStats
  rw [isFork, threshold, hashes]
  dsimp only
  rw [prepared]
  unfold statWith
  cases atHead : fork.serializedBlocks.head? with
  | none => exact ⟨_, rfl⟩
  | some first =>
    obtain ⟨_, _, verified⟩ := passes first (mem_of_head? atHead)
    have parent := (CryptoService.accepts_of_verifyBlockSer verified).parent
    dsimp only
    rw [parent]
    exact ⟨_, rfl⟩

/-!
## The forks that the stage sends
-/

/-- The pending blocks continue the chain from their parent, which is the block `bci` if there is one. -/
structure PendingInv (core : StagingCore) : Prop where
  pending : Follows core.bci (core.currParentForPending.map (·.blockHash)) core.blocks
  parent : core.currParentForPending.map (·.block.n) = if core.bci = 0 then none else some core.bci

theorem LogChain.pendingInv (logChain : LogChain core) : PendingInv core where
  pending := logChain.pending
  parent := by
    cases held : core.currParentForPending with
    | none => rw [if_pos (logChain.bci_eq_zero held), map_none]
    | some parent => rw [if_neg (logChain.bci_pos held).ne', map_some, logChain.parent_n held]

theorem pendingInv_of_reaches (withQcs : crypto.config.features.noQc = false)
    (reached : Reaches (step crypto) ChainOk (new crypto.config) staging) : PendingInv staging.toStagingCore :=
  (chainInv_of_reaches withQcs reached).logChain.pendingInv

def sentBlocks (core : StagingCore) : List CachedBlock := core.currParentForPending.toList ++ core.blocks

theorem PendingInv.follows (inv : PendingInv core) : Follows (core.bci - 1) none (sentBlocks core) := by
  obtain ⟨pending, parent⟩ := inv
  unfold sentBlocks
  cases held : core.currParentForPending with
  | none =>
    rw [held] at pending parent
    have start : core.bci = 0 := by
      by_contra positive
      rw [if_neg positive] at parent
      cases parent
    rw [start] at pending ⊢
    exact pending
  | some block =>
    rw [held] at pending parent
    have positive : core.bci ≠ 0 := by
      intro start
      rw [if_pos start] at parent
      cases parent
    rw [if_neg positive] at parent
    have before : core.bci - 1 + 1 = core.bci := Nat.sub_add_cancel (Nat.pos_of_ne_zero positive)
    refine ⟨?_, (fun _ absent => by cases absent), ?_⟩
    · rw [before]
      exact some.inj parent
    · rw [before]
      exact pending

theorem linkedFork_of_follows {blocks : List CachedBlock} {n : Nat} {tip : Option HashType}
    (chain : Follows n tip blocks) (faithful : ∀ block ∈ blocks, block.Faithful primitives) :
    LinkedFork primitives (blocks.map (·.toHalfSerialized)) := by
  refine isChain_iff_getElem.mpr fun i inside => ?_
  rw [length_map] at inside
  simp only [getElem_map]
  have names := chain.parent_getElem? (getElem?_eq_getElem (Nat.lt_of_succ_lt inside)) (getElem?_eq_getElem inside)
  have next := faithful _ (getElem_mem inside)
  have block := faithful _ (getElem_mem (Nat.lt_of_succ_lt inside))
  exact next.parent.trans ((congrArg some names).trans block.hashed.symm)

/-- The statistics of the fork of a message, as the index arithmetic of the fork choice reads them. -/
structure StatsFit (primitives : Primitives) (vc : ProtoViewChange) (blocks : List HalfSerializedBlock)
    (stat : ForkStat) : Prop where
  linked : LinkedFork primitives blocks
  hashes : ∀ (i : Nat) (hash : HashType), stat.blockHashes[i]? = some hash →
    ∃ block, blocks[i]? = some block ∧ block.n = stat.firstN + i ∧
      hashProtoBlockSer primitives block.serializedBody = some hash
  ordered : stat.firstN ≤ stat.forkLastN
  length : stat.blockHashes.length = stat.forkLastN - stat.firstN + 1
  last : vc.forkLastN = stat.forkLastN

theorem statsFit_of_follows {blocks : List CachedBlock} {n : Nat} (chain : Follows n none blocks)
    (faithful : ∀ block ∈ blocks, block.Faithful primitives) (nonempty : blocks ≠ [])
    (isFork : vc.fork = some ⟨blocks.map (·.toHalfSerialized)⟩)
    (lastN : vc.forkLastN = (blocks.getLast?.map (·.block.n)).getD 0) :
    ∃ stat, vcToStat primitives vc = some stat ∧ StatsFit primitives vc (blocks.map (·.toHalfSerialized)) stat := by
  have linked := linkedFork_of_follows chain faithful
  have hashed : ∀ block ∈ blocks.map (·.toHalfSerialized),
      hashProtoBlockSer primitives block.serializedBody = some (blockHashOf primitives block) := by
    intro block member
    obtain ⟨cached, inFork, rfl⟩ := mem_map.mp member
    rw [blockHashOf, CachedBlock.toHalfSerialized, (faithful cached inFork).hashed]
    rfl
  obtain ⟨first, _, split⟩ := exists_cons_of_ne_nil nonempty
  obtain ⟨last, isLast⟩ : ∃ last, blocks.getLast? = some last := ⟨_, getLast?_eq_some_getLast nonempty⟩
  have atFirst : blocks[0]? = some first := by rw [split, getElem?_cons_zero]
  have firstNumber : first.block.n = n + 0 + 1 := chain.seq_getElem? atFirst
  have lastNumber : last.block.n = n + blocks.length := chain.seq_getLast? isLast
  have long : 0 < blocks.length := length_pos_iff.mpr nonempty
  obtain ⟨stat, isStat⟩ : ∃ stat, stat = statWith vc (blocks.map (·.toHalfSerialized))
      ((blocks.map (·.toHalfSerialized)).map (blockHashOf primitives)) := ⟨_, rfl⟩
  have firstN : stat.firstN = first.block.n := by simp [isStat, statWith, split, CachedBlock.toHalfSerialized]
  have forkLastN : stat.forkLastN = last.block.n := by simp [isStat, statWith, isLast, CachedBlock.toHalfSerialized]
  have blockHashes : stat.blockHashes = (blocks.map (·.toHalfSerialized)).map (blockHashOf primitives) := by
    rw [isStat, statWith]
  refine ⟨stat, isStat ▸ vcToStat_of_linked isFork linked hashed, linked, ?_, ?_, ?_, ?_⟩
  · intro i hash atHash
    rw [blockHashes, getElem?_map, map_eq_some_iff] at atHash
    obtain ⟨block, atBlock, rfl⟩ := atHash
    refine ⟨block, atBlock, ?_, hashed block (mem_of_getElem? atBlock)⟩
    rw [getElem?_map, map_eq_some_iff] at atBlock
    obtain ⟨cached, atCached, rfl⟩ := atBlock
    have number : cached.block.n = n + i + 1 := chain.seq_getElem? atCached
    change cached.block.n = _
    omega
  · omega
  · rw [blockHashes, length_map, length_map]
    omega
  · rw [forkLastN, lastN, isLast]
    rfl

theorem fork_of_createMyVcMsg (created : createMyVcMsg crypto staging = some vc) :
    vc.fork = some ⟨(sentBlocks staging.toStagingCore).map (·.toHalfSerialized)⟩ ∧
      vc.forkLastN = ((sentBlocks staging.toStagingCore).getLast?.map (·.block.n)).getD 0 := by
  obtain ⟨_, _, rfl⟩ := map_eq_some_iff.mp created
  refine ⟨rfl, ?_⟩
  rw [sentBlocks, StagingCore.blocks, getLast?_append, getLast?_map]
  cases staging.pendingBlocks.getLast? with
  | none => cases staging.currParentForPending <;> rfl
  | some last => rfl

/-- Both ways give one result on a linked fork of verified blocks, and a fork that the stage
sends itself is linked, with the hash of the block `first_n + i` at position `i`. -/
theorem forkStats_agree (crypto : CryptoService) (staging : Staging) (vc : ProtoViewChange) :
    (∀ (fork : ProtoFork) (minQcLen : Nat), vc.fork = some fork →
        byzantineLivenessThreshold crypto.config = some minQcLen →
          LinkedFork crypto.primitives fork.serializedBlocks →
        (∀ block ∈ fork.serializedBlocks, Passes crypto minQcLen block) →
        ∃ stat sent, vcToStat crypto.primitives vc = some stat ∧
          sendBlocksToBroadcasterAndGetStats crypto staging vc = some (sent, stat)) ∧
      (PendingInv staging.toStagingCore → (∀ block ∈ sentBlocks staging.toStagingCore, crypto.Made block) →
        createMyVcMsg crypto staging = some vc →
        ∃ fork stat, vc.fork = some fork ∧ vcToStat crypto.primitives vc = some stat ∧
          (fork.serializedBlocks = [] ∧ vc.forkLastN = 0 ∨
            StatsFit crypto.primitives vc fork.serializedBlocks stat)) := by
  refine ⟨?_, ?_⟩
  · intro fork minQcLen isFork threshold linked passes
    obtain ⟨sent, stats⟩ : ∃ sent, sendBlocksToBroadcasterAndGetStats crypto staging vc = some (sent, _) :=
      sendBlocks_of_passes threshold isFork passes
    exact ⟨_, sent, vcToStat_of_linked isFork linked fun block member => (passes block member).hashed, stats⟩
  · intro inv made created
    obtain ⟨isFork, lastN⟩ := fork_of_createMyVcMsg created
    cases sent : sentBlocks staging.toStagingCore with
    | nil =>
      rw [sent] at isFork lastN
      have stats : vcToStat crypto.primitives vc = some (statWith vc [] []) := by
        unfold vcToStat
        rw [isFork]
        rfl
      exact ⟨_, _, isFork, stats, .inl ⟨rfl, lastN⟩⟩
    | cons first rest =>
      have nonempty : sentBlocks staging.toStagingCore ≠ [] := by
        rw [sent]
        exact cons_ne_nil _ _
      obtain ⟨stat, stats, fits⟩ := statsFit_of_follows inv.follows (fun block member => (made block member).faithful)
        nonempty isFork lastN
      exact ⟨_, stat, isFork, stats, .inr fits⟩

theorem forkStats_of_current_leader :
    ∃ vc fork stat sent, createMyVcMsg newLeader currentLeader = some vc ∧ vc.fork = some fork ∧
      fork.serializedBlocks.length = 2 ∧ vcToStat newLeader.primitives vc = some stat ∧
      sendBlocksToBroadcasterAndGetStats newLeader currentLeader vc = some (sent, stat) ∧
      StatsFit newLeader.primitives vc fork.serializedBlocks stat := by
  have verifies : ∀ block ∈ sentBlocks currentLeader.toStagingCore,
      newLeader.verifyBlockSer 2 block.blockSer = some (.ok block, .ok block.blockHash) := by
    intro block member
    obtain rfl | rfl : block = chainBlock 0 ∨ block = chainBlock 1 := by
      simpa [sentBlocks, StagingCore.blocks, currentLeader] using member
    · decide +kernel
    · decide +kernel
  obtain ⟨vc, created⟩ : ∃ vc, createMyVcMsg newLeader currentLeader = some vc :=
    isSome_iff_exists.mp (by decide +kernel)
  obtain ⟨same, own⟩ := forkStats_agree newLeader currentLeader vc
  obtain ⟨fork, stat, isFork, stats, fits⟩ := own ⟨by decide +kernel, by decide +kernel⟩
    (fun block member => .verified (verifies block member)) created
  cases isFork.symm.trans (fork_of_createMyVcMsg created).1
  obtain fits : StatsFit newLeader.primitives vc _ stat := fits.resolve_left fun empty => by cases empty.1
  obtain ⟨_, sent, isStat, sends⟩ := same _ 2 isFork (by decide +kernel) fits.linked (by
    intro block member
    obtain ⟨cached, inFork, rfl⟩ := mem_map.mp member
    exact ⟨_, _, verifies cached inFork⟩)
  cases stats.symm.trans isStat
  exact ⟨vc, _, stat, sent, created, isFork, rfl, stats, sends, fits⟩

end Staging

end PirateShip
