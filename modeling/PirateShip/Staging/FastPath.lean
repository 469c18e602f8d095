import Mathlib.Data.List.Count
import PirateShip.Lib.MapM
import PirateShip.Staging.ForkChoice

/-! The fast-path filter counts, for every block of every fork, the forks that
hold it below their last block. It keeps the forks of the highest block with
enough support, and a fork that ends with a block does not count for it. -/

set_option autoImplicit false

namespace PirateShip

open List

/-!
## What a fork holds at a position
-/

namespace ForkStat

def hashAt (stat : ForkStat) (n : Nat) : Option HashType :=
  if stat.firstN ≤ n then stat.blockHashes[n - stat.firstN]? else none

def innerHashAt (stat : ForkStat) (n : Nat) : Option HashType :=
  if n < stat.forkLastN then stat.hashAt n else none

/-- One hash for each position from `first_n` to `fork_last_n`, or an empty fork. -/
def Segment (stat : ForkStat) : Prop :=
  stat.firstN + stat.blockHashes.length = stat.forkLastN + 1 ∨ stat.blockHashes = [] ∧ stat.forkLastN = 0

/-- Where its headers span a position below the last block, the fork has a hash. -/
def Covers (stat : ForkStat) (n : Nat) : Prop :=
  stat.firstN ≤ n → n < stat.forkLastN → (stat.hashAt n).isSome = true

variable {stat : ForkStat} {n : Nat} {hash : HashType}

theorem hashAt_of_inner (inner : stat.innerHashAt n = some hash) : stat.hashAt n = some hash := by
  unfold innerHashAt at inner
  split at inner
  · exact inner
  · cases inner

theorem hashAt_add (stat : ForkStat) (i : Nat) : stat.hashAt (stat.firstN + i) = stat.blockHashes[i]? := by
  simp [hashAt]

theorem Segment.covers (segment : stat.Segment) (n) : stat.Covers n := by
  intro starts ends
  have inside : n - stat.firstN < stat.blockHashes.length := by
    cases segment with
    | inl length => omega
    | inr empty => omega
  simp [hashAt, starts, inside]

theorem hashInFork_eq (covers : stat.Covers n) : Staging.hashInFork n stat = some (stat.innerHashAt n) := by
  unfold Staging.hashInFork innerHashAt
  by_cases below : n < stat.firstN
  · simp [below, hashAt]
  · by_cases ends : stat.forkLastN ≤ n
    · simp [ends]
    · obtain ⟨hash, held⟩ := Option.isSome_iff_exists.mp (covers (Nat.not_lt.mp below) (Nat.not_le.mp ends))
      have index : stat.blockHashes[n - stat.firstN]? = some hash := by
        rwa [hashAt, if_pos (Nat.not_lt.mp below)] at held
      rw [if_neg below, if_neg ends, index, if_pos (Nat.not_le.mp ends), held, Option.map_some]

theorem covers_of_hashInFork (found : (Staging.hashInFork n stat).isSome = true) : stat.Covers n := by
  intro starts ends
  rw [Staging.hashInFork, if_neg (Nat.not_lt.mpr starts), if_neg (Nat.not_le.mpr ends), Option.isSome_map] at found
  rwa [hashAt, if_pos starts]

end ForkStat

namespace Staging

variable {forkStats : List (SenderType × ForkStat)} {threshold n p : Nat} {hash : HashType}

def holders (forkStats : List (SenderType × ForkStat)) (n : Nat) (hash : HashType) : Nat :=
  forkStats.countP fun binding => binding.2.hashAt n == some hash

def innerHolders (forkStats : List (SenderType × ForkStat)) (n : Nat) (hash : HashType) : Nat :=
  forkStats.countP fun binding => binding.2.innerHashAt n == some hash

theorem innerHolders_le (forkStats n hash) : innerHolders forkStats n hash ≤ holders forkStats n hash := by
  apply countP_mono_left
  intro binding _ inner
  simp only [beq_iff_eq] at inner ⊢
  exact ForkStat.hashAt_of_inner inner

theorem exists_of_innerHolders (positive : 0 < innerHolders forkStats n hash) :
    ∃ binding ∈ forkStats, binding.2.innerHashAt n = some hash := by
  obtain ⟨binding, member, inner⟩ := countP_pos_iff.mp positive
  exact ⟨binding, member, beq_iff_eq.mp inner⟩

/-!
## What the filter keeps
-/

theorem maxOrZero_lt_iff {values} (positive : 0 < threshold) :
    maxOrZero values < threshold ↔ ∀ value ∈ values, value < threshold := by
  constructor
  · intro below value member
    exact (le_max?_getD_of_mem member).trans_lt below
  · intro below
    unfold maxOrZero
    cases found : values.max? with
    | none => exact positive
    | some highest => exact below highest (max?_eq_some_iff.mp found).1

theorem hashesAt_eq (covers : ∀ binding ∈ forkStats, binding.2.Covers n) :
    hashesAt forkStats n = some (forkStats.filterMap fun binding => binding.2.innerHashAt n) := by
  unfold hashesAt
  rw [mapM_eq_map fun binding member => ForkStat.hashInFork_eq (covers binding member)]
  simp

theorem count_hashesAt (forkStats n hash) : (forkStats.filterMap fun binding => binding.2.innerHashAt n).count hash =
      innerHolders forkStats n hash := by
  unfold List.count
  rw [countP_filterMap]
  congr
  funext binding
  cases binding.2.innerHashAt n <;> simp

/-- Enough forks go on above the block, and not as many above another one. -/
def Backed (forkStats : List (SenderType × ForkStat)) (threshold n : Nat) (hash : HashType) : Prop :=
  threshold ≤ innerHolders forkStats n hash ∧
    ∀ other, other ≠ hash → innerHolders forkStats n other < threshold

theorem couldHaveGoneFastPath_iff (forkStats) (positive : 0 < threshold) (n hash) :
    couldHaveGoneFastPath (forkStats.filterMap fun binding => binding.2.innerHashAt n) hash threshold = true ↔
      Backed forkStats threshold n hash := by
  simp only [couldHaveGoneFastPath, Bool.and_eq_true, decide_eq_true_eq, count_hashesAt, Backed,
    maxOrZero_lt_iff positive, forall_mem_map, mem_filter, bne_iff_ne]
  refine and_congr_right fun _ => ⟨fun below other differs => ?_, fun below other differs => below other differs.2⟩
  by_cases held : other ∈ forkStats.filterMap fun binding => binding.2.innerHashAt n
  · exact below other ⟨held, differs⟩
  · rw [← count_hashesAt, count_eq_zero_of_not_mem held]
    exact positive

structure LastBacked (forkStats : List (SenderType × ForkStat)) (threshold firstN : Nat)
    (hashes : List HashType) (found result : Option Nat) : Prop where
  backed : ∀ n ∈ result, n ∈ found ∨
    ∃ i hash, n = firstN + i ∧ hashes[i]? = some hash ∧ Backed forkStats threshold n hash
  reaches : ∀ i hash, hashes[i]? = some hash → Backed forkStats threshold (firstN + i) hash →
    ∃ n ∈ result, firstN + i ≤ n
  keeps : ∀ n ∈ found, n < firstN → ∃ later ∈ result, n ≤ later

theorem lastFastPathPosition_spec (positive : 0 < threshold) (firstN hashes found)
    (covers : ∀ i < hashes.length, ∀ binding ∈ forkStats, binding.2.Covers (firstN + i)) :
    ∃ result, lastFastPathPosition forkStats threshold firstN hashes found = some result ∧
      LastBacked forkStats threshold firstN hashes found result := by
  induction hashes generalizing firstN found with
  | nil =>
    refine ⟨found, rfl, ?_, ?_, ?_⟩
    · exact fun n isFound => .inl isFound
    · simp
    · exact fun n isFound _ => ⟨n, isFound, Nat.le_refl n⟩
  | cons first rest ih =>
    have hashes : hashesAt forkStats firstN =
        some (forkStats.filterMap fun binding => binding.2.innerHashAt firstN) :=
      hashesAt_eq (covers 0 (Nat.succ_pos _))
    simp only [lastFastPathPosition, hashes]
    have later : ∀ i < rest.length, ∀ binding ∈ forkStats, binding.2.Covers (firstN + 1 + i) := by
      intro i inside
      rw [show firstN + 1 + i = firstN + (i + 1) by omega]
      exact covers (i + 1) (Nat.succ_lt_succ inside)
    have could := couldHaveGoneFastPath_iff forkStats positive firstN first
    cases answer : couldHaveGoneFastPath (forkStats.filterMap fun binding => binding.2.innerHashAt firstN)
      first threshold with
    | true =>
      have backedFirst := could.mp answer
      obtain ⟨result, ran, spec⟩ := ih (firstN + 1) (some firstN) later
      obtain ⟨last, isLast, above⟩ := spec.keeps firstN rfl (Nat.lt_succ_self _)
      refine ⟨result, ran, ?_, ?_, ?_⟩
      · intro n isResult
        rcases spec.backed n isResult with isFirst | ⟨i, hash, rfl, held, backed⟩
        · cases isFirst
          exact .inr ⟨0, first, rfl, rfl, backedFirst⟩
        · exact .inr ⟨i + 1, hash, by omega, held, backed⟩
      · intro i hash held backed
        cases i with
        | zero => exact ⟨last, isLast, above⟩
        | succ i =>
          rw [show firstN + (i + 1) = firstN + 1 + i by omega] at backed ⊢
          exact spec.reaches i hash held backed
      · intro n _ below
        exact ⟨last, isLast, by omega⟩
    | false =>
      obtain ⟨result, ran, spec⟩ := ih (firstN + 1) found later
      refine ⟨result, ran, ?_, ?_, ?_⟩
      · intro n isResult
        rcases spec.backed n isResult with isFound | ⟨i, hash, rfl, held, backed⟩
        · exact .inl isFound
        · exact .inr ⟨i + 1, hash, by omega, held, backed⟩
      · intro i hash held backed
        cases i with
        | zero =>
          cases held
          exact absurd (could.mpr backed) (by simp [answer])
        | succ i =>
          rw [show firstN + (i + 1) = firstN + 1 + i by omega] at backed ⊢
          exact spec.reaches i hash held backed
      · intro n isFound below
        exact spec.keeps n isFound (Nat.lt_succ_of_lt below)

def shareHighestQc (forkStats : List (SenderType × ForkStat)) : List (SenderType × ForkStat) :=
  let highestQcN := maxOrZero (forkStats.map fun binding => (binding.2.lastQc.map (·.n)).getD 0)
  forkStats.filter fun binding => (binding.2.lastQc.map fun qc => qc.n == highestQcN).getD false

/-- No fork has a block at a position that another one spans without a hash there. -/
def Covered (forkStats : List (SenderType × ForkStat)) : Prop :=
  ∀ binding ∈ forkStats, ∀ n, (binding.2.hashAt n).isSome = true → ∀ other ∈ forkStats, other.2.Covers n

theorem covered_of_segments (segments : ∀ binding ∈ forkStats, binding.2.Segment) : Covered forkStats :=
  fun _ _ n _ other member => (segments other member).covers n

theorem Covered.covers (covered : Covered forkStats) {binding} (member : binding ∈ forkStats) :
    ∀ i < binding.2.blockHashes.length, ∀ other ∈ forkStats, other.2.Covers (binding.2.firstN + i) := by
  intro i inside
  refine covered binding member _ ?_
  rw [ForkStat.hashAt_add, getElem?_eq_getElem inside, Option.isSome_some]

theorem forkChoiceFilterFastPath_spec (covered : Covered forkStats)
    (positive : 0 < threshold) (shared : threshold ≤ (shareHighestQc forkStats).length) :
    ∃ survivors, forkChoiceFilterFastPath forkStats threshold = some survivors ∧
      ∀ binding, binding ∈ survivors ↔ binding ∈ forkStats ∧
        ∃ n hash, binding.2.hashAt n = some hash ∧ Backed forkStats threshold n hash ∧
          ∀ other ∈ forkStats, ∀ m hash, other.2.hashAt m = some hash →
            Backed forkStats threshold m hash → m ≤ n := by
  have each (binding : SenderType × ForkStat) : ∃ result, binding ∈ forkStats →
      lastFastPathPosition forkStats threshold binding.2.firstN binding.2.blockHashes none = some result ∧
        LastBacked forkStats threshold binding.2.firstN binding.2.blockHashes none result := by
    by_cases member : binding ∈ forkStats
    · obtain ⟨result, spec⟩ := lastFastPathPosition_spec positive _ _ none (covered.covers member)
      exact ⟨result, fun _ => spec⟩
    · exact ⟨none, fun held => absurd held member⟩
  choose position spec using each
  have reaches {binding : SenderType × ForkStat} {n : Nat} {hash : HashType} (member : binding ∈ forkStats)
      (held : binding.2.hashAt n = some hash) (backed : Backed forkStats threshold n hash) :
      ∃ last ∈ position binding, n ≤ last := by
    unfold ForkStat.hashAt at held
    split at held
    · next above =>
      have inside := (spec binding member).2.reaches (n - binding.2.firstN) hash held
      rw [Nat.add_sub_cancel' above] at inside
      exact inside backed
    · cases held
  have backed {binding : SenderType × ForkStat} {n : Nat} (member : binding ∈ forkStats)
      (isLast : n ∈ position binding) :
      ∃ hash, binding.2.hashAt n = some hash ∧ Backed forkStats threshold n hash := by
    rcases (spec binding member).2.backed n isLast with none | ⟨i, hash, rfl, held, backed⟩
    · cases none
    · exact ⟨hash, by rw [ForkStat.hashAt_add, held], backed⟩
  unfold shareHighestQc at shared
  simp only [forkChoiceFilterFastPath]
  rw [if_neg (Nat.not_lt.mpr shared), mapM_eq_map fun binding member => (spec binding member).1, Option.map_some]
  refine ⟨_, rfl, fun binding => ?_⟩
  have isMember : ∀ n, n ∈ (forkStats.map position).filterMap id ↔ ∃ other ∈ forkStats, n ∈ position other := by
    intro n
    simp
  generalize (forkStats.map position).filterMap id = positions at isMember
  rw [← map_prod_left_eq_zip, filter_map, map_map, Function.comp_def, Function.comp_def, map_id', mem_filter]
  refine and_congr_right fun member => ?_
  cases isLast : position binding with
  | none =>
    simp only [Option.map_none, Option.getD_none, Bool.false_eq_true, false_iff]
    rintro ⟨n, hash, held, backed, -⟩
    obtain ⟨last, atLast, -⟩ := reaches member held backed
    rw [isLast] at atLast
    cases atLast
  | some last =>
    simp only [Option.map_some, Option.getD_some, decide_eq_true_eq]
    constructor
    · intro highest
      obtain ⟨hash, held, isBacked⟩ := backed member isLast
      refine ⟨last, hash, held, isBacked, ?_⟩
      intro other otherMember m otherHash otherHeld otherBacked
      obtain ⟨_, isOther, above⟩ := reaches otherMember otherHeld otherBacked
      exact above.trans ((le_max?_getD_of_mem ((isMember _).mpr ⟨other, otherMember, isOther⟩)).trans highest)
    · rintro ⟨n, hash, held, isBacked, top⟩
      obtain ⟨_, same, above⟩ := reaches member held isBacked
      cases isLast.symm.trans same
      rw [← Nat.lt_succ_iff, maxOrZero_lt_iff (Nat.succ_pos last)]
      intro m isPosition
      obtain ⟨other, otherMember, isOther⟩ := (isMember m).mp isPosition
      obtain ⟨otherHash, otherHeld, otherBacked⟩ := backed otherMember isOther
      exact Nat.lt_succ_of_le ((top other otherMember m otherHash otherHeld otherBacked).trans above)

/-!
## Forks that hold a block
-/

/-- The forks of different senders, with equal prefixes wherever two of them hold
the same hash. -/
structure HashLinkedForks (forkStats : List (SenderType × ForkStat)) : Prop where
  senders : (forkStats.map (·.1)).Nodup
  segments : ∀ binding ∈ forkStats, binding.2.Segment
  linked : ∀ first ∈ forkStats, ∀ second ∈ forkStats, ∀ n hash,
    first.2.hashAt n = some hash → second.2.hashAt n = some hash →
    ∀ m ≤ n, first.2.firstN ≤ m → second.2.firstN ≤ m → first.2.hashAt m = second.2.hashAt m

theorem HashLinkedForks.sublist {kept} (forks : HashLinkedForks forkStats)
    (sub : kept.Sublist forkStats) : HashLinkedForks kept where
  senders := forks.senders.sublist (sub.map _)
  segments binding member := forks.segments binding (sub.subset member)
  linked first firstMember second secondMember :=
    forks.linked first (sub.subset firstMember) second (sub.subset secondMember)

/-- A hash that could have been committed on the fast path at a position: enough
forks hold it, and not as many hold another one. -/
structure FastPathHash (forkStats : List (SenderType × ForkStat)) (threshold p : Nat) (hash : HashType) :
    Prop where
  shared : threshold ≤ (shareHighestQc forkStats).length
  held : threshold ≤ holders forkStats p hash
  alone : ∀ other, other ≠ hash → holders forkStats p other < threshold

/-- The filter finishes, and no fork that it keeps has another hash at the position. -/
def Preserves (forkStats : List (SenderType × ForkStat)) (threshold p : Nat) (hash : HashType) : Prop :=
  ∃ survivors, forkChoiceFilterFastPath forkStats threshold = some survivors ∧
    ∀ binding ∈ survivors, ∀ other, binding.2.hashAt p = some other → other = hash

variable (forks : HashLinkedForks forkStats)
include forks

theorem le_holders_of_backed {binding} (member : binding ∈ forkStats)
    (starts : ∀ binding ∈ forkStats, binding.2.firstN ≤ p) {other} (held : binding.2.hashAt n = some hash)
    (backed : Backed forkStats threshold n hash) (above : p ≤ n) (atP : binding.2.hashAt p = some other) :
    threshold ≤ holders forkStats p other := by
  apply backed.1.trans
  apply countP_mono_left
  intro holder holderMember inner
  simp only [beq_iff_eq] at inner ⊢
  rw [← atP]
  exact forks.linked holder holderMember binding member n hash (ForkStat.hashAt_of_inner inner) held p above
    (starts holder holderMember) (starts binding member)

theorem preserves_of_inner (positive : 0 < threshold) (fastPath : FastPathHash forkStats threshold p hash)
    (starts : ∀ binding ∈ forkStats, binding.2.firstN ≤ p)
    (inner : threshold ≤ innerHolders forkStats p hash ∨ p = 0) : Preserves forkStats threshold p hash := by
  obtain ⟨survivors, ran, survives⟩ :=
    forkChoiceFilterFastPath_spec (covered_of_segments forks.segments) positive fastPath.shared
  refine ⟨survivors, ran, ?_⟩
  intro binding isSurvivor other atP
  obtain ⟨member, n, _, held, backed, highest⟩ := (survives binding).mp isSurvivor
  have above : p ≤ n := by
    cases inner with
    | inl enough =>
      obtain ⟨holder, holderMember, holds⟩ := exists_of_innerHolders (positive.trans_le enough)
      refine highest holder holderMember p hash (ForkStat.hashAt_of_inner holds) ⟨enough, ?_⟩
      intro different differs
      exact (innerHolders_le _ _ _).trans_lt (fastPath.alone different differs)
    | inr first => exact first ▸ Nat.zero_le n
  by_contra differs
  exact absurd (fastPath.alone other differs)
    (Nat.not_lt.mpr (le_holders_of_backed forks member starts held backed above atP))

theorem preserves_of_one (fastPath : FastPathHash forkStats 1 p hash) : Preserves forkStats 1 p hash := by
  obtain ⟨survivors, ran, survives⟩ :=
    forkChoiceFilterFastPath_spec (covered_of_segments forks.segments) Nat.one_pos fastPath.shared
  refine ⟨survivors, ran, ?_⟩
  intro binding isSurvivor other atP
  by_contra differs
  have nobody := fastPath.alone other differs
  rw [Nat.lt_one_iff, holders, countP_eq_zero] at nobody
  exact nobody binding ((survives binding).mp isSurvivor).1 (beq_iff_eq.mpr atP)

omit forks

/-!
## When a block is preserved
-/

/-- The highest block that enough forks go on from. -/
structure HighestBacked (forkStats : List (SenderType × ForkStat)) (threshold n : Nat) (hash : HashType) : Prop where
  backed : Backed forkStats threshold n hash
  highest : ∀ m other, Backed forkStats threshold m other → m ≤ n

/-- A block is preserved if and only if no fork with another block at its position holds the highest block
that enough forks go on from. It is if all forks start at its position or below and enough of them go on from
it, or there is no position below; and if one fork is enough. -/
theorem preserves_iff (positive : 0 < threshold) (forks : HashLinkedForks forkStats)
    (fastPath : FastPathHash (forkChoiceFilterHighestQcView forkStats) threshold p hash) :
    (Preserves (forkChoiceFilterHighestQcView forkStats) threshold p hash ↔
      ∀ n block, HighestBacked (forkChoiceFilterHighestQcView forkStats) threshold n block →
        ∀ binding ∈ forkChoiceFilterHighestQcView forkStats, binding.2.hashAt n = some block →
          ∀ other, binding.2.hashAt p = some other → other = hash) ∧
    (threshold = 1 ∨ (∀ binding ∈ forkChoiceFilterHighestQcView forkStats, binding.2.firstN ≤ p) ∧
        (threshold ≤ innerHolders (forkChoiceFilterHighestQcView forkStats) p hash ∨ p = 0) →
      Preserves (forkChoiceFilterHighestQcView forkStats) threshold p hash) := by
  have kept : HashLinkedForks (forkChoiceFilterHighestQcView forkStats) := forks.sublist filter_sublist
  generalize forkChoiceFilterHighestQcView forkStats = remaining at *
  obtain ⟨survivors, ran, survives⟩ :=
    forkChoiceFilterFastPath_spec (covered_of_segments kept.segments) positive fastPath.shared
  refine ⟨⟨?_, fun condition => ⟨survivors, ran, fun binding isSurvivor other atP => ?_⟩⟩, ?_⟩
  · rintro ⟨_, ran', preserved⟩ n block top binding member held
    cases ran.symm.trans ran'
    refine preserved binding ((survives binding).mpr ⟨member, n, block, held, top.backed, ?_⟩)
    exact fun _ _ m other _ => top.highest m other
  · obtain ⟨member, n, block, held, backed, highest⟩ := (survives binding).mp isSurvivor
    refine condition n block ⟨backed, fun m lower isBacked => ?_⟩ binding member held other atP
    obtain ⟨holder, inside, inner⟩ := exists_of_innerHolders (positive.trans_le isBacked.1)
    exact highest holder inside m lower (ForkStat.hashAt_of_inner inner) isBacked
  · rintro (rfl | ⟨starts, inner⟩)
    · exact preserves_of_one kept fastPath
    · exact preserves_of_inner kept positive fastPath starts inner

/-!
### Forks from position 0
-/

def certified : ProtoQuorumCertificate where
  digest := []
  n := 1
  view := 1
  sig := []

def segmentOf (firstN : Nat) (blockHashes : List HashType) : ForkStat where
  blockHashes
  forkLastN := firstN + blockHashes.length - 1
  firstN
  firstParent := []
  lastQc := some certified
  lastView := 1
  lastConfigNum := 1

/-- The senders in the order of their forks. -/
def named (stats : List ForkStat) : List (SenderType × ForkStat) :=
  stats.zipIdx.map fun (stat, i) => (.auth "node" i, stat)

/-- Two forks with block `[1]` at position 2, and one with `[2]`. -/
def threeForks (tail : List HashType) : List (SenderType × ForkStat) :=
  named [segmentOf 0 ([[0], [0], [1]] ++ tail), segmentOf 0 ([[0], [0], [1]] ++ tail), segmentOf 0 [[0], [0], [2]]]

theorem eq_below_of_apart {tail} {n m : Nat} (held : ([[0], [0], [1]] ++ tail)[n]? = some hash)
    (otherHeld : ([[0], [0], [2]] : List HashType)[n]? = some hash) (below : m ≤ n) :
    ([[0], [0], [1]] ++ tail)[m]? = ([[0], [0], [2]] : List HashType)[m]? := by
  rcases n with _ | _ | _ | n
  · obtain rfl := Nat.le_zero.mp below
    rfl
  · rcases m with _ | _ | m
    · rfl
    · rfl
    · omega
  · exact absurd (held.trans otherHeld.symm) (by simp)
  · simp at otherHeld

theorem hashLinkedForks_three (tail) : HashLinkedForks (threeForks tail) where
  senders := by simp [threeForks, named]
  segments := by simp [threeForks, named, segmentOf, ForkStat.Segment]
  linked first firstMember second secondMember n hash held otherHeld m below _ _ := by
    simp only [threeForks, named, zipIdx_cons, zipIdx_nil, map_cons, map_nil, mem_cons, not_mem_nil,
      or_false] at firstMember secondMember
    rcases firstMember with rfl | rfl | rfl <;> rcases secondMember with rfl | rfl | rfl <;> first
      | rfl
      | exact eq_below_of_apart held otherHeld below
      | exact (eq_below_of_apart otherHeld held below).symm

theorem fastPathHash_three {tail} (shared : 2 ≤ (shareHighestQc (threeForks tail)).length) :
    FastPathHash (threeForks tail) 2 2 [1] where
  shared
  held := by simp [holders, threeForks, named, segmentOf, ForkStat.hashAt]
  alone other differs := by
    simp [holders, threeForks, named, segmentOf, ForkStat.hashAt, countP_cons, differs.symm]
    split <;> omega

/-- Two of three forks end with block `[1]` at position 2. The third holds `[2]` there, and is kept. -/
theorem last_block_is_lost :
    HashLinkedForks (threeForks []) ∧ forkChoiceFilterHighestQcView (threeForks []) = threeForks [] ∧
    FastPathHash (threeForks []) 2 2 [1] ∧ ¬ Preserves (threeForks []) 2 2 [1] := by
  refine ⟨hashLinkedForks_three [], by decide +kernel, fastPathHash_three (by decide +kernel), ?_⟩
  rintro ⟨survivors, ran, preserved⟩
  have all : forkChoiceFilterFastPath (threeForks []) 2 = some (threeForks []) := by decide +kernel
  cases ran.symm.trans all
  exact absurd (preserved (.auth "node" 2, segmentOf 0 [[0], [0], [2]])
    (by simp [threeForks, named]) [2] rfl) (by decide)

theorem preserves_when_two_go_on : Preserves (threeForks [[3]]) 2 2 [1] := by
  have remaining : forkChoiceFilterHighestQcView (threeForks [[3]]) = threeForks [[3]] := by decide +kernel
  have fastPath : FastPathHash (forkChoiceFilterHighestQcView (threeForks [[3]])) 2 2 [1] :=
    remaining ▸ fastPathHash_three (by decide +kernel)
  rw [← remaining]
  exact (preserves_iff (by decide) (hashLinkedForks_three [[3]]) fastPath).2
    (.inr ⟨by decide +kernel, .inl (by decide +kernel)⟩)

end Staging

end PirateShip
