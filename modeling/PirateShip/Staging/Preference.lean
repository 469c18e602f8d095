import Mathlib.Data.Prod.Lex
import Mathlib.Order.Lattice.Nat
import Mathlib.Order.Minimal
import PirateShip.Staging.FastPath

/-! What the fork choice rule lets through: the best forks by one criterion after the
other. They do not depend on the order of the messages, and any of them may come
first. -/

set_option autoImplicit false

namespace PirateShip.Staging

open List Option

variable {features : Features} {forkStats others : List (SenderType × ForkStat)} {threshold n : Nat}
  {hash : HashType} {binding : SenderType × ForkStat}

/-!
## Highest values
-/

theorem mem_filter_max_iff {α : Type} {items : List α} {key : α → Nat} {item : α} :
    item ∈ items.filter (fun other => key other == maxOrZero (items.map key)) ↔ MaximalFor (· ∈ items) key item := by
  rw [mem_filter, beq_iff_eq]
  refine and_congr_right fun member => ⟨fun highest other inside _ => ?_, fun maximal => ?_⟩
  · rw [highest]
    exact le_max?_getD_of_mem (mem_map_of_mem inside)
  · refine Nat.le_antisymm (le_max?_getD_of_mem (mem_map_of_mem member)) ?_
    rw [← Nat.lt_succ_iff, maxOrZero_lt_iff (Nat.succ_pos _)]
    intro value isValue
    obtain ⟨other, inside, rfl⟩ := mem_map.mp isValue
    rcases Nat.le_total (key other) (key item) with below | above
    · exact Nat.lt_succ_of_le below
    · exact Nat.lt_succ_of_le (maximal inside above)

theorem filter_max_ne_nil {α items} (key : α → Nat) (nonempty : items ≠ []) :
    items.filter (fun other => key other == maxOrZero (items.map key)) ≠ [] := by
  cases found : (items.map key).max? with
  | none => exact absurd (max?_eq_none_iff.mp found) (by simpa using nonempty)
  | some highest =>
    obtain ⟨item, member, attains⟩ := mem_map.mp (max?_eq_some_iff.mp found).1
    apply ne_nil_of_mem (a := item)
    simp [member, maxOrZero, found, attains]

theorem maxOrZero_perm {values reordered} (perm : values.Perm reordered) :
    maxOrZero values = maxOrZero reordered := by
  have below {some more : List Nat} (subset : some ⊆ more) : maxOrZero some ≤ maxOrZero more := by
    rw [← Nat.lt_succ_iff, maxOrZero_lt_iff (Nat.succ_pos _)]
    exact fun value member => Nat.lt_succ_of_le (le_max?_getD_of_mem (subset member))
  exact Nat.le_antisymm (below perm.subset) (below perm.symm.subset)

theorem filter_max_perm {α : Type} {items reordered : List α} (key : α → Nat) (perm : items.Perm reordered) :
    (items.filter fun other => key other == maxOrZero (items.map key)).Perm
      (reordered.filter fun other => key other == maxOrZero (reordered.map key)) := by
  rw [maxOrZero_perm (perm.map key)]
  exact perm.filter _

theorem maximalFor_maximalFor_iff {α β γ : Type} [LinearOrder β] [LinearOrder γ] {among : α → Prop} {first : α → β}
    {second : α → γ} {item : α} : MaximalFor (MaximalFor among first) second item ↔
      MaximalFor among (fun other => toLex (first other, second other)) item := by
  constructor
  · rintro ⟨⟨member, firstMaximal⟩, secondMaximal⟩
    refine ⟨member, fun other inside le => ?_⟩
    rcases Prod.Lex.toLex_le_toLex.mp le with above | ⟨(same : first item = first other), above⟩
    · exact absurd (firstMaximal inside above.le) (not_le.mpr above)
    · have otherMaximal : MaximalFor among first other := by
        refine ⟨inside, fun third thirdInside le => ?_⟩
        rw [← same] at le ⊢
        exact firstMaximal thirdInside le
      exact Prod.Lex.toLex_le_toLex.mpr (.inr ⟨same.symm, secondMaximal otherMaximal above⟩)
  · rintro ⟨member, maximal⟩
    have firstMaximal : MaximalFor among first item := by
      refine ⟨member, fun other inside _ => ?_⟩
      by_contra above
      have le := maximal inside (Prod.Lex.toLex_le_toLex.mpr (.inl (not_le.mp above)))
      exact (Prod.Lex.toLex_le_toLex.mp le).elim (fun below => above below.le) fun same => above same.1.le
    refine ⟨firstMaximal, fun other otherMaximal le => ?_⟩
    have same : first item = first other := by
      rcases le_total (first item) (first other) with below | above
      · exact below.antisymm (firstMaximal.2 otherMaximal.1 below)
      · exact (otherMaximal.2 member above).antisymm above
    rcases Prod.Lex.toLex_le_toLex.mp (maximal otherMaximal.1 (Prod.Lex.toLex_le_toLex.mpr (.inr ⟨same, le⟩))) with
      below | both
    · exact absurd same below.ne'
    · exact both.2

/-!
## The criteria
-/

def qcView (stat : ForkStat) : Nat := (stat.lastQc.map (·.view)).getD 0

theorem forkChoiceFilterHighestQcView_eq (forkStats) : forkChoiceFilterHighestQcView forkStats =
      forkStats.filter fun binding => qcView binding.2 == maxOrZero (forkStats.map fun other => qcView other.2) := by
  refine filter_congr fun binding member => ?_
  have bound : qcView binding.2 ≤ maxOrZero (forkStats.map fun other => qcView other.2) :=
    le_max?_getD_of_mem (mem_map_of_mem (f := fun other => qcView other.2) member)
  simp only [qcView] at bound ⊢
  generalize maxOrZero (forkStats.map fun other => (other.2.lastQc.map (·.view)).getD 0) = highest at bound ⊢
  cases lastQc : binding.2.lastQc with
  | none => simp [eq_comm]
  | some qc =>
    simp only [lastQc, map_some] at bound ⊢
    cases highest with
    | zero => simp [Nat.le_zero.mp bound]
    | succ highest => simp

theorem certified_perm (perm : forkStats.Perm others) :
    (forkChoiceFilterHighestQcView forkStats).Perm (forkChoiceFilterHighestQcView others) := by
  rw [forkChoiceFilterHighestQcView_eq, forkChoiceFilterHighestQcView_eq]
  exact filter_max_perm (fun binding => qcView binding.2) perm

/-- Enough forks share the highest certificate, so the rule looks for blocks that may
have been committed on the fast path. -/
def EnoughShare (features : Features) (threshold : Nat) (forkStats : List (SenderType × ForkStat)) : Prop :=
  features.fastPath = true ∧ threshold ≤ (shareHighestQc forkStats).length

def HoldsBacked (forkStats : List (SenderType × ForkStat)) (threshold : Nat)
    (binding : SenderType × ForkStat) : Prop :=
  ∃ n hash, binding.2.hashAt n = some hash ∧ Backed forkStats threshold n hash ∧
    ∀ m other, Backed forkStats threshold m other → m ≤ n

/-- Highest view of the last certificate, then the highest backed block, then the
highest view of the last block, and then the highest number. -/
def Preferred (features : Features) (threshold : Nat) (forkStats : List (SenderType × ForkStat)) :
    SenderType × ForkStat → Prop :=
  let certified := forkChoiceFilterHighestQcView forkStats
  MaximalFor
    (MaximalFor (fun binding => binding ∈ certified ∧
        (EnoughShare features threshold certified → HoldsBacked certified threshold binding))
      fun binding => binding.2.lastView)
    fun binding => binding.2.forkLastN

variable (perm : forkStats.Perm others)
include perm

theorem shareHighestQc_perm : (shareHighestQc forkStats).Perm (shareHighestQc others) := by
  unfold shareHighestQc
  rw [maxOrZero_perm (perm.map _)]
  exact perm.filter _

theorem enoughShare_perm : EnoughShare features threshold forkStats ↔ EnoughShare features threshold others := by
  rw [EnoughShare, EnoughShare, (shareHighestQc_perm perm).length_eq]

theorem backed_perm : Backed forkStats threshold n hash ↔ Backed others threshold n hash := by
  simp [Backed, innerHolders, perm.countP_eq]

theorem covered_perm : Covered forkStats ↔ Covered others := by
  simp only [Covered, perm.mem_iff]

theorem preferred_perm :
    Preferred features threshold forkStats binding ↔ Preferred features threshold others binding := by
  have certified := certified_perm perm
  simp only [Preferred, HoldsBacked, certified.mem_iff, enoughShare_perm certified, backed_perm certified]

omit perm

/-!
## What the filters compute
-/

theorem exists_of_backed (positive : 0 < threshold) (backed : Backed forkStats threshold n hash) :
    ∃ binding ∈ forkStats, binding.2.hashAt n = some hash := by
  obtain ⟨binding, member, inner⟩ := exists_of_innerHolders (positive.trans_le backed.1)
  exact ⟨binding, member, ForkStat.hashAt_of_inner inner⟩

theorem covers_of_lastFastPathPosition {firstN hashes found}
    (ran : (lastFastPathPosition forkStats threshold firstN hashes found).isSome = true) :
    ∀ i < hashes.length, ∀ binding ∈ forkStats, binding.2.Covers (firstN + i) := by
  induction hashes generalizing firstN found with
  | nil => exact fun i inside => absurd inside (Nat.not_lt_zero i)
  | cons first rest ih =>
    unfold lastFastPathPosition at ran
    split at ran
    · cases ran
    · next hashes atFirst =>
      intro i inside binding member
      cases i with
      | zero =>
        have each : ∀ binding ∈ forkStats, (hashInFork firstN binding.2).isSome = true := by
          rw [← isSome_mapM_iff]
          obtain ⟨_, mapped, -⟩ := map_eq_some_iff.mp atFirst
          rw [mapped, isSome_some]
        exact ForkStat.covers_of_hashInFork (each binding member)
      | succ i =>
        rw [show firstN + (i + 1) = firstN + 1 + i by omega]
        exact ih ran i (Nat.lt_of_succ_lt_succ inside) binding member

theorem isSome_forkChoiceFilterFastPath_iff (positive : 0 < threshold)
    (shared : threshold ≤ (shareHighestQc forkStats).length) :
    (forkChoiceFilterFastPath forkStats threshold).isSome = true ↔ Covered forkStats := by
  constructor
  · intro ran
    unfold shareHighestQc at shared
    simp only [forkChoiceFilterFastPath] at ran
    rw [if_neg (Nat.not_lt.mpr shared), isSome_map, isSome_mapM_iff] at ran
    intro binding member n held
    by_cases starts : binding.2.firstN ≤ n
    · have covers := covers_of_lastFastPathPosition (ran binding member) (n - binding.2.firstN)
      rw [Nat.add_sub_cancel' starts] at covers
      refine covers ?_
      rw [ForkStat.hashAt, if_pos starts] at held
      simpa using held
    · rw [ForkStat.hashAt, if_neg starts] at held
      cases held
  · intro covered
    obtain ⟨_, ran, -⟩ := forkChoiceFilterFastPath_spec covered positive shared
    rw [ran, isSome_some]

def candidates (features : Features) (threshold : Nat) (forkStats : List (SenderType × ForkStat)) :
    Option (List (SenderType × ForkStat)) :=
  if features.fastPath then forkChoiceFilterFastPath forkStats threshold else some forkStats

theorem candidates_of_few (few : ¬ EnoughShare features threshold forkStats) :
    candidates features threshold forkStats = some forkStats := by
  unfold candidates
  split
  · next fastPath =>
    have below : ¬ threshold ≤ (shareHighestQc forkStats).length := fun shared => few ⟨fastPath, shared⟩
    unfold shareHighestQc at below
    simp only [forkChoiceFilterFastPath]
    rw [if_pos (Nat.not_le.mp below)]
  · rfl

theorem isSome_candidates_iff (positive : 0 < threshold) : (candidates features threshold forkStats).isSome = true ↔
    (EnoughShare features threshold forkStats → Covered forkStats) := by
  by_cases enough : EnoughShare features threshold forkStats
  · rw [candidates, if_pos enough.1, isSome_forkChoiceFilterFastPath_iff positive enough.2]
    exact ⟨fun covered _ => covered, fun covered => covered enough⟩
  · simp [candidates_of_few enough, enough]

theorem mem_candidates (positive : 0 < threshold) {kept}
    (ran : candidates features threshold forkStats = some kept) : binding ∈ kept ↔
      binding ∈ forkStats ∧ (EnoughShare features threshold forkStats → HoldsBacked forkStats threshold binding) := by
  by_cases enough : EnoughShare features threshold forkStats
  · have finished : (candidates features threshold forkStats).isSome = true := by rw [ran, isSome_some]
    have covered : Covered forkStats := (isSome_candidates_iff positive).mp finished enough
    obtain ⟨_, filtered, survives⟩ := forkChoiceFilterFastPath_spec covered positive enough.2
    rw [candidates, if_pos enough.1, filtered] at ran
    cases ran
    rw [survives, forall_prop_of_true enough]
    refine and_congr_right fun _ => ⟨?_, ?_⟩
    · rintro ⟨n, hash, held, backed, highest⟩
      refine ⟨n, hash, held, backed, fun m other otherBacked => ?_⟩
      obtain ⟨holder, member, holds⟩ := exists_of_backed positive otherBacked
      exact highest holder member m other holds otherBacked
    · rintro ⟨n, hash, held, backed, highest⟩
      exact ⟨n, hash, held, backed, fun _ _ m other _ => highest m other⟩
  · cases (candidates_of_few enough).symm.trans ran
    simp [enough]

theorem candidates_sublist {kept} (ran : candidates features threshold forkStats = some kept) :
    kept.Sublist forkStats := by
  unfold candidates at ran
  split at ran
  · simp only [forkChoiceFilterFastPath] at ran
    split at ran
    · cases ran
      exact .refl _
    · obtain ⟨_, mapped, rfl⟩ := map_eq_some_iff.mp ran
      refine (filter_sublist.map Prod.fst).trans ?_
      rw [map_fst_zip (length_of_mapM mapped).ge]
  · cases ran
    exact .refl _

theorem forkChoiceFilter_eq (features forkStats threshold) : forkChoiceFilter features forkStats threshold =
      (candidates features threshold (forkChoiceFilterHighestQcView forkStats)).map fun kept =>
        (forkChoiceFilterHighestLen (forkChoiceFilterHighestView kept)).map (·.1) := rfl

theorem isSome_forkChoiceFilter_iff (positive : 0 < threshold) :
    (forkChoiceFilter features forkStats threshold).isSome = true ↔
      (EnoughShare features threshold (forkChoiceFilterHighestQcView forkStats) →
        Covered (forkChoiceFilterHighestQcView forkStats)) := by
  rw [forkChoiceFilter_eq, isSome_map, isSome_candidates_iff positive]

theorem mem_forkChoiceFilter {senders sender} (positive : 0 < threshold)
    (ran : forkChoiceFilter features forkStats threshold = some senders) :
    sender ∈ senders ↔ ∃ stat, Preferred features threshold forkStats (sender, stat) := by
  obtain ⟨kept, isKept, rfl⟩ := map_eq_some_iff.mp ran
  have chosen (binding : SenderType × ForkStat) :
      binding ∈ forkChoiceFilterHighestLen (forkChoiceFilterHighestView kept) ↔
        Preferred features threshold forkStats binding := by
    unfold forkChoiceFilterHighestLen forkChoiceFilterHighestView
    simp only [mem_filter_max_iff, mem_candidates positive isKept]
    rfl
  simp [chosen]

theorem forkChoiceFilter_sublist {senders} (ran : forkChoiceFilter features forkStats threshold = some senders) :
    senders.Sublist (forkStats.map (·.1)) := by
  obtain ⟨_, isKept, rfl⟩ := map_eq_some_iff.mp ran
  refine List.Sublist.map _ ?_
  exact ((filter_sublist.trans filter_sublist).trans (candidates_sublist isKept)).trans filter_sublist

theorem exists_holdsBacked (positive : 0 < threshold) (backed : Backed forkStats threshold n hash) :
    ∃ binding ∈ forkStats, HoldsBacked forkStats threshold binding := by
  let positions : Set Nat := { m | ∃ other, Backed forkStats threshold m other }
  have bounded : BddAbove positions := by
    refine ⟨maxOrZero (forkStats.map fun binding => binding.2.firstN + binding.2.blockHashes.length), ?_⟩
    rintro m ⟨other, otherBacked⟩
    obtain ⟨binding, member, held⟩ := exists_of_backed positive otherBacked
    have inside : m ≤ binding.2.firstN + binding.2.blockHashes.length := by
      unfold ForkStat.hashAt at held
      split at held
      · have := (List.getElem?_eq_some_iff.mp held).1
        omega
      · cases held
    exact inside.trans (le_max?_getD_of_mem (mem_map_of_mem member))
  have inhabited : positions.Nonempty := ⟨n, hash, backed⟩
  obtain ⟨top, topBacked⟩ := Nat.sSup_mem inhabited bounded
  obtain ⟨binding, member, held⟩ := exists_of_backed positive topBacked
  exact ⟨binding, member, _, top, held, topBacked, fun m other otherBacked => le_csSup bounded ⟨other, otherBacked⟩⟩

theorem forkChoiceFilter_ne_nil_iff {senders} (positive : 0 < threshold) (nonempty : forkStats ≠ [])
    (ran : forkChoiceFilter features forkStats threshold = some senders) : senders ≠ [] ↔
      (EnoughShare features threshold (forkChoiceFilterHighestQcView forkStats) →
        ∃ n hash, Backed (forkChoiceFilterHighestQcView forkStats) threshold n hash) := by
  obtain ⟨kept, isKept, rfl⟩ := map_eq_some_iff.mp ran
  have certified : forkChoiceFilterHighestQcView forkStats ≠ [] := by
    rw [forkChoiceFilterHighestQcView_eq]
    exact filter_max_ne_nil (fun binding => qcView binding.2) nonempty
  have some : (forkChoiceFilterHighestLen (forkChoiceFilterHighestView kept)).map (·.1) ≠ [] ↔ kept ≠ [] := by
    rw [Ne, map_eq_nil_iff]
    constructor
    · rintro filtered rfl
      exact filtered rfl
    · intro keeps
      exact filter_max_ne_nil (fun binding => binding.2.forkLastN)
        (filter_max_ne_nil (fun binding => binding.2.lastView) keeps)
  rw [some]
  constructor
  · intro keeps enough
    obtain ⟨binding, member⟩ := exists_mem_of_ne_nil kept keeps
    obtain ⟨n, hash, -, backed, -⟩ := ((mem_candidates positive isKept).mp member).2 enough
    exact ⟨n, hash, backed⟩
  · intro exists_backed
    by_cases enough : EnoughShare features threshold (forkChoiceFilterHighestQcView forkStats)
    · obtain ⟨n, hash, backed⟩ := exists_backed enough
      obtain ⟨binding, member, holds⟩ := exists_holdsBacked positive backed
      exact ne_nil_of_mem ((mem_candidates positive isKept).mpr ⟨member, fun _ => holds⟩)
    · cases (candidates_of_few enough).symm.trans isKept
      exact certified

/-- With a fast path the rule may let no fork through, or look for a hash that a fork
does not have. -/
theorem forkChoiceFilter_nonempty_iff (fastPath : features.fastPath = true) (positive : 0 < threshold)
    (nonempty : forkStats ≠ []) :
    (∃ senders, forkChoiceFilter features forkStats threshold = some senders ∧ senders ≠ []) ↔
      (threshold ≤ (shareHighestQc (forkChoiceFilterHighestQcView forkStats)).length →
        Covered (forkChoiceFilterHighestQcView forkStats) ∧
          ∃ n hash, Backed (forkChoiceFilterHighestQcView forkStats) threshold n hash) := by
  have enough : EnoughShare features threshold (forkChoiceFilterHighestQcView forkStats) ↔
      threshold ≤ (shareHighestQc (forkChoiceFilterHighestQcView forkStats)).length := by
    simp [EnoughShare, fastPath]
  rw [← enough]
  constructor
  · rintro ⟨senders, ran, some⟩ share
    have finished : (forkChoiceFilter features forkStats threshold).isSome = true := by rw [ran, isSome_some]
    exact ⟨(isSome_forkChoiceFilter_iff positive).mp finished share,
      (forkChoiceFilter_ne_nil_iff positive nonempty ran).mp some share⟩
  · intro both
    have finished := (isSome_forkChoiceFilter_iff positive).mpr fun share => (both share).1
    obtain ⟨senders, ran⟩ := isSome_iff_exists.mp finished
    exact ⟨senders, ran, (forkChoiceFilter_ne_nil_iff positive nonempty ran).mpr fun share => (both share).2⟩

theorem backed_of_two_forks :
    Covered (forkChoiceFilterHighestQcView (named (List.replicate 2 (segmentOf 1 [[1], [2]])))) ∧
      ∃ n hash, Backed (forkChoiceFilterHighestQcView
        (named (List.replicate 2 (segmentOf 1 [[1], [2]])))) 2 n hash := by
  have fastPath : ({ fastPath := true } : Features).fastPath = true := rfl
  have senders : forkChoiceFilter { fastPath := true } (named (List.replicate 2 (segmentOf 1 [[1], [2]]))) 2 =
      some [.auth "node" 0, .auth "node" 1] := by decide +kernel
  exact (forkChoiceFilter_nonempty_iff fastPath (by decide) (by decide)).mp ⟨_, senders, by decide⟩ (by decide +kernel)

/-- Of one block there is no support, however many forks have it: it is their last. -/
theorem no_fork_left :
    forkChoiceFilter { fastPath := true } (named [segmentOf 1 [[1]]]) 1 = some [] ∧
      forkChoiceFilter { fastPath := true } (named (List.replicate 3 (segmentOf 1 [[1]]))) 2 = some [] := by
  decide +kernel

/-!
## Without a fast path
-/

def rank (stat : ForkStat) : Nat ×ₗ Nat ×ₗ Nat := toLex (qcView stat, toLex (stat.lastView, stat.forkLastN))

theorem maximalFor_rank_iff {sender stat} : (sender, stat) ∈ forkChoiceFilterHighestLen (forkChoiceFilterHighestView
        (forkChoiceFilterHighestQcView forkStats)) ↔
      MaximalFor (· ∈ forkStats) (fun binding => rank binding.2) (sender, stat) := by
  unfold forkChoiceFilterHighestLen forkChoiceFilterHighestView
  simp only [mem_filter_max_iff, forkChoiceFilterHighestQcView_eq]
  rw [maximalFor_maximalFor_iff, maximalFor_maximalFor_iff]
  rfl

/-- The senders whose rank is highest, in whatever order the map is read. -/
theorem forkChoiceFilter_highestRank (slow : features.fastPath = false) (forkStats : List (SenderType × ForkStat))
    (threshold : Nat) :
    ∃ senders, forkChoiceFilter features forkStats threshold = some senders ∧
      (∀ sender, sender ∈ senders ↔
        ∃ stat, MaximalFor (· ∈ forkStats) (fun binding => rank binding.2) (sender, stat)) ∧
      (forkStats ≠ [] → senders ≠ []) ∧
      ∀ others, forkStats.Perm others →
        ∃ reordered, forkChoiceFilter features others threshold = some reordered ∧ reordered.Perm senders := by
  have ran (stats : List (SenderType × ForkStat)) : forkChoiceFilter features stats threshold =
      some ((forkChoiceFilterHighestLen
        (forkChoiceFilterHighestView (forkChoiceFilterHighestQcView stats))).map (·.1)) := by
    rw [forkChoiceFilter_eq, candidates, slow]
    rfl
  refine ⟨_, ran forkStats, fun sender => ?_, fun nonempty => ?_, fun others perm => ⟨_, ran others, ?_⟩⟩
  · simp [maximalFor_rank_iff]
  · rw [Ne, map_eq_nil_iff, forkChoiceFilterHighestQcView_eq]
    exact filter_max_ne_nil (fun binding => binding.2.forkLastN)
      (filter_max_ne_nil (fun binding => binding.2.lastView)
      (filter_max_ne_nil (fun binding => qcView binding.2) nonempty))
  · exact (filter_max_perm (fun binding => binding.2.forkLastN) (filter_max_perm (fun binding => binding.2.lastView)
      (certified_perm perm.symm))).map _

def rankedForks : List (SenderType × ForkStat) :=
  named [{ segmentOf 1 [[1], [2], [3]] with lastQc := none }, segmentOf 1 [[1], [2]],
    { segmentOf 1 [[1], [2], [3]] with lastView := 0 }, segmentOf 1 [[1], [4]]]

theorem highestRank_rankedForks :
    (∃ stat, MaximalFor (· ∈ rankedForks) (fun binding => rank binding.2) (.auth "node" 3, stat)) ∧
      ¬ ∃ stat, MaximalFor (· ∈ rankedForks) (fun binding => rank binding.2) (.auth "node" 2, stat) := by
  have slow : ({ fastPath := false } : Features).fastPath = false := rfl
  have filtered : forkChoiceFilter { fastPath := false } rankedForks 1 = some [.auth "node" 1, .auth "node" 3] := by
    decide +kernel
  obtain ⟨_, ran, ranked, -⟩ := forkChoiceFilter_highestRank slow rankedForks 1
  cases ran.symm.trans filtered
  exact ⟨(ranked _).mp (by decide), fun maximal => absurd ((ranked _).mpr maximal) (by decide)⟩

end PirateShip.Staging
