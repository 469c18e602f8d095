import Mathlib.Data.Finset.Card
import Mathlib.Tactic.Basic

/-! Quorums: sets of at least so many of the members of a finite set. -/

set_option autoImplicit false

namespace Finset

variable {α : Type} [DecidableEq α] {members left right : Finset α} {first second shared : Nat}

theorem card_add_card_le_card_add_card_inter (leftOf : left ⊆ members) (rightOf : right ⊆ members) :
    left.card + right.card ≤ members.card + (left ∩ right).card := by
  have both : (left ∪ right).card + (left ∩ right).card = left.card + right.card := card_union_add_card_inter _ _
  have inside : (left ∪ right).card ≤ members.card := card_le_card (union_subset leftOf rightOf)
  omega

theorem exists_card_inter_eq (leftFits : first ≤ members.card) (rightFits : second ≤ members.card) :
    ∃ left ⊆ members, left.card = first ∧ ∃ right ⊆ members, right.card = second ∧
      (left ∩ right).card = first + second - members.card := by
  obtain ⟨left, leftOf, leftCard⟩ := exists_subset_card_eq leftFits
  have outside : (members \ left).card = members.card - first := by rw [card_sdiff_of_subset leftOf, leftCard]
  refine ⟨left, leftOf, leftCard, ?_⟩
  rcases Nat.le_total second (members \ left).card with small | large
  · obtain ⟨right, rightOf, rightCard⟩ := exists_subset_card_eq small
    refine ⟨right, rightOf.trans sdiff_subset, rightCard, ?_⟩
    have apart : Disjoint left right := disjoint_of_subset_right rightOf disjoint_sdiff
    rw [disjoint_iff_inter_eq_empty.mp apart, card_empty]
    omega
  · obtain ⟨right, covers, rightOf, rightCard⟩ := exists_subsuperset_card_eq sdiff_subset large rightFits
    refine ⟨right, rightOf, rightCard, ?_⟩
    have all : left ∪ right = members := by
      apply Subset.antisymm (union_subset leftOf rightOf)
      rw [← union_sdiff_of_subset leftOf]
      exact union_subset_union_right covers
    have both := card_union_add_card_inter left right
    rw [all] at both
    omega

/-- Any two quorums share so many members just if the sizes add up to that many more
than there are, or one of the sizes is out of reach. -/
theorem forall_le_card_inter_iff (positive : 0 < shared) :
    (∀ left ⊆ members, first ≤ left.card → ∀ right ⊆ members, second ≤ right.card → shared ≤ (left ∩ right).card) ↔
    members.card < first ∨ members.card < second ∨ members.card + shared ≤ first + second := by
  constructor
  · intro share
    by_contra! small
    obtain ⟨leftFits, rightFits, _⟩ := small
    obtain ⟨left, leftOf, leftCard, right, rightOf, rightCard, _⟩ := exists_card_inter_eq leftFits rightFits
    have := share left leftOf leftCard.ge right rightOf rightCard.ge
    omega
  · intro large left leftOf leftCard right rightOf rightCard
    have := card_add_card_le_card_add_card_inter leftOf rightOf
    have := card_le_card leftOf
    have := card_le_card rightOf
    omega

end Finset
