import Mathlib.Data.List.Induction
import Mathlib.Data.List.TakeDrop

/-! Chains of numbered blocks in which every block names the hash of its
predecessor. In a chain a number is a position, so cutting at a number is
cutting at a position. -/

set_option autoImplicit false

/-- Blocks with a sequence number, a hash, and the hash of a parent. -/
class HashLinked (Block : Type) (Hash : outParam Type) where
  seq : Block → Nat
  parent : Block → Hash
  digest : Block → Hash

namespace HashLinked

open List

variable {Block Hash : Type} [HashLinked Block Hash]
variable {i : Nat}

/-- The blocks continue a chain that ends at number `n`, in a block with the
hash `tip` if there is one. -/
def Follows : Nat → Option Hash → List Block → Prop
  | _, _, [] => True
  | n, tip, block :: rest =>
    seq block = n + 1 ∧ (∀ hash ∈ tip, parent block = hash) ∧ Follows (n + 1) (some (digest block)) rest

instance decidableFollows [DecidableEq Hash] :
    ∀ (n : Nat) (tip : Option Hash) (blocks : List Block), Decidable (Follows n tip blocks)
  | _, _, [] => isTrue trivial
  | n, _, block :: rest =>
    have := decidableFollows (n + 1) (some (digest block)) rest
    inferInstanceAs (Decidable (_ ∧ _ ∧ _))

/-- The hash at the end of a chain that starts from `tip`. -/
def endTip (tip : Option Hash) (blocks : List Block) : Option Hash :=
  (blocks.getLast?.map digest).or tip

variable {n m : Nat} {tip : Option Hash} {blocks more : List Block} {block : Block}

@[simp] theorem endTip_nil : endTip tip ([] : List Block) = tip := by
  simp [endTip]

@[simp] theorem endTip_concat : endTip tip (blocks ++ [block]) = some (digest block) := by
  simp [endTip]

theorem endTip_cons : endTip tip (block :: blocks) = endTip (some (digest block)) blocks := by
  cases blocks with
  | nil => rfl
  | cons next _ => simp [endTip, getLast?_cons]

theorem endTip_append : endTip tip (blocks ++ more) = endTip (endTip tip blocks) more := by
  induction blocks generalizing tip with
  | nil => rfl
  | cons block rest ih => rw [cons_append, endTip_cons, endTip_cons, ih]

@[simp] theorem follows_nil : Follows n tip ([] : List Block) := trivial

theorem follows_append : Follows n tip (blocks ++ more) ↔
    Follows n tip blocks ∧ Follows (n + blocks.length) (endTip tip blocks) more := by
  induction blocks generalizing n tip with
  | nil => simp
  | cons block rest ih =>
    rw [cons_append, Follows, Follows, ih, endTip_cons, length_cons,
      show n + 1 + rest.length = n + (rest.length + 1) by omega]
    simp only [and_assoc]

theorem follows_concat :
    Follows n tip (blocks ++ [block]) ↔ Follows n tip blocks ∧ seq block = n + blocks.length + 1 ∧
      ∀ hash ∈ endTip tip blocks, parent block = hash := by
  simp [follows_append, Follows]

theorem Follows.onto {other} (chain : Follows n tip (block :: blocks))
    (linked : ∀ hash ∈ other, parent block = hash) : Follows n other (block :: blocks) :=
  ⟨chain.1, linked, chain.2.2⟩

variable (chain : Follows n tip blocks)
include chain

theorem Follows.take (k) : Follows n tip (blocks.take k) := by
  rw [← take_append_drop k blocks, follows_append] at chain
  exact chain.1

theorem Follows.drop (k) : Follows (n + (blocks.take k).length) (endTip tip (blocks.take k)) (blocks.drop k) := by
  rw [← take_append_drop k blocks, follows_append] at chain
  exact chain.2

theorem Follows.of_prefix (initial : more <+: blocks) : Follows n tip more := by
  obtain ⟨_, rfl⟩ := initial
  exact (follows_append.mp chain).1

theorem Follows.seq_getElem? (found : blocks[i]? = some block) : seq block = n + i + 1 := by
  induction blocks generalizing n tip i with
  | nil => simp at found
  | cons head rest ih =>
    cases i with
    | zero =>
      obtain rfl : head = block := by simpa using found
      exact chain.1
    | succ i =>
      have := ih chain.2.2 (by simpa using found)
      omega

theorem Follows.parent_getElem? {next} (found : blocks[i]? = some block)
    (after : blocks[i + 1]? = some next) : parent next = digest block := by
  induction blocks generalizing n tip i with
  | nil => cases found
  | cons head rest ih =>
    cases i with
    | zero =>
      obtain rfl : head = block := by simpa using found
      cases rest with
      | nil => cases after
      | cons second rest =>
        obtain rfl : second = next := by simpa using after
        exact chain.2.2.2.1 _ rfl
    | succ i => exact ih chain.2.2 (by simpa using found) (by simpa using after)

theorem Follows.take_eq {other} (second : Follows n other more)
    (faithful : ∀ left ∈ blocks, ∀ right ∈ more, digest left = digest right → left = right) {meets}
    (found : blocks[i]? = some block) (also : more[i]? = some meets) (same : digest block = digest meets) :
    blocks.take (i + 1) = more.take (i + 1) := by
  obtain rfl : block = meets := faithful block (mem_of_getElem? found) meets (mem_of_getElem? also) same
  induction i generalizing block with
  | zero => rw [take_add_one, take_add_one, found, also, take_zero, take_zero]
  | succ i ih =>
    obtain ⟨before, atI⟩ : ∃ before, blocks[i]? = some before :=
      ⟨_, List.getElem?_eq_getElem (Nat.lt_of_succ_lt (List.getElem?_eq_some_iff.mp found).1)⟩
    obtain ⟨alsoBefore, alsoAtI⟩ : ∃ before, more[i]? = some before :=
      ⟨_, List.getElem?_eq_getElem (Nat.lt_of_succ_lt (List.getElem?_eq_some_iff.mp also).1)⟩
    have linked := (chain.parent_getElem? atI found).symm.trans (second.parent_getElem? alsoAtI also)
    obtain rfl : before = alsoBefore :=
      faithful before (mem_of_getElem? atI) alsoBefore (mem_of_getElem? alsoAtI) linked
    rw [take_add_one, found, take_add_one (l := more), also, ih atI alsoAtI rfl]

theorem Follows.seq_mem (member : block ∈ blocks) : n < seq block ∧ seq block ≤ n + blocks.length := by
  obtain ⟨i, bound, rfl⟩ := mem_iff_getElem.mp member
  have := chain.seq_getElem? (getElem?_eq_getElem bound)
  omega

theorem Follows.eq_of_seq_eq {other} (member : block ∈ blocks) (otherMember : other ∈ blocks)
    (same : seq block = seq other) :
    block = other := by
  obtain ⟨i, bound, rfl⟩ := mem_iff_getElem.mp member
  obtain ⟨j, otherBound, rfl⟩ := mem_iff_getElem.mp otherMember
  have first := chain.seq_getElem? (getElem?_eq_getElem bound)
  have second := chain.seq_getElem? (getElem?_eq_getElem otherBound)
  obtain rfl : i = j := by omega
  rfl

theorem Follows.seq_getLast? (last : blocks.getLast? = some block) : seq block = n + blocks.length := by
  rw [getLast?_eq_getElem?] at last
  have := chain.seq_getElem? last
  have nonempty : blocks.length ≠ 0 := fun empty => by
    simp [length_eq_zero_iff.mp empty] at last
  omega

theorem Follows.exists_seq (above : n < m) (inside : m ≤ n + blocks.length) : ∃ block ∈ blocks, seq block = m := by
  have bound : m - n - 1 < blocks.length := by omega
  obtain ⟨block, found⟩ : ∃ block, blocks[m - n - 1]? = some block := ⟨_, getElem?_eq_getElem bound⟩
  refine ⟨block, mem_of_getElem? found, ?_⟩
  have := chain.seq_getElem? found
  omega

theorem Follows.pairwise_seq : blocks.Pairwise fun first second => seq first < seq second := by
  induction blocks generalizing n tip with
  | nil => exact .nil
  | cons block rest ih =>
    obtain ⟨_, -, chain⟩ := chain
    refine .cons (fun other member => ?_) (ih chain)
    have := (chain.seq_mem member).1
    omega

omit chain

/-- `newer` is the block, or comes from it by hash links within `blocks`. -/
inductive Descends (blocks : List Block) (block : Block) : Block → Prop where
  | self : block ∈ blocks → Descends blocks block block
  | child {older newer : Block} : Descends blocks block older → newer ∈ blocks →
      parent newer = digest older → Descends blocks block newer

theorem Descends.mono {newer} (descends : Descends blocks block newer) (more_of : blocks ⊆ more) :
    Descends more block newer := by
  induction descends with
  | self member => exact .self (more_of member)
  | child _ member linked ih => exact .child ih (more_of member) linked

theorem Follows.descends {newer} (chain : Follows n tip blocks) (member : block ∈ blocks)
    (newerMember : newer ∈ blocks) (later : seq block ≤ seq newer) : Descends blocks block newer := by
  induction blocks using List.reverseRecOn generalizing newer with
  | nil => cases member
  | append_singleton initial last ih =>
    obtain ⟨chain', _, linked⟩ := follows_concat.mp chain
    have grown : initial ⊆ initial ++ [last] := subset_append_left _ _
    have below {other : Block} (other_mem : other ∈ initial) : seq other < seq last := by
      have := (chain'.seq_mem other_mem).2
      omega
    rw [mem_append, mem_singleton] at member newerMember
    rcases member with member | rfl
    · rcases newerMember with newerMember | rfl
      · exact (ih chain' member newerMember later).mono grown
      · obtain ⟨_, atEnd⟩ := Option.isSome_iff_exists.mp (getLast?_isSome.mpr (ne_nil_of_mem member))
        have tailMember := mem_of_getLast? atEnd
        have tailNumber := chain'.seq_getLast? atEnd
        have inside := (chain'.seq_mem member).2
        refine .child ((ih chain' member tailMember (by omega)).mono grown)
          (mem_append_right _ mem_cons_self) (linked _ ?_)
        rw [endTip, atEnd]
        rfl
    · rcases newerMember with newerMember | rfl
      · exact absurd later (Nat.not_le.mpr (below newerMember))
      · exact .self (mem_append_right _ mem_cons_self)

/-!
## Cutting at a number
-/

include chain

theorem Follows.takeWhile_seq_le (m) :
    (blocks.takeWhile fun block => decide (seq block ≤ m)) = blocks.take (m - n) := by
  induction blocks generalizing n tip with
  | nil => simp
  | cons block rest ih =>
    obtain ⟨number, -, chain⟩ := chain
    by_cases inside : n + 1 ≤ m
    · rw [takeWhile_cons_of_pos (by simpa [number] using inside), ih chain,
        show m - n = (m - (n + 1)) + 1 by omega, take_succ_cons]
    · rw [takeWhile_cons_of_neg (by simpa [number] using inside), show m - n = 0 by omega, take_zero]

theorem Follows.filter_seq_le (m) : (blocks.filter fun block => decide (seq block ≤ m)) = blocks.take (m - n) := by
  induction blocks generalizing n tip with
  | nil => simp
  | cons block rest ih =>
    obtain ⟨number, -, chain⟩ := chain
    by_cases inside : n + 1 ≤ m
    · rw [filter_cons_of_pos (by simpa [number] using inside), ih chain,
        show m - n = (m - (n + 1)) + 1 by omega, take_succ_cons]
    · rw [filter_cons_of_neg (by simpa [number] using inside), ih chain,
        show m - (n + 1) = 0 by omega, show m - n = 0 by omega, take_zero, take_zero]

theorem Follows.filter_seq_le_mem (member : block ∈ blocks) :
    ∃ initial, (blocks.filter fun other => decide (seq other ≤ seq block)) = initial ++ [block] ∧
      seq block = n + initial.length + 1 := by
  obtain ⟨i, bound, rfl⟩ := mem_iff_getElem.mp member
  have number := chain.seq_getElem? (getElem?_eq_getElem bound)
  refine ⟨blocks.take i, ?_, ?_⟩
  · rw [chain.filter_seq_le, number, show n + i + 1 - n = i + 1 by omega, take_succ_eq_append_getElem bound]
  · rw [length_take, Nat.min_eq_left (Nat.le_of_lt bound), number]

theorem Follows.filter_seq_lt (m) :
    (blocks.filter fun block => decide (seq block < m)) = blocks.take (m - 1 - n) := by
  rw [← chain.filter_seq_le]
  refine filter_congr fun block member => ?_
  have := (chain.seq_mem member).1
  rw [decide_eq_decide]
  omega

theorem Follows.filter_lt_seq (m) : (blocks.filter fun block => decide (m < seq block)) = blocks.drop (m - n) := by
  induction blocks generalizing n tip with
  | nil => simp
  | cons block rest ih =>
    obtain ⟨number, -, chain⟩ := chain
    by_cases inside : n + 1 ≤ m
    · rw [filter_cons_of_neg (by simp only [decide_eq_true_eq]; omega), ih chain,
        show m - n = (m - (n + 1)) + 1 by omega, drop_succ_cons]
    · rw [filter_cons_of_pos (by simp only [decide_eq_true_eq]; omega), ih chain,
        show m - (n + 1) = 0 by omega, show m - n = 0 by omega, drop_zero, drop_zero]

end HashLinked
