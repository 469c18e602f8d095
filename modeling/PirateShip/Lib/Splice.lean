import Mathlib.Data.List.Basic

/-! Writing a part of a list over: copies into neighbouring places are one copy. -/

set_option autoImplicit false

namespace List

variable {α : Type}

/-- `value` stands in `items` from `start` on. -/
def splice (items : List α) (start : Nat) (value : List α) : List α :=
  items.take start ++ value ++ items.drop (start + value.length)

variable {items value more : List α} {start : Nat}

@[simp]
theorem splice_nil : items.splice start [] = items := by
  simp [splice]

theorem length_splice (fits : start + value.length ≤ items.length) :
    (items.splice start value).length = items.length := by
  simp only [splice, length_append, length_take, length_drop]
  omega

theorem take_splice (fits : start ≤ items.length) :
    (items.splice start value).take (start + value.length) = items.take start ++ value := by
  have length : (items.take start ++ value).length = start + value.length := by simp [fits]
  rw [splice, ← length, take_left]

theorem splice_append (items : List α) (start) (value more : List α) (fits : start ≤ items.length) :
    (items.splice start value).splice (start + value.length) more = items.splice start (value ++ more) := by
  have length : (items.take start ++ value).length = start + value.length := by simp [fits]
  have rest : (items.splice start value).drop (start + value.length + more.length) =
      items.drop (start + (value ++ more).length) := by
    rw [← drop_drop, splice, ← length, drop_left, drop_drop, length, length_append, Nat.add_assoc]
  rw [splice, take_splice fits, rest, splice, append_assoc (items.take start)]

theorem forall_getElem?_set {i : Nat} {property : Nat → α → Prop} {item : α}
    (others : ∀ j other, items[j]? = some other → j ≠ i → property j other) (this : property i item) :
    ∀ j other, (items.set i item)[j]? = some other → property j other := by
  intro j other found
  by_cases same : i = j
  · subst same
    rw [getElem?_set_self'] at found
    obtain ⟨_, _, rfl⟩ := Option.map_eq_some_iff.mp found
    exact this
  · rw [getElem?_set_ne same] at found
    exact others j other found (Ne.symm same)

theorem countP_set_add {i old} (found : items[i]? = some old) (p : α → Bool) (new : α) :
    (items.set i new).countP p + (p old).toNat = items.countP p + (p new).toNat := by
  obtain ⟨inBounds, rfl⟩ := List.getElem?_eq_some_iff.mp found
  have counted : p items[i] = true → 0 < items.countP p :=
    fun holds => countP_pos_iff.mpr ⟨_, getElem_mem inBounds, holds⟩
  rw [countP_set inBounds]
  cases old : p items[i] <;> cases p new <;> simp_all

end List
