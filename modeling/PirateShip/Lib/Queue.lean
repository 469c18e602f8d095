import Mathlib.Data.List.Basic

/-! Queues as the list of everything that was sent, with the number of items that
were taken. What was sent stays in its place, and what waits is the rest. -/

set_option autoImplicit false

namespace Queue

variable {α : Type} {sent later : List α} {taken : Nat} {item : α}

theorem drop_of_next (next : sent[taken]? = some item) : sent.drop taken = item :: sent.drop (taken + 1) := by
  rw [List.drop_eq_getElem?_toList_append, next]
  rfl

theorem taken_lt_of_next (next : sent[taken]? = some item) : taken < sent.length :=
  (List.getElem?_eq_some_iff.mp next).1

theorem getElem?_of_prefix (isPrefix : sent <+: later) (found : sent[taken]? = some item) :
    later[taken]? = some item := by
  obtain ⟨_, rfl⟩ := isPrefix
  rw [List.getElem?_append_left (taken_lt_of_next found), found]

end Queue
