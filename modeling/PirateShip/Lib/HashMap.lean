import Mathlib.Data.List.AList

/-! Finite maps that are iterated and filtered in place, over the association
lists with distinct keys. -/

set_option autoImplicit false

namespace AList

variable {α β : Type}

/-- The bindings in iteration order. -/
def toPairs (map : AList (fun _ : α => β)) : List (α × β) :=
  map.entries.map fun entry => (entry.1, entry.2)

/-- The values in iteration order. -/
def values (map : AList (fun _ : α => β)) : List β :=
  map.entries.map fun entry => entry.2

/-- Keep the bindings that satisfy `keep`. -/
def retain (map : AList (fun _ : α => β)) (keep : α → β → Bool) : AList (fun _ : α => β) where
  entries := map.entries.filter fun entry => keep entry.1 entry.2
  nodupKeys := map.nodupKeys.sublist List.filter_sublist

end AList
