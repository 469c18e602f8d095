import Mathlib.Data.List.Basic
import Mathlib.Data.List.Forall2

/-! Passes over a list that stop at the first item without a result, or skip it. -/

set_option autoImplicit false

namespace List

open Option

variable {α β : Type} {f : α → Option β} {items : List α} {results : List β}

theorem mapM_eq_some_iff :
    items.mapM f = some results ↔ (∀ item ∈ items, (f item).isSome = true) ∧ items.filterMap f = results := by
  induction items generalizing results with
  | nil => simp
  | cons item items ih =>
    rw [mapM_cons]
    cases found : f item with
    | none => simp [found]
    | some result =>
      cases others : items.mapM f with
      | none =>
        have missing : ¬ ∀ other ∈ items, (f other).isSome = true := fun each => by
          cases others.symm.trans (ih.mpr ⟨each, rfl⟩)
        simp [missing]
      | some rest =>
        obtain ⟨each, rfl⟩ := ih.mp others
        have all : ∀ other ∈ item :: items, (f other).isSome = true :=
          forall_mem_cons.mpr ⟨by rw [found, isSome_some], each⟩
        rw [and_iff_right all, filterMap_cons_some found]
        simp

theorem isSome_mapM_iff : (items.mapM f).isSome = true ↔ ∀ item ∈ items, (f item).isSome = true := by
  constructor
  · intro ran
    obtain ⟨_, mapped⟩ := isSome_iff_exists.mp ran
    exact (mapM_eq_some_iff.mp mapped).1
  · intro each
    rw [mapM_eq_some_iff.mpr ⟨each, rfl⟩, isSome_some]

theorem mapM_eq_map {g} (each : ∀ item ∈ items, f item = some (g item)) : items.mapM f = some (items.map g) := by
  refine mapM_eq_some_iff.mpr ⟨fun item member => by rw [each item member, isSome_some], ?_⟩
  rw [filterMap_congr each]
  exact congrFun filterMap_eq_map items

theorem length_of_mapM (mapped : items.mapM f = some results) : results.length = items.length := by
  obtain ⟨each, rfl⟩ := mapM_eq_some_iff.mp mapped
  exact filterMap_length_eq_length.mpr each

theorem exists_of_mem_mapM (mapped : items.mapM f = some results) {result} (member : result ∈ results) :
    ∃ item ∈ items, f item = some result := by
  obtain ⟨-, rfl⟩ := mapM_eq_some_iff.mp mapped
  exact mem_filterMap.mp member

theorem forall₂_filterMap_iff {relates} :
    Forall₂ relates items (items.filterMap f) ↔
      ∀ item ∈ items, ∃ result, f item = some result ∧ relates item result := by
  induction items with
  | nil => simp
  | cons item items ih =>
    cases found : f item with
    | none =>
      refine iff_of_false (fun related => ?_) fun each => ?_
      · have lengths := related.length_eq
        have shorter := length_filterMap_le f items
        rw [filterMap_cons_none found, length_cons] at lengths
        omega
      · obtain ⟨result, is, _⟩ := each item mem_cons_self
        cases found.symm.trans is
    | some result => simp [found, ih]

end List
