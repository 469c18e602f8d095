import Mathlib.Data.List.Basic

/-! Merges of two sequences, each in its own order. -/

set_option autoImplicit false

namespace List

variable {α : Type}

inductive Merge : List α → List α → List α → Prop where
  | nil : Merge [] [] []
  | left {item : α} {first second merged : List α} :
      Merge first second merged → Merge (item :: first) second (item :: merged)
  | right {item : α} {first second merged : List α} :
      Merge first second merged → Merge first (item :: second) (item :: merged)

variable {item : α} {first second merged : List α}

theorem Merge.concat_left (merge : Merge first second merged) :
    Merge (first ++ [item]) second (merged ++ [item]) := by
  induction merge with
  | nil => exact .left .nil
  | left _ ih => exact .left ih
  | right _ ih => exact .right ih

theorem Merge.concat_right (merge : Merge first second merged) :
    Merge first (second ++ [item]) (merged ++ [item]) := by
  induction merge with
  | nil => exact .right .nil
  | left _ ih => exact .left ih
  | right _ ih => exact .right ih

end List
