import PirateShip.Engines.Kvs

/-! A compare-and-swap over several keys takes effect for all of them or for none. -/

set_option autoImplicit false

namespace PirateShip.KVSState

open List

/-- What the last operation on a key swaps in. -/
def lastSwap (ops : List (Bytes × Bytes × Bytes)) (key : Bytes) : Option Bytes :=
  (ops.filter fun op => op.1 = key).getLast?.map (·.2.1)

theorem length_casOps (operands) : (casOps operands).length = operands.length / 3 := by
  fun_induction casOps operands with
  | case1 key swapVal compareVal rest ih =>
    simp only [length_cons]
    omega
  | case2 operands few =>
    obtain _ | ⟨key, _ | ⟨swapVal, _ | ⟨compareVal, rest⟩⟩⟩ := operands
    · simp
    · simp
    · simp
    · exact absurd rfl (few key swapVal compareVal rest)

theorem all_zip_map (ops : List (Bytes × Bytes × Bytes)) (found : Bytes × Bytes × Bytes → Bytes) :
    (ops.zip (ops.map found)).all (fun pair => pair.2 == pair.1.2.2) = ops.all fun op => found op == op.2.2 := by
  induction ops with
  | nil => rfl
  | cons op rest ih => rw [map_cons, zip_cons_cons, all_cons, all_cons, ih]

/-- A key that several operations name ends with the last of them. -/
theorem read_foldl_push (ops : List (Bytes × Bytes × Bytes)) (state : KVSState) (n key) :
    (ops.foldl (fun state op => state.push n op.1 op.2.1) state).read key =
      (lastSwap ops key).or (state.read key) := by
  induction ops generalizing state with
  | nil => rfl
  | cons op rest ih =>
    rw [foldl_cons, ih, read_push, lastSwap, lastSwap]
    by_cases same : op.1 = key
    · rw [filter_cons_of_pos (by simpa using same), getLast?_cons, if_pos same.symm]
      cases (rest.filter fun op => op.1 = key).getLast? <;> rfl
    · rw [filter_cons_of_neg (by simpa using same), if_neg (Ne.symm same)]

theorem foldl_push_frame (ops : List (Bytes × Bytes × Bytes)) (state : KVSState) (n) :
    (ops.foldl (fun state op => state.push n op.1 op.2.1) state).bciState = state.bciState ∧ ∀ key ∉ ops.map (·.1),
        (ops.foldl (fun state op => state.push n op.1 op.2.1) state).ciState key = state.ciState key := by
  induction ops generalizing state with
  | nil => exact ⟨rfl, fun _ _ => rfl⟩
  | cons op rest ih =>
    obtain ⟨bciState, ciState⟩ := ih (state.push n op.1 op.2.1)
    refine ⟨bciState, fun key other => ?_⟩
    simp only [map_cons, mem_cons, not_or] at other
    rw [foldl_cons, ciState key other.2]
    exact if_neg other.1

/-- A `Cas` on `k` keys, as a whole: the values read come back in either case. -/
structure Atomic (state : KVSState) (operands : List Bytes) (k : Nat) (after : KVSState)
    (result : ProtoTransactionOpResult) : Prop where
  values : result.values = (casOps operands).map fun op => (state.read op.1).getD []
  count : result.values.length = k
  fails : (∃ op ∈ casOps operands, (state.read op.1).getD [] ≠ op.2.2) → after = state ∧ result.success = false
  swaps : (∀ op ∈ casOps operands, (state.read op.1).getD [] = op.2.2) → result.success = true ∧
    after.bciState = state.bciState ∧ (∀ key, after.read key = (lastSwap (casOps operands) key).or (state.read key)) ∧
    ∀ key ∉ (casOps operands).map (·.1), after.ciState key = state.ciState key

theorem cas_is_atomic (n : Nat) (state : KVSState) (op : ProtoTransactionOp) (k : Nat)
    (isCas : ProtoTransactionOpType.fromI32 op.opType = some .cas) (triples : op.operands.length = 3 * k) :
    ∃ after result, crashCommitOp n state op = some (after, [result]) ∧ Atomic state op.operands k after result := by
  have whole : ¬ op.operands.length % 3 ≠ 0 := by omega
  refine ⟨_, _, by simp only [crashCommitOp, isCas, if_neg whole]; rfl, rfl, ?_, ?_, ?_⟩
  · rw [length_map, length_casOps]
    omega
  · rintro ⟨other, member, differs⟩
    have stops : (casOps op.operands).all (fun op => (state.read op.1).getD [] == op.2.2) = false :=
      all_eq_false.mpr ⟨other, member, by simpa using differs⟩
    simp only [all_zip_map, stops, Bool.false_eq_true, if_false, and_self]
  · intro same
    have goes : (casOps op.operands).all (fun op => (state.read op.1).getD [] == op.2.2) = true :=
      all_eq_true.mpr fun op member => beq_iff_eq.mpr (same op member)
    simp only [all_zip_map, goes, true_and]
    obtain ⟨bciState, ciState⟩ := foldl_push_frame (casOps op.operands) state n
    exact ⟨bciState, read_foldl_push (casOps op.operands) state n, ciState⟩

theorem cas_of_repeated_key :
    ∃ after result, crashCommitOp 1 ⟨fun _ => [], fun _ => none⟩ ⟨4, [[1], [2], [], [1], [3], []]⟩ =
      some (after, [result]) ∧
      result = ⟨true, [[], []]⟩ ∧ after.read [1] = some [3] := by
  obtain ⟨after, result, committed, atomic⟩ :=
    cas_is_atomic 1 ⟨fun _ => [], fun _ => none⟩ ⟨4, [[1], [2], [], [1], [3], []]⟩ 2 rfl rfl
  obtain ⟨success, -, reads, -⟩ := atomic.swaps (by decide)
  refine ⟨after, result, committed, ?_, reads [1]⟩
  cases result
  exact congrArg₂ _ success atomic.values

end PirateShip.KVSState
