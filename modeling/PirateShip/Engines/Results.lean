import PirateShip.Engines.Kvs
import PirateShip.Lib.MapM

/-! The results of the key-value engine and the operations they belong to. An operation
that does not apply has no result, so that the results after it stand at other places. -/

set_option autoImplicit false

namespace PirateShip

open List Option

/-!
## Loops
-/

section Loops

variable {α β γ : Type}
variable {relates : KVSState → α → β → Prop} {state after : KVSState} {items : List α} {results : List β}

/-- Holds of every item of a loop, with the state that the item meets. -/
def Along (commit : KVSState → α → Option (KVSState × γ)) (holds : KVSState → α → Prop) : KVSState → List α → Prop
  | _, [] => True
  | state, item :: rest => holds state item ∧
    match commit state item with
    | none => True
    | some (after, _) => Along commit holds after rest

instance decidableAlong (commit : KVSState → α → Option (KVSState × γ)) (holds : KVSState → α → Prop)
    [decides : ∀ state item, Decidable (holds state item)] : ∀ state items, Decidable (Along commit holds state items)
  | _, [] => isTrue trivial
  | state, item :: rest =>
    @instDecidableAnd _ _ (decides state item) <|
      match commit state item with
      | none => isTrue trivial
      | some (after, _) => decidableAlong commit holds after rest

/-- One result for each item, which it relates to, with the state that the item meets. -/
def Answers (commit : KVSState → α → Option (KVSState × γ)) (relates : KVSState → α → β → Prop) :
    KVSState → List α → List β → Prop
  | _, [], [] => True
  | state, item :: rest, result :: results => relates state item result ∧
    match commit state item with
    | none => True
    | some (after, _) => Answers commit relates after rest results
  | _, _, _ => False

theorem answers_iff_along {commit holds}
    (each : ∀ {state after item result}, commit state item = some (after, result) →
      (relates state item result ↔ holds state item))
    (committed : commitEach commit state items = some (after, results)) :
    Answers commit relates state items results ↔ Along commit holds state items := by
  induction items generalizing state results with
  | nil =>
    obtain ⟨_, rfl⟩ := Prod.mk.inj (some.inj committed)
    exact Iff.rfl
  | cons item rest ih =>
    obtain ⟨_, result, _, first, committed_rest, rfl⟩ := commitEach_cons_eq_some.mp committed
    simp only [Answers, Along, first]
    exact and_congr (each first) (ih committed_rest)

theorem Answers.length_eq {commit : KVSState → α → Option (KVSState × γ)}
    {outcomes : List γ} (answers : Answers commit relates state items results)
    (committed : commitEach commit state items = some (after, outcomes)) : results.length = items.length := by
  induction items generalizing state results outcomes with
  | nil =>
    cases results with
    | nil => rfl
    | cons result results => cases answers
  | cons item rest ih =>
    obtain ⟨_, result, _, first, committed_rest, rfl⟩ := commitEach_cons_eq_some.mp committed
    cases results with
    | nil => cases answers
    | cons result results =>
      simp only [Answers, first] at answers
      exact congrArg (· + 1) (ih answers.2 committed_rest)

end Loops

def ProtoTransaction.crashCommitOps (tx : ProtoTransaction) : List ProtoTransactionOp :=
  (tx.onCrashCommit.map (·.ops)).getD []

namespace KVSState

/-- Holds of every operation of the blocks, with the state that the operation meets. -/
def EachOp (holds : KVSState → ProtoTransactionOp → Prop) (state : KVSState) (blocks : List CachedBlock) : Prop :=
  Along crashCommitBlock (fun state block =>
    Along (crashCommitTx block.block.n) (fun state tx =>
      Along (crashCommitOp block.block.n) holds state tx.crashCommitOps) state block.block.txList) state blocks

instance (holds : KVSState → ProtoTransactionOp → Prop) [∀ state op, Decidable (holds state op)] (state : KVSState)
    (blocks : List CachedBlock) : Decidable (EachOp holds state blocks) := by
  unfold EachOp
  infer_instance

theorem crashCommitTx_eq_some {n state after tx result} : crashCommitTx n state tx = some (after, result) ↔
      ∃ outcomes, commitEach (crashCommitOp n) state tx.crashCommitOps = some (after, outcomes) ∧
        result = { result := outcomes.flatten } := by
  unfold crashCommitTx ProtoTransaction.crashCommitOps
  cases tx.onCrashCommit with
  | none => simp [commitEach, eq_comm]
  | some phase =>
    constructor
    · intro committed
      obtain ⟨⟨_, outcomes⟩, ran, same⟩ := map_eq_some_iff.mp committed
      obtain ⟨rfl, rfl⟩ := Prod.mk.inj same
      exact ⟨outcomes, ran, rfl⟩
    · rintro ⟨outcomes, ran, rfl⟩
      exact map_eq_some_iff.mpr ⟨_, ran, rfl⟩

/-!
## Operations on crash commit
-/

/-- The type is known, the operands are as many as it takes, and the key of a `Read` is there. -/
def applies (state : KVSState) (op : ProtoTransactionOp) : Bool :=
  match ProtoTransactionOpType.fromI32 op.opType, op.operands with
  | some .write, [_, _] => true
  | some .read, [key] => (state.read key).isSome
  | some .increment, [_] | some .increment, [_, _] | some .increment, [_, _, _] => true
  | some .cas, operands => operands.length % 3 == 0
  | _, _ => false

/-- The entry of an operation: its own result, or one that reports no success. -/
def Belongs (n : Nat) (state : KVSState) (op : ProtoTransactionOp) (result : ProtoTransactionOpResult) : Prop :=
  if state.applies op then (crashCommitOp n state op).map (·.2) = some [result] else result.success = false

section Ops

variable {n : Nat} {state after : KVSState} {op : ProtoTransactionOp} {ops : List ProtoTransactionOp}
  {outcome : List ProtoTransactionOpResult} {outcomes : List (List ProtoTransactionOpResult)}

theorem increment_outcome {operands key} (incremented : state.increment n operands key = some (after, outcome)) :
    ∃ result, outcome = [result] := by
  obtain ⟨_, _, same⟩ := map_eq_some_iff.mp incremented
  exact ⟨_, (Prod.mk.inj same).2.symm⟩

theorem of_crashCommitOp (committed : crashCommitOp n state op = some (after, outcome)) :
    (state.applies op = true ∧ ∃ result, outcome = [result]) ∨ (state.applies op = false ∧ outcome = []) := by
  obtain ⟨opType, _⟩ := op
  unfold crashCommitOp at committed
  unfold applies
  simp only at committed ⊢
  generalize ProtoTransactionOpType.fromI32 opType = known at committed ⊢
  cases known with
  | none => exact .inr ⟨rfl, (Prod.mk.inj (some.inj committed)).2.symm⟩
  | some kind =>
    cases kind with
    | write =>
      simp only at committed
      split at committed <;> obtain ⟨rfl, rfl⟩ := Prod.mk.inj (some.inj committed)
      · exact .inl ⟨rfl, _, rfl⟩
      · simp_all
    | read =>
      simp only at committed
      split at committed <;> obtain ⟨rfl, rfl⟩ := Prod.mk.inj (some.inj committed)
      · next key => cases found : state.read key <;> simp [found]
      · simp_all
    | increment =>
      simp only at committed
      split at committed
      · exact .inl ⟨rfl, increment_outcome committed⟩
      · exact .inl ⟨rfl, increment_outcome committed⟩
      · exact .inl ⟨rfl, increment_outcome committed⟩
      · simp_all
    | cas =>
      simp only at committed
      split at committed <;> obtain ⟨rfl, rfl⟩ := Prod.mk.inj (some.inj committed)
      · next odd => exact .inr ⟨beq_eq_false_iff_ne.mpr odd, rfl⟩
      · next even => exact .inl ⟨beq_iff_eq.mpr (not_not.mp even), _, rfl⟩
    | noop | addLearner | upgradeFullNode | delLearner | downgradeFullNode | custom | probe =>
      exact .inr ⟨rfl, (Prod.mk.inj (some.inj committed)).2.symm⟩

variable (committed : commitEach (crashCommitOp n) state ops = some (after, outcomes))
include committed

theorem length_flatten_le : outcomes.flatten.length ≤ ops.length := by
  induction ops generalizing state outcomes with
  | nil =>
    obtain ⟨_, rfl⟩ := Prod.mk.inj (some.inj committed)
    exact Nat.le_refl _
  | cons op rest ih =>
    obtain ⟨_, _, _, first, committed_rest, rfl⟩ := commitEach_cons_eq_some.mp committed
    have shorter := ih committed_rest
    rw [flatten_cons, length_append, length_cons]
    obtain ⟨_, _, rfl⟩ | ⟨_, rfl⟩ := of_crashCommitOp first
    · rw [length_singleton]
      omega
    · rw [length_nil]
      omega

theorem answers_ops_iff : Answers (crashCommitOp n) (Belongs n) state ops outcomes.flatten ↔
      Along (crashCommitOp n) (fun state op => state.applies op = true) state ops := by
  induction ops generalizing state outcomes with
  | nil =>
    obtain ⟨_, rfl⟩ := Prod.mk.inj (some.inj committed)
    exact Iff.rfl
  | cons op rest ih =>
    have whole := committed
    obtain ⟨_, _, _, first, committed_rest, rfl⟩ := commitEach_cons_eq_some.mp committed
    obtain ⟨applied, _, rfl⟩ | ⟨skipped, rfl⟩ := of_crashCommitOp first
    · simp only [flatten_cons, singleton_append, Answers, Along, first, ih committed_rest, Belongs, applied,
        if_true, map_some, true_and]
    · -- The entries are fewer than the operations.
      have fewer := length_flatten_le committed_rest
      refine iff_of_false (fun answers => ?_) fun along => ?_
      · have lengths := answers.length_eq whole
        simp only [flatten_cons, nil_append, length_cons] at lengths
        omega
      · cases skipped.symm.trans along.1

end Ops

/-- The results of the blocks have one entry for each operation, its own. -/
def OneResultPerOp (state : KVSState) (blocks : List CachedBlock) (results : List (List ProtoTransactionResult)) :
    Prop :=
  Answers crashCommitBlock (fun state block results =>
    Answers (crashCommitTx block.block.n) (fun state tx result =>
      Answers (crashCommitOp block.block.n) (Belongs block.block.n) state tx.crashCommitOps result.result)
      state block.block.txList results) state blocks results

theorem oneResultPerOp_iff {state after blocks results}
    (committed : commitEach crashCommitBlock state blocks = some (after, results)) :
    OneResultPerOp state blocks results ↔ EachOp (fun state op => state.applies op = true) state blocks := by
  refine answers_iff_along (fun {_ _ block _} committed_block => ?_) committed
  refine answers_iff_along (fun {_ _ tx _} committed_tx => ?_) committed_block
  obtain ⟨_, committed_ops, rfl⟩ := crashCommitTx_eq_some.mp committed_tx
  exact answers_ops_iff committed_ops

/-!
## Unlogged requests
-/

/-- The entry of an operation on receive. Only a `Read` applies there. -/
def BelongsUnlogged (state : KVSState) (op : ProtoTransactionOp) (result : ProtoTransactionOpResult) : Prop :=
  match op.operands with
  | [key] =>
    if ProtoTransactionOpType.fromI32 op.opType = some .read then
      result.success = (state.read key).isSome ∧ result.values = (state.read key).toList
    else result.success = false
  | _ => result.success = false

/-- Every operation with one operand is answered like a `Read`. -/
def AppliesUnlogged (state : KVSState) (op : ProtoTransactionOp) : Prop :=
  match op.operands with
  | [key] => ProtoTransactionOpType.fromI32 op.opType = some .read ∨ state.read key = none
  | _ => False

end KVSState

namespace KVSAppEngine

/-- The results of a request have one entry for each operation, its own. -/
def OneResultPerUnloggedOp (engine : KVSAppEngine) (request : ProtoTransaction) : Prop :=
  List.Forall₂ engine.state.BelongsUnlogged ((request.onReceive.map (·.ops)).getD [])
    (engine.handleUnloggedRequest request).result

theorem oneResultPerUnloggedOp_iff (engine : KVSAppEngine) (request : ProtoTransaction) :
    engine.OneResultPerUnloggedOp request ↔
      ∀ op ∈ (request.onReceive.map (·.ops)).getD [], engine.state.AppliesUnlogged op := by
  rw [OneResultPerUnloggedOp, handleUnloggedRequest, List.forall₂_filterMap_iff]
  refine forall₂_congr fun op _ => ?_
  obtain ⟨opType, operands⟩ := op
  unfold KVSState.AppliesUnlogged KVSState.BelongsUnlogged
  match operands with
  | [] | _ :: _ :: _ => simp
  | [key] =>
    by_cases reads : ProtoTransactionOpType.fromI32 opType = some .read <;>
      cases found : engine.state.read key <;> simp [found]

/-- In every state and for every transaction the results have one entry for each operation
exactly if all operations apply. -/
theorem oneResult_iff_applies (engine : KVSAppEngine) :
    (∀ blocks after results, engine.handleCrashCommit blocks = some (after, results) →
      (engine.state.OneResultPerOp blocks results ↔
        engine.state.EachOp (fun state op => state.applies op = true) blocks)) ∧
    ∀ request, engine.OneResultPerUnloggedOp request ↔
      ∀ op ∈ (request.onReceive.map (·.ops)).getD [], engine.state.AppliesUnlogged op := by
  refine ⟨fun blocks after results handled => ?_, engine.oneResultPerUnloggedOp_iff⟩
  obtain ⟨⟨state, _⟩, committed, same⟩ := map_eq_some_iff.mp handled
  obtain ⟨_, rfl⟩ := Prod.mk.inj same
  exact KVSState.oneResultPerOp_iff committed

def opsTx (ops : List ProtoTransactionOp) : ProtoTransaction where
  onReceive := some ⟨ops⟩
  onCrashCommit := some ⟨ops⟩

def opsBlock (n : Nat) (ops : List ProtoTransactionOp) : CachedBlock where
  block := { txList := [opsTx ops], n, view := 1, viewIsStable := true, configNum := 1 }
  blockSer := []
  blockHash := []

def writeRead : List ProtoTransactionOp := [⟨2, [[1], [2]]⟩, ⟨1, [[1]]⟩]

theorem oneResult_of_write_read :
    ∃ after, KVSAppEngine.handleCrashCommit {} [opsBlock 1 writeRead] =
        some (after, [[⟨[⟨true, []⟩, ⟨true, [[2]]⟩]⟩]]) ∧
      (KVSAppEngine.state {}).OneResultPerOp [opsBlock 1 writeRead] [[⟨[⟨true, []⟩, ⟨true, [[2]]⟩]⟩]] ∧
      after.OneResultPerUnloggedOp (opsTx [⟨1, [[1]]⟩]) := by
  refine ⟨_, rfl, ?_, ?_⟩
  · exact ((oneResult_iff_applies {}).1 [opsBlock 1 writeRead] _ _ rfl).mpr (by decide +kernel)
  · exact ((oneResult_iff_applies _).2 (opsTx [⟨1, [[1]]⟩])).mpr (forall_mem_singleton.mpr (.inl rfl))

/-- The read of a missing key has no entry, so that the first entry is that of the write; and
a no-op on receive is answered with the value of the key. -/
theorem result_out_of_place :
    ∃ after, KVSAppEngine.handleCrashCommit {} [opsBlock 1 [⟨1, [[1]]⟩, ⟨2, [[1], [2]]⟩]] =
        some (after, [[⟨[⟨true, []⟩]⟩]]) ∧
      ¬ (KVSAppEngine.state {}).OneResultPerOp [opsBlock 1 [⟨1, [[1]]⟩, ⟨2, [[1], [2]]⟩]] [[⟨[⟨true, []⟩]⟩]] ∧
      after.handleUnloggedRequest (opsTx [⟨0, [[1]]⟩]) = ⟨[⟨true, [[2]]⟩]⟩ ∧
      ¬ after.OneResultPerUnloggedOp (opsTx [⟨0, [[1]]⟩]) := by
  refine ⟨_, rfl, ?_, rfl, ?_⟩
  · exact (KVSState.oneResultPerOp_iff rfl).not.mpr (by decide +kernel)
  · intro one
    cases ((oneResultPerUnloggedOp_iff _ _).mp one _ mem_cons_self) with
    | inl reads => cases reads
    | inr missing => cases missing

end KVSAppEngine

end PirateShip
