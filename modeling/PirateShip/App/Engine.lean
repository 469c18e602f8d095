import PirateShip.App

/-! An engine answers with one result for each transaction, which the application
stage and the reply stage rely on. -/

set_option autoImplicit false

namespace PirateShip

open Option

/-- One result for each transaction of each block. -/
class LawfulAppEngine (Engine : Type) [AppEngine Engine] : Prop where
  crash_results : ∀ {engine after : Engine} {blocks : List CachedBlock}
    {results : List (List ProtoTransactionResult)},
    AppEngine.handleCrashCommit engine blocks = some (after, results) →
      List.Forall₂ (fun block result => result.length = block.block.txList.length) blocks results
  byz_results : ∀ (engine : Engine) (blocks : List CachedBlock),
    List.Forall₂ (fun block result => result.length = block.block.txList.length) blocks
      (AppEngine.handleByzCommit engine blocks).2

/-!
## The two engines
-/

section CommitEach

variable {α β : Type} {commit : KVSState → α → Option (KVSState × β)} {items : List α} {state after : KVSState}
  {results : List β}

theorem forall₂_commitEach {property}
    (each : ∀ {state after : KVSState} {item : α} {result : β}, commit state item = some (after, result) →
      property item result) (committed : commitEach commit state items = some (after, results)) :
    List.Forall₂ property items results := by
  induction items generalizing state results with
  | nil =>
    obtain ⟨_, rfl⟩ := Prod.mk.inj (some.inj committed)
    exact .nil
  | cons item rest ih =>
    obtain ⟨_, result, _, first, committed_rest, rfl⟩ := commitEach_cons_eq_some.mp committed
    exact .cons (each first) (ih committed_rest)

theorem length_commitEach (committed : commitEach commit state items = some (after, results)) :
    results.length = items.length := by
  have each : List.Forall₂ (fun _ _ => True) items results := forall₂_commitEach (fun _ => trivial) committed
  exact each.length_eq.symm

end CommitEach

instance : LawfulAppEngine KVSAppEngine where
  crash_results {engine after blocks results} handled := by
    obtain ⟨⟨_, _⟩, committed, same⟩ := map_eq_some_iff.mp handled
    obtain ⟨_, rfl⟩ := Prod.mk.inj same
    refine forall₂_commitEach ?_ committed
    intro before next block _ committed_block
    exact length_commitEach committed_block
  byz_results engine blocks := by
    change List.Forall₂ _ blocks (blocks.map _)
    rw [List.forall₂_map_right_iff, List.forall₂_same]
    intro block _
    rw [List.length_map, List.length_zipIdx]

instance : LawfulAppEngine NullApp where
  crash_results {engine after blocks results} committed := by
    obtain ⟨_, rfl⟩ := Prod.mk.inj (some.inj committed)
    rw [List.forall₂_map_right_iff, List.forall₂_same]
    intro block _
    rw [List.length_map]
  byz_results engine blocks := by
    change List.Forall₂ _ blocks (blocks.map _)
    rw [List.forall₂_map_right_iff, List.forall₂_same]
    intro block _
    rw [List.length_map, List.length_zipIdx]

/-!
## The stage
-/

namespace Application

variable {Engine : Type} [AppEngine Engine] [LawfulAppEngine Engine]
  {app after : Application Engine} {blocks : List CachedBlock}

theorem handleCrashCommit_eq_some_iff : app.handleCrashCommit blocks = some after ↔
    ∃ engine results, AppEngine.handleCrashCommit app.engine blocks = some (engine, results) ∧
      List.Forall₂ (fun block result => result.length = block.block.txList.length) blocks results ∧
      after = { app with
        engine
        stats := { app.stats with
          ci := highestN app.stats.ci blocks
          lastQc := highestQcN app.stats.lastQc blocks
          totalCrashCommittedTxs := app.stats.totalCrashCommittedTxs + (results.map (·.length)).sum }
        clientReplyTx := app.clientReplyTx ++ [.crashCommitAck (resultMap blocks results)] } := by
  unfold handleCrashCommit
  cases committed : AppEngine.handleCrashCommit app.engine blocks with
  | none => simp
  | some outcome =>
    obtain ⟨engine, results⟩ := outcome
    have lawful := LawfulAppEngine.crash_results committed
    simp only [lawful.length_eq, ne_eq, not_true_eq_false, ↓reduceIte, some.injEq]
    constructor
    · rintro rfl
      exact ⟨engine, results, rfl, lawful, rfl⟩
    · rintro ⟨_, _, same, _, rfl⟩
      obtain ⟨rfl, rfl⟩ := Prod.mk.inj same
      rfl

theorem handleByzCommit_eq (app : Application Engine) (blocks : List CachedBlock) :
    app.handleByzCommit blocks = some { app with
      engine := (AppEngine.handleByzCommit app.engine blocks).1
      stats := { app.stats with
        bci := highestN app.stats.bci blocks
        totalByzCommittedTxs := app.stats.totalByzCommittedTxs +
          ((AppEngine.handleByzCommit app.engine blocks).2.map (·.length)).sum }
      clientReplyTx := app.clientReplyTx ++ [.byzCommitAck
        (resultMap blocks (AppEngine.handleByzCommit app.engine blocks).2)] } :=
  if_neg (not_not.mpr (LawfulAppEngine.byz_results app.engine blocks).length_eq)

/-- What is acknowledged stands for one of the blocks. -/
theorem resultMap_subset {Result : Type} (blocks : List CachedBlock) (results : List Result) :
    resultMap blocks results ⊆ (blocks.map (·.blockHash)).zip ((blocks.map (·.block.n)).zip results) :=
  (List.pwFilter_sublist _).subset

end Application

end PirateShip
