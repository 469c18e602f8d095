import PirateShip.App.Engine
import PirateShip.Lib.Run

/-! A rollback leaves the engine as if the dropped blocks had never been crash
committed, as long as it does not reach down to the byzantine commit index
while the first block above it has written something. -/

set_option autoImplicit false

namespace PirateShip

open List StepSystem Option

/-!
## What the engine does to versions
-/

section Loop

variable {α β : Type} {commit : KVSState → α → Option (KVSState × β)}

theorem commitEach_append (state) (first second : List α) :
    commitEach commit state (first ++ second) = (commitEach commit state first).bind fun middle =>
        (commitEach commit middle.1 second).map fun final => (final.1, middle.2 ++ final.2) := by
  induction first generalizing state with
  | nil =>
    exact map_id'.symm
  | cons item rest ih =>
    simp only [cons_append, commitEach]
    cases commit state item with
    | none => rfl
    | some pair =>
      simp only [ih]
      cases commitEach commit pair.1 rest with
      | none => rfl
      | some middle => simp only [Option.bind_some, Option.map_map]; rfl

end Loop

namespace KVSState

variable {state next last : KVSState} {inRange : Nat → Prop}
variable {results : List ProtoTransactionOpResult} {bound : Nat}

structure Appends (inRange : Nat → Prop) (state next : KVSState) : Prop where
  bciState : next.bciState = state.bciState
  ciState : ∀ key, ∃ added, next.ciState key = state.ciState key ++ added ∧
    ∀ version ∈ added, inRange version.1

theorem Appends.refl (state) : Appends inRange state state := ⟨rfl, fun _ => ⟨[], (append_nil _).symm, nofun⟩⟩

theorem Appends.trans (first : Appends inRange state next) (second : Appends inRange next last) :
    Appends inRange state last where
  bciState := second.bciState.trans first.bciState
  ciState key := by
    obtain ⟨added, grown, numbers⟩ := first.ciState key
    obtain ⟨more, grownMore, moreNumbers⟩ := second.ciState key
    refine ⟨added ++ more, by rw [grownMore, grown, append_assoc], fun version member => ?_⟩
    exact (mem_append.mp member).elim (numbers version) (moreNumbers version)

theorem Appends.mono {wider} (appends : Appends inRange state next)
    (weaker : ∀ {n}, inRange n → wider n) : Appends wider state next where
  bciState := appends.bciState
  ciState key := by
    obtain ⟨added, grown, numbers⟩ := appends.ciState key
    exact ⟨added, grown, fun version member => weaker (numbers version member)⟩

theorem push_appends (state n key val) : Appends (· = n) state (state.push n key val) := by
  refine ⟨rfl, fun other => ?_⟩
  unfold push
  dsimp only
  split
  · exact ⟨[(n, val)], rfl, by simp⟩
  · exact ⟨[], (append_nil _).symm, nofun⟩

theorem increment_appends {n operands key}
    (done : state.increment n operands key = some (next, results)) : Appends (· = n) state next := by
  obtain ⟨_, -, pair⟩ := map_eq_some_iff.mp done
  cases pair
  exact push_appends _ _ _ _

theorem cas_appends (state n operands) : Appends (· = n) state (state.cas n operands).1 := by
  unfold cas
  dsimp only
  split
  · have pushes (ops : List (Bytes × Bytes × Bytes)) (start : KVSState) :
        Appends (· = n) start (ops.foldl (fun state op => state.push n op.1 op.2.1) start) := by
      induction ops generalizing start with
      | nil => exact .refl _
      | cons op rest ih => exact (push_appends _ _ _ _).trans (ih _)
    exact pushes _ _
  · exact .refl _

theorem crashCommitOp_appends {n op} (done : crashCommitOp n state op = some (next, results)) :
    Appends (· = n) state next := by
  unfold crashCommitOp at done
  split at done
  · split at done
    · cases done
      exact push_appends _ _ _ _
    · cases done
      exact .refl _
  · split at done <;>
    · cases done
      exact .refl _
  · split at done
    · exact increment_appends done
    · exact increment_appends done
    · exact increment_appends done
    · cases done
      exact .refl _
  · split at done
    · cases done
      exact .refl _
    · cases done
      exact cas_appends _ _ _
  · cases done
    exact .refl _

theorem commitEach_appends {α β : Type} {commit : KVSState → α → Option (KVSState × β)}
    {items : List α} {results : List β}
    (each : ∀ item ∈ items, ∀ {state next : KVSState} {result : β},
      commit state item = some (next, result) → Appends inRange state next)
    (done : commitEach commit state items = some (next, results)) : Appends inRange state next := by
  induction items generalizing state results with
  | nil =>
    cases done
    exact .refl _
  | cons item rest ih =>
    obtain ⟨_, result, _, first, second, -⟩ := commitEach_cons_eq_some.mp done
    exact (each item mem_cons_self first).trans (ih (fun item member => each item (mem_cons_of_mem _ member)) second)

theorem crashCommitBlock_appends {block results} (done : crashCommitBlock state block = some (next, results)) :
    Appends (· = block.block.n) state next := by
  refine commitEach_appends (fun tx _ state next _ done => ?_) done
  unfold crashCommitTx at done
  split at done
  · cases done
    exact .refl _
  · obtain ⟨⟨_, _⟩, second, pair⟩ := map_eq_some_iff.mp done
    cases pair
    exact commitEach_appends (fun op _ _ _ _ done => crashCommitOp_appends done) second

theorem crashCommit_appends {blocks results} (within : ∀ block ∈ blocks, inRange block.block.n)
    (done : commitEach crashCommitBlock state blocks = some (next, results)) :
    Appends inRange state next :=
  commitEach_appends (fun block member _ _ _ done =>
    (crashCommitBlock_appends done).mono fun same => same ▸ within block member) done

def VersionsLe (state : KVSState) (bound : Nat) : Prop :=
  ∀ key, ∀ version ∈ state.ciState key, version.1 ≤ bound

variable (versions : state.VersionsLe bound)
include versions

theorem VersionsLe.appends (appends : Appends (· ≤ bound) state next) : next.VersionsLe bound := by
  intro key version member
  obtain ⟨_, grown, numbers⟩ := appends.ciState key
  rw [grown, mem_append] at member
  exact member.elim (versions key version) (numbers version)

theorem VersionsLe.mono {wider} (below : bound ≤ wider) : state.VersionsLe wider :=
  fun key version member => Nat.le_trans (versions key version member) below

theorem cut_of_versionsLe : state.cut bound = state := by
  unfold cut
  congr 1
  funext key
  exact filter_eq_self.mpr fun version member => decide_eq_true (versions key version member)

omit versions

theorem versionsLe_cut (state : KVSState) (bound : Nat) : (state.cut bound).VersionsLe bound :=
  fun _ _ member => of_decide_eq_true (mem_filter.mp member).2

theorem Appends.cut_eq (appends : Appends (bound < ·) state next) :
    next.cut bound = state.cut bound := by
  unfold cut
  rw [appends.bciState]
  congr 1
  funext key
  obtain ⟨added, grown, numbers⟩ := appends.ciState key
  have lost : added.filter (fun version => decide (version.1 ≤ bound)) = [] :=
    filter_eq_nil_iff.mpr fun version member => by simpa using numbers version member
  rw [grown, filter_append, lost, append_nil]

theorem byzCommitBlock_ciState (state : KVSState) (block : CachedBlock) :
    (state.byzCommitBlock block).ciState = state.ciState := by
  unfold byzCommitBlock
  induction (block.block.txList.flatMap fun tx => (tx.onByzantineCommit.map (·.ops)).getD []) generalizing state with
  | nil => rfl
  | cons op rest ih =>
    rw [foldl_cons, ih]
    split <;> rfl

theorem byzCommitBlock_cut (state : KVSState) (block : CachedBlock) (bound : Nat) :
    (state.cut bound).byzCommitBlock block = (state.byzCommitBlock block).cut bound := by
  unfold byzCommitBlock
  induction (block.block.txList.flatMap fun tx => (tx.onByzantineCommit.map (·.ops)).getD []) generalizing state with
  | nil => rfl
  | cons op rest ih =>
    rw [foldl_cons, foldl_cons, ← ih]
    congr 1
    split <;> rfl

theorem foldl_byzCommitBlock_cut (state : KVSState) (blocks : List CachedBlock) (bound : Nat) :
    blocks.foldl byzCommitBlock (state.cut bound) = (blocks.foldl byzCommitBlock state).cut bound := by
  induction blocks generalizing state with
  | nil => rfl
  | cons block rest ih => rw [foldl_cons, foldl_cons, byzCommitBlock_cut, ih]

theorem foldl_byzCommitBlock_ciState (state : KVSState) (blocks : List CachedBlock) :
    (blocks.foldl byzCommitBlock state).ciState = state.ciState := by
  induction blocks generalizing state with
  | nil => rfl
  | cons block rest ih => rw [foldl_cons, ih, byzCommitBlock_ciState]

theorem settleUpTo_cut (state : KVSState) {lastBci} (below : lastBci ≤ bound) :
    (state.cut bound).settleUpTo lastBci = (state.settleUpTo lastBci).cut bound := by
  unfold settleUpTo cut
  congr 1
  · funext key
    rw [List.filter_filter, List.filter_filter]
    exact filter_congr fun version _ => Bool.and_comm _ _
  · funext key
    have same : ((state.ciState key).filter fun version => decide (version.1 ≤ bound)).filter
        (fun version => decide (version.1 ≤ lastBci)) =
        (state.ciState key).filter fun version => decide (version.1 ≤ lastBci) := by
      rw [List.filter_filter]
      refine filter_congr fun version _ => ?_
      rw [← Bool.decide_and, decide_eq_decide]
      omega
    rw [same]

end KVSState

/-!
## Consecutive batches
-/

namespace Application

variable {cmd : AppCommand} {final : Nat × Nat} {m : Nat}

def Numbered (n : Nat) (blocks : List CachedBlock) : Prop :=
  blocks.map (·.block.n) = List.range' (n + 1) blocks.length

instance (n : Nat) (blocks : List CachedBlock) : Decidable (Numbered n blocks) :=
  inferInstanceAs (Decidable (_ = _))

/-- Follow the last executed and the last byzantine committed number; `none` if
a batch does not continue from there. -/
def track : Nat × Nat → AppCommand → Option (Nat × Nat)
  | (executed, bci), .crashCommit blocks =>
    if Numbered executed blocks then some (executed + blocks.length, bci) else none
  | (executed, bci), .byzCommit blocks =>
    if Numbered bci blocks then some (executed, bci + blocks.length) else none
  | (executed, bci), .rollback m => some (min executed (max m bci), bci)
  | position, .newRequestBatch .. => some position

theorem track_crashCommit {executed bci blocks next} : track (executed, bci) (.crashCommit blocks) = some next ↔
      Numbered executed blocks ∧ next = (executed + blocks.length, bci) := by
  simp [track, eq_comm]

theorem track_byzCommit {executed bci blocks next} : track (executed, bci) (.byzCommit blocks) = some next ↔
      Numbered bci blocks ∧ next = (executed, bci + blocks.length) := by
  simp [track, eq_comm]

theorem numbered_cons {n block rest} :
    Numbered n (block :: rest) ↔ block.block.n = n + 1 ∧ Numbered (n + 1) rest := by
  unfold Numbered
  rw [map_cons, length_cons, range'_succ, List.cons.injEq]

theorem Numbered.bounds {n blocks} (numbered : Numbered n blocks) :
    ∀ block ∈ blocks, n < block.block.n ∧ block.block.n ≤ n + blocks.length := by
  intro block member
  have inRange : block.block.n ∈ blocks.map (·.block.n) := mem_map_of_mem member
  rw [numbered, mem_range'_1] at inRange
  omega

theorem Numbered.split {n blocks} (numbered : Numbered n blocks) (last) :
    ∃ low high, blocks = low ++ high ∧ (blocks.filter fun block => decide (block.block.n ≤ last)) = low ∧
      Numbered (min n last) low ∧ min n last + low.length = min (n + blocks.length) last ∧
      (∀ block ∈ high, last < block.block.n) := by
  induction blocks generalizing n with
  | nil => exact ⟨[], [], rfl, rfl, rfl, rfl, nofun⟩
  | cons block rest ih =>
    obtain ⟨number, numbered'⟩ := numbered_cons.mp numbered
    by_cases inside : n + 1 ≤ last
    · obtain ⟨low, high, rfl, kept, _, size, above⟩ := ih numbered'
      refine ⟨block :: low, high, rfl, ?_, numbered_cons.mpr ⟨?_, ?_⟩, ?_, above⟩
      · rw [filter_cons_of_pos (by simpa [number] using inside), kept]
      · omega
      · rwa [show min n last + 1 = min (n + 1) last by omega]
      · simp only [length_cons] at size ⊢
        omega
    · have above : ∀ other ∈ block :: rest, last < other.block.n := by
        intro other member
        have := (numbered.bounds other member).1
        omega
      refine ⟨[], block :: rest, rfl, filter_eq_nil_iff.mpr fun other member => ?_, rfl, ?_, above⟩
      · simpa using above other member
      · simp only [length_nil]
        omega

theorem Numbered.highestN {n blocks} (numbered : Numbered n blocks) : highestN n blocks = n + blocks.length := by
  induction blocks generalizing n with
  | nil => rfl
  | cons block rest ih =>
    obtain ⟨number, numbered⟩ := numbered_cons.mp numbered
    unfold Application.highestN
    rw [foldl_cons, if_pos (by omega), number, length_cons]
    exact (ih numbered).trans (by omega)

theorem Numbered.getLast? {n blocks} (numbered : Numbered n blocks) :
    (blocks.getLast?.map (·.block.n)).getD n = n + blocks.length := by
  rw [← getLast?_map, numbered]
  cases size : blocks.length with
  | zero => rfl
  | succ length =>
    simp only [getLast?_range']
    simp
    omega

/-!
## Dropping blocks from a history
-/

variable {app after kept : Application KVSAppEngine} {executed bci last : Nat}

def keepUpTo (last : Nat) : AppCommand → AppCommand
  | .crashCommit blocks => .crashCommit (blocks.filter fun block => decide (block.block.n ≤ last))
  | cmd => cmd

def isRollback : AppCommand → Bool
  | .rollback _ => true
  | _ => false

theorem handleCrashCommit_engine {blocks} (done : app.handleCrashCommit blocks = some after) :
    ∃ results, commitEach KVSState.crashCommitBlock app.engine.state blocks =
      some (after.engine.state, results) ∧ after.engine.lastBci = app.engine.lastBci ∧
        after.stats.bci = app.stats.bci := by
  obtain ⟨_, _, handled, -, rfl⟩ := handleCrashCommit_eq_some_iff.mp done
  obtain ⟨_, committed, pair⟩ := map_eq_some_iff.mp handled
  cases pair
  exact ⟨_, committed, rfl, rfl⟩

theorem exists_handleCrashCommit {blocks state results}
    (committed : commitEach KVSState.crashCommitBlock app.engine.state blocks = some (state, results)) :
    ∃ after, app.handleCrashCommit blocks = some after ∧ after.engine.state = state ∧
      after.engine.lastBci = app.engine.lastBci := by
  have handled : AppEngine.handleCrashCommit app.engine blocks = some
      ({ app.engine with lastCi := (blocks.getLast?.map (·.block.n)).getD app.engine.lastCi, state }, results) :=
    map_eq_some_iff.mpr ⟨_, committed, rfl⟩
  refine ⟨_, handleCrashCommit_eq_some_iff.mpr ⟨_, _, handled, LawfulAppEngine.crash_results handled, rfl⟩, ?_⟩
  exact ⟨rfl, rfl⟩

structure Tracks (position : Nat × Nat) (app : Application KVSAppEngine) : Prop where
  versions : app.engine.state.VersionsLe position.1
  lastBci : app.engine.lastBci = position.2
  bci : app.stats.bci = position.2

structure Shadows (last : Nat) (position : Nat × Nat) (app kept : Application KVSAppEngine) : Prop where
  tracks : Tracks position app
  state : kept.engine.state = app.engine.state.cut last
  lastBci : kept.engine.lastBci = position.2

theorem Shadows.crashCommit {blocks} (shadows : Shadows last (executed, bci) app kept)
    (numbered : Numbered executed blocks) (done : app.handleCrashCommit blocks = some after) :
    ∃ keptAfter, kept.handleCrashCommit (blocks.filter fun block => decide (block.block.n ≤ last)) =
        some keptAfter ∧ Shadows last (executed + blocks.length, bci) after keptAfter := by
  obtain ⟨_, committed, lastBci, statsBci⟩ := handleCrashCommit_engine done
  obtain ⟨low, _, split, filtered, _, _, above⟩ := numbered.split last
  have versions : after.engine.state.VersionsLe (executed + blocks.length) :=
    (shadows.tracks.versions.mono (Nat.le_add_right _ _)).appends
      (KVSState.crashCommit_appends (fun block member => (numbered.bounds block member).2) committed)
  rw [split] at committed
  rw [commitEach_append] at committed
  obtain ⟨⟨middle, early⟩, before, rest⟩ := bind_eq_some_iff.mp committed
  obtain ⟨⟨_, _⟩, behind, pair⟩ := map_eq_some_iff.mp rest
  cases pair
  have dropped : after.engine.state.cut last = middle.cut last := (KVSState.crashCommit_appends above behind).cut_eq
  have replayed : commitEach KVSState.crashCommitBlock kept.engine.state low =
      some (after.engine.state.cut last, early) := by
    rw [shadows.state, dropped]
    by_cases inside : executed ≤ last
    · have below : ∀ block ∈ low, block.block.n ≤ last := fun block member => by
        rw [← filtered] at member
        exact of_decide_eq_true (mem_filter.mp member).2
      have versions := shadows.tracks.versions.mono inside
      have reached := versions.appends (KVSState.crashCommit_appends below before)
      rw [KVSState.cut_of_versionsLe versions, KVSState.cut_of_versionsLe reached]
      exact before
    · obtain rfl : low = [] := length_eq_zero_iff.mp (by omega)
      cases before
      rfl
  rw [filtered]
  obtain ⟨keptAfter, keptDone, keptState, keptLastBci⟩ := exists_handleCrashCommit replayed
  exact ⟨keptAfter, keptDone, ⟨versions, lastBci.trans shadows.tracks.lastBci,
    statsBci.trans shadows.tracks.bci⟩, keptState, keptLastBci.trans shadows.lastBci⟩

theorem Shadows.byzCommit {blocks} (shadows : Shadows last (executed, bci) app kept)
    (numbered : Numbered bci blocks) (below : bci + blocks.length ≤ last)
    (done : app.handleByzCommit blocks = some after) :
    ∃ keptAfter, kept.handleByzCommit blocks = some keptAfter ∧
      Shadows last (executed, bci + blocks.length) after keptAfter := by
  obtain rfl := some.inj ((handleByzCommit_eq app blocks).symm.trans done)
  have lastBci : (blocks.getLast?.map (·.block.n)).getD app.engine.lastBci = bci + blocks.length := by
    rw [shadows.tracks.lastBci]
    exact numbered.getLast?
  have keptLastBci : (blocks.getLast?.map (·.block.n)).getD kept.engine.lastBci = bci + blocks.length := by
    rw [shadows.lastBci]
    exact numbered.getLast?
  refine ⟨_, handleByzCommit_eq kept blocks, ⟨fun key version member => ?_, lastBci, ?_⟩, ?_, keptLastBci⟩
  · have held := (mem_filter.mp member).1
    rw [KVSState.foldl_byzCommitBlock_ciState] at held
    exact shadows.tracks.versions key version held
  · change highestN app.stats.bci blocks = _
    rw [shadows.tracks.bci, numbered.highestN]
  · change (blocks.foldl KVSState.byzCommitBlock kept.engine.state).settleUpTo _ =
      ((blocks.foldl KVSState.byzCommitBlock app.engine.state).settleUpTo _).cut last
    rw [lastBci, keptLastBci, shadows.state, KVSState.foldl_byzCommitBlock_cut, KVSState.settleUpTo_cut _ below]

theorem Shadows.step {position next} (shadows : Shadows last position app kept) (forward : isRollback cmd = false)
    (tracked : track position cmd = some next) (below : next.2 ≤ last)
    (done : app.handleStagingCommand cmd = some after) :
    ∃ keptAfter, kept.handleStagingCommand (keepUpTo last cmd) = some keptAfter ∧
      track (min position.1 last, position.2) (keepUpTo last cmd) = some (min next.1 last, next.2) ∧
      Shadows last next after keptAfter := by
  obtain ⟨_, _⟩ := position
  cases cmd with
  | newRequestBatch =>
    cases tracked
    cases done
    exact ⟨_, rfl, rfl, ⟨shadows.tracks.versions, shadows.tracks.lastBci, shadows.tracks.bci⟩,
      shadows.state, shadows.lastBci⟩
  | crashCommit blocks =>
    obtain ⟨numbered, rfl⟩ := track_crashCommit.mp tracked
    obtain ⟨keptAfter, keptDone, shadows⟩ := shadows.crashCommit numbered done
    obtain ⟨_, -, -, filtered, lowNumbered, size, -⟩ := numbered.split last
    refine ⟨keptAfter, keptDone, track_crashCommit.mpr ?_, shadows⟩
    rw [filtered, size]
    exact ⟨lowNumbered, rfl⟩
  | byzCommit blocks =>
    obtain ⟨numbered, rfl⟩ := track_byzCommit.mp tracked
    obtain ⟨keptAfter, keptDone, shadows⟩ := shadows.byzCommit numbered below done
    exact ⟨keptAfter, keptDone, track_byzCommit.mpr ⟨numbered, rfl⟩, shadows⟩
  | rollback => cases forward

theorem track_bci_le {position next} (tracked : track position cmd = some next) : position.2 ≤ next.2 := by
  obtain ⟨_, _⟩ := position
  cases cmd with
  | crashCommit blocks =>
    obtain ⟨-, rfl⟩ := track_crashCommit.mp tracked
    exact Nat.le_refl _
  | byzCommit blocks =>
    obtain ⟨-, rfl⟩ := track_byzCommit.mp tracked
    exact Nat.le_add_right _ _
  | newRequestBatch | rollback =>
    cases tracked
    exact Nat.le_refl _

theorem runAll_track_bci_le {commands position}
    (tracked : runAll track position commands = some final) : position.2 ≤ final.2 := by
  induction commands generalizing position with
  | nil =>
    cases tracked
    exact Nat.le_refl _
  | cons cmd rest ih =>
    obtain ⟨_, first, tracked⟩ := bind_eq_some_iff.mp tracked
    exact Nat.le_trans (track_bci_le first) (ih tracked)

theorem Shadows.run {commands position} (shadows : Shadows last position app kept)
    (forward : ∀ cmd ∈ commands, isRollback cmd = false) (tracked : runAll track position commands = some final)
    (below : final.2 ≤ last) (ran : runAll handleStagingCommand app commands = some after) :
    ∃ keptAfter, runAll handleStagingCommand kept (commands.map (keepUpTo last)) = some keptAfter ∧
      runAll track (min position.1 last, position.2) (commands.map (keepUpTo last)) =
        some (min final.1 last, final.2) ∧ Shadows last final after keptAfter := by
  induction commands generalizing app kept position with
  | nil =>
    cases tracked
    cases ran
    exact ⟨kept, rfl, rfl, shadows⟩
  | cons cmd rest ih =>
    obtain ⟨_, first, tracked⟩ := bind_eq_some_iff.mp tracked
    obtain ⟨_, done, ran⟩ := bind_eq_some_iff.mp ran
    obtain ⟨keptMiddle, keptDone, keptTracked, shadows⟩ := shadows.step
      (forward cmd mem_cons_self) first (Nat.le_trans (runAll_track_bci_le tracked) below) done
    obtain ⟨keptAfter, keptRan, keptFinal, shadows⟩ :=
      ih shadows (fun cmd member => forward cmd (mem_cons_of_mem _ member)) tracked ran
    exact ⟨keptAfter, bind_eq_some_iff.mpr ⟨keptMiddle, keptDone, keptRan⟩,
      bind_eq_some_iff.mpr ⟨_, keptTracked, keptFinal⟩, shadows⟩

/-!
## Histories with rollbacks
-/

/-- A rollback takes the blocks above it out of the history before it, down to
what is byzantine committed. -/
def liveStep : List AppCommand × Nat → AppCommand → List AppCommand × Nat
  | (history, bci), .rollback m => (history.map (keepUpTo (max m bci)), bci)
  | (history, bci), .byzCommit blocks => (history ++ [.byzCommit blocks], highestN bci blocks)
  | (history, bci), cmd => (history ++ [cmd], bci)

/-- The history as it would be if only the blocks that no rollback took back had
ever been crash committed, and the byzantine commit index at its end. -/
def live (commands : List AppCommand) : List AppCommand × Nat := commands.foldl liveStep ([], 0)

/-- The engine is where the code brings it on this history alone. -/
def Exact (features : Features) (history : List AppCommand × Nat) (app : Application KVSAppEngine) :
    Prop :=
  ∃ ideal : Application KVSAppEngine, runAll handleStagingCommand (new features) history.1 = some ideal ∧
    ideal.engine.state = app.engine.state

theorem Exact.read {features history} (exact : Exact features history app) (key) :
    (runAll handleStagingCommand (new features : Application KVSAppEngine) history.1).bind
      (·.engine.state.read key) = app.engine.state.read key := by
  obtain ⟨_, ran, same⟩ := exact
  rw [ran, bind_some, same]

/-- After each rollback among the commands the engine is where the live history
up to there leads. -/
def RollbacksExact (features : Features) (commands : List AppCommand) : Prop :=
  ∀ before m rest app, commands = before ++ .rollback m :: rest →
    runAll handleStagingCommand (new features) (before ++ [.rollback m]) = some app →
      Exact features (live (before ++ [.rollback m])) app

/-- The rollback stops above the byzantine commit index, or the first block above
it has written nothing. -/
def RollbackOk (app : Application KVSAppEngine) : AppCommand → Prop
  | .rollback m => app.stats.bci < m ∨
      ∀ key, ∀ version ∈ app.engine.state.ciState key, version.1 ≠ app.stats.bci + 1
  | _ => True

structure LiveInv (features : Features) (history : List AppCommand × Nat) (position : Nat × Nat)
    (app : Application KVSAppEngine) : Prop where
  tracks : Tracks position app
  bci : history.2 = position.2
  forward : ∀ cmd ∈ history.1, isRollback cmd = false
  tracked : runAll track (0, 0) history.1 = some position
  ideal : ∃ ideal : Application KVSAppEngine, runAll handleStagingCommand (new features) history.1 = some ideal ∧
    ideal.engine.state = app.engine.state ∧ ideal.engine.lastBci = position.2

variable {features : Features} {history : List AppCommand × Nat} {position next : Nat × Nat}

theorem tracks_new (features) : Tracks (0, 0) (new features) := by
  refine ⟨nofun, rfl, ?_⟩
  unfold new LogStats.new
  split <;> rfl

theorem LiveInv.exists_ideal (inv : LiveInv features history position app) (m) :
    ∃ ideal : Application KVSAppEngine,
      runAll handleStagingCommand (new features) (liveStep history (.rollback m)).1 = some ideal ∧
      ideal.engine.state = app.engine.state.cut (max m position.2) ∧
      ideal.engine.lastBci = position.2 ∧
      runAll track (0, 0) (liveStep history (.rollback m)).1 =
        some (min position.1 (max m position.2), position.2) := by
  obtain ⟨ideal, ran, same, -⟩ := inv.ideal
  have start : Shadows (max m position.2) (0, 0) (new features) (new features) := ⟨tracks_new features, rfl, rfl⟩
  obtain ⟨kept, keptRan, keptTracked, shadows⟩ := start.run inv.forward inv.tracked (Nat.le_max_right _ _) ran
  rw [liveStep, inv.bci]
  exact ⟨kept, keptRan, same ▸ shadows.state, shadows.lastBci, keptTracked⟩

theorem liveStep_forward (bci : history.2 = position.2)
    (forward : isRollback cmd = false) (tracked : track position cmd = some next) :
    position.1 ≤ next.1 ∧ keepUpTo (max next.1 next.2) cmd = cmd ∧
      liveStep history cmd = (history.1 ++ [cmd], next.2) := by
  obtain ⟨_, known⟩ := history
  obtain ⟨_, bciBefore⟩ := position
  obtain rfl : known = bciBefore := bci
  cases cmd with
  | newRequestBatch =>
    cases tracked
    exact ⟨Nat.le_refl _, rfl, rfl⟩
  | crashCommit blocks =>
    obtain ⟨numbered, rfl⟩ := track_crashCommit.mp tracked
    refine ⟨Nat.le_add_right _ _, ?_, rfl⟩
    rw [keepUpTo, filter_eq_self.mpr fun block member => ?_]
    have := (numbered.bounds block member).2
    simp only [decide_eq_true_eq]
    omega
  | byzCommit blocks =>
    obtain ⟨numbered, rfl⟩ := track_byzCommit.mp tracked
    exact ⟨Nat.le_refl _, rfl, by rw [liveStep, numbered.highestN]⟩
  | rollback => cases forward

theorem LiveInv.forwardStep (inv : LiveInv features history position app)
    (forward : isRollback cmd = false) (tracked : track position cmd = some next)
    (done : app.handleStagingCommand cmd = some after) :
    LiveInv features (liveStep history cmd) next after := by
  obtain ⟨ideal, ran, same, lastBci⟩ := inv.ideal
  obtain ⟨last, isLast⟩ : ∃ last, last = max next.1 next.2 := ⟨_, rfl⟩
  have inRange : position.1 ≤ next.1 ∧ keepUpTo last cmd = cmd ∧
      liveStep history cmd = (history.1 ++ [cmd], next.2) := by
    rw [isLast]
    exact liveStep_forward inv.bci forward tracked
  have shadows : Shadows last position app ideal :=
    ⟨inv.tracks, by rw [same, KVSState.cut_of_versionsLe (inv.tracks.versions.mono (by omega))], lastBci⟩
  obtain ⟨idealAfter, idealDone, -, shadows⟩ := shadows.step forward tracked (by omega) done
  rw [inRange.2.1] at idealDone
  rw [inRange.2.2]
  refine ⟨shadows.tracks, rfl, fun other member => ?_, ?_, idealAfter, ?_, ?_, shadows.lastBci⟩
  · rcases mem_append.mp member with member | member
    · exact inv.forward other member
    · exact mem_singleton.mp member ▸ forward
  · rw [runAll_append, inv.tracked, bind_some, runAll_singleton, tracked]
  · rw [runAll_append, ran, bind_some, runAll_singleton, idealDone]
  · rw [shadows.state, KVSState.cut_of_versionsLe (shadows.tracks.versions.mono (by omega))]

theorem cut_rollbackTarget (bci : app.stats.bci = position.2) (ok : RollbackOk app (.rollback m)) :
    app.engine.state.cut (app.rollbackTarget m) = app.engine.state.cut (max m position.2) := by
  unfold rollbackTarget
  split
  · next low =>
    have unwritten := ok.resolve_left (by omega)
    unfold KVSState.cut
    congr 1
    funext key
    refine filter_congr fun version member => ?_
    have := unwritten key version member
    rw [decide_eq_decide]
    omega
  · next _ => rw [Nat.max_eq_left (by omega)]

variable (inv : LiveInv features history position app)
include inv

theorem LiveInv.rollbackStep (ok : RollbackOk app (.rollback m)) :
    LiveInv features (liveStep history (.rollback m)) (min position.1 (max m position.2), position.2)
      (app.handleRollback m) := by
  obtain ⟨ideal, ran, state, lastBci, tracked⟩ := inv.exists_ideal m
  have cut := cut_rollbackTarget inv.tracks.bci ok
  refine ⟨⟨fun key version member => ?_, inv.tracks.lastBci, inv.tracks.bci⟩, inv.bci,
    fun cmd member => ?_, tracked, ideal, ran, state.trans cut.symm, lastBci⟩
  · change version ∈ (app.engine.state.cut (app.rollbackTarget m)).ciState key at member
    rw [cut] at member
    have below := KVSState.versionsLe_cut _ _ key version member
    have known := inv.tracks.versions key version (mem_filter.mp member).1
    exact Nat.le_min.mpr ⟨known, below⟩
  · obtain ⟨other, held, rfl⟩ := mem_map.mp member
    have forward := inv.forward other held
    cases other <;> exact forward

theorem LiveInv.exact_iff (m) : Exact features (liveStep history (.rollback m)) (app.handleRollback m) ↔
      RollbackOk app (.rollback m) := by
  obtain ⟨ideal, ran, state, -⟩ := inv.exists_ideal m
  constructor
  · rintro ⟨other, otherRan, same⟩
    obtain rfl : ideal = other := some.inj (ran.symm.trans otherRan)
    refine or_iff_not_imp_left.mpr fun low key version member number => ?_
    -- the version of the block right above the index survives in the code only
    have kept : version ∈ (app.engine.state.cut (app.rollbackTarget m)).ciState key := by
      refine mem_filter.mpr ⟨member, ?_⟩
      rw [rollbackTarget, if_pos (by omega), number]
      exact decide_eq_true (Nat.le_refl _)
    change ideal.engine.state = app.engine.state.cut (app.rollbackTarget m) at same
    rw [← same, state] at kept
    have below := KVSState.versionsLe_cut _ _ key version kept
    have := inv.tracks.bci
    omega
  · intro ok
    exact ⟨ideal, ran, state.trans (cut_rollbackTarget inv.tracks.bci ok).symm⟩

theorem LiveInv.step (ok : RollbackOk app cmd) (tracked : track position cmd = some next)
    (done : app.handleStagingCommand cmd = some after) :
    LiveInv features (liveStep history cmd) next after := by
  cases isBack : isRollback cmd with
  | false => exact inv.forwardStep isBack tracked done
  | true =>
    cases cmd with
    | rollback m =>
      cases tracked
      cases done
      exact inv.rollbackStep ok
    | newRequestBatch | crashCommit | byzCommit => cases isBack

theorem LiveInv.run {commands} (tracked : runAll track position commands = some next)
    (ok : AllAllowed handleStagingCommand RollbackOk app commands)
    (ran : runAll handleStagingCommand app commands = some after) :
    LiveInv features (commands.foldl liveStep history) next after := by
  induction commands generalizing history position app with
  | nil =>
    cases tracked
    cases ran
    exact inv
  | cons cmd rest ih =>
    obtain ⟨_, first, tracked⟩ := bind_eq_some_iff.mp tracked
    obtain ⟨middle, done, ran⟩ := bind_eq_some_iff.mp ran
    exact ih (inv.step ok.1 first done) tracked (ok.2 middle done) ran

theorem LiveInv.allAllowed {commands} (tracked : runAll track position commands = some next)
    (exact : ∀ before m rest after, commands = before ++ .rollback m :: rest →
      runAll handleStagingCommand app (before ++ [.rollback m]) = some after →
        Exact features ((before ++ [.rollback m]).foldl liveStep history) after) :
    AllAllowed handleStagingCommand RollbackOk app commands := by
  induction commands generalizing history position app with
  | nil => trivial
  | cons cmd rest ih =>
    obtain ⟨_, first, tracked⟩ := bind_eq_some_iff.mp tracked
    have ok : RollbackOk app cmd := by
      cases cmd with
      | rollback m => exact (inv.exact_iff m).mp (exact [] m rest _ rfl rfl)
      | newRequestBatch | crashCommit | byzCommit => trivial
    refine ⟨ok, fun middle done => ih (inv.step ok first done) tracked ?_⟩
    rintro before m tail after rfl ran
    exact exact (cmd :: before) m tail after rfl (bind_eq_some_iff.mpr ⟨middle, done, ran⟩)

omit inv

theorem liveInv_new (features) : LiveInv features ([], 0) (0, 0) (new features) :=
  ⟨tracks_new features, rfl, nofun, rfl, new features, rfl, rfl, rfl⟩

/-- In a history of consecutive batches, every rollback is exact if and only if
each one stops above the byzantine commit index or finds the first block above it
without a write; what is committed later, over the blocks taken back too, then
leads where the new chain alone does. -/
theorem rollbacksExact_iff (features : Features) (commands : List AppCommand)
    (consecutive : runAll track (0, 0) commands = some position)
    (ran : runAll handleStagingCommand (new features) commands = some app) :
    (RollbacksExact features commands ↔
      AllAllowed handleStagingCommand RollbackOk (new features) commands) ∧
    (AllAllowed handleStagingCommand RollbackOk (new features) commands →
      Exact features (live commands) app) := by
  have reaches {commands : List AppCommand} {position : Nat × Nat} {app : Application KVSAppEngine}
      (consecutive : runAll track (0, 0) commands = some position)
      (ran : runAll handleStagingCommand (new features) commands = some app)
      (ok : AllAllowed handleStagingCommand RollbackOk (new features) commands) :
      Exact features (live commands) app := by
    obtain ⟨ideal, ran, same, -⟩ := ((liveInv_new features).run consecutive ok ran).ideal
    exact ⟨ideal, ran, same⟩
  refine ⟨⟨fun exact => (liveInv_new features).allAllowed consecutive exact, fun ok => ?_⟩,
    reaches consecutive ran⟩
  rintro before m rest app rfl ran
  rw [show before ++ AppCommand.rollback m :: rest = (before ++ [.rollback m]) ++ rest by simp]
    at consecutive ok
  obtain ⟨_, consecutive, -⟩ := exists_runAll_of_append _ consecutive
  exact reaches consecutive ran ok.of_append

def writingBlock (n : Nat) (key val : Bytes) : CachedBlock where
  block :=
    { txList := [{ onCrashCommit := some ⟨[{ opType := 2, operands := [key, val] }]⟩ }]
      n, view := 1, viewIsStable := true, configNum := 1 }
  blockSer := []
  blockHash := defaultHash

/-- Block 1 is taken back before anything is byzantine committed, and its value
is still read, also after a block 1 without it is committed. -/
theorem first_block_survives_rollback :
    let commands := [AppCommand.crashCommit [writingBlock 1 [7] [8]], .rollback 0,
      .crashCommit [writingBlock 1 [1] [2]]]
    (runAll track (0, 0) commands).isSome ∧
    (runAll handleStagingCommand (new {} : Application KVSAppEngine) commands).bind
        (·.engine.state.read [7]) = some [8] ∧
    (runAll handleStagingCommand (new {} : Application KVSAppEngine) (live commands).1).bind
        (·.engine.state.read [7]) = none ∧
    ¬ RollbacksExact {} commands := by
  refine ⟨by decide, by decide, by decide, fun exact => ?_⟩
  have reads := (exact [.crashCommit [writingBlock 1 [7] [8]]] 0 _ _ rfl rfl).read [7]
  revert reads
  decide

theorem rollbacksExact_above_first_block :
    let commands := [AppCommand.crashCommit [writingBlock 1 [7] [8], writingBlock 2 [7] [9]], .rollback 1,
      .crashCommit [writingBlock 2 [1] [2]]]
    RollbacksExact {} commands ∧ ∃ app, runAll handleStagingCommand (new {}) commands = some app ∧
      Exact {} (live commands) app := by
  have ok : AllAllowed handleStagingCommand RollbackOk (new {})
      [.crashCommit [writingBlock 1 [7] [8], writingBlock 2 [7] [9]], .rollback 1,
        .crashCommit [writingBlock 2 [1] [2]]] := by
    refine ⟨trivial, fun after done => ⟨.inl ?_, fun _ _ => ⟨trivial, fun _ _ => trivial⟩⟩⟩
    have done : handleCrashCommit (new {}) [writingBlock 1 [7] [8], writingBlock 2 [7] [9]] = some after := done
    obtain ⟨-, -, -, bci⟩ := handleCrashCommit_engine done
    rw [bci]
    decide
  have consecutive : runAll track (0, 0)
      [.crashCommit [writingBlock 1 [7] [8], writingBlock 2 [7] [9]], .rollback 1,
        .crashCommit [writingBlock 2 [1] [2]]] = some (2, 0) := by decide
  have exact := rollbacksExact_iff {} _ consecutive rfl
  exact ⟨exact.1.mpr ok, _, rfl, exact.2 ok⟩

end Application

end PirateShip
