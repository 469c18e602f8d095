import PirateShip.Svr3.Guessing

/-! What the answers tell about a pin. Two runs over stores that differ in the pin
of one user go alike as long as no pin is right in one of them only. -/

set_option autoImplicit false

namespace PirateShip.Svr3

open List Contrib StepSystem Journal Option
open Smallbank (i64FromBeBytes i64ToBeBytes)

/-!
## Stores that differ at one key
-/

structure AlikeStores (key : Bytes) (first second : KVSState) : Prop where
  reads {other : Bytes} : other ≠ key → first.read other = second.read other
  present : (first.read key).isSome = (second.read key).isSome

section

variable {key : Bytes} {first second : KVSState}

variable (alike : AlikeStores key first second)
include alike

theorem AlikeStores.isSome (other) : (first.read other).isSome = (second.read other).isSome := by
  by_cases same : other = key
  · exact same ▸ alike.present
  · rw [alike.reads same]

theorem AlikeStores.push (n written val) :
    AlikeStores key (first.push n written val) (second.push n written val) where
  reads apart := by
    rw [KVSState.read_push, KVSState.read_push, alike.reads apart]
  present := by
    rw [KVSState.read_push, KVSState.read_push]
    split
    · rfl
    · exact alike.present

theorem AlikeStores.increment {n counted firstAfter secondAfter firstResults secondResults} (apart : counted ≠ key)
    (incremented_first : first.increment n [counted] counted = some (firstAfter, firstResults))
    (incremented_second : second.increment n [counted] counted = some (secondAfter, secondResults)) :
    AlikeStores key firstAfter secondAfter ∧ firstResults = secondResults := by
  obtain ⟨_, found_first, same_first⟩ := map_eq_some_iff.mp incremented_first
  obtain ⟨_, found_second, same_second⟩ := map_eq_some_iff.mp incremented_second
  rw [alike.reads apart] at found_first
  obtain rfl := some.inj (found_first.symm.trans found_second)
  obtain ⟨rfl, rfl⟩ := Prod.mk.inj same_first
  obtain ⟨rfl, rfl⟩ := Prod.mk.inj same_second
  exact ⟨alike.push n counted _, rfl⟩

theorem AlikeStores.cas {n swapped swapVal compareVal} (apart : swapped ≠ key) :
    AlikeStores key (first.cas n [swapped, swapVal, compareVal]).1 (second.cas n [swapped, swapVal, compareVal]).1 ∧
      (first.cas n [swapped, swapVal, compareVal]).2 = (second.cas n [swapped, swapVal, compareVal]).2 := by
  simp only [KVSState.cas, KVSState.casOps, map_cons, map_nil, alike.reads apart]
  refine ⟨?_, trivial⟩
  split
  · exact alike.push n swapped swapVal
  · exact alike

end

/-!
## Two runs
-/

structure External (username : String) : Prop where
  retries : (bytesOf "retries:").isPrefixOf (bytesOf username) = false
  version : (bytesOf "version:").isPrefixOf (bytesOf username) = false
  user : username ≠ "user"

theorem External.retriesKey {username} (external : External username) (other) :
    retriesKey other ≠ bytesOf username := by
  intro same
  have leading : (bytesOf "retries:").isPrefixOf (bytesOf username) = true := by
    rw [← same]
    exact isPrefixOf_iff_prefix.mpr (prefix_append _ _)
  exact Bool.noConfusion (leading.symm.trans external.retries)

theorem External.versionKey {username} (external : External username) (other) :
    versionKey other ≠ bytesOf username := by
  intro same
  have leading : (bytesOf "version:").isPrefixOf (bytesOf username) = true := by
    rw [← same]
    exact isPrefixOf_iff_prefix.mpr (prefix_append _ _)
  exact Bool.noConfusion (leading.symm.trans external.version)

/-- The requests stand alike, over stores that differ in the pin of one user. -/
structure Alike (username : String) (pair : System Phase Journal × System Phase Journal) : Prop where
  tasks : pair.1.tasks = pair.2.tasks
  late : pair.1.late = pair.2.late
  stores : AlikeStores (bytesOf username) pair.1.engine.state pair.2.engine.state

def SameOutcome (crates : Crates) (username : String) (first second : KVSState) : Phase → Prop
  | .tokenCheck payload => payload.username = username →
    (WrongPin crates first payload ↔ WrongPin crates second payload)
  | _ => True

def SameOutcomes (crates : Crates) (username : String) (pair : System Phase Journal × System Phase Journal) :
    Event → Prop
  | .reply i _ _ => ∀ task ∈ pair.1.tasks[i]?,
    SameOutcome crates username pair.1.engine.state pair.2.engine.state task.phase
  | .late k _ => ∀ entry ∈ pair.1.late[k]?,
    SameOutcome crates username pair.1.engine.state pair.2.engine.state entry.2
  | _ => True

instance decidableSameOutcome (crates : Crates) (username : String) (first second : KVSState) :
    ∀ phase, Decidable (SameOutcome crates username first second phase)
  | .tokenCheck payload => inferInstanceAs (Decidable (payload.username = username →
    (WrongPin crates first payload ↔ WrongPin crates second payload)))
  | .tokenRead _ | .tokenIncrement _ | .authCreate _ _ | .authCheck _ _ | .authList _ | .authUpdate _ _
  | .tokenReset _ _ | .tokenVersion _ | .answered _ | .panicked => isTrue trivial

instance decidableSameOutcomes (crates : Crates) (username : String)
    (pair : System Phase Journal × System Phase Journal) : ∀ event,
      Decidable (SameOutcomes crates username pair event)
  | .reply i _ _ => inferInstanceAs (Decidable (∀ task ∈ pair.1.tasks[i]?,
    SameOutcome crates username pair.1.engine.state pair.2.engine.state task.phase))
  | .late k _ => inferInstanceAs (Decidable (∀ entry ∈ pair.1.late[k]?,
    SameOutcome crates username pair.1.engine.state pair.2.engine.state entry.2))
  | .probed _ | .lose _ _ => isTrue trivial

section

variable {crates : Crates} {username : String} {first second firstAfter secondAfter : KVSAppEngine} {phase : Phase}
  {tx : Transaction} {blockN : Nat} {firstResult secondResult : ProtoTransactionResult}

theorem onValues_check_alike {payload first second} (alike : AlikeStores (bytesOf username) first second)
    (outcome : SameOutcome crates username first second (.tokenCheck payload)) :
    (Phase.tokenCheck payload).onValues crates (first.read (bytesOf payload.username)).toList =
      (Phase.tokenCheck payload).onValues crates (second.read (bytesOf payload.username)).toList := by
  by_cases same : payload.username = username
  · have iff := outcome same
    by_cases wrong : WrongPin crates first payload
    · rw [onValues_wrong wrong, onValues_wrong (iff.mp wrong)]
    · rw [onValues_right wrong, onValues_right (iff.not.mp wrong)]
      have present := alike.isSome (bytesOf payload.username)
      cases stored : first.read (bytesOf payload.username) <;>
        cases other : second.read (bytesOf payload.username) <;> simp_all
  · rw [alike.reads (bytesOf_injective.not.mpr same)]

theorem AlikeStores.run_read {key read} (alike : AlikeStores key first.state second.state)
    (ran_first : Transaction.run ⟨[readOp read], true⟩ blockN first = some (firstAfter, firstResult))
    (ran_second : Transaction.run ⟨[readOp read], true⟩ blockN second = some (secondAfter, secondResult)) :
    AlikeStores key firstAfter.state secondAfter.state ∧ values firstResult = (first.state.read read).toList ∧
      values secondResult = (second.state.read read).toList := by
  obtain ⟨rfl, valued_first⟩ := Transaction.of_run_read ran_first
  obtain ⟨rfl, valued_second⟩ := Transaction.of_run_read ran_second
  exact ⟨alike, valued_first, valued_second⟩

theorem AlikeStores.run_increment {key counted} (alike : AlikeStores key first.state second.state)
    (apart : counted ≠ key)
    (ran_first : Transaction.run ⟨[incrementOp counted], false⟩ blockN first = some (firstAfter, firstResult))
    (ran_second : Transaction.run ⟨[incrementOp counted], false⟩ blockN second = some (secondAfter, secondResult)) :
    AlikeStores key firstAfter.state secondAfter.state ∧ firstResult = secondResult := by
  obtain ⟨alike_after, same⟩ := alike.increment apart (Transaction.of_run_increment ran_first)
    (Transaction.of_run_increment ran_second)
  exact ⟨alike_after, congrArg ProtoTransactionResult.mk same⟩

theorem AlikeStores.run (alike : AlikeStores (bytesOf username) first.state second.state)
    (external : External username)
    (outcome : SameOutcome crates username first.state second.state phase) (sent : phase.pending crates = some tx)
    (ran_first : tx.run blockN first = some (firstAfter, firstResult))
    (ran_second : tx.run blockN second = some (secondAfter, secondResult)) :
    AlikeStores (bytesOf username) firstAfter.state secondAfter.state ∧
      phase.onValues crates (values firstResult) = phase.onValues crates (values secondResult) ∧
      (tx.isRead = false → firstResult = secondResult) := by
  cases phase with
  | authCheck name pin =>
    obtain rfl := some.inj sent
    obtain ⟨alike_after, valued_first, valued_second⟩ := alike.run_read ran_first ran_second
    refine ⟨alike_after, ?_, Bool.noConfusion⟩
    have present := alike.isSome (bytesOf name)
    cases stored : first.state.read (bytesOf name) <;>
      cases other : second.state.read (bytesOf name) <;> simp_all [Phase.onValues]
  | authList name =>
    obtain rfl := some.inj sent
    obtain ⟨alike_after, valued_first, valued_second⟩ := alike.run_read ran_first ran_second
    have apart : bytesOf "user" ≠ bytesOf username := bytesOf_injective.not.mpr external.user.symm
    rw [valued_first, valued_second, alike.reads apart]
    exact ⟨alike_after, rfl, Bool.noConfusion⟩
  | tokenCheck payload =>
    obtain rfl := some.inj sent
    obtain ⟨alike_after, valued_first, valued_second⟩ := alike.run_read ran_first ran_second
    rw [valued_first, valued_second]
    exact ⟨alike_after, onValues_check_alike alike outcome, Bool.noConfusion⟩
  | tokenRead payload =>
    obtain rfl := some.inj sent
    obtain ⟨alike_after, valued_first, valued_second⟩ := alike.run_read ran_first ran_second
    rw [valued_first, valued_second, alike.reads (external.retriesKey _)]
    exact ⟨alike_after, rfl, Bool.noConfusion⟩
  | authCreate name pin | authUpdate name users =>
    obtain rfl := some.inj sent
    obtain ⟨rfl, rfl⟩ := Prod.mk.inj (some.inj ran_first)
    obtain ⟨rfl, rfl⟩ := Prod.mk.inj (some.inj ran_second)
    exact ⟨alike.push _ _ _, rfl, fun _ => rfl⟩
  | tokenIncrement payload =>
    obtain rfl := some.inj sent
    obtain ⟨alike_after, rfl⟩ := alike.run_increment (external.retriesKey _) ran_first ran_second
    exact ⟨alike_after, rfl, fun _ => rfl⟩
  | tokenReset payload totalGuesses =>
    obtain rfl := some.inj sent
    rw [Transaction.run_cas] at ran_first ran_second
    obtain ⟨rfl, rfl⟩ := Prod.mk.inj (some.inj ran_first)
    obtain ⟨rfl, rfl⟩ := Prod.mk.inj (some.inj ran_second)
    obtain ⟨alike_after, same⟩ := alike.cas (external.retriesKey payload.username) (n := blockN)
    exact ⟨alike_after, rfl, fun _ => congrArg ProtoTransactionResult.mk same⟩
  | tokenVersion payload =>
    obtain rfl := some.inj sent
    by_cases increments : payload.incrementVersion = true
    · rw [if_pos increments] at ran_first ran_second
      obtain ⟨alike_after, rfl⟩ := alike.run_increment (external.versionKey _) ran_first ran_second
      exact ⟨alike_after, rfl, fun _ => rfl⟩
    · rw [if_neg increments] at ran_first ran_second ⊢
      obtain ⟨alike_after, valued_first, valued_second⟩ := alike.run_read ran_first ran_second
      rw [valued_first, valued_second, alike.reads (external.versionKey _)]
      exact ⟨alike_after, rfl, Bool.noConfusion⟩
  | answered response | panicked => cases sent

end

section

variable {crates : Crates} {username : String} {pair after : System Phase Journal × System Phase Journal}

theorem Alike.reply {i blockN probe} (alike : Alike username pair) (external : External username)
    (outcomes : SameOutcomes crates username pair (.reply i blockN probe))
    (first : (frontend crates).step pair.1 (.reply i blockN probe) = some after.1)
    (second : (frontend crates).step pair.2 (.reply i blockN probe) = some after.2) : Alike username after := by
  obtain ⟨phase, _, result_first, waits, executed_first, after_first⟩ := Frontend.of_step_reply first
  obtain ⟨_, _, result_second, waits_second, executed_second, after_second⟩ := Frontend.of_step_reply second
  rw [← alike.tasks, waits, some.injEq, Task.waiting.injEq] at waits_second
  obtain rfl := waits_second
  obtain ⟨_, _, sent, taken_first, rfl⟩ := Frontend.of_execute executed_first
  obtain ⟨_, _, sent_second, taken_second, rfl⟩ := Frontend.of_execute executed_second
  obtain rfl := some.inj (sent.symm.trans sent_second)
  obtain ⟨stores, same, results⟩ := alike.stores.run external (outcomes _ waits) sent taken_first taken_second
  have next : (frontend crates).resume phase (.ok (values result_first)) =
      (frontend crates).resume phase (.ok (values result_second)) := same
  -- only a write is probed for, and then the results are the same
  have equal (writes : (frontend crates).writes phase = true) : result_first = result_second :=
    results (by simpa [Frontend.writes, sent] using writes)
  have probes : (result_first.result ≠ [] ∧ (frontend crates).writes phase = true ∧ blockN ≠ 0 ∧ probe = true) ↔
      (result_second.result ≠ [] ∧ (frontend crates).writes phase = true ∧ blockN ≠ 0 ∧ probe = true) := by
    exact ⟨fun probed => ⟨equal probed.2.1 ▸ probed.1, probed.2⟩,
      fun probed => ⟨(equal probed.2.1).symm ▸ probed.1, probed.2⟩⟩
  by_cases probed : result_first.result ≠ [] ∧ (frontend crates).writes phase = true ∧ blockN ≠ 0 ∧ probe = true
  · rw [if_pos probed, next] at after_first
    rw [if_pos (probes.mp probed)] at after_second
    refine ⟨?_, ?_, ?_⟩ <;> rw [after_first, after_second]
    · exact congrArg (List.set · i _) alike.tasks
    · exact alike.late
    · exact stores
  · rw [if_neg probed, next] at after_first
    rw [if_neg (probes.not.mp probed)] at after_second
    refine ⟨?_, ?_, ?_⟩ <;> rw [after_first, after_second]
    · exact congrArg (List.set · i _) alike.tasks
    · exact alike.late
    · exact stores

theorem Alike.step {event} (alike : Alike username pair) (external : External username)
    (outcomes : SameOutcomes crates username pair event)
    (taken : both (frontend crates).step pair event = some after) : Alike username after := by
  obtain ⟨first, second⟩ := both_eq_some.mp taken
  obtain ⟨_, _⟩ := after
  cases event with
  | reply i blockN probe => exact alike.reply external outcomes first second
  | probed i =>
    cases Frontend.moves_of_step first with
    | probed probing =>
      cases Frontend.moves_of_step second with
      | probed other =>
        rw [← alike.tasks, probing, some.injEq, Task.probing.injEq] at other
        obtain rfl := other
        exact ⟨congrArg (List.set · i _) alike.tasks, alike.late, alike.stores⟩
  | lose i error =>
    cases Frontend.moves_of_step first with
    | @lost _ _ phase _ waits _ =>
      cases Frontend.moves_of_step second with
      | lost other _ =>
        rw [← alike.tasks, waits, some.injEq, Task.waiting.injEq] at other
        obtain rfl := other
        refine ⟨congrArg (List.set · i _) alike.tasks, ?_, alike.stores⟩
        rw [alike.late]
  | late k blockN =>
    cases Frontend.moves_of_step first with
    | late found executed_first =>
      cases Frontend.moves_of_step second with
      | late other executed_second =>
        rw [← alike.late, found] at other
        obtain ⟨rfl, rfl⟩ := other
        obtain ⟨_, _, sent, taken_first, rfl⟩ := Frontend.of_execute executed_first
        obtain ⟨_, _, sent_second, taken_second, rfl⟩ := Frontend.of_execute executed_second
        obtain rfl := some.inj (sent.symm.trans sent_second)
        obtain ⟨stores, _⟩ := alike.stores.run external (outcomes _ found) sent taken_first taken_second
        exact ⟨alike.tasks, congrArg (List.eraseIdx · k) alike.late, stores⟩

end

/-!
## One request after the other
-/

section

variable {crates : Crates} {system : System Phase Journal} {payload : GetTokenPayload} {i : Nat}
variable {count : Nat} {base : System Phase Journal}

variable (waits : system.tasks[i]? = some (.waiting (.tokenCheck payload)))
include waits

theorem step_wrong (wrong : WrongPin crates system.engine.state payload) :
    ∃ after, (frontend crates).step system (.reply i 0 false) = some after ∧ after.engine = system.engine ∧
      after.tasks = system.tasks.set i (.waiting (.tokenIncrement payload)) ∧
      after.journal.wrong payload.username = system.journal.wrong payload.username + 1 := by
  obtain ⟨txResult, ran, valued⟩ := Transaction.run_read (bytesOf payload.username) 0 system.engine
  have taken : (frontend crates).step system (.reply i 0 false) = _ := Frontend.step_reply waits rfl ran
  have next : (frontend crates).resume (.tokenCheck payload) (.ok (values txResult)) = .tokenIncrement payload := by
    rw [valued]
    exact onValues_wrong wrong
  rw [next] at taken
  refine ⟨_, taken, rfl, rfl, ?_⟩
  change (Journal.executed crates system.journal system.engine.state i (.tokenCheck payload)).wrong _ = _
  rw [Journal.executed, if_pos wrong]
  exact if_pos rfl

theorem step_right
    (right : system.engine.state.read (bytesOf payload.username) = some (crates.hash (bytesOf payload.pin))) :
    (frontend crates).step system (.reply i 0 false) =
      some { system with tasks := system.tasks.set i (.waiting (.tokenRead payload)) } := by
  have passes : ¬ WrongPin crates system.engine.state payload := by
    rintro ⟨_, found, differs⟩
    exact differs (some.inj (right.symm.trans found))
  obtain ⟨txResult, ran, valued⟩ := Transaction.run_read (bytesOf payload.username) 0 system.engine
  have taken : (frontend crates).step system (.reply i 0 false) = _ := Frontend.step_reply waits rfl ran
  have next : (frontend crates).resume (.tokenCheck payload) (.ok (values txResult)) = .tokenRead payload := by
    have checked := onValues_right passes
    rw [right] at checked
    rw [valued, right]
    exact checked
  have silent : (frontend crates).executed system.journal system.engine.state i (.tokenCheck payload) =
      system.journal := if_neg passes
  rw [taken, next, silent]
  rfl

omit waits

theorem step_count (waits : system.tasks[i]? = some (.waiting (.tokenIncrement payload)))
    (found : system.engine.state.CounterIs (retriesKey payload.username) count) :
    (frontend crates).step system (.reply i 0 false) = some { system with
        engine := { system.engine with
          state := system.engine.state.push 0 (retriesKey payload.username) (toBeBytes ((count + 1) % 2 ^ 64)) }
        tasks := system.tasks.set i
          (.waiting (.answered (.unauthorized "incorrect pin" (i64OrZero (toBeBytes ((count + 1) % 2 ^ 64)))))) } :=
  Frontend.step_reply waits rfl (Transaction.run_increment found 0)

theorem step_read (waits : system.tasks[i]? = some (.waiting (.tokenRead payload))) :
    (frontend crates).step system (.reply i 0 false) = some { system with
        tasks := system.tasks.set i
          (.waiting (Phase.onRetries payload (counter system.engine.state payload.username))) } := by
  obtain ⟨txResult, ran, valued⟩ := Transaction.run_read (retriesKey payload.username) 0 system.engine
  have taken : (frontend crates).step system (.reply i 0 false) = _ := Frontend.step_reply waits rfl ran
  have next : (frontend crates).resume (.tokenRead payload) (.ok (values txResult)) =
      Phase.onRetries payload (counter system.engine.state payload.username) := by
    rw [valued]
    exact congrArg (Phase.onRetries payload) (i64OrZero_head _)
  have silent (total : Int) : system.journal.arrived i (Phase.onRetries payload total) = system.journal := by
    unfold Phase.onRetries
    split <;> rfl
  rw [taken, next]
  exact congrArg some (congrArg (System.mk _ _ _) (silent _))

/-- A wrong pin is told, whatever the counter is. -/
theorem run_wrong (waits : system.tasks[i]? = some (.waiting (.tokenCheck payload)))
    (wrong : WrongPin crates system.engine.state payload)
    (found : system.engine.state.CounterIs (retriesKey payload.username) count) :
    ∃ after, runAll (frontend crates).step system [.reply i 0 false, .reply i 0 false] = some after ∧
      after.engine.state =
        system.engine.state.push 0 (retriesKey payload.username) (toBeBytes ((count + 1) % 2 ^ 64)) ∧
      after.tasks = system.tasks.set i
        (.waiting (.answered (.unauthorized "incorrect pin" (i64OrZero (toBeBytes ((count + 1) % 2 ^ 64)))))) ∧
      after.journal.wrong payload.username = system.journal.wrong payload.username + 1 := by
  obtain ⟨middle, checked, engine, tasks, more⟩ := step_wrong waits wrong
  have waits_middle : middle.tasks[i]? = some (.waiting (.tokenIncrement payload)) := by
    rw [tasks]
    exact getElem?_set_self (List.getElem?_eq_some_iff.mp waits).1
  have counted : (frontend crates).step middle (.reply i 0 false) = _ := step_count waits_middle (engine ▸ found)
  have run : runAll (frontend crates).step system [.reply i 0 false, .reply i 0 false] =
      (frontend crates).step middle (.reply i 0 false) := by
    rw [runAll, checked, bind_some, runAll_singleton]
  refine ⟨_, run.trans counted, ?_, ?_, more⟩
  · rw [engine]
  · rw [tasks, set_set]

theorem run_right (waits : system.tasks[i]? = some (.waiting (.tokenCheck payload)))
    (right : system.engine.state.read (bytesOf payload.username) = some (crates.hash (bytesOf payload.pin))) :
    runAll (frontend crates).step system [.reply i 0 false, .reply i 0 false] = some { system with
        tasks := system.tasks.set i
          (.waiting (Phase.onRetries payload (counter system.engine.state payload.username))) } := by
  have checked : (frontend crates).step system (.reply i 0 false) = _ := step_right waits right
  have read : (frontend crates).step { system with tasks := system.tasks.set i (.waiting (.tokenRead payload)) }
      (.reply i 0 false) = _ := step_read (getElem?_set_self (List.getElem?_eq_some_iff.mp waits).1)
  rw [runAll, checked, bind_some, runAll_singleton, read, set_set]

/-- Where the request stands after two more replies. -/
def afterTwo (crates : Crates) (system : System Phase Journal) (i : Nat) : Option (Contrib.Task Phase) :=
  (runAll (frontend crates).step system [.reply i 0 false, .reply i 0 false]).bind (·.tasks[i]?)

theorem afterTwo_wrong (waits : system.tasks[i]? = some (.waiting (.tokenCheck payload)))
    (wrong : WrongPin crates system.engine.state payload)
    (found : system.engine.state.CounterIs (retriesKey payload.username) count) :
    afterTwo crates system i = some (.waiting (.answered
      (.unauthorized "incorrect pin" (i64OrZero (toBeBytes ((count + 1) % 2 ^ 64)))))) := by
  obtain ⟨after, ran, -, tasks, -⟩ := run_wrong waits wrong found
  rw [afterTwo, ran, bind_some, tasks]
  exact getElem?_set_self (List.getElem?_eq_some_iff.mp waits).1

theorem afterTwo_right (waits : system.tasks[i]? = some (.waiting (.tokenCheck payload)))
    (right : system.engine.state.read (bytesOf payload.username) = some (crates.hash (bytesOf payload.pin)))
    (locked : maxGuesses < counter system.engine.state payload.username) :
    afterTwo crates system i = some (.waiting (.answered
      (.unauthorized "too many guesses" (counter system.engine.state payload.username)))) := by
  rw [afterTwo, run_right waits right, bind_some, Phase.onRetries, if_pos locked]
  exact getElem?_set_self (List.getElem?_eq_some_iff.mp waits).1

theorem step_reset {totalGuesses} (waits : system.tasks[i]? = some (.waiting (.tokenReset payload totalGuesses))) :
    ∃ after, (frontend crates).step system (.reply i 0 false) = some after ∧ after.journal = system.journal ∧
      after.tasks = system.tasks.set i (.waiting (.tokenVersion payload)) :=
  ⟨_, Frontend.step_reply waits rfl (Transaction.run_cas _ _ _ 0 _), rfl, rfl⟩

theorem step_version (waits : system.tasks[i]? = some (.waiting (.tokenVersion payload)))
    (reads : payload.incrementVersion = false) :
    ∃ after, (frontend crates).step system (.reply i 0 false) = some after ∧
      after.journal.issued =
        system.journal.issued ++ [(payload.username, system.journal.wrong payload.username)] := by
  have sent : (Phase.tokenVersion payload).pending crates =
      some { transactionOps := [readOp (versionKey payload.username)], isRead := true } := by
    simp [Phase.pending, reads]
  obtain ⟨txResult, ran, _⟩ := Transaction.run_read (versionKey payload.username) 0 system.engine
  obtain ⟨⟨version, next⟩, _⟩ := version_executed sent ran
  have taken : (frontend crates).step system (.reply i 0 false) = _ := Frontend.step_reply waits sent ran
  have token : (frontend crates).resume (.tokenVersion payload) (.ok (values txResult)) =
      .answered (.token payload.username version) := next
  rw [token] at taken
  exact ⟨_, taken, rfl⟩

/-- `count` wrong pins of the user were checked since `base`, by the requests from
the second on; the first has not moved. -/
structure Guessed (payload : GetTokenPayload) (base : System Phase Journal) (count : Nat)
    (system : System Phase Journal) : Prop where
  pin : system.engine.state.read (bytesOf payload.username) = base.engine.state.read (bytesOf payload.username)
  counter : system.engine.state.CounterIs (retriesKey payload.username) count
  wrong : system.journal.wrong payload.username = count
  tasks (j : Nat) : j = 0 ∨ count < j → system.tasks[j]? = base.tasks[j]?
  told (j : Nat) : j < count → ∃ total,
    system.tasks[j + 1]? = some (.waiting (.answered (.unauthorized "incorrect pin" total)))

def guess (k : Nat) : List Event := [.reply (k + 1) 0 false, .reply (k + 1) 0 false]

theorem Guessed.next (guessed : Guessed payload base count system)
    (external : External payload.username) (waits : base.tasks[count + 1]? = some (.waiting (.tokenCheck payload)))
    (wrong : WrongPin crates base.engine.state payload) (small : count + 1 < 2 ^ 64) :
    ∃ after, runAll (frontend crates).step system (guess count) = some after ∧
      Guessed payload base (count + 1) after := by
  have stands := (guessed.tasks (count + 1) (.inr (Nat.lt_succ_self _))).trans waits
  have inBounds := (List.getElem?_eq_some_iff.mp stands).1
  have differs : WrongPin crates system.engine.state payload := by
    rw [WrongPin, guessed.pin]
    exact wrong
  obtain ⟨after, ran, state, tasks, more⟩ := run_wrong stands differs guessed.counter
  refine ⟨after, ran, ?_, ?_, ?_, fun j elsewhere => ?_, fun j earlier => ?_⟩
  · rw [state, KVSState.read_push, if_neg (external.retriesKey _).symm]
    exact guessed.pin
  · rw [state]
    refine .inr ⟨_, (KVSState.read_push _ _ _ _ _).trans (if_pos rfl), ?_⟩
    rw [Nat.mod_eq_of_lt small, KVSState.i64FromBeBytes, if_pos (length_toBeBytes _), fromBeBytes_toBeBytes small]
  · exact more.trans (congrArg (· + 1) guessed.wrong)
  · rw [tasks, getElem?_set_ne (by omega)]
    exact guessed.tasks j (by omega)
  · rw [tasks]
    rcases Nat.lt_succ_iff_lt_or_eq.mp earlier with before | rfl
    · rw [getElem?_set_ne (by omega)]
      exact guessed.told j before
    · exact ⟨_, getElem?_set_self inBounds⟩

theorem exists_guessed {total} (initial : Guessed payload base 0 base) (external : External payload.username)
    (waits : ∀ k < total, base.tasks[k + 1]? = some (.waiting (.tokenCheck payload)))
    (wrong : WrongPin crates base.engine.state payload) (small : total < 2 ^ 64) (count) (few : count ≤ total) :
    ∃ system, runAll (frontend crates).step base ((List.range count).flatMap guess) = some system ∧
      Guessed payload base count system := by
  induction count with
  | zero => exact ⟨base, rfl, initial⟩
  | succ count ih =>
    obtain ⟨system, ran, guessed⟩ := ih (by omega)
    obtain ⟨after, more, next⟩ := guessed.next external (waits count few) wrong (by omega)
    refine ⟨after, ?_, next⟩
    rw [range_succ, flatMap_append, runAll_append, ran]
    exact more

end

/-!
## The limit
-/

theorem exists_counterIs {state username} (positive : 0 < counter state username) :
    ∃ count, state.CounterIs (retriesKey username) count := by
  unfold counter at positive
  cases stored : state.read (retriesKey username) with
  | none => exact ⟨0, .inl ⟨stored, rfl⟩⟩
  | some bytes =>
    rw [stored, getD_some, i64OrZero, i64FromBeBytes] at positive
    cases decoded : KVSState.i64FromBeBytes bytes with
    | none => simp [decoded] at positive
    | some count => exact ⟨count, .inr ⟨bytes, stored, decoded⟩⟩

theorem Alike.told {crates i} {payload : GetTokenPayload} {pair : System Phase Journal × System Phase Journal}
    (external : External payload.username) (alike : Alike payload.username pair)
    (locked : maxGuesses < counter pair.1.engine.state payload.username)
    (waits : pair.1.tasks[i]? = some (.waiting (.tokenCheck payload)))
    (right : ¬ WrongPin crates pair.1.engine.state payload) (wrong : WrongPin crates pair.2.engine.state payload) :
    afterTwo crates pair.1 i = some (.waiting (.answered
        (.unauthorized "too many guesses" (counter pair.1.engine.state payload.username)))) ∧
      ∃ total, afterTwo crates pair.2 i = some (.waiting (.answered (.unauthorized "incorrect pin" total))) := by
  have ⟨_, found, _⟩ := wrong
  obtain ⟨stored, held⟩ := isSome_iff_exists.mp (alike.stores.present.trans (isSome_of_mem found))
  have hashed : crates.hash (bytesOf payload.pin) = stored :=
    Decidable.byContradiction fun differs => right ⟨stored, held, differs⟩
  have same : counter pair.2.engine.state payload.username = counter pair.1.engine.state payload.username := by
    rw [counter, counter, alike.stores.reads (external.retriesKey _)]
  obtain ⟨_, counted⟩ := exists_counterIs (same ▸ Int.lt_trans (by decide) locked)
  exact ⟨afterTwo_right waits (held.trans (congrArg some hashed.symm)) locked,
    _, afterTwo_wrong (alike.tasks ▸ waits) wrong counted⟩

/-- Tokens are issued within the limit in orderly runs; and two runs over stores
that differ in the pin of one user answer alike as long as every pin that is
checked for that user is right in both or in none. When the user is locked out
that is needed: a pin that is right in one of them only is answered differently,
however many were checked before. -/
theorem guessing_limited (crates : Crates) :
    (∀ {engine : KVSAppEngine} {requests : List Request} {system : System Phase Journal},
      (∀ username, 0 ≤ counter engine.state username) →
      Reaches (frontend crates).step (Orderly crates) (start engine requests) system →
      ∀ entry ∈ system.journal.issued, (entry.2 : Int) ≤ maxGuesses) ∧
    (∀ {username : String} {pair after : System Phase Journal × System Phase Journal}, External username →
      Alike username pair → Reaches (both (frontend crates).step) (SameOutcomes crates username) pair after →
      after.1.tasks = after.2.tasks) ∧
    ∀ {payload : GetTokenPayload} {pair : System Phase Journal × System Phase Journal} {i : Nat},
      External payload.username → Alike payload.username pair →
      maxGuesses < counter pair.1.engine.state payload.username →
      pair.1.tasks[i]? = some (.waiting (.tokenCheck payload)) →
      ¬ WrongPin crates pair.1.engine.state payload → WrongPin crates pair.2.engine.state payload →
      afterTwo crates pair.1 i = some (.waiting (.answered
          (.unauthorized "too many guesses" (counter pair.1.engine.state payload.username)))) ∧
        ∃ total, afterTwo crates pair.2 i = some (.waiting (.answered (.unauthorized "incorrect pin" total))) :=
  ⟨fun nonneg reached => issued_of_reaches nonneg reached, fun external alike reached =>
    (reached.invariant alike fun alike outcomes taken => alike.step external outcomes taken).tasks,
    fun external alike locked waits right wrong => alike.told external locked waits right wrong⟩

def plainCrates : Crates where
  hash := id
  toVec _ := []
  fromSlice _ := none

def pinStore (pin : String) : KVSAppEngine where
  state := KVSState.push { ciState := fun _ => [], bciState := fun _ => none } 0 (bytesOf "alice") (bytesOf pin)

def alicePin : GetTokenPayload := { username := "alice", pin := "1", incrementVersion := false }

def aliceGuess : GetTokenPayload := { username := "alice", pin := "0", incrementVersion := false }

theorem external_alice : External "alice" := ⟨by decide +kernel, by decide +kernel, by decide⟩

theorem counter_pinStore (pin username) : counter (pinStore pin).state username = 0 :=
  counter_push (external_alice.retriesKey username).symm 0 (bytesOf pin)

/-- The pin of alice, and more wrong guesses than are allowed. -/
def lockedStore (pin : String) : KVSAppEngine where
  state := (pinStore pin).state.push 0 (retriesKey "alice") (toBeBytes 1000001)

theorem alike_pinStore : AlikeStores (bytesOf "alice") (pinStore "1").state (pinStore "2").state := by
  refine ⟨fun apart => ?_, by decide +kernel⟩
  rw [pinStore, pinStore, KVSState.read_push, if_neg apart, KVSState.read_push, if_neg apart]

/-- A token after one wrong pin; a wrong pin that is answered alike for two pins of
alice; and a pin that is told from a wrong one when alice is locked out. -/
theorem guessing_limited_once :
    (∃ system, Reaches (frontend plainCrates).step (Orderly plainCrates)
        (start (pinStore "1") [.getToken aliceGuess, .getToken alicePin]) system ∧
      system.journal.issued = [("alice", 1)] ∧ ∀ entry ∈ system.journal.issued, (entry.2 : Int) ≤ maxGuesses) ∧
    (∃ after, Reaches (both (frontend plainCrates).step) (SameOutcomes plainCrates "alice")
        (start (pinStore "1") [.getToken aliceGuess], start (pinStore "2") [.getToken aliceGuess]) after ∧
      after.1.tasks = [.waiting (.answered (.unauthorized "incorrect pin" 1))] ∧ after.1.tasks = after.2.tasks) ∧
    maxGuesses < counter (lockedStore "1").state "alice" ∧
      afterTwo plainCrates (start (lockedStore "1") [.getToken alicePin]) 0 = some (.waiting (.answered
        (.unauthorized "too many guesses" (counter (lockedStore "1").state "alice")))) ∧
      ∃ total, afterTwo plainCrates (start (lockedStore "2") [.getToken alicePin]) 0 =
        some (.waiting (.answered (.unauthorized "incorrect pin" total))) := by
  have locked : maxGuesses < counter (lockedStore "1").state alicePin.username := by decide +kernel
  refine ⟨?_, ?_, locked, ?_⟩
  · have nonneg (username : String) : 0 ≤ counter (pinStore "1").state username :=
      Int.le_of_eq (counter_pinStore _ _).symm
    exact exists_reaches_and [.reply 0 0 false, .reply 0 1 false, .reply 1 1 false, .reply 1 1 false, .reply 1 2 true,
      .probed 1, .reply 1 2 true] (by decide +kernel) (by decide +kernel) fun reached _ =>
      (guessing_limited plainCrates).1 nonneg reached
  · exact exists_reaches_and [.reply 0 0 false, .reply 0 1 false] (by decide +kernel) (by decide +kernel)
      fun reached _ => (guessing_limited plainCrates).2.1 external_alice ⟨rfl, rfl, alike_pinStore⟩ reached
  · have alike : Alike alicePin.username
        (start (lockedStore "1") [.getToken alicePin], start (lockedStore "2") [.getToken alicePin]) :=
      ⟨rfl, rfl, alike_pinStore.push 0 _ _⟩
    have waits : (start (lockedStore "1") [.getToken alicePin]).tasks[0]? =
        some (.waiting (.tokenCheck alicePin)) := rfl
    have right : ¬ WrongPin plainCrates (lockedStore "1").state alicePin := by decide +kernel
    have wrong : WrongPin plainCrates (lockedStore "2").state alicePin := by decide +kernel
    exact (guessing_limited plainCrates).2.2 external_alice alike locked waits right wrong

def manyGuesses : List Request := .getToken alicePin :: List.replicate 1000001 (.getToken aliceGuess)

theorem getElem?_manyGuesses (pin) {k} (bound : k < 1000001) :
    (start (pinStore pin) manyGuesses).tasks[k + 1]? = some (.waiting (.tokenCheck aliceGuess)) := by
  simp only [start, manyGuesses, map_cons, getElem?_cons_succ, map_replicate, getElem?_replicate,
    bound, if_true, Request.first]

theorem guessed_start (pin) :
    Guessed aliceGuess (start (pinStore pin) manyGuesses) 0 (start (pinStore pin) manyGuesses) where
  pin := rfl
  counter := .inl ⟨(KVSState.read_push _ _ _ _ _).trans (if_neg (external_alice.retriesKey _)), rfl⟩
  wrong := rfl
  tasks _ _ := rfl
  told _ none := absurd none (Nat.not_lt_zero _)

theorem exists_locked {pin} (wrong : WrongPin plainCrates (pinStore pin).state aliceGuess) :
    ∃ system, runAll (frontend plainCrates).step (start (pinStore pin) manyGuesses)
        ((List.range 1000001).flatMap guess) = some system ∧
      Guessed aliceGuess (start (pinStore pin) manyGuesses) 1000001 system :=
  exists_guessed (guessed_start pin) external_alice (fun k bound => getElem?_manyGuesses pin bound) wrong (by decide)
    1000001 (Nat.le_refl _)

theorem read_locked {pin system} (guessed : Guessed aliceGuess (start (pinStore pin) manyGuesses) 1000001 system) :
    system.engine.state.read (bytesOf "alice") = some (bytesOf pin) :=
  guessed.pin.trans ((KVSState.read_push _ _ _ _ _).trans (if_pos rfl))

theorem exists_past_read : ∃ base, Reaches (frontend plainCrates).step Any (start (pinStore "1") manyGuesses) base ∧
      Guessed aliceGuess base 0 base ∧
      (∀ k < 1000001, base.tasks[k + 1]? = some (.waiting (.tokenCheck aliceGuess))) ∧
      base.tasks[0]? = some (.waiting (.tokenReset alicePin 0)) ∧ base.engine = pinStore "1" := by
  have stored : (pinStore "1").state.read (bytesOf "alice") = some (bytesOf "1") :=
    (KVSState.read_push _ _ _ _ _).trans (if_pos rfl)
  have checked : (frontend plainCrates).step (start (pinStore "1") manyGuesses) (.reply 0 0 false) = _ :=
    step_right rfl stored
  have read : (frontend plainCrates).step { start (pinStore "1") manyGuesses with
        tasks := (start (pinStore "1") manyGuesses).tasks.set 0 (.waiting (.tokenRead alicePin)) }
      (.reply 0 0 false) = _ := step_read rfl
  have next : Phase.onRetries alicePin (counter (pinStore "1").state "alice") = .tokenReset alicePin 0 := by
    rfl
  have initial := guessed_start "1"
  refine ⟨_, (Reaches.refl.tail trivial checked).tail trivial read,
    ⟨rfl, initial.counter, rfl, fun _ _ => rfl, initial.told⟩,
    fun k bound => getElem?_manyGuesses "1" bound, congrArg (fun phase => some (Task.waiting phase)) next, rfl⟩

/-- Each of more wrong pins than are allowed is told, and after them the answer still
tells a right pin from a wrong one. And a token is issued by a request that had
read the counter before. -/
theorem guessing_unlimited :
    (∃ earlier first second,
      runAll (frontend plainCrates).step (start (pinStore "1") manyGuesses) earlier = some first ∧
      runAll (frontend plainCrates).step (start (pinStore "2") manyGuesses) earlier = some second ∧
      maxGuesses < first.journal.wrong "alice" ∧ maxGuesses < second.journal.wrong "alice" ∧
      (∀ j < 1000001, ∃ total,
        first.tasks[j + 1]? = some (.waiting (.answered (.unauthorized "incorrect pin" total)))) ∧
      afterTwo plainCrates first 0 = some (.waiting (.answered (.unauthorized "too many guesses" 1000001))) ∧
      afterTwo plainCrates second 0 = some (.waiting (.answered (.unauthorized "incorrect pin" 1000002)))) ∧
    ∃ system, Reaches (frontend plainCrates).step Any (start (pinStore "1") manyGuesses) system ∧
      ("alice", 1000001) ∈ system.journal.issued ∧ maxGuesses < 1000001 := by
  have one : WrongPin plainCrates (pinStore "1").state aliceGuess := by decide +kernel
  have two : WrongPin plainCrates (pinStore "2").state aliceGuess := by decide +kernel
  constructor
  · obtain ⟨first, ran_first, guessed_first⟩ := exists_locked one
    obtain ⟨second, ran_second, guessed_second⟩ := exists_locked two
    have locked : counter first.engine.state "alice" = 1000001 :=
      (counter_of_counterIs guessed_first.counter).trans (by decide)
    have right : first.engine.state.read (bytesOf "alice") = some (plainCrates.hash (bytesOf "1")) :=
      read_locked guessed_first
    have wrong : WrongPin plainCrates second.engine.state alicePin :=
      ⟨_, read_locked guessed_second, by decide +kernel⟩
    have waits_first : first.tasks[0]? = some (.waiting (.tokenCheck alicePin)) := guessed_first.tasks 0 (.inl rfl)
    have waits_second : second.tasks[0]? = some (.waiting (.tokenCheck alicePin)) := guessed_second.tasks 0 (.inl rfl)
    have many := afterTwo_right waits_first right (locked ▸ (by decide))
    have incorrect := afterTwo_wrong waits_second wrong guessed_second.counter
    have more : i64OrZero (toBeBytes ((1000001 + 1) % 2 ^ 64)) = 1000002 := by decide +kernel
    have wrong_first : first.journal.wrong "alice" = 1000001 := guessed_first.wrong
    have wrong_second : second.journal.wrong "alice" = 1000001 := guessed_second.wrong
    refine ⟨_, first, second, ran_first, ran_second, ?_, ?_, guessed_first.told, ?_, ?_⟩
    · rw [wrong_first]
      decide
    · rw [wrong_second]
      decide
    · rw [← locked]
      exact many
    · rw [← more]
      exact incorrect
  · obtain ⟨_, reached, guessed, waits, stands, engine⟩ := exists_past_read
    obtain ⟨system, ran, guessed⟩ := exists_guessed guessed external_alice waits (engine ▸ one) (by decide) 1000001
      (Nat.le_refl _)
    have unmoved := (guessed.tasks 0 (.inl rfl)).trans stands
    obtain ⟨reset, taken_reset, journal, tasks⟩ : ∃ after, (frontend plainCrates).step system (.reply 0 0 false) =
        some after ∧ _ := step_reset unmoved
    have waits_reset : reset.tasks[0]? = some (.waiting (.tokenVersion alicePin)) := by
      rw [tasks]
      exact getElem?_set_self (List.getElem?_eq_some_iff.mp unmoved).1
    obtain ⟨final, taken_version, issued⟩ : ∃ after, (frontend plainCrates).step reset (.reply 0 0 false) =
        some after ∧ _ := step_version waits_reset rfl
    have reached_reset := (reached.trans (reaches_any_of_runAll ran)).tail trivial taken_reset
    refine ⟨final, reached_reset.tail trivial taken_version, ?_, by decide⟩
    have entry : (alicePin.username, system.journal.wrong alicePin.username) = ("alice", 1000001) :=
      congrArg (Prod.mk "alice") guessed.wrong
    rw [issued, journal, entry]
    exact mem_append_right _ (mem_singleton_self _)

end PirateShip.Svr3
