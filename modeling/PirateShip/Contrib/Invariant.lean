import PirateShip.Contrib.Frontend
import PirateShip.Lib.Splice

/-! What a step of the frontends can do, and the invariant rule for requests
that run next to each other: each keeps what the others know. -/

set_option autoImplicit false

namespace PirateShip.Contrib

open StepSystem Option

/-!
## Transactions on the engine
-/

namespace Transaction

theorem run_read (key blockN engine) : ∃ txResult, run ⟨[readOp key], true⟩ blockN engine = some (engine, txResult) ∧
      values txResult = (engine.state.read key).toList := by
  refine ⟨_, rfl, ?_⟩
  cases stored : engine.state.read key with
  | none => simp [KVSAppEngine.handleUnloggedRequest, values, proto, readOp, stored]
  | some value => simp [KVSAppEngine.handleUnloggedRequest, values, proto, readOp, stored]

theorem of_run_read {key blockN engine after txResult}
    (ran : run ⟨[readOp key], true⟩ blockN engine = some (after, txResult)) :
    after = engine ∧ values txResult = (engine.state.read key).toList := by
  obtain ⟨_, read, valued⟩ := run_read key blockN engine
  rw [read] at ran
  obtain ⟨rfl, rfl⟩ := ran
  exact ⟨rfl, valued⟩

theorem of_run_ops {ops blockN engine after txResult}
    (ran : run ⟨ops, false⟩ blockN engine = some (after, txResult)) :
    ∃ results, commitEach (KVSState.crashCommitOp blockN) engine.state ops = some (after.state, results) ∧
      txResult.result = results.flatten := by
  obtain ⟨⟨_, _⟩, committed, same⟩ := map_eq_some_iff.mp ran
  obtain ⟨rfl, rfl⟩ := Prod.mk.inj same
  obtain ⟨⟨_, results⟩, each, same⟩ := map_eq_some_iff.mp committed
  obtain ⟨rfl, rfl⟩ := Prod.mk.inj same
  exact ⟨results, each, rfl⟩

theorem of_run_increment {key blockN engine after txResult}
    (ran : run ⟨[incrementOp key], false⟩ blockN engine = some (after, txResult)) :
    engine.state.increment blockN [key] key = some (after.state, txResult.result) := by
  obtain ⟨_, committed, flattened⟩ := of_run_ops ran
  obtain ⟨_, _, _, incremented, rest, rfl⟩ := commitEach_cons_eq_some.mp committed
  obtain ⟨rfl, rfl⟩ := Prod.mk.inj (some.inj rest)
  rw [flattened, List.flatten_singleton]
  exact incremented

theorem run_cas (key swapVal compareVal blockN engine) : run ⟨[casOp key swapVal compareVal], false⟩ blockN engine =
      some ({ engine with state := (engine.state.cas blockN [key, swapVal, compareVal]).1 },
        ⟨(engine.state.cas blockN [key, swapVal, compareVal]).2⟩) := by
  have committed : KVSState.crashCommitOp blockN engine.state (casOp key swapVal compareVal) =
      some (engine.state.cas blockN [key, swapVal, compareVal]) := if_neg (by simp [casOp])
  simp [run, proto, KVSState.crashCommitTx, commitEach, committed]

theorem of_run_cas {key swapVal compareVal blockN engine after txResult}
    (ran : run ⟨[casOp key swapVal compareVal], false⟩ blockN engine = some (after, txResult)) :
    after.state = engine.state.push blockN key swapVal ∨ after.state = engine.state := by
  rw [run_cas] at ran
  obtain ⟨rfl, -⟩ := Prod.mk.inj (some.inj ran)
  dsimp only [KVSState.cas]
  split
  · exact .inl rfl
  · exact .inr rfl

theorem run_increment {key engine counter} (found : engine.state.CounterIs key counter) (blockN) :
    run ⟨[incrementOp key], false⟩ blockN engine =
      some ({ engine with state := engine.state.push blockN key (toBeBytes ((counter + 1) % 2 ^ 64)) },
        ⟨[{ success := true, values := [toBeBytes ((counter + 1) % 2 ^ 64)] }]⟩) := by
  have committed : KVSState.crashCommitOp blockN engine.state (incrementOp key) =
      engine.state.increment blockN [key] key := rfl
  simp [run, proto, KVSState.crashCommitTx, commitEach, committed, KVSState.increment_of_counterIs found]

theorem of_run_write_increment {key val counter blockN engine after txResult}
    (ran : run ⟨[writeOp key val, incrementOp counter], false⟩ blockN engine = some (after, txResult)) :
    ∃ results, (engine.state.push blockN key val).increment blockN [counter] counter =
      some (after.state, results) := by
  obtain ⟨_, committed, _⟩ := of_run_ops ran
  obtain ⟨_, _, _, written, committed, _⟩ := commitEach_cons_eq_some.mp committed
  obtain ⟨rfl, _⟩ := Prod.mk.inj (some.inj written)
  obtain ⟨_, _, _, incremented, rest, _⟩ := commitEach_cons_eq_some.mp committed
  obtain ⟨rfl, _⟩ := Prod.mk.inj (some.inj rest)
  exact ⟨_, incremented⟩

end Transaction

/-!
## Steps
-/

variable {Phase Journal : Type} {frontend : Frontend Phase Journal}

namespace Frontend

variable (frontend) in
inductive Moves (before : System Phase Journal) : Event → System Phase Journal → Prop where
  | replied {i blockN : Nat} {probe : Bool} {phase : Phase} {ran : System Phase Journal}
      {txResult : ProtoTransactionResult} (waits : before.tasks[i]? = some (.waiting phase))
      (executed : frontend.execute before i blockN phase = some (ran, txResult)) :
      Moves before (.reply i blockN probe)
        (frontend.arrive ran i (frontend.resume phase (.ok (values txResult))))
  | probes {i blockN : Nat} {probe : Bool} {phase : Phase} {ran : System Phase Journal}
      {txResult : ProtoTransactionResult} (waits : before.tasks[i]? = some (.waiting phase))
      (executed : frontend.execute before i blockN phase = some (ran, txResult))
      (writes : frontend.writes phase = true) :
      Moves before (.reply i blockN probe)
        { ran with tasks := ran.tasks.set i (.probing (frontend.resume phase (.ok (values txResult)))) }
  | probed {i : Nat} {next : Phase} (probing : before.tasks[i]? = some (.probing next)) :
      Moves before (.probed i) (frontend.arrive before i next)
  | lost {i : Nat} {error : SendError} {phase : Phase} {tx : Transaction}
      (waits : before.tasks[i]? = some (.waiting phase)) (sent : frontend.pending phase = some tx) :
      Moves before (.lose i error)
        (frontend.arrive
          { before with late := if frontend.writes phase then before.late ++ [(i, phase)] else before.late }
          i (frontend.resume phase (.error error)))
  | late {k blockN i : Nat} {phase : Phase} {ran : System Phase Journal} {txResult : ProtoTransactionResult}
      (found : before.late[k]? = some (i, phase))
      (executed : frontend.execute { before with late := before.late.eraseIdx k } i blockN phase =
        some (ran, txResult)) :
      Moves before (.late k blockN) ran

theorem of_step_reply {before after i blockN probe}
    (taken : frontend.step before (.reply i blockN probe) = some after) :
    ∃ phase ran txResult, before.tasks[i]? = some (.waiting phase) ∧
      frontend.execute before i blockN phase = some (ran, txResult) ∧
      after = if txResult.result ≠ [] ∧ frontend.writes phase ∧ blockN ≠ 0 ∧ probe then
          { ran with tasks := ran.tasks.set i (.probing (frontend.resume phase (.ok (values txResult)))) }
        else frontend.arrive ran i (frontend.resume phase (.ok (values txResult))) := by
  dsimp only [step] at taken
  split at taken
  · rename_i phase waits
    obtain ⟨⟨ran, txResult⟩, executed, rfl⟩ := map_eq_some_iff.mp taken
    exact ⟨phase, ran, txResult, waits, executed, rfl⟩
  · exact nomatch taken

theorem moves_of_step {before after event} (taken : frontend.step before event = some after) :
    frontend.Moves before event after := by
  cases event with
  | reply i blockN probe =>
    obtain ⟨phase, ran, _, waits, executed, rfl⟩ := of_step_reply taken
    split
    · rename_i probing
      exact .probes waits executed probing.2.1
    · exact .replied waits executed
  | probed i =>
    dsimp only [step] at taken
    split at taken
    · rename_i _ probing
      obtain rfl := some.inj taken
      exact .probed probing
    · exact nomatch taken
  | lose i error =>
    dsimp only [step] at taken
    split at taken
    · rename_i phase waits
      split at taken
      · rename_i waiting
        obtain ⟨_, sent⟩ := isSome_iff_exists.mp waiting
        obtain rfl := some.inj taken
        exact .lost waits sent
      · exact nomatch taken
    · exact nomatch taken
  | late k blockN =>
    obtain ⟨⟨i, phase⟩, found, ran⟩ := bind_eq_some_iff.mp taken
    obtain ⟨⟨_, _⟩, executed, rfl⟩ := map_eq_some_iff.mp ran
    exact .late found executed

theorem of_execute {system ran i blockN phase txResult}
    (executed : frontend.execute system i blockN phase = some (ran, txResult)) :
    ∃ tx engine, frontend.pending phase = some tx ∧ tx.run blockN system.engine = some (engine, txResult) ∧
      ran = { system with engine, journal := frontend.executed system.journal system.engine.state i phase } := by
  obtain ⟨tx, sent, mapped⟩ := bind_eq_some_iff.mp executed
  obtain ⟨⟨engine, _⟩, ran, same⟩ := map_eq_some_iff.mp mapped
  obtain ⟨rfl, rfl⟩ := Prod.mk.inj same
  exact ⟨tx, engine, sent, ran, rfl⟩

theorem step_reply {system i blockN phase tx engine txResult} (waits : system.tasks[i]? = some (.waiting phase))
    (sent : frontend.pending phase = some tx) (ran : tx.run blockN system.engine = some (engine, txResult)) :
    frontend.step system (.reply i blockN false) = some (frontend.arrive
        { system with engine, journal := frontend.executed system.journal system.engine.state i phase }
        i (frontend.resume phase (.ok (values txResult)))) := by
  simp [step, waits, execute, sent, ran]

theorem length_tasks_of_reaches {allowed first system} (reached : Reaches frontend.step allowed first system) :
    system.tasks.length = first.tasks.length := by
  refine reached.invariant (motive := fun system => system.tasks.length = first.tasks.length) rfl ?_
  intro before after event same _ taken
  cases moves_of_step taken with
  | replied _ executed | probes _ executed | late _ executed =>
    obtain ⟨_, _, _, _, rfl⟩ := of_execute executed
    simpa [arrive] using same
  | probed _ | lost _ => simpa [arrive] using same

end Frontend

/-!
## Requests next to each other
-/

/-- What is known of the store, of a request at the point it has reached, and of a
write whose reply was lost. -/
structure Assertion (Phase Journal : Type) where
  world : KVSState → Journal → Prop
  task : Journal → Nat → Phase → Prop
  late : Nat → Phase → Prop

/-- When a transaction may be executed, and when its reply may be lost. -/
structure Guard (Phase : Type) where
  execute : KVSState → Phase → Prop
  lose : Phase → Prop

def Guard.Allows (guard : Guard Phase) (system : System Phase Journal) : Event → Prop
  | .reply i _ _ => ∀ task ∈ system.tasks[i]?, guard.execute system.engine.state task.phase
  | .probed _ => True
  | .lose i _ => ∀ task ∈ system.tasks[i]?, guard.lose task.phase
  | .late k _ => ∀ entry ∈ system.late[k]?, guard.execute system.engine.state entry.2

instance decidableAllows {guard : Guard Phase} [∀ state phase, Decidable (guard.execute state phase)]
    [∀ phase, Decidable (guard.lose phase)] (system : System Phase Journal) :
    ∀ event, Decidable (guard.Allows system event)
  | .reply i _ _ =>
    inferInstanceAs (Decidable (∀ task ∈ system.tasks[i]?, guard.execute system.engine.state task.phase))
  | .probed _ => isTrue trivial
  | .lose i _ => inferInstanceAs (Decidable (∀ task ∈ system.tasks[i]?, guard.lose task.phase))
  | .late k _ => inferInstanceAs (Decidable (∀ entry ∈ system.late[k]?, guard.execute system.engine.state entry.2))

def Guard.free : Guard Phase where
  execute _ _ := True
  lose _ := True

theorem Guard.free_allows (system : System Phase Journal) (event : Event) :
    (Guard.free : Guard Phase).Allows system event := by
  cases event with
  | reply i blockN probe => exact fun _ _ => trivial
  | probed i => trivial
  | lose i error => exact fun _ _ => trivial
  | late k blockN => exact fun _ _ => trivial

namespace Assertion

variable {assertion : Assertion Phase Journal} {guard : Guard Phase}

structure Holds (assertion : Assertion Phase Journal) (system : System Phase Journal) : Prop where
  world : assertion.world system.engine.state system.journal
  task : ∀ i task, system.tasks[i]? = some task → assertion.task system.journal i task.phase
  late : ∀ entry ∈ system.late, assertion.late entry.1 entry.2

structure Kept (frontend : Frontend Phase Journal) (guard : Guard Phase) (assertion : Assertion Phase Journal) :
    Prop where
  world {journal : Journal} {engine after : KVSAppEngine} {i blockN : Nat} {phase : Phase} {tx : Transaction}
      {txResult : ProtoTransactionResult} :
    assertion.world engine.state journal → assertion.task journal i phase ∨ assertion.late i phase →
      guard.execute engine.state phase → frontend.pending phase = some tx →
      tx.run blockN engine = some (after, txResult) →
      assertion.world after.state (frontend.executed journal engine.state i phase)
  resumed {journal : Journal} {engine after : KVSAppEngine} {i blockN : Nat} {phase : Phase} {tx : Transaction}
      {txResult : ProtoTransactionResult} :
    assertion.world engine.state journal → assertion.task journal i phase → guard.execute engine.state phase →
      frontend.pending phase = some tx → tx.run blockN engine = some (after, txResult) →
      assertion.task (frontend.executed journal engine.state i phase) i
        (frontend.resume phase (.ok (values txResult)))
  others {journal : Journal} {state : KVSState} {i j : Nat} {phase other : Phase} :
    j ≠ i ∨ assertion.late i phase → assertion.task journal j other →
      assertion.task (frontend.executed journal state i phase) j other
  lost {journal : Journal} {i : Nat} {phase : Phase} {tx : Transaction} (error : SendError) :
    guard.lose phase → assertion.task journal i phase → frontend.pending phase = some tx →
      assertion.task journal i (frontend.resume phase (.error error)) ∧
        (frontend.writes phase = true → assertion.late i phase)
  arrived (journal : Journal) (i : Nat) (next : Phase) : frontend.arrived journal i next = journal

theorem Holds.set {system : System Phase Journal} {i : Nat} {task : Task Phase}
    (world : assertion.world system.engine.state system.journal)
    (others : ∀ j other, system.tasks[j]? = some other → j ≠ i → assertion.task system.journal j other.phase)
    (known : assertion.task system.journal i task.phase)
    (late : ∀ entry ∈ system.late, assertion.late entry.1 entry.2) :
    assertion.Holds { system with tasks := system.tasks.set i task } where
  world := world
  task := List.forall_getElem?_set others known
  late := late

variable (kept : Kept frontend guard assertion)
include kept

theorem Kept.arrive_eq (system i next) :
    frontend.arrive system i next = { system with tasks := system.tasks.set i (.waiting next) } := by
  rw [Frontend.arrive, kept.arrived]

theorem Kept.reply {before ran i blockN phase txResult task} (holds : assertion.Holds before)
    (waits : before.tasks[i]? = some (.waiting phase)) (guarded : guard.execute before.engine.state phase)
    (executed : frontend.execute before i blockN phase = some (ran, txResult))
    (going : task.phase = frontend.resume phase (.ok (values txResult))) :
    assertion.Holds { ran with tasks := ran.tasks.set i task } := by
  have known := holds.task i _ waits
  obtain ⟨_, _, sent, taken, rfl⟩ := Frontend.of_execute executed
  exact Holds.set (kept.world holds.world (.inl known) guarded sent taken)
    (fun j other found apart => kept.others (.inl apart) (holds.task j other found))
    (going ▸ kept.resumed holds.world known guarded sent taken) holds.late

theorem Kept.lose {before i phase tx} (holds : assertion.Holds before)
    (waits : before.tasks[i]? = some (.waiting phase)) (sent : frontend.pending phase = some tx)
    (losable : guard.lose phase) (error) :
    assertion.Holds (frontend.arrive
      { before with late := if frontend.writes phase then before.late ++ [(i, phase)] else before.late }
      i (frontend.resume phase (.error error))) := by
  obtain ⟨known, noted⟩ := kept.lost error losable (holds.task i _ waits) sent
  rw [kept.arrive_eq]
  refine Holds.set holds.world (fun j other found _ => holds.task j other found) known ?_
  intro entry member
  split at member
  · rename_i writes
    rcases List.mem_append.mp member with old | new
    · exact holds.late entry old
    · obtain rfl := List.mem_singleton.mp new
      exact noted writes
  · exact holds.late entry member

theorem Kept.step {before after event} (holds : assertion.Holds before) (allowed : guard.Allows before event)
    (taken : frontend.step before event = some after) : assertion.Holds after := by
  cases Frontend.moves_of_step taken with
  | replied waits executed =>
    rw [kept.arrive_eq]
    exact kept.reply holds waits (allowed _ waits) executed rfl
  | probes waits executed writes => exact kept.reply holds waits (allowed _ waits) executed rfl
  | probed probing =>
    have known := holds.task _ _ probing
    rw [kept.arrive_eq]
    exact Holds.set holds.world (fun j other found _ => holds.task j other found) known holds.late
  | lost waits sent => exact kept.lose holds waits sent (allowed _ waits) _
  | late found executed =>
    have known := holds.late _ (List.mem_of_getElem? found)
    obtain ⟨_, _, sent, ran, rfl⟩ := Frontend.of_execute executed
    exact
      { world := kept.world holds.world (.inr known) (allowed _ found) sent ran
        task := fun j task at_j => kept.others (.inr known) (holds.task j task at_j)
        late := fun entry member => holds.late entry (List.mem_of_mem_eraseIdx member) }

theorem Kept.reaches {first system} (initial : assertion.Holds first)
    (reached : Reaches frontend.step guard.Allows first system) :
    assertion.Holds system :=
  reached.invariant initial kept.step

end Assertion

end PirateShip.Contrib
