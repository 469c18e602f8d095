import PirateShip.Contrib.Invariant
import PirateShip.Svr3.Frontend

/-! The limit on wrong pins. It holds for the tokens that are issued as long as no
pin is checked between the moment the counter is read and the answer. -/

set_option autoImplicit false

namespace PirateShip.Svr3

open List Contrib StepSystem Journal Option
open Smallbank (i64FromBeBytes i64ToBeBytes)

variable {value : Nat} {engine : KVSAppEngine}

/-!
## The counter of a user
-/

def counter (state : KVSState) (username : String) : Int :=
  i64OrZero ((state.read (retriesKey username)).getD [])

theorem retriesKey_eq (username) : retriesKey username = bytesOf "retries:" ++ bytesOf username := toUTF8_append _ _

theorem retriesKey_injective {user other} : retriesKey user = retriesKey other ↔ user = other := by
  rw [retriesKey, retriesKey, bytesOf_injective, String.append_right_inj]

theorem versionKey_ne_retriesKey (user other) : versionKey user ≠ retriesKey other := by
  have version : bytesOf "version:" = [118, 101, 114, 115, 105, 111, 110, 58] := by decide +kernel
  have retries : bytesOf "retries:" = [114, 101, 116, 114, 105, 101, 115, 58] := by decide +kernel
  rw [retriesKey_eq, versionKey, bytesOf, toUTF8_append, ← bytesOf, version, retries]
  simp

theorem user_ne_retriesKey (username) : bytesOf "user" ≠ retriesKey username := by
  have user : bytesOf "user" = [117, 115, 101, 114] := by decide +kernel
  have retries : bytesOf "retries:" = [114, 101, 116, 114, 105, 101, 115, 58] := by decide +kernel
  rw [retriesKey_eq, user, retries]
  simp

variable {crates : Crates} {state : KVSState} {username : String}

theorem counter_push {key} (apart : key ≠ retriesKey username) (n val) :
    counter (state.push n key val) username = counter state username := by
  rw [counter, KVSState.read_push, if_neg apart.symm, counter]

theorem counter_push_self (n val) : counter (state.push n (retriesKey username) val) username = i64OrZero val := by
  rw [counter, KVSState.read_push, if_pos rfl, getD_some]

theorem i64OrZero_zero : i64OrZero (i64ToBeBytes 0) = 0 := by decide +kernel

theorem i64OrZero_toBeBytes (small : value < 2 ^ 64) : i64OrZero (toBeBytes value) = (value : Int).bmod (2 ^ 64) := by
  rw [i64OrZero, i64FromBeBytes, KVSState.i64FromBeBytes, if_pos (length_toBeBytes value),
    fromBeBytes_toBeBytes small, map_some, getD_some]

theorem counter_of_counterIs (found : state.CounterIs (retriesKey username) value) :
    counter state username = (value : Int).bmod (2 ^ 64) := by
  rcases found with ⟨absent, rfl⟩ | ⟨_, stored, decoded⟩
  · rw [counter, absent]
    rfl
  · rw [counter, stored, getD_some, i64OrZero, i64FromBeBytes, decoded, map_some, getD_some]

theorem counter_increment {after n results} (nonneg : 0 ≤ counter state username)
    (small : counter state username + 1 < 2 ^ 63)
    (incremented : state.increment n [retriesKey username] (retriesKey username) = some (after, results)) :
    counter after username = counter state username + 1 := by
  obtain ⟨value, found, rfl, -⟩ := KVSState.of_increment incremented
  have current := counter_of_counterIs found
  rw [counter_push_self, i64OrZero_toBeBytes (Nat.mod_lt _ (by decide))]
  have wrapped (modulus : Nat) : (((value + 1) % modulus : Nat) : Int).bmod modulus =
      ((value : Int) + 1).bmod modulus := by
    rw [Int.natCast_emod, Int.emod_bmod, Int.natCast_add, Int.natCast_one]
  rw [wrapped, ← Int.bmod_add_bmod, ← current]
  exact Int.bmod_eq_of_le (by omega) (by omega)

/-!
## Requests under way
-/

namespace Phase

def counting (username : String) : Phase → Bool
  | .tokenIncrement payload => payload.username = username
  | _ => false

/-- The counter of the user has been read, and allows a token. -/
def issuing (username : String) : Phase → Bool
  | .tokenReset payload _ | .tokenVersion payload => payload.username = username
  | _ => false

def isToken (username : String) : Phase → Bool
  | .answered (.token name _) => name = username
  | _ => false

end Phase

/-- A token of the user is not answered yet, but nothing can stop it any more. -/
def pastRead (username : String) : Contrib.Task Phase → Bool
  | .waiting phase => phase.issuing username
  | .probing next => next.issuing username || next.isToken username

def counting (username : String) (task : Contrib.Task Phase) : Bool := task.phase.counting username

/-- A wrong pin is not checked while a token of the user is under way, the counter
is not read while a guess is still to be counted and does not wrap, and no name
is registered that is a counter. -/
def Guarded (crates : Crates) (system : System Phase Journal) : Phase → Prop
  | .tokenCheck payload =>
    WrongPin crates system.engine.state payload → system.tasks.countP (pastRead payload.username) = 0
  | .tokenRead payload => system.tasks.countP (counting payload.username) = 0
  | .tokenIncrement payload => counter system.engine.state payload.username + 1 < 2 ^ 63
  | .authCreate username _ => (bytesOf "retries:").isPrefixOf (bytesOf username) = false
  | _ => True

def Phase.losable : Phase → Bool
  | .authCheck _ _ | .authList _ | .tokenCheck _ | .tokenRead _ => true
  | _ => false

def Orderly (crates : Crates) (system : System Phase Journal) : Event → Prop
  | .reply i _ _ => ∀ task ∈ system.tasks[i]?, Guarded crates system task.phase
  | .lose i _ => ∀ task ∈ system.tasks[i]?, task.phase.losable = true
  | _ => True

instance decidableGuarded (crates : Crates) (system : System Phase Journal) :
    ∀ phase, Decidable (Guarded crates system phase)
  | .tokenCheck payload => inferInstanceAs (Decidable
    (WrongPin crates system.engine.state payload → system.tasks.countP (pastRead payload.username) = 0))
  | .tokenRead payload => inferInstanceAs (Decidable (system.tasks.countP (counting payload.username) = 0))
  | .tokenIncrement payload => inferInstanceAs (Decidable (counter system.engine.state payload.username + 1 < 2 ^ 63))
  | .authCreate username _ => inferInstanceAs (Decidable ((bytesOf "retries:").isPrefixOf (bytesOf username) = false))
  | .authCheck _ _ | .authList _ | .authUpdate _ _ | .tokenReset _ _ | .tokenVersion _ | .answered _ | .panicked =>
    isTrue trivial

instance decidableOrderly (crates : Crates) (system : System Phase Journal) :
    ∀ event, Decidable (Orderly crates system event)
  | .reply i _ _ => inferInstanceAs (Decidable (∀ task ∈ system.tasks[i]?, Guarded crates system task.phase))
  | .lose i _ => inferInstanceAs (Decidable (∀ task ∈ system.tasks[i]?, task.phase.losable = true))
  | .probed _ | .late _ _ => isTrue trivial

/-!
## What is kept
-/

structure Limited (system : System Phase Journal) (username : String) : Prop where
  nonneg : 0 ≤ counter system.engine.state username
  locked : 0 < system.tasks.countP (pastRead username) → (system.journal.wrong username : Int) ≤ maxGuesses
  counted : system.tasks.countP (pastRead username) = 0 →
    (system.journal.wrong username : Int) ≤
      counter system.engine.state username + system.tasks.countP (counting username)

structure Safe (system : System Phase Journal) : Prop where
  limited : ∀ username, Limited system username
  issued : ∀ entry ∈ system.journal.issued, (entry.2 : Int) ≤ maxGuesses
  late : system.late = []

section

variable {before after : System Phase Journal} {i : Nat} {old new : Contrib.Task Phase}

variable (limited : Limited before username)
include limited

variable (found : before.tasks[i]? = some old)
include found

variable (tasks : after.tasks = before.tasks.set i new)
include tasks

theorem Limited.neutral (past : pastRead username new = pastRead username old)
    (wrong : after.journal.wrong username = before.journal.wrong username)
    (nonneg : 0 ≤ counter after.engine.state username)
    (account : counter before.engine.state username + (counting username old).toNat ≤
      counter after.engine.state username + (counting username new).toNat) : Limited after username := by
  have pasts := countP_set_add found (pastRead username) new
  have counts := countP_set_add found (counting username) new
  rw [← tasks] at pasts counts
  rw [past] at pasts
  obtain ⟨_, locked, counted⟩ := limited
  refine ⟨nonneg, fun under => ?_, fun none => ?_⟩
  · have := locked (by omega)
    omega
  · have := counted (by omega)
    omega

theorem Limited.guess (none : before.tasks.countP (pastRead username) = 0)
    (past : pastRead username new = false) (uncounted : counting username old = false)
    (due : counting username new = true) (wrong : after.journal.wrong username = before.journal.wrong username + 1)
    (same : counter after.engine.state username = counter before.engine.state username) : Limited after username := by
  have pasts := countP_set_add found (pastRead username) new
  have counts := countP_set_add found (counting username) new
  rw [← tasks, past, Bool.toNat_false] at pasts
  rw [← tasks, uncounted, due, Bool.toNat_false, Bool.toNat_true] at counts
  have counted := limited.counted none
  exact ⟨same ▸ limited.nonneg, fun under => by omega, fun _ => by omega⟩

theorem Limited.read (settled : before.tasks.countP (counting username) = 0)
    (under : pastRead username new = true) (allowed : counter before.engine.state username ≤ maxGuesses)
    (wrong : after.journal.wrong username = before.journal.wrong username)
    (same : counter after.engine.state username = counter before.engine.state username) : Limited after username := by
  have few : (before.journal.wrong username : Int) ≤ maxGuesses := by
    rcases Nat.eq_zero_or_pos (before.tasks.countP (pastRead username)) with none | some
    · have := limited.counted none
      omega
    · exact limited.locked some
  have present : 0 < after.tasks.countP (pastRead username) := by
    refine countP_pos_iff.mpr ⟨new, ?_, under⟩
    rw [tasks]
    exact List.mem_set (List.getElem?_eq_some_iff.mp found).1 new
  exact ⟨same ▸ limited.nonneg, fun _ => wrong ▸ few, fun none => absurd none (Nat.ne_of_gt present)⟩

theorem Limited.busy (was : pastRead username old = true)
    (stays : pastRead username new = true) (wrong : after.journal.wrong username = before.journal.wrong username)
    (nonneg : 0 ≤ counter after.engine.state username) : Limited after username := by
  have pasts := countP_set_add found (pastRead username) new
  rw [← tasks, was, stays] at pasts
  have under : 0 < before.tasks.countP (pastRead username) := countP_pos_iff.mpr ⟨old, mem_of_getElem? found, was⟩
  have locked := limited.locked under
  exact ⟨nonneg, fun _ => by omega, fun none => by omega⟩

end

/-!
## One transaction
-/

section

variable {before ran : System Phase Journal} {i blockN : Nat} {txResult : ProtoTransactionResult}
  {payload : GetTokenPayload}
variable {engine : KVSAppEngine} {system : System Phase Journal}

variable (crates) in
def replied (ran : System Phase Journal) (i : Nat) (phase : Phase) (txResult : ProtoTransactionResult) :
    System Phase Journal :=
  { ran with tasks := ran.tasks.set i (.probing (phase.onValues crates (values txResult))) }

theorem onValues_wrong (wrong : WrongPin crates state payload) :
    (Phase.tokenCheck payload).onValues crates (state.read (bytesOf payload.username)).toList =
      .tokenIncrement payload := by
  obtain ⟨_, found, differs⟩ := wrong
  rw [mem_def.mp found]
  simp [Phase.onValues, authenticateUser, differs, Phase.onRefused, HttpResponse.status]

theorem onValues_right (right : ¬ WrongPin crates state payload) :
    (Phase.tokenCheck payload).onValues crates (state.read (bytesOf payload.username)).toList =
      match state.read (bytesOf payload.username) with
      | none => .answered (.notFound "username does not exist" payload.username)
      | some _ => .tokenRead payload := by
  cases found : state.read (bytesOf payload.username) with
  | none => rfl
  | some stored =>
    have same : crates.hash (bytesOf payload.pin) = stored := Decidable.byContradiction fun differs =>
      right ⟨stored, found, differs⟩
    simp [Phase.onValues, authenticateUser, same]

theorem Limited.replied_check (limited : Limited before username)
    (waits : before.tasks[i]? = some (.waiting (.tokenCheck payload)))
    (guarded : Guarded crates before (.tokenCheck payload))
    (executed : (frontend crates).execute before i blockN (.tokenCheck payload) = some (ran, txResult)) :
    Limited (replied crates ran i (.tokenCheck payload) txResult) username := by
  obtain ⟨_, _, sent, read, rfl⟩ := Frontend.of_execute executed
  obtain rfl := some.inj sent
  obtain ⟨rfl, valued⟩ := Transaction.of_run_read read
  have journal_eq : (frontend crates).executed before.journal before.engine.state i (.tokenCheck payload) =
      if WrongPin crates before.engine.state payload then
        { before.journal with
          wrong := before.journal.setWrong payload.username (before.journal.wrong payload.username + 1) }
      else before.journal := rfl
  by_cases wrong : WrongPin crates before.engine.state payload
  · rw [if_pos wrong] at journal_eq
    rw [replied, valued, onValues_wrong wrong, journal_eq]
    by_cases same : payload.username = username
    · subst same
      refine limited.guess waits rfl (guarded wrong) rfl rfl ?_ ?_ rfl
      · simp [counting, Task.phase, Phase.counting]
      · simp [setWrong]
    · refine limited.neutral waits rfl rfl ?_ limited.nonneg ?_
      · simp [setWrong, Ne.symm same]
      · simp [counting, Task.phase, Phase.counting, same]
  · rw [if_neg wrong] at journal_eq
    rw [replied, valued, onValues_right wrong, journal_eq]
    split
    · exact limited.neutral waits rfl rfl rfl limited.nonneg (Int.le_refl _)
    · exact limited.neutral waits rfl rfl rfl limited.nonneg (Int.le_refl _)

theorem Limited.replied_increment (limited : Limited before username)
    (waits : before.tasks[i]? = some (.waiting (.tokenIncrement payload)))
    (guarded : Guarded crates before (.tokenIncrement payload))
    (executed : (frontend crates).execute before i blockN (.tokenIncrement payload) = some (ran, txResult)) :
    Limited (replied crates ran i (.tokenIncrement payload) txResult) username := by
  obtain ⟨_, engine, sent, write, rfl⟩ := Frontend.of_execute executed
  obtain rfl := some.inj sent
  have incremented := Transaction.of_run_increment write
  have past : pastRead username (.probing ((Phase.tokenIncrement payload).onValues crates (values txResult))) =
      pastRead username (.waiting (.tokenIncrement payload)) := by
    dsimp only [Phase.onValues]
    split <;> rfl
  have counted : counting username (.probing ((Phase.tokenIncrement payload).onValues crates (values txResult))) =
      false := by
    dsimp only [Phase.onValues]
    split <;> rfl
  by_cases same : payload.username = username
  · subst same
    have higher := counter_increment limited.nonneg guarded incremented
    refine limited.neutral waits rfl past rfl ?_ ?_
    · change 0 ≤ counter engine.state payload.username
      have := limited.nonneg
      omega
    · rw [counted]
      change _ ≤ counter engine.state payload.username + _
      rw [higher]
      simp [counting, Task.phase, Phase.counting]
  · obtain ⟨_, _, stored, -⟩ := KVSState.of_increment incremented
    have unchanged : counter engine.state username = counter before.engine.state username := by
      rw [stored]
      exact counter_push (retriesKey_injective.not.mpr same) _ _
    refine limited.neutral waits rfl past rfl ?_ ?_
    · exact unchanged ▸ limited.nonneg
    · rw [counted]
      change _ ≤ counter engine.state username + _
      rw [unchanged]
      simp [counting, Task.phase, Phase.counting, same]

theorem i64OrZero_head (value : Option Bytes) :
    i64OrZero (value.toList.head?.getD (i64ToBeBytes 0)) = i64OrZero (value.getD []) := by
  cases value with
  | none => exact i64OrZero_zero
  | some bytes => rfl

theorem Limited.replied_read (limited : Limited before username)
    (waits : before.tasks[i]? = some (.waiting (.tokenRead payload)))
    (guarded : Guarded crates before (.tokenRead payload))
    (executed : (frontend crates).execute before i blockN (.tokenRead payload) = some (ran, txResult)) :
    Limited (replied crates ran i (.tokenRead payload) txResult) username := by
  obtain ⟨_, _, sent, read, rfl⟩ := Frontend.of_execute executed
  obtain rfl := some.inj sent
  obtain ⟨rfl, valued⟩ := Transaction.of_run_read read
  have next : (Phase.tokenRead payload).onValues crates (values txResult) =
      Phase.onRetries payload (counter before.engine.state payload.username) := by
    rw [valued, Phase.onValues, i64OrZero_head, counter]
  rw [replied, next, Phase.onRetries]
  split
  · exact limited.neutral waits rfl rfl rfl limited.nonneg (Int.le_refl _)
  · rename_i allowed
    by_cases same : payload.username = username
    · subst same
      refine limited.read waits rfl guarded ?_ (Int.not_lt.mp allowed) rfl rfl
      simp [pastRead, Phase.issuing]
    · refine limited.neutral waits rfl ?_ rfl limited.nonneg (Int.le_refl _)
      simp [pastRead, Phase.issuing, Phase.isToken, same]

theorem Limited.replied_reset {totalGuesses} (limited : Limited before username)
    (waits : before.tasks[i]? = some (.waiting (.tokenReset payload totalGuesses)))
    (executed : (frontend crates).execute before i blockN (.tokenReset payload totalGuesses) = some (ran, txResult)) :
    Limited (replied crates ran i (.tokenReset payload totalGuesses) txResult) username := by
  obtain ⟨_, engine, sent, write, rfl⟩ := Frontend.of_execute executed
  obtain rfl := some.inj sent
  have swapped := Transaction.of_run_cas write
  by_cases same : payload.username = username
  · subst same
    refine limited.busy waits rfl ?_ ?_ rfl ?_
    · simp [pastRead, Phase.issuing]
    · simp [pastRead, Phase.issuing, Phase.onValues]
    · change 0 ≤ counter engine.state payload.username
      rcases swapped with reset | kept
      · exact Int.le_of_eq (by rw [reset, counter_push_self, i64OrZero_zero])
      · exact kept ▸ limited.nonneg
  · have unchanged : counter engine.state username = counter before.engine.state username := by
      rcases swapped with reset | kept
      · rw [reset]
        exact counter_push (retriesKey_injective.not.mpr same) _ _
      · rw [kept]
    refine limited.neutral waits rfl ?_ rfl (unchanged ▸ limited.nonneg) ?_
    · simp [pastRead, Phase.issuing, Phase.isToken, Phase.onValues]
    · exact Int.add_le_add (Int.le_of_eq unchanged.symm) (Int.le_refl _)

theorem version_executed {after tx} (sent : (Phase.tokenVersion payload).pending crates = some tx)
    (ran : tx.run blockN engine = some (after, txResult)) :
    (∃ version, (Phase.tokenVersion payload).onValues crates (values txResult) =
        .answered (.token payload.username version)) ∧
      ∀ username, counter after.state username = counter engine.state username := by
  obtain rfl := some.inj sent
  by_cases increments : payload.incrementVersion = true
  · rw [if_pos increments] at ran
    obtain ⟨value, _, stored, results⟩ := KVSState.of_increment (Transaction.of_run_increment ran)
    refine ⟨⟨asU32 (i64OrZero (toBeBytes ((value + 1) % 2 ^ 64))), ?_⟩, fun username => ?_⟩
    · simp [Phase.onValues, values, results, Phase.onToken]
    · rw [stored]
      exact counter_push (versionKey_ne_retriesKey _ _) _ _
  · rw [if_neg increments] at ran
    obtain ⟨rfl, valued⟩ := Transaction.of_run_read ran
    refine ⟨?_, fun _ => rfl⟩
    rw [valued, Phase.onValues]
    cases after.state.read (versionKey payload.username) with
    | none => exact ⟨0, by simp [Phase.onToken, increments]⟩
    | some bytes => exact ⟨_, rfl⟩

variable (limited : Limited before username)
include limited

theorem Limited.replied_version (waits : before.tasks[i]? = some (.waiting (.tokenVersion payload)))
    (executed : (frontend crates).execute before i blockN (.tokenVersion payload) = some (ran, txResult)) :
    Limited (replied crates ran i (.tokenVersion payload) txResult) username := by
  obtain ⟨_, _, sent, read, rfl⟩ := Frontend.of_execute executed
  obtain ⟨⟨_, next⟩, unchanged⟩ := version_executed sent read
  rw [replied, next]
  by_cases same : payload.username = username
  · subst same
    refine limited.busy waits rfl ?_ ?_ rfl (unchanged _ ▸ limited.nonneg)
    · simp [pastRead, Phase.issuing]
    · simp [pastRead, Phase.isToken]
  · refine limited.neutral waits rfl ?_ rfl (unchanged _ ▸ limited.nonneg) ?_
    · simp [pastRead, Phase.issuing, Phase.isToken]
    · exact Int.add_le_add (Int.le_of_eq (unchanged _).symm) (Int.le_refl _)

theorem Limited.replied_auth {phase} (waits : before.tasks[i]? = some (.waiting phase))
    (old : phase.issuing username = false ∧ phase.counting username = false)
    (new : (phase.onValues crates (values txResult)).issuing username = false ∧
      (phase.onValues crates (values txResult)).isToken username = false ∧
      (phase.onValues crates (values txResult)).counting username = false)
    (same : counter engine.state username = counter before.engine.state username) :
    Limited (replied crates { before with engine } i phase txResult) username := by
  refine limited.neutral waits rfl ?_ rfl (same ▸ limited.nonneg) ?_
  · rw [pastRead, pastRead, new.1, new.2.1, old.1, Bool.or_self]
  · rw [counting, counting, Task.phase, Task.phase, old.2, new.2.2]
    exact Int.add_le_add (Int.le_of_eq same.symm) (Int.le_refl _)

theorem Limited.executed {phase} (waits : before.tasks[i]? = some (.waiting phase))
    (guarded : Guarded crates before phase)
    (executed : (frontend crates).execute before i blockN phase = some (ran, txResult)) :
    Limited (replied crates ran i phase txResult) username := by
  cases phase with
  | tokenCheck payload => exact limited.replied_check waits guarded executed
  | tokenIncrement payload => exact limited.replied_increment waits guarded executed
  | tokenRead payload => exact limited.replied_read waits guarded executed
  | tokenReset payload totalGuesses => exact limited.replied_reset waits executed
  | tokenVersion payload => exact limited.replied_version waits executed
  | authCheck name pin =>
    obtain ⟨tx, engine, sent, read, rfl⟩ := Frontend.of_execute executed
    obtain rfl := some.inj sent
    obtain ⟨rfl, -⟩ := Transaction.of_run_read read
    refine limited.replied_auth waits ⟨rfl, rfl⟩ ?_ rfl
    dsimp only [Phase.onValues]
    split <;> exact ⟨rfl, rfl, rfl⟩
  | authCreate name pin =>
    obtain ⟨tx, engine, sent, write, rfl⟩ := Frontend.of_execute executed
    obtain rfl := some.inj sent
    obtain ⟨rfl, -⟩ := Prod.mk.inj (some.inj write)
    refine limited.replied_auth waits ⟨rfl, rfl⟩ ⟨rfl, rfl, rfl⟩ (counter_push ?_ _ _)
    intro same
    have leading : (bytesOf "retries:").isPrefixOf (bytesOf name) = true := by
      rw [same]
      exact isPrefixOf_iff_prefix.mpr (prefix_append _ _)
    exact Bool.noConfusion (leading.symm.trans guarded)
  | authList name =>
    obtain ⟨tx, engine, sent, read, rfl⟩ := Frontend.of_execute executed
    obtain rfl := some.inj sent
    obtain ⟨rfl, -⟩ := Transaction.of_run_read read
    refine limited.replied_auth waits ⟨rfl, rfl⟩ ?_ rfl
    dsimp only [Phase.onValues]
    split
    · exact ⟨rfl, rfl, rfl⟩
    · split <;> exact ⟨rfl, rfl, rfl⟩
  | authUpdate name users =>
    obtain ⟨tx, engine, sent, write, rfl⟩ := Frontend.of_execute executed
    obtain rfl := some.inj sent
    obtain ⟨rfl, -⟩ := Prod.mk.inj (some.inj write)
    exact limited.replied_auth waits ⟨rfl, rfl⟩ ⟨rfl, rfl, rfl⟩ (counter_push (user_ne_retriesKey _) _ _)
  | answered response | panicked =>
    obtain ⟨_, _, sent, _⟩ := Frontend.of_execute executed
    exact nomatch sent

omit limited

theorem Safe.issue {name version} (safe : Safe system)
    (probing : system.tasks[i]? = some (.probing (.answered (.token name version)))) :
    Safe ((frontend crates).arrive system i (.answered (.token name version))) := by
  refine ⟨fun username => ?_, fun entry member => ?_, safe.late⟩
  · by_cases same : name = username
    · have reset : ((frontend crates).arrive system i (.answered (.token name version))).journal.wrong username = 0 :=
        if_pos same.symm
      have nonneg := (safe.limited username).nonneg
      refine ⟨nonneg, fun _ => ?_, fun _ => ?_⟩
      · rw [reset]
        decide
      · rw [reset]
        exact Int.add_nonneg nonneg (Int.natCast_nonneg _)
    · refine (safe.limited username).neutral probing rfl ?_ (if_neg (Ne.symm same)) (safe.limited username).nonneg
        (Int.le_refl _)
      simp [pastRead, Phase.isToken, same]
  · rcases mem_append.mp member with old | new
    · exact safe.issued entry old
    · rw [mem_singleton.mp new]
      refine (safe.limited name).locked (countP_pos_iff.mpr ⟨_, mem_of_getElem? probing, ?_⟩)
      simp [pastRead, Phase.isToken]

theorem Safe.arrive {next} (safe : Safe system) (probing : system.tasks[i]? = some (.probing next)) :
    Safe ((frontend crates).arrive system i next) := by
  by_cases token : ∃ name version, next = .answered (.token name version)
  · obtain ⟨name, version, rfl⟩ := token
    exact safe.issue probing
  · have silent : system.journal.arrived i next = system.journal := by
      unfold Journal.arrived
      split
      · exact absurd ⟨_, _, rfl⟩ token
      · rfl
    have other (username : String) : next.isToken username = false := by
      unfold Phase.isToken
      split
      · exact absurd ⟨_, _, rfl⟩ token
      · rfl
    refine ⟨fun username => ?_, ?_, safe.late⟩
    · refine (safe.limited username).neutral probing rfl ?_ (congrFun (congrArg Journal.wrong silent) username)
        (safe.limited username).nonneg (Int.le_refl _)
      rw [pastRead, pastRead, other, Bool.or_false]
    · intro entry member
      change entry ∈ (system.journal.arrived i next).issued at member
      rw [silent] at member
      exact safe.issued entry member

theorem issued_executed (journal : Journal) (state : KVSState) (i : Nat) (phase : Phase) :
    (journal.executed crates state i phase).issued = journal.issued := by
  unfold Journal.executed
  split
  · split <;> rfl
  · rfl

theorem Safe.replied {phase} (safe : Safe before) (waits : before.tasks[i]? = some (.waiting phase))
    (guarded : Guarded crates before phase)
    (executed : (frontend crates).execute before i blockN phase = some (ran, txResult)) :
    Safe (replied crates ran i phase txResult) := by
  have limited (username : String) := (safe.limited username).executed waits guarded executed
  obtain ⟨_, _, _, _, rfl⟩ := Frontend.of_execute executed
  refine ⟨limited, fun entry member => ?_, safe.late⟩
  change entry ∈ (before.journal.executed crates before.engine.state i phase).issued at member
  rw [issued_executed] at member
  exact safe.issued entry member

theorem Safe.lose {phase} (safe : Safe before) (waits : before.tasks[i]? = some (.waiting phase))
    (losable : phase.losable = true) (error) :
    Safe { before with tasks := before.tasks.set i (.probing (phase.resume crates (.error error))) } := by
  have old (username : String) : phase.issuing username = false ∧ phase.counting username = false := by
    unfold Phase.losable at losable
    split at losable
    case h_5 => exact nomatch losable
    all_goals exact ⟨rfl, rfl⟩
  have new (username : String) : (phase.resume crates (.error error)).issuing username = false ∧
      (phase.resume crates (.error error)).isToken username = false := by
    unfold Phase.losable at losable
    split at losable
    case h_3 =>
      dsimp only [Phase.resume, Phase.onRefused]
      split <;> exact ⟨rfl, rfl⟩
    case h_5 => exact nomatch losable
    all_goals exact ⟨rfl, rfl⟩
  refine ⟨fun username => ?_, safe.issued, safe.late⟩
  refine (safe.limited username).neutral waits rfl ?_ rfl (safe.limited username).nonneg ?_
  · rw [pastRead, pastRead, (new username).1, (new username).2, (old username).1, Bool.or_self]
  · rw [counting, Task.phase, (old username).2]
    exact Int.add_le_add (Int.le_refl _) (Int.natCast_nonneg _)

theorem arrive_set (task next) : (frontend crates).arrive { system with tasks := system.tasks.set i task } i next =
      (frontend crates).arrive system i next := by
  simp [Frontend.arrive]

theorem writes_of_losable {phase} (losable : phase.losable = true) : (frontend crates).writes phase = false := by
  unfold Phase.losable at losable
  split at losable
  case h_5 => exact nomatch losable
  all_goals rfl

theorem Safe.step {after event} (safe : Safe before) (orderly : Orderly crates before event)
    (taken : (frontend crates).step before event = some after) :
    Safe after := by
  cases Frontend.moves_of_step taken with
  | @replied i _ _ phase ran txResult waits executed =>
    have inBounds : i < ran.tasks.length := by
      obtain ⟨_, _, _, _, rfl⟩ := Frontend.of_execute executed
      exact (List.getElem?_eq_some_iff.mp waits).1
    rw [← arrive_set (.probing ((frontend crates).resume phase (.ok (values txResult))))]
    exact (safe.replied waits (orderly _ waits) executed).arrive (getElem?_set_self inBounds)
  | probes waits executed _ => exact safe.replied waits (orderly _ waits) executed
  | probed probing => exact safe.arrive probing
  | @lost i error phase tx waits sent =>
    have losable : phase.losable = true := orderly _ waits
    have lost : Safe { before with tasks := before.tasks.set i (.probing (phase.resume crates (.error error))) } :=
      safe.lose waits losable error
    rw [writes_of_losable losable, ← arrive_set (.probing ((frontend crates).resume phase (.error error)))]
    exact lost.arrive (List.getElem?_set_self (List.getElem?_eq_some_iff.mp waits).1)
  | late found _ =>
    rw [safe.late] at found
    exact nomatch found

end

variable (nonneg : ∀ username, 0 ≤ counter engine.state username)
include nonneg

theorem safe_start (requests) : Safe (start engine requests) := by
  have none (username : String) : (start engine requests).tasks.countP (pastRead username) = 0 := by
    refine countP_eq_zero.mpr fun task member => ?_
    obtain ⟨request, _, rfl⟩ := mem_map.mp member
    cases request <;> exact Bool.false_ne_true
  refine ⟨fun username => ⟨nonneg username, fun under => ?_, fun _ => ?_⟩, (fun _ member => nomatch member), rfl⟩
  · exact absurd under (by rw [none]; exact Nat.lt_irrefl 0)
  · exact Int.add_nonneg (nonneg username) (Int.natCast_nonneg _)

theorem issued_of_reaches {requests system}
    (reached : Reaches (frontend crates).step (Orderly crates) (start engine requests) system) :
    ∀ entry ∈ system.journal.issued, (entry.2 : Int) ≤ maxGuesses :=
  (reached.invariant (safe_start nonneg requests) Safe.step).issued

end PirateShip.Svr3
