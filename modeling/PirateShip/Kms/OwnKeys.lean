import PirateShip.Kms.KeyPairs

/-! What a registration and a refresh leave alone. Credentials, key pairs, the user list and the
user count share one space of keys, and a user name may be the key of something else. -/

set_option autoImplicit false

namespace PirateShip.Kms

open List Contrib StepSystem Option

variable {user other : String} {key : Bytes} {crates : Crates} {phase : Phase}

/-- Where the credential and the key pair of a user are stored. -/
def keysOf (username : String) : List Bytes := [bytesOf username, pubKey username, privKey username]

/-- The user list and the user count. -/
def books : List Bytes := [bytesOf "user", bytesOf "user_count"]

theorem mem_keysOf : key ∈ keysOf user ↔ key = bytesOf user ∨ key = pubKey user ∨ key = privKey user := by
  simp [keysOf]

theorem mem_books : key ∈ books ↔ key = bytesOf "user" ∨ key = bytesOf "user_count" := by simp [books]

theorem list_ne_count : bytesOf "user" ≠ bytesOf "user_count" := bytesOf_injective.not.mpr (by decide)

def Request.writer : Request → Option String
  | .register username _ | .refresh username _ _ => some username
  | .listpubkeys | .pubkey _ | .privkey _ _ => none

/-- Where a request stores something. -/
def Request.stores : Request → List Bytes
  | .register username _ => bytesOf username :: books
  | .refresh username _ _ => [pubKey username, privKey username]
  | .listpubkeys | .pubkey _ | .privkey _ _ => []

theorem Request.stores_subset {request : Request} (serves : request.writer = some user) :
    request.stores ⊆ keysOf user ++ books := by
  cases request with
  | register _ _ | refresh _ _ _ =>
    cases serves
    intro key
    simp +contextual [stores, keysOf, or_imp]
  | listpubkeys | pubkey _ | privkey _ _ => cases serves

/-- No name is a key of the other user or of the books. -/
def Apart (other : String) : Request → Prop
  | .register user _ =>
    (user ≠ "pub:" ++ other ∧ user ≠ "priv:" ++ other) ∧ (user ≠ "user" ∧ user ≠ "user_count") ∧
      other ≠ "user" ∧ other ≠ "user_count"
  | .refresh user _ _ => other ≠ "pub:" ++ user ∧ other ≠ "priv:" ++ user
  | .listpubkeys | .pubkey _ | .privkey _ _ => True

instance (other : String) : ∀ request, Decidable (Apart other request)
  | .register _ _ => inferInstanceAs (Decidable ((_ ∧ _) ∧ (_ ∧ _) ∧ _ ∧ _))
  | .refresh _ _ _ => inferInstanceAs (Decidable (_ ∧ _))
  | .listpubkeys | .pubkey _ | .privkey _ _ => isTrue trivial

theorem Apart.not_mem_stores {request} (apart : Apart other request) (serves : request.writer = some user)
    (differs : other ≠ user) (own : key ∈ keysOf other) : key ∉ request.stores := by
  cases request with
  | register _ _ =>
    cases serves
    obtain ⟨⟨pub, priv⟩, -, list, count⟩ := apart
    rcases mem_keysOf.mp own with rfl | rfl | rfl
    · simp [Request.stores, mem_books, bytesOf_injective, differs, list, count]
    · have free : pubKey other ≠ bytesOf user := fun same => pub (bytesOf_injective.mp same).symm
      simp [Request.stores, mem_books, (user_ne_key other).1.symm, (user_count_ne_key other).1.symm, free]
    · have free : privKey other ≠ bytesOf user := fun same => priv (bytesOf_injective.mp same).symm
      simp [Request.stores, mem_books, (user_ne_key other).2.symm, (user_count_ne_key other).2.symm, free]
  | refresh _ _ _ =>
    cases serves
    obtain ⟨pub, priv⟩ := apart
    rcases mem_keysOf.mp own with rfl | rfl | rfl
    · simp [Request.stores, pubKey, privKey, bytesOf_injective, pub, priv]
    · simp [Request.stores, pubKey_injective, differs, pubKey_ne_privKey]
    · simp [Request.stores, privKey_injective, differs, (pubKey_ne_privKey user other).symm]
  | listpubkeys | pubkey _ | privkey _ _ => cases serves

/-!
## The handlers
-/

/-- What the handler stores from here on, it stores under these keys. -/
def Phase.Within (keys : List Bytes) : Phase → Prop
  | .registerCheck username _ | .registerCreate username _ | .registerList username _
  | .registerUpdate username _ _ => bytesOf username :: books ⊆ keys
  | .refreshCheck username _ _ | .refreshStore username _ => [pubKey username, privKey username] ⊆ keys
  | .listUsers | .listKey _ _ _ | .pubkeyRead _ | .privkeyCheck _ _ | .privkeyRead _ | .answered _ | .panicked => True

theorem Request.within (request : Request) : request.first.Within request.stores := by
  cases request with
  | register _ _ | refresh _ _ _ => exact List.Subset.refl _
  | listpubkeys | pubkey _ | privkey _ _ => exact trivial

theorem within_listKeys (keys publicKeys users) : (listKeys publicKeys users).Within keys := by
  cases users with
  | nil | cons _ _ => exact trivial

theorem Phase.Within.resume {keys} (within : phase.Within keys) (crates reply) :
    (phase.resume crates reply).Within keys := by
  cases reply with
  | error error => exact trivial
  | ok values =>
    cases phase with
    | registerCheck _ _ | registerList _ _ | refreshCheck _ _ _ =>
      dsimp only [Phase.resume, Phase.onResult]
      split
      · exact trivial
      · exact within
    | registerCreate _ _ => exact within
    | listUsers | listKey _ _ _ =>
      dsimp only [Phase.resume, Phase.onResult]
      split
      · exact trivial
      · exact within_listKeys ..
    | privkeyCheck _ _ =>
      dsimp only [Phase.resume, Phase.onResult]
      split <;> exact trivial
    | pubkeyRead _ | privkeyRead _ =>
      dsimp only [Phase.resume, Phase.onResult]
      split
      · exact trivial
      · split <;> exact trivial
    | registerUpdate _ _ _ | refreshStore _ _ | answered _ | panicked => exact trivial

theorem Phase.Within.run {keys tx blockN engine after txResult} (within : phase.Within keys)
    (sent : phase.pending crates = some tx) (ran : tx.run blockN engine = some (after, txResult))
    (elsewhere : key ∉ keys) : after.state.read key = engine.state.read key := by
  have off {stored} (member : stored ∈ keys) : key ≠ stored := fun same => elsewhere (same ▸ member)
  cases phase with
  | registerCreate username password =>
    obtain rfl := some.inj sent
    obtain ⟨rfl, -⟩ := Prod.mk.inj (some.inj ran)
    exact (KVSState.read_push ..).trans (if_neg (off (within (by simp))))
  | registerUpdate username password users =>
    obtain rfl := some.inj sent
    obtain ⟨_, incremented⟩ := Transaction.of_run_write_increment ran
    obtain ⟨_, _, stored, _⟩ := KVSState.of_increment incremented
    rw [stored, KVSState.read_push, if_neg (off (within (by simp [books]))), KVSState.read_push,
      if_neg (off (within (by simp [books])))]
  | refreshStore username signingKey =>
    obtain rfl := some.inj sent
    obtain ⟨rfl, -⟩ := Prod.mk.inj (some.inj ran)
    exact (KVSState.read_push ..).trans ((if_neg (off (within (by simp)))).trans
      ((KVSState.read_push ..).trans (if_neg (off (within (by simp))))))
  | registerCheck _ _ | registerList _ _ | refreshCheck _ _ _ | listUsers | listKey _ _ _ | pubkeyRead _
  | privkeyCheck _ _ | privkeyRead _ =>
    obtain rfl := some.inj sent
    rw [(Transaction.of_run_read ran).1]
  | answered _ | panicked => cases sent

/-- What is stored elsewhere stays as it was before the request. -/
def elsewhere (keys : List Bytes) (before : KVSState) : Assertion Phase Journal where
  world state _ := ∀ key ∉ keys, state.read key = before.read key
  task _ _ phase := phase.Within keys
  late _ phase := phase.Within keys

theorem elsewhere_kept (crates keys before) : (elsewhere keys before).Kept (frontend crates) Guard.free where
  world same within _ sent ran key other := ((within.elim id id).run sent ran other).trans (same key other)
  resumed _ within _ _ _ := within.resume crates (.ok _)
  others _ within := within
  lost error _ within _ := ⟨within.resume crates (.error error), fun _ => within⟩
  arrived _ _ _ := rfl

/-!
## One request
-/

/-- A request over any store, alone. -/
def serving (engine : KVSAppEngine) (request : Request) : System Phase Journal where
  engine
  tasks := [.waiting request.first]
  journal := {}

section

variable {request : Request} {engine : KVSAppEngine} {before state : KVSState} {system : System Phase Journal}

theorem read_of_not_mem_stores (reached : Reaches (frontend crates).step Any (serving engine request) system)
    (elsewhere : key ∉ request.stores) : system.engine.state.read key = engine.state.read key := by
  have initial : (Kms.elsewhere request.stores engine.state).Holds (serving engine request) := by
    refine ⟨fun _ _ => rfl, fun i task found => ?_, forall_mem_nil _⟩
    obtain rfl := mem_singleton.mp (mem_of_getElem? found)
    exact request.within
  exact ((elsewhere_kept crates request.stores engine.state).reaches initial
    (reached.mono fun _ => Guard.free_allows _ _)).world key elsewhere

def HttpResponse.succeeds : HttpResponse → Bool
  | .created _ _ | .keyPair _ _ _ _ => true
  | .publicKeys _ _ | .publicKey _ _ _ | .privateKey _ _ _ | .conflict _ | .notFound _ _ | .unauthorized _ _
  | .failed _ => false

/-- A registration that succeeds: what it leaves in the store, key by key, and what it has found there. -/
structure Registered (crates : Crates) (user password : String) (before middle last : KVSState)
    (users : List String) (counter : Nat) : Prop where
  free : (before.read (bytesOf user)).getD [] = []
  created : ∀ key, middle.read key =
    if key = bytesOf user then some (crates.hash (bytesOf password)) else before.read key
  listed : usersOf crates ((middle.read (bytesOf "user")).getD []) = some users
  counted : middle.CounterIs (bytesOf "user_count") counter
  after : ∀ key, last.read key =
    if key = bytesOf "user_count" then some (toBeBytes ((counter + 1) % 2 ^ 64))
    else if key = bytesOf "user" then some (crates.toVec (users ++ [user])) else middle.read key

/-- The points of a request that loses no reply, with what they find in the store. -/
inductive Along (crates : Crates) (before : KVSState) : Request → Phase → KVSState → Prop where
  | registerCheck {user password : String} :
      Along crates before (.register user password) (.registerCheck user password) before
  | registerCreate {user password : String} (free : (before.read (bytesOf user)).getD [] = []) :
      Along crates before (.register user password) (.registerCreate user password) before
  | registerList {user password : String} {state : KVSState} {n : Nat}
      (free : (before.read (bytesOf user)).getD [] = [])
      (created : state = before.push n (bytesOf user) (crates.hash (bytesOf password))) :
      Along crates before (.register user password) (.registerList user password) state
  | registerUpdate {user password : String} {state : KVSState} {users : List String} {n : Nat}
      (free : (before.read (bytesOf user)).getD [] = [])
      (created : state = before.push n (bytesOf user) (crates.hash (bytesOf password)))
      (listed : usersOf crates ((state.read (bytesOf "user")).getD []) = some users) :
      Along crates before (.register user password) (.registerUpdate user password (users ++ [user])) state
  | registered {user password message : String} {middle state : KVSState} {users answer : List String} {counter : Nat}
      (registered : Registered crates user password before middle state users counter) :
      Along crates before (.register user password) (.answered (.created message answer)) state
  | refreshCheck {user password : String} {signingKey : KeyBytes} :
      Along crates before (.refresh user password signingKey) (.refreshCheck user password signingKey) before
  | refreshStore {user password : String} {signingKey : KeyBytes} :
      Along crates before (.refresh user password signingKey) (.refreshStore user signingKey) before
  | refreshed {user password message : String} {signingKey publicKey privateKey : KeyBytes} {n : Nat}
      {state : KVSState}
      (stored : state = (before.push n (pubKey user) signingKey.val).push n (privKey user)
        (crates.verifyingKey signingKey).val) :
      Along crates before (.refresh user password signingKey)
        (.answered (.keyPair message user publicKey privateKey)) state
  | refused {request : Request} {response : HttpResponse} {state : KVSState} (fails : response.succeeds = false) :
      Along crates before request (.answered response) state
  | panicked {request : Request} {state : KVSState} : Along crates before request .panicked state

theorem getLast?_getD_toList (value : Option Bytes) : value.toList.getLast?.getD [] = value.getD [] := by
  cases value with
  | none | some _ => rfl

theorem authenticateUser_error {username password result response}
    (refused : authenticateUser crates username password result = .error response) : response.succeeds = false := by
  unfold authenticateUser at refused
  split at refused
  · cases refused
    rfl
  · split at refused
    · cases refused
      rfl
    · cases refused

theorem Along.run {tx blockN after txResult} (along : Along crates before request phase engine.state)
    (sent : phase.pending crates = some tx) (ran : tx.run blockN engine = some (after, txResult)) :
    Along crates before request (phase.resume crates (.ok (values txResult))) after.state := by
  cases along with
  | registerCheck =>
    obtain rfl := some.inj sent
    obtain ⟨rfl, read⟩ := Transaction.of_run_read ran
    simp only [Phase.resume, Phase.onResult, read, getLast?_getD_toList]
    split
    · exact .refused rfl
    · next free => exact .registerCreate (not_not.mp free)
  | registerCreate free =>
    obtain rfl := some.inj sent
    obtain ⟨rfl, -⟩ := Prod.mk.inj (some.inj ran)
    exact .registerList free rfl
  | registerList free created =>
    obtain rfl := some.inj sent
    obtain ⟨rfl, read⟩ := Transaction.of_run_read ran
    simp only [Phase.resume, Phase.onResult, read, getLast?_getD_toList]
    split
    · exact .panicked
    · next listed => exact .registerUpdate free created listed
  | registerUpdate free created listed =>
    obtain rfl := some.inj sent
    obtain ⟨_, incremented⟩ := Transaction.of_run_write_increment ran
    obtain ⟨_, counted, stored, _⟩ := KVSState.of_increment incremented
    rw [KVSState.CounterIs, KVSState.read_push, if_neg list_ne_count.symm] at counted
    exact .registered
      { free
        created := fun key => by rw [created, KVSState.read_push]
        listed
        counted
        after := fun key => by rw [stored, KVSState.read_push, KVSState.read_push] }
  | refreshCheck =>
    obtain rfl := some.inj sent
    obtain ⟨rfl, -⟩ := Transaction.of_run_read ran
    simp only [Phase.resume, Phase.onResult]
    split
    · next refused => exact .refused (authenticateUser_error refused)
    · exact .refreshStore
  | refreshStore =>
    obtain rfl := some.inj sent
    obtain ⟨rfl, -⟩ := Prod.mk.inj (some.inj ran)
    exact .refreshed rfl
  | registered _ | refreshed _ | refused _ | panicked => cases sent

/-- The request has lost a reply and is answered, or it is at one of its points. -/
def Follows (crates : Crates) (before : KVSState) (request : Request) (system : System Phase Journal) : Prop :=
  (∃ error, system.tasks = [.waiting (.answered (.failed error))]) ∨
    system.late = [] ∧ ∃ task, system.tasks = [task] ∧ Along crates before request task.phase system.engine.state

theorem Follows.of_getElem? {i task} (follows : Follows crates before request system)
    (found : system.tasks[i]? = some task) : i = 0 ∧ system.tasks = [task] ∧
      ((∃ error, task = .waiting (.answered (.failed error))) ∨
        system.late = [] ∧ Along crates before request task.phase system.engine.state) := by
  rcases follows with ⟨error, tasks⟩ | ⟨late, _, tasks, along⟩
  all_goals
    rw [tasks, getElem?_singleton] at found
    obtain ⟨rfl, rfl⟩ := ite_some_none_eq_some.mp found
  · exact ⟨rfl, tasks, .inl ⟨error, rfl⟩⟩
  · exact ⟨rfl, tasks, .inr ⟨late, along⟩⟩

theorem Follows.step {last event} (follows : Follows crates before request system)
    (taken : (frontend crates).step system event = some last) : Follows crates before request last := by
  cases Frontend.moves_of_step taken with
  | replied waits executed =>
    obtain ⟨_, _, sent, ran, rfl⟩ := Frontend.of_execute executed
    obtain ⟨rfl, tasks, ⟨_, failed⟩ | ⟨late, along⟩⟩ := follows.of_getElem? waits
    · cases failed
      cases sent
    · exact .inr ⟨late, .waiting _, by rw [Frontend.arrive, tasks]; rfl, along.run sent ran⟩
  | probes waits executed _ =>
    obtain ⟨_, _, sent, ran, rfl⟩ := Frontend.of_execute executed
    obtain ⟨rfl, tasks, ⟨_, failed⟩ | ⟨late, along⟩⟩ := follows.of_getElem? waits
    · cases failed
      cases sent
    · exact .inr ⟨late, .probing _, by rw [tasks]; rfl, along.run sent ran⟩
  | probed probing =>
    obtain ⟨rfl, tasks, ⟨_, failed⟩ | ⟨late, along⟩⟩ := follows.of_getElem? probing
    · cases failed
    · exact .inr ⟨late, .waiting _, by rw [Frontend.arrive, tasks]; rfl, along⟩
  | lost waits _ =>
    obtain ⟨rfl, tasks, -⟩ := follows.of_getElem? waits
    exact .inl ⟨_, by rw [Frontend.arrive, tasks]; rfl⟩
  | late found executed =>
    obtain ⟨_, _, _, _, rfl⟩ := Frontend.of_execute executed
    rcases follows with failed | ⟨late, -⟩
    · exact .inl failed
    · rw [late] at found
      cases found

theorem along_of_reaches {response} (serves : request.writer = some user)
    (reached : Reaches (frontend crates).step Any (serving engine request) system)
    (answered : system.tasks = [.waiting (.answered response)]) (succeeds : response.succeeds = true) :
    Along crates engine.state request (.answered response) system.engine.state := by
  have initial : Follows crates engine.state request (serving engine request) := by
    cases request with
    | register _ _ => exact .inr ⟨rfl, _, rfl, .registerCheck⟩
    | refresh _ _ _ => exact .inr ⟨rfl, _, rfl, .refreshCheck⟩
    | listpubkeys | pubkey _ | privkey _ _ => cases serves
  have follows := reached.invariant initial fun follows _ taken => Follows.step follows taken
  have found : system.tasks[0]? = some (.waiting (.answered response)) := by rw [answered]; rfl
  obtain ⟨-, -, ⟨_, failed⟩ | ⟨-, along⟩⟩ := follows.of_getElem? found
  · cases failed
    cases succeeds
  · exact along

/-!
## Exactly the keys of the user
-/

/-- A registration adds the user to the list and counts it, a refresh leaves the books alone. -/
def BooksKept (crates : Crates) (before after : KVSState) : Request → Prop
  | .register user _ => ∃ users counter,
      usersOf crates ((before.read (bytesOf "user")).getD []) = some users ∧
      before.CounterIs (bytesOf "user_count") counter ∧
      after.read (bytesOf "user") = some (crates.toVec (users ++ [user])) ∧
      after.read (bytesOf "user_count") = some (toBeBytes ((counter + 1) % 2 ^ 64))
  | _ => ∀ key ∈ books, after.read key = before.read key

/-- What is stored is new: a hash has its length and is no empty user list, and the key pair is
not in its place yet. -/
def Fresh (crates : Crates) (before : KVSState) : Request → Prop
  | .register _ password => (crates.hash (bytesOf password)).length = digestLength ∧
      crates.fromSlice (crates.hash (bytesOf password)) ≠ some []
  | .refresh user _ signingKey => before.read (pubKey user) ≠ some signingKey.val ∧
      before.read (privKey user) ≠ some (crates.verifyingKey signingKey).val
  | _ => True

/-- Counting changes the counter. -/
theorem CounterIs.changes {counter} (counted : before.CounterIs key counter) :
    before.read key ≠ some (toBeBytes ((counter + 1) % 2 ^ 64)) := by
  rcases counted with ⟨absent, -⟩ | ⟨bytes, stored, decoded⟩
  · rw [absent]
    exact (some_ne_none _).symm
  · rw [stored]
    intro same
    have small : (counter + 1) % 2 ^ 64 < 2 ^ 64 := Nat.mod_lt _ (by decide)
    rw [some.inj same, KVSState.i64FromBeBytes, if_pos (length_toBeBytes _), fromBeBytes_toBeBytes small] at decoded
    have := some.inj decoded
    omega

theorem usersOf_changes (decodes : ∀ users, usersOf crates (crates.toVec users) = some users) {value users}
    (listed : usersOf crates (value.getD []) = some users) : value ≠ some (crates.toVec (users ++ [user])) := by
  rintro rfl
  rw [getD_some, decodes] at listed
  exact absurd (congrArg length (some.inj listed)) (by simp)

namespace Registered

variable {password : String} {middle : KVSState} {users : List String} {counter : Nat}
variable (registered : Registered crates user password before middle state users counter)
include registered

theorem list : state.read (bytesOf "user") = some (crates.toVec (users ++ [user])) := by
  rw [registered.after, if_neg list_ne_count, if_pos rfl]

theorem count : state.read (bytesOf "user_count") = some (toBeBytes ((counter + 1) % 2 ^ 64)) := by
  rw [registered.after, if_pos rfl]

theorem list_before (name : user ≠ "user") :
    usersOf crates ((before.read (bytesOf "user")).getD []) = some users := by
  have listed := registered.listed
  rwa [registered.created, if_neg (bytesOf_injective.not.mpr name.symm)] at listed

theorem count_before (name : user ≠ "user_count") : before.CounterIs (bytesOf "user_count") counter := by
  have counted := registered.counted
  rwa [KVSState.CounterIs, registered.created, if_neg (bytesOf_injective.not.mpr name.symm)] at counted

/-- The slot of the credential was free, and a hash is not empty. -/
theorem credential_changed (fresh : Fresh crates before (.register user password)) (off : bytesOf user ∉ books) :
    state.read (bytesOf user) ≠ before.read (bytesOf user) := by
  obtain ⟨offList, offCount⟩ := not_or.mp (mem_books.not.mp off)
  intro same
  rw [registered.after, if_neg offCount, if_neg offList, registered.created, if_pos rfl] at same
  have empty := registered.free
  rw [← same, getD_some] at empty
  have digest := fresh.1
  rw [empty] at digest
  cases digest

/-- A registration under the key of the count fails: a hash is no counter. -/
theorem ne_user_count (fresh : Fresh crates before (.register user password)) : user ≠ "user_count" := by
  rintro rfl
  rcases registered.counted with ⟨absent, -⟩ | ⟨_, stored, decoded⟩
  · rw [registered.created, if_pos rfl] at absent
    cases absent
  · rw [registered.created, if_pos rfl] at stored
    rw [← some.inj stored, KVSState.i64FromBeBytes, fresh.1] at decoded
    cases decoded

/-- A registration under the key of the list puts its hash for the list. -/
theorem ne_user (decodes : ∀ users, usersOf crates (crates.toVec users) = some users)
    (fresh : Fresh crates before (.register user password))
    (kept : BooksKept crates before state (.register user password)) : user ≠ "user" := by
  rintro rfl
  obtain ⟨old, _, found, -, list, -⟩ := kept
  rw [registered.free] at found
  obtain rfl : [] = old := some.inj found
  have same := congrArg (usersOf crates) (some.inj (registered.list.symm.trans list))
  rw [decodes, decodes, some.injEq, append_left_inj] at same
  have listed := registered.listed
  rw [registered.created, if_pos rfl, getD_some, same, usersOf] at listed
  split at listed
  · next empty =>
    have digest := fresh.1
    rw [empty] at digest
    cases digest
  · exact fresh.2 listed

theorem kept_iff (decodes : ∀ users, usersOf crates (crates.toVec users) = some users)
    (fresh : Fresh crates before (.register user password)) (differs : other ≠ user)
    (frame : ∀ key ∉ (Request.register user password).stores, state.read key = before.read key) :
    (∀ key ∈ keysOf other, state.read key = before.read key) ∧
      BooksKept crates before state (.register user password) ↔
      Apart other (.register user password) := by
  constructor
  · rintro ⟨kept, books⟩
    have offList := registered.ne_user decodes fresh books
    have offCount := registered.ne_user_count fresh
    refine ⟨⟨?_, ?_⟩, ⟨offList, offCount⟩, ?_, ?_⟩
    · rintro rfl
      refine registered.credential_changed fresh ?_ (kept _ (mem_keysOf.mpr (.inr (.inl rfl))))
      exact mem_books.not.mpr (not_or.mpr ⟨(user_ne_key other).1.symm, (user_count_ne_key other).1.symm⟩)
    · rintro rfl
      refine registered.credential_changed fresh ?_ (kept _ (mem_keysOf.mpr (.inr (.inr rfl))))
      exact mem_books.not.mpr (not_or.mpr ⟨(user_ne_key other).2.symm, (user_count_ne_key other).2.symm⟩)
    · rintro rfl
      have same := (kept _ (mem_keysOf.mpr (.inl rfl))).symm.trans registered.list
      exact usersOf_changes decodes (registered.list_before offList) same
    · rintro rfl
      have same := (kept _ (mem_keysOf.mpr (.inl rfl))).symm.trans registered.count
      exact CounterIs.changes (registered.count_before offCount) same
  · intro apart
    refine ⟨fun key own => frame key (apart.not_mem_stores rfl differs own), users, counter, ?_⟩
    obtain ⟨-, ⟨offList, offCount⟩, -⟩ := apart
    exact ⟨registered.list_before offList, registered.count_before offCount, registered.list, registered.count⟩

end Registered

theorem refreshed_kept_iff {password signingKey n} (fresh : Fresh crates before (.refresh user password signingKey))
    (stored : state = (before.push n (pubKey user) signingKey.val).push n (privKey user)
      (crates.verifyingKey signingKey).val) (differs : other ≠ user)
    (frame : ∀ key ∉ (Request.refresh user password signingKey).stores, state.read key = before.read key) :
    (∀ key ∈ keysOf other, state.read key = before.read key) ∧
      BooksKept crates before state (.refresh user password signingKey) ↔
      Apart other (.refresh user password signingKey) := by
  have pub : state.read (pubKey user) = some signingKey.val := by
    rw [stored, KVSState.read_push, if_neg (pubKey_ne_privKey _ _), KVSState.read_push, if_pos rfl]
  have priv : state.read (privKey user) = some (crates.verifyingKey signingKey).val := by
    rw [stored, KVSState.read_push, if_pos rfl]
  constructor
  · rintro ⟨kept, -⟩
    constructor
    · rintro rfl
      exact fresh.1 ((kept _ (mem_keysOf.mpr (.inl rfl))).symm.trans pub)
    · rintro rfl
      exact fresh.2 ((kept _ (mem_keysOf.mpr (.inl rfl))).symm.trans priv)
  · intro apart
    refine ⟨fun key own => frame key (apart.not_mem_stores rfl differs own), fun key book => frame key ?_⟩
    rcases mem_books.mp book with rfl | rfl
    · simp [Request.stores, user_ne_key]
    · simp [Request.stores, user_count_ne_key]

end

/-- Only the keys of the user and the books change, whatever the names. A request that succeeds keeps
the keys of another user and the books exactly if no name is the key of something else. -/
theorem ownKeysOnly_iff {crates : Crates} {request : Request} {user other : String} {engine : KVSAppEngine}
    {system : System Phase Journal} (serves : request.writer = some user) (differs : other ≠ user)
    (decodes : ∀ users, usersOf crates (crates.toVec users) = some users)
    (reached : Reaches (frontend crates).step Any (serving engine request) system) :
    (∀ key ∉ keysOf user ++ books, system.engine.state.read key = engine.state.read key) ∧
    (Apart other request → ∀ key ∈ keysOf other, system.engine.state.read key = engine.state.read key) ∧
    ∀ {response : HttpResponse}, system.tasks = [.waiting (.answered response)] → response.succeeds = true →
      Fresh crates engine.state request →
      ((∀ key ∈ keysOf other, system.engine.state.read key = engine.state.read key) ∧
        BooksKept crates engine.state system.engine.state request ↔ Apart other request) := by
  have frame (key) (off : key ∉ request.stores) : system.engine.state.read key = engine.state.read key :=
    read_of_not_mem_stores reached off
  refine ⟨fun key off => frame key fun member => off (Request.stores_subset serves member),
    fun apart key own => frame key (apart.not_mem_stores serves differs own), fun answered succeeds fresh => ?_⟩
  cases along_of_reaches serves reached answered succeeds with
  | registered registered =>
    cases serves
    exact registered.kept_iff decodes fresh differs frame
  | refreshed stored =>
    cases serves
    exact refreshed_kept_iff fresh stored differs frame
  | refused fails => exact absurd succeeds (fails ▸ Bool.false_ne_true)

theorem usersOf_encodeUsers (hash verifyingKey users) :
    usersOf (sampleCrates hash verifyingKey) (encodeUsers users) = some users := by
  have decoded := decodeUsers_encodeUsers users
  unfold usersOf
  split
  · next empty => rwa [empty] at decoded
  · exact decoded

theorem bob_keeps_keys : ∃ system,
    Reaches (frontend paddingCrates).step Any (serving {} (.register "alice" "1")) system ∧
      system.tasks = [.waiting (.answered (.created "user created" ["alice"]))] ∧
      (∀ key ∈ keysOf "bob", system.engine.state.read key = ({} : KVSAppEngine).state.read key) ∧
      BooksKept paddingCrates ({} : KVSAppEngine).state system.engine.state (.register "alice" "1") := by
  obtain ⟨system, reached, created⟩ : ∃ system,
      Reaches (frontend paddingCrates).step Any (serving {} (.register "alice" "1")) system ∧
      system.tasks = [.waiting (.answered (.created "user created" ["alice"]))] :=
    exists_reaches_any [.reply 0 0 false, .reply 0 1 false, .reply 0 1 false, .reply 0 2 false] (by decide +kernel)
  have fresh : Fresh paddingCrates ({} : KVSAppEngine).state (.register "alice" "1") :=
    ⟨length_paddingCrates_hash _, by decide +kernel⟩
  have serves : (Request.register "alice" "1").writer = some "alice" := rfl
  have differs : "bob" ≠ "alice" := by decide
  obtain ⟨-, -, exact_iff⟩ := ownKeysOnly_iff serves differs (usersOf_encodeUsers _ _) reached
  obtain ⟨kept, books⟩ := (exact_iff created rfl fresh).mpr (by decide)
  exact ⟨system, reached, created, kept, books⟩

/-- The signing key of `alice` takes the place of the credential of `pub:alice`. -/
theorem credential_overwritten :
    ((runAll (frontend paddingCrates).step (start [.register "pub:alice" "2", .register "alice" "1"])
        [.reply 0 0 false, .reply 0 1 false, .reply 0 1 false, .reply 0 2 false, .reply 1 2 false, .reply 1 3 false,
          .reply 1 3 false, .reply 1 4 false]).bind fun before =>
      (runAll (frontend paddingCrates).step (serving before.engine (.refresh "alice" "1" signingKey))
        [.reply 0 4 false, .reply 0 5 false]).map fun after =>
        (before.tasks, before.engine.state.read (bytesOf "pub:alice"), after.tasks,
          after.engine.state.read (bytesOf "pub:alice"))) =
      some ([.waiting (.answered (.created "user created" ["pub:alice"])),
          .waiting (.answered (.created "user created" ["pub:alice", "alice"]))],
        some (paddingCrates.hash (bytesOf "2")),
        [.waiting (.answered (.keyPair "created key pair for user" "alice" signingKey
          (paddingCrates.verifyingKey signingKey)))],
        some signingKey.val) := by
  decide +kernel

end PirateShip.Kms
