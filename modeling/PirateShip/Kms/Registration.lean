import PirateShip.Contrib.Invariant
import PirateShip.Kms.Frontend

/-! Registrations next to each other. No user is lost as long as a name is still
free when it is written and the user list is still the one that was read. -/

set_option autoImplicit false

namespace PirateShip.Kms

open List Contrib StepSystem Option

variable {i : Nat} {key : Bytes} {username password : String}

/-!
## What is stored
-/

def storedUsers (crates : Crates) (state : KVSState) : List String :=
  ((state.read (bytesOf "user")).bind crates.fromSlice).getD []

def userCount (state : KVSState) : Nat := ((state.read (bytesOf "user_count")).map fromBeBytes).getD 0

def Internal (name : String) : Prop := name = "user" ∨ name = "user_count"

def registering (requests : List (String × String)) : System Phase Journal :=
  start (requests.map fun request => .register request.1 request.2)

def Succeeded (system : System Phase Journal) (i : Nat) : Prop :=
  ∃ message users, system.tasks[i]? = some (.waiting (.answered (.created message users)))

def Finished (crates : Crates) (system : System Phase Journal) : Prop :=
  ∀ task ∈ system.tasks, ∃ phase : Phase, task = .waiting phase ∧ phase.pending crates = none

structure Consistent (crates : Crates) (requests : List (String × String)) (system : System Phase Journal) :
    Prop where
  once (name : String) : (storedUsers crates system.engine.state).count name = 1 ↔
    ∃ i password, requests[i]? = some (name, password) ∧ Succeeded system i
  unique {i j : Nat} {name first second : String} : requests[i]? = some (name, first) →
    requests[j]? = some (name, second) → Succeeded system i → Succeeded system j → i = j
  password {i : Nat} {name password : String} : requests[i]? = some (name, password) → Succeeded system i →
    system.engine.state.read (bytesOf name) = some (crates.hash (bytesOf password))
  count : userCount system.engine.state = (storedUsers crates system.engine.state).length % 2 ^ 64

/-- A name is free when it is created, the list is the stored one when it is
extended, and the reply to that is not lost. -/
def orderly (crates : Crates) : Guard Phase where
  execute state
    | .registerCreate username _ => state.read (bytesOf username) = none
    | .registerUpdate username _ users => users = storedUsers crates state ++ [username]
    | _ => True
  lose
    | .registerUpdate _ _ _ => False
    | _ => True

instance decidableExecute (crates : Crates) (state : KVSState) :
    ∀ phase, Decidable ((orderly crates).execute state phase)
  | .registerCreate username _ => inferInstanceAs (Decidable (state.read (bytesOf username) = none))
  | .registerUpdate username _ users => inferInstanceAs (Decidable (users = storedUsers crates state ++ [username]))
  | .registerCheck _ _ | .registerList _ _ | .refreshCheck _ _ _ | .refreshStore _ _ | .listUsers | .listKey _ _ _
  | .pubkeyRead _ | .privkeyCheck _ _ | .privkeyRead _ | .answered _ | .panicked => isTrue trivial

instance decidableLose (crates : Crates) : ∀ phase, Decidable ((orderly crates).lose phase)
  | .registerUpdate _ _ _ => isFalse not_false
  | .registerCheck _ _ | .registerCreate _ _ | .registerList _ _ | .refreshCheck _ _ _ | .refreshStore _ _
  | .listUsers | .listKey _ _ _ | .pubkeyRead _ | .privkeyCheck _ _ | .privkeyRead _ | .answered _ | .panicked =>
    isTrue trivial

/-!
## The journal
-/

namespace Phase

def creates (i : Nat) : Phase → List Registration
  | .registerCreate username password => [⟨i, username, password⟩]
  | _ => []

def lists (i : Nat) : Phase → List Registration
  | .registerUpdate username password _ => [⟨i, username, password⟩]
  | _ => []

end Phase

theorem created_executed (journal : Journal) (state : KVSState) (i : Nat) (phase : Phase) :
    (journal.executed state i phase).created = journal.created ++ phase.creates i := by
  unfold Journal.executed Phase.creates
  split <;> simp
  all_goals split <;> rfl

theorem listed_executed (journal : Journal) (state : KVSState) (i : Nat) (phase : Phase) :
    (journal.executed state i phase).listed = journal.listed ++ phase.lists i := by
  unfold Journal.executed Phase.lists
  split <;> simp
  all_goals split <;> rfl

theorem id_of_mem_lists {phase : Phase} {entry : Registration} (member : entry ∈ phase.lists i) : entry.id = i := by
  unfold Phase.lists at member
  split at member
  · rw [mem_singleton.mp member]
  · exact nomatch member

/-!
## What is kept
-/

section

variable (crates : Crates) (requests : List (String × String))

structure Recorded (state : KVSState) (journal : Journal) : Prop where
  asked : ∀ entry ∈ journal.created, requests[entry.id]? = some (entry.username, entry.password)
  names : (journal.created.map (·.username)).Nodup
  hashes : ∀ entry ∈ journal.created,
    state.read (bytesOf entry.username) = some (crates.hash (bytesOf entry.password))
  created : ∀ entry ∈ journal.listed, entry ∈ journal.created
  listed : journal.listed.Nodup
  users : storedUsers crates state = journal.listed.map (·.username)
  count : userCount state = journal.listed.length % 2 ^ 64

def Progress (journal : Journal) (i : Nat) : Phase → Prop
  | .registerCheck username password | .registerCreate username password =>
    requests[i]? = some (username, password) ∧ ∀ entry ∈ journal.listed, entry.id ≠ i
  | .registerList username password | .registerUpdate username password _ =>
    requests[i]? = some (username, password) ∧ ⟨i, username, password⟩ ∈ journal.created ∧
      ∀ entry ∈ journal.listed, entry.id ≠ i
  | .answered (.created _ _) => ∃ entry ∈ journal.listed, entry.id = i
  | .answered _ | .panicked => ∀ entry ∈ journal.listed, entry.id ≠ i
  | _ => False

def registrations : Assertion Phase Journal where
  world := Recorded crates requests
  task := Progress requests
  late i phase := ∃ username password,
    phase = .registerCreate username password ∧ requests[i]? = some (username, password)

end

variable {crates : Crates} {requests : List (String × String)} {state : KVSState} {journal : Journal}

theorem storedUsers_push (apart : key ≠ bytesOf "user") (n val) :
    storedUsers crates (state.push n key val) = storedUsers crates state := by
  rw [storedUsers, KVSState.read_push, if_neg apart.symm, storedUsers]

theorem userCount_push (apart : key ≠ bytesOf "user_count") (n val) :
    userCount (state.push n key val) = userCount state := by
  rw [userCount, KVSState.read_push, if_neg apart.symm, userCount]

theorem Recorded.create {n} (recorded : Recorded crates requests state journal) (external : ¬ Internal username)
    (asked : requests[i]? = some (username, password)) (free : state.read (bytesOf username) = none) :
    Recorded crates requests (state.push n (bytesOf username) (crates.hash (bytesOf password)))
      { journal with created := journal.created ++ [⟨i, username, password⟩] } := by
  have fresh : ∀ entry ∈ journal.created, entry.username ≠ username := by
    rintro entry member rfl
    exact nomatch free.symm.trans (recorded.hashes entry member)
  exact
    { asked := fun entry member => (mem_append.mp member).elim (recorded.asked entry) fun new => by
        rw [mem_singleton.mp new]
        exact asked
      names := by
        rw [map_append, map_singleton, ← concat_eq_append]
        refine recorded.names.concat fun member => ?_
        obtain ⟨entry, old, same⟩ := mem_map.mp member
        exact fresh entry old same
      hashes := fun entry member => by
        rw [KVSState.read_push]
        rcases mem_append.mp member with old | new
        · rw [if_neg (bytesOf_injective.not.mpr (fresh entry old))]
          exact recorded.hashes entry old
        · rw [mem_singleton.mp new, if_pos rfl]
      created := fun entry member => mem_append_left _ (recorded.created entry member)
      listed := recorded.listed
      users := (storedUsers_push (bytesOf_injective.not.mpr (external ∘ .inl)) n _).trans recorded.users
      count := (userCount_push (bytesOf_injective.not.mpr (external ∘ .inr)) n _).trans recorded.count }

theorem userCount_of_counterIs {counter} (found : state.CounterIs (bytesOf "user_count") counter) :
    userCount state = counter := by
  rcases found with ⟨absent, rfl⟩ | ⟨_, stored, decoded⟩
  · rw [userCount, absent]
    rfl
  · rw [userCount, stored]
    unfold KVSState.i64FromBeBytes at decoded
    split at decoded
    · exact some.inj decoded
    · exact nomatch decoded

theorem Recorded.update {n after results} (recorded : Recorded crates requests state journal)
    (external : ∀ request ∈ requests, ¬ Internal request.1)
    (decodes : ∀ users, crates.fromSlice (crates.toVec users) = some users)
    (member : ⟨i, username, password⟩ ∈ journal.created) (unlisted : ∀ entry ∈ journal.listed, entry.id ≠ i)
    (incremented : (state.push n (bytesOf "user") (crates.toVec (storedUsers crates state ++ [username]))).increment n
      [bytesOf "user_count"] (bytesOf "user_count") = some (after, results)) :
    Recorded crates requests after { journal with listed := journal.listed ++ [⟨i, username, password⟩] } := by
  obtain ⟨_, found, rfl, -⟩ := KVSState.of_increment incremented
  have apart : bytesOf "user" ≠ bytesOf "user_count" := bytesOf_injective.not.mpr (by decide)
  exact
    { asked := recorded.asked
      names := recorded.names
      hashes := fun entry created => by
        have outer := external _ (mem_of_getElem? (recorded.asked entry created))
        rw [KVSState.read_push, if_neg (bytesOf_injective.not.mpr (outer ∘ .inr)), KVSState.read_push,
          if_neg (bytesOf_injective.not.mpr (outer ∘ .inl))]
        exact recorded.hashes entry created
      created := fun entry listed => (mem_append.mp listed).elim (recorded.created entry) fun new => by
        rw [mem_singleton.mp new]
        exact member
      listed := by
        rw [← concat_eq_append]
        exact recorded.listed.concat fun old => unlisted _ old rfl
      users := by
        rw [storedUsers_push apart.symm, storedUsers, KVSState.read_push, if_pos rfl, bind_some, decodes,
          getD_some, recorded.users, map_append, map_singleton]
      count := by
        have before := userCount_of_counterIs found
        rw [userCount_push apart, recorded.count] at before
        rw [userCount, KVSState.read_push, if_pos rfl, map_some, getD_some,
          fromBeBytes_toBeBytes (Nat.mod_lt _ (by decide)), ← before, length_append, length_singleton,
          Nat.mod_add_mod] }

theorem Progress.later {later j phase} (progress : Progress requests journal j phase)
    (created : ∀ entry ∈ journal.created, entry ∈ later.created)
    (listed : ∀ entry ∈ journal.listed, entry ∈ later.listed)
    (new : ∀ entry ∈ later.listed, entry.id = j → entry ∈ journal.listed) : Progress requests later j phase := by
  have unlisted (none : ∀ entry ∈ journal.listed, entry.id ≠ j) : ∀ entry ∈ later.listed, entry.id ≠ j :=
    fun entry member same => none entry (new entry member same) same
  unfold Progress at progress ⊢
  split at progress
  · exact ⟨progress.1, unlisted progress.2⟩
  · exact ⟨progress.1, unlisted progress.2⟩
  · exact ⟨progress.1, created _ progress.2.1, unlisted progress.2.2⟩
  · exact ⟨progress.1, created _ progress.2.1, unlisted progress.2.2⟩
  · obtain ⟨entry, member, same⟩ := progress
    exact ⟨entry, listed entry member, same⟩
  · exact unlisted progress
  · exact unlisted progress
  · exact progress.elim

theorem Recorded.executed {engine after blockN phase tx txResult}
    (external : ∀ request ∈ requests, ¬ Internal request.1)
    (decodes : ∀ users, crates.fromSlice (crates.toVec users) = some users)
    (recorded : Recorded crates requests engine.state journal) (progress : Progress requests journal i phase)
    (guarded : (orderly crates).execute engine.state phase) (sent : phase.pending crates = some tx)
    (ran : tx.run blockN engine = some (after, txResult)) :
    Recorded crates requests after.state (journal.executed engine.state i phase) := by
  cases phase with
  | registerCheck username password | registerList username password =>
    obtain rfl := some.inj sent
    obtain ⟨rfl, -⟩ := Transaction.of_run_read ran
    exact recorded
  | registerCreate username password =>
    obtain rfl := some.inj sent
    obtain ⟨rfl, -⟩ := Prod.mk.inj (some.inj ran)
    exact recorded.create (external _ (mem_of_getElem? progress.1)) progress.1 guarded
  | registerUpdate username password users =>
    obtain rfl := some.inj sent
    obtain ⟨_, incremented⟩ := Transaction.of_run_write_increment ran
    obtain rfl : users = storedUsers crates engine.state ++ [username] := guarded
    exact recorded.update external decodes progress.2.1 progress.2.2 incremented
  | answered response | panicked => exact nomatch sent
  | refreshCheck _ _ _ | refreshStore _ _ | listUsers | listKey _ _ _ | pubkeyRead _ | privkeyCheck _ _
  | privkeyRead _ => exact progress.elim

theorem Progress.resumed {phase tx} (progress : Progress requests journal i phase)
    (sent : phase.pending crates = some tx) (result) :
    Progress requests (journal.executed state i phase) i (phase.onResult crates result) := by
  cases phase with
  | registerCheck username password =>
    dsimp only [Phase.onResult]
    split
    · exact progress.2
    · exact progress
  | registerCreate username password =>
    exact ⟨progress.1, mem_append_right _ (mem_singleton_self _), progress.2⟩
  | registerList username password =>
    dsimp only [Phase.onResult]
    split
    · exact progress.2.2
    · exact progress
  | registerUpdate username password users =>
    exact ⟨_, mem_append_right _ (mem_singleton_self _), rfl⟩
  | answered response | panicked => exact nomatch sent
  | refreshCheck _ _ _ | refreshStore _ _ | listUsers | listKey _ _ _ | pubkeyRead _ | privkeyCheck _ _
  | privkeyRead _ => exact progress.elim

theorem Progress.unlisted {phase tx} (progress : Progress requests journal i phase)
    (sent : phase.pending crates = some tx) : ∀ entry ∈ journal.listed, entry.id ≠ i := by
  cases phase with
  | registerCheck username password | registerCreate username password => exact progress.2
  | registerList username password | registerUpdate username password users => exact progress.2.2
  | answered response | panicked => exact nomatch sent
  | refreshCheck _ _ _ | refreshStore _ _ | listUsers | listKey _ _ _ | pubkeyRead _ | privkeyCheck _ _
  | privkeyRead _ => exact progress.elim

theorem registrations_kept (external : ∀ request ∈ requests, ¬ Internal request.1)
    (decodes : ∀ users, crates.fromSlice (crates.toVec users) = some users) :
    (registrations crates requests).Kept (frontend crates) (orderly crates) where
  world {journal engine after i blockN phase tx txResult} recorded known guarded sent ran := by
    rcases known with progress | ⟨username, password, rfl, asked⟩
    · exact recorded.executed external decodes progress guarded sent ran
    · obtain rfl := some.inj sent
      obtain ⟨rfl, -⟩ := Prod.mk.inj (some.inj ran)
      exact Recorded.create recorded (external _ (mem_of_getElem? asked)) asked guarded
  resumed recorded progress guarded sent ran := Progress.resumed progress sent _
  others {journal state i j phase other} apart progress := by
    refine progress.later ?_ ?_ ?_
    · intro entry member
      exact created_executed journal state i phase ▸ mem_append_left _ member
    · intro entry member
      exact listed_executed journal state i phase ▸ mem_append_left _ member
    · intro entry member same
      have parted := listed_executed journal state i phase ▸ member
      rcases mem_append.mp parted with old | new
      · exact old
      · rcases apart with different | ⟨_, _, rfl, _⟩
        · exact absurd (same.symm.trans (id_of_mem_lists new)) different
        · exact nomatch new
  lost {journal i phase tx} error losable progress sent := by
    refine ⟨Progress.unlisted progress sent, fun writes => ?_⟩
    cases phase with
    | registerCreate username password => exact ⟨username, password, rfl, progress.1⟩
    | registerUpdate username password users => exact losable.elim
    | refreshStore _ _ => exact progress.elim
    | registerCheck _ _ | registerList _ _ | refreshCheck _ _ _ | listUsers | listKey _ _ _ | pubkeyRead _
    | privkeyCheck _ _ | privkeyRead _ | answered _ | panicked => exact nomatch writes
  arrived _ _ _ := rfl

theorem registrations_registering (crates requests) :
    (registrations crates requests).Holds (registering requests) where
  world :=
    { asked := fun _ member => nomatch member
      names := nodup_nil
      hashes := fun _ member => nomatch member
      created := fun _ member => nomatch member
      listed := nodup_nil
      users := rfl
      count := rfl }
  task i task found := by
    simp only [registering, start, List.map_map, getElem?_map, map_eq_some_iff] at found
    obtain ⟨_, asked, rfl⟩ := found
    exact ⟨asked, fun _ member => nomatch member⟩
  late _ member := nomatch member

/-!
## A list encoding
-/

def encodeChar (char : Char) : Bytes :=
  [1, UInt8.ofNat (char.toNat / 65536), UInt8.ofNat (char.toNat / 256), UInt8.ofNat char.toNat]

def encodeUsers (users : List String) : Bytes :=
  users.flatMap fun user => user.toList.flatMap encodeChar ++ [0, 0, 0, 0]

def decodeUsers (chars : List Char) : Bytes → Option (List String)
  | [] => some []
  | marker :: high :: middle :: low :: rest =>
    if marker = 0 then (decodeUsers [] rest).map (String.ofList chars :: ·)
    else decodeUsers (chars ++ [Char.ofNat (high.toNat * 65536 + middle.toNat * 256 + low.toNat)]) rest
  | _ => none

theorem decodeUsers_encodeChar (chars char rest) :
    decodeUsers chars (encodeChar char ++ rest) = decodeUsers (chars ++ [char]) rest := by
  have bound : char.toNat < 1114112 := by
    have valid := char.valid
    simp only [Char.toNat]
    omega
  have code : (UInt8.ofNat (char.toNat / 65536)).toNat * 65536 + (UInt8.ofNat (char.toNat / 256)).toNat * 256 +
      (UInt8.ofNat char.toNat).toNat = char.toNat := by
    simp only [UInt8.toNat_ofNat']
    omega
  simp only [encodeChar, cons_append, nil_append, decodeUsers, if_neg (show (1 : UInt8) ≠ 0 by decide),
    code, Char.ofNat_toNat]

theorem decodeUsers_chars (chars word rest) :
    decodeUsers chars (word.flatMap encodeChar ++ rest) = decodeUsers (chars ++ word) rest := by
  induction word generalizing chars with
  | nil => simp
  | cons char word ih =>
    rw [flatMap_cons, append_assoc, decodeUsers_encodeChar, ih, append_assoc, singleton_append]

theorem decodeUsers_encodeUsers (users) : decodeUsers [] (encodeUsers users) = some users := by
  induction users with
  | nil => rfl
  | cons user users ih =>
    rw [encodeUsers, flatMap_cons, append_assoc, decodeUsers_chars, ← encodeUsers]
    simp [decodeUsers, ih]

def sampleCrates (hash : Bytes → Bytes) (verifyingKey : KeyBytes → KeyBytes) : Crates where
  hash
  verifyingKey
  toVec := encodeUsers
  fromSlice := decodeUsers []

/-!
## No user is lost
-/

section

variable {system : System Phase Journal}

theorem succeeded_of_listed (holds : (registrations crates requests).Holds system)
    (length : system.tasks.length = requests.length) (finished : Finished crates system) {entry}
    (listed : entry ∈ system.journal.listed) : Succeeded system entry.id := by
  have asked := holds.world.asked entry (holds.world.created entry listed)
  have inBounds : entry.id < system.tasks.length := length ▸ (List.getElem?_eq_some_iff.mp asked).1
  have found := getElem?_eq_getElem inBounds
  obtain ⟨phase, waiting, ended⟩ := finished _ (getElem_mem inBounds)
  rw [waiting] at found
  have progress := holds.task _ _ found
  cases phase with
  | answered response =>
    cases response with
    | created message users => exact ⟨message, users, found⟩
    | keyPair _ _ _ _ | publicKeys _ _ | publicKey _ _ _ | privateKey _ _ _ | conflict _ | notFound _ _
    | unauthorized _ _ | failed _ => exact absurd rfl (progress entry listed)
  | panicked => exact absurd rfl (progress entry listed)
  | registerCheck _ _ | registerCreate _ _ | registerList _ _ | registerUpdate _ _ _ | refreshCheck _ _ _
  | refreshStore _ _ | listUsers | listKey _ _ _ | pubkeyRead _ | privkeyCheck _ _ | privkeyRead _ =>
    exact nomatch ended

theorem Succeeded.listed {i} (succeeded : Succeeded system i)
    (holds : (registrations crates requests).Holds system) : ∃ entry ∈ system.journal.listed, entry.id = i := by
  obtain ⟨_, _, found⟩ := succeeded
  exact holds.task i _ found

/-- In a run in which every name is free when it is written and every list is
extended as it is stored, the registrations that have ended agree with the store. -/
theorem consistent_of_reaches (external : ∀ request ∈ requests, ¬ Internal request.1)
    (decodes : ∀ users, crates.fromSlice (crates.toVec users) = some users)
    (reached : Reaches (frontend crates).step (orderly crates).Allows (registering requests) system)
    (finished : Finished crates system) : Consistent crates requests system := by
  have holds := (registrations_kept external decodes).reaches (registrations_registering crates requests) reached
  have recorded := holds.world
  have length : system.tasks.length = requests.length :=
    (Frontend.length_tasks_of_reaches reached).trans (by simp [registering, start])
  -- the entry of a request that succeeded
  have entry_of {i : Nat} {name password : String} (asked : requests[i]? = some (name, password))
      (succeeded : Succeeded system i) : (⟨i, name, password⟩ : Registration) ∈ system.journal.listed := by
    obtain ⟨entry, listed, rfl⟩ := succeeded.listed holds
    obtain ⟨rfl, rfl⟩ := Prod.mk.inj (some.inj
      ((recorded.asked entry (recorded.created entry listed)).symm.trans asked))
    exact listed
  have injective := inj_on_of_nodup_map recorded.names
  have distinct : (storedUsers crates system.engine.state).Nodup := by
    rw [recorded.users]
    exact recorded.listed.map_on fun first listed second other =>
      injective (recorded.created first listed) (recorded.created second other)
  refine ⟨fun name => ⟨fun once => ?_, ?_⟩, ?_, ?_, ?_⟩
  · have member := count_pos_iff.mp (once ▸ Nat.one_pos)
    rw [recorded.users] at member
    obtain ⟨entry, listed, rfl⟩ := mem_map.mp member
    exact ⟨entry.id, entry.password, recorded.asked entry (recorded.created entry listed),
      succeeded_of_listed holds length finished listed⟩
  · rintro ⟨i, password, asked, succeeded⟩
    refine count_eq_one_of_mem distinct ?_
    rw [recorded.users]
    exact mem_map.mpr ⟨_, entry_of asked succeeded, rfl⟩
  · intro i j name first second asked_i asked_j succeeded_i succeeded_j
    exact congrArg Registration.id (injective (recorded.created _ (entry_of asked_i succeeded_i))
      (recorded.created _ (entry_of asked_j succeeded_j)) rfl)
  · intro i name password asked succeeded
    exact recorded.hashes _ (recorded.created _ (entry_of asked succeeded))
  · rw [recorded.count, recorded.users, length_map]

theorem consistent_in_order :
    ∃ system, Reaches (frontend (sampleCrates id id)).step (orderly (sampleCrates id id)).Allows
        (registering [("alice", "1"), ("bob", "2"), ("alice", "3")]) system ∧
      storedUsers (sampleCrates id id) system.engine.state = ["alice", "bob"] ∧
      Consistent (sampleCrates id id) [("alice", "1"), ("bob", "2"), ("alice", "3")] system := by
  obtain ⟨system, reached, ended, stored⟩ : ∃ system,
      Reaches (frontend (sampleCrates id id)).step (orderly (sampleCrates id id)).Allows
        (registering [("alice", "1"), ("bob", "2"), ("alice", "3")]) system ∧
      system.tasks = [.waiting (.answered (.created "user created" ["alice"])),
        .waiting (.answered (.created "user created" ["alice", "bob"])),
        .waiting (.answered (.conflict "username already exists"))] ∧
      storedUsers (sampleCrates id id) system.engine.state = ["alice", "bob"] :=
    exists_reaches [.reply 0 0 true, .reply 0 1 true, .probed 0, .reply 1 1 true, .reply 1 1 false, .reply 0 1 false,
      .reply 0 2 false, .reply 1 2 true, .reply 1 3 true, .reply 2 3 true, .probed 1]
      (by decide +kernel) (by decide +kernel)
  refine ⟨system, reached, stored,
    consistent_of_reaches (by simp [Internal]) decodeUsers_encodeUsers reached fun task member => ?_⟩
  rw [ended] at member
  simp only [mem_cons, not_mem_nil, or_false] at member
  rcases member with rfl | rfl | rfl <;> exact ⟨_, rfl, rfl⟩

/-- Two users extend the empty list, and the one that is written last stays. And
two requests for one name both find it free. -/
theorem user_lost :
    (∃ system, Reaches (frontend (sampleCrates id id)).step Any (registering [("alice", "1"), ("bob", "2")]) system ∧
      system.tasks = [.waiting (.answered (.created "user created" ["alice"])),
        .waiting (.answered (.created "user created" ["bob"]))] ∧
      storedUsers (sampleCrates id id) system.engine.state = ["bob"] ∧ userCount system.engine.state = 2 ∧
      ¬ Consistent (sampleCrates id id) [("alice", "1"), ("bob", "2")] system) ∧
    ∃ system, Reaches (frontend (sampleCrates id id)).step Any (registering [("alice", "1"), ("alice", "2")]) system ∧
      system.tasks = [.waiting (.answered (.created "user created" ["alice"])),
        .waiting (.answered (.created "user created" ["alice", "alice"]))] ∧
      ¬ Consistent (sampleCrates id id) [("alice", "1"), ("alice", "2")] system := by
  constructor
  · obtain ⟨system, reached, ended, stored, counted⟩ : ∃ system,
        Reaches (frontend (sampleCrates id id)).step Any (registering [("alice", "1"), ("bob", "2")]) system ∧
        system.tasks = [.waiting (.answered (.created "user created" ["alice"])),
          .waiting (.answered (.created "user created" ["bob"]))] ∧
        storedUsers (sampleCrates id id) system.engine.state = ["bob"] ∧ userCount system.engine.state = 2 :=
      exists_reaches_any [.reply 0 0 false, .reply 0 1 false, .reply 1 1 false, .reply 1 1 false, .reply 0 1 false,
        .reply 1 1 false, .reply 0 2 false, .reply 1 2 false] (by decide +kernel)
    refine ⟨system, reached, ended, stored, counted, fun consistent => ?_⟩
    have once := (consistent.once "alice").mpr ⟨0, "1", rfl, _, _, by rw [ended]; rfl⟩
    rw [stored] at once
    exact absurd once (by decide)
  · refine exists_reaches_and [.reply 0 0 false, .reply 1 0 false, .reply 0 1 false, .reply 1 1 false,
      .reply 0 1 false, .reply 0 2 false, .reply 1 2 false, .reply 1 2 false] (allAllowed_any _ _) (by decide +kernel)
      fun _ ended consistent => ?_
    have asked : [("alice", "1"), ("alice", "2")][0]? = some ("alice", "1") := rfl
    have again : [("alice", "1"), ("alice", "2")][1]? = some ("alice", "2") := rfl
    exact nomatch consistent.unique asked again ⟨_, _, by rw [ended]; rfl⟩ ⟨_, _, by rw [ended]; rfl⟩

end

end PirateShip.Kms
