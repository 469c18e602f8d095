import PirateShip.Kms.Registration

/-! Key pairs between two refreshes. What `pubkey` answers is the signing key of
the last refresh, and what `privkey` answers its verifying key. -/

set_option autoImplicit false

namespace PirateShip.Kms

open List Contrib StepSystem Option

variable {user other username : String} {key : KeyBytes} {value : Option Bytes} {engine after : KVSAppEngine}
  {i blockN : Nat} {txResult : ProtoTransactionResult} {response : HttpResponse}

/-!
## Keys of the store
-/

theorem pubKey_injective : pubKey user = pubKey other ↔ user = other := by
  rw [pubKey, pubKey, bytesOf_injective, String.append_right_inj]

theorem privKey_injective : privKey user = privKey other ↔ user = other := by
  rw [privKey, privKey, bytesOf_injective, String.append_right_inj]

theorem pubKey_eq (user) : pubKey user = [112, 117, 98, 58] ++ user.toUTF8.data.toList := by
  have leading : "pub:".toUTF8.data.toList = [112, 117, 98, 58] := by decide +kernel
  rw [pubKey, bytesOf, toUTF8_append, leading]

theorem privKey_eq (user) : privKey user = [112, 114, 105, 118, 58] ++ user.toUTF8.data.toList := by
  have leading : "priv:".toUTF8.data.toList = [112, 114, 105, 118, 58] := by decide +kernel
  rw [privKey, bytesOf, toUTF8_append, leading]

theorem pubKey_ne_privKey (user other) : pubKey user ≠ privKey other := by
  rw [pubKey_eq, privKey_eq]
  simp

theorem tryInto_eq_some {bytes} : tryInto bytes = some key ↔ bytes = key.val := by
  unfold tryInto
  constructor
  · intro converted
    split at converted
    · rw [← some.inj converted]
    · exact nomatch converted
  · rintro rfl
    rw [dif_pos key.property]

/-!
## What is answered
-/

namespace Journal

/-- The last of the first `epoch` signing keys stored for a user. -/
def lastOf (journal : Journal) (username : String) (epoch : Nat) : Option KeyBytes :=
  ((journal.refreshes username).take epoch).getLast?

def Signing (journal : Journal) (key : KeyBytes) : Prop := ∃ username, (username, key) ∈ journal.refreshed

end Journal

def HttpResponse.revealed : HttpResponse → List KeyBytes
  | .publicKey _ _ key => [key]
  | .publicKeys _ keys => keys
  | _ => []

def Revealed (system : System Phase Journal) (key : KeyBytes) : Prop :=
  ∃ (i : Nat) (response : HttpResponse), system.tasks[i]? = some (.waiting (.answered response)) ∧
    key ∈ response.revealed

/-!
## What is kept
-/

section

variable (crates : Crates)

structure Paired (state : KVSState) (journal : Journal) : Prop where
  pub {username : String} {key : KeyBytes} : state.read (pubKey username) = some key.val →
    (journal.refreshes username).getLast? = some key
  priv {username : String} {key : KeyBytes} : state.read (privKey username) = some key.val →
    ∃ signingKey, (journal.refreshes username).getLast? = some signingKey ∧ key = crates.verifyingKey signingKey
  published {username : String} {epoch : Nat} {key : KeyBytes} : (username, epoch, key) ∈ journal.published →
    epoch ≤ (journal.refreshes username).length ∧ journal.lastOf username epoch = some key
  disclosed {username : String} {epoch : Nat} {key : KeyBytes} : (username, epoch, key) ∈ journal.disclosed →
    epoch ≤ (journal.refreshes username).length ∧
      ∃ signingKey, journal.lastOf username epoch = some signingKey ∧ key = crates.verifyingKey signingKey

def Noted (journal : Journal) : HttpResponse → Prop
  | .publicKey _ username publicKey => ∃ epoch, (username, epoch, publicKey) ∈ journal.published
  | .privateKey _ username privateKey => ∃ epoch, (username, epoch, privateKey) ∈ journal.disclosed
  | _ => True

def Shown (journal : Journal) : Phase → Prop
  | .listKey _ _ publicKeys => ∀ key ∈ publicKeys, journal.Signing key
  | .answered response => (∀ key ∈ response.revealed, journal.Signing key) ∧ Noted journal response
  | _ => True

def keyPairs : Assertion Phase Journal where
  world := Paired crates
  task journal _ := Shown journal
  late _ _ := True

end

variable {crates : Crates} {state : KVSState} {journal : Journal}

theorem Paired.push {n key val} (paired : Paired crates state journal)
    (harmless : val.length ≠ keyLength ∨ ∀ username, key ≠ pubKey username ∧ key ≠ privKey username) :
    Paired crates (state.push n key val) journal := by
  have unchanged {other : Bytes} {stored : KeyBytes} (stands : (state.push n key val).read other = some stored.val)
      (keys : ∃ username, other = pubKey username ∨ other = privKey username) :
      state.read other = some stored.val := by
    rw [KVSState.read_push] at stands
    split at stands
    · rename_i same
      obtain rfl := some.inj stands
      obtain ⟨username, isKey⟩ := keys
      rcases harmless with long | apart
      · exact absurd stored.property long
      · exact (isKey.elim (same ▸ (apart username).1) (same ▸ (apart username).2)).elim
    · exact stands
  exact
    { pub := fun stands => paired.pub (unchanged stands ⟨_, .inl rfl⟩)
      priv := fun stands => paired.priv (unchanged stands ⟨_, .inr rfl⟩)
      published := paired.published
      disclosed := paired.disclosed }

theorem refreshes_append (journal : Journal) (username other : String) (signingKey : KeyBytes) :
    Journal.refreshes { journal with refreshed := journal.refreshed ++ [(username, signingKey)] } other =
      journal.refreshes other ++ if username = other then [signingKey] else [] := by
  by_cases same : username = other
  · simp [same, Journal.refreshes]
  · simp [same, Journal.refreshes]

theorem lastOf_of_append {later : Journal} {epoch : Nat} {new : List KeyBytes}
    (grown : later.refreshes username = journal.refreshes username ++ new)
    (past : epoch ≤ (journal.refreshes username).length) :
    later.lastOf username epoch = journal.lastOf username epoch := by
  rw [Journal.lastOf, grown, take_append_of_le_length past, Journal.lastOf]

theorem lastOf_length (journal : Journal) (username : String) :
    journal.lastOf username (journal.refreshes username).length = (journal.refreshes username).getLast? := by
  rw [Journal.lastOf, take_length]

variable (paired : Paired crates state journal)
include paired

theorem Paired.refresh (n username signingKey) : Paired crates
      ((state.push n (pubKey username) signingKey.val).push n (privKey username) (crates.verifyingKey signingKey).val)
      { journal with refreshed := journal.refreshed ++ [(username, signingKey)] } := by
  have grown := refreshes_append journal username
  have noShorter (other : String) : (journal.refreshes other).length ≤ (Journal.refreshes
      { journal with refreshed := journal.refreshed ++ [(username, signingKey)] } other).length := by
    rw [grown, length_append]
    exact Nat.le_add_right _ _
  refine ⟨?_, ?_, ?_, ?_⟩
  · intro other key stands
    rw [KVSState.read_push, if_neg (pubKey_ne_privKey _ _), KVSState.read_push] at stands
    rw [grown]
    by_cases same : username = other
    · rw [if_pos (congrArg pubKey same.symm), some.injEq, Subtype.val_inj] at stands
      rw [if_pos same, getLast?_concat, stands]
    · rw [if_neg fun equal => same (pubKey_injective.mp equal).symm] at stands
      rw [if_neg same, append_nil]
      exact paired.pub stands
  · intro other key stands
    rw [KVSState.read_push] at stands
    rw [grown]
    by_cases same : username = other
    · rw [if_pos (congrArg privKey same.symm), some.injEq, Subtype.val_inj] at stands
      rw [if_pos same, getLast?_concat]
      exact ⟨signingKey, rfl, stands.symm⟩
    · rw [if_neg fun equal => same (privKey_injective.mp equal).symm, KVSState.read_push,
        if_neg (pubKey_ne_privKey _ _).symm] at stands
      rw [if_neg same, append_nil]
      exact paired.priv stands
  · intro other epoch key member
    obtain ⟨past, last⟩ := paired.published member
    exact ⟨Nat.le_trans past (noShorter other), (lastOf_of_append (grown other signingKey) past).trans last⟩
  · intro other epoch key member
    obtain ⟨past, drawn, last, derived⟩ := paired.disclosed member
    exact ⟨Nat.le_trans past (noShorter other), drawn,
      (lastOf_of_append (grown other signingKey) past).trans last, derived⟩

theorem Paired.publish (stands : (journal.refreshes username).getLast? = some key) :
    Paired crates state { journal with
      published := journal.published ++ [(username, (journal.refreshes username).length, key)] } where
  pub := paired.pub
  priv := paired.priv
  published member := by
    rcases mem_append.mp member with old | new
    · exact paired.published old
    · obtain ⟨rfl, rfl, rfl⟩ := mem_singleton.mp new
      exact ⟨Nat.le_refl _, (lastOf_length journal _).trans stands⟩
  disclosed := paired.disclosed

theorem Paired.disclose {signingKey} (stands : (journal.refreshes username).getLast? = some signingKey)
    (derived : key = crates.verifyingKey signingKey) :
    Paired crates state { journal with
      disclosed := journal.disclosed ++ [(username, (journal.refreshes username).length, key)] } where
  pub := paired.pub
  priv := paired.priv
  published := paired.published
  disclosed member := by
    rcases mem_append.mp member with old | new
    · exact paired.disclosed old
    · obtain ⟨rfl, rfl, rfl⟩ := mem_singleton.mp new
      exact ⟨Nat.le_refl _, signingKey, (lastOf_length journal _).trans stands, derived⟩

omit paired

theorem user_ne_key (username) : bytesOf "user" ≠ pubKey username ∧ bytesOf "user" ≠ privKey username := by
  have leading : bytesOf "user" = [117, 115, 101, 114] := by decide +kernel
  rw [leading, pubKey_eq, privKey_eq]
  simp

theorem user_count_ne_key (username) :
    bytesOf "user_count" ≠ pubKey username ∧ bytesOf "user_count" ≠ privKey username := by
  have leading : bytesOf "user_count" = [117, 115, 101, 114, 95, 99, 111, 117, 110, 116] := by decide +kernel
  rw [leading, pubKey_eq, privKey_eq]
  simp

theorem bind_tryInto_eq_some (converted : value.bind tryInto = some key) : value = some key.val := by
  obtain ⟨_, rfl, fits⟩ := bind_eq_some_iff.mp converted
  rw [tryInto_eq_some.mp fits]

theorem Paired.executed {phase tx} (digests : ∀ message, (crates.hash message).length = digestLength)
    (paired : Paired crates engine.state journal) (sent : phase.pending crates = some tx)
    (ran : tx.run blockN engine = some (after, txResult)) :
    Paired crates after.state (journal.executed engine.state i phase) := by
  cases phase with
  | registerCheck _ _ | registerList _ _ | refreshCheck _ _ _ | listUsers | listKey _ _ _ | privkeyCheck _ _ =>
    obtain rfl := some.inj sent
    obtain ⟨rfl, -⟩ := Transaction.of_run_read ran
    exact paired
  | registerCreate username password =>
    obtain rfl := some.inj sent
    obtain ⟨rfl, -⟩ := Prod.mk.inj (some.inj ran)
    have long : (crates.hash (bytesOf password)).length ≠ keyLength := by
      rw [digests]
      decide
    have written : Paired crates (engine.state.push blockN (bytesOf username) _) journal := paired.push (.inl long)
    exact ⟨written.pub, written.priv, written.published, written.disclosed⟩
  | registerUpdate username password users =>
    obtain rfl := some.inj sent
    obtain ⟨_, incremented⟩ := Transaction.of_run_write_increment ran
    obtain ⟨_, _, stored, _⟩ := KVSState.of_increment incremented
    have written : Paired crates after.state journal := by
      rw [stored]
      exact (paired.push (.inr user_ne_key)).push (.inr user_count_ne_key)
    exact ⟨written.pub, written.priv, written.published, written.disclosed⟩
  | refreshStore username signingKey =>
    obtain rfl := some.inj sent
    obtain ⟨rfl, -⟩ := Prod.mk.inj (some.inj ran)
    exact paired.refresh blockN username signingKey
  | pubkeyRead username =>
    obtain rfl := some.inj sent
    obtain ⟨rfl, -⟩ := Transaction.of_run_read ran
    dsimp only [Journal.executed]
    split
    · exact paired
    · rename_i converted
      exact paired.publish (paired.pub (bind_tryInto_eq_some converted))
  | privkeyRead username =>
    obtain rfl := some.inj sent
    obtain ⟨rfl, -⟩ := Transaction.of_run_read ran
    dsimp only [Journal.executed]
    split
    · exact paired
    · rename_i converted
      obtain ⟨signingKey, last, derived⟩ := paired.priv (bind_tryInto_eq_some converted)
      exact paired.disclose last derived
  | answered _ | panicked => exact nomatch sent

theorem shown_of_silent (nothing : response.revealed = []) (noted : Noted journal response) :
    Shown journal (.answered response) :=
  ⟨fun _ member => absurd (nothing ▸ member) not_mem_nil, noted⟩

theorem shown_listKeys {keys} (signing : ∀ key ∈ keys, journal.Signing key) (users) :
    Shown journal (listKeys keys users) := by
  cases users with
  | nil => exact ⟨signing, trivial⟩
  | cons username rest => exact signing

theorem shown_of_authenticateUser {password result}
    (refused : authenticateUser crates username password result = .error response) :
    Shown journal (.answered response) := by
  unfold authenticateUser at refused
  split at refused
  · cases refused
    exact shown_of_silent rfl trivial
  · split at refused
    · cases refused
      exact shown_of_silent rfl trivial
    · exact nomatch refused

theorem Paired.signing (paired : Paired crates state journal)
    (stands : state.read (pubKey username) = some key.val) : journal.Signing key := by
  have member := mem_of_getLast? (paired.pub stands)
  obtain ⟨⟨name, _⟩, refreshed, rfl⟩ := mem_map.mp member
  exact ⟨name, (mem_filter.mp refreshed).1⟩

theorem resume_read {key} (phase : Phase)
    (ran : Transaction.run ⟨[readOp key], true⟩ blockN engine = some (after, txResult)) :
    phase.resume crates (.ok (values txResult)) = phase.onResult crates ((engine.state.read key).getD []) := by
  rw [(Transaction.of_run_read ran).2]
  cases engine.state.read key with
  | none => rfl
  | some bytes => rfl

theorem tryInto_getD (fits : tryInto (value.getD []) = some key) : value = some key.val := by
  cases value with
  | none => exact nomatch (show tryInto [] = none from rfl).symm.trans fits
  | some bytes => exact congrArg some (tryInto_eq_some.mp fits)

theorem executed_pubkeyRead (stands : state.read (pubKey username) = some key.val) (i) :
    journal.executed state i (.pubkeyRead username) = { journal with
      published := journal.published ++ [(username, (journal.refreshes username).length, key)] } := by
  rw [Journal.executed, stands, bind_some, tryInto_eq_some.mpr rfl]

theorem executed_privkeyRead (stands : state.read (privKey username) = some key.val) (i) :
    journal.executed state i (.privkeyRead username) = { journal with
      disclosed := journal.disclosed ++ [(username, (journal.refreshes username).length, key)] } := by
  rw [Journal.executed, stands, bind_some, tryInto_eq_some.mpr rfl]

include paired

theorem Shown.listKey {rest publicKeys} (shown : Shown journal (.listKey username rest publicKeys)) :
    Shown journal ((Phase.listKey username rest publicKeys).onResult crates
      ((state.read (pubKey username)).getD [])) := by
  dsimp only [Phase.onResult]
  split
  · exact trivial
  · rename_i _ fits
    refine shown_listKeys (fun other member => ?_) _
    rcases mem_append.mp member with old | new
    · exact shown other old
    · rw [mem_singleton.mp new]
      exact paired.signing (tryInto_getD fits)

theorem shown_pubkeyRead (i username) : Shown (journal.executed state i (.pubkeyRead username))
      ((Phase.pubkeyRead username).onResult crates ((state.read (pubKey username)).getD [])) := by
  dsimp only [Phase.onResult]
  split
  · exact shown_of_silent rfl trivial
  · split
    · exact trivial
    · rename_i key fits
      have stands := tryInto_getD fits
      have noted : (username, (journal.refreshes username).length, key) ∈
          journal.published ++ [(username, (journal.refreshes username).length, key)] :=
        mem_append_right _ (mem_singleton_self _)
      rw [executed_pubkeyRead stands]
      refine ⟨fun other member => ?_, _, noted⟩
      rw [mem_singleton.mp member]
      exact paired.signing stands

omit paired

theorem shown_privkeyRead (state : KVSState) (journal : Journal) (i : Nat) (username : String) :
    Shown (journal.executed state i (.privkeyRead username))
      ((Phase.privkeyRead username).onResult crates ((state.read (privKey username)).getD [])) := by
  dsimp only [Phase.onResult]
  split
  · exact shown_of_silent rfl trivial
  · split
    · exact trivial
    · rename_i key fits
      have noted : (username, (journal.refreshes username).length, key) ∈
          journal.disclosed ++ [(username, (journal.refreshes username).length, key)] :=
        mem_append_right _ (mem_singleton_self _)
      rw [executed_privkeyRead (tryInto_getD fits)]
      exact shown_of_silent rfl ⟨_, noted⟩

theorem Shown.resumed {phase tx} (paired : Paired crates engine.state journal) (shown : Shown journal phase)
    (sent : phase.pending crates = some tx) (ran : tx.run blockN engine = some (after, txResult)) :
    Shown (journal.executed engine.state i phase) (phase.resume crates (.ok (values txResult))) := by
  cases phase with
  | registerCheck username password =>
    dsimp only [Phase.resume, Phase.onResult]
    split
    · exact shown_of_silent rfl trivial
    · exact trivial
  | registerCreate _ _ => exact trivial
  | registerList username password =>
    dsimp only [Phase.resume, Phase.onResult]
    split <;> exact trivial
  | registerUpdate _ _ _ | refreshStore _ _ => exact shown_of_silent rfl trivial
  | refreshCheck _ _ _ | privkeyCheck _ _ =>
    dsimp only [Phase.resume, Phase.onResult]
    split
    · rename_i refused
      exact shown_of_authenticateUser refused
    · exact trivial
  | listUsers =>
    dsimp only [Phase.resume, Phase.onResult]
    split
    · exact trivial
    · exact shown_listKeys (forall_mem_nil _) _
  | listKey username rest publicKeys =>
    obtain rfl := some.inj sent
    rw [resume_read _ ran]
    exact Shown.listKey paired shown
  | pubkeyRead username =>
    obtain rfl := some.inj sent
    rw [resume_read _ ran]
    exact shown_pubkeyRead paired i username
  | privkeyRead username =>
    obtain rfl := some.inj sent
    rw [resume_read _ ran]
    exact shown_privkeyRead engine.state journal i username
  | answered _ | panicked => exact nomatch sent

theorem executed_grows (journal : Journal) (state : KVSState) (i : Nat) (phase : Phase) :
    journal.refreshed ⊆ (journal.executed state i phase).refreshed ∧
      journal.published ⊆ (journal.executed state i phase).published ∧
      journal.disclosed ⊆ (journal.executed state i phase).disclosed := by
  unfold Journal.executed
  split
  case h_4 => split <;> simp
  case h_5 => split <;> simp
  all_goals simp

theorem Shown.later {later phase} (shown : Shown journal phase)
    (refreshed : journal.refreshed ⊆ later.refreshed) (published : journal.published ⊆ later.published)
    (disclosed : journal.disclosed ⊆ later.disclosed) : Shown later phase := by
  have signing {key : KeyBytes} (stored : journal.Signing key) : later.Signing key :=
    stored.imp fun _ member => refreshed member
  cases phase with
  | listKey username rest publicKeys => exact fun key member => signing (shown key member)
  | answered response =>
    refine ⟨fun key member => signing (shown.1 key member), ?_⟩
    cases response with
    | publicKey message username key => exact shown.2.imp fun _ member => published member
    | privateKey message username key => exact shown.2.imp fun _ member => disclosed member
    | created _ _ | keyPair _ _ _ _ | publicKeys _ _ | conflict _ | notFound _ _ | unauthorized _ _ | failed _ =>
      exact trivial
  | registerCheck _ _ | registerCreate _ _ | registerList _ _ | registerUpdate _ _ _ | refreshCheck _ _ _
  | refreshStore _ _ | listUsers | pubkeyRead _ | privkeyCheck _ _ | privkeyRead _ | panicked => exact trivial

theorem keyPairs_kept (digests : ∀ message, (crates.hash message).length = digestLength) :
    (keyPairs crates).Kept (frontend crates) Guard.free where
  world paired _ _ sent ran := Paired.executed digests paired sent ran
  resumed paired shown _ sent ran := Shown.resumed paired shown sent ran
  others {journal state i _ phase _} _ shown := have grown := executed_grows journal state i phase
    Shown.later shown grown.1 grown.2.1 grown.2.2
  lost _ _ _ _ := ⟨shown_of_silent rfl trivial, fun _ => trivial⟩
  arrived _ _ _ := rfl

theorem keyPairs_start (crates requests) : (keyPairs crates).Holds (start requests) where
  world :=
    { pub := fun stands => nomatch stands
      priv := fun stands => nomatch stands
      published := fun member => nomatch member
      disclosed := fun member => nomatch member }
  task i task found := by
    simp only [start, getElem?_map, map_eq_some_iff] at found
    obtain ⟨request, _, rfl⟩ := found
    cases request <;> exact trivial
  late _ member := nomatch member

/-!
## The pairs that are answered
-/

/-- The keys that are answered, with the condition for a pair to match and for the
signing keys to stay secret. -/
structure KeysDescribed (crates : Crates) (system : System Phase Journal) : Prop where
  noted {i : Nat} {response : HttpResponse} : system.tasks[i]? = some (.waiting (.answered response)) →
    Noted system.journal response
  pairs {username : String} {epoch : Nat} {publicKey privateKey : KeyBytes} :
    (username, epoch, publicKey) ∈ system.journal.published →
      (username, epoch, privateKey) ∈ system.journal.disclosed →
      ∃ signingKey, system.journal.lastOf username epoch = some signingKey ∧
        (publicKey = crates.verifyingKey privateKey ↔
          crates.verifyingKey (crates.verifyingKey signingKey) = signingKey)
  secret : (∀ key, Revealed system key → ¬ system.journal.Signing key) ↔ ∀ key, ¬ Revealed system key
  unrefreshed : system.journal.refreshed = [] → ∀ key, ¬ Revealed system key

theorem keysDescribed_of_reaches {requests : List Request} {system : System Phase Journal}
    (digests : ∀ message, (crates.hash message).length = digestLength)
    (reached : Reaches (frontend crates).step Any (start requests) system) : KeysDescribed crates system := by
  have holds := (keyPairs_kept digests).reaches (keyPairs_start crates requests)
    (reached.mono fun _ => Guard.free_allows _ _)
  have signing {key : KeyBytes} (revealed : Revealed system key) : system.journal.Signing key := by
    obtain ⟨i, _, found, member⟩ := revealed
    have shown := holds.task i _ found
    exact shown.1 key member
  refine ⟨fun found => ?_, fun published disclosed => ?_,
    ⟨fun secret key revealed => ?_, fun none key revealed => ?_⟩,
    fun unrefreshed key revealed => ?_⟩
  · have shown := holds.task _ _ found
    exact shown.2
  · obtain ⟨_, last⟩ := holds.world.published published
    obtain ⟨_, _, drawn, rfl⟩ := holds.world.disclosed disclosed
    obtain rfl := some.inj (last.symm.trans drawn)
    exact ⟨_, drawn, eq_comm⟩
  · exact secret key revealed (signing revealed)
  · exact absurd revealed (none key)
  · obtain ⟨_, member⟩ := signing revealed
    rw [unrefreshed] at member
    exact nomatch member

/-- Crates with a hash of the right length and a key derivation that is one-to-one
but not its own inverse. -/
def paddingCrates : Crates :=
  sampleCrates (fun message => (message ++ List.replicate digestLength 0).take digestLength)
    fun key => ⟨key.val.map (· + 1), (length_map _).trans key.property⟩

theorem length_paddingCrates_hash (message) : (paddingCrates.hash message).length = digestLength := by
  simp [paddingCrates, sampleCrates]

def signingKey : KeyBytes := ⟨List.replicate 32 1, rfl⟩

def aliceRequests : List Request :=
  [.register "alice" "1", .pubkey "alice", .refresh "alice" "1" signingKey, .pubkey "alice", .privkey "alice" "1",
    .listpubkeys]

theorem keysDescribed_unrefreshed :
    ∃ system, Reaches (frontend paddingCrates).step Any (start aliceRequests) system ∧
      system.tasks[1]? = some (.waiting (.answered (.notFound "public key could not be found" "alice"))) ∧
      KeysDescribed paddingCrates system ∧ ∀ key, ¬ Revealed system key := by
  obtain ⟨system, reached, answered, unrefreshed⟩ : ∃ system,
      Reaches (frontend paddingCrates).step Any (start aliceRequests) system ∧
      system.tasks[1]? = some (.waiting (.answered (.notFound "public key could not be found" "alice"))) ∧
      system.journal.refreshed = [] :=
    exists_reaches_any [.reply 0 0 false, .reply 0 1 false, .reply 0 1 false, .reply 0 2 false, .reply 1 2 false]
      (by decide +kernel)
  have described := keysDescribed_of_reaches length_paddingCrates_hash reached
  exact ⟨system, reached, answered, described, described.unrefreshed unrefreshed⟩

/-- After one refresh the key of `pubkey` is the signing key, and that of `privkey`
does not belong to it. -/
theorem signing_key_revealed :
    ∃ system, Reaches (frontend paddingCrates).step Any (start aliceRequests) system ∧
      ("alice", 1, signingKey) ∈ system.journal.published ∧
      ("alice", 1, paddingCrates.verifyingKey signingKey) ∈ system.journal.disclosed ∧
      signingKey ≠ paddingCrates.verifyingKey (paddingCrates.verifyingKey signingKey) ∧
      system.tasks[5]? = some (.waiting (.answered (.publicKeys "public keys retrieved" [signingKey]))) ∧
      Revealed system signingKey ∧ system.journal.Signing signingKey := by
  obtain ⟨system, reached, published, disclosed, answered, listed, refreshed⟩ : ∃ system,
      Reaches (frontend paddingCrates).step Any (start aliceRequests) system ∧
      ("alice", 1, signingKey) ∈ system.journal.published ∧
      ("alice", 1, paddingCrates.verifyingKey signingKey) ∈ system.journal.disclosed ∧
      system.tasks[3]? = some (.waiting (.answered (.publicKey "public key of user" "alice" signingKey))) ∧
      system.tasks[5]? = some (.waiting (.answered (.publicKeys "public keys retrieved" [signingKey]))) ∧
      ("alice", signingKey) ∈ system.journal.refreshed :=
    exists_reaches_any [.reply 0 0 false, .reply 0 1 false, .reply 0 1 false, .reply 0 2 false, .reply 2 2 false,
      .reply 2 3 false, .reply 3 3 false, .reply 4 3 false, .reply 4 3 false, .reply 5 3 false, .reply 5 3 false]
      (by decide +kernel)
  exact ⟨system, reached, published, disclosed, by decide +kernel, listed,
    ⟨3, _, answered, mem_singleton_self _⟩, "alice", refreshed⟩

end PirateShip.Kms
