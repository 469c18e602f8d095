import PirateShip.ForkReceiver.Transition
import PirateShip.Lib.Queue

/-! Parts that wait for a configuration, and nacks for parts that turned out to be
corrupted. The two assertions on `multipart_buffer` hold as long as no backfill
response is processed while parts wait, and no nack is under way when the buffer
is filled or a part of it released. -/

set_option autoImplicit false

namespace PirateShip.ForkReceiver

open List StepSystem Option

/-- The fork receiver and the broadcaster behind it, with the channels of parts
and of nacks between them. -/
structure Parts where
  receiver : ForkReceiver
  broadcaster : BlockBroadcaster := {}
  partsTaken : Nat := 0
  nacksTaken : Nat := 0
  -- Ghost: the messages that were processed, each in the configuration of that time.
  processed : List (Nat × ProtoAppendEntries × String) := []

namespace Parts

variable {receiver : ForkReceiver}

inductive Event where
  | appendEntries (ae : ProtoAppendEntries) (sender : String) (store : BlockStore) (server : LogServer)
  | response (ae : ProtoAppendEntries) (sender : SenderType) (store : BlockStore) (server : LogServer)
  | updateView (view configNum : Nat)
  | takePart (storageAck : StorageAck)
  | takeNack

variable (crypto : CryptoService)

def process (state : Parts) (ae : ProtoAppendEntries) (sender : String) (result : Option (ForkReceiver × LogServer)) :
    Option Parts :=
  result.map fun (receiver, _) =>
    { state with receiver, processed := state.processed ++ [(state.receiver.configNum, ae, sender)] }

def step (state : Parts) : Event → Option Parts
  | .appendEntries ae sender store server =>
    if state.receiver.blockedOnMultipart || state.receiver.waitingOnNackReply then none
    else state.process ae sender (state.receiver.processFork crypto store server ae sender)
  | .response ae sender store server =>
    state.process ae sender.toNameAndSubId.1
      (state.receiver.handleCommand crypto store server (.useBackfillResponse ae sender))
  | .updateView view configNum =>
    (state.receiver.handleUpdateView crypto view configNum).map fun receiver => { state with receiver }
  | .takePart storageAck =>
    state.receiver.broadcasterTx[state.partsTaken]?.map fun part =>
      { state with
        broadcaster := state.broadcaster.processOtherBlock part storageAck
        partsTaken := state.partsTaken + 1 }
  | .takeNack =>
    match state.broadcaster.forkReceiverCommandTx[state.nacksTaken]? with
    | none => none
    | some cmd =>
      (state.receiver.handleCommand crypto (fun _ => none) {} cmd).map fun (receiver, _) =>
        { state with receiver, nacksTaken := state.nacksTaken + 1 }

/-!
## The invariant
-/

/-- The assertion on an empty buffer, where a message reaches it. -/
def BufferAssertion (state : Parts) (ae : ProtoAppendEntries) (sender : String) (store : BlockStore)
    (server : LogServer) : Prop :=
  ∀ fork part rest forwarded, Passes crypto store server state.receiver ae sender fork →
    splitParts state.receiver.configNum [] fork.serializedBlocks = some (part :: rest) → rest ≠ [] →
    forwardPart crypto { state.receiver with waitingOnNackReply := false } part rest.length
      (statsOf ae sender) = some forwarded → state.receiver.multipartBuffer = []

def AssertionsHold (state : Parts) : Event → Prop
  | .appendEntries ae sender store server =>
    state.receiver.blockedOnMultipart = false → BufferAssertion crypto state ae sender store server
  | .response ae sender store server =>
    BufferAssertion crypto state ae sender.toNameAndSubId.1 store server
  | .takeNack => ∀ parts, state.broadcaster.forkReceiverCommandTx[state.nacksTaken]? =
      some (.multipartNack parts) → parts = state.receiver.multipartBuffer.length
  | .updateView .. | .takePart _ => True

/-- What waits are the last parts of the message that was processed last. -/
def OfOneMessage (state : Parts) : Prop :=
  ∃ configNum ae sender fork part rest, state.processed.getLast? = some (configNum, ae, sender) ∧
    ae.fork = some fork ∧ splitParts configNum [] fork.serializedBlocks = some (part :: rest) ∧
    state.receiver.multipartBuffer <:+ rest.map fun part => (part, statsOf ae sender)

/-- Invariant `<blocked_on_multipart>`, in runs whose steps are all allowed. -/
structure Invariant (allowed : Parts → Event → Prop) (state : Parts) : Prop where
  blocked : state.receiver.multipartBuffer = [] ↔ state.receiver.blockedOnMultipart = false
  ofOneMessage : state.receiver.multipartBuffer ≠ [] → OfOneMessage state
  exclusive : state.receiver.blockedOnMultipart = true → ∀ event after, allowed state event →
    step crypto state event = some after → after.processed = state.processed
  assertions : ∀ event, allowed state event → AssertionsHold crypto state event

/-!
## Nacks under way
-/

def parts? : ForkReceiverCommand → Option Nat
  | .multipartNack parts => some parts
  | _ => none

def nack? (part : MultipartFork) : Option Nat :=
  if part.blocks.mapM Except.toOption = none then some part.remainingParts else none

/-- The nacks that are on their way to the receiver, and those that will be. -/
def nacks (state : Parts) : List Nat :=
  (state.broadcaster.forkReceiverCommandTx.drop state.nacksTaken).filterMap parts? ++
    (state.receiver.broadcasterTx.drop state.partsTaken).filterMap nack?

def InParts (receiver : ForkReceiver) (ae : ProtoAppendEntries) : Prop :=
  ∃ fork ∈ ae.fork, ∃ parts ∈ splitParts receiver.configNum [] fork.serializedBlocks, 1 < parts.length

/-- Messages are not processed while parts wait, and the buffer is filled, or a
part released from it, only while no nack is under way. -/
def OneAtATime (state : Parts) : Event → Prop
  | .appendEntries ae .. => InParts state.receiver ae → state.nacks = []
  | .response ae .. => state.receiver.blockedOnMultipart = false ∧ (InParts state.receiver ae → state.nacks = [])
  | .updateView _ configNum => state.receiver.blockedOnMultipart = true →
      state.receiver.configNum < configNum → state.nacks = []
  | .takePart _ | .takeNack => True

instance (receiver : ForkReceiver) (ae : ProtoAppendEntries) : Decidable (InParts receiver ae) :=
  inferInstanceAs (Decidable (∃ _ ∈ ae.fork, ∃ _ ∈ _, _))

instance (state : Parts) : ∀ event, Decidable (OneAtATime state event)
  | .appendEntries .. => inferInstanceAs (Decidable (_ → _))
  | .response .. => inferInstanceAs (Decidable (_ ∧ _))
  | .updateView .. => inferInstanceAs (Decidable (_ → _))
  | .takePart _ | .takeNack => inferInstanceAs (Decidable True)

/-- Every nack under way is for the parts that wait now, and there is at most one
if there are any. -/
structure PartsInv (state : Parts) : Prop where
  blocked : state.receiver.multipartBuffer = [] ↔ state.receiver.blockedOnMultipart = false
  ofOneMessage : state.receiver.multipartBuffer ≠ [] → OfOneMessage state
  commands : ∀ cmd ∈ state.broadcaster.forkReceiverCommandTx, ∃ parts, cmd = .multipartNack parts
  taken : state.nacksTaken ≤ state.broadcaster.forkReceiverCommandTx.length
  parts : state.partsTaken ≤ state.receiver.broadcasterTx.length
  exact : ∀ parts ∈ state.nacks, parts = state.receiver.multipartBuffer.length
  single : state.receiver.multipartBuffer ≠ [] → state.nacks.length ≤ 1

variable {crypto : CryptoService} {state after : Parts}

theorem processOtherBlock_commands (broadcaster : BlockBroadcaster) (part : MultipartFork)
    (storageAck : StorageAck) : (broadcaster.processOtherBlock part storageAck).forkReceiverCommandTx =
      broadcaster.forkReceiverCommandTx ++ (nack? part).toList.map .multipartNack := by
  unfold BlockBroadcaster.processOtherBlock nack?
  split
  · next corrupted => simp [corrupted]
  · next blocks verified =>
    obtain ⟨_, -, -, forwarded⟩ :=
      BlockBroadcaster.forwardAll_spec (fun _ => part.aeStats) storageAck broadcaster blocks
    simp [verified, forwarded]

structure ForwardsOne (crypto : CryptoService) (state : Parts) (remaining : Nat) (after : Parts) : Prop where
  forwarded : ∃ part aeStats sent forwarded, forwardPart crypto sent part remaining aeStats = some forwarded ∧
    sent.broadcasterTx = state.receiver.broadcasterTx ∧ after.receiver.broadcasterTx = forwarded.broadcasterTx
  broadcaster : after.broadcaster = state.broadcaster
  partsTaken : after.partsTaken = state.partsTaken
  nacksTaken : after.nacksTaken = state.nacksTaken

theorem ForwardsOne.nacks {remaining} (forwards : ForwardsOne crypto state remaining after)
    (parts : state.partsTaken ≤ state.receiver.broadcasterTx.length) :
    after.partsTaken ≤ after.receiver.broadcasterTx.length ∧
      ∃ more, (∀ parts ∈ more, parts = remaining) ∧ more.length ≤ 1 ∧ after.nacks = state.nacks ++ more := by
  obtain ⟨_, aeStats, _, _, forwardsPart, same, tx⟩ := forwards.forwarded
  obtain ⟨blocks, _, -, rfl⟩ := forwardPart_spec forwardsPart
  have tx : after.receiver.broadcasterTx =
      state.receiver.broadcasterTx ++ [{ blocks, remainingParts := remaining, aeStats }] := by rw [tx, same]
  refine ⟨?_, (nack? { blocks, remainingParts := remaining, aeStats }).toList, ?_, ?_, ?_⟩
  · rw [forwards.partsTaken, tx, length_append]
    exact Nat.le_add_right_of_le parts
  · unfold nack?
    split <;> simp
  · unfold nack?
    split <;> simp
  · simp only [Parts.nacks, forwards.broadcaster, forwards.partsTaken, forwards.nacksTaken, tx,
      drop_append_of_le_length parts, filterMap_append, append_assoc]
    rfl

theorem PartsInv.fill (inv : PartsInv state) (quiet : state.nacks = [])
    (forwards : ForwardsOne crypto state after.receiver.multipartBuffer.length after)
    (blocked : after.receiver.multipartBuffer = [] ↔ after.receiver.blockedOnMultipart = false)
    (ofOneMessage : after.receiver.multipartBuffer ≠ [] → OfOneMessage after) : PartsInv after := by
  obtain ⟨parts, _, ofPart, single, nacks⟩ := forwards.nacks inv.parts
  rw [quiet] at nacks
  constructor
  · exact blocked
  · exact ofOneMessage
  · rw [forwards.broadcaster]
    exact inv.commands
  · rw [forwards.nacksTaken, forwards.broadcaster]
    exact inv.taken
  · exact parts
  · rw [nacks]
    exact ofPart
  · rw [nacks]
    exact fun _ => single

theorem PartsInv.process {ae sender store server} (inv : PartsInv state)
    (listens : state.receiver.blockedOnMultipart = false) (inTime : InParts state.receiver ae → state.nacks = [])
    (processes : Processes crypto store server state.receiver ae sender receiver) :
    PartsInv { state with
      receiver
      processed := state.processed ++ [(state.receiver.configNum, ae, sender)] } := by
  have empty := inv.blocked.mpr listens
  cases processes with
  | ignored =>
    exact ⟨inv.blocked, absurd empty, inv.commands, inv.taken, inv.parts, inv.exact, inv.single⟩
  | nacked =>
    exact ⟨inv.blocked, absurd empty, inv.commands, inv.taken, inv.parts, inv.exact, inv.single⟩
  | dropped =>
    exact ⟨inv.blocked, absurd empty, inv.commands, inv.taken, inv.parts, inv.exact, inv.single⟩
  | whole _ _ forwards =>
    generalize same : ({ state with
      receiver
      processed := state.processed ++ [(state.receiver.configNum, ae, sender)] } : Parts) = after
    have one : ForwardsOne crypto state 0 after := by
      rw [← same]
      exact ⟨⟨_, _, _, _, forwards, rfl, rfl⟩, rfl, rfl, rfl⟩
    obtain ⟨parts, _, ofPart, -, nacks⟩ := one.nacks inv.parts
    obtain ⟨_, _, _, rfl⟩ := forwardPart_spec forwards
    have stillEmpty : after.receiver.multipartBuffer = [] := by rw [← same]; exact empty
    refine ⟨?_, absurd stillEmpty, ?_, ?_, parts, ?_, absurd stillEmpty⟩
    · rw [← same]
      exact inv.blocked
    · rw [← same]
      exact inv.commands
    · rw [← same]
      exact inv.taken
    · intro n member
      rw [nacks] at member
      rw [stillEmpty]
      rcases mem_append.mp member with old | new
      · rw [inv.exact n old, empty]
      · exact ofPart n new
  | @inParts fork part rest forwarded passes split several forwards _ =>
    have quiet : state.nacks = [] := by
      apply inTime
      refine ⟨fork, passes.isFork, part :: rest, split, ?_⟩
      simpa using length_pos_iff.mpr several
    have count : (forwarded.buffer rest (statsOf ae sender)).multipartBuffer.length = rest.length := by
      simp [buffer]
    rw [← count] at forwards
    refine inv.fill quiet ⟨⟨_, _, _, _, forwards, rfl, rfl⟩, rfl, rfl, rfl⟩ ?_ ?_
    · simpa [buffer] using several
    · intro _
      refine ⟨state.receiver.configNum, ae, sender, fork, part, rest, ?_, passes.isFork, split, ?_⟩
      · simp
      · exact suffix_refl _

theorem OfOneMessage.mono (ofOne : OfOneMessage state) (processed : after.processed = state.processed)
    (suffix : after.receiver.multipartBuffer <:+ state.receiver.multipartBuffer) : OfOneMessage after := by
  obtain ⟨configNum, ae, sender, fork, part, rest, last, isFork, split, isSuffix⟩ := ofOne
  exact ⟨configNum, ae, sender, fork, part, rest, processed ▸ last, isFork, split, suffix.trans isSuffix⟩

variable (inv : PartsInv state)
include inv

theorem PartsInv.update {view configNum}
    (inTime : state.receiver.blockedOnMultipart = true → state.receiver.configNum < configNum → state.nacks = [])
    (updates : Updates crypto state.receiver view configNum receiver) : PartsInv { state with receiver } := by
  have moved : (state.receiver.moveTo view configNum).multipartBuffer = state.receiver.multipartBuffer ∧
      (state.receiver.moveTo view configNum).blockedOnMultipart = state.receiver.blockedOnMultipart ∧
      (state.receiver.moveTo view configNum).broadcasterTx = state.receiver.broadcasterTx := by
    unfold moveTo
    split <;> simp
  obtain ⟨waits, blocked, tx⟩ := moved
  have isBlocked {item : List HalfSerializedBlock × AppendEntriesStats}
      {rest : List (List HalfSerializedBlock × AppendEntriesStats)}
      (buffered : state.receiver.multipartBuffer = item :: rest) : state.receiver.blockedOnMultipart = true := by
    cases isBlocked : state.receiver.blockedOnMultipart with
    | true => rfl
    | false =>
      have := inv.blocked.mpr isBlocked
      simp [buffered] at this
  cases updates with
  | moves =>
    have nacks : ({ state with receiver := (state.receiver.moveTo view configNum).unblock } : Parts).nacks =
        state.nacks := by
      simp [Parts.nacks, unblock, tx]
    constructor
    · simp only [unblock, waits, blocked]
      cases buffered : state.receiver.multipartBuffer with
      | nil => simp
      | cons item rest => simp [isBlocked buffered]
    · intro nonempty
      refine (inv.ofOneMessage (waits ▸ nonempty)).mono rfl ?_
      simp [unblock, waits]
    · exact inv.commands
    · exact inv.taken
    · simp only [unblock, tx]
      exact inv.parts
    · rw [nacks]
      simp only [unblock, waits]
      exact inv.exact
    · rw [nacks]
      simp only [unblock, waits]
      exact inv.single
  | @releases part aeStats rest forwarded higher buffered forwards =>
    obtain ⟨_, _, -, same⟩ := forwardPart_spec forwards
    have remains : forwarded.unblock.multipartBuffer = rest := by simp [unblock, same]
    rw [← remains] at forwards
    refine inv.fill (inTime (isBlocked buffered) higher) ⟨⟨_, _, _, _, forwards, tx, rfl⟩, rfl, rfl, rfl⟩ ?_ ?_
    · simp [unblock, same, blocked, isBlocked buffered]
    · intro _
      refine (inv.ofOneMessage (by simp [buffered])).mono rfl ?_
      rw [remains, buffered]
      exact suffix_cons _ _
  | @discards last higher buffered =>
    have quiet := inTime (isBlocked buffered) higher
    have nacks : ({ state with receiver :=
        ({ state.receiver.moveTo view configNum with multipartBuffer := [] } : ForkReceiver).unblock } : Parts).nacks =
        [] := by
      rw [← quiet]
      simp [Parts.nacks, unblock, tx]
    constructor
    · simp [unblock]
    · exact absurd rfl
    · exact inv.commands
    · exact inv.taken
    · simp only [tx]
      exact inv.parts
    · rw [nacks]
      exact nofun
    · exact absurd rfl

theorem PartsInv.nack {parts}
    (next : state.broadcaster.forkReceiverCommandTx[state.nacksTaken]? = some (.multipartNack parts)) :
    parts = state.receiver.multipartBuffer.length ∧ PartsInv { state with
      receiver := { state.receiver with multipartBuffer := [], blockedOnMultipart := false }
      nacksTaken := state.nacksTaken + 1 } := by
  generalize same : ({ state with
      receiver := { state.receiver with multipartBuffer := [], blockedOnMultipart := false }
      nacksTaken := state.nacksTaken + 1 } : Parts) = after
  have nacks : state.nacks = parts :: after.nacks := by
    simp [Parts.nacks, Queue.drop_of_next next, parts?, ← same]
  have isNext : parts = state.receiver.multipartBuffer.length := inv.exact parts (by simp [nacks])
  refine ⟨isNext, ?_⟩
  have empty : after.receiver.multipartBuffer = [] := by rw [← same]
  constructor
  · simp [← same]
  · exact absurd empty
  · rw [← same]
    exact inv.commands
  · rw [← same]
    exact Queue.taken_lt_of_next next
  · rw [← same]
    exact inv.parts
  · intro n member
    rw [empty]
    cases buffered : state.receiver.multipartBuffer with
    | nil => simpa [buffered] using inv.exact n (by simp [nacks, member])
    | cons item rest =>
      have single := inv.single (by simp [buffered])
      rw [nacks, length_cons] at single
      have none : after.nacks = [] := length_eq_zero_iff.mp (by omega)
      rw [none] at member
      cases member
  · exact absurd empty

theorem PartsInv.take {part storageAck} (next : state.receiver.broadcasterTx[state.partsTaken]? = some part) :
    PartsInv { state with
      broadcaster := state.broadcaster.processOtherBlock part storageAck
      partsTaken := state.partsTaken + 1 } := by
  have nacks : ({ state with
      broadcaster := state.broadcaster.processOtherBlock part storageAck
      partsTaken := state.partsTaken + 1 } : Parts).nacks = state.nacks := by
    simp only [Parts.nacks, processOtherBlock_commands, drop_append_of_le_length inv.taken,
      filterMap_append, append_assoc, Queue.drop_of_next next]
    cases isNack : nack? part with
    | none => simp [isNack]
    | some parts => simp [isNack, parts?]
  constructor
  · exact inv.blocked
  · exact fun nonempty => (inv.ofOneMessage nonempty).mono rfl (suffix_refl _)
  · simp only [processOtherBlock_commands]
    intro cmd member
    rcases mem_append.mp member with old | new
    · exact inv.commands cmd old
    · obtain ⟨parts, _, rfl⟩ := mem_map.mp new
      exact ⟨parts, rfl⟩
  · simp only [processOtherBlock_commands, length_append]
    exact Nat.le_add_right_of_le inv.taken
  · exact Queue.taken_lt_of_next next
  · rw [nacks]
    exact inv.exact
  · rw [nacks]
    exact inv.single

theorem PartsInv.step {event} (inTime : OneAtATime state event)
    (taken : step crypto state event = some after) : PartsInv after := by
  cases event with
  | appendEntries ae sender store server =>
    simp only [Parts.step] at taken
    split at taken
    · cases taken
    · next listens =>
      obtain ⟨⟨receiver, answered⟩, processed, rfl⟩ := map_eq_some_iff.mp taken
      have listens : state.receiver.blockedOnMultipart = false := by
        simp only [Bool.or_eq_true, not_or, Bool.not_eq_true] at listens
        exact listens.1
      exact inv.process listens inTime (processFork_processes processed)
  | response ae sender store server =>
    obtain ⟨⟨receiver, answered⟩, processed, rfl⟩ := map_eq_some_iff.mp taken
    exact inv.process inTime.1 inTime.2 (processFork_processes processed)
  | updateView view configNum =>
    obtain ⟨receiver, updated, rfl⟩ := map_eq_some_iff.mp taken
    exact inv.update inTime (handleUpdateView_updates updated)
  | takePart storageAck =>
    obtain ⟨_, next, rfl⟩ := map_eq_some_iff.mp taken
    exact inv.take next
  | takeNack =>
    simp only [Parts.step] at taken
    split at taken
    · cases taken
    · next cmd next =>
      obtain ⟨_, rfl⟩ := inv.commands cmd (mem_of_getElem? next)
      obtain ⟨⟨receiver, answered⟩, handled, rfl⟩ := map_eq_some_iff.mp taken
      simp only [handleCommand] at handled
      split at handled
      · cases handled
      · cases handled
        exact (inv.nack next).2

theorem PartsInv.invariant : Invariant crypto OneAtATime state where
  blocked := inv.blocked
  ofOneMessage := inv.ofOneMessage
  exclusive isBlocked event after inTime taken := by
    cases event with
    | appendEntries ae sender store server => simp [Parts.step, isBlocked] at taken
    | response ae sender store server => exact absurd inTime.1 (by simp [isBlocked])
    | updateView view configNum =>
      obtain ⟨_, -, rfl⟩ := map_eq_some_iff.mp taken
      rfl
    | takePart storageAck =>
      obtain ⟨_, -, rfl⟩ := map_eq_some_iff.mp taken
      rfl
    | takeNack =>
      simp only [Parts.step] at taken
      split at taken
      · cases taken
      · obtain ⟨_, -, rfl⟩ := map_eq_some_iff.mp taken
        rfl
  assertions event inTime := by
    cases event with
    | appendEntries ae sender store server =>
      intro listens _ _ _ _ _ _ _ _
      exact inv.blocked.mpr listens
    | response ae sender store server =>
      intro _ _ _ _ _ _ _ _
      exact inv.blocked.mpr inTime.1
    | takeNack =>
      intro parts next
      exact (inv.nack next).1
    | updateView | takePart => trivial

omit inv

/-- In every run in which the nacks are handled one at a time, the invariant holds
and no assertion fails. -/
theorem invariant_of_reaches
    (reached : Reaches (step crypto) OneAtATime { receiver := new crypto.config } state) :
    Invariant crypto OneAtATime state := by
  apply PartsInv.invariant
  apply reached.invariant
  · unfold new
    split <;> constructor <;> simp [nacks]
  · intro before after event inv inTime taken
    exact inv.step inTime taken

/-!
## A late nack
-/

def signedBlock (sig n configNum : UInt8) : HalfSerializedBlock where
  n := n.toNat
  view := 1
  viewIsStable := false
  configNum := configNum.toNat
  serializedBody := List.replicate signatureLength sig ++ defaultHash ++ [n, 1, 0, configNum]

def corrupted : ProtoAppendEntries :=
  { entries 1 false [] with fork := some ⟨[signedBlock 7 1 1]⟩ }

def inTwoParts : ProtoAppendEntries :=
  { entries 1 false [] with fork := some ⟨[signedBlock 0 1 1, signedBlock 0 2 2, signedBlock 0 3 2]⟩ }

def sent (ae : ProtoAppendEntries) : Event := .appendEntries ae "node1" (fun _ => none) {}

/-- The nack for a corrupted message arrives while a part of the next one waits. -/
theorem late_nack_fails_assertion :
    ∃ state, Reaches (step follower) Any { receiver := new follower.config } state ∧
      ¬ Invariant follower Any state := by
  obtain ⟨state, reached, nack, buffered⟩ : ∃ state,
      Reaches (step follower) Any { receiver := new follower.config } state ∧
      state.broadcaster.forkReceiverCommandTx[state.nacksTaken]? = some (.multipartNack 0) ∧
      state.receiver.multipartBuffer.length = 1 :=
    exists_reaches_any [.updateView 1 1, sent corrupted, sent inTwoParts, .takePart (.ok ())]
      (by decide +kernel)
  refine ⟨state, reached, fun inv => ?_⟩
  have fails := inv.assertions .takeNack trivial 0 nack
  omega

theorem invariant_while_blocked :
    ∃ state, Reaches (step follower) OneAtATime { receiver := new follower.config } state ∧
      state.receiver.multipartBuffer.length = 1 ∧ Invariant follower OneAtATime state :=
  exists_reaches_and [.updateView 1 1, sent corrupted, .takePart (.ok ()), .takeNack, sent inTwoParts]
    (by decide +kernel) (by decide +kernel) fun reached _ => invariant_of_reaches reached

end Parts

end PirateShip.ForkReceiver
