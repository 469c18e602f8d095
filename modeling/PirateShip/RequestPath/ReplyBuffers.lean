import Mathlib.Data.List.Infix
import PirateShip.ClientReply.OneAnswer
import PirateShip.RequestPath.Alignment

/-! The buffers of early acknowledgements. An acknowledgement that finds no registered
batch is kept for the registration to come, but the application acknowledges the blocks
of every leader, and a batch that is turned away does not clear what was kept for it. -/

set_option autoImplicit false

namespace PirateShip

open List StepSystem Option

namespace ClientReplyHandler

variable {handler after : ClientReplyHandler} {hash other : HashType}
variable {replyVec : List MsgAckChanWithTag} {results : List ProtoTransactionResult}

def Buffered (handler : ClientReplyHandler) (hash : HashType) : Prop :=
  hash ∈ handler.crashCommitReplyBuf ∨ hash ∈ handler.byzCommitReplyBuf

instance (handler : ClientReplyHandler) (hash : HashType) : Decidable (handler.Buffered hash) :=
  inferInstanceAs (Decidable (_ ∨ _))

def SameBuffers (handler after : ClientReplyHandler) : Prop :=
  after.crashCommitReplyBuf = handler.crashCommitReplyBuf ∧ after.byzCommitReplyBuf = handler.byzCommitReplyBuf

theorem SameBuffers.buffered (same : SameBuffers handler after) : after.Buffered hash ↔ handler.Buffered hash := by
  rw [Buffered, same.1, same.2, Buffered]

theorem Replies.sameBuffers {answers responses} (replies : Replies handler after answers responses) :
    SameBuffers handler after :=
  ⟨replies.crashCommitReplyBuf, replies.byzCommitReplyBuf⟩

theorem doCrashCommitReply_sameBuffers {n}
    (replied : handler.doCrashCommitReply replyVec hash n results = some after) : SameBuffers handler after := by
  obtain ⟨_, same⟩ := ite_none_left_eq_some.mp replied
  rw [← some.inj same]
  exact (replies_foldl_crashCommit handler hash n (replyVec.zip results).zipIdx).sameBuffers

theorem doByzCommitReply_sameBuffers {senders n responses}
    (replied : handler.doByzCommitReply senders n responses = some after) : SameBuffers handler after := by
  obtain ⟨_, same⟩ := ite_none_left_eq_some.mp replied
  rw [← some.inj same]
  have stored := (replies_foldl_storeByzResponse handler (senders.zip responses)).sameBuffers
  split <;> exact stored

/-!
## Acknowledgements
-/

theorem crashCommitAck_buffered {n} (taken : handler.crashCommitAck hash n results = some after) :
    after.Buffered other ↔ handler.Buffered other ∨ other = hash ∧ handler.replyMap.lookup hash = none := by
  unfold crashCommitAck at taken
  cases found : handler.replyMap.lookup hash with
  | none =>
    simp only [found, some.injEq] at taken
    subst taken
    simp only [Buffered, AList.mem_insert]
    tauto
  | some replyVec =>
    simp only [found] at taken
    rw [(doCrashCommitReply_sameBuffers taken).buffered]
    simp [Buffered]

theorem byzCommitAck_buffered {n responses} (taken : handler.byzCommitAck hash n responses = some after) :
    after.Buffered other ↔ handler.Buffered other ∨ other = hash ∧ handler.byzReplyMap.lookup hash = none := by
  unfold byzCommitAck at taken
  cases found : handler.byzReplyMap.lookup hash with
  | none =>
    simp only [found, some.injEq] at taken
    subst taken
    simp only [Buffered, AList.mem_insert]
    tauto
  | some senders =>
    simp only [found] at taken
    rw [(doByzCommitReply_sameBuffers taken).buffered]
    simp [Buffered]

/-!
## Registrations
-/

theorem clearByzReplyBuf_mem (cleared : handler.clearByzReplyBuf hash = some after) (other) :
    after.crashCommitReplyBuf = handler.crashCommitReplyBuf ∧
      (other ∈ after.byzCommitReplyBuf ↔ other ≠ hash ∧ other ∈ handler.byzCommitReplyBuf) := by
  unfold clearByzReplyBuf at cleared
  split at cleared
  · next early =>
    cases cleared
    refine ⟨rfl, fun kept => ⟨?_, kept⟩, And.right⟩
    rintro rfl
    exact AList.lookup_eq_none.mp early kept
  · simp only at cleared
    split at cleared
    · cases cleared
      exact ⟨rfl, AList.mem_erase⟩
    · obtain ⟨crash, byz⟩ := doByzCommitReply_sameBuffers cleared
      exact ⟨crash, byz ▸ AList.mem_erase⟩

theorem clearCrashReplyBuf_mem (cleared : handler.clearCrashReplyBuf hash = some after) (other) :
    (other ∈ after.crashCommitReplyBuf ↔ other ≠ hash ∧ other ∈ handler.crashCommitReplyBuf) ∧
      after.byzCommitReplyBuf = handler.byzCommitReplyBuf := by
  unfold clearCrashReplyBuf at cleared
  split at cleared
  · next early =>
    cases cleared
    refine ⟨⟨fun kept => ⟨?_, kept⟩, And.right⟩, rfl⟩
    rintro rfl
    exact AList.lookup_eq_none.mp early kept
  · simp only at cleared
    split at cleared
    · cases cleared
      exact ⟨AList.mem_erase, rfl⟩
    · obtain ⟨crash, byz⟩ := doCrashCommitReply_sameBuffers cleared
      exact ⟨crash ▸ AList.mem_erase, byz⟩

theorem handleBatch_buffered (handled : handler.handleBatch hash replyVec = some after) :
    after.Buffered other ↔ handler.Buffered other ∧ (other = hash → hash = [] ∨ handler.mustCancel = true) := by
  unfold handleBatch at handled
  split at handled
  · next turnedAway =>
    cases handled
    exact ⟨fun kept => ⟨kept, fun _ => turnedAway⟩, And.left⟩
  · next accepted =>
    obtain ⟨_, clearedByz, clearedCrash⟩ := bind_eq_some_iff.mp handled
    obtain ⟨crash, byz⟩ := clearByzReplyBuf_mem clearedByz other
    obtain ⟨crash', byz'⟩ := clearCrashReplyBuf_mem clearedCrash other
    rw [Buffered, crash', crash, byz']
    simp only [Buffered]
    tauto

/-!
## Signals
-/

/-- An acknowledgement that finds no batch is of a block with the property. -/
def Expects (awaited : HashType → Prop) (handler : ClientReplyHandler) : Signal → Prop
  | .crashCommitAck hash _ _ => handler.replyMap.lookup hash = none → awaited hash
  | .byzCommitAck hash _ _ => handler.byzReplyMap.lookup hash = none → awaited hash
  | _ => True

instance (awaited : HashType → Prop) [DecidablePred awaited] (handler : ClientReplyHandler) :
    ∀ signal, Decidable (handler.Expects awaited signal)
  | .crashCommitAck hash _ _ => inferInstanceAs (Decidable (handler.replyMap.lookup hash = none → awaited hash))
  | .byzCommitAck hash _ _ => inferInstanceAs (Decidable (handler.byzReplyMap.lookup hash = none → awaited hash))
  | .batch _ _ | .cancelAllRequests | .stopCancelling => isTrue trivial

section Signals

variable {awaited : HashType → Prop} {input : Signal}

theorem forall_or_and_eq {kept : HashType → Prop} {fresh : Prop} (before : ∀ other, kept other → awaited other) :
    (∀ other, kept other ∨ other = hash ∧ fresh → awaited other) ↔ (fresh → awaited hash) := by
  constructor
  · exact fun each new => each hash (.inr ⟨rfl, new⟩)
  · rintro expected other (earlier | ⟨rfl, new⟩)
    · exact before other earlier
    · exact expected new

theorem signal_buffered_iff (taken : handler.signal input = some after)
    (before : ∀ hash, handler.Buffered hash → awaited hash) :
    (∀ hash, after.Buffered hash → awaited hash) ↔ handler.Expects awaited input := by
  cases input with
  | batch hash replyVec =>
    exact iff_of_true (fun other kept => before other ((handleBatch_buffered taken).mp kept).1) trivial
  | crashCommitAck hash n results =>
    simp only [crashCommitAck_buffered taken]
    exact forall_or_and_eq before
  | byzCommitAck hash n responses =>
    simp only [byzCommitAck_buffered taken]
    exact forall_or_and_eq before
  | cancelAllRequests | stopCancelling =>
    cases taken
    exact iff_of_true before trivial

theorem buffered_of_command {command} (member : input ∈ (ReplyEvent.command command).signals)
    (taken : handler.signal input = some after) (kept : handler.Buffered hash) : after.Buffered hash := by
  cases input with
  | batch hash replyVec => cases command <;> simp [ReplyEvent.signals] at member
  | crashCommitAck hash n results => exact (crashCommitAck_buffered taken).mpr (.inl kept)
  | byzCommitAck hash n responses => exact (byzCommitAck_buffered taken).mpr (.inl kept)
  | cancelAllRequests | stopCancelling =>
    cases taken
    exact kept

theorem handleReplyCommand_buffered_iff {command} (handled : handler.handleReplyCommand command = some after)
    (before : ∀ hash, handler.Buffered hash → awaited hash) :
    (∀ hash, after.Buffered hash → awaited hash) ↔
      AllAllowed signal (Expects awaited) handler (ReplyEvent.command command).signals := by
  have ran := (handle_eq_runAll handler (.command command)).symm.trans handled
  refine runAll_iff_allAllowed (motive := fun handler => ∀ hash, handler.Buffered hash →
    awaited hash) before ?_ ?_ ran
  · intro state next input member taken holds hash kept
    exact holds hash (buffered_of_command member taken kept)
  · intro state next input holds taken
    exact signal_buffered_iff taken holds

end Signals

end ClientReplyHandler

/-!
## Runs
-/

namespace RequestPath

variable {Engine : Type} {path after : RequestPath Engine}

/-- A block that the node sequenced itself, with a registration that is not among the first `taken`. -/
def AwaitsAfter (path : RequestPath Engine) (taken : Nat) (hash : HashType) : Prop :=
  (∃ block ∈ path.sequencer.blockBroadcasterTx, block.blockHash = hash) ∧
    hash ∈ (path.clientReplyTx.drop taken).map (·.1)

instance (path : RequestPath Engine) (taken : Nat) (hash : HashType) : Decidable (path.AwaitsAfter taken hash) :=
  inferInstanceAs (Decidable (_ ∧ _))

def Awaits (path : RequestPath Engine) (hash : HashType) : Prop := path.AwaitsAfter path.taken.registrations hash

instance (path : RequestPath Engine) (hash : HashType) : Decidable (path.Awaits hash) :=
  inferInstanceAs (Decidable (path.AwaitsAfter _ hash))

/-- Acknowledgements are kept only for the node's own blocks, until their registration comes. -/
def OwnPending (path : RequestPath Engine) : Prop := ∀ hash, path.handler.Buffered hash → path.Awaits hash

/-- A batch that is turned away has no acknowledgement waiting for it, or it is registered again later. -/
def RegistersNext (path : RequestPath Engine) : Option (HashType × List MsgAckChanWithTag) → Prop
  | none => True
  | some (hash, _) => path.handler.Buffered hash → (hash = [] ∨ path.handler.mustCancel = true) →
      path.AwaitsAfter (path.taken.registrations + 1) hash

instance (path : RequestPath Engine) : ∀ next, Decidable (path.RegistersNext next)
  | none => isTrue trivial
  | some (hash, _) => inferInstanceAs (Decidable (path.handler.Buffered hash → _ → path.AwaitsAfter _ hash))

/-- Every acknowledgement of the next command finds its batch, or the batch is on its way. -/
def AcksNext (path : RequestPath Engine) : Option ClientReplyCommand → Prop
  | none => True
  | some command => AllAllowed ClientReplyHandler.signal (ClientReplyHandler.Expects path.Awaits) path.handler
      (ClientReplyHandler.ReplyEvent.command command).signals

instance (path : RequestPath Engine) : ∀ next, Decidable (path.AcksNext next)
  | none => isTrue trivial
  | some _ => inferInstanceAs (Decidable (AllAllowed _ _ _ _))

def Timely (path : RequestPath Engine) : Event → Prop
  | .takeRegistration => path.RegistersNext path.clientReplyTx[path.taken.registrations]?
  | .takeAck => path.AcksNext path.app.clientReplyTx[path.taken.acks]?
  | _ => True

instance (path : RequestPath Engine) : ∀ event, Decidable (path.Timely event)
  | .takeRegistration => inferInstanceAs (Decidable (path.RegistersNext _))
  | .takeAck => inferInstanceAs (Decidable (path.AcksNext _))
  | .input _ | .takeBatch | .takeQc _ | .signatureTick | .controlCommand _ | .stagingCommand _ | .takeUnlogged
  | .replyCommand _ | .takeUnloggedAck | .finishUnlogged _ => isTrue trivial

/-!
## Steps
-/

theorem OwnPending.of_prefix (ownPending : path.OwnPending) (buffers : path.handler.SameBuffers after.handler)
    (made : path.sequencer.blockBroadcasterTx ⊆ after.sequencer.blockBroadcasterTx)
    (registered : path.clientReplyTx <+: after.clientReplyTx)
    (taken : after.taken.registrations = path.taken.registrations) : after.OwnPending := by
  intro hash kept
  obtain ⟨⟨block, member, same⟩, waiting⟩ := ownPending hash (buffers.buffered.mp kept)
  refine ⟨⟨block, made member, same⟩, ?_⟩
  rw [taken]
  exact ((registered.drop path.taken.registrations).map (·.1)).subset waiting

variable {crypto : CryptoService}

theorem awaitsAfter_succ {hash other replies taken} (next : path.clientReplyTx[taken]? = some (hash, replies))
    (apart : other ≠ hash) :
    path.AwaitsAfter (taken + 1) other ↔ path.AwaitsAfter taken other := by
  obtain ⟨inside, here⟩ := List.getElem?_eq_some_iff.mp next
  rw [AwaitsAfter, AwaitsAfter, ← getElem_cons_drop inside, here]
  simp [apart]

theorem takeRegistration_iff [AppEngine Engine] (ownPending : path.OwnPending)
    (stepped : step crypto path .takeRegistration = some after) :
    after.OwnPending ↔ path.RegistersNext path.clientReplyTx[path.taken.registrations]? := by
  simp only [step] at stepped
  split at stepped
  · cases stepped
  · next hash _ next =>
    obtain ⟨_, handled, rfl⟩ := map_eq_some_iff.mp stepped
    simp only [OwnPending, ClientReplyHandler.handleBatch_buffered handled, next]
    constructor
    · intro each kept turnedAway
      exact each hash ⟨kept, fun _ => turnedAway⟩
    · rintro again other ⟨kept, turnedAway⟩
      by_cases same : other = hash
      · subst same
        exact again kept (turnedAway rfl)
      · exact (awaitsAfter_succ next same).mpr (ownPending other kept)

theorem takeAck_iff [AppEngine Engine] (ownPending : path.OwnPending)
    (stepped : step crypto path .takeAck = some after) :
    after.OwnPending ↔ path.AcksNext path.app.clientReplyTx[path.taken.acks]? := by
  simp only [step] at stepped
  split at stepped
  · cases stepped
  · next _ next =>
    obtain ⟨_, handled, rfl⟩ := map_eq_some_iff.mp stepped
    rw [next]
    exact ClientReplyHandler.handleReplyCommand_buffered_iff handled ownPending

variable [AppEngine Engine]

theorem ownPending_step_iff {event} (ownPending : path.OwnPending)
    (stepped : step crypto path event = some after) : after.OwnPending ↔ path.Timely event := by
  have made := (extends_step stepped).made
  cases event with
  | takeRegistration => exact takeRegistration_iff ownPending stepped
  | takeAck => exact takeAck_iff ownPending stepped
  | input input =>
    obtain ⟨_, _, rfl⟩ := map_eq_some_iff.mp stepped
    exact iff_of_true ownPending trivial
  | takeBatch =>
    refine iff_of_true ?_ trivial
    simp only [step] at stepped
    split at stepped
    · cases stepped
    · obtain ⟨sequencer, block, _, _, rfl⟩ | rfl := handleBatch_cases stepped <;>
        exact ownPending.of_prefix ⟨rfl, rfl⟩ made (prefix_append _ _) rfl
  | takeQc qc =>
    cases stepped
    exact iff_of_true (ownPending.of_prefix ⟨rfl, rfl⟩ made prefix_rfl rfl) trivial
  | signatureTick =>
    cases stepped
    exact iff_of_true ownPending trivial
  | controlCommand cmd =>
    refine iff_of_true ?_ trivial
    obtain ⟨sequencer, block, _, _, rfl⟩ | ⟨sequencer, _, rfl⟩ := handleControlCommand_cases stepped
    · exact ownPending.of_prefix ⟨rfl, rfl⟩ made (prefix_append _ _) rfl
    · exact ownPending.of_prefix ⟨rfl, rfl⟩ made prefix_rfl rfl
  | stagingCommand cmd =>
    obtain ⟨_, handled, rfl⟩ := map_eq_some_iff.mp stepped
    exact iff_of_true ownPending trivial
  | replyCommand cancel =>
    obtain ⟨_, handled, rfl⟩ := map_eq_some_iff.mp stepped
    refine iff_of_true ?_ trivial
    cases cancel <;> (cases handled; exact ownPending)
  | takeUnlogged =>
    simp only [step] at stepped
    split at stepped
    · cases stepped
    · cases stepped
      exact iff_of_true ownPending trivial
  | takeUnloggedAck =>
    simp only [step] at stepped
    split at stepped
    · cases stepped
    · next ack _ =>
      cases stepped
      refine iff_of_true ?_ trivial
      cases ack <;> exact ownPending
  | finishUnlogged waiting =>
    simp only [step] at stepped
    split at stepped
    · cases stepped
    · obtain ⟨_, _, rfl⟩ := map_eq_some_iff.mp stepped
      exact iff_of_true ownPending trivial

/-- Along every run, whatever views, batches and commits there are. -/
theorem ownPending_iff_timely {events : List Event} {last : RequestPath Engine}
    (ran : runAll (step crypto) (new crypto.config) events = some last) :
    (∀ path : RequestPath Engine, Passes (step crypto) (new crypto.config) events path → path.OwnPending) ↔
      AllAllowed (step crypto) Timely (new crypto.config : RequestPath Engine) events := by
  have initial : (new crypto.config : RequestPath Engine).OwnPending := by
    rintro _ (kept | kept) <;> cases kept
  exact forall_passes_iff initial trivial (fun _ _ => trivial)
    (fun _ ownPending stepped => ownPending_step_iff ownPending stepped) ran

/-!
## Blocks of another leader
-/

theorem ownPending_of_answeredWrite : ∃ last : RequestPath KVSAppEngine,
    runAll (step soleLeader) (new soleLeader.config) answeredWrite = some last ∧
    last.handler.sent.map (·.1) = [writeRequest.2] ∧
    ∀ path : RequestPath KVSAppEngine, Passes (step soleLeader) (new soleLeader.config) answeredWrite path →
      path.OwnPending := by
  have ran : (runAll (step soleLeader) (new soleLeader.config : RequestPath KVSAppEngine) answeredWrite).any
      (fun last => decide (last.handler.sent.map (·.1) = [writeRequest.2])) = true := by decide +kernel
  obtain ⟨last, ran, sent⟩ := (any_eq_true _ _).mp ran
  refine ⟨last, ran, of_decide_eq_true sent, (ownPending_iff_timely ran).mpr ?_⟩
  decide +kernel

def follower : CryptoService := tinyNode
  { netConfig := { name := "node2" }
    consensusConfig := { nodeList := ["node1", "node2", "node3"], livenessU := 1 }
    features := { viewChange := false } }

def cancelledWrite : List Event :=
  [.input (.newTx writeRequest false), .takeBatch, .takeRegistration, .replyCommand true,
    .stagingCommand (.crashCommit writeBlock), .takeAck]

def KeepsStray (path : RequestPath Engine) : Prop :=
  ∃ block ∈ writeBlock, path.handler.Buffered block.blockHash ∧ ¬ path.Awaits block.blockHash

instance (path : RequestPath Engine) : Decidable path.KeepsStray :=
  inferInstanceAs (Decidable (∃ block ∈ writeBlock, _ ∧ _))

/-- On a follower that made no block, and on the leader after a cancellation. -/
theorem stray_results_kept :
    (∃ last : RequestPath KVSAppEngine, Reaches (step follower) Any (new follower.config) last ∧
      (last.sequencer.blockBroadcasterTx = [] ∧ last.KeepsStray) ∧ ¬ last.OwnPending) ∧
    ∃ last : RequestPath KVSAppEngine, Reaches (step soleLeader) Any (new soleLeader.config) last ∧
      (last.sequencer.blockBroadcasterTx = writeBlock ∧ last.KeepsStray) ∧ ¬ last.OwnPending := by
  have refutes : ∀ {path : RequestPath KVSAppEngine}, path.KeepsStray → ¬ path.OwnPending := by
    rintro path ⟨block, -, kept, stray⟩ ownPending
    exact stray (ownPending block.blockHash kept)
  constructor
  · exact exists_reaches_and [.stagingCommand (.crashCommit writeBlock), .takeAck] (allAllowed_any _ _)
      (by decide +kernel) fun _ known => refutes known.2
  · exact exists_reaches_and cancelledWrite (allAllowed_any _ _) (by decide +kernel) fun _ known => refutes known.2

end RequestPath

end PirateShip
