import PirateShip.Crypto.Accepted
import PirateShip.RequestPath
import PirateShip.Staging.Executed

/-! Probes: a client that has a receipt for block `n` asks to be told when block `n` is
byzantine committed. The reply stage keeps only the highest number that was committed,
while its receipts name the hash of the block, so the answer is about the block of the
receipt as long as no other block took its place in the log. -/

set_option autoImplicit false

namespace PirateShip

open List StepSystem Option

/-!
## The reply stage
-/

namespace ClientReplyHandler

variable {executed : HashType → Nat → Prop} {bound : Nat} {handler after : ClientReplyHandler}
  {hash : HashType} {n : Nat}
variable {executed' : HashType → Nat → Prop} {bound' : Nat} {replyVec : List MsgAckChanWithTag}
  {results : List ProtoTransactionResult}

def Backs (executed : HashType → Nat → Prop) (bound : Nat) (reply : ProtoClientReply) : Prop :=
  match reply.reply with
  | .receipt receipt =>
    (receipt.awaitByzResponse = true → executed receipt.reqDigest receipt.blockN) ∧
      (receipt.results = none → receipt.blockN ≤ bound)
  | .tryAgain | .leader _ => True

/-- All that was sent is backed, and so is all that may be sent for a buffered result. -/
structure Backed (executed : HashType → Nat → Prop) (bound : Nat) (handler : ClientReplyHandler) : Prop where
  crashCommitReplyBuf : ∀ hash ack, handler.crashCommitReplyBuf.lookup hash = some ack → executed hash ack.1
  byzCommitReplyBuf : ∀ hash ack, handler.byzCommitReplyBuf.lookup hash = some ack → ack.1 ≤ bound
  ackedBci : handler.ackedBci ≤ bound
  sent : ∀ answer ∈ handler.sent, Backs executed bound answer.2

theorem backed_new : Backed executed bound {} where
  crashCommitReplyBuf hash ack found := by cases (AList.lookup_empty hash).symm.trans found
  byzCommitReplyBuf hash ack found := by cases (AList.lookup_empty hash).symm.trans found
  ackedBci := Nat.zero_le _
  sent answer member := absurd member not_mem_nil

variable (backed : Backed executed bound handler)
include backed

theorem Backed.mono (more : ∀ hash n, executed hash n → executed' hash n) (higher : bound ≤ bound') :
    Backed executed' bound' handler where
  crashCommitReplyBuf hash ack found := more _ _ (backed.crashCommitReplyBuf hash ack found)
  byzCommitReplyBuf hash ack found := (backed.byzCommitReplyBuf hash ack found).trans higher
  ackedBci := backed.ackedBci.trans higher
  sent answer member := by
    have backs := backed.sent answer member
    unfold Backs at backs ⊢
    split
    · next _ isReceipt =>
      simp only [isReceipt] at backs
      exact ⟨fun awaits => more _ _ (backs.1 awaits), fun isProbe => (backs.2 isProbe).trans higher⟩
    · trivial
    · trivial

theorem Backed.send {answers} (crashCommitReplyBuf : after.crashCommitReplyBuf = handler.crashCommitReplyBuf)
    (byzCommitReplyBuf : after.byzCommitReplyBuf = handler.byzCommitReplyBuf)
    (ackedBci : after.ackedBci = handler.ackedBci) (sent : after.sent = handler.sent ++ answers)
    (backs : ∀ answer ∈ answers, Backs executed bound answer.2) : Backed executed bound after where
  crashCommitReplyBuf := crashCommitReplyBuf ▸ backed.crashCommitReplyBuf
  byzCommitReplyBuf := byzCommitReplyBuf ▸ backed.byzCommitReplyBuf
  ackedBci := ackedBci ▸ backed.ackedBci
  sent answer member := by
    rw [sent] at member
    exact (mem_append.mp member).elim (backed.sent answer) (backs answer)

theorem Backed.tryAgain (replyVec) : Backed executed bound (handler.tryAgain replyVec) := by
  refine backed.send rfl rfl rfl rfl fun answer member => ?_
  obtain ⟨_, -, rfl⟩ := mem_map.mp member
  trivial

theorem Backed.doCrashCommitReply (known : executed hash n)
    (replied : handler.doCrashCommitReply replyVec hash n results = some after) : Backed executed bound after := by
  unfold ClientReplyHandler.doCrashCommitReply at replied
  split at replied
  · cases replied
  · obtain rfl := some.inj replied
    generalize (replyVec.zip results).zipIdx = requests
    induction requests generalizing handler with
    | nil => exact backed
    | cons request requests ih =>
      refine ih (backed.send rfl rfl rfl rfl fun answer member => ?_) rfl
      obtain rfl := mem_singleton.mp member
      exact ⟨fun _ => known, nofun⟩

theorem Backed.maybeClearProbeBuf : Backed executed bound handler.maybeClearProbeBuf := by
  refine backed.send rfl rfl rfl rfl fun answer member => ?_
  obtain ⟨pair, listed, inside⟩ := mem_flatMap.mp member
  obtain ⟨_, -, rfl⟩ := mem_map.mp inside
  have covered : pair.1 ≤ handler.ackedBci := of_decide_eq_true (mem_filter.mp listed).2
  exact ⟨nofun, fun _ => covered.trans backed.ackedBci⟩

theorem backed_foldl_storeByzResponse (requests : List ((Nat × SenderType) × ProtoByzResponse)) :
    Backed executed bound (requests.foldl
      (fun handler (request, reply) => handler.storeByzResponse request.1 request.2 reply) handler) := by
  induction requests generalizing handler with
  | nil => exact backed
  | cons request requests ih =>
    exact ih (backed.send rfl rfl rfl (append_nil _).symm (forall_mem_nil _))

theorem Backed.doByzCommitReply {senders responses} (below : n ≤ bound)
    (replied : handler.doByzCommitReply senders n responses = some after) : Backed executed bound after := by
  unfold ClientReplyHandler.doByzCommitReply at replied
  split at replied
  · cases replied
  · obtain rfl := some.inj replied
    have stored := backed_foldl_storeByzResponse backed (senders.zip responses)
    refine Backed.maybeClearProbeBuf ?_
    split
    · exact ⟨stored.crashCommitReplyBuf, stored.byzCommitReplyBuf, below, stored.sent⟩
    · exact stored

theorem Backed.clearByzReplyBuf
    (cleared : handler.clearByzReplyBuf hash = some after) : Backed executed bound after := by
  unfold ClientReplyHandler.clearByzReplyBuf at cleared
  split at cleared
  · exact some.inj cleared ▸ backed
  · next n responses early =>
    have below := backed.byzCommitReplyBuf hash _ early
    have erased : Backed executed bound { handler with byzCommitReplyBuf := handler.byzCommitReplyBuf.erase hash } :=
      ⟨backed.crashCommitReplyBuf,
        fun other ack found => backed.byzCommitReplyBuf other ack (lookup_of_lookup_erase found),
        backed.ackedBci, backed.sent⟩
    dsimp only at cleared
    split at cleared
    · exact some.inj cleared ▸ erased
    · refine Backed.doByzCommitReply ?_ below cleared
      exact ⟨erased.crashCommitReplyBuf, erased.byzCommitReplyBuf, erased.ackedBci, erased.sent⟩

theorem Backed.clearCrashReplyBuf
    (cleared : handler.clearCrashReplyBuf hash = some after) : Backed executed bound after := by
  unfold ClientReplyHandler.clearCrashReplyBuf at cleared
  split at cleared
  · exact some.inj cleared ▸ backed
  · next n _ early =>
    have known := backed.crashCommitReplyBuf hash _ early
    have erased : Backed executed bound
        { handler with crashCommitReplyBuf := handler.crashCommitReplyBuf.erase hash } :=
      ⟨fun other ack found => backed.crashCommitReplyBuf other ack (lookup_of_lookup_erase found),
        backed.byzCommitReplyBuf, backed.ackedBci, backed.sent⟩
    dsimp only at cleared
    split at cleared
    · exact some.inj cleared ▸ erased
    · refine Backed.doCrashCommitReply ?_ known cleared
      exact ⟨erased.crashCommitReplyBuf, erased.byzCommitReplyBuf, erased.ackedBci, erased.sent⟩

theorem Backed.handleBatch
    (handled : handler.handleBatch hash replyVec = some after) : Backed executed bound after := by
  unfold ClientReplyHandler.handleBatch at handled
  split at handled
  · exact some.inj handled ▸ backed.tryAgain replyVec
  · obtain ⟨_, cleared, cleared'⟩ := bind_eq_some_iff.mp handled
    refine Backed.clearCrashReplyBuf (Backed.clearByzReplyBuf ?_ cleared) cleared'
    exact ⟨backed.crashCommitReplyBuf, backed.byzCommitReplyBuf, backed.ackedBci, backed.sent⟩

theorem Backed.crashCommitAck (known : executed hash n)
    (handled : handler.crashCommitAck hash n results = some after) :
    Backed executed bound after := by
  unfold ClientReplyHandler.crashCommitAck at handled
  split at handled
  · refine Backed.doCrashCommitReply ?_ known handled
    exact ⟨backed.crashCommitReplyBuf, backed.byzCommitReplyBuf, backed.ackedBci, backed.sent⟩
  · obtain rfl := some.inj handled
    refine ⟨fun other ack found => ?_, backed.byzCommitReplyBuf, backed.ackedBci, backed.sent⟩
    obtain ⟨rfl, rfl⟩ | earlier := eq_or_lookup_of_lookup_insert found
    · exact known
    · exact backed.crashCommitReplyBuf other ack earlier

theorem Backed.byzCommitAck {responses} (below : n ≤ bound)
    (handled : handler.byzCommitAck hash n responses = some after) :
    Backed executed bound after := by
  unfold ClientReplyHandler.byzCommitAck at handled
  split at handled
  · refine Backed.doByzCommitReply ?_ below handled
    exact ⟨backed.crashCommitReplyBuf, backed.byzCommitReplyBuf, backed.ackedBci, backed.sent⟩
  · obtain rfl := some.inj handled
    refine ⟨backed.crashCommitReplyBuf, fun other ack found => ?_, backed.ackedBci, backed.sent⟩
    obtain ⟨rfl, rfl⟩ | earlier := eq_or_lookup_of_lookup_insert found
    · exact below
    · exact backed.byzCommitReplyBuf other ack earlier

omit backed

def BackedCommand (executed : HashType → Nat → Prop) (bound : Nat) (command : ClientReplyCommand) : Prop :=
  Known (fun hash ack => executed hash ack.1) (fun _ ack => ack.1 ≤ bound) command

theorem BackedCommand.mono {command} (backed : BackedCommand executed bound command)
    (more : ∀ hash n, executed hash n → executed' hash n) (higher : bound ≤ bound') :
    BackedCommand executed' bound' command := by
  cases command with
  | cancelAllRequests | stopCancelling => trivial
  | crashCommitAck acks => exact fun ack member => more _ _ (backed ack member)
  | byzCommitAck acks => exact fun ack member => (backed ack member).trans higher

include backed

theorem Backed.handleReplyCommand {command} (known : BackedCommand executed bound command)
    (handled : handler.handleReplyCommand command = some after) :
    Backed executed bound after := by
  cases command with
  | cancelAllRequests =>
    obtain rfl := some.inj handled
    have told := backed.tryAgain handler.replyMap.values.flatten
    exact ⟨told.crashCommitReplyBuf, told.byzCommitReplyBuf, told.ackedBci, told.sent⟩
  | stopCancelling =>
    obtain rfl := some.inj handled
    exact ⟨backed.crashCommitReplyBuf, backed.byzCommitReplyBuf, backed.ackedBci, backed.sent⟩
  | crashCommitAck acks =>
    induction acks generalizing handler with
    | nil => exact some.inj handled ▸ backed
    | cons ack acks ih =>
      obtain ⟨middle, first, rest⟩ := bind_eq_some_iff.mp handled
      exact ih (backed.crashCommitAck (known ack mem_cons_self) first)
        (fun other member => known other (mem_cons_of_mem _ member)) rest
  | byzCommitAck acks =>
    induction acks generalizing handler with
    | nil => exact some.inj handled ▸ backed
    | cons ack acks ih =>
      obtain ⟨middle, first, rest⟩ := bind_eq_some_iff.mp handled
      exact ih (backed.byzCommitAck (known ack mem_cons_self) first)
        (fun other member => known other (mem_cons_of_mem _ member)) rest

theorem Backed.unloggedRequestAck (result ack) : Backed executed bound (handler.unloggedRequestAck result ack) := by
  refine backed.send rfl rfl rfl rfl fun answer member => ?_
  obtain rfl := mem_singleton.mp member
  exact ⟨nofun, nofun⟩

theorem Backed.probeRequestAck (blockN ack) : Backed executed bound (handler.probeRequestAck blockN ack) :=
  Backed.maybeClearProbeBuf ⟨backed.crashCommitReplyBuf, backed.byzCommitReplyBuf, backed.ackedBci, backed.sent⟩

end ClientReplyHandler

/-!
## The path of a request
-/

theorem mem_zip_results {Result : Type} {blocks : List CachedBlock} {results : List Result}
    {ack : HashType × Nat × Result}
    (member : ack ∈ (blocks.map (·.blockHash)).zip ((blocks.map (·.block.n)).zip results)) :
    ∃ block ∈ blocks, block.blockHash = ack.1 ∧ block.block.n = ack.2.1 := by
  induction blocks generalizing results with
  | nil => cases member
  | cons block blocks ih =>
    cases results with
    | nil => cases member
    | cons result results =>
      rcases mem_cons.mp member with rfl | later
      · exact ⟨block, mem_cons_self, rfl, rfl⟩
      · obtain ⟨other, inside, same⟩ := ih later
        exact ⟨other, mem_cons_of_mem _ inside, same⟩

namespace RequestPath

open ClientReplyHandler

variable {Engine : Type} {crypto : CryptoService} {executed : HashType → Nat → Prop} {bound : Nat}
  {path after : RequestPath Engine}

structure Backed (executed : HashType → Nat → Prop) (bound : Nat) (path : RequestPath Engine) : Prop where
  handler : ClientReplyHandler.Backed executed bound path.handler
  acks : ∀ command ∈ path.app.clientReplyTx, BackedCommand executed bound command

theorem Backed.mono {executed' bound'} (backed : Backed executed bound path)
    (more : ∀ hash n, executed hash n → executed' hash n) (higher : bound ≤ bound') : Backed executed' bound' path :=
  ⟨backed.handler.mono more higher, fun command member => (backed.acks command member).mono more higher⟩

variable [AppEngine Engine]

theorem backed_new (config) : Backed executed bound (new config : RequestPath Engine) :=
  ⟨ClientReplyHandler.backed_new, forall_mem_nil _⟩

def BackedBlocks (executed : HashType → Nat → Prop) (bound : Nat) : AppCommand → Prop
  | .crashCommit blocks => ∀ block ∈ blocks, executed block.blockHash block.block.n
  | .byzCommit blocks => ∀ block ∈ blocks, block.block.n ≤ bound
  | .newRequestBatch .. | .rollback _ => True

theorem backed_handleStagingCommand {app app' : Application Engine} {command : AppCommand}
    (acks : ∀ command ∈ app.clientReplyTx, BackedCommand executed bound command)
    (backed : BackedBlocks executed bound command) (handled : app.handleStagingCommand command = some app') :
    ∀ command ∈ app'.clientReplyTx, BackedCommand executed bound command := by
  cases command with
  | newRequestBatch | rollback => exact some.inj handled ▸ acks
  | crashCommit blocks =>
    simp only [Application.handleStagingCommand, Application.handleCrashCommit] at handled
    split at handled
    · cases handled
    · split at handled
      · cases handled
      · obtain rfl := some.inj handled
        refine forall_mem_append.mpr ⟨acks, forall_mem_singleton.mpr fun ack member => ?_⟩
        obtain ⟨block, inside, hash, number⟩ := mem_zip_results (Application.resultMap_subset _ _ member)
        exact hash ▸ number ▸ backed block inside
  | byzCommit blocks =>
    simp only [Application.handleStagingCommand, Application.handleByzCommit] at handled
    split at handled
    · cases handled
    · obtain rfl := some.inj handled
      refine forall_mem_append.mpr ⟨acks, forall_mem_singleton.mpr fun ack member => ?_⟩
      obtain ⟨block, inside, -, number⟩ := mem_zip_results (Application.resultMap_subset _ _ member)
      exact number ▸ backed block inside

def BackedEvent (executed : HashType → Nat → Prop) (bound : Nat) : Event → Prop
  | .stagingCommand command => BackedBlocks executed bound command
  | _ => True

theorem Backed.step (backed : Backed executed bound path) {event} (known : BackedEvent executed bound event)
    (stepped : step crypto path event = some after) : Backed executed bound after := by
  cases event with
  | input input =>
    obtain ⟨_, -, rfl⟩ := map_eq_some_iff.mp stepped
    exact ⟨backed.handler, backed.acks⟩
  | takeBatch =>
    simp only [RequestPath.step] at stepped
    split at stepped
    · cases stepped
    · obtain ⟨sequencer, -, rfl⟩ := map_eq_some_iff.mp stepped
      exact ⟨backed.handler, backed.acks⟩
  | takeQc qc =>
    obtain rfl := some.inj stepped
    exact ⟨backed.handler, backed.acks⟩
  | signatureTick =>
    obtain rfl := some.inj stepped
    exact ⟨backed.handler, backed.acks⟩
  | controlCommand cmd =>
    obtain ⟨sequencer, -, rfl⟩ := map_eq_some_iff.mp stepped
    cases cmd with
    | newUnstableView | viewStabilised => exact ⟨backed.handler, backed.acks⟩
    | newViewMessage =>
      dsimp only
      split <;> exact ⟨backed.handler, backed.acks⟩
  | stagingCommand cmd =>
    obtain ⟨_, handled, rfl⟩ := map_eq_some_iff.mp stepped
    exact ⟨backed.handler, backed_handleStagingCommand backed.acks known handled⟩
  | takeUnlogged =>
    simp only [RequestPath.step] at stepped
    split at stepped
    · cases stepped
    · obtain rfl := some.inj stepped
      exact ⟨backed.handler, backed.acks⟩
  | takeRegistration =>
    simp only [RequestPath.step] at stepped
    split at stepped
    · cases stepped
    · obtain ⟨handler, handled, rfl⟩ := map_eq_some_iff.mp stepped
      exact ⟨backed.handler.handleBatch handled, backed.acks⟩
  | takeAck =>
    simp only [RequestPath.step] at stepped
    split at stepped
    · cases stepped
    · next command sent =>
      obtain ⟨handler, handled, rfl⟩ := map_eq_some_iff.mp stepped
      exact ⟨backed.handler.handleReplyCommand (backed.acks command (mem_of_getElem? sent)) handled, backed.acks⟩
  | replyCommand cancel =>
    obtain ⟨handler, handled, rfl⟩ := map_eq_some_iff.mp stepped
    refine ⟨backed.handler.handleReplyCommand ?_ handled, backed.acks⟩
    split <;> trivial
  | takeUnloggedAck =>
    simp only [RequestPath.step] at stepped
    split at stepped
    · cases stepped
    · next ack sent =>
      obtain rfl := some.inj stepped
      cases ack with
      | unloggedRequestAck => exact ⟨backed.handler, backed.acks⟩
      | probeRequestAck blockN ack => exact ⟨backed.handler.probeRequestAck blockN ack, backed.acks⟩
  | finishUnlogged waiting =>
    simp only [RequestPath.step] at stepped
    split at stepped
    · cases stepped
    · obtain ⟨result, -, rfl⟩ := map_eq_some_iff.mp stepped
      exact ⟨backed.handler.unloggedRequestAck result _, backed.acks⟩

end RequestPath

/-!
## A replica
-/

/-- The channels from staging into the path of a request. -/
inductive Replica.Channel where
  | app | reply | control | proposer | qcs
  deriving DecidableEq, Repr

/-- Staging with the path of a request. Blocks come to staging through the broadcaster,
from the own sequencer or from other nodes, and are any. -/
structure Replica (Engine : Type) where
  staging : Staging
  path : RequestPath Engine
  taken : Replica.Channel → Nat := fun _ => 0

namespace Replica

variable {Engine : Type}
variable {event : RequestPath.Event}

def new [AppEngine Engine] (config : Config) : Replica Engine where
  staging := .new config
  path := .new config

def next (replica : Replica Engine) (channel : Channel) : Option RequestPath.Event :=
  let i := replica.taken channel
  match channel with
  | .app => replica.staging.appTx[i]?.map .stagingCommand
  | .reply => replica.staging.clientReplyTx[i]?.map fun cmd => .replyCommand (cmd == .cancelAllRequests)
  | .control => replica.staging.blockSequencerCommandTx[i]?.map .controlCommand
  | .proposer => replica.staging.batchProposerCommandTx[i]?.map fun cmd => .input (.cmd cmd)
  | .qcs => replica.staging.qcTx[i]?.map .takeQc

inductive Event where
  | staging (event : Staging.Event)
  | take (channel : Channel)
  | path (event : RequestPath.Event)

/-- What does not come from staging: clients, timers, and the channels within the path. -/
def IsOwn : RequestPath.Event → Bool
  -- The broadcaster reports new blocks to the application.
  | .stagingCommand (.newRequestBatch ..) => true
  | .input (.cmd _) | .takeQc _ | .controlCommand _ | .stagingCommand _ | .replyCommand _ => false
  | _ => true

variable (crypto : CryptoService)

def step [AppEngine Engine] (replica : Replica Engine) : Event → Option (Replica Engine)
  | .staging event => (Staging.step crypto replica.staging event).map fun staging => { replica with staging }
  | .take channel =>
    match replica.next channel with
    | none => none
    | some event =>
      (replica.path.step crypto event).map fun path =>
        { replica with path, taken := Function.update replica.taken channel (replica.taken channel + 1) }
  | .path event =>
    if IsOwn event then (replica.path.step crypto event).map fun path => { replica with path } else none

/-- Hash and number of the block of each receipt for a crash commit. -/
def crashReceipts (replica : Replica Engine) : List (HashType × Nat) :=
  replica.path.handler.sent.filterMap fun answer =>
    match answer.2.reply with
    | .receipt receipt => if receipt.awaitByzResponse then some (receipt.reqDigest, receipt.blockN) else none
    | _ => none

def answeredProbes (replica : Replica Engine) : List Nat :=
  replica.path.handler.sent.filterMap fun answer =>
    match answer.2.reply with
    | .receipt receipt => if receipt.results.isNone then some receipt.blockN else none
    | _ => none

/-- A block that has a receipt, and whose number was probed and answered, is byzantine committed. -/
def Durable (replica : Replica Engine) : Prop :=
  ∀ receipt ∈ replica.crashReceipts, receipt.2 ∈ replica.answeredProbes →
    receipt.1 ∈ replica.staging.committed.map (·.blockHash)

instance (replica : Replica Engine) : Decidable replica.Durable := inferInstanceAs (Decidable (∀ _ ∈ _, _ → _))

/-- Staging gets no block for the place of another that was executed. -/
def Positioned (replica : Replica Engine) : Event → Prop
  | .staging event => Staging.PositionOk replica.staging event
  | _ => True

instance (replica : Replica Engine) : ∀ event, Decidable (replica.Positioned event)
  | .staging event => inferInstanceAs (Decidable (Staging.PositionOk replica.staging event))
  | .take _ | .path _ => inferInstanceAs (Decidable True)

variable {crypto} {replica after : Replica Engine}

def Executed (staging : Staging) (hash : HashType) (n : Nat) : Prop :=
  ∃ block ∈ staging.executed, block.blockHash = hash ∧ block.block.n = n

structure Inv (replica : Replica Engine) : Prop where
  chain : Staging.ChainInv replica.staging.toStagingCore
  agrees : Staging.Agrees replica.staging.toStagingCore
  backed : replica.path.Backed (Executed replica.staging) replica.staging.bci

theorem inv_new [AppEngine Engine] (config) : (new config : Replica Engine).Inv where
  chain := Staging.chainInv_new config
  agrees := Staging.agrees_new config
  backed := RequestPath.backed_new config

theorem Inv.stage (inv : replica.Inv) (withQcs : crypto.config.features.noQc = false) {event}
    (ok : Staging.PositionOk replica.staging event) {staging}
    (taken : Staging.step crypto replica.staging event = some staging) : { replica with staging }.Inv := by
  have transition := Staging.step_transition withQcs taken
  have chain := transition.chain inv.chain ok.1
  have sends := Staging.step_sends taken
  refine ⟨chain, transition.agrees inv.chain ok inv.agrees, inv.backed.mono ?_ ?_⟩
  · rintro _ n ⟨block, executed, same⟩
    exact ⟨block, sends.executed.subset executed, same⟩
  · have longer := sends.committed.length_le
    rwa [inv.chain.length, chain.length] at longer

theorem Inv.backedBlocks (inv : replica.Inv) {command} (sent : command ∈ replica.staging.appTx) :
    RequestPath.BackedBlocks (Executed replica.staging) replica.staging.bci command := by
  cases command with
  | newRequestBatch | rollback => trivial
  | crashCommit blocks => exact fun block inside => ⟨block, mem_flatMap.mpr ⟨_, sent, inside⟩, rfl, rfl⟩
  | byzCommit blocks =>
    intro block inside
    have committed : block ∈ replica.staging.committed := mem_flatMap.mpr ⟨_, sent, inside⟩
    have number := ((HashLinked.follows_append.mp inv.chain.chain).1.seq_mem committed).2
    rwa [Nat.zero_add, inv.chain.length] at number

theorem Inv.backedEvent (inv : replica.Inv) {channel} (found : replica.next channel = some event) :
    RequestPath.BackedEvent (Executed replica.staging) replica.staging.bci event := by
  cases channel with
  | app =>
    obtain ⟨_, sent, rfl⟩ := map_eq_some_iff.mp found
    exact inv.backedBlocks (mem_of_getElem? sent)
  | reply | control | proposer | qcs =>
    obtain ⟨_, -, rfl⟩ := map_eq_some_iff.mp found
    trivial

theorem backedEvent_of_isOwn {executed bound} (own : IsOwn event = true) :
    RequestPath.BackedEvent executed bound event := by
  cases event with
  | stagingCommand command =>
    cases command with
    | newRequestBatch => trivial
    | crashCommit | byzCommit | rollback => cases own
  | _ => trivial

theorem Inv.step [AppEngine Engine] (inv : replica.Inv) (withQcs : crypto.config.features.noQc = false) {event}
    (ok : replica.Positioned event) (stepped : step crypto replica event = some after) : after.Inv := by
  cases event with
  | staging event =>
    obtain ⟨staging, taken, rfl⟩ := map_eq_some_iff.mp stepped
    exact inv.stage withQcs ok taken
  | take channel =>
    simp only [Replica.step] at stepped
    split at stepped
    · cases stepped
    · next event found =>
      obtain ⟨path, taken, rfl⟩ := map_eq_some_iff.mp stepped
      exact ⟨inv.chain, inv.agrees, inv.backed.step (inv.backedEvent found) taken⟩
  | path event =>
    simp only [Replica.step] at stepped
    split at stepped
    · next own =>
      obtain ⟨path, taken, rfl⟩ := map_eq_some_iff.mp stepped
      exact ⟨inv.chain, inv.agrees, inv.backed.step (backedEvent_of_isOwn own) taken⟩
    · cases stepped

theorem Inv.executed_of_receipt (inv : replica.Inv) {receipt} (sent : receipt ∈ replica.crashReceipts) :
    Executed replica.staging receipt.1 receipt.2 := by
  obtain ⟨answer, member, isReceipt⟩ := mem_filterMap.mp sent
  have backs := inv.backed.handler.sent answer member
  unfold ClientReplyHandler.Backs at backs
  split at isReceipt
  · next found =>
    simp only [found] at backs
    split at isReceipt
    · next awaits =>
      obtain rfl := some.inj isReceipt
      exact backs.1 awaits
    · cases isReceipt
  · cases isReceipt

theorem Inv.le_of_probe (inv : replica.Inv) {n} (sent : n ∈ replica.answeredProbes) : n ≤ replica.staging.bci := by
  obtain ⟨answer, member, isProbe⟩ := mem_filterMap.mp sent
  have backs := inv.backed.handler.sent answer member
  unfold ClientReplyHandler.Backs at backs
  split at isProbe
  · next found =>
    simp only [found] at backs
    split at isProbe
    · next noResults =>
      obtain rfl := some.inj isProbe
      exact backs.2 (isNone_iff_eq_none.mp noResults)
    · cases isProbe
  · cases isProbe

/-- In every run in which no block takes the place of another that was executed, the
answer to a probe means that the block of the receipt is byzantine committed. -/
theorem durable_of_reaches [AppEngine Engine] (withQcs : crypto.config.features.noQc = false)
    (reached : Reaches (step crypto) Positioned (new crypto.config) replica) : replica.Durable := by
  have inv : replica.Inv :=
    reached.invariant (inv_new crypto.config) fun inv ok stepped => inv.step withQcs ok stepped
  intro receipt sent probed
  obtain ⟨block, executed, hash, number⟩ := inv.executed_of_receipt sent
  have below : block.block.n ≤ replica.staging.bci := number ▸ inv.le_of_probe probed
  exact hash ▸ inv.agrees.committed inv.chain executed below

def leaderNode : CryptoService := tinyNode (Staging.threeNodes "node1").config

def forkVc (view : Nat) (blocks : List CachedBlock) : ProtoViewChange where
  view
  configNum := 1
  fork := some ⟨blocks.map (·.toHalfSerialized)⟩
  forkLastQc := none
  forkLastN := 0
  forkSig := []

def newView (view : Nat) (second third : List CachedBlock) : List Event :=
  let forks := ((∅ : HashMap SenderType ProtoViewChange).insert (.auth "node2" 0) (forkVc view second)).insert
    (.auth "node3" 0) (forkVc view third)
  [.staging (.pacemaker (.updateView view 1)), .staging (.pacemaker (.newViewForks view 1 forks)),
    .take .control, .take .control]

def ownBlock (block : CachedBlock) (view ci : Nat) (final : Bool) : Event :=
  .staging (.block block (.ok ())
    { view, viewIsStable := block.block.viewIsStable, configNum := 1, sender := "node1", ci } final)

def voteOf (name : String) (key : UInt8) (view : Nat) (block : CachedBlock) : Event :=
  .staging (.vote (.auth name 0)
    { sigArray := [{ n := block.block.n, sig := tinyPrimitives.sign [key] block.blockHash }]
      forkDigest := block.blockHash
      n := block.block.n
      view
      configNum := 1 })

def lastMade (events : List Event) : CachedBlock :=
  (((runAll (step leaderNode) (new leaderNode.config : Replica KVSAppEngine) events).bind
    (·.path.sequencer.blockBroadcasterTx.getLast?))).getD (tinyBlock 0 0 false defaultHash)

def clientWrite : RequestPath.Event :=
  .input (.newTx (some { onCrashCommit := some ⟨[⟨2, [[1], [2]]⟩]⟩ }, ⟨0, 7, .auth "client1" 0⟩) false)

def clientProbe (n : UInt8) : RequestPath.Event :=
  .input (.newTx
    (some { onReceive := some ⟨[⟨10, [[0, 0, 0, 0, 0, 0, 0, n]]⟩]⟩ }, ⟨1, 8, .auth "client1" 0⟩) false)

def firstBlock : CachedBlock := lastMade (newView 1 [] [])

def writeInBlock : List Event :=
  newView 1 [] [] ++
    [ownBlock firstBlock 1 0 true, voteOf "node2" 2 1 firstBlock, .take .control, .take .proposer, .take .proposer,
      .take .reply, .take .reply, .path .signatureTick, .path clientWrite, .path .takeBatch]

def secondBlock : CachedBlock := lastMade writeInBlock

def receiptForWrite : List Event :=
  writeInBlock ++
    [ownBlock secondBlock 1 1 true, voteOf "node2" 2 1 secondBlock, .path .takeRegistration, .path .takeRegistration,
      .take .app, .take .app, .take .app, .path .takeAck, .path .takeAck]

def probeOfCommitted : List Event :=
  receiptForWrite ++
    [voteOf "node3" 3 1 secondBlock, .take .app, .path .takeAck, .path (clientProbe 2), .path .takeUnloggedAck]

theorem durable_of_committed :
    ∃ replica : Replica KVSAppEngine, Reaches (step leaderNode) Positioned (new leaderNode.config) replica ∧
      (replica.crashReceipts.map (·.2) = [2] ∧ replica.answeredProbes = [2]) ∧ replica.Durable :=
  exists_reaches_and probeOfCommitted (by decide +kernel) (by decide +kernel) fun reached _ =>
    durable_of_reaches rfl reached

def replacing : List CachedBlock := [tinyBlock 1 3 false defaultHash]

def replaced : List Event := receiptForWrite ++ newView 4 [firstBlock, secondBlock] replacing

def probeOfReplaced : List Event :=
  replaced ++ replacing.map (ownBlock · 4 2 false) ++
    [ownBlock (lastMade replaced) 4 2 true, voteOf "node2" 2 4 (lastMade replaced),
      voteOf "node3" 3 4 (lastMade replaced),
      .take .reply, .take .reply, .path .takeRegistration, .take .app, .take .app, .take .app, .take .app, .take .app,
      .path .takeAck, .path .takeAck, .path (clientProbe 2), .path .takeUnloggedAck]

/-- The client has a receipt for block 2, the probe for it is answered, and the block is gone. -/
theorem not_durable_of_replaced :
    ∃ replica : Replica KVSAppEngine, Reaches (step leaderNode) Any (new leaderNode.config) replica ∧
      ¬ replica.Durable :=
  exists_reaches_any probeOfReplaced (by decide +kernel)

end Replica

end PirateShip
