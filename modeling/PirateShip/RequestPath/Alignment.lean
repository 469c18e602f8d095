import PirateShip.Crypto.Accepted
import PirateShip.RequestPath

/-! Transactions, channels and results stay in step from the proposer to the reply
stage: the `k`-th channel that is registered for a block belongs to its `k`-th
transaction, and there is one result for each of them. -/

set_option autoImplicit false

namespace PirateShip

open List StepSystem Option

/-!
## Batches
-/

def Paired (requests : List (ProtoTransaction × MsgAckChanWithTag)) (txs : List ProtoTransaction)
    (channels : List MsgAckChanWithTag) : Prop :=
  List.Forall₂ (fun tx ack => (tx, ack) ∈ requests) txs channels

section Paired

variable {requests more : List (ProtoTransaction × MsgAckChanWithTag)} {txs : List ProtoTransaction}
  {channels : List MsgAckChanWithTag}

theorem Paired.mono (paired : Paired requests txs channels) (subset : requests ⊆ more) : Paired more txs channels :=
  List.Forall₂.imp (fun _ _ member => subset member) paired

theorem Paired.concat (paired : Paired requests txs channels) {tx ack}
    (came : (tx, ack) ∈ requests) : Paired requests (txs ++ [tx]) (channels ++ [ack]) :=
  rel_append paired (.cons came .nil)

end Paired

namespace BatchProposer

variable {config : Config} {proposer after : BatchProposer} {requests : List (ProtoTransaction × MsgAckChanWithTag)}

structure InStep (requests : List (ProtoTransaction × MsgAckChanWithTag)) (proposer : BatchProposer) : Prop where
  current : Paired requests proposer.currentRawBatch proposer.currentReplyVec
  proposed : ∀ batch ∈ proposer.blockMakerTx, Paired requests batch.1 batch.2

theorem InStep.mono {more} (inStep : InStep requests proposer) (subset : requests ⊆ more) : InStep more proposer :=
  ⟨inStep.current.mono subset, fun batch member => (inStep.proposed batch member).mono subset⟩

theorem InStep.maybePropose (inStep : InStep requests proposer) (tick) :
    InStep requests (proposer.maybePropose config tick) := by
  unfold BatchProposer.maybePropose
  split
  · refine ⟨.nil, fun batch member => ?_⟩
    cases mem_append.mp member with
    | inl earlier => exact inStep.proposed batch earlier
    | inr last =>
      obtain rfl := mem_singleton.mp last
      exact inStep.current
  · exact inStep

theorem InStep.filterUnloggedRequest {request rest} (inStep : InStep requests proposer)
    (filtered : proposer.filterUnloggedRequest request = some (after, rest)) :
    InStep requests after ∧ ∀ tx, rest = some tx → tx = request := by
  unfold BatchProposer.filterUnloggedRequest at filtered
  split at filtered
  · cases filtered
  · split at filtered
    · split at filtered <;>
        (obtain ⟨rfl, rfl⟩ := Prod.mk.inj (some.inj filtered)
         exact ⟨⟨inStep.current, inStep.proposed⟩, fun tx is => by cases is⟩)
    · obtain ⟨rfl, rfl⟩ := Prod.mk.inj (some.inj filtered)
      exact ⟨inStep, fun tx is => (some.inj is).symm⟩

theorem InStep.addTx {request} (inStep : InStep requests proposer)
    (came : ∀ tx, request.1 = some tx → (tx, request.2) ∈ requests) (tick) :
    InStep requests (proposer.addTx config request tick) := by
  unfold BatchProposer.addTx
  split
  · exact ⟨inStep.current, inStep.proposed⟩
  · obtain ⟨tx, ack⟩ := request
    cases tx with
    | none => exact inStep
    | some tx =>
      have added : InStep requests { proposer with
          currentRawBatch := proposer.currentRawBatch ++ [tx]
          currentReplyVec := proposer.currentReplyVec ++ [ack] } :=
        ⟨inStep.current.concat (came tx rfl), inStep.proposed⟩
      exact added.maybePropose tick

theorem InStep.worker {input} (inStep : InStep requests proposer)
    (worked : proposer.worker config input = some after) :
    InStep (requests ++ RequestPath.request input) after := by
  have more := subset_append_left requests (RequestPath.request input)
  cases input with
  | cmd command =>
    cases worked
    exact InStep.mono ⟨inStep.current, inStep.proposed⟩ more
  | tick =>
    cases worked
    exact (inStep.maybePropose true).mono more
  | newTx request elapsed =>
    simp only [BatchProposer.worker] at worked
    split at worked
    · cases worked
    · next filtered =>
      cases worked
      exact ((inStep.filterUnloggedRequest filtered).1.maybePropose elapsed).mono more
    · next _ request' filtered =>
      cases worked
      obtain ⟨inStep', same⟩ := inStep.filterUnloggedRequest filtered
      obtain rfl := same _ rfl
      refine (inStep'.mono more).addTx (fun tx is => ?_) elapsed
      obtain ⟨_, _⟩ := request'
      obtain rfl := is
      exact mem_append_right _ mem_cons_self

end BatchProposer

/-!
## Blocks
-/

namespace BlockSequencer

variable {crypto : CryptoService} {sequencer after : BlockSequencer} {batch : RawBatch}

theorem handleNewBatch_made {forkValidation}
    (made : handleNewBatch crypto sequencer batch forkValidation = some after) :
    ∃ block, after.blockBroadcasterTx = sequencer.blockBroadcasterTx ++ [block] ∧
      after.parentHash = block.blockHash ∧ block.block.txList = batch := by
  obtain ⟨block, prepared, rfl⟩ := map_eq_some_iff.mp made
  obtain ⟨_, same⟩ := CryptoService.prepareBlock_block prepared
  exact ⟨block, rfl, rfl, congrArg ProtoBlock.txList same⟩

end BlockSequencer

namespace RequestPath

variable {Engine : Type} {path after : RequestPath Engine}
variable {block : CachedBlock} {hash : HashType} {replyVec : List MsgAckChanWithTag} {event : Event}

/-- What a step adds to a path: requests, blocks with the channels registered for
them, and commits. -/
structure Extends (path after : RequestPath Engine) : Prop where
  requests : path.requests ⊆ after.requests
  made : path.sequencer.blockBroadcasterTx ⊆ after.sequencer.blockBroadcasterTx
  registered : path.clientReplyTx ⊆ after.clientReplyTx
  committed : path.committed ⊆ after.committed

theorem Extends.of_eq (requests : after.requests = path.requests)
    (made : after.sequencer.blockBroadcasterTx = path.sequencer.blockBroadcasterTx)
    (registered : after.clientReplyTx = path.clientReplyTx) (committed : after.committed = path.committed) :
    Extends path after where
  requests := requests ▸ List.Subset.refl _
  made := made ▸ List.Subset.refl _
  registered := registered ▸ List.Subset.refl _
  committed := committed ▸ List.Subset.refl _

theorem extends_make {sequencer taken blocks entries}
    (made : sequencer.blockBroadcasterTx = path.sequencer.blockBroadcasterTx ++ blocks) :
    Extends path { path with sequencer, taken, clientReplyTx := path.clientReplyTx ++ entries } where
  requests := List.Subset.refl _
  made := made ▸ subset_append_left _ _
  registered := subset_append_left _ _
  committed := List.Subset.refl _

/-- Blocks with one hash have the same transactions: the hash function has no
collision among the blocks of the run, and decoding returns what was encoded. -/
def NoCollision (path : RequestPath Engine) : Prop :=
  ∀ made ∈ path.sequencer.blockBroadcasterTx, ∀ block ∈ path.sequencer.blockBroadcasterTx ++ path.committed,
    block.blockHash = made.blockHash → block.block.txList = made.block.txList

instance (path : RequestPath Engine) : Decidable path.NoCollision :=
  inferInstanceAs (Decidable (∀ made ∈ path.sequencer.blockBroadcasterTx, ∀ block ∈ _ ++ _, _ → _))

theorem NoCollision.of_extends (noCollision : after.NoCollision) (extends_ : Extends path after) :
    path.NoCollision := by
  intro made member block member' same
  refine noCollision made (extends_.made member) block ?_ same
  exact mem_append.mpr ((mem_append.mp member').imp (extends_.made ·) (extends_.committed ·))

def RegisteredAs (path : RequestPath Engine) (hash : HashType) (replyVec : List MsgAckChanWithTag) : Prop :=
  hash ≠ [] ∧ (hash, replyVec) ∈ path.clientReplyTx

def Answered {Result : Type} (path : RequestPath Engine) (hash : HashType) (ack : Nat × List Result) : Prop :=
  ∃ block ∈ path.committed, block.blockHash = hash ∧ ack.2.length = block.block.txList.length

theorem NoCollision.length {Result : Type} {ack : Nat × List Result}
    (noCollision : path.NoCollision) (made : block ∈ path.sequencer.blockBroadcasterTx)
    (answered : path.Answered block.blockHash ack) : ack.2.length = block.block.txList.length := by
  obtain ⟨other, committed, same, length⟩ := answered
  rw [length, noCollision block made other (mem_append_right _ committed) same]

structure Aligned (path : RequestPath Engine) : Prop where
  inStep : path.proposer.InStep path.requests
  registered : ∀ block ∈ path.sequencer.blockBroadcasterTx, ∃ replyVec,
    (block.blockHash, replyVec) ∈ path.clientReplyTx ∧ Paired path.requests block.block.txList replyVec
  made : ∀ hash replyVec, path.RegisteredAs hash replyVec → ∃ block ∈ path.sequencer.blockBroadcasterTx,
    block.blockHash = hash ∧ Paired path.requests block.block.txList replyVec
  acks : ∀ command ∈ path.app.clientReplyTx, ClientReplyHandler.Known path.Answered path.Answered command
  holding : path.handler.Holding path.RegisteredAs path.Answered path.Answered

theorem Aligned.fitting (aligned : path.Aligned) (noCollision : path.NoCollision) :
    ClientReplyHandler.Fitting path.RegisteredAs path.Answered path.Answered := by
  have fits {Result : Type} {hash : HashType} {replyVec : List MsgAckChanWithTag} {ack : Nat × List Result}
      (registered : path.RegisteredAs hash replyVec) (answered : path.Answered hash ack) :
      replyVec.length = ack.2.length := by
    obtain ⟨_, member, rfl, paired⟩ := aligned.made hash replyVec registered
    exact paired.length_eq.symm.trans (noCollision.length member answered).symm
  exact ⟨fun _ _ _ registered answered => fits registered answered, fun _ _ _ registered answered =>
    fits registered answered⟩

variable (extends_ : Extends path after)
include extends_

theorem Extends.registeredAs (registered : path.RegisteredAs hash replyVec) : after.RegisteredAs hash replyVec :=
  ⟨registered.1, extends_.registered registered.2⟩

theorem Extends.answered {Result : Type} {ack : Nat × List Result}
    (answered : path.Answered hash ack) : after.Answered hash ack := by
  obtain ⟨block, committed, same, length⟩ := answered
  exact ⟨block, extends_.committed committed, same, length⟩

theorem Extends.holding (holding : path.handler.Holding path.RegisteredAs path.Answered path.Answered) :
    path.handler.Holding after.RegisteredAs after.Answered after.Answered :=
  holding.mono (fun _ _ => extends_.registeredAs) (fun _ _ => extends_.answered) (fun _ _ => extends_.answered)

theorem Extends.known {command} (known : ClientReplyHandler.Known path.Answered path.Answered command) :
    ClientReplyHandler.Known after.Answered after.Answered command := by
  cases command with
  | cancelAllRequests | stopCancelling => trivial
  | crashCommitAck acks | byzCommitAck acks => exact fun ack member => extends_.answered (known ack member)

omit extends_

variable (aligned : path.Aligned)
include aligned

theorem Aligned.carry (extends_ : Extends path after)
    (sequencer : after.sequencer.blockBroadcasterTx = path.sequencer.blockBroadcasterTx)
    (clientReplyTx : after.clientReplyTx = path.clientReplyTx) (inStep : after.proposer.InStep after.requests)
    (acks : ∀ command ∈ after.app.clientReplyTx, ClientReplyHandler.Known after.Answered after.Answered command)
    (holding : after.handler.Holding after.RegisteredAs after.Answered after.Answered) : after.Aligned where
  inStep := inStep
  registered block member := by
    rw [sequencer] at member
    obtain ⟨replyVec, registered, paired⟩ := aligned.registered block member
    exact ⟨replyVec, extends_.registered registered, paired.mono extends_.requests⟩
  made hash replyVec registered := by
    rw [RegisteredAs, clientReplyTx] at registered
    obtain ⟨block, member, same, paired⟩ := aligned.made hash replyVec registered
    exact ⟨block, extends_.made member, same, paired.mono extends_.requests⟩
  acks := acks
  holding := holding

theorem Aligned.make {sequencer taken}
    (made : sequencer.blockBroadcasterTx = path.sequencer.blockBroadcasterTx ++ [block])
    (paired : Paired path.requests block.block.txList replyVec) :
    Aligned { path with
      sequencer, taken, clientReplyTx := path.clientReplyTx ++ [(block.blockHash, replyVec)] } := by
  have extends_ : Extends path { path with
      sequencer, taken, clientReplyTx := path.clientReplyTx ++ [(block.blockHash, replyVec)] } := extends_make made
  constructor
  case inStep => exact aligned.inStep
  case registered =>
    intro other member
    simp only [made, mem_append, mem_singleton] at member
    cases member with
    | inl earlier =>
      obtain ⟨vec, registered, paired⟩ := aligned.registered other earlier
      exact ⟨vec, mem_append_left _ registered, paired⟩
    | inr last =>
      subst last
      exact ⟨replyVec, mem_append_right _ mem_cons_self, paired⟩
  case made =>
    intro hash vec registered
    obtain ⟨nonempty, listed⟩ := registered
    cases mem_append.mp listed with
    | inl earlier =>
      obtain ⟨other, member, same, paired⟩ := aligned.made hash vec ⟨nonempty, earlier⟩
      exact ⟨other, extends_.made member, same, paired⟩
    | inr last =>
      obtain ⟨rfl, rfl⟩ := Prod.mk.inj (mem_singleton.mp last)
      exact ⟨block, by simp [made], rfl, paired⟩
  case acks => exact fun command member => extends_.known (aligned.acks command member)
  case holding => exact extends_.holding aligned.holding

theorem Aligned.drop {taken} (replyVec) :
    Aligned { path with taken, clientReplyTx := path.clientReplyTx ++ [([], replyVec)] } := by
  have extends_ : Extends path { path with taken, clientReplyTx := path.clientReplyTx ++ [([], replyVec)] } :=
    extends_make (append_nil _).symm
  constructor
  case inStep => exact aligned.inStep
  case registered =>
    intro block member
    obtain ⟨vec, registered, paired⟩ := aligned.registered block member
    exact ⟨vec, mem_append_left _ registered, paired⟩
  case made =>
    intro hash vec registered
    obtain ⟨nonempty, listed⟩ := registered
    cases mem_append.mp listed with
    | inl earlier => exact aligned.made hash vec ⟨nonempty, earlier⟩
    | inr last => exact absurd (Prod.mk.inj (mem_singleton.mp last)).1 nonempty
  case acks => exact fun command member => extends_.known (aligned.acks command member)
  case holding => exact extends_.holding aligned.holding

theorem Aligned.keep (requests : after.requests = path.requests)
    (made : after.sequencer.blockBroadcasterTx = path.sequencer.blockBroadcasterTx)
    (registered : after.clientReplyTx = path.clientReplyTx) (committed : after.committed = path.committed)
    (proposer : after.proposer = path.proposer) (acks : after.app.clientReplyTx = path.app.clientReplyTx)
    (holding : after.handler.Holding path.RegisteredAs path.Answered path.Answered) : after.Aligned := by
  have extends_ := Extends.of_eq requests made registered committed
  refine aligned.carry extends_ made registered ?_ ?_ ?_
  · rw [requests, proposer]
    exact aligned.inStep
  · rw [acks]
    exact fun command member => extends_.known (aligned.acks command member)
  · exact holding.mono (fun _ _ => extends_.registeredAs) (fun _ _ => extends_.answered) fun _ _ => extends_.answered

omit aligned

/-!
## Steps
-/

variable {crypto : CryptoService}

section Blocks

variable {taken : Taken} {batch : RawBatch} {replies : List MsgAckChanWithTag} {cmd : BlockSequencerControlCommand}

theorem handleBatch_cases (handled : handleBatch crypto { path with taken } batch replies = some after) :
    (∃ sequencer block, sequencer.blockBroadcasterTx = path.sequencer.blockBroadcasterTx ++ [block] ∧
      block.block.txList = batch ∧ after = { path with
        sequencer, taken, clientReplyTx := path.clientReplyTx ++ [(block.blockHash, replies)] }) ∨
    after = { path with taken, clientReplyTx := path.clientReplyTx ++ [([], replies)] } := by
  obtain ⟨sequencer, sequenced, rfl⟩ := map_eq_some_iff.mp handled
  unfold BlockSequencer.handleBatch at sequenced
  cases mayPropose : path.sequencer.viewIsStable && path.sequencer.iAmLeader crypto.config with
  | true =>
    simp only [mayPropose, ↓reduceIte] at sequenced ⊢
    obtain ⟨block, made, parent, txs⟩ := BlockSequencer.handleNewBatch_made sequenced
    exact .inl ⟨sequencer, block, made, txs, by rw [parent]⟩
  | false =>
    simp only [mayPropose, Bool.false_eq_true, ↓reduceIte, some.injEq] at sequenced ⊢
    subst sequenced
    exact .inr rfl

theorem handleControlCommand_cases (handled : path.handleControlCommand crypto cmd = some after) :
    (∃ sequencer block, sequencer.blockBroadcasterTx = path.sequencer.blockBroadcasterTx ++ [block] ∧
      block.block.txList = [] ∧ after = { path with
        sequencer, clientReplyTx := path.clientReplyTx ++ [(block.blockHash, [])] }) ∨
    ∃ sequencer, sequencer.blockBroadcasterTx = path.sequencer.blockBroadcasterTx ∧
      after = { path with sequencer } := by
  obtain ⟨sequencer, sequenced, rfl⟩ := map_eq_some_iff.mp handled
  cases cmd with
  | newUnstableView view configNum | viewStabilised view configNum =>
    refine .inr ⟨sequencer, ?_, rfl⟩
    cases sequenced
    rfl
  | newViewMessage view configNum forkValidation newParentHash newSeqNum =>
    simp only [BlockSequencer.handleControlCommand, BlockSequencer.iAmLeader] at sequenced
    by_cases leads : (crypto.config.getLeaderForView view == crypto.config.netConfig.name) = true
    · simp only [leads, ↓reduceIte] at sequenced ⊢
      obtain ⟨block, made, parent, txs⟩ := BlockSequencer.handleNewBatch_made sequenced
      exact .inl ⟨sequencer, block, made, txs, by rw [parent]⟩
    · simp only [leads, Bool.false_eq_true, ↓reduceIte, some.injEq] at sequenced ⊢
      refine .inr ⟨sequencer, ?_, rfl⟩
      subst sequenced
      rfl

theorem addQc_blockBroadcasterTx (sequencer : BlockSequencer) (qc : ProtoQuorumCertificate) :
    (sequencer.addQc qc).blockBroadcasterTx = sequencer.blockBroadcasterTx := by
  unfold BlockSequencer.addQc
  split <;> rfl

end Blocks

theorem answered_zip {Result : Type} {blocks : List CachedBlock} {results : List (List Result)}
    (lawful : List.Forall₂ (fun block result => result.length = block.block.txList.length) blocks results)
    (committed : blocks ⊆ path.committed) {ack : HashType × Nat × List Result}
    (member : ack ∈ (blocks.map (·.blockHash)).zip ((blocks.map (·.block.n)).zip results)) :
    path.Answered ack.1 ack.2 := by
  induction lawful with
  | nil => cases member
  | cons length _ ih =>
    simp only [map_cons, zip_cons_cons, mem_cons] at member
    cases member with
    | inl first =>
      subst first
      exact ⟨_, committed mem_cons_self, rfl, length⟩
    | inr rest => exact ih (fun _ inside => committed (mem_cons_of_mem _ inside)) rest

variable [AppEngine Engine]

theorem extends_step (stepped : step crypto path event = some after) : Extends path after := by
  cases event with
  | input input =>
    obtain ⟨_, _, rfl⟩ := map_eq_some_iff.mp stepped
    exact ⟨subset_append_left _ _, List.Subset.refl _, List.Subset.refl _, List.Subset.refl _⟩
  | takeBatch =>
    simp only [step] at stepped
    split at stepped
    · cases stepped
    · obtain ⟨sequencer, block, made, _, rfl⟩ | rfl := handleBatch_cases stepped
      · exact extends_make made
      · exact extends_make (append_nil _).symm
  | takeQc qc =>
    cases stepped
    exact .of_eq rfl (addQc_blockBroadcasterTx path.sequencer qc) rfl rfl
  | signatureTick =>
    cases stepped
    exact .of_eq rfl rfl rfl rfl
  | controlCommand cmd =>
    obtain ⟨sequencer, block, made, _, rfl⟩ | ⟨sequencer, same, rfl⟩ := handleControlCommand_cases stepped
    · exact extends_make made
    · exact .of_eq rfl same rfl rfl
  | stagingCommand cmd =>
    obtain ⟨_, handled, rfl⟩ := map_eq_some_iff.mp stepped
    exact ⟨List.Subset.refl _, List.Subset.refl _, List.Subset.refl _, subset_append_left _ _⟩
  | replyCommand cancel =>
    obtain ⟨handler, handled, rfl⟩ := map_eq_some_iff.mp stepped
    exact .of_eq rfl rfl rfl rfl
  | takeUnlogged =>
    simp only [step] at stepped
    split at stepped
    · cases stepped
    · cases stepped
      exact .of_eq rfl rfl rfl rfl
  | takeUnloggedAck =>
    simp only [step] at stepped
    split at stepped
    · cases stepped
    · next ack _ =>
      cases stepped
      cases ack <;> exact .of_eq rfl rfl rfl rfl
  | takeRegistration | takeAck | finishUnlogged waiting =>
    simp only [step] at stepped
    split at stepped
    · cases stepped
    · obtain ⟨handler, handled, rfl⟩ := map_eq_some_iff.mp stepped
      exact .of_eq rfl rfl rfl rfl

theorem aligned_new (config) : Aligned (new config : RequestPath Engine) where
  inStep := by
    unfold new BatchProposer.new
    split <;> exact ⟨.nil, forall_mem_nil _⟩
  registered block member := by
    have none : (BlockSequencer.new config).blockBroadcasterTx = [] := by
      unfold BlockSequencer.new
      split <;> rfl
    exact absurd (none ▸ member) not_mem_nil
  made _ _ registered := absurd registered.2 not_mem_nil
  acks _ member := absurd member not_mem_nil
  holding := ClientReplyHandler.holding_new

variable [LawfulAppEngine Engine]

theorem Aligned.stagingCommand {cmd app} (aligned : path.Aligned)
    (handled : path.app.handleStagingCommand cmd = some app) :
    Aligned { path with app, committed := path.committed ++ committedBlocks cmd } := by
  have extends_ : Extends path { path with app, committed := path.committed ++ committedBlocks cmd } :=
    ⟨List.Subset.refl _, List.Subset.refl _, List.Subset.refl _, subset_append_left _ _⟩
  refine aligned.carry extends_ rfl rfl aligned.inStep ?_ (extends_.holding aligned.holding)
  intro command member
  cases cmd with
  | newRequestBatch | rollback =>
    cases handled
    exact extends_.known (aligned.acks command member)
  | crashCommit blocks =>
    obtain ⟨_, _, _, lawful, rfl⟩ := Application.handleCrashCommit_eq_some_iff.mp handled
    cases mem_append.mp member with
    | inl earlier => exact extends_.known (aligned.acks command earlier)
    | inr last =>
      obtain rfl := mem_singleton.mp last
      exact fun ack listed => answered_zip lawful (subset_append_right _ _) (Application.resultMap_subset _ _ listed)
  | byzCommit blocks =>
    obtain rfl := some.inj ((Application.handleByzCommit_eq path.app blocks).symm.trans handled)
    cases mem_append.mp member with
    | inl earlier => exact extends_.known (aligned.acks command earlier)
    | inr last =>
      obtain rfl := mem_singleton.mp last
      exact fun ack listed => answered_zip (LawfulAppEngine.byz_results path.app.engine blocks)
        (subset_append_right _ _) (Application.resultMap_subset _ _ listed)

theorem Aligned.step (aligned : path.Aligned) (noCollision : path.NoCollision)
    (stepped : step crypto path event = some after) : after.Aligned := by
  have fitting := aligned.fitting noCollision
  cases event with
  | input input =>
    have extends_ := extends_step stepped
    obtain ⟨_, worked, rfl⟩ := map_eq_some_iff.mp stepped
    exact aligned.carry extends_ rfl rfl (aligned.inStep.worker worked) aligned.acks aligned.holding
  | takeBatch =>
    simp only [RequestPath.step] at stepped
    split at stepped
    · cases stepped
    · next _ replies next =>
      have paired := aligned.inStep.proposed _ (mem_of_getElem? next)
      obtain ⟨sequencer, block, made, txs, rfl⟩ | rfl := handleBatch_cases stepped
      · exact aligned.make made (txs ▸ paired)
      · exact aligned.drop replies
  | takeQc qc =>
    cases stepped
    exact aligned.keep rfl (addQc_blockBroadcasterTx path.sequencer qc) rfl rfl rfl rfl aligned.holding
  | signatureTick =>
    cases stepped
    exact aligned.keep rfl rfl rfl rfl rfl rfl aligned.holding
  | controlCommand cmd =>
    obtain ⟨sequencer, block, made, txs, rfl⟩ | ⟨sequencer, same, rfl⟩ := handleControlCommand_cases stepped
    · exact aligned.make made (txs ▸ .nil)
    · exact aligned.keep rfl same rfl rfl rfl rfl aligned.holding
  | stagingCommand cmd =>
    obtain ⟨_, handled, rfl⟩ := map_eq_some_iff.mp stepped
    exact aligned.stagingCommand handled
  | takeUnlogged =>
    simp only [RequestPath.step] at stepped
    split at stepped
    · cases stepped
    · cases stepped
      exact aligned.keep rfl rfl rfl rfl rfl rfl aligned.holding
  | takeRegistration =>
    simp only [RequestPath.step] at stepped
    split at stepped
    · cases stepped
    · next _ _ next =>
      obtain ⟨handler, handled, rfl⟩ := map_eq_some_iff.mp stepped
      obtain ⟨handler', handled', holding⟩ := aligned.holding.handleBatch fitting fun nonempty =>
        ⟨nonempty, mem_of_getElem? next⟩
      obtain rfl := some.inj (handled'.symm.trans handled)
      exact aligned.keep rfl rfl rfl rfl rfl rfl holding
  | takeAck =>
    simp only [RequestPath.step] at stepped
    split at stepped
    · cases stepped
    · next command next =>
      obtain ⟨handler, handled, rfl⟩ := map_eq_some_iff.mp stepped
      obtain ⟨handler', handled', holding⟩ := aligned.holding.handleReplyCommand fitting
        (aligned.acks command (mem_of_getElem? next))
      obtain rfl := some.inj (handled'.symm.trans handled)
      exact aligned.keep rfl rfl rfl rfl rfl rfl holding
  | replyCommand cancel =>
    obtain ⟨handler, handled, rfl⟩ := map_eq_some_iff.mp stepped
    have known : ClientReplyHandler.Known path.Answered path.Answered
        (if cancel then .cancelAllRequests else .stopCancelling) := by
      cases cancel <;> trivial
    obtain ⟨handler', handled', holding⟩ := aligned.holding.handleReplyCommand fitting known
    obtain rfl := some.inj (handled'.symm.trans handled)
    exact aligned.keep rfl rfl rfl rfl rfl rfl holding
  | takeUnloggedAck =>
    simp only [RequestPath.step] at stepped
    split at stepped
    · cases stepped
    · next ack next =>
      cases stepped
      cases ack with
      | unloggedRequestAck request ack => exact aligned.keep rfl rfl rfl rfl rfl rfl aligned.holding
      | probeRequestAck blockN ack =>
        exact aligned.keep rfl rfl rfl rfl rfl rfl
          (aligned.holding.shrinks (ClientReplyHandler.shrinks_of_eq rfl rfl rfl rfl))
  | finishUnlogged waiting =>
    simp only [RequestPath.step] at stepped
    split at stepped
    · cases stepped
    · obtain ⟨_, _, rfl⟩ := map_eq_some_iff.mp stepped
      exact aligned.keep rfl rfl rfl rfl rfl rfl
        (aligned.holding.shrinks (ClientReplyHandler.shrinks_of_eq rfl rfl rfl rfl))

theorem aligned_of_reaches (reached : Reaches (RequestPath.step crypto) Any (new crypto.config) path)
    (noCollision : path.NoCollision) : path.Aligned := by
  have invariant : path.NoCollision → path.Aligned := by
    refine reached.invariant (motive := fun path => path.NoCollision → path.Aligned) (fun _ => aligned_new _) ?_
    intro before after event aligned _ stepped noCollision
    have earlier := noCollision.of_extends (extends_step stepped)
    exact (aligned earlier).step earlier stepped
  exact invariant noCollision

/-!
## Answers match transactions
-/

/-- For every block that the node sequenced, the channels registered for it belong to
its transactions one by one, and the results that the application sends for it are as
many. The next input of each stage passes the assertions on lengths. -/
structure AnswersMatch (path : RequestPath Engine) : Prop where
  registered : ∀ block ∈ path.sequencer.blockBroadcasterTx, ∃ replyVec,
    (block.blockHash, replyVec) ∈ path.clientReplyTx ∧ Paired path.requests block.block.txList replyVec
  channels : ∀ block ∈ path.sequencer.blockBroadcasterTx, block.blockHash ≠ [] → ∀ replyVec,
    (block.blockHash, replyVec) ∈ path.clientReplyTx → Paired path.requests block.block.txList replyVec
  crash_results : ∀ block ∈ path.sequencer.blockBroadcasterTx, ∀ acks, .crashCommitAck acks ∈ path.app.clientReplyTx →
    ∀ n results, (block.blockHash, n, results) ∈ acks → results.length = block.block.txList.length
  byz_results : ∀ block ∈ path.sequencer.blockBroadcasterTx, ∀ acks, .byzCommitAck acks ∈ path.app.clientReplyTx →
    ∀ n responses, (block.blockHash, n, responses) ∈ acks → responses.length = block.block.txList.length
  application : (∀ blocks engine results, AppEngine.handleCrashCommit path.app.engine blocks = some (engine, results) →
      results.length = blocks.length) ∧
    ∀ blocks, (AppEngine.handleByzCommit path.app.engine blocks).2.length = blocks.length
  registration : ∀ hash replyVec, path.clientReplyTx[path.taken.registrations]? = some (hash, replyVec) →
    (path.handler.handleBatch hash replyVec).isSome = true
  ack : ∀ command, path.app.clientReplyTx[path.taken.acks]? = some command →
    (path.handler.handleReplyCommand command).isSome = true

/-- In every run, whatever batches, views and commits there are. -/
theorem answersMatch_of_reaches (reached : Reaches (RequestPath.step crypto) Any (new crypto.config) path)
    (noCollision : path.NoCollision) : path.AnswersMatch := by
  have aligned := aligned_of_reaches reached noCollision
  have fitting := aligned.fitting noCollision
  constructor
  case registered => exact aligned.registered
  case channels =>
    intro block made nonempty replyVec registered
    obtain ⟨other, made', same, paired⟩ := aligned.made block.blockHash replyVec ⟨nonempty, registered⟩
    rwa [noCollision block made other (mem_append_left _ made') same] at paired
  case crash_results | byz_results =>
    intro block made acks sent n results member
    exact noCollision.length made (aligned.acks _ sent _ member)
  case application =>
    refine ⟨fun blocks engine results committed => ?_, fun blocks => ?_⟩
    · exact (LawfulAppEngine.crash_results committed).length_eq.symm
    · exact (LawfulAppEngine.byz_results path.app.engine blocks).length_eq.symm
  case registration =>
    intro hash replyVec next
    obtain ⟨handler, handled, _⟩ := aligned.holding.handleBatch fitting fun nonempty =>
      ⟨nonempty, mem_of_getElem? next⟩
    rw [handled, isSome_some]
  case ack =>
    intro command next
    obtain ⟨handler, handled, _⟩ := aligned.holding.handleReplyCommand fitting
      (aligned.acks command (mem_of_getElem? next))
    rw [handled, isSome_some]

def soleLeader : CryptoService := tinyNode
  { netConfig := { name := "node1" }
    consensusConfig := { nodeList := ["node1", "node2", "node3"], livenessU := 1 }
    features := { viewChange := false } }

def writeRequest : TxWithAckChanTag :=
  (some { onCrashCommit := some ⟨[⟨2, [[1], [2]]⟩]⟩ }, ⟨0, 7, .auth "client1" 0⟩)

def writeBlock : List CachedBlock :=
  (((BlockSequencer.new soleLeader.config).handleBatch soleLeader writeRequest.1.toList).map
    (·.blockBroadcasterTx)).getD []

def answeredWrite : List Event :=
  [.input (.newTx writeRequest false), .takeBatch, .stagingCommand (.crashCommit writeBlock), .takeRegistration,
    .stagingCommand (.byzCommit writeBlock), .takeAck, .takeAck]

theorem answersMatch_of_write :
    (∃ path : RequestPath KVSAppEngine, Reaches (RequestPath.step soleLeader) Any (new soleLeader.config) path ∧
      (path.NoCollision ∧ path.handler.sent.map (·.1) = [writeRequest.2]) ∧ path.AnswersMatch) ∧
    ∃ path : RequestPath NullApp, Reaches (RequestPath.step soleLeader) Any (new soleLeader.config) path ∧
      (path.NoCollision ∧ path.handler.sent.map (·.1) = [writeRequest.2]) ∧ path.AnswersMatch := by
  constructor
  · exact exists_reaches_and answeredWrite (allAllowed_any _ _) (by decide +kernel) fun reached known =>
      answersMatch_of_reaches reached known.1
  · exact exists_reaches_and answeredWrite (allAllowed_any _ _) (by decide +kernel) fun reached known =>
      answersMatch_of_reaches reached known.1

end RequestPath

end PirateShip
