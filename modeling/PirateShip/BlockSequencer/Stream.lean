import Mathlib.Data.List.DropRight
import PirateShip.Node.CommitIndex

/-! The blocks that the sequencer makes of what it receives: in each view a chain
that starts with the NewView block, with every certificate of the view in the next
signed block. -/

set_option autoImplicit false

namespace PirateShip

open List StepSystem HashLinked Option

def BlockSequencerControlCommand.view : BlockSequencerControlCommand → Nat
  | .newUnstableView view _ => view
  | .viewStabilised view _ => view
  | .newViewMessage view _ _ _ _ => view

namespace BlockSequencer

inductive Input where
  | batch (batch : List ProtoTransaction)
  | qc (qc : ProtoQuorumCertificate)
  | signatureTick
  | command (cmd : BlockSequencerControlCommand)

/-- One input of the loop. The signature timer is waited for only while batches
are. -/
def worker (crypto : CryptoService) (sequencer : BlockSequencer) : Input → Option BlockSequencer
  | .batch batch => handleBatch crypto sequencer batch
  | .qc qc => some (sequencer.addQc qc)
  | .signatureTick =>
    if sequencer.viewIsStable && sequencer.iAmLeader crypto.config then some sequencer.signatureTick else none
  | .command cmd => handleControlCommand crypto sequencer cmd

/-!
## The journal of a run
-/

/-- A certificate is `received` if it is of the view the sequencer is in. -/
inductive Entry where
  | ordered (cmd : BlockSequencerControlCommand)
  | received (qc : ProtoQuorumCertificate)
  | emitted (block : CachedBlock)

namespace Entry

def command? : Entry → Option BlockSequencerControlCommand
  | .ordered cmd => some cmd
  | _ => none

def block? : Entry → Option CachedBlock
  | .emitted block => some block
  | _ => none

def qcOf? (view : Nat) : Entry → Option ProtoQuorumCertificate
  | .received qc => if qc.view = view then some qc else none
  | _ => none

def isSigned : Entry → Bool
  | .emitted block => block.block.isSigned
  | _ => false

end Entry

structure Journal where
  sequencer : BlockSequencer
  log : List Entry := []

def Input.entries (sequencer : BlockSequencer) : Input → List Entry
  | .qc received => if received.view = sequencer.view then [.received received] else []
  | .command cmd => [.ordered cmd]
  | _ => []

namespace Journal

def new (config : Config) : Journal := { sequencer := .new config }

def step (crypto : CryptoService) (journal : Journal) (input : Input) : Option Journal :=
  (worker crypto journal.sequencer input).map fun after =>
    { sequencer := after
      log := journal.log ++ input.entries journal.sequencer ++
        (after.blockBroadcasterTx.drop journal.sequencer.blockBroadcasterTx.length).map .emitted }

end Journal

def commands (log : List Entry) : List BlockSequencerControlCommand := log.filterMap Entry.command?

def blocks (log : List Entry) : List CachedBlock := log.filterMap Entry.block?

def blocksOf (view : Nat) (log : List Entry) : List CachedBlock :=
  (blocks log).filter fun block => block.block.view == view

/-- The certificates of a view received since the last signed block. -/
def pendingQcs (view : Nat) (log : List Entry) : List ProtoQuorumCertificate :=
  (log.rtakeWhile fun entry => !entry.isSigned).filterMap (Entry.qcOf? view)

/-!
## What is asked of the inputs
-/

/-- The leader may make blocks of the view: it has been given the NewView message,
or it has started in the view. -/
def Opened (config : Config) (commands : List BlockSequencerControlCommand) (view : Nat) : Prop :=
  (∃ cmd ∈ commands, Staging.newView? cmd = some view) ∨ config.features.viewChange = false ∧ view = 1

def Due (config : Config) (commands : List BlockSequencerControlCommand) : BlockSequencerControlCommand → Prop
  | .newUnstableView _ _ => True
  | .viewStabilised view _ => Opened config commands view
  | .newViewMessage view _ _ _ _ => ¬ Opened config commands view

instance (config : Config) (commands : List BlockSequencerControlCommand) (view : Nat) :
    Decidable (Opened config commands view) := inferInstanceAs (Decidable (_ ∨ _))

instance (config : Config) (commands : List BlockSequencerControlCommand) :
    (cmd : BlockSequencerControlCommand) → Decidable (Due config commands cmd)
  | .newUnstableView _ _ => isTrue trivial
  | .viewStabilised view _ => inferInstanceAs (Decidable (Opened config commands view))
  | .newViewMessage view _ _ _ _ => inferInstanceAs (Decidable (¬ Opened config commands view))

/-- Views start at 1 and never decrease, and those of this node come as they are
due. -/
def Disciplined (config : Config) (journal : Journal) : Input → Prop
  | .command cmd =>
    1 ≤ cmd.view ∧ (∀ earlier ∈ commands journal.log, earlier.view ≤ cmd.view) ∧
      (Node.Leads config cmd.view → Due config (commands journal.log) cmd)
  | _ => True

instance (config : Config) (journal : Journal) : (input : Input) → Decidable (Disciplined config journal input)
  | .command _ => inferInstanceAs (Decidable (_ ∧ _ ∧ _))
  | .batch _ | .qc _ | .signatureTick => isTrue trivial

/-!
## What holds of the blocks
-/

/-- How the blocks of a view start: with the NewView block that a command asks for,
or, in the view that a build without view changes starts in, at number 1. All
others are stable. -/
inductive Opens (config : Config) (commands : List BlockSequencerControlCommand) :
    Nat → Nat → HashType → List CachedBlock → Prop where
  | newView {view configNum n : Nat} {validation : List ProtoForkValidation} {hash : HashType}
      {first : CachedBlock} {rest : List CachedBlock}
      (ordered : .newViewMessage view configNum validation hash n ∈ commands)
      (signed : first.block.isSigned = true) (unstable : first.block.viewIsStable = false)
      (stable : ∀ block ∈ rest, block.block.viewIsStable = true) : Opens config commands view n hash (first :: rest)
  | initial {blocks : List CachedBlock} (noViewChange : config.features.viewChange = false)
      (stable : ∀ block ∈ blocks, block.block.viewIsStable = true) : Opens config commands 1 0 defaultHash blocks

structure WellFormed (config : Config) (journal : Journal) : Prop where
  broadcast : journal.sequencer.blockBroadcasterTx = blocks journal.log
  chains : ∀ view, blocksOf view journal.log ≠ [] → ∃ n hash,
    Opens config (commands journal.log) view n hash (blocksOf view journal.log) ∧
      Follows n (some hash) (blocksOf view journal.log)
  qcs : ∀ block ∈ blocks journal.log, ∀ qc ∈ block.block.qc, qc.view = block.block.view ∧ block.block.isSigned = true
  attached : ∀ earlier block, earlier ++ [.emitted block] <+: journal.log →
    block.block.isSigned = true → block.block.qc = pendingQcs block.block.view earlier
  signatures : ∀ view window, window <:+: blocksOf view journal.log →
    window.length = config.consensusConfig.signatureMaxDelayBlocks → ∃ block ∈ window, block.block.isSigned = true

theorem rtakeWhile_append_of_all {α test} (values more : List α) (all : ∀ value ∈ more, test value = true) :
    (values ++ more).rtakeWhile test = values.rtakeWhile test ++ more := by
  induction more using List.reverseRecOn with
  | nil => simp
  | append_singleton more last ih =>
    rw [← append_assoc, rtakeWhile_concat_pos _ _ _ (all last (by simp)),
      ih fun value member => all value (by simp [member]), append_assoc]

theorem exists_mem_of_infix {α : Type} {test : α → Bool} {delay : Nat} {values window : List α}
    (gaps : ∀ initial, initial <+: values → (initial.rtakeWhile fun value => !test value).length < delay)
    (inside : window <:+: values) (long : window.length = delay) : ∃ value ∈ window, test value = true := by
  by_contra empty
  obtain ⟨before, after, rfl⟩ := inside
  have short := gaps (before ++ window) ⟨after, rfl⟩
  rw [rtakeWhile_append_of_all, length_append] at short
  · omega
  · intro value member
    by_contra isTrue
    exact empty ⟨value, member, by simpa using isTrue⟩

section Log

variable (log : List Entry) (view : Nat) (block : CachedBlock) (qc : ProtoQuorumCertificate)
  (cmd : BlockSequencerControlCommand)

@[simp] theorem commands_ordered : commands (log ++ [.ordered cmd]) = commands log ++ [cmd] := by
  simp [commands, Entry.command?]

@[simp] theorem commands_received : commands (log ++ [.received qc]) = commands log := by
  simp [commands, Entry.command?]

@[simp] theorem commands_emitted : commands (log ++ [.emitted block]) = commands log := by
  simp [commands, Entry.command?]

@[simp] theorem blocks_ordered : blocks (log ++ [.ordered cmd]) = blocks log := by
  simp [blocks, Entry.block?]

@[simp] theorem blocks_received : blocks (log ++ [.received qc]) = blocks log := by
  simp [blocks, Entry.block?]

@[simp] theorem blocks_emitted : blocks (log ++ [.emitted block]) = blocks log ++ [block] := by
  simp [blocks, Entry.block?]

@[simp] theorem blocksOf_ordered : blocksOf view (log ++ [.ordered cmd]) = blocksOf view log := by
  rw [blocksOf, blocks_ordered, blocksOf]

@[simp] theorem blocksOf_received : blocksOf view (log ++ [.received qc]) = blocksOf view log := by
  rw [blocksOf, blocks_received, blocksOf]

theorem blocksOf_emitted : blocksOf view (log ++ [.emitted block]) =
    if block.block.view = view then blocksOf view log ++ [block] else blocksOf view log := by
  by_cases same : block.block.view = view <;> simp [blocksOf, same]

@[simp] theorem pendingQcs_ordered : pendingQcs view (log ++ [.ordered cmd]) = pendingQcs view log := by
  simp [pendingQcs, Entry.isSigned, Entry.qcOf?]

theorem pendingQcs_received : pendingQcs view (log ++ [.received qc]) =
    if qc.view = view then pendingQcs view log ++ [qc] else pendingQcs view log := by
  by_cases same : qc.view = view <;> simp [pendingQcs, Entry.isSigned, Entry.qcOf?, same]

theorem pendingQcs_emitted : pendingQcs view (log ++ [.emitted block]) =
    if block.block.isSigned = true then [] else pendingQcs view log := by
  by_cases signed : block.block.isSigned = true <;> simp [pendingQcs, Entry.isSigned, Entry.qcOf?, signed]

variable {log view qc}

theorem mem_of_mem_pendingQcs (pending : qc ∈ pendingQcs view log) : .received qc ∈ log ∧ qc.view = view := by
  obtain ⟨entry, member, found⟩ := mem_filterMap.mp pending
  have inLog := (rtakeWhile_suffix _ log).mem member
  cases entry with
  | received other =>
    simp only [Entry.qcOf?] at found
    split at found
    · next same =>
      cases found
      exact ⟨inLog, same⟩
    · cases found
  | ordered _ => cases found
  | emitted _ => cases found

theorem filter_pendingQcs {next keeps} (received_le : ∀ qc, .received qc ∈ log → qc.view ≤ view) (le : view ≤ next)
    (exact : ∀ qc, qc.view = view → keeps qc = decide (view = next)) :
    (pendingQcs view log).filter keeps = pendingQcs next log := by
  by_cases same : view = next
  · subst same
    refine filter_eq_self.mpr fun qc pending => ?_
    rw [exact qc (mem_of_mem_pendingQcs pending).2, decide_eq_true rfl]
  · have dropped : (pendingQcs view log).filter keeps = [] := by
      refine filter_eq_nil_iff.mpr fun qc pending => ?_
      rw [exact qc (mem_of_mem_pendingQcs pending).2, decide_eq_false same]
      exact Bool.false_ne_true
    have none : pendingQcs next log = [] := by
      refine eq_nil_iff_forall_not_mem.mpr fun qc pending => ?_
      obtain ⟨received, _⟩ := mem_of_mem_pendingQcs pending
      have := received_le qc received
      omega
    rw [dropped, none]

end Log

/-!
## One block
-/

variable {crypto : CryptoService} {sequencer after : BlockSequencer} {block : CachedBlock}

theorem isSigned_of_prepareBlock {protoBlock mustSign parent}
    (prepared : crypto.prepareBlock protoBlock mustSign parent = some block) : block.block.isSigned = mustSign := by
  unfold CryptoService.prepareBlock at prepared
  split at prepared
  · cases prepared
  · dsimp only at prepared
    split at prepared
    · cases prepared
    · cases mustSign with
      | true =>
        rw [if_pos rfl] at prepared
        split at prepared
        · cases prepared
        · cases prepared
          rfl
      | false =>
        cases prepared
        rfl

structure Emits (config : Config) (sequencer : BlockSequencer) (block : CachedBlock) (after : BlockSequencer) :
    Prop where
  n : block.block.n = sequencer.seqNum + 1
  parent : block.block.parent = sequencer.parentHash
  view : block.block.view = sequencer.view
  viewIsStable : block.block.viewIsStable = sequencer.viewIsStable
  signed : block.block.isSigned = sequencer.mustSign config (sequencer.seqNum + 1)
  qc : block.block.qc = if block.block.isSigned then sequencer.currentQcList else []
  sent : after.blockBroadcasterTx = sequencer.blockBroadcasterTx ++ [block]
  view_after : after.view = sequencer.view
  seqNum : after.seqNum = sequencer.seqNum + 1
  parentHash : after.parentHash = block.blockHash
  lastSignedSeqNum : after.lastSignedSeqNum =
    if block.block.isSigned then sequencer.seqNum + 1 else sequencer.lastSignedSeqNum
  currentQcList : after.currentQcList = if block.block.isSigned then [] else sequencer.currentQcList

theorem handleNewBatch_emits {batch validation}
    (made : handleNewBatch crypto sequencer batch validation = some after) :
    ∃ block, Emits crypto.config sequencer block after := by
  obtain ⟨block, prepared, rfl⟩ := map_eq_some_iff.mp made
  obtain ⟨_, same⟩ := CryptoService.prepareBlock_block prepared
  have signed := isSigned_of_prepareBlock prepared
  refine ⟨block, congrArg ProtoBlock.n same, congrArg ProtoBlock.parent same, congrArg ProtoBlock.view same,
    congrArg ProtoBlock.viewIsStable same, signed, ?_, rfl, rfl, rfl, rfl, ?_, ?_⟩
  · rw [signed]
    exact congrArg ProtoBlock.qc same
  · rw [signed]
  · rw [signed]

/-!
## The invariant
-/

structure Stream (config : Config) (commands : List BlockSequencerControlCommand) (view n : Nat) (hash : HashType)
    (blocks : List CachedBlock) : Prop where
  opens : Opens config commands view n hash blocks
  follows : Follows n (some hash) blocks
  gaps : ∀ initial, initial <+: blocks → (initial.rtakeWhile fun block => !block.block.isSigned).length <
    config.consensusConfig.signatureMaxDelayBlocks

structure AtEnd (sequencer : BlockSequencer) (n : Nat) (hash : HashType) (blocks : List CachedBlock) : Prop where
  seqNum : sequencer.seqNum = n + blocks.length
  parentHash : endTip (some hash) blocks = some sequencer.parentHash
  unsigned : sequencer.seqNum =
    sequencer.lastSignedSeqNum + (blocks.rtakeWhile fun block => !block.block.isSigned).length

def Attached (log : List Entry) : Prop :=
  ∀ earlier block, earlier ++ [.emitted block] <+: log →
    block.block.qc = if block.block.isSigned then pendingQcs block.block.view earlier else []

structure Sane (config : Config) (journal : Journal) : Prop where
  broadcast : journal.sequencer.blockBroadcasterTx = blocks journal.log
  commands_le : ∀ cmd ∈ commands journal.log, cmd.view ≤ journal.sequencer.view
  from_command : journal.sequencer.view ≤ 1 ∨ ∃ cmd ∈ commands journal.log, cmd.view = journal.sequencer.view
  received_le : ∀ qc, .received qc ∈ journal.log → qc.view ≤ journal.sequencer.view
  initial_le : config.features.viewChange = false → 1 ≤ journal.sequencer.view
  stable_opened : journal.sequencer.viewIsStable = true → Node.Leads config journal.sequencer.view →
    Opened config (commands journal.log) journal.sequencer.view
  opened : ∀ view, blocksOf view journal.log ≠ [] → Node.Leads config view ∧ Opened config (commands journal.log) view
  streams : ∀ view, Node.Leads config view → Opened config (commands journal.log) view → ∃ n hash,
    Stream config (commands journal.log) view n hash (blocksOf view journal.log) ∧
      (view = journal.sequencer.view → AtEnd journal.sequencer n hash (blocksOf view journal.log))
  pending : journal.sequencer.currentQcList = pendingQcs journal.sequencer.view journal.log
  attached : Attached journal.log

theorem Attached.concat {log entry} (attached : Attached log) (other : entry.block? = none) :
    Attached (log ++ [entry]) := by
  intro earlier block inside
  rcases prefix_concat_iff.mp inside with same | inside
  · obtain ⟨-, isEntry⟩ := append_inj' same rfl
    rw [← singleton_inj.mp isEntry] at other
    cases other
  · exact attached earlier block inside

theorem Attached.emit {log} (attached : Attached log)
    (qc : block.block.qc = if block.block.isSigned then pendingQcs block.block.view log else []) :
    Attached (log ++ [.emitted block]) := by
  intro earlier other inside
  rcases prefix_concat_iff.mp inside with same | inside
  · obtain ⟨rfl, isEmitted⟩ := append_inj' same rfl
    cases singleton_inj.mp isEmitted
    exact qc
  · exact attached earlier other inside

theorem Opens.mono {config commands more view n hash blocks} (opens : Opens config commands view n hash blocks)
    (subset : commands ⊆ more) : Opens config more view n hash blocks := by
  cases opens with
  | newView ordered signed unstable stable => exact .newView (subset ordered) signed unstable stable
  | initial noViewChange stable => exact .initial noViewChange stable

theorem Opens.concat {config commands view n hash blocks} (opens : Opens config commands view n hash blocks)
    (stable : block.block.viewIsStable = true) : Opens config commands view n hash (blocks ++ [block]) := by
  cases opens with
  | newView ordered signed unstable others =>
    exact .newView ordered signed unstable (forall_mem_append.mpr ⟨others, forall_mem_singleton.mpr stable⟩)
  | initial noViewChange others =>
    exact .initial noViewChange (forall_mem_append.mpr ⟨others, forall_mem_singleton.mpr stable⟩)

/-!
## Steps
-/

section Step

variable {config : Config} {journal : Journal} {cmd : BlockSequencerControlCommand}
variable {hash : HashType} {configNum : Nat} {validation : List ProtoForkValidation}

theorem AtEnd.congr {n blocks} (atEnd : AtEnd sequencer n hash blocks)
    (seqNum : after.seqNum = sequencer.seqNum) (parentHash : after.parentHash = sequencer.parentHash)
    (lastSigned : after.lastSignedSeqNum = sequencer.lastSignedSeqNum) : AtEnd after n hash blocks where
  seqNum := seqNum.trans atEnd.seqNum
  parentHash := parentHash ▸ atEnd.parentHash
  unsigned := by rw [seqNum, lastSigned, atEnd.unsigned]

theorem Sane.tick (sane : Sane config journal) :
    Sane config { journal with sequencer := journal.sequencer.signatureTick } :=
  { sane with
    streams := fun view leads isOpened => by
      obtain ⟨n, hash, stream, atEnd⟩ := sane.streams view leads isOpened
      exact ⟨n, hash, stream, fun same => (atEnd same).congr rfl rfl rfl⟩ }

theorem Sane.receive (sane : Sane config journal) {qc} (ofView : qc.view = journal.sequencer.view) :
    Sane config { sequencer := journal.sequencer.addQc qc, log := journal.log ++ [.received qc] } := by
  have added : journal.sequencer.addQc qc = { journal.sequencer with
        lastQcNSeen := max journal.sequencer.lastQcNSeen qc.n
        currentQcList := journal.sequencer.currentQcList ++ [qc] } := by
    simp [addQc, ofView]
  rw [added]
  refine ⟨?_, ?_, ?_, ?_, sane.initial_le, ?_, ?_, ?_, ?_, sane.attached.concat rfl⟩ <;>
    simp only [commands_received, blocks_received, blocksOf_received]
  · exact sane.broadcast
  · exact sane.commands_le
  · exact sane.from_command
  · intro other received
    rcases mem_append.mp received with received | received
    · exact sane.received_le other received
    · cases mem_singleton.mp received
      exact ofView.le
  · exact sane.stable_opened
  · exact sane.opened
  · intro view leads isOpened
    obtain ⟨n, hash, stream, atEnd⟩ := sane.streams view leads isOpened
    exact ⟨n, hash, stream, fun same => (atEnd same).congr rfl rfl rfl⟩
  · rw [pendingQcs_received, if_pos ofView, sane.pending]

def follow (sequencer : BlockSequencer) (view configNum : Nat) (viewIsStable : Bool)
    (keeps : ProtoQuorumCertificate → Bool) (lastQcNSeen : Nat) : BlockSequencer :=
  { sequencer with
    view
    configNum
    viewIsStable
    currentQcList := sequencer.currentQcList.filter keeps
    blocksProposedInThisView := 0
    lastQcNSeen }

theorem Sane.le_view (sane : Sane config journal) {view} (positive : 1 ≤ view)
    (earlier_le : ∀ earlier ∈ commands journal.log, earlier.view ≤ view) : journal.sequencer.view ≤ view := by
  rcases sane.from_command with _ | ⟨cmd, member, same⟩
  · omega
  · exact same ▸ earlier_le cmd member

theorem Sane.opened_le (sane : Sane config journal) {view}
    (isOpened : Opened config (commands journal.log) view) : view ≤ journal.sequencer.view := by
  rcases isOpened with ⟨cmd, member, isNewView⟩ | ⟨noViewChange, rfl⟩
  · have le := sane.commands_le cmd member
    cases cmd with
    | newViewMessage => exact some.inj isNewView ▸ le
    | newUnstableView => cases isNewView
    | viewStabilised => cases isNewView
  · exact sane.initial_le noViewChange

theorem Sane.commands_le_append (sane : Sane config journal) {view} (le : journal.sequencer.view ≤ view)
    (isView : cmd.view = view) : ∀ other ∈ commands journal.log ++ [cmd], other.view ≤ view :=
  forall_mem_append.mpr
    ⟨fun other member => (sane.commands_le other member).trans le, forall_mem_singleton.mpr isView.le⟩

theorem opened_append {commands view} :
    Opened config (commands ++ [cmd]) view ↔ Opened config commands view ∨ Staging.newView? cmd = some view := by
  simp [Opened, or_right_comm]

theorem Sane.order (sane : Sane config journal) (cmd) {view} (configNum lastQcNSeen) {viewIsStable keeps}
    (isView : cmd.view = view) (le : journal.sequencer.view ≤ view)
    (exact : ∀ qc, qc.view = journal.sequencer.view → keeps qc = decide (journal.sequencer.view = view))
    (notMine : ∀ view, Node.Leads config view → Staging.newView? cmd ≠ some view)
    (stable_opened : viewIsStable = true → Node.Leads config view → Opened config (commands journal.log) view) :
    Sane config
      { sequencer := journal.sequencer.follow view configNum viewIsStable keeps lastQcNSeen
        log := journal.log ++ [.ordered cmd] } := by
  refine ⟨?_, ?_, ?_, ?_, ?_, ?_, ?_, ?_, ?_, sane.attached.concat rfl⟩ <;>
    simp only [commands_ordered, blocks_ordered, blocksOf_ordered, follow]
  · exact sane.broadcast
  · exact sane.commands_le_append le isView
  · exact .inr ⟨cmd, by simp, isView⟩
  · intro qc received
    rcases mem_append.mp received with received | received
    · exact (sane.received_le qc received).trans le
    · cases mem_singleton.mp received
  · exact fun noViewChange => (sane.initial_le noViewChange).trans le
  · exact fun stable leads => opened_append.mpr (.inl (stable_opened stable leads))
  · intro other some
    obtain ⟨leads, isOpened⟩ := sane.opened other some
    exact ⟨leads, opened_append.mpr (.inl isOpened)⟩
  · intro other leads isOpened
    have before : Opened config (commands journal.log) other :=
      (opened_append.mp isOpened).resolve_right (notMine other leads)
    obtain ⟨n, hash, ⟨opens, follows, gaps⟩, atEnd⟩ := sane.streams other leads before
    refine ⟨n, hash, ⟨opens.mono (subset_append_left _ _), follows, gaps⟩, fun same => ?_⟩
    -- An opened view is not above the sequencer's, so it can only be entered again from itself.
    have current : other = journal.sequencer.view := (sane.opened_le before).antisymm (same ▸ le)
    exact (atEnd current).congr rfl rfl rfl
  · rw [pendingQcs_ordered, sane.pending]
    exact filter_pendingQcs sane.received_le le exact

/-- The build signs dynamically, with a delay that is a `u64`. -/
structure SignsDynamically (config : Config) : Prop where
  signing : config.features.signing = .dynamicSign
  positive : 1 ≤ config.consensusConfig.signatureMaxDelayBlocks
  lt : config.consensusConfig.signatureMaxDelayBlocks < 2 ^ 64

variable (dynamic : SignsDynamically config)
include dynamic

theorem gap_of_not_mustSign {gap} (unsigned : sequencer.seqNum = sequencer.lastSignedSeqNum + gap)
    (short : gap < config.consensusConfig.signatureMaxDelayBlocks)
    (notSigned : sequencer.mustSign config (sequencer.seqNum + 1) = false) :
    gap + 1 < config.consensusConfig.signatureMaxDelayBlocks := by
  have lt := dynamic.lt
  simp only [mustSign, dynamic.signing, Bool.or_eq_false_iff, wrappingSub] at notSigned
  have room := of_decide_eq_false notSigned.1.2
  -- The difference is a word, so nothing wraps.
  have wrapped : (sequencer.seqNum + 1 + 2 ^ 64 - sequencer.lastSignedSeqNum) % 2 ^ 64 = gap + 1 := by
    omega
  omega

theorem stream_newView {commands view}
    (ordered : .newViewMessage view configNum validation sequencer.parentHash sequencer.seqNum ∈ commands)
    (emits : Emits config sequencer block after) (signed : block.block.isSigned = true)
    (unstable : sequencer.viewIsStable = false) :
    Stream config commands view sequencer.seqNum sequencer.parentHash [block] ∧
      AtEnd after sequencer.seqNum sequencer.parentHash [block] := by
  have noGap : [block].rtakeWhile (fun block => !block.block.isSigned) = [] := by simp [signed]
  refine ⟨⟨.newView ordered signed (emits.viewIsStable.trans unstable) (forall_mem_nil _), ?_, ?_⟩, ?_, ?_, ?_⟩
  · refine ⟨emits.n, fun hash isHash => ?_, trivial⟩
    exact emits.parent.trans (some.inj isHash)
  · intro initial inside
    rcases prefix_concat_iff.mp (show initial <+: [] ++ [block] from inside) with rfl | inside
    · rw [nil_append, noGap]
      exact dynamic.positive
    · exact prefix_nil.mp inside ▸ dynamic.positive
  · exact emits.seqNum
  · exact congrArg some emits.parentHash.symm
  · rw [emits.seqNum, emits.lastSignedSeqNum, if_pos signed, noGap, length_nil]

theorem Stream.concat {commands view n blocks} (stream : Stream config commands view n hash blocks)
    (emits : Emits config sequencer block after) (atEnd : AtEnd sequencer n hash blocks)
    (stable : sequencer.viewIsStable = true) :
    Stream config commands view n hash (blocks ++ [block]) ∧ AtEnd after n hash (blocks ++ [block]) := by
  obtain ⟨seqNum, parentHash, unsigned⟩ := atEnd
  refine ⟨⟨stream.opens.concat (emits.viewIsStable.trans stable), ?_, ?_⟩, ?_, ?_, ?_⟩
  · refine follows_concat.mpr ⟨stream.follows, ?_, fun tip isTip => ?_⟩
    · rw [CachedBlock.seq_eq, emits.n, seqNum]
    · rw [CachedBlock.parent_eq, emits.parent]
      exact some.inj (parentHash.symm.trans isTip)
  · intro initial inside
    rcases prefix_concat_iff.mp inside with rfl | inside
    · rw [rtakeWhile_concat]
      cases isSigned : block.block.isSigned with
      | true => exact dynamic.positive
      | false =>
        have short := stream.gaps blocks (prefix_refl _)
        simpa using gap_of_not_mustSign dynamic unsigned short (emits.signed.symm.trans isSigned)
    · exact stream.gaps initial inside
  · rw [emits.seqNum, length_append, length_singleton, ← Nat.add_assoc, ← seqNum]
  · rw [endTip_concat, CachedBlock.digest_eq, emits.parentHash]
  · rw [emits.seqNum, emits.lastSignedSeqNum, rtakeWhile_concat]
    cases isSigned : block.block.isSigned with
    | true => simp
    | false =>
      simp only [Bool.not_false, if_true, length_append, length_singleton, Bool.false_eq_true, if_false]
      omega

theorem Sane.propose (sane : Sane config journal)
    (stable : journal.sequencer.viewIsStable = true) (leads : Node.Leads config journal.sequencer.view)
    (emits : Emits config
      { journal.sequencer with blocksProposedInThisView := journal.sequencer.blocksProposedInThisView + 1 }
      block after) :
    Sane config { sequencer := after, log := journal.log ++ [.emitted block] } := by
  have isOpened := sane.stable_opened stable leads
  have ofView : block.block.view = journal.sequencer.view := emits.view
  have view : after.view = journal.sequencer.view := emits.view_after
  have sent : after.blockBroadcasterTx = journal.sequencer.blockBroadcasterTx ++ [block] := emits.sent
  have attached : Attached (journal.log ++ [.emitted block]) :=
    sane.attached.emit (by rw [emits.qc, ofView, ← sane.pending])
  refine ⟨?_, ?_, ?_, ?_, ?_, ?_, ?_, ?_, ?_, attached⟩
  all_goals simp only [commands_emitted, blocks_emitted, view]
  · rw [sent, sane.broadcast]
  · exact sane.commands_le
  · exact sane.from_command
  · intro other received
    rcases mem_append.mp received with received | received
    · exact sane.received_le other received
    · cases mem_singleton.mp received
  · exact sane.initial_le
  · exact fun _ _ => isOpened
  · intro other some
    rw [blocksOf_emitted] at some
    split at some
    · next same => exact same ▸ ofView ▸ ⟨leads, isOpened⟩
    · exact sane.opened other some
  · intro other othersLeader othersOpened
    obtain ⟨n, hash, stream, atEnd⟩ := sane.streams other othersLeader othersOpened
    rw [blocksOf_emitted, ofView]
    split
    · next same =>
      obtain ⟨longer, atNewEnd⟩ := stream.concat dynamic emits ((atEnd same.symm).congr rfl rfl rfl) stable
      exact ⟨n, hash, longer, fun _ => atNewEnd⟩
    · next differs => exact ⟨n, hash, stream, fun same => absurd same.symm differs⟩
  · rw [pendingQcs_emitted, emits.currentQcList, ← sane.pending]

theorem Sane.newView (sane : Sane config journal) {view newSeqNum newParentHash}
    (isCmd : cmd = .newViewMessage view configNum validation newParentHash newSeqNum)
    (le : journal.sequencer.view ≤ view) (leads : Node.Leads config view)
    (unopened : ¬ Opened config (commands journal.log) view)
    (emits : Emits config { journal.sequencer.follow view configNum false (fun qc => qc.view == view) newSeqNum with
        seqNum := newSeqNum
        parentHash := newParentHash } block after) :
    Sane config { sequencer := after, log := journal.log ++ [.ordered cmd] ++ [.emitted block] } := by
  have isNewView : Staging.newView? cmd = some view := by rw [isCmd, Staging.newView?]
  have isView : cmd.view = view := by rw [isCmd, BlockSequencerControlCommand.view]
  have ofView : block.block.view = view := emits.view
  have afterView : after.view = view := emits.view_after
  have sent : after.blockBroadcasterTx = journal.sequencer.blockBroadcasterTx ++ [block] := emits.sent
  have signed : block.block.isSigned = true := by
    rw [emits.signed]
    simp only [mustSign, dynamic.signing, iAmLeader, follow, Bool.not_false, Bool.and_true,
      Bool.or_eq_true, beq_iff_eq]
    exact .inr leads
  -- The view is opened only now, so none of its blocks is there.
  have none : blocksOf view journal.log = [] := by
    by_contra some
    exact unopened (sane.opened view some).2
  have kept : journal.sequencer.currentQcList.filter (fun qc => qc.view == view) = pendingQcs view journal.log := by
    rw [sane.pending]
    exact filter_pendingQcs sane.received_le le fun qc same => by rw [same]; rfl
  have attached : Attached (journal.log ++ [.ordered cmd] ++ [.emitted block]) := by
    apply (sane.attached.concat rfl).emit
    rw [emits.qc, ofView, pendingQcs_ordered, ← kept]
    rfl
  refine ⟨?_, ?_, ?_, ?_, ?_, ?_, ?_, ?_, ?_, attached⟩
  all_goals simp only [commands_emitted, commands_ordered, blocks_emitted, blocks_ordered, afterView]
  · rw [sent, sane.broadcast]
  · exact sane.commands_le_append le isView
  · exact .inr ⟨cmd, by simp, isView⟩
  · intro other received
    simp only [mem_append, mem_singleton, reduceCtorEq, or_false] at received
    exact (sane.received_le other received).trans le
  · exact fun noViewChange => (sane.initial_le noViewChange).trans le
  · exact fun _ _ => opened_append.mpr (.inr isNewView)
  · intro other some
    rw [blocksOf_emitted, blocksOf_ordered, ofView] at some
    split at some
    · next same => exact same ▸ ⟨leads, opened_append.mpr (.inr isNewView)⟩
    · exact ⟨(sane.opened other some).1, opened_append.mpr (.inl (sane.opened other some).2)⟩
  · intro other othersLeader othersOpened
    rw [blocksOf_emitted, blocksOf_ordered, ofView]
    split
    · next same =>
      subst same
      rw [none]
      have ordered : cmd ∈ commands journal.log ++ [cmd] := by simp
      rw [isCmd] at ordered ⊢
      obtain ⟨stream, atEnd⟩ := stream_newView dynamic ordered emits signed rfl
      exact ⟨newSeqNum, newParentHash, stream, fun _ => atEnd⟩
    · next differs =>
      have before : Opened config (commands journal.log) other :=
        (opened_append.mp othersOpened).resolve_right fun isOther =>
          differs (some.inj (isNewView.symm.trans isOther))
      obtain ⟨n, hash, ⟨opens, follows, gaps⟩, -⟩ := sane.streams other othersLeader before
      exact ⟨n, hash, ⟨opens.mono (subset_append_left _ _), follows, gaps⟩, fun same => absurd same.symm differs⟩
  · rw [pendingQcs_emitted, if_pos signed, emits.currentQcList, if_pos signed]

omit dynamic

theorem keeps_view {current view} (le : current ≤ view) (qc : ProtoQuorumCertificate) (same : qc.view = current) :
    decide (view ≤ qc.view) = decide (current = view) := by
  rw [same]
  exact decide_eq_decide.mpr ⟨le.antisymm, fun same => same.ge⟩

theorem map_drop_quiet (same : after.blockBroadcasterTx = sequencer.blockBroadcasterTx) :
    (after.blockBroadcasterTx.drop sequencer.blockBroadcasterTx.length).map Entry.emitted = [] := by
  simp [same]

theorem map_drop_sent (sent : after.blockBroadcasterTx = sequencer.blockBroadcasterTx ++ [block]) :
    (after.blockBroadcasterTx.drop sequencer.blockBroadcasterTx.length).map Entry.emitted = [.emitted block] := by
  simp [sent]

theorem Sane.step {next input} (dynamic : SignsDynamically crypto.config) (sane : Sane crypto.config journal)
    (disciplined : Disciplined crypto.config journal input) (taken : journal.step crypto input = some next) :
    Sane crypto.config next := by
  obtain ⟨after, worked, rfl⟩ := map_eq_some_iff.mp taken
  cases input with
  | batch batch =>
    simp only [Input.entries, append_nil]
    simp only [worker, handleBatch] at worked
    split at worked
    · next mayPropose =>
      obtain ⟨stable, leads⟩ := (Bool.and_eq_true _ _).mp mayPropose
      obtain ⟨block, emits⟩ := handleNewBatch_emits worked
      rw [map_drop_sent emits.sent]
      exact sane.propose dynamic stable (beq_iff_eq.mp leads) emits
    · cases worked
      rw [map_drop_quiet rfl, append_nil]
      exact sane
  | qc qc =>
    cases worked
    have quiet : (journal.sequencer.addQc qc).blockBroadcasterTx = journal.sequencer.blockBroadcasterTx := by
      unfold addQc
      split <;> rfl
    rw [map_drop_quiet quiet, append_nil]
    by_cases ofView : qc.view = journal.sequencer.view
    · rw [Input.entries, if_pos ofView]
      exact sane.receive ofView
    · rw [Input.entries, if_neg ofView, append_nil, addQc, if_pos ofView]
      exact sane
  | signatureTick =>
    simp only [worker] at worked
    split at worked
    · have quiet : after.blockBroadcasterTx = journal.sequencer.blockBroadcasterTx := by cases worked; rfl
      simp only [map_drop_quiet quiet, Input.entries, append_nil]
      cases worked
      exact sane.tick
    · cases worked
  | command cmd =>
    obtain ⟨positive, earlier_le, due⟩ := disciplined
    have le : journal.sequencer.view ≤ cmd.view := sane.le_view positive earlier_le
    cases cmd with
    | newUnstableView view configNum =>
      have quiet : after.blockBroadcasterTx = journal.sequencer.blockBroadcasterTx := by cases worked; rfl
      rw [map_drop_quiet quiet, append_nil]
      cases worked
      exact sane.order _ _ _ rfl le (keeps_view le) (by simp [Staging.newView?]) (by simp)
    | viewStabilised view configNum =>
      have quiet : after.blockBroadcasterTx = journal.sequencer.blockBroadcasterTx := by cases worked; rfl
      rw [map_drop_quiet quiet, append_nil]
      cases worked
      exact sane.order _ _ _ rfl le (keeps_view le) (by simp [Staging.newView?]) fun _ => due
    | newViewMessage view configNum validation newParentHash newSeqNum =>
      simp only [worker, handleControlCommand] at worked
      split at worked
      · next leads =>
        have leads : Node.Leads crypto.config view := beq_iff_eq.mp leads
        obtain ⟨block, emits⟩ := handleNewBatch_emits worked
        rw [map_drop_sent emits.sent]
        exact sane.newView dynamic rfl le leads (due leads) emits
      · next follows =>
        have quiet : after.blockBroadcasterTx = journal.sequencer.blockBroadcasterTx := by cases worked; rfl
        rw [map_drop_quiet quiet, append_nil]
        cases worked
        refine sane.order _ _ _ rfl le (fun qc same => by rw [same]; rfl) ?_ (by simp)
        intro other leads isNewView
        exact follows (beq_iff_eq.mpr (some.inj isNewView ▸ leads))

include dynamic

theorem sane_new : Sane config (.new config) := by
  have noBlocks (view : Nat) : blocksOf view (Journal.new config).log = [] := rfl
  refine ⟨?_, forall_mem_nil _, .inl ?_, fun _ member => absurd member not_mem_nil, ?_, ?_, ?_, ?_, ?_, ?_⟩
  · unfold Journal.new BlockSequencer.new
    split <;> rfl
  · unfold Journal.new BlockSequencer.new
    split <;> decide
  · intro noViewChange
    simp [Journal.new, BlockSequencer.new, noViewChange]
  · intro stable _
    unfold Journal.new BlockSequencer.new at stable ⊢
    split at stable
    · cases stable
    · next noViewChange => exact .inr ⟨by simpa using noViewChange, by simp [noViewChange]⟩
  · exact fun view some => absurd (noBlocks view) some
  · rintro view - (⟨_, member, -⟩ | ⟨noViewChange, rfl⟩)
    · cases member
    · rw [noBlocks]
      refine ⟨0, defaultHash, ⟨.initial noViewChange (forall_mem_nil _), trivial, ?_⟩, fun _ => ⟨?_, ?_, ?_⟩⟩
      · intro initial inside
        exact prefix_nil.mp inside ▸ dynamic.positive
      all_goals simp [Journal.new, BlockSequencer.new, noViewChange]
  · unfold Journal.new BlockSequencer.new
    split <;> rfl
  · intro earlier block inside
    simpa using prefix_nil.mp inside

theorem Sane.wellFormed (sane : Sane config journal) : WellFormed config journal where
  broadcast := sane.broadcast
  chains view some := by
    obtain ⟨leads, isOpened⟩ := sane.opened view some
    obtain ⟨n, hash, stream, -⟩ := sane.streams view leads isOpened
    exact ⟨n, hash, stream.opens, stream.follows⟩
  qcs block member qc attached := by
    obtain ⟨entry, inLog, isBlock⟩ := mem_filterMap.mp member
    obtain ⟨earlier, later, split⟩ := append_of_mem inLog
    cases entry with
    | emitted other =>
      cases isBlock
      have isQc := sane.attached earlier block ⟨later, by rw [split]; simp⟩
      rw [isQc] at attached
      split at attached
      · next signed => exact ⟨(mem_of_mem_pendingQcs attached).2, signed⟩
      · cases attached
    | ordered _ => cases isBlock
    | received _ => cases isBlock
  attached earlier block inside signed := by
    rw [sane.attached earlier block inside, if_pos signed]
  signatures view window inside long := by
    have some : blocksOf view journal.log ≠ [] := by
      intro none
      rw [none, infix_nil] at inside
      rw [inside] at long
      exact absurd dynamic.positive (by simp [← long])
    obtain ⟨leads, isOpened⟩ := sane.opened view some
    obtain ⟨n, hash, stream, -⟩ := sane.streams view leads isOpened
    exact exists_mem_of_infix stream.gaps inside long

end Step

/-- The stream of blocks is well formed in every run in which this node opens each
view that it leads once and before it is stabilised. -/
theorem wellFormed_of_reaches {journal : Journal} (dynamic : SignsDynamically crypto.config)
    (reached : Reaches (Journal.step crypto) (Disciplined crypto.config) (.new crypto.config) journal) :
    WellFormed crypto.config journal :=
  (reached.invariant (motive := Sane crypto.config) (sane_new dynamic)
    fun sane disciplined taken => sane.step dynamic disciplined taken).wellFormed dynamic

def soloNode (viewChange : Bool) : CryptoService :=
  tinyNode
    { netConfig := { name := "node1" }
      consensusConfig := { nodeList := ["node1"], livenessU := 0, signatureMaxDelayBlocks := 3 }
      features := { viewChange } }

theorem wellFormed_afterRollback : ∃ journal,
    (Reaches (Journal.step (soloNode true)) (Disciplined (soloNode true).config) (.new (soloNode true).config) journal ∧
      (blocks journal.log).map (fun block => (block.block.n, block.block.isSigned, block.block.qc.length)) =
        [(9, true, 0), (10, false, 0), (5, true, 0), (6, false, 0), (7, false, 0), (8, true, 1)]) ∧
      WellFormed (soloNode true).config journal := by
  obtain ⟨journal, reached, shape⟩ : ∃ journal,
      Reaches (Journal.step (soloNode true)) (Disciplined (soloNode true).config) (.new (soloNode true).config)
        journal ∧
      (blocks journal.log).map (fun block => (block.block.n, block.block.isSigned, block.block.qc.length)) =
        [(9, true, 0), (10, false, 0), (5, true, 0), (6, false, 0), (7, false, 0), (8, true, 1)] :=
    exists_reaches
      [.command (.newViewMessage 1 1 [] defaultHash 8), .command (.viewStabilised 1 1), .batch [],
        .command (.newUnstableView 2 1), .command (.newViewMessage 2 1 [] defaultHash 4),
        .command (.viewStabilised 2 1), .batch [],
        .qc { digest := defaultHash, n := 5, sig := [], view := 2 }, .batch [], .batch []]
      (by decide +kernel) (by decide +kernel)
  exact ⟨journal, ⟨reached, shape⟩, wellFormed_of_reaches ⟨rfl, by decide, by decide⟩ reached⟩

/-- In a build without view changes the first view has no NewView block. -/
theorem stable_without_newView : ∃ journal,
    Reaches (Journal.step (soloNode false)) (Disciplined (soloNode false).config) (.new (soloNode false).config)
      journal ∧
    commands journal.log = [] ∧
    (blocksOf 1 journal.log).map (fun block => (block.block.isSigned, block.block.viewIsStable)) = [(false, true)] :=
  exists_reaches [.batch []] (by decide +kernel) (by decide +kernel)

end BlockSequencer

end PirateShip
