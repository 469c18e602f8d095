import PirateShip.Node.Continuity
import PirateShip.Node.ForkPrefix
import PirateShip.Staging.CommitIndex

/-! The commit index that a leader advertises. It travels from the staging stage to
the broadcaster in a queue of its own, beside the blocks, and a proposal that lowers
it is not told to the broadcaster. -/

set_option autoImplicit false

namespace PirateShip

open List StepSystem Option

/-!
## The numbers in the pipeline
-/

/-- What stands between the staging stage, the sequencer and the broadcaster, as views
and numbers. -/
structure Pipeline where
  view : Nat
  -- The pending blocks of the staging stage.
  held : List Nat
  -- What the broadcaster advertises now, and what it will.
  advertised : List Nat
  -- The views with a NewView block, made or ordered; an order comes with the number below it.
  opened : List Nat
  ordered : List (Nat × Nat)
  seqNum : Nat
  -- The blocks on their way to the broadcaster and back, each with its view.
  own : List (Nat × Nat)
  staged : List (Nat × Nat)

namespace Pipeline

variable {leads : Nat → Prop} {pipeline after : Pipeline} {view n : Nat}

def ofView (view : Nat) (blocks : List (Nat × Nat)) : List Nat :=
  (blocks.filter fun block => block.1 = view).map (·.2)

@[simp] theorem mem_ofView {blocks} : n ∈ ofView view blocks ↔ (view, n) ∈ blocks := by
  simp [ofView]

@[simp] theorem ofView_append (blocks more) :
    ofView view (blocks ++ more) = ofView view blocks ++ ofView view more := by
  simp [ofView]

@[simp] theorem ofView_cons_self (blocks) : ofView view ((view, n) :: blocks) = n :: ofView view blocks := by
  simp [ofView]

def numbers (pipeline : Pipeline) : List Nat :=
  pipeline.advertised ++ pipeline.held ++ ofView pipeline.view pipeline.staged

def heights (pipeline : Pipeline) : List Nat := ofView pipeline.view pipeline.own ++ [pipeline.seqNum]

def Below (pipeline : Pipeline) (bound : Nat) : Prop := ∀ number ∈ pipeline.numbers, number ≤ bound

/-- Each view gets one NewView block, of which everything known so far is the past,
and the blocks of a view are broadcast in order. -/
structure Inv (leads : Nat → Prop) (pipeline : Pipeline) : Prop where
  ascending : (pipeline.opened ++ pipeline.ordered.map (·.1)).Pairwise (· < ·)
  led : ∀ view ∈ pipeline.opened ++ pipeline.ordered.map (·.1), view ≤ pipeline.view ∧ leads view
  own : ∀ block ∈ pipeline.own, block.1 ∈ pipeline.opened
  staged : ∀ item ∈ pipeline.staged, leads item.1 → item.1 ∈ pipeline.opened
  toOpen : ∀ lastN, (pipeline.view, lastN) ∈ pipeline.ordered → pipeline.Below (lastN + 1)
  isOpen : pipeline.view ∈ pipeline.opened →
    pipeline.heights.Pairwise (· ≤ ·) ∧ ∀ height ∈ pipeline.heights, pipeline.Below height

theorem Below.mono (below : pipeline.Below n) (numbers : after.numbers ⊆ pipeline.numbers) : after.Below n :=
  fun number member => below number (numbers member)

variable (inv : Inv leads pipeline)
include inv

theorem Inv.led_opened (opened : view ∈ pipeline.opened) :
    view ≤ pipeline.view ∧ leads view := inv.led view (mem_append_left _ opened)

theorem Inv.led_ordered (ordered : (view, n) ∈ pipeline.ordered) : view ≤ pipeline.view ∧ leads view :=
  inv.led view (mem_append_right _ (mem_map_of_mem ordered))

theorem Inv.opened_lt {early late} (opened : early ∈ pipeline.opened)
    (ordered : (late, n) ∈ pipeline.ordered) : early < late :=
  (pairwise_append.mp inv.ascending).2.2 early opened late (mem_map_of_mem ordered)

theorem Inv.stage (opened : after.opened = pipeline.opened)
    (ordered : after.ordered = pipeline.ordered) (heights : after.seqNum = pipeline.seqNum ∧ after.own = pipeline.own)
    (staged : after.staged ⊆ pipeline.staged) (later : pipeline.view ≤ after.view)
    (inView : after.view = pipeline.view → leads pipeline.view → ∀ bound, pipeline.Below bound → after.Below bound) :
    Inv leads after := by
  have remains {view : Nat} (led : view ≤ pipeline.view ∧ leads view) (now : after.view = view) :
      after.view = pipeline.view ∧ leads pipeline.view := by
    have same : after.view = pipeline.view := Nat.le_antisymm (now ▸ led.1) later
    exact ⟨same, same ▸ now ▸ led.2⟩
  constructor
  · rw [opened, ordered]
    exact inv.ascending
  · intro view member
    rw [opened, ordered] at member
    exact (inv.led view member).imp_left (·.trans later)
  · rw [heights.2, opened]
    exact inv.own
  · rw [opened]
    exact fun item member => inv.staged item (staged member)
  · intro lastN member
    rw [ordered] at member
    obtain ⟨same, leader⟩ := remains (inv.led_ordered member) rfl
    exact inView same leader _ (inv.toOpen lastN (same ▸ member))
  · intro isOpen
    rw [opened] at isOpen
    obtain ⟨same, leader⟩ := remains (inv.led_opened isOpen) rfl
    obtain ⟨sorted, below⟩ := inv.isOpen (same ▸ isOpen)
    have unchanged : after.heights = pipeline.heights := by
      rw [Pipeline.heights, heights.1, heights.2, same]
      rfl
    rw [unchanged]
    exact ⟨sorted, fun height member => inView same leader height (below height member)⟩

theorem Inv.propose {held} (leader : leads pipeline.view)
    (first : pipeline.view ∉ pipeline.opened ++ pipeline.ordered.map (·.1))
    (advertised : ∀ number ∈ pipeline.advertised, number ≤ n + 1) (kept : ∀ number ∈ held, number ≤ n + 1) :
    Inv leads { pipeline with held, ordered := pipeline.ordered ++ [(pipeline.view, n)] } := by
  have unopened : pipeline.view ∉ pipeline.opened := fun opened => first (mem_append_left _ opened)
  constructor
  · rw [map_append, ← append_assoc, pairwise_append]
    refine ⟨inv.ascending, pairwise_singleton _ _, fun view member _ new => ?_⟩
    have isNew : _ = pipeline.view := mem_singleton.mp new
    rw [isNew]
    exact lt_of_le_of_ne (inv.led view member).1 fun same => first (same ▸ member)
  · intro view member
    rw [map_append, ← append_assoc, mem_append] at member
    rcases member with old | new
    · exact inv.led view old
    · rw [mem_singleton.mp new]
      exact ⟨Nat.le_refl _, leader⟩
  · exact inv.own
  · exact inv.staged
  · intro lastN member number known
    have isNew : lastN = n := by
      rcases mem_append.mp member with old | new
      · exact absurd (mem_append_right _ (mem_map_of_mem old)) first
      · cases mem_singleton.mp new
        rfl
    rw [isNew]
    simp only [numbers, mem_append] at known
    rcases known with (known | known) | known
    · exact advertised number known
    · exact kept number known
    · -- A block of the view would have opened it.
      exact absurd (inv.staged _ (mem_ofView.mp known) leader) unopened
  · exact fun opened => absurd opened unopened

theorem Inv.open {rest} (next : pipeline.ordered = (view, n) :: rest) : Inv leads { pipeline with
      opened := pipeline.opened ++ [view]
      ordered := rest
      seqNum := n + 1
      own := pipeline.own ++ [(view, n + 1)] } := by
  have ordered : (view, n) ∈ pipeline.ordered := next ▸ mem_cons_self
  have views : pipeline.opened ++ [view] ++ rest.map (·.1) = pipeline.opened ++ pipeline.ordered.map (·.1) := by
    rw [next, append_assoc]
    rfl
  constructor
  · exact views ▸ inv.ascending
  · exact views ▸ inv.led
  · intro block member
    rcases mem_append.mp member with old | new
    · exact mem_append_left _ (inv.own block old)
    · cases mem_singleton.mp new
      exact mem_append_right _ mem_cons_self
  · exact fun item member leader => mem_append_left _ (inv.staged item member leader)
  · exact fun lastN member => inv.toOpen lastN (next ▸ mem_cons_of_mem _ member)
  · intro isOpen
    have inView : pipeline.view = view := by
      rcases mem_append.mp isOpen with early | now
      · exact absurd (inv.opened_lt early ordered) (Nat.not_lt.mpr (inv.led_ordered ordered).1)
      · exact mem_singleton.mp now
    subst inView
    have none : ofView pipeline.view pipeline.own = [] := by
      rw [eq_nil_iff_forall_not_mem]
      intro number member
      exact (inv.opened_lt (inv.own _ (mem_ofView.mp member)) ordered).false
    simp only [heights, ofView_append, none]
    refine ⟨by simp [ofView], fun height member => ?_⟩
    have isNew : height = n + 1 := by simpa using member
    exact isNew ▸ inv.toOpen n ordered

theorem Inv.sequence (opened : view ∈ pipeline.opened) : Inv leads { pipeline with
      seqNum := pipeline.seqNum + 1
      own := pipeline.own ++ [(view, pipeline.seqNum + 1)] } := by
  constructor
  · exact inv.ascending
  · exact inv.led
  · intro block member
    rcases mem_append.mp member with old | new
    · exact inv.own block old
    · cases mem_singleton.mp new
      exact opened
  · exact inv.staged
  · exact inv.toOpen
  · intro isOpen
    obtain ⟨sorted, below⟩ := inv.isOpen isOpen
    obtain ⟨sorted, -, last⟩ := pairwise_append.mp sorted
    have isNew : ∀ height ∈ ofView pipeline.view [(view, pipeline.seqNum + 1)] ++ [pipeline.seqNum + 1],
        height = pipeline.seqNum + 1 := by
      intro height member
      simp only [mem_append, mem_ofView, mem_singleton, Prod.mk.injEq] at member
      exact member.elim And.right id
    simp only [heights, ofView_append, append_assoc]
    constructor
    · refine pairwise_append.mpr ⟨sorted, pairwise_of_forall_mem_list fun early isEarly late isLate => ?_,
        fun early isEarly late isLate => ?_⟩
      · rw [isNew early isEarly, isNew late isLate]
      · rw [isNew late isLate]
        exact (last early isEarly _ mem_cons_self).trans (Nat.le_succ _)
    · intro height member number known
      rcases mem_append.mp member with old | new
      · exact below height (mem_append_left _ old) number known
      · rw [isNew height new]
        exact (below _ (mem_append_right _ mem_cons_self) number known).trans (Nat.le_succ _)

theorem Inv.broadcast {rest items} (next : pipeline.own = (pipeline.view, n) :: rest)
    (items_le : ∀ item ∈ items, item.1 = pipeline.view ∧ item.2 ≤ n) :
    Inv leads { pipeline with own := rest, staged := pipeline.staged ++ items } := by
  have opened : pipeline.view ∈ pipeline.opened := inv.own _ (next ▸ mem_cons_self)
  obtain ⟨sorted, below⟩ := inv.isOpen opened
  have heights : pipeline.heights = n :: (ofView pipeline.view rest ++ [pipeline.seqNum]) := by
    rw [Pipeline.heights, next, ofView_cons_self]
    rfl
  rw [heights] at sorted below
  obtain ⟨least, sorted⟩ := pairwise_cons.mp sorted
  constructor
  · exact inv.ascending
  · exact inv.led
  · exact fun block member => inv.own block (next ▸ mem_cons_of_mem _ member)
  · intro item member leader
    rcases mem_append.mp member with old | new
    · exact inv.staged item old leader
    · exact (items_le item new).1 ▸ opened
  · exact fun lastN ordered => absurd (inv.opened_lt opened ordered) (Nat.lt_irrefl _)
  · refine fun _ => ⟨sorted, fun height member number known => ?_⟩
    simp only [numbers, mem_append, mem_ofView] at known
    rcases known with known | known | known
    · exact below height (mem_cons_of_mem _ member) number (mem_append_left _ (mem_append.mpr known))
    · exact below height (mem_cons_of_mem _ member) number (mem_append_right _ (mem_ofView.mpr known))
    · exact (items_le _ known).2.trans (least height member)

theorem Inv.forward {items} (others : ∀ item ∈ items, ¬ leads item.1) :
    Inv leads { pipeline with staged := pipeline.staged ++ items } := by
  have same (leader : leads pipeline.view) : ofView pipeline.view (pipeline.staged ++ items) =
      ofView pipeline.view pipeline.staged := by
    have none : ofView pipeline.view items = [] := by
      rw [eq_nil_iff_forall_not_mem]
      exact fun number member => others _ (mem_ofView.mp member) leader
    rw [ofView_append, none, append_nil]
  constructor
  · exact inv.ascending
  · exact inv.led
  · exact inv.own
  · intro item member leader
    rcases mem_append.mp member with old | new
    · exact inv.staged item old leader
    · exact absurd leader (others item new)
  · intro lastN ordered
    simp only [Below, numbers, same (inv.led_ordered ordered).2]
    exact inv.toOpen lastN ordered
  · intro opened
    simp only [Below, numbers, same (inv.led_opened opened).2]
    exact inv.isOpen opened

theorem Inv.hear {advertised} (heard : advertised ⊆ pipeline.advertised) :
    Inv leads { pipeline with advertised } := by
  refine inv.stage rfl rfl ⟨rfl, rfl⟩ (List.Subset.refl _) (Nat.le_refl _) fun _ _ bound below => ?_
  refine below.mono fun number known => ?_
  simp only [numbers, mem_append] at known ⊢
  exact known.imp_left (.imp_left (heard ·))

end Pipeline

/-!
## The pipeline of a node
-/

/-- The view and the commit index of the staging stage after a step. -/
structure Moment where
  view : Nat
  ci : Nat
  deriving DecidableEq

namespace Node

variable {crypto : CryptoService} {node after : Node} {moments : List Moment}
variable {ae : ProtoAppendEntries} {event : Staging.Event} {staging : Staging} {taken : Channel → Nat}
  {sequencer : BlockSequencer} {block : CachedBlock} {storageAck : StorageAck}

def Leads (config : Config) (view : Nat) : Prop := config.getLeaderForView view = config.netConfig.name

instance (config : Config) : DecidablePred (Leads config) := fun _ => inferInstanceAs (Decidable (_ = _))

/-- Without view changes the first leader starts without a NewView block. -/
def startViews (config : Config) : List Nat :=
  if config.features.viewChange = false ∧ Leads config 1 then [1] else []

/-- The commit index that the broadcaster sends, and those on their way to it. -/
def advertised (node : Node) : List Nat :=
  node.broadcaster.ci ::
    (node.staging.blockBroadcasterCommandTx.drop (node.taken .broadcasterControl)).filterMap Staging.commitIndex?

/-- The views for which the sequencer has made the NewView block. -/
def openViews (config : Config) (node : Node) : List Nat := startViews config ++ node.takenViews

def pipeline (config : Config) (node : Node) : Pipeline where
  view := node.staging.view
  held := node.staging.blocks.map (·.block.n)
  advertised := node.advertised
  opened := node.openViews config
  ordered := (node.staging.blockSequencerCommandTx.drop (node.taken .sequencerControl)).filterMap
    Staging.newViewOrder?
  seqNum := node.sequencer.seqNum
  own := (node.sequencer.blockBroadcasterTx.drop (node.taken .broadcasterMine)).map fun block =>
    (block.block.view, block.block.n)
  staged := (node.broadcaster.stagingTx.drop (node.taken .stagingBlocks)).map fun item =>
    (item.2.2.1.view, item.1.block.n)

structure Queued (node : Node) : Prop where
  mine : node.taken .broadcasterMine ≤ node.sequencer.blockBroadcasterTx.length
  commands : node.taken .broadcasterControl ≤ node.staging.blockBroadcasterCommandTx.length
  controls : node.taken .sequencerControl ≤ node.staging.blockSequencerCommandTx.length
  items : node.taken .stagingBlocks ≤ node.broadcaster.stagingTx.length

/-!
## What is advertised
-/

/-- The staging stage had the commit index after it entered the view, and the last
block of the message is no lower. -/
structure Backed (moments : List Moment) (ae : ProtoAppendEntries) : Prop where
  committed : ∃ moment ∈ moments, ae.view ≤ moment.view ∧ ae.commitIndex ≤ moment.ci
  reaches : ∃ last ∈ ae.fork.bind fun fork => fork.serializedBlocks.getLast?, ae.commitIndex ≤ last.n

def BacksCommits (node : Node) (moments : List Moment) : Prop :=
  ∀ receiver ae, (receiver, ProtoPayload.appendEntries ae) ∈ node.broadcaster.client → Backed moments ae

structure Timeline where
  node : Node
  moments : List Moment

def now (node : Node) : Moment := ⟨node.staging.view, node.staging.ci⟩

namespace Timeline

def new (config : Config) : Timeline := ⟨.new config, [now (.new config)]⟩

def act (crypto : CryptoService) (timeline : Timeline) (action : Action) : Option Timeline :=
  (timeline.node.act crypto action).map fun node => ⟨node, timeline.moments ++ [now node]⟩

end Timeline

/-- A node enters a view that it leads with no commit index advertised that it has
given up. -/
def EntersKnown (crypto : CryptoService) (node : Node) (event : Staging.Event) : Prop :=
  Staging.MovesView crypto node.staging event → Leads crypto.config (Staging.movedTo node.staging event) →
    ∀ ci ∈ node.advertised, ci ≤ node.staging.ci

/-- A proposal that is acted on is the first of its view, and neither a commit index
that is advertised nor a block that is kept is above the NewView block. -/
def ProposesAbove (crypto : CryptoService) (node : Node) (viewNum configNum : Nat)
    (forks : HashMap SenderType ProtoViewChange) : Prop :=
  viewNum = node.staging.view → configNum = node.staging.configNum → node.staging.viewIsStable = false →
    Leads crypto.config node.staging.view → ∀ vc ∈ Staging.chosenVc crypto forks,
      node.staging.view ∉ startViews crypto.config ++ node.staging.proposedViews ∧
      (∀ ci ∈ node.advertised, ci ≤ Staging.lastNumber vc + 1) ∧
      ∀ block ∈ node.staging.blocks, Staging.Retained node.staging vc block →
        block.block.n ≤ Staging.lastNumber vc + 1

/-- Views are entered and proposals made as above, batches wait for the NewView
block, own blocks are taken in their views and behind lower ones, and no one else
sends for a view of this node. -/
def Orderly (crypto : CryptoService) (node : Node) : Action → Prop
  | .timerTick enough => EntersKnown crypto node (.timerTick enough)
  | .pacemakerCommand (.newViewForks viewNum configNum forks) => ProposesAbove crypto node viewNum configNum forks
  | .pacemakerCommand (.updateView viewNum configNum) =>
    EntersKnown crypto node (.pacemaker (.updateView viewNum configNum))
  | .takeBatch _ => node.sequencer.viewIsStable = true → Leads crypto.config node.sequencer.view →
      node.sequencer.view ∈ node.openViews crypto.config
  | .takeMyBlock _ => ∀ block ∈ node.sequencer.blockBroadcasterTx[node.taken .broadcasterMine]?,
      block.block.view = node.staging.view ∧
        ∀ earlier ∈ node.broadcaster.forkPrefixBuffer, earlier.block.n ≤ block.block.n
  | .takeOtherBlock _ => ∀ fork ∈ node.forkReceiver.broadcasterTx[node.taken .broadcasterOther]?,
      ¬ Leads crypto.config fork.aeStats.view
  | _ => True

instance (crypto : CryptoService) (node : Node) : ∀ action, Decidable (Orderly crypto node action)
  | .timerTick _ | .pacemakerCommand (.updateView ..) => inferInstanceAs (Decidable (_ → _ → ∀ _ ∈ _, _))
  | .pacemakerCommand (.newViewForks ..) => inferInstanceAs (Decidable (_ → _ → _ → _ → ∀ _ ∈ _, _))
  | .takeBatch _ => inferInstanceAs (Decidable (_ → _ → _))
  | .takeMyBlock _ | .takeOtherBlock _ => inferInstanceAs (Decidable (∀ _ ∈ _, _))
  | .takeBlock | .vote .. | .pacemakerCommand (.queryEnoughVCMsg ..) | .pacemakerCommand (.myViewJumped ..)
  | .pacemakerCommand (.updateBCI _) | .takeControlCommand | .takeQc | .signatureTick | .takeBroadcasterCommand
  | .appendEntries .. | .takeForkCommand | .takeMultipartNack | .backfillResponse .. | .takeLogCommand
  | .garbageCollect _ => inferInstanceAs (Decidable True)

/-!
## Every step
-/

structure CommitInv (crypto : CryptoService) (node : Node) (moments : List Moment) : Prop where
  queued : node.Queued
  pipeline : (node.pipeline crypto.config).Inv (Leads crypto.config)
  covered : Leads crypto.config node.staging.view → ∀ ci ∈ node.advertised,
    ∃ moment ∈ moments, node.staging.view ≤ moment.view ∧ ci ≤ moment.ci
  backs : node.BacksCommits moments

theorem Backed.mono {later} (backed : Backed moments ae) (more : moments ⊆ later) : Backed later ae := by
  obtain ⟨moment, member, known⟩ := backed.committed
  exact ⟨⟨moment, more member, known⟩, backed.reaches⟩

theorem CommitInv.go {later} (inv : CommitInv crypto node moments) (more : moments ⊆ later)
    (queued : after.Queued) (pipeline : (after.pipeline crypto.config).Inv (Leads crypto.config))
    (view : after.staging.view = node.staging.view) (advertised : after.advertised ⊆ node.advertised)
    (client : after.broadcaster.client = node.broadcaster.client) : CommitInv crypto after later := by
  refine ⟨queued, pipeline, ?_, ?_⟩
  · intro leader ci member
    rw [view] at leader ⊢
    obtain ⟨moment, known, covers⟩ := inv.covered leader ci (advertised member)
    exact ⟨moment, more known, covers⟩
  · intro receiver ae sent
    rw [client] at sent
    exact (inv.backs receiver ae sent).mono more

theorem map_newViewOrder? (cmds : List BlockSequencerControlCommand) :
    (cmds.filterMap Staging.newViewOrder?).map (·.1) = cmds.filterMap Staging.newView? := by
  rw [map_filterMap]
  congr 1
  funext cmd
  cases cmd <;> rfl

theorem views_pipeline (config : Config) (node : Node) :
    (node.pipeline config).opened ++ (node.pipeline config).ordered.map (·.1) =
      startViews config ++ node.staging.proposedViews := by
  simp only [pipeline, openViews, takenViews, map_newViewOrder?, append_assoc, ← filterMap_append,
    take_append_drop, Staging.proposedViews]

variable (inv : CommitInv crypto node moments)
include inv

/-- The view is the same, or an event of the node itself moves it on. A block cannot
bring the node to a view that it leads. -/
theorem CommitInv.enters (stepped : Staging.step crypto node.staging event = some staging)
    (handed : ∀ block storageAck aeStats final, event = .block block storageAck aeStats final →
      (aeStats.view, block.block.n) ∈ (node.pipeline crypto.config).staged)
    (leader : Leads crypto.config staging.view) : staging.view = node.staging.view ∨
      staging.ci = node.staging.ci ∧ Staging.MovesView crypto node.staging event ∧
        staging.view = Staging.movedTo node.staging event := by
  rcases Staging.step_view stepped with same | moves | ⟨block, storageAck, aeStats, final, isBlock, later, entered⟩
  · exact .inl same
  · exact moves.view.imp_right fun ⟨moved, target⟩ => ⟨moves.ci, moved, target⟩
  · have opened := inv.pipeline.staged _ (handed block storageAck aeStats final isBlock) (entered ▸ leader)
    exact absurd (inv.pipeline.led_opened opened).1 (Nat.not_le.mpr later)

theorem CommitInv.stage (known : EntersKnown crypto node event)
    (silent : ∀ viewNum configNum forks, event ≠ .pacemaker (.newViewForks viewNum configNum forks))
    (stepped : Staging.step crypto node.staging event = some staging)
    (others : ∀ channel, channel ≠ .stagingBlocks → taken channel = node.taken channel)
    (items : node.taken .stagingBlocks ≤ taken .stagingBlocks ∧
      taken .stagingBlocks ≤ node.broadcaster.stagingTx.length)
    (handed : ∀ block storageAck aeStats final, event = .block block storageAck aeStats final →
      (aeStats.view, block.block.n) ∈ (node.pipeline crypto.config).staged) :
    CommitInv crypto { node with staging, taken } (moments ++ [⟨staging.view, staging.ci⟩]) := by
  have tells := Staging.tells_respected.step (fun isProposal _ => absurd isProposal (silent _ _ _)) stepped
  have announces := Staging.announces_respected.step
    (fun isProposal _ => absurd isProposal (silent _ _ _)) stepped
  obtain ⟨cmds, sent, rises⟩ := tells.broadcaster
  obtain ⟨orders, ordered, noView⟩ := announces.sequencer
  have noOrder : orders.filterMap Staging.newViewOrder? = [] :=
    map_eq_nil_iff.mp ((map_newViewOrder? orders).trans noView)
  have commands := others .broadcasterControl (by decide)
  have controls := others .sequencerControl (by decide)
  have mine := others .broadcasterMine (by decide)
  have advertised : { node with staging, taken }.advertised =
      node.advertised ++ cmds.filterMap Staging.commitIndex? := by
    simp only [Node.advertised, sent, commands, drop_append_of_le_length inv.queued.commands,
      filterMap_append, cons_append]
  refine ⟨⟨?_, ?_, ?_, items.2⟩, ?_, ?_, ?_⟩
  · simp only [mine]
    exact inv.queued.mine
  · simp only [commands, sent, length_append]
    exact Nat.le_add_right_of_le inv.queued.commands
  · simp only [controls, ordered, length_append]
    exact Nat.le_add_right_of_le inv.queued.controls
  · apply inv.pipeline.stage
    · simp [Node.pipeline, openViews, takenViews, ordered, controls, take_append_of_le_length inv.queued.controls]
    · simp only [Node.pipeline, ordered, controls, drop_append_of_le_length inv.queued.controls,
        filterMap_append, noOrder, append_nil]
    · simp [Node.pipeline, mine]
    · exact map_subset _ (drop_subset_drop_left _ items.1)
    · exact tells.view
    · intro same leader bound below
      -- What is handed to the stage waited for it, and what waits now waited before.
      have within : Staging.Within bound node.staging staging := by
        refine Staging.step_within stepped (beq_iff_eq.mpr leader) same silent (fun block held => ?_)
          fun block storageAck aeStats final isBlock ofView => ?_
        · exact below _ (mem_append_left _ (mem_append_right _ (mem_map_of_mem held)))
        · refine below _ (mem_append_right _ (Pipeline.mem_ofView.mpr ?_))
          have waited := handed block storageAck aeStats final isBlock
          rwa [ofView] at waited
      intro number member
      simp only [Pipeline.numbers, mem_append, Pipeline.mem_ofView] at member
      rcases member with (told | held) | waits
      · have told : number ∈ { node with staging, taken }.advertised := told
        rw [advertised] at told
        rcases mem_append.mp told with old | new
        · exact below number (mem_append_left _ (mem_append_left _ old))
        · obtain ⟨above, upTo⟩ := rises number new
          exact within.ci.elim (fun unmoved => absurd above (by omega)) upTo.trans
      · obtain ⟨block, pending, rfl⟩ := mem_map.mp held
        exact within.blocks block pending
      · refine below number (mem_append_right _ (Pipeline.mem_ofView.mpr ?_))
        exact same ▸ map_subset _ (drop_subset_drop_left _ items.1) waits
  · intro leader ci member
    rw [advertised, mem_append] at member
    rcases member with old | new
    · rcases inv.enters stepped handed leader with same | ⟨sameCi, moves, target⟩
      · obtain ⟨moment, member, ofView, covers⟩ := inv.covered (same ▸ leader) ci old
        exact ⟨moment, mem_append_left _ member, same ▸ ofView, covers⟩
      · refine ⟨_, mem_append_right _ mem_cons_self, Nat.le_refl _, ?_⟩
        exact sameCi ▸ known moves (target ▸ leader) ci old
    · exact ⟨_, mem_append_right _ mem_cons_self, Nat.le_refl _, (rises ci new).2⟩
  · exact fun receiver ae sent => (inv.backs receiver ae sent).mono (subset_append_left _ _)

theorem CommitInv.propose {viewNum configNum forks} (above : ProposesAbove crypto node viewNum configNum forks)
    (result : Staging.proposeNewView crypto node.staging viewNum configNum forks = some staging) :
    CommitInv crypto { node with staging } (moments ++ [⟨staging.view, staging.ci⟩]) := by
  have more := subset_append_left moments [⟨staging.view, staging.ci⟩]
  rcases Staging.proposeNewView_proposed result with rfl | ⟨vc, picked, inView, inConfig, proposed⟩
  · exact inv.go more inv.queued inv.pipeline rfl (List.Subset.refl _) rfl
  · have leader : Leads crypto.config node.staging.view := beq_iff_eq.mp proposed.leads
    obtain ⟨first, advertised, kept⟩ := above inView inConfig proposed.unstable leader vc picked
    obtain ⟨_, sent⟩ := proposed.broadcaster
    obtain ⟨_, _, ordered⟩ := proposed.sequencer
    have sameAdvertised : { node with staging }.advertised = node.advertised := by
      simp [Node.advertised, sent, drop_append_of_le_length inv.queued.commands, Staging.commitIndex?]
    refine inv.go more ⟨inv.queued.mine, ?_, ?_, inv.queued.items⟩ ?_ proposed.view
      (sameAdvertised ▸ List.Subset.refl _) rfl
    · simp only [sent, length_append]
      exact Nat.le_add_right_of_le inv.queued.commands
    · simp only [ordered, length_append]
      exact Nat.le_add_right_of_le inv.queued.controls
    · have kept : ∀ number ∈ staging.blocks.map (·.block.n), number ≤ Staging.lastNumber vc + 1 := by
        intro number member
        obtain ⟨block, held, rfl⟩ := mem_map.mp member
        obtain ⟨old, retained⟩ := proposed.kept block held
        exact kept block old retained
      rw [← views_pipeline] at first
      have proposes := inv.pipeline.propose leader first advertised kept
      refine cast (congrArg _ ?_) proposes
      simp [Node.pipeline, proposed.view, sameAdvertised, openViews, takenViews, ordered, Staging.newViewOrder?,
        take_append_of_le_length inv.queued.controls, drop_append_of_le_length inv.queued.controls]

theorem CommitInv.frame (staging : after.staging = node.staging)
    (sequencer : after.sequencer.blockBroadcasterTx = node.sequencer.blockBroadcasterTx ∧
      after.sequencer.seqNum = node.sequencer.seqNum)
    (broadcaster : after.broadcaster = node.broadcaster)
    (taken : ∀ channel ∈ [Channel.broadcasterMine, .broadcasterControl, .sequencerControl, .stagingBlocks],
      after.taken channel = node.taken channel) : CommitInv crypto after (moments ++ [after.now]) := by
  simp only [forall_mem_cons] at taken
  obtain ⟨mine, commands, controls, items, -⟩ := taken
  have same : after.pipeline crypto.config = node.pipeline crypto.config := by
    simp only [Node.pipeline, Node.advertised, openViews, takenViews, staging, sequencer, broadcaster, mine, commands,
      controls, items]
  apply inv.go (subset_append_left _ _)
  · constructor
    · rw [mine, sequencer.1]
      exact inv.queued.mine
    · rw [commands, staging]
      exact inv.queued.commands
    · rw [controls, staging]
      exact inv.queued.controls
    · rw [items, broadcaster]
      exact inv.queued.items
  · exact same ▸ inv.pipeline
  · rw [staging]
  · have advertised : after.advertised = node.advertised := congrArg Pipeline.advertised same
    rw [advertised]
    exact List.Subset.refl _
  · rw [broadcaster]

theorem CommitInv.control {cmd}
    (next : node.staging.blockSequencerCommandTx[node.taken .sequencerControl]? = some cmd)
    (handled : node.sequencer.handleControlCommand crypto cmd = some sequencer) :
    CommitInv crypto { node with
      sequencer
      taken := Function.update node.taken .sequencerControl (node.taken .sequencerControl + 1) }
      (moments ++ [node.now]) := by
  have waiting := Queue.drop_of_next next
  have queue : ∀ more, (sequencer.blockBroadcasterTx = node.sequencer.blockBroadcasterTx ++ more) → Queued { node with
      sequencer
      taken := Function.update node.taken .sequencerControl (node.taken .sequencerControl + 1) } := by
    intro more added
    constructor
    · simp only [added, length_append]
      exact Nat.le_add_right_of_le inv.queued.mine
    · simpa using inv.queued.commands
    · exact Queue.taken_lt_of_next next
    · simpa using inv.queued.items
  have silent (sameBlocks : sequencer.blockBroadcasterTx = node.sequencer.blockBroadcasterTx)
      (sameNumber : sequencer.seqNum = node.sequencer.seqNum) (noView : Staging.newView? cmd = none)
      (noOrder : Staging.newViewOrder? cmd = none) : CommitInv crypto { node with
        sequencer
        taken := Function.update node.taken .sequencerControl (node.taken .sequencerControl + 1) }
        (moments ++ [node.now]) := by
    apply inv.go (subset_append_left _ _) (queue [] (by rw [sameBlocks, append_nil]))
    · refine cast (congrArg _ ?_) inv.pipeline
      simp [Node.pipeline, Node.advertised, openViews, takenViews, waiting, take_add_one, next, noView, noOrder,
        sameBlocks, sameNumber]
    · rfl
    · simp [Node.advertised]
    · rfl
  cases cmd with
  | newUnstableView view configNum =>
    cases handled
    exact silent rfl rfl rfl rfl
  | viewStabilised view configNum =>
    cases handled
    exact silent rfl rfl rfl rfl
  | newViewMessage view configNum validation parentHash seqNum =>
    have order : (node.pipeline crypto.config).ordered = (view, seqNum) ::
        (node.staging.blockSequencerCommandTx.drop (node.taken .sequencerControl + 1)).filterMap
          Staging.newViewOrder? := by
      simp [Node.pipeline, waiting, Staging.newViewOrder?]
    have leader : Leads crypto.config view := (inv.pipeline.led_ordered (order ▸ mem_cons_self)).2
    simp only [BlockSequencer.handleControlCommand, BlockSequencer.iAmLeader, beq_iff_eq.mpr leader] at handled
    obtain ⟨block, sent, ofView, -, number, grown⟩ := BlockSequencer.handleNewBatch_spec handled
    apply inv.go (subset_append_left _ _) (queue [block] sent)
    · have opens := inv.pipeline.open order
      refine cast (congrArg _ ?_) opens
      simp [Node.pipeline, Node.advertised, openViews, takenViews, take_add_one, next, Staging.newView?,
        sent, ofView, number, grown, drop_append_of_le_length inv.queued.mine]
    · rfl
    · simp [Node.advertised]
    · rfl

theorem CommitInv.batch {batch}
    (opened : node.sequencer.viewIsStable = true → Leads crypto.config node.sequencer.view →
      node.sequencer.view ∈ node.openViews crypto.config)
    (handled : node.sequencer.handleBatch crypto batch = some sequencer) :
    CommitInv crypto { node with sequencer } (moments ++ [node.now]) := by
  unfold BlockSequencer.handleBatch at handled
  split at handled
  · next mayPropose =>
    simp only [Bool.and_eq_true, BlockSequencer.iAmLeader, beq_iff_eq] at mayPropose
    obtain ⟨_, sent, ofView, -, number, grown⟩ := BlockSequencer.handleNewBatch_spec handled
    refine inv.go (subset_append_left _ _) ⟨?_, inv.queued.commands, inv.queued.controls, inv.queued.items⟩ ?_ rfl
      (List.Subset.refl _) rfl
    · simp only [sent, length_append]
      exact Nat.le_add_right_of_le inv.queued.mine
    · refine cast (congrArg _ ?_) (inv.pipeline.sequence (opened mayPropose.1 mayPropose.2))
      simp [Node.pipeline, Node.advertised, openViews, takenViews, sent, ofView, number, grown,
        drop_append_of_le_length inv.queued.mine]
  · cases handled
    exact inv.frame rfl ⟨rfl, rfl⟩ rfl fun _ _ => rfl

omit inv

theorem ci_forwardAll (aeStats : CachedBlock → AppendEntriesStats) (storageAck broadcaster blocks) :
    (BlockBroadcaster.forwardAll aeStats storageAck broadcaster blocks).ci = broadcaster.ci := by
  obtain ⟨_, -, -, forwarded⟩ := BlockBroadcaster.forwardAll_spec aeStats storageAck broadcaster blocks
  rw [forwarded]

include inv

variable (next : node.sequencer.blockBroadcasterTx[node.taken .broadcasterMine]? = some block)
include next

theorem CommitInv.backs_next {blocks} (inView : block.block.view = node.staging.view) :
    Backed moments (node.broadcaster.appendEntries (blocks ++ [block]) block.block) := by
  have own : (node.staging.view, block.block.n) ∈ (node.pipeline crypto.config).own := by
    simp [Node.pipeline, Queue.drop_of_next next, inView]
  have opened := inv.pipeline.own _ own
  have advertised : node.broadcaster.ci ∈ node.advertised := mem_cons_self
  obtain ⟨moment, member, ofView, covers⟩ :=
    inv.covered (inv.pipeline.led_opened opened).2 node.broadcaster.ci advertised
  refine ⟨⟨moment, member, inView.le.trans ofView, covers⟩, block.toHalfSerialized, ?_, ?_⟩
  · simp [BlockBroadcaster.appendEntries]
  · have below := (inv.pipeline.isOpen opened).2 block.block.n (mem_append_left _ (Pipeline.mem_ofView.mpr own))
    exact below _ (mem_append_left _ (mem_append_left _ advertised))

theorem CommitInv.broadcast (inView : block.block.view = node.staging.view)
    (behind : ∀ earlier ∈ node.broadcaster.forkPrefixBuffer, earlier.block.n ≤ block.block.n) :
    CommitInv crypto { node with
      broadcaster := node.broadcaster.processMyBlock crypto.config block storageAck
      taken := Function.update node.taken .broadcasterMine (node.taken .broadcasterMine + 1) }
      (moments ++ [node.now]) := by
  obtain ⟨-, client⟩ := BlockBroadcaster.processMyBlock_spec crypto.config node.broadcaster block storageAck
  obtain ⟨items, staged, isQueued⟩ := processMyBlock_queued crypto.config node.broadcaster block storageAck
  have ci : (node.broadcaster.processMyBlock crypto.config block storageAck).ci = node.broadcaster.ci :=
    ci_forwardAll _ storageAck { node.broadcaster with forkPrefixBuffer := [] } _
  have advertised : { node with
      broadcaster := node.broadcaster.processMyBlock crypto.config block storageAck
      taken := Function.update node.taken .broadcasterMine (node.taken .broadcasterMine + 1) }.advertised =
      node.advertised := by
    simp [Node.advertised, ci]
  refine ⟨⟨?_, ?_, ?_, ?_⟩, ?_, ?_, ?_⟩
  · exact Queue.taken_lt_of_next next
  · simpa using inv.queued.commands
  · simpa using inv.queued.controls
  · simp only [staged, length_append]
    exact Nat.le_add_right_of_le inv.queued.items
  · have own : (node.pipeline crypto.config).own = ((node.pipeline crypto.config).view, block.block.n) ::
        (node.sequencer.blockBroadcasterTx.drop (node.taken .broadcasterMine + 1)).map fun block =>
          (block.block.view, block.block.n) := by
      simp [Node.pipeline, Queue.drop_of_next next, inView]
    have inside : ∀ item ∈ items.map (fun item => (item.2.2.1.view, item.1.block.n)),
        item.1 = (node.pipeline crypto.config).view ∧ item.2 ≤ block.block.n := by
      intro item member
      obtain ⟨sent, isSent, rfl⟩ := mem_map.mp member
      have isOwn := isQueued ▸ mem_map_of_mem isSent
      obtain ⟨earlier, ofFork, same⟩ := mem_map.mp isOwn
      simp only [Node.queued, Prod.mk.injEq] at same
      rw [← same.1, ← same.2]
      refine ⟨inView, ?_⟩
      rcases mem_append.mp ofFork with waits | last
      · exact behind earlier waits
      · exact (mem_singleton.mp last ▸ Nat.le_refl _)
    refine cast (congrArg _ ?_) (inv.pipeline.broadcast own inside)
    simp [Node.pipeline, advertised, openViews, takenViews, staged, drop_append_of_le_length inv.queued.items]
  · intro leader ci member
    rw [advertised] at member
    obtain ⟨moment, known, covers⟩ := inv.covered leader ci member
    exact ⟨moment, mem_append_left _ known, covers⟩
  · intro receiver ae sent
    apply Backed.mono _ (subset_append_left _ _)
    rw [client] at sent
    rcases mem_append.mp sent with old | new
    · exact inv.backs receiver ae old
    · obtain ⟨_, -, same⟩ := mem_map.mp new
      cases same
      exact inv.backs_next next inView

omit next

theorem CommitInv.forward {fork} (other : ¬ Leads crypto.config fork.aeStats.view) : CommitInv crypto { node with
      broadcaster := node.broadcaster.processOtherBlock fork storageAck
      taken := Function.update node.taken .broadcasterOther (node.taken .broadcasterOther + 1) }
      (moments ++ [node.now]) := by
  obtain ⟨items, staged, isQueued⟩ := processOtherBlock_queued node.broadcaster fork storageAck
  have ci : (node.broadcaster.processOtherBlock fork storageAck).ci = node.broadcaster.ci := by
    unfold BlockBroadcaster.processOtherBlock
    split
    · rfl
    · exact ci_forwardAll _ _ _ _
  have advertised : { node with
      broadcaster := node.broadcaster.processOtherBlock fork storageAck
      taken := Function.update node.taken .broadcasterOther (node.taken .broadcasterOther + 1) }.advertised =
      node.advertised := by
    simp [Node.advertised, ci]
  have others : ∀ item ∈ items.map (fun item => (item.2.2.1.view, item.1.block.n)), ¬ Leads crypto.config item.1 := by
    intro item member
    obtain ⟨_, isSent, rfl⟩ := mem_map.mp member
    obtain ⟨_, -, same⟩ := mem_map.mp (isQueued ▸ mem_map_of_mem isSent)
    simp only [Node.queued, Prod.mk.injEq] at same
    exact same.2 ▸ other
  refine inv.go (subset_append_left _ _) ⟨?_, ?_, ?_, ?_⟩ ?_ rfl (advertised ▸ List.Subset.refl _)
    (BlockBroadcaster.processOtherBlock_sent _ _ _).1
  · simpa using inv.queued.mine
  · simpa using inv.queued.commands
  · simpa using inv.queued.controls
  · simp only [staged, length_append]
    exact Nat.le_add_right_of_le inv.queued.items
  · refine cast (congrArg _ ?_) (inv.pipeline.forward others)
    simp [Node.pipeline, advertised, openViews, takenViews, staged, drop_append_of_le_length inv.queued.items]

theorem CommitInv.hear {cmd}
    (next : node.staging.blockBroadcasterCommandTx[node.taken .broadcasterControl]? = some cmd) :
    CommitInv crypto { node with
      broadcaster := node.broadcaster.handleControlCommand cmd
      taken := Function.update node.taken .broadcasterControl (node.taken .broadcasterControl + 1) }
      (moments ++ [node.now]) := by
  have heard : { node with
      broadcaster := node.broadcaster.handleControlCommand cmd
      taken := Function.update node.taken .broadcasterControl (node.taken .broadcasterControl + 1) }.advertised ⊆
      node.advertised := by
    simp only [Node.advertised, Queue.drop_of_next next]
    cases cmd with
    | updateCI ci => exact subset_cons_self _ _
    | nextAEForkPrefix fork => exact List.Subset.refl _
  have staged : (node.broadcaster.handleControlCommand cmd).stagingTx = node.broadcaster.stagingTx := by
    cases cmd <;> rfl
  refine inv.go (subset_append_left _ _) ⟨?_, ?_, ?_, ?_⟩ ?_ rfl heard ?_
  · simpa using inv.queued.mine
  · exact Queue.taken_lt_of_next next
  · simpa using inv.queued.controls
  · simpa [staged] using inv.queued.items
  · refine cast (congrArg _ ?_) (inv.pipeline.hear heard)
    simp [Node.pipeline, openViews, takenViews, staged]
  · cases cmd <;> rfl

theorem CommitInv.received {result}
    (others : ∀ channel ∈ [Channel.broadcasterMine, .broadcasterControl, .sequencerControl,
      .stagingBlocks], taken channel = node.taken channel)
    (ran : { node with taken }.received result = some after) : CommitInv crypto after (moments ++ [after.now]) := by
  obtain ⟨_, _, rfl⟩ := map_eq_some_iff.mp ran
  exact inv.frame rfl ⟨rfl, rfl⟩ rfl others

theorem CommitInv.act {action} (orderly : Orderly crypto node action)
    (ran : node.act crypto action = some after) : CommitInv crypto after (moments ++ [after.now]) := by
  -- Every other channel leaves the pipeline as it is.
  have other {channel : Channel} (aside : channel ∉ [Channel.broadcasterMine, .broadcasterControl, .sequencerControl,
      .stagingBlocks]) : ∀ counted ∈ [Channel.broadcasterMine, .broadcasterControl, .sequencerControl, .stagingBlocks],
      Function.update node.taken channel (node.taken channel + 1) counted = node.taken counted := by
    intro counted member
    exact Function.update_of_ne (ne_of_mem_of_not_mem member aside) _ _
  cases action with
  | timerTick enough =>
    obtain ⟨staging, stepped, rfl⟩ := map_eq_some_iff.mp ran
    exact inv.stage orderly (by simp) stepped (fun _ _ => rfl) ⟨Nat.le_refl _, inv.queued.items⟩ (by simp)
  | vote sender vote =>
    obtain ⟨staging, stepped, rfl⟩ := map_eq_some_iff.mp ran
    have stays : EntersKnown crypto node (.vote sender vote) := False.elim
    exact inv.stage stays (by simp) stepped (fun _ _ => rfl) ⟨Nat.le_refl _, inv.queued.items⟩ (by simp)
  | pacemakerCommand cmd =>
    obtain ⟨staging, stepped, rfl⟩ := map_eq_some_iff.mp ran
    cases cmd with
    | newViewForks viewNum configNum forks => exact inv.propose orderly stepped
    | updateView viewNum configNum =>
      exact inv.stage orderly (by simp) stepped (fun _ _ => rfl) ⟨Nat.le_refl _, inv.queued.items⟩ (by simp)
    | queryEnoughVCMsg | myViewJumped | updateBCI => cases stepped
  | takeBlock =>
    simp only [Node.act, receive_eq_some_iff] at ran
    obtain ⟨⟨block, storageAck, aeStats, final⟩, next, staged⟩ := ran
    obtain ⟨staging, stepped, rfl⟩ := map_eq_some_iff.mp staged
    have stays : EntersKnown crypto node (.block block storageAck aeStats final) := False.elim
    refine inv.stage stays (by simp) stepped (fun channel ne => Function.update_of_ne ne _ _) ?_ ?_
    · exact ⟨Nat.le_succ _, Queue.taken_lt_of_next next⟩
    · intro _ _ _ _ same
      cases same
      simp [Node.pipeline, Queue.drop_of_next next]
  | takeControlCommand =>
    simp only [Node.act, receive_eq_some_iff, map_eq_some_iff] at ran
    obtain ⟨cmd, next, sequencer, handled, rfl⟩ := ran
    exact inv.control next handled
  | takeQc =>
    simp only [Node.act, receive_eq_some_iff, some.injEq] at ran
    obtain ⟨_, -, rfl⟩ := ran
    refine inv.frame rfl ?_ rfl (other (by decide))
    simp only [BlockSequencer.addQc]
    split <;> exact ⟨rfl, rfl⟩
  | takeBatch batch =>
    obtain ⟨sequencer, handled, rfl⟩ := map_eq_some_iff.mp ran
    exact inv.batch orderly handled
  | signatureTick =>
    cases ran
    exact inv.frame rfl ⟨rfl, rfl⟩ rfl fun _ _ => rfl
  | takeMyBlock storageAck =>
    simp only [Node.act, receive_eq_some_iff, some.injEq] at ran
    obtain ⟨block, next, rfl⟩ := ran
    obtain ⟨inView, behind⟩ := orderly block next
    exact inv.broadcast next inView behind
  | takeOtherBlock storageAck =>
    simp only [Node.act, receive_eq_some_iff, some.injEq] at ran
    obtain ⟨fork, next, rfl⟩ := ran
    exact inv.forward (orderly fork next)
  | takeBroadcasterCommand =>
    simp only [Node.act, receive_eq_some_iff, some.injEq] at ran
    obtain ⟨cmd, next, rfl⟩ := ran
    exact inv.hear next
  | appendEntries ae sender =>
    simp only [Node.act] at ran
    split at ran
    · cases ran
    · exact inv.received (fun _ _ => rfl) ran
  | takeForkCommand =>
    simp only [Node.act, receive_eq_some_iff] at ran
    obtain ⟨cmd, -, handled⟩ := ran
    exact inv.received (other (by decide)) handled
  | takeMultipartNack =>
    simp only [Node.act, receive_eq_some_iff] at ran
    obtain ⟨cmd, -, handled⟩ := ran
    exact inv.received (other (by decide)) handled
  | backfillResponse ae sender => exact inv.received (fun _ _ => rfl) ran
  | takeLogCommand =>
    simp only [Node.act, receive_eq_some_iff, some.injEq] at ran
    obtain ⟨cmd, -, rfl⟩ := ran
    exact inv.frame rfl ⟨rfl, rfl⟩ rfl (other (by decide))
  | garbageCollect n =>
    cases ran
    exact inv.frame rfl ⟨rfl, rfl⟩ rfl fun _ _ => rfl

omit inv

theorem commitInv_new (crypto) : CommitInv crypto (new crypto.config) [now (new crypto.config)] := by
  have empty : (new crypto.config).staging.blockBroadcasterCommandTx = [] ∧
      (new crypto.config).staging.blockSequencerCommandTx = [] ∧ (new crypto.config).staging.blocks = [] ∧
      (new crypto.config).sequencer.blockBroadcasterTx = [] ∧ (new crypto.config).staging.ci = 0 := by
    unfold new Staging.new BlockSequencer.new
    split <;> exact ⟨rfl, rfl, rfl, rfl, rfl⟩
  obtain ⟨commands, controls, blocks, own, _⟩ := empty
  have advertised : (new crypto.config).advertised = [0] := by
    simp only [Node.advertised, commands]
    rfl
  have pipeline : (new crypto.config).pipeline crypto.config =
      { view := (new crypto.config).staging.view, held := [], advertised := [0], opened := startViews crypto.config,
        ordered := [], seqNum := (new crypto.config).sequencer.seqNum, own := [], staged := [] } := by
    simp only [Node.pipeline, advertised, openViews, takenViews, controls, blocks, own, take_nil,
      drop_nil, filterMap_nil, map_nil, append_nil]
    rfl
  have started : ∀ view ∈ startViews crypto.config,
      view ≤ (new crypto.config).staging.view ∧ Leads crypto.config view := by
    intro view member
    unfold startViews at member
    split at member
    · next start =>
      rw [mem_singleton.mp member]
      simp only [new, Staging.new, start.1]
      exact ⟨Nat.le_refl _, start.2⟩
    · cases member
  refine ⟨⟨?_, ?_, ?_, ?_⟩, ?_, ?_, ?_⟩
  · exact Nat.zero_le _
  · exact Nat.zero_le _
  · exact Nat.zero_le _
  · exact Nat.zero_le _
  · rw [pipeline]
    constructor
    · unfold startViews
      split <;> simp
    · simpa using started
    · exact forall_mem_nil _
    · exact forall_mem_nil _
    · intro lastN member
      cases member
    · intro _
      simp [Pipeline.heights, Pipeline.Below, Pipeline.numbers, Pipeline.ofView]
  · intro _ number member
    rw [advertised, mem_singleton] at member
    exact ⟨_, mem_cons_self, Nat.le_refl _, member ▸ Nat.zero_le _⟩
  · intro receiver ae sent
    cases sent

/-- In every interleaving of an orderly node, a commit index that is advertised in a
view is one that the staging stage had reached there, and no higher than the last
block it is sent with. -/
theorem backsCommits_of_reaches {timeline : Timeline} (reached : Reaches (Timeline.act crypto)
    (fun timeline action => Orderly crypto timeline.node action) (Timeline.new crypto.config) timeline) :
    timeline.node.BacksCommits timeline.moments := by
  have inv : CommitInv crypto timeline.node timeline.moments := by
    apply reached.invariant (motive := fun timeline => CommitInv crypto timeline.node timeline.moments)
      (commitInv_new crypto)
    intro before after action inv orderly acted
    obtain ⟨_, ran, rfl⟩ := map_eq_some_iff.mp acted
    exact inv.act orderly ran
  exact inv.backs

def committedThree : ProtoAppendEntries where
  fork := some ⟨[Staging.chainBlock 0, Staging.chainBlock 1, Staging.chainBlock 2].map (·.toHalfSerialized)⟩
  commitIndex := 3
  view := 1
  viewIsStable := false
  configNum := 1
  isBackfillResponse := false

def succeeds (blocks : List CachedBlock) : List Action :=
  [.pacemakerCommand (.updateView 1 1), .takeForkCommand, .appendEntries committedThree "node1",
    .takeOtherBlock (.ok ()), .takeBlock, .takeBlock, .takeBlock, .takeBroadcasterCommand,
    .pacemakerCommand (.updateView 2 1), .pacemakerCommand (.newViewForks 2 1 (Staging.forkOf blocks)),
    .takeControlCommand, .takeControlCommand, .takeControlCommand, .takeBroadcasterCommand, .takeMyBlock (.ok ())]

def sentEntries (node : Node) : List ProtoAppendEntries :=
  node.broadcaster.client.filterMap fun message =>
    match message.2 with
    | .appendEntries ae => some ae
    | _ => none

theorem mem_sentEntries (sent : ae ∈ node.sentEntries) :
    ∃ receiver, (receiver, ProtoPayload.appendEntries ae) ∈ node.broadcaster.client := by
  obtain ⟨⟨receiver, payload⟩, member, isEntry⟩ := mem_filterMap.mp sent
  cases payload <;> cases isEntry
  exact ⟨receiver, member⟩

/-- The chosen fork ends with block 1, and the NewView block 2 is sent with commit
index 3. -/
theorem commit_index_above_last_block : ∃ timeline, Reaches (Timeline.act Staging.newLeader) Any
    (Timeline.new Staging.newLeader.config) timeline ∧ ¬ timeline.node.BacksCommits timeline.moments := by
  obtain ⟨timeline, reached, ae, sent, above⟩ : ∃ timeline, Reaches (Timeline.act Staging.newLeader) Any
      (Timeline.new Staging.newLeader.config) timeline ∧ ∃ ae ∈ timeline.node.sentEntries,
        ∀ last ∈ ae.fork.bind fun fork => fork.serializedBlocks.getLast?, last.n < ae.commitIndex :=
    exists_reaches_any (succeeds [Staging.chainBlock 0]) (by decide +kernel)
  refine ⟨timeline, reached, fun backs => ?_⟩
  obtain ⟨receiver, member⟩ := mem_sentEntries sent
  obtain ⟨last, isLast, upTo⟩ := (backs receiver ae member).reaches
  exact Nat.not_lt.mpr upTo (above last isLast)

theorem backsCommits_of_whole_fork : ∃ timeline, Reaches (Timeline.act Staging.newLeader)
    (fun timeline action => Orderly Staging.newLeader timeline.node action)
    (Timeline.new Staging.newLeader.config) timeline ∧
    (∃ ae ∈ timeline.node.sentEntries, ae.view = 2 ∧ ae.commitIndex = 3) ∧
    timeline.node.BacksCommits timeline.moments :=
  exists_reaches_and (succeeds [Staging.chainBlock 0, Staging.chainBlock 1, Staging.chainBlock 2])
    (by decide +kernel) (by decide +kernel) fun reached _ => backsCommits_of_reaches reached

end Node

end PirateShip
