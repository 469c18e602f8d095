import PirateShip.Lib.Queue
import PirateShip.Node
import PirateShip.Staging.NewView
import PirateShip.Staging.Operations

/-! A new leader's chosen fork goes to the broadcaster directly, and its NewView
block by way of the sequencer. Nothing makes the broadcaster take the fork before
the block: they travel in one `AppendEntries` if it does. -/

set_option autoImplicit false

namespace PirateShip

open List StepSystem Option

/-!
## What the staging stage announces
-/

namespace Staging

variable {crypto : CryptoService} {staging middle after : Staging}

def forkPrefix? : BlockBroadcasterCommand → Option (List CachedBlock)
  | .nextAEForkPrefix blocks => some blocks
  | .updateCI _ => none

def newView? : BlockSequencerControlCommand → Option Nat
  | .newViewMessage view _ _ _ _ => some view
  | _ => none

def chosenForks (staging : Staging) : List (List CachedBlock) :=
  staging.blockBroadcasterCommandTx.filterMap forkPrefix?

def proposedViews (staging : Staging) : List Nat := staging.blockSequencerCommandTx.filterMap newView?

/-- The views for which the stage ordered a NewView block, with their chosen forks. -/
def proposals (staging : Staging) : List (Nat × List CachedBlock) :=
  staging.proposedViews.zip staging.chosenForks

structure Announces (forks : List (List CachedBlock)) (views : List Nat) (staging after : Staging) : Prop where
  broadcaster : ∃ cmds, after.blockBroadcasterCommandTx = staging.blockBroadcasterCommandTx ++ cmds ∧
    cmds.filterMap forkPrefix? = forks
  sequencer : ∃ cmds, after.blockSequencerCommandTx = staging.blockSequencerCommandTx ++ cmds ∧
    cmds.filterMap newView? = views

theorem Announces.same (broadcaster : after.blockBroadcasterCommandTx = staging.blockBroadcasterCommandTx)
    (sequencer : after.blockSequencerCommandTx = staging.blockSequencerCommandTx) :
    Announces [] [] staging after :=
  ⟨⟨[], by simp [broadcaster], rfl⟩, ⟨[], by simp [sequencer], rfl⟩⟩

theorem Announces.trans (first : Announces [] [] staging middle) (second : Announces [] [] middle after) :
    Announces [] [] staging after := by
  obtain ⟨⟨cmds, sent, none⟩, ⟨controls, ordered, noView⟩⟩ := first
  obtain ⟨⟨moreCmds, moreSent, moreNone⟩, ⟨moreControls, moreOrdered, moreNoView⟩⟩ := second
  constructor
  · exact ⟨cmds ++ moreCmds, by rw [moreSent, sent, append_assoc],
      by rw [filterMap_append, none, moreNone, append_nil]⟩
  · exact ⟨controls ++ moreControls, by rw [moreOrdered, ordered, append_assoc],
      by rw [filterMap_append, noView, moreNoView, append_nil]⟩

theorem announces_respected : RespectsAll (Announces [] []) where
  refl _ := .same rfl rfl
  trans := .trans
  settle _ _ _ _ := .same rfl rfl
  note _ _ _ _ := .same rfl rfl
  sendQc _ _ := .same rfl rfl
  noteCommit _ _ := .same rfl rfl
  rollback _ _ := .same rfl rfl
  crashCommit _ _ _ := ⟨⟨_, rfl, rfl⟩, ⟨[], (append_nil _).symm, rfl⟩⟩
  byzantineCommit _ _ _ _ := .same rfl rfl
  stabilize _ _ := ⟨⟨[], (append_nil _).symm, rfl⟩, ⟨_, rfl, rfl⟩⟩
  markProposed _ _ _ := .same rfl rfl
  jumpAsLeader _ _ _ _ := ⟨⟨[], (append_nil _).symm, rfl⟩, ⟨_, rfl, rfl⟩⟩
  jumpAsFollower _ _ _ _ := ⟨⟨[], (append_nil _).symm, rfl⟩, ⟨_, rfl, rfl⟩⟩
  updateView _ _ _ _ _ _ _ := ⟨⟨[], (append_nil _).symm, rfl⟩, ⟨_, rfl, rfl⟩⟩
  queryPacemaker _ _ := .same rfl rfl
  pushBlock _ _ _ := .same rfl rfl
  storageAcks _ _ := .same rfl rfl
  countVote _ _ _ := .same rfl rfl
  sendVote _ _ _ _ := .same rfl rfl

theorem proposeNewView_announces {viewNum configNum forks}
    (result : proposeNewView crypto staging viewNum configNum forks = some after) :
    Announces [] [] staging after ∨ ∃ vc fork, chosenVc crypto forks = some vc ∧
      forkBlocks crypto vc = some fork ∧ iAmLeader crypto.config staging = true ∧
      Announces [fork] [staging.view] staging after := by
  cases proposeNewView_decides result with
  | turnedAway _ => exact .inl (.same rfl rfl)
  | proposes vc sent _ _ retainN _ _ _ leads _ picked sends _ =>
    obtain ⟨broadcaster, sequencer, view, -⟩ := sent_truncateForNewView sent retainN
    obtain ⟨fork, decoded, rfl⟩ := sendBlocks_eq sends
    refine .inr ⟨vc, fork, picked, decoded, leads, ?_⟩
    constructor
    · exact ⟨_, broadcaster, rfl⟩
    · refine ⟨_, congrArg (· ++ _) sequencer, ?_⟩
      simp [newView?, view]

theorem step_announces {event} (taken : step crypto staging event = some after) :
    Announces [] [] staging after ∨ ∃ viewNum configNum forks vc fork,
      event = .pacemaker (.newViewForks viewNum configNum forks) ∧ chosenVc crypto forks = some vc ∧
      forkBlocks crypto vc = some fork ∧ iAmLeader crypto.config staging = true ∧
      Announces [fork] [staging.view] staging after := by
  by_cases proposes : ∃ viewNum configNum forks, event = .pacemaker (.newViewForks viewNum configNum forks)
  · obtain ⟨viewNum, configNum, forks, rfl⟩ := proposes
    rcases proposeNewView_announces taken with silent | ⟨vc, fork, chosen, decoded, leads, announces⟩
    · exact .inl silent
    · exact .inr ⟨viewNum, configNum, forks, vc, fork, rfl, chosen, decoded, leads, announces⟩
  · left
    refine announces_respected.step ?_ taken
    intro viewNum configNum forks isProposal
    exact absurd ⟨viewNum, configNum, forks, isProposal⟩ proposes

variable {forks : List (List CachedBlock)} {views : List Nat}

theorem Announces.chosenForks (announces : Announces forks views staging after) :
    after.chosenForks = staging.chosenForks ++ forks := by
  obtain ⟨_, sent, rfl⟩ := announces.broadcaster
  rw [Staging.chosenForks, sent, filterMap_append]
  rfl

theorem Announces.proposedViews (announces : Announces forks views staging after) :
    after.proposedViews = staging.proposedViews ++ views := by
  obtain ⟨_, sent, rfl⟩ := announces.sequencer
  rw [Staging.proposedViews, sent, filterMap_append]
  rfl

end Staging

/-!
## What the sequencer makes of it
-/

def CachedBlock.isNewView (block : CachedBlock) : Bool := !block.block.viewIsStable

namespace BlockSequencer

variable {crypto : CryptoService} {sequencer after : BlockSequencer}

theorem handleNewBatch_spec {batch validation}
    (made : handleNewBatch crypto sequencer batch validation = some after) :
    ∃ block : CachedBlock, after.blockBroadcasterTx = sequencer.blockBroadcasterTx ++ [block] ∧
      block.block.view = sequencer.view ∧ block.isNewView = (!sequencer.viewIsStable) ∧
      block.block.n = sequencer.seqNum + 1 ∧ after.seqNum = sequencer.seqNum + 1 := by
  obtain ⟨block, prepared, rfl⟩ := map_eq_some_iff.mp made
  obtain ⟨_, same⟩ := CryptoService.prepareBlock_block prepared
  refine ⟨block, rfl, congrArg ProtoBlock.view same, ?_, congrArg ProtoBlock.n same, rfl⟩
  rw [CachedBlock.isNewView, same]
  rfl

theorem handleBatch_spec {batch} (made : handleBatch crypto sequencer batch = some after) :
    ∃ blocks, after.blockBroadcasterTx = sequencer.blockBroadcasterTx ++ blocks ∧
      blocks.filter (·.isNewView) = [] := by
  unfold handleBatch at made
  split at made
  · next mayPropose =>
    obtain ⟨block, sent, -, isNewView, -⟩ := handleNewBatch_spec made
    simp only [Bool.and_eq_true] at mayPropose
    refine ⟨[block], sent, ?_⟩
    simp [isNewView, mayPropose.1]
  · cases made
    exact ⟨[], (append_nil _).symm, rfl⟩

theorem handleControlCommand_spec {cmd} (leads : ∀ view, Staging.newView? cmd = some view →
      crypto.config.getLeaderForView view = crypto.config.netConfig.name)
    (handled : handleControlCommand crypto sequencer cmd = some after) :
    ∃ blocks, after.blockBroadcasterTx = sequencer.blockBroadcasterTx ++ blocks ∧
      (blocks.filter (·.isNewView)).map (·.block.view) = (Staging.newView? cmd).toList := by
  cases cmd with
  | newUnstableView view configNum =>
    cases handled
    exact ⟨[], (append_nil _).symm, rfl⟩
  | viewStabilised view configNum =>
    cases handled
    exact ⟨[], (append_nil _).symm, rfl⟩
  | newViewMessage view configNum validation parentHash seqNum =>
    simp only [handleControlCommand, iAmLeader, leads view rfl, beq_self_eq_true, if_true] at handled
    obtain ⟨block, sent, ofView, isNewView, -⟩ := handleNewBatch_spec handled
    refine ⟨[block], sent, ?_⟩
    simp [isNewView, ofView, Staging.newView?]

end BlockSequencer

/-!
## What the broadcaster sends
-/

namespace BlockBroadcaster

variable {broadcaster : BlockBroadcaster}

theorem processMyBlock_spec (config : Config) (broadcaster : BlockBroadcaster) (block : CachedBlock)
    (storageAck : StorageAck) :
    (broadcaster.processMyBlock config block storageAck).forkPrefixBuffer = [] ∧
      (broadcaster.processMyBlock config block storageAck).client =
        broadcaster.client ++ (getEveryoneExceptMe config).map fun name =>
          (name, .appendEntries
            (broadcaster.appendEntries (broadcaster.forkPrefixBuffer ++ [block]) block.block)) := by
  unfold processMyBlock
  generalize (fun member : CachedBlock => _) = aeStats
  obtain ⟨_, -, -, forwarded⟩ := forwardAll_spec aeStats storageAck
    { broadcaster with forkPrefixBuffer := [] } (broadcaster.forkPrefixBuffer ++ [block])
  simp [forwarded]

theorem processOtherBlock_sent (broadcaster : BlockBroadcaster) (fork : MultipartFork) (storageAck : StorageAck) :
    (broadcaster.processOtherBlock fork storageAck).client = broadcaster.client ∧
      (broadcaster.processOtherBlock fork storageAck).forkPrefixBuffer = broadcaster.forkPrefixBuffer := by
  unfold processOtherBlock
  split
  · exact ⟨rfl, rfl⟩
  · next blocks _ =>
    obtain ⟨_, -, -, forwarded⟩ := forwardAll_spec (fun _ => fork.aeStats) storageAck broadcaster blocks
    simp [forwarded]

end BlockBroadcaster

/-!
## The fork and the block meet
-/

namespace Node

variable {crypto : CryptoService} {node after : Node}
variable {block : CachedBlock}

def ownBlocks (node : Node) : List CachedBlock :=
  node.sequencer.blockBroadcasterTx.take (node.taken .broadcasterMine)

def takenForks (node : Node) : List (List CachedBlock) :=
  (node.staging.blockBroadcasterCommandTx.take (node.taken .broadcasterControl)).filterMap Staging.forkPrefix?

def takenViews (node : Node) : List Nat :=
  (node.staging.blockSequencerCommandTx.take (node.taken .sequencerControl)).filterMap Staging.newView?

/-- The blocks of an `AppendEntries`: an own block, behind the fork that was
chosen for its view if it is a NewView block, and alone otherwise. The NewView
blocks belong to the proposals in their order. -/
inductive Carries (node : Node) : List HalfSerializedBlock → Prop where
  | newView {before fork : List CachedBlock} {block : CachedBlock} :
      before ++ [block] <+: node.ownBlocks → block.isNewView = true →
      node.staging.proposals[(before.filter (·.isNewView)).length]? = some (block.block.view, fork) →
      Carries node ((fork ++ [block]).map (·.toHalfSerialized))
  | other {before : List CachedBlock} {block : CachedBlock} :
      before ++ [block] <+: node.ownBlocks → block.isNewView = false →
      Carries node [block.toHalfSerialized]

def entriesOf? : String × ProtoPayload → Option (List HalfSerializedBlock)
  | (_, .appendEntries ae) => some ((ae.fork.map (·.serializedBlocks)).getD [])
  | _ => none

def CarriesChosenForks (node : Node) : Prop :=
  ∀ blocks ∈ node.broadcaster.client.filterMap entriesOf?, Carries node blocks

/-- When the broadcaster takes an own block, it has taken as many forks as there
are NewView blocks up to this one. -/
def PrefixFirst (node : Node) : Action → Prop
  | .takeMyBlock _ => ∀ block ∈ node.sequencer.blockBroadcasterTx[node.taken .broadcasterMine]?,
      node.takenForks.length = ((node.ownBlocks ++ [block]).filter (·.isNewView)).length
  | _ => True

instance (node : Node) : ∀ action, Decidable (PrefixFirst node action)
  | .takeMyBlock _ => inferInstanceAs (Decidable (∀ _ ∈ _, _))
  | .timerTick _ | .takeBlock | .vote .. | .pacemakerCommand _ | .takeControlCommand | .takeQc | .takeBatch _
  | .signatureTick | .takeOtherBlock _ | .takeBroadcasterCommand | .appendEntries .. | .takeForkCommand
  | .takeMultipartNack | .backfillResponse .. | .takeLogCommand | .garbageCollect _ =>
    inferInstanceAs (Decidable True)

structure PrefixInv (crypto : CryptoService) (node : Node) : Prop where
  mine : node.taken .broadcasterMine ≤ node.sequencer.blockBroadcasterTx.length
  commands : node.taken .broadcasterControl ≤ node.staging.blockBroadcasterCommandTx.length
  controls : node.taken .sequencerControl ≤ node.staging.blockSequencerCommandTx.length
  leads : ∀ view ∈ node.staging.proposedViews,
    crypto.config.getLeaderForView view = crypto.config.netConfig.name
  made : (node.sequencer.blockBroadcasterTx.filter (·.isNewView)).map (·.block.view) = node.takenViews
  inOrder : (node.ownBlocks.filter (·.isNewView)).length ≤ node.takenForks.length
  -- The forks that wait are those whose NewView blocks are still to be taken.
  waiting : node.broadcaster.forkPrefixBuffer =
    (node.takenForks.drop (node.ownBlocks.filter (·.isNewView)).length).flatten
  carried : CarriesChosenForks node

theorem Carries.mono {blocks} (carries : Carries node blocks) (own : node.ownBlocks <+: after.ownBlocks)
    (views : node.staging.proposedViews <+: after.staging.proposedViews)
    (forks : node.staging.chosenForks <+: after.staging.chosenForks) : Carries after blocks := by
  cases carries with
  | newView isOwn isNewView proposed =>
    obtain ⟨view, fork⟩ := getElem?_zip_eq_some.mp proposed
    refine .newView (isOwn.trans own) isNewView (getElem?_zip_eq_some.mpr ⟨?_, ?_⟩)
    · exact Queue.getElem?_of_prefix views view
    · exact Queue.getElem?_of_prefix forks fork
  | other isOwn isOther => exact .other (isOwn.trans own) isOther

theorem CarriesChosenForks.mono (carries : CarriesChosenForks node)
    (client : after.broadcaster.client = node.broadcaster.client) (own : node.ownBlocks <+: after.ownBlocks)
    (views : node.staging.proposedViews <+: after.staging.proposedViews)
    (forks : node.staging.chosenForks <+: after.staging.chosenForks) : CarriesChosenForks after := by
  intro blocks sent
  rw [client] at sent
  exact (carries blocks sent).mono own views forks

variable (inv : PrefixInv crypto node)
include inv

theorem PrefixInv.frame (staging : after.staging = node.staging)
    (own : after.sequencer.blockBroadcasterTx = node.sequencer.blockBroadcasterTx)
    (sent : after.broadcaster.client = node.broadcaster.client ∧
      after.broadcaster.forkPrefixBuffer = node.broadcaster.forkPrefixBuffer)
    (taken : after.taken .broadcasterMine = node.taken .broadcasterMine ∧
      after.taken .broadcasterControl = node.taken .broadcasterControl ∧
      after.taken .sequencerControl = node.taken .sequencerControl) : PrefixInv crypto after := by
  obtain ⟨mine, commands, controls⟩ := taken
  have ownBlocks : after.ownBlocks = node.ownBlocks := by rw [ownBlocks, own, mine]; rfl
  have forks : after.takenForks = node.takenForks := by rw [takenForks, staging, commands]; rfl
  constructor
  · rw [mine, own]
    exact inv.mine
  · rw [commands, staging]
    exact inv.commands
  · rw [controls, staging]
    exact inv.controls
  · rw [staging]
    exact inv.leads
  · rw [own, takenViews, staging, controls]
    exact inv.made
  · rw [forks, ownBlocks]
    exact inv.inOrder
  · rw [sent.2, forks, ownBlocks]
    exact inv.waiting
  · apply inv.carried.mono sent.1
    · rw [ownBlocks]
    · rw [staging]
    · rw [staging]

theorem PrefixInv.stage {event} (taken : node.stage crypto event = some after) : PrefixInv crypto after := by
  obtain ⟨staging, stepped, rfl⟩ := map_eq_some_iff.mp taken
  obtain ⟨forks, views, announces, leads⟩ : ∃ forks views, Staging.Announces forks views node.staging staging ∧
      ∀ view ∈ views, crypto.config.getLeaderForView view = crypto.config.netConfig.name := by
    rcases Staging.step_announces stepped with silent | ⟨_, _, _, _, fork, _, _, _, leads, announces⟩
    · exact ⟨[], [], silent, nofun⟩
    · refine ⟨[fork], [node.staging.view], announces, ?_⟩
      simpa [Staging.iAmLeader] using leads
  obtain ⟨_, sent, -⟩ := announces.broadcaster
  obtain ⟨_, ordered, -⟩ := announces.sequencer
  constructor
  · exact inv.mine
  · simp only [sent, length_append]
    exact Nat.le_add_right_of_le inv.commands
  · simp only [ordered, length_append]
    exact Nat.le_add_right_of_le inv.controls
  · intro view member
    rw [announces.proposedViews] at member
    rcases mem_append.mp member with old | new
    · exact inv.leads view old
    · exact leads view new
  · simp only [takenViews, ordered, take_append_of_le_length inv.controls]
    exact inv.made
  · simp only [takenForks, sent, take_append_of_le_length inv.commands]
    exact inv.inOrder
  · simp only [takenForks, sent, take_append_of_le_length inv.commands]
    exact inv.waiting
  · refine inv.carried.mono rfl ?_ ?_ ?_
    · exact prefix_refl _
    · exact announces.proposedViews ▸ prefix_append _ _
    · exact announces.chosenForks ▸ prefix_append _ _

theorem PrefixInv.sequence {sequencer taken blocks}
    (added : sequencer.blockBroadcasterTx = node.sequencer.blockBroadcasterTx ++ blocks)
    (mine : taken .broadcasterMine = node.taken .broadcasterMine)
    (commands : taken .broadcasterControl = node.taken .broadcasterControl)
    (controls : taken .sequencerControl ≤ node.staging.blockSequencerCommandTx.length)
    (made : { node with sequencer, taken }.takenViews =
      node.takenViews ++ (blocks.filter (·.isNewView)).map (·.block.view)) :
    PrefixInv crypto { node with sequencer, taken } := by
  have ownBlocks : { node with sequencer, taken }.ownBlocks = node.ownBlocks := by
    simp [Node.ownBlocks, added, mine, take_append_of_le_length inv.mine]
  constructor
  · simp only [added, mine, length_append]
    exact Nat.le_add_right_of_le inv.mine
  · simp only [commands]
    exact inv.commands
  · exact controls
  · exact inv.leads
  · rw [made, added, filter_append, map_append, inv.made]
  · rw [ownBlocks]
    simp only [takenForks, commands]
    exact inv.inOrder
  · rw [ownBlocks]
    simp only [takenForks, commands]
    exact inv.waiting
  · refine inv.carried.mono rfl ?_ ?_ ?_
    · rw [ownBlocks]
    · exact prefix_refl _
    · exact prefix_refl _

variable (next : node.sequencer.blockBroadcasterTx[node.taken .broadcasterMine]? = some block)
include next

variable (inTime : node.takenForks.length = ((node.ownBlocks ++ [block]).filter (·.isNewView)).length)
include inTime

theorem PrefixInv.carries_next
    (own : after.ownBlocks = node.ownBlocks ++ [block]) (staging : after.staging = node.staging) :
    Carries after ((node.broadcaster.forkPrefixBuffer ++ [block]).map (·.toHalfSerialized)) := by
  have isOwn : node.ownBlocks ++ [block] <+: after.ownBlocks := by rw [own]
  cases isNewView : block.isNewView with
  | true =>
    -- Exactly one fork waits, and it stands where the block does.
    generalize count : (node.ownBlocks.filter (·.isNewView)).length = k at *
    have length : node.takenForks.length = k + 1 := by simp [inTime, isNewView, count]
    obtain ⟨fork, atK⟩ : ∃ fork, node.takenForks[k]? = some fork := isSome_iff_exists.mp (by simp [length])
    have waiting : node.broadcaster.forkPrefixBuffer = fork := by
      have rest : node.takenForks.drop k = [fork] := by
        rw [Queue.drop_of_next atK]
        simp [length]
      rw [inv.waiting, count, rest]
      simp
    have made : node.takenViews[k]? = some block.block.view := by
      have split : node.sequencer.blockBroadcasterTx =
          node.ownBlocks ++ block :: node.sequencer.blockBroadcasterTx.drop (node.taken .broadcasterMine + 1) := by
        rw [← Queue.drop_of_next next, ownBlocks, take_append_drop]
      rw [← inv.made, split, filter_append, map_append, getElem?_append_right (by simp [count]),
        filter_cons_of_pos isNewView]
      simp [count]
    rw [waiting]
    refine .newView isOwn isNewView (getElem?_zip_eq_some.mpr ⟨?_, ?_⟩)
    · rw [count, staging]
      exact Queue.getElem?_of_prefix ((List.take_prefix _ _).filterMap _) made
    · rw [count, staging]
      exact Queue.getElem?_of_prefix ((List.take_prefix _ _).filterMap _) atK
  | false =>
    have nothing : node.broadcaster.forkPrefixBuffer = [] := by
      rw [inv.waiting, drop_of_length_le]
      · rfl
      · simp [inTime, isNewView]
    rw [nothing]
    exact .other isOwn isNewView

theorem PrefixInv.broadcast {storageAck} : PrefixInv crypto { node with
      broadcaster := node.broadcaster.processMyBlock crypto.config block storageAck
      taken := Function.update node.taken .broadcasterMine (node.taken .broadcasterMine + 1) } := by
  obtain ⟨empty, client⟩ := BlockBroadcaster.processMyBlock_spec crypto.config node.broadcaster block storageAck
  generalize same : ({ node with
      broadcaster := node.broadcaster.processMyBlock crypto.config block storageAck
      taken := Function.update node.taken .broadcasterMine (node.taken .broadcasterMine + 1) } : Node) = after
  have own : after.ownBlocks = node.ownBlocks ++ [block] := by
    simp [← same, ownBlocks, take_add_one, next]
  have forks : after.takenForks = node.takenForks := by simp [← same, takenForks]
  have staging : after.staging = node.staging := by rw [← same]
  have broadcaster : after.broadcaster = node.broadcaster.processMyBlock crypto.config block storageAck := by
    rw [← same]
  constructor
  · simp only [← same]
    exact Queue.taken_lt_of_next next
  · simpa [← same] using inv.commands
  · simpa [← same] using inv.controls
  · rw [staging]
    exact inv.leads
  · simpa [← same, takenViews] using inv.made
  · rw [forks, own]
    exact inTime.ge
  · rw [broadcaster, empty, forks, own, drop_of_length_le inTime.le]
    rfl
  · intro blocks sent
    rw [broadcaster, client, filterMap_append] at sent
    rcases mem_append.mp sent with old | new
    · refine (inv.carried blocks old).mono ?_ ?_ ?_
      · rw [own]
        exact prefix_append _ _
      · rw [staging]
      · rw [staging]
    · obtain ⟨_, isSent, isEntry⟩ := mem_filterMap.mp new
      obtain ⟨_, _, rfl⟩ := mem_map.mp isSent
      cases isEntry
      exact inv.carries_next next inTime own staging

omit inTime

omit next

theorem PrefixInv.prepare {cmd}
    (next : node.staging.blockBroadcasterCommandTx[node.taken .broadcasterControl]? = some cmd) :
    PrefixInv crypto { node with
      broadcaster := node.broadcaster.handleControlCommand cmd
      taken := Function.update node.taken .broadcasterControl (node.taken .broadcasterControl + 1) } := by
  generalize same : ({ node with
      broadcaster := node.broadcaster.handleControlCommand cmd
      taken := Function.update node.taken .broadcasterControl (node.taken .broadcasterControl + 1) } : Node) = after
  have forks : after.takenForks = node.takenForks ++ (Staging.forkPrefix? cmd).toList := by
    simp only [← same, takenForks, Function.update_self, take_add_one, next, filterMap_append]
    cases cmd <;> rfl
  have own : after.ownBlocks = node.ownBlocks := by simp [← same, ownBlocks]
  have client : after.broadcaster.client = node.broadcaster.client := by
    rw [← same]
    cases cmd <;> rfl
  have buffer : after.broadcaster.forkPrefixBuffer =
      node.broadcaster.forkPrefixBuffer ++ (Staging.forkPrefix? cmd).toList.flatten := by
    rw [← same]
    cases cmd <;> simp [BlockBroadcaster.handleControlCommand, Staging.forkPrefix?]
  constructor
  · simpa [← same] using inv.mine
  · simp only [← same]
    exact Queue.taken_lt_of_next next
  · simpa [← same] using inv.controls
  · simpa [← same] using inv.leads
  · simpa [← same, takenViews] using inv.made
  · rw [forks, own, length_append]
    exact Nat.le_add_right_of_le inv.inOrder
  · rw [buffer, forks, own, drop_append_of_le_length inv.inOrder, flatten_append, inv.waiting]
  · refine inv.carried.mono client ?_ ?_ ?_
    · rw [own]
    · rw [← same]
    · rw [← same]

theorem PrefixInv.receive {channel}
    (other : channel ≠ .broadcasterMine ∧ channel ≠ .broadcasterControl ∧ channel ≠ .sequencerControl) :
    PrefixInv crypto { node with
      taken := Function.update node.taken channel (node.taken channel + 1) } := by
  obtain ⟨mine, commands, controls⟩ := other
  refine inv.frame rfl rfl ⟨rfl, rfl⟩ ?_
  simp [mine.symm, commands.symm, controls.symm]

theorem PrefixInv.received {result} (taken : node.received result = some after) : PrefixInv crypto after := by
  obtain ⟨_, _, rfl⟩ := map_eq_some_iff.mp taken
  exact inv.frame rfl rfl ⟨rfl, rfl⟩ ⟨rfl, rfl, rfl⟩

theorem PrefixInv.act {action} (inTime : PrefixFirst node action)
    (taken : node.act crypto action = some after) : PrefixInv crypto after := by
  cases action with
  | timerTick enough => exact inv.stage taken
  | vote sender vote => exact inv.stage taken
  | pacemakerCommand cmd => exact inv.stage taken
  | takeBlock =>
    simp only [Node.act, receive_eq_some_iff] at taken
    obtain ⟨_, -, staged⟩ := taken
    exact (inv.receive (by decide)).stage staged
  | takeControlCommand =>
    simp only [Node.act, receive_eq_some_iff, map_eq_some_iff] at taken
    obtain ⟨cmd, next, sequencer, handled, rfl⟩ := taken
    have ordered : cmd ∈ node.staging.blockSequencerCommandTx := mem_of_getElem? next
    obtain ⟨blocks, added, made⟩ := BlockSequencer.handleControlCommand_spec
      (fun view isNewView => inv.leads view (mem_filterMap.mpr ⟨cmd, ordered, isNewView⟩)) handled
    apply inv.sequence added
    · simp
    · simp
    · exact Queue.taken_lt_of_next next
    · rw [made]
      simp only [takenViews, Function.update_self, take_add_one, next, filterMap_append]
      cases cmd <;> rfl
  | takeQc =>
    simp only [Node.act, receive_eq_some_iff, some.injEq] at taken
    obtain ⟨_, -, rfl⟩ := taken
    refine (inv.receive (by decide)).frame rfl ?_ ⟨rfl, rfl⟩ ⟨rfl, rfl, rfl⟩
    simp only [BlockSequencer.addQc]
    split <;> rfl
  | takeBatch batch =>
    obtain ⟨sequencer, handled, rfl⟩ := map_eq_some_iff.mp taken
    obtain ⟨blocks, added, none⟩ := BlockSequencer.handleBatch_spec handled
    apply inv.sequence added rfl rfl inv.controls
    rw [none]
    exact (append_nil _).symm
  | signatureTick =>
    cases taken
    exact inv.frame rfl rfl ⟨rfl, rfl⟩ ⟨rfl, rfl, rfl⟩
  | takeMyBlock storageAck =>
    simp only [Node.act, receive_eq_some_iff, some.injEq] at taken
    obtain ⟨block, next, rfl⟩ := taken
    exact inv.broadcast next (inTime block next)
  | takeOtherBlock storageAck =>
    simp only [Node.act, receive_eq_some_iff, some.injEq] at taken
    obtain ⟨_, -, rfl⟩ := taken
    exact (inv.receive (by decide)).frame rfl rfl (BlockBroadcaster.processOtherBlock_sent _ _ _) ⟨rfl, rfl, rfl⟩
  | takeBroadcasterCommand =>
    simp only [Node.act, receive_eq_some_iff, some.injEq] at taken
    obtain ⟨cmd, next, rfl⟩ := taken
    exact inv.prepare next
  | appendEntries ae sender =>
    simp only [Node.act] at taken
    split at taken
    · cases taken
    · exact inv.received taken
  | takeForkCommand =>
    simp only [Node.act, receive_eq_some_iff] at taken
    obtain ⟨cmd, -, handled⟩ := taken
    exact (inv.receive (by decide)).received handled
  | takeMultipartNack =>
    simp only [Node.act, receive_eq_some_iff] at taken
    obtain ⟨cmd, -, handled⟩ := taken
    exact (inv.receive (by decide)).received handled
  | backfillResponse ae sender => exact inv.received taken
  | takeLogCommand =>
    simp only [Node.act, receive_eq_some_iff, some.injEq] at taken
    obtain ⟨cmd, -, rfl⟩ := taken
    exact (inv.receive (by decide)).frame rfl rfl ⟨rfl, rfl⟩ ⟨rfl, rfl, rfl⟩
  | garbageCollect n =>
    cases taken
    exact inv.frame rfl rfl ⟨rfl, rfl⟩ ⟨rfl, rfl, rfl⟩

omit inv

theorem prefixInv_new (crypto) : PrefixInv crypto (new crypto.config) := by
  unfold new Staging.new BlockSequencer.new
  split
  all_goals
    constructor
    all_goals first
      | exact Nat.zero_le _
      | rfl
      | exact nofun

/-- In every interleaving in which the broadcaster takes forks and blocks in time,
each NewView block is sent behind the fork chosen for its view, and each other
block alone. -/
theorem carriesChosenForks_of_reaches (reached : Reaches (act crypto) PrefixFirst (new crypto.config) node) :
    CarriesChosenForks node := by
  have inv : PrefixInv crypto node := by
    apply reached.invariant (prefixInv_new crypto)
    intro before after action inv inTime taken
    exact inv.act inTime taken
  exact inv.carried

def elected : List Action :=
  [.pacemakerCommand (.updateView 2 1),
    .pacemakerCommand (.newViewForks 2 1
      ((Staging.forkOf [Staging.chainBlock 0]).insert (.auth "node2" 0) (Staging.forkMessage []))),
    .takeControlCommand, .takeControlCommand]

/-- The broadcaster takes the NewView block before the fork, and sends it alone. -/
theorem newView_block_overtakes_fork :
    ∃ node, Reaches (act Staging.newLeader) Any (new Staging.newLeader.config) node ∧
      ¬ CarriesChosenForks node := by
  obtain ⟨node, reached, own, proposals, alone⟩ : ∃ node,
      Reaches (act Staging.newLeader) Any (new Staging.newLeader.config) node ∧
      node.ownBlocks.map (·.isNewView) = [true] ∧
      node.staging.proposals = [(2, [Staging.chainBlock 0])] ∧
      ∃ blocks ∈ node.broadcaster.client.filterMap entriesOf?, blocks.length = 1 :=
    exists_reaches_any (elected ++ [.takeMyBlock (.ok ())]) (by decide +kernel)
  refine ⟨node, reached, fun carries => ?_⟩
  obtain ⟨blocks, sent, length⟩ := alone
  cases carries blocks sent with
  | newView isOwn isNewView proposed =>
    rw [proposals] at proposed
    have member := mem_of_getElem? proposed
    simp only [mem_singleton, Prod.mk.injEq] at member
    simp [member.2] at length
  | other isOwn isOther =>
    have member := mem_map_of_mem (isOwn.subset (mem_append_right _ mem_cons_self))
      (f := (·.isNewView))
    simp [own, isOther] at member

theorem carriesChosenForks_of_new_leader :
    ∃ node, Reaches (act Staging.newLeader) PrefixFirst (new Staging.newLeader.config) node ∧
      (∃ blocks ∈ node.broadcaster.client.filterMap entriesOf?, blocks.length = 2) ∧
      CarriesChosenForks node :=
  exists_reaches_and (elected ++ [.takeBroadcasterCommand, .takeMyBlock (.ok ())]) (by decide +kernel)
    (by decide +kernel) fun reached _ => carriesChosenForks_of_reaches reached

end Node

end PirateShip
