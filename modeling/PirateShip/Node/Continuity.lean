import PirateShip.ForkReceiver.Transition
import PirateShip.Lib.MapM
import PirateShip.Lib.Queue
import PirateShip.Node
import PirateShip.Staging.Continuation

/-! What the fork receiver forwards goes through two more queues before the staging
stage looks at it. The receiver decides by the hash that it forwarded last, or by the
log server, and both can differ from what the stage will hold by then. Where they
agree, the stage accepts every block above what it has committed. -/

set_option autoImplicit false

namespace PirateShip.Node

open List HashLinked StepSystem ForkReceiver Option

variable {current : Nat} {item : CachedBlock × AppendEntriesStats} {block : CachedBlock} {storageAck : StorageAck}

/-!
## Blocks under way
-/

def queued (item : CachedBlock × StorageAck × AppendEntriesStats × Bool) : CachedBlock × AppendEntriesStats :=
  (item.1, item.2.2.1)

/-- The blocks of a part that reach the stage: none if one of them does not verify. -/
def partItems (part : MultipartFork) : List (CachedBlock × AppendEntriesStats) :=
  ((part.blocks.mapM Except.toOption).getD []).map (·, part.aeStats)

section

variable (crypto : CryptoService)

def bufferedItems (part : List HalfSerializedBlock × AppendEntriesStats) : List (CachedBlock × AppendEntriesStats) :=
  match prepareFork crypto part.1 (byzantineLivenessThreshold crypto.config) with
  | none => []
  | some (blocks, _) => partItems { blocks, remainingParts := 0, aeStats := part.2 }

/-- The blocks of a message, as the receiver cuts it into parts. -/
def messageItems (receiver : ForkReceiver) (ae : ProtoAppendEntries) (sender : String) (fork : ProtoFork) :
    List (CachedBlock × AppendEntriesStats) :=
  ((splitParts receiver.configNum [] fork.serializedBlocks).getD []).flatMap fun part =>
    bufferedItems crypto (part, statsOf ae sender)

def ownItems (config : Config) (broadcaster : BlockBroadcaster) (block : CachedBlock) :
    List (CachedBlock × AppendEntriesStats) :=
  (broadcaster.forkPrefixBuffer ++ [block]).map fun member =>
    (member,
      { view := block.block.view
        viewIsStable := member.block.viewIsStable
        configNum := block.block.configNum
        sender := config.netConfig.name
        ci := broadcaster.ci })

def handed (node : Node) : List (CachedBlock × AppendEntriesStats) :=
  (node.broadcaster.stagingTx.drop (node.taken .stagingBlocks)).map queued

def partsFrom (receiver : ForkReceiver) (taken : Nat) : List (CachedBlock × AppendEntriesStats) :=
  (receiver.broadcasterTx.drop taken).flatMap partItems

def heldBy (receiver : ForkReceiver) : List (CachedBlock × AppendEntriesStats) :=
  receiver.multipartBuffer.flatMap (bufferedItems crypto)

def coming (node : Node) : List (CachedBlock × AppendEntriesStats) :=
  partsFrom node.forkReceiver (node.taken .broadcasterOther) ++ heldBy crypto node.forkReceiver

/-- The blocks that the stage will not ignore as those of an old view. -/
def live (view : Nat) (items : List (CachedBlock × AppendEntriesStats)) :
    List (CachedBlock × AppendEntriesStats) :=
  items.filter fun item => decide (view ≤ item.2.view)

def underway (node : Node) : List (CachedBlock × AppendEntriesStats) :=
  live node.staging.view (node.handed ++ node.coming crypto)

/-- The stage accepts the next block, if it is one of the current view, from the
leader, and above what is committed. -/
def NextContinuous (node : Node) : Prop :=
  ∀ item ∈ node.broadcaster.stagingTx[node.taken .stagingBlocks]?,
    item.2.2.1.view = node.staging.view →
    crypto.config.getLeaderForView item.2.2.1.view = item.2.2.1.sender →
    node.staging.bci < item.1.block.n →
    Staging.checkContinuity (Staging.settleForBlock node.staging item.1 item.2.2.1) item.1 = true

/-!
## Where the logs agree
-/

/-- The hash that the receiver compares the parent of a block with. -/
def knownBefore (node : Node) (block : CachedBlock) : Option HashType :=
  if node.forkReceiver.lastAeBlockHash = some block.block.parent then some block.block.parent
  else ((node.logServer.getBlock (node.store crypto) (block.block.n - 1)).bind (·.1)).map (·.blockHash)

/-- The fork stands behind the blocks under way. Its first block is checked under its
own number, and against the block that will be there. -/
@[mk_iff] structure ForkAgrees (node : Node) (fork : ProtoFork) (new : List (CachedBlock × AppendEntriesStats)) :
    Prop where
  alone : node.forkReceiver.multipartBuffer = []
  joins : Staging.Joins node.staging (node.underway crypto) new
  header : ∀ first ∈ fork.serializedBlocks.head?, ∀ item ∈ new.head?,
    first.n = item.1.block.n ∧ first.serializedBody = item.1.blockSer
  known : ∀ item ∈ new.head?, ∀ known ∈ node.knownBefore crypto item.1,
    ∀ hash ∈ Staging.tipBefore node.staging (node.underway crypto) (item.1.block.n - 1), known = hash

def MessageAgrees (node : Node) (ae : ProtoAppendEntries) (sender : String) : Prop :=
  node.staging.view ≤ ae.view → ∀ fork ∈ ae.fork,
    Passes crypto (node.store crypto) node.logServer node.forkReceiver ae sender fork →
    ForkAgrees crypto node fork (messageItems crypto node.forkReceiver ae sender fork)

def CommandAgrees (node : Node) : ForkReceiverCommand → Prop
  | .useBackfillResponse ae sender => node.MessageAgrees crypto ae sender.toNameAndSubId.1
  | .updateView .. | .multipartNack _ => True

/-- An own block stands behind the blocks under way, and no others come. -/
def OwnAgrees (node : Node) (block : CachedBlock) : Prop :=
  node.staging.view ≤ block.block.view →
    live node.staging.view (node.coming crypto) = [] ∧
    Staging.Joins node.staging (node.underway crypto) (ownItems crypto.config node.broadcaster block) ∧
    ∀ first ∈ (ownItems crypto.config node.broadcaster block).head?,
      ∀ hash ∈ Staging.tipBefore node.staging (node.underway crypto) (first.1.block.n - 1),
        first.1.block.parent = hash

def Agrees (node : Node) : Action → Prop
  | .timerTick enough => Staging.Spares crypto node.staging (node.underway crypto) (.timerTick enough)
  | .vote sender vote => Staging.Spares crypto node.staging (node.underway crypto) (.vote sender vote)
  | .pacemakerCommand cmd => Staging.Spares crypto node.staging (node.underway crypto) (.pacemaker cmd)
  | .takeBlock => ∀ item ∈ node.broadcaster.stagingTx[node.taken .stagingBlocks]?,
      Staging.Spares crypto node.staging (node.underway crypto)
        (.block item.1 item.2.1 item.2.2.1 item.2.2.2)
  | .takeMyBlock _ => ∀ block ∈ node.sequencer.blockBroadcasterTx[node.taken .broadcasterMine]?,
      node.OwnAgrees crypto block
  | .appendEntries ae sender => node.MessageAgrees crypto ae sender
  | .backfillResponse ae sender => node.MessageAgrees crypto ae sender.toNameAndSubId.1
  | .takeForkCommand => ∀ cmd ∈ node.staging.forkReceiverCommandTx[node.taken .receiverStaging]?,
      node.CommandAgrees crypto cmd
  | .takeMultipartNack => ∀ cmd ∈ node.broadcaster.forkReceiverCommandTx[node.taken .receiverBroadcaster]?,
      node.CommandAgrees crypto cmd
  | _ => True

end

variable {crypto : CryptoService} {node after : Node} {items : List (CachedBlock × AppendEntriesStats)}

theorem live_append (view items more) : live view (items ++ more) = live view items ++ live view more :=
  filter_append _ _

theorem live_live {view later} (isLater : view ≤ later) : live later (live view items) = live later items := by
  unfold live
  rw [List.filter_filter]
  apply List.filter_congr
  intro item _
  by_cases current : later ≤ item.2.view
  · simp [isLater.trans current]
  · simp [current]

theorem live_eq {view later} (isLater : view ≤ later) (all : ∀ item ∈ live view items, later ≤ item.2.view) :
    live later items = live view items := by
  rw [← live_live isLater]
  exact filter_eq_self.mpr fun item member => decide_eq_true (all item member)

theorem live_of_view {view} (ofView : ∀ item ∈ items, item.2.view = view) (isCurrent : current ≤ view) :
    live current items = items :=
  filter_eq_self.mpr fun item member => decide_eq_true (ofView item member ▸ isCurrent)

theorem live_of_old {view} (ofView : ∀ item ∈ items, item.2.view = view) (isOld : view < current) :
    live current items = [] := by
  refine filter_eq_nil_iff.mpr fun item member => ?_
  simpa [ofView item member] using isOld

structure Continuous (crypto : CryptoService) (node : Node) : Prop where
  handedTaken : node.taken .stagingBlocks ≤ node.broadcaster.stagingTx.length
  partsTaken : node.taken .broadcasterOther ≤ node.forkReceiver.broadcasterTx.length
  chain : Staging.ChainInv node.staging.toStagingCore
  continues : Staging.Continues node.staging (node.underway crypto)

/-!
## Parts of a message
-/

theorem parent_of_mem_bufferedItems {part} (member : item ∈ bufferedItems crypto part) :
    item.2 = part.2 ∧ getParentHashInProtoBlockSer item.1.blockSer = some item.1.block.parent := by
  unfold bufferedItems at member
  split at member
  · cases member
  · next _ _ prepared =>
    obtain ⟨_, isBlock, rfl⟩ := mem_map.mp member
    refine ⟨rfl, ?_⟩
    obtain ⟨answers, answered, pair⟩ := map_eq_some_iff.mp prepared
    cases pair
    cases verified : (answers.map (·.1)).mapM Except.toOption with
    | none => simp [verified] at isBlock
    | some cached =>
      rw [verified] at isBlock
      obtain ⟨_, isResult, isOk⟩ := exists_of_mem_mapM verified isBlock
      obtain ⟨⟨answer, _⟩, isAnswer, rfl⟩ := mem_map.mp isResult
      obtain ⟨_, -, verifies⟩ := exists_of_mem_mapM answered isAnswer
      cases answer with
      | error => cases isOk
      | ok =>
        cases isOk
        have accepts := CryptoService.accepts_of_verifyBlockSer verifies
        rw [accepts.ser]
        exact accepts.parent

theorem parent_of_mem_messageItems {receiver ae sender fork}
    (member : item ∈ messageItems crypto receiver ae sender fork) :
    item.2 = statsOf ae sender ∧ getParentHashInProtoBlockSer item.1.blockSer = some item.1.block.parent := by
  obtain ⟨_, -, member⟩ := mem_flatMap.mp member
  exact parent_of_mem_bufferedItems member

/-!
## What the stages do to the queues
-/

theorem forwardAll_queued (aeStats : CachedBlock → AppendEntriesStats) (storageAck broadcaster blocks) :
    ∃ items, (BlockBroadcaster.forwardAll aeStats storageAck broadcaster blocks).stagingTx =
        broadcaster.stagingTx ++ items ∧ items.map queued = blocks.map fun block => (block, aeStats block) := by
  obtain ⟨items, rfl, ofStats, forwarded⟩ := BlockBroadcaster.forwardAll_spec aeStats storageAck broadcaster blocks
  refine ⟨items, by rw [forwarded], ?_⟩
  rw [List.map_map]
  apply List.map_congr_left
  intro item member
  simp [queued, ofStats item member]

theorem processMyBlock_queued (config broadcaster block storageAck) :
    ∃ items, (broadcaster.processMyBlock config block storageAck).stagingTx = broadcaster.stagingTx ++ items ∧
      items.map queued = ownItems config broadcaster block :=
  forwardAll_queued _ storageAck { broadcaster with forkPrefixBuffer := [] } _

theorem processOtherBlock_queued (broadcaster : BlockBroadcaster) (part : MultipartFork) (storageAck : StorageAck) :
    ∃ items, (broadcaster.processOtherBlock part storageAck).stagingTx = broadcaster.stagingTx ++ items ∧
      items.map queued = partItems part := by
  unfold BlockBroadcaster.processOtherBlock partItems
  split
  · next corrupted => exact ⟨[], by simp [corrupted]⟩
  · next blocks verified =>
    obtain ⟨items, sent, isQueued⟩ := forwardAll_queued (fun _ => part.aeStats) storageAck broadcaster blocks
    exact ⟨items, sent, by rw [isQueued, verified, getD_some]⟩

section Receiver

variable {receiver sent : ForkReceiver} {taken : Nat} {store : BlockStore} {server : LogServer}
  {ae : ProtoAppendEntries} {sender : String}

theorem forwardPart_queued (receiver) {start part remaining aeStats}
    (forwarded : forwardPart crypto start part remaining aeStats = some sent)
    (same : start.broadcasterTx = receiver.broadcasterTx) (inside : taken ≤ receiver.broadcasterTx.length) :
    taken ≤ sent.broadcasterTx.length ∧ sent.multipartBuffer = start.multipartBuffer ∧
      partsFrom sent taken = partsFrom receiver taken ++ bufferedItems crypto (part, aeStats) := by
  obtain ⟨_, _, prepared, rfl⟩ := forwardPart_spec forwarded
  rw [← same] at inside
  refine ⟨?_, rfl, ?_⟩
  · rw [length_append]
    exact Nat.le_add_right_of_le inside
  · simp [partsFrom, ← same, drop_append_of_le_length inside, bufferedItems, prepared, partItems]

theorem processes_queued (processes : Processes crypto store server receiver ae sender sent)
    (inside : taken ≤ receiver.broadcasterTx.length) :
    taken ≤ sent.broadcasterTx.length ∧
      (partsFrom sent taken ++ heldBy crypto sent = partsFrom receiver taken ++ heldBy crypto receiver ∨
        ∃ fork, Passes crypto store server receiver ae sender fork ∧
          partsFrom sent taken ++ heldBy crypto sent = partsFrom receiver taken ++
            messageItems crypto receiver ae sender fork ++ heldBy crypto receiver) := by
  cases processes with
  | ignored => exact ⟨inside, .inl rfl⟩
  | nacked => exact ⟨inside, .inl rfl⟩
  | dropped => exact ⟨inside, .inl rfl⟩
  | @whole fork part _ passes split forwards =>
    obtain ⟨stillInside, held, parts⟩ := forwardPart_queued receiver forwards rfl inside
    refine ⟨stillInside, .inr ⟨fork, passes, ?_⟩⟩
    simp [parts, heldBy, held, messageItems, split]
  | @inParts fork part rest forwarded passes split several forwards empty =>
    obtain ⟨stillInside, -, parts⟩ := forwardPart_queued receiver forwards rfl inside
    refine ⟨stillInside, .inr ⟨fork, passes, ?_⟩⟩
    have parts : partsFrom (forwarded.buffer rest (statsOf ae sender)) taken = _ := parts
    rw [parts]
    simp [heldBy, buffer, empty, messageItems, split, flatMap_map]

theorem updates_queued {view configNum} (updates : Updates crypto receiver view configNum sent)
    (inside : taken ≤ receiver.broadcasterTx.length) :
    taken ≤ sent.broadcasterTx.length ∧
      partsFrom sent taken ++ heldBy crypto sent <+: partsFrom receiver taken ++ heldBy crypto receiver := by
  have moved : (receiver.moveTo view configNum).broadcasterTx = receiver.broadcasterTx := by
    unfold moveTo
    split <;> rfl
  cases updates with
  | moves =>
    simp only [unblock, moved, multipartBuffer_moveTo]
    exact ⟨inside, prefix_refl _⟩
  | @releases part aeStats rest forwarded higher buffered forwards =>
    obtain ⟨stillInside, held, parts⟩ := forwardPart_queued receiver forwards moved inside
    refine ⟨stillInside, ?_⟩
    have parts : partsFrom forwarded.unblock taken = _ := parts
    rw [parts]
    simp [heldBy, unblock, held, buffered]
  | @discards last higher buffered =>
    refine ⟨by simpa [unblock, moved] using inside, ?_⟩
    simp [partsFrom, heldBy, unblock, moved]

end Receiver

/-!
## The parent of a forwarded block
-/

theorem knownBefore_of_passes {ae sender fork header}
    (passes : Passes crypto (node.store crypto) node.logServer node.forkReceiver ae sender fork)
    (first : fork.serializedBlocks.head? = some header) (number : header.n = block.block.n)
    (body : header.serializedBody = block.blockSer) (positive : 0 < block.block.n)
    (parent : getParentHashInProtoBlockSer block.blockSer = some block.block.parent) :
    block.block.n = 1 ∨ node.knownBefore crypto block = some block.block.parent := by
  obtain ⟨_, common⟩ := passes.common
  simp only [ensureCommonPrefix, passes.isFork, first, body, parent, number] at common
  split at common
  · next isLast =>
    right
    rw [knownBefore, if_pos isLast]
  · next notLast =>
    rw [wrappingPred_of_pos positive, LogServer.checkHash] at common
    split at common
    · left
      omega
    · right
      obtain ⟨⟨found, _⟩, looked, pair⟩ := map_eq_some_iff.mp common
      cases found with
      | none => cases pair
      | some found =>
        have same : found.blockHash = block.block.parent := by
          simpa using (Prod.mk.inj pair).1
        rw [knownBefore, if_neg notLast, looked, ← same]
        rfl

theorem ForkAgrees.linked {ae sender fork}
    (agrees : ForkAgrees crypto node fork (messageItems crypto node.forkReceiver ae sender fork))
    (continues : Staging.Continues node.staging (node.underway crypto))
    (passes : Passes crypto (node.store crypto) node.logServer node.forkReceiver ae sender fork) :
    ∀ first ∈ (messageItems crypto node.forkReceiver ae sender fork).head?,
      ∀ hash ∈ Staging.tipBefore node.staging (node.underway crypto) (first.1.block.n - 1),
        first.1.block.parent = hash := by
  intro first isFirst hash isTip
  obtain ⟨-, parent⟩ := parent_of_mem_messageItems (mem_of_head? isFirst)
  have positive : 0 < first.1.block.n := by
    obtain ⟨rest, items⟩ := head?_eq_some_iff.mp isFirst
    have inner := agrees.joins.inner first isFirst
    rw [items] at inner
    have := inner.1
    simp only [CachedBlock.seq_eq] at this
    omega
  obtain ⟨header, isHeader⟩ : ∃ header, fork.serializedBlocks.head? = some header := by
    cases blocks : fork.serializedBlocks with
    | nil => simp [messageItems, blocks, splitParts] at isFirst
    | cons header rest => exact ⟨header, rfl⟩
  obtain ⟨number, body⟩ := agrees.header header isHeader first isFirst
  rcases knownBefore_of_passes passes isHeader number body positive parent with one | known
  · -- Nothing comes before the first block of all.
    cases blocks : node.underway crypto using List.reverseRecOn with
    | nil => simp [Staging.tipBefore, blocks, one] at isTip
    | append_singleton initial last =>
      have isLast : (node.underway crypto).getLast? = some last := by rw [blocks, getLast?_concat]
      have behind := agrees.joins.behind first isFirst last isLast
      obtain ⟨start, isStart⟩ : ∃ start, (node.underway crypto).head? = some start :=
        isSome_iff_exists.mp (by simp [blocks])
      have above := ((continues.chain start isStart).seq_mem (mem_map_of_mem (mem_of_getLast? isLast))).1
      simp only [CachedBlock.seq_eq] at above
      omega
  · exact agrees.known first isFirst _ known hash isTip

/-!
## Steps
-/

variable (inv : Continuous crypto node)
include inv

theorem Continuous.keep (staging : after.staging = node.staging)
    (handedTaken : after.taken .stagingBlocks ≤ after.broadcaster.stagingTx.length)
    (partsTaken : after.taken .broadcasterOther ≤ after.forkReceiver.broadcasterTx.length)
    (fewer : after.handed ++ after.coming crypto <+: node.handed ++ node.coming crypto) :
    Continuous crypto after where
  handedTaken := handedTaken
  partsTaken := partsTaken
  chain := staging ▸ inv.chain
  continues := by
    rw [underway, staging]
    exact inv.continues.of_prefix (fewer.filter _)

theorem Continuous.frame (staging : after.staging = node.staging)
    (stagingTx : after.broadcaster.stagingTx = node.broadcaster.stagingTx)
    (receiver : after.forkReceiver = node.forkReceiver)
    (taken : after.taken .stagingBlocks = node.taken .stagingBlocks ∧
      after.taken .broadcasterOther = node.taken .broadcasterOther) : Continuous crypto after := by
  obtain ⟨blocks, parts⟩ := taken
  apply inv.keep staging
  · rw [blocks, stagingTx]
    exact inv.handedTaken
  · rw [parts, receiver]
    exact inv.partsTaken
  · simp only [handed, coming, stagingTx, receiver, blocks, parts]
    exact prefix_refl _

theorem Continuous.receive {channel} (other : channel ≠ .stagingBlocks ∧ channel ≠ .broadcasterOther) :
    Continuous crypto { node with
      taken := Function.update node.taken channel (node.taken channel + 1) } := by
  refine inv.frame rfl rfl rfl ?_
  simp [other.1.symm, other.2.symm]

omit inv

theorem Continuous.stage {event} (withQcs : crypto.config.features.noQc = false) (inv : Continuous crypto node)
    (taken : node.stage crypto event = some after)
    (spares : Staging.Spares crypto node.staging (node.underway crypto) event)
    (noBlock : ∀ block storageAck aeStats final, event ≠ .block block storageAck aeStats final) :
    Continuous crypto after := by
  obtain ⟨staging, stepped, rfl⟩ := map_eq_some_iff.mp taken
  obtain ⟨chain, later, continues⟩ := inv.continues.stage withQcs inv.chain spares noBlock stepped
  refine ⟨inv.handedTaken, inv.partsTaken, chain, ?_⟩
  change staging.Continues (live staging.view (node.handed ++ node.coming crypto))
  rw [← live_live later]
  exact continues

theorem Continuous.takeBlock {item} (withQcs : crypto.config.features.noQc = false) (inv : Continuous crypto node)
    (next : node.broadcaster.stagingTx[node.taken .stagingBlocks]? = some item)
    (spares : Staging.Spares crypto node.staging (node.underway crypto)
      (.block item.1 item.2.1 item.2.2.1 item.2.2.2)) {staging}
    (stepped : Staging.step crypto node.staging (.block item.1 item.2.1 item.2.2.1 item.2.2.2) = some staging) :
    Continuous crypto { node with
      staging
      taken := Function.update node.taken .stagingBlocks (node.taken .stagingBlocks + 1) } := by
  obtain ⟨block, _, aeStats, _⟩ := item
  generalize same : ({ node with
      staging
      taken := Function.update node.taken .stagingBlocks (node.taken .stagingBlocks + 1) } : Node) = after
  have isStaging : after.staging = staging := by rw [← same]
  have queue : node.handed ++ node.coming crypto = (block, aeStats) :: (after.handed ++ after.coming crypto) := by
    simp [← same, handed, coming, Queue.drop_of_next next, queued]
  have handedTaken : after.taken .stagingBlocks ≤ after.broadcaster.stagingTx.length := by
    simp only [← same]
    exact Queue.taken_lt_of_next next
  have partsTaken : after.taken .broadcasterOther ≤ after.forkReceiver.broadcasterTx.length := by
    simpa [← same] using inv.partsTaken
  rcases Staging.step_block withQcs stepped with ⟨old, rfl⟩ | ⟨_, enters, handles⟩
  · refine ⟨handedTaken, partsTaken, isStaging ▸ inv.chain, ?_⟩
    have skipped : node.underway crypto = after.underway crypto := by
      rw [underway, queue, live, filter_cons_of_neg (by simpa using old), underway, isStaging]
      rfl
    rw [isStaging, ← skipped]
    exact inv.continues
  · obtain ⟨current, -⟩ := enters.view
    have isNext : node.underway crypto =
        (block, aeStats) :: live node.staging.view (after.handed ++ after.coming crypto) := by
      rw [underway, queue, live, filter_cons_of_pos (by simpa using current)]
      rfl
    have continues := inv.continues
    rw [isNext] at continues
    obtain ⟨chain, view, rest⟩ := continues.handled inv.chain (spares current) enters handles
    refine ⟨handedTaken, partsTaken, isStaging ▸ chain, ?_⟩
    have others : after.underway crypto = live node.staging.view (after.handed ++ after.coming crypto) := by
      rw [underway, isStaging, view]
      apply live_eq current
      exact (pairwise_cons.mp continues.views).1
    rw [isStaging, others]
    exact rest

variable (inv : Continuous crypto node)
include inv

theorem Continuous.takePart {part}
    (next : node.forkReceiver.broadcasterTx[node.taken .broadcasterOther]? = some part) :
    Continuous crypto { node with
      broadcaster := node.broadcaster.processOtherBlock part storageAck
      taken := Function.update node.taken .broadcasterOther (node.taken .broadcasterOther + 1) } := by
  obtain ⟨_, sent, isQueued⟩ := processOtherBlock_queued node.broadcaster part storageAck
  refine inv.keep rfl ?_ ?_ ?_
  · simp only [sent, length_append]
    exact Nat.le_add_right_of_le inv.handedTaken
  · exact Queue.taken_lt_of_next next
  · simp [handed, coming, partsFrom, sent, drop_append_of_le_length inv.handedTaken, isQueued,
      Queue.drop_of_next next]

theorem Continuous.takeMine (agrees : node.OwnAgrees crypto block) : Continuous crypto { node with
      broadcaster := node.broadcaster.processMyBlock crypto.config block storageAck } := by
  obtain ⟨_, sent, isQueued⟩ := processMyBlock_queued crypto.config node.broadcaster block storageAck
  have queue : { node with broadcaster := node.broadcaster.processMyBlock crypto.config block storageAck }.handed =
      node.handed ++ ownItems crypto.config node.broadcaster block := by
    simp [handed, sent, drop_append_of_le_length inv.handedTaken, isQueued]
  have ofView : ∀ item ∈ ownItems crypto.config node.broadcaster block, item.2.view = block.block.view := by
    intro item member
    obtain ⟨_, -, rfl⟩ := mem_map.mp member
    rfl
  refine ⟨?_, inv.partsTaken, inv.chain, ?_⟩
  · simp only [sent, length_append]
    exact Nat.le_add_right_of_le inv.handedTaken
  · rw [underway, queue]
    by_cases current : node.staging.view ≤ block.block.view
    · obtain ⟨none, joins, linked⟩ := agrees current
      have grown : live node.staging.view (node.handed ++ ownItems crypto.config node.broadcaster block ++
          node.coming crypto) = node.underway crypto ++ ownItems crypto.config node.broadcaster block := by
        rw [underway, live_append, live_append, live_append, none, live_of_view ofView current,
          append_nil, append_nil]
      exact grown ▸ inv.continues.append joins current ofView linked
    · have same : live node.staging.view (node.handed ++ ownItems crypto.config node.broadcaster block ++
          node.coming crypto) = node.underway crypto := by
        rw [underway, live_append, live_append, live_append, live_of_old ofView (Nat.not_le.mp current), append_nil]
      exact same ▸ inv.continues

theorem Continuous.message {ae sender receiver server} (agrees : node.MessageAgrees crypto ae sender)
    (processes : Processes crypto (node.store crypto) node.logServer node.forkReceiver ae sender receiver) :
    Continuous crypto { node with forkReceiver := receiver, logServer := server } := by
  obtain ⟨partsTaken, same | ⟨fork, passes, grown⟩⟩ := processes_queued processes inv.partsTaken
  · refine inv.keep rfl inv.handedTaken partsTaken ?_
    simp only [coming, same]
    exact prefix_refl _
  · refine ⟨inv.handedTaken, partsTaken, inv.chain, ?_⟩
    have ofView : ∀ item ∈ messageItems crypto node.forkReceiver ae sender fork, item.2.view = ae.view := by
      intro item member
      rw [(parent_of_mem_messageItems member).1]
      rfl
    rw [underway, coming, grown]
    change node.staging.Continues (live node.staging.view (node.handed ++ (_ ++ _ ++ _)))
    by_cases current : node.staging.view ≤ ae.view
    · have agrees := agrees current fork passes.isFork passes
      have nothingHeld : heldBy crypto node.forkReceiver = [] := by simp [heldBy, agrees.alone]
      have behind := inv.continues.append agrees.joins current ofView (agrees.linked inv.continues passes)
      simpa only [underway, coming, nothingHeld, append_nil, live_append, live_of_view ofView current,
        append_assoc] using behind
    · have same := inv.continues
      simpa only [underway, coming, live_append, live_of_old ofView (Nat.not_le.mp current), nil_append,
        append_assoc] using same

theorem Continuous.command {cmd} (agrees : node.CommandAgrees crypto cmd) {receiver server}
    (result : node.forkReceiver.handleCommand crypto (node.store crypto) node.logServer cmd =
      some (receiver, server)) :
    Continuous crypto { node with forkReceiver := receiver, logServer := server } := by
  cases cmd with
  | useBackfillResponse ae sender => exact inv.message agrees (processFork_processes result)
  | updateView view configNum =>
    obtain ⟨_, updates, pair⟩ := map_eq_some_iff.mp result
    cases pair
    obtain ⟨partsTaken, fewer⟩ := updates_queued (handleUpdateView_updates updates) inv.partsTaken
    exact inv.keep rfl inv.handedTaken partsTaken ((prefix_append_right_inj _).mpr fewer)
  | multipartNack parts =>
    simp only [handleCommand] at result
    split at result
    · cases result
    · cases result
      refine inv.keep rfl inv.handedTaken inv.partsTaken ((prefix_append_right_inj _).mpr ?_)
      simp [coming, partsFrom, heldBy]

omit inv

theorem Continuous.act {action} (withQcs : crypto.config.features.noQc = false) (inv : Continuous crypto node)
    (agrees : node.Agrees crypto action) (taken : node.act crypto action = some after) : Continuous crypto after := by
  cases action with
  | timerTick enough => exact inv.stage withQcs taken agrees nofun
  | vote sender vote => exact inv.stage withQcs taken agrees nofun
  | pacemakerCommand cmd => exact inv.stage withQcs taken agrees nofun
  | takeBlock =>
    simp only [Node.act, receive_eq_some_iff] at taken
    obtain ⟨item, next, staged⟩ := taken
    obtain ⟨_, stepped, rfl⟩ := map_eq_some_iff.mp staged
    exact inv.takeBlock withQcs next (agrees item next) stepped
  | takeControlCommand =>
    simp only [Node.act, receive_eq_some_iff, map_eq_some_iff] at taken
    obtain ⟨cmd, -, sequencer, -, rfl⟩ := taken
    exact (inv.receive (by decide)).frame rfl rfl rfl ⟨rfl, rfl⟩
  | takeQc =>
    simp only [Node.act, receive_eq_some_iff, some.injEq] at taken
    obtain ⟨_, -, rfl⟩ := taken
    exact (inv.receive (by decide)).frame rfl rfl rfl ⟨rfl, rfl⟩
  | takeBatch batch =>
    obtain ⟨sequencer, -, rfl⟩ := map_eq_some_iff.mp taken
    exact inv.frame rfl rfl rfl ⟨rfl, rfl⟩
  | signatureTick =>
    cases taken
    exact inv.frame rfl rfl rfl ⟨rfl, rfl⟩
  | takeMyBlock storageAck =>
    simp only [Node.act, receive_eq_some_iff, some.injEq] at taken
    obtain ⟨block, next, rfl⟩ := taken
    exact (inv.takeMine (agrees block next)).receive (by decide)
  | takeOtherBlock storageAck =>
    simp only [Node.act, receive_eq_some_iff, some.injEq] at taken
    obtain ⟨_, next, rfl⟩ := taken
    exact inv.takePart next
  | takeBroadcasterCommand =>
    simp only [Node.act, receive_eq_some_iff, some.injEq] at taken
    obtain ⟨cmd, -, rfl⟩ := taken
    refine (inv.receive (by decide)).frame rfl ?_ rfl ⟨rfl, rfl⟩
    cases cmd <;> rfl
  | appendEntries ae sender =>
    simp only [Node.act] at taken
    split at taken
    · cases taken
    · obtain ⟨⟨receiver, server⟩, processed, rfl⟩ := map_eq_some_iff.mp taken
      exact inv.message agrees (processFork_processes processed)
  | takeForkCommand =>
    simp only [Node.act, receive_eq_some_iff] at taken
    obtain ⟨cmd, next, handled⟩ := taken
    obtain ⟨⟨receiver, server⟩, result, rfl⟩ := map_eq_some_iff.mp handled
    exact (inv.command (agrees cmd next) result).receive (by decide)
  | takeMultipartNack =>
    simp only [Node.act, receive_eq_some_iff] at taken
    obtain ⟨cmd, next, handled⟩ := taken
    obtain ⟨⟨receiver, server⟩, result, rfl⟩ := map_eq_some_iff.mp handled
    exact (inv.command (agrees cmd next) result).receive (by decide)
  | backfillResponse ae sender =>
    obtain ⟨⟨receiver, server⟩, processed, rfl⟩ := map_eq_some_iff.mp taken
    exact inv.message agrees (processFork_processes processed)
  | takeLogCommand =>
    simp only [Node.act, receive_eq_some_iff, some.injEq] at taken
    obtain ⟨cmd, -, rfl⟩ := taken
    exact (inv.receive (by decide)).frame rfl rfl rfl ⟨rfl, rfl⟩
  | garbageCollect n =>
    cases taken
    exact inv.frame rfl rfl rfl ⟨rfl, rfl⟩

theorem continuous_new (crypto) : Continuous crypto (new crypto.config) where
  handedTaken := Nat.zero_le _
  partsTaken := Nat.zero_le _
  chain := Staging.chainInv_new crypto.config
  continues := by
    have nothing : (new crypto.config).underway crypto = [] := by
      simp only [new, ForkReceiver.new]
      split <;> rfl
    rw [nothing]
    exact Staging.continues_nil _

/-- In every run in which the views of the log agree, the stage accepts each block of
its view that reaches it, if it is above what is committed. -/
theorem nextContinuous_of_reaches (withQcs : crypto.config.features.noQc = false)
    (reached : Reaches (act crypto) (Agrees crypto) (new crypto.config) node) : NextContinuous crypto node := by
  have inv : Continuous crypto node := by
    apply reached.invariant (continuous_new crypto)
    intro before after action inv agrees taken
    exact inv.act withQcs agrees taken
  rintro ⟨block, _, aeStats, _⟩ next sameView - above
  have isNext : ∃ rest, node.underway crypto = (block, aeStats) :: rest := by
    simp only [underway, live, handed, Queue.drop_of_next next, map_cons, queued, cons_append]
    rw [filter_cons_of_pos (by simpa using sameView.ge)]
    exact ⟨_, rfl⟩
  obtain ⟨rest, isNext⟩ := isNext
  have continues := inv.continues
  rw [isNext] at continues
  have enters : Staging.Enters crypto node.staging block aeStats node.staging := .sameView sameView
  exact continues.accepts inv.chain enters above

/-!
## A fork with a broken link
-/

instance {store : BlockStore} {server : LogServer} {receiver : ForkReceiver} {ae : ProtoAppendEntries}
    {sender : String} {fork : ProtoFork} : Decidable (Passes crypto store server receiver ae sender fork) :=
  decidable_of_iff
    (ae.fork = some fork ∧ receiver.view ≤ ae.view ∧ receiver.configNum ≤ ae.configNum ∧
      (ae.configNum = receiver.configNum → crypto.config.getLeaderForView ae.view = sender) ∧
      (∃ answer ∈ receiver.ensureCommonPrefix store server ae, answer.1 = true) ∧
      ∃ testView ∈ viewsChecked receiver.view fork.serializedBlocks, ae.view ≤ testView) <| by
    constructor
    · rintro ⟨isFork, view, configNum, leader, ⟨⟨_, answered⟩, common, rfl⟩, testView, checked, reached⟩
      exact ⟨isFork, view, configNum, leader, ⟨answered, common⟩, ⟨testView, checked, reached⟩⟩
    · rintro ⟨isFork, view, configNum, leader, ⟨answered, common⟩, ⟨testView, checked, reached⟩⟩
      exact ⟨isFork, view, configNum, leader, ⟨_, common, rfl⟩, testView, checked, reached⟩

instance {fork : ProtoFork} : Decidable (ForkAgrees crypto node fork items) :=
  decidable_of_iff _ (forkAgrees_iff _ _ _ _).symm

instance {ae : ProtoAppendEntries} {sender : String} : Decidable (node.MessageAgrees crypto ae sender) :=
  inferInstanceAs (Decidable (_ → ∀ _ ∈ _, _ → _))

instance : ∀ cmd, Decidable (node.CommandAgrees crypto cmd)
  | .useBackfillResponse ae sender =>
    inferInstanceAs (Decidable (node.MessageAgrees crypto ae sender.toNameAndSubId.1))
  | .updateView .. | .multipartNack _ => inferInstanceAs (Decidable True)

instance {block : CachedBlock} : Decidable (node.OwnAgrees crypto block) :=
  inferInstanceAs (Decidable (_ → _ ∧ _ ∧ ∀ _ ∈ _, ∀ _ ∈ _, _))

instance : ∀ action, Decidable (node.Agrees crypto action)
  | .timerTick enough =>
    inferInstanceAs (Decidable (Staging.Spares crypto node.staging (node.underway crypto) (.timerTick enough)))
  | .vote sender vote =>
    inferInstanceAs (Decidable (Staging.Spares crypto node.staging (node.underway crypto) (.vote sender vote)))
  | .pacemakerCommand cmd =>
    inferInstanceAs (Decidable (Staging.Spares crypto node.staging (node.underway crypto) (.pacemaker cmd)))
  | .appendEntries ae sender => inferInstanceAs (Decidable (node.MessageAgrees crypto ae sender))
  | .backfillResponse ae sender =>
    inferInstanceAs (Decidable (node.MessageAgrees crypto ae sender.toNameAndSubId.1))
  | .takeBlock | .takeMyBlock _ | .takeForkCommand | .takeMultipartNack => inferInstanceAs (Decidable (∀ _ ∈ _, _))
  | .takeControlCommand | .takeQc | .takeBatch _ | .signatureTick | .takeOtherBlock _ | .takeBroadcasterCommand
  | .takeLogCommand | .garbageCollect _ => inferInstanceAs (Decidable True)

instance : Decidable (NextContinuous crypto node) := inferInstanceAs (Decidable (∀ _ ∈ _, _))

def linkedBlocks (view : UInt8) : HashType → List UInt8 → List CachedBlock
  | _, [] => []
  | parent, n :: rest =>
    let block := tinyBlock n view false parent
    block :: linkedBlocks view block.blockHash rest

def delivered (blocks : List CachedBlock) : List Action :=
  [.pacemakerCommand (.updateView 1 1), .takeForkCommand, .appendEntries (entries 1 false blocks) "node1",
    .takeOtherBlock (.ok ()), .takeBlock]

/-- The second block of the fork does not name the first one as its parent. -/
theorem broken_link_is_forwarded :
    ∃ node, Reaches (act follower) Any (new follower.config) node ∧ ¬ NextContinuous follower node :=
  exists_reaches_any (delivered [tinyBlock 1 1 false defaultHash, tinyBlock 2 1 false defaultHash])
    (by decide +kernel)

theorem nextContinuous_in_new_view :
    ∃ node, Reaches (act follower) (Agrees follower) (new follower.config) node ∧
      (node.staging.view = 2 ∧ node.staging.log.map (·.block.view) = [1, 2] ∧
        ∃ item ∈ node.broadcaster.stagingTx[node.taken .stagingBlocks]?, item.1.block.n = 3 ∧ item.2.2.1.view = 2) ∧
      NextContinuous follower node :=
  exists_reaches_and (delivered (linkedBlocks 1 defaultHash [1, 2]) ++ [.takeBlock] ++
      List.replicate 4 .takeLogCommand ++
      [.appendEntries (entries 2 false (linkedBlocks 2 (tinyBlock 1 1 false defaultHash).blockHash [2, 3])) "node2",
        .takeOtherBlock (.ok ()), .takeBlock])
    (by decide +kernel) (by decide +kernel) fun reached _ => nextContinuous_of_reaches rfl reached

end PirateShip.Node
