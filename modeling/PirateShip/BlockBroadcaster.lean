import PirateShip.Crypto.Service

/-! The block broadcaster: it stores blocks and forwards them, its own to every
other node and all of them to the staging stage. -/

set_option autoImplicit false

namespace PirateShip

/-- What the crypto service answered for one part of a fork. -/
structure MultipartFork where
  blocks : List (Except String CachedBlock)
  remainingParts : Nat
  aeStats : AppendEntriesStats

structure BlockBroadcaster where
  ci : Nat := 0
  forkPrefixBuffer : List CachedBlock := []
  -- What `put_block` handed to storage, by hash.
  stored : List CachedBlock := []
  stagingTx : List (CachedBlock × StorageAck × AppendEntriesStats × Bool) := []
  forkReceiverCommandTx : List ForkReceiverCommand := []
  appCommandTx : List AppCommand := []
  client : List (String × ProtoPayload) := []

namespace BlockBroadcaster

def getEveryoneExceptMe (config : Config) : List String :=
  (config.consensusConfig.nodeList.filter (· != config.netConfig.name)) ++
    config.consensusConfig.learnerList

def getByzantineBroadcastThreshold (config : Config) : Nat :=
  let nodeListLen := config.consensusConfig.nodeList.length
  if config.features.noQc then nodeListLen / 2
  else if config.features.platforms then
    if nodeListLen ≤ config.consensusConfig.livenessU then 0
    else nodeListLen - config.consensusConfig.livenessU - 1
  else 2 * (nodeListLen / 3)

def handleControlCommand (broadcaster : BlockBroadcaster) : BlockBroadcasterCommand → BlockBroadcaster
  | .updateCI ci => { broadcaster with ci }
  | .nextAEForkPrefix blocks =>
    { broadcaster with forkPrefixBuffer := broadcaster.forkPrefixBuffer ++ blocks }

def storeAndForwardInternally (broadcaster : BlockBroadcaster) (block : CachedBlock)
    (storageAck : StorageAck) (aeStats : AppendEntriesStats) (final : Bool) : BlockBroadcaster :=
  { broadcaster with
    stored := broadcaster.stored ++ [block]
    stagingTx := broadcaster.stagingTx ++ [(block, storageAck, aeStats, final)] }

/-- Forward blocks one by one, the last of them as the final one. -/
def forwardAll (aeStats : CachedBlock → AppendEntriesStats) (storageAck : StorageAck) :
    BlockBroadcaster → List CachedBlock → BlockBroadcaster
  | broadcaster, [] => broadcaster
  | broadcaster, block :: rest =>
    forwardAll aeStats storageAck
      (broadcaster.storeAndForwardInternally block storageAck (aeStats block) rest.isEmpty) rest

def appendEntries (broadcaster : BlockBroadcaster) (aeFork : List CachedBlock) (block : ProtoBlock) :
    ProtoAppendEntries where
  fork := some { serializedBlocks := aeFork.map (·.toHalfSerialized) }
  commitIndex := broadcaster.ci
  view := block.view
  viewIsStable := block.viewIsStable
  configNum := block.configNum
  isBackfillResponse := false

/-- What waits in the prefix buffer goes out in front of the block. -/
def processMyBlock (config : Config) (broadcaster : BlockBroadcaster) (block : CachedBlock)
    (storageAck : StorageAck) : BlockBroadcaster :=
  let aeFork := broadcaster.forkPrefixBuffer ++ [block]
  let aeStats (member : CachedBlock) : AppendEntriesStats :=
    { view := block.block.view
      viewIsStable := member.block.viewIsStable
      configNum := block.block.configNum
      sender := config.netConfig.name
      ci := broadcaster.ci }
  let ae := broadcaster.appendEntries aeFork block.block
  let broadcaster := forwardAll aeStats storageAck { broadcaster with forkPrefixBuffer := [] } aeFork
  { broadcaster with
    appCommandTx := broadcaster.appCommandTx ++ [.newRequestBatch block.block.n block.block.view
      block.block.viewIsStable true block.block.txList.length block.blockHash]
    client := broadcaster.client ++
      (getEveryoneExceptMe config).map fun name => (name, .appendEntries ae) }

def processOtherBlock (broadcaster : BlockBroadcaster) (fork : MultipartFork) (storageAck : StorageAck) :
    BlockBroadcaster :=
  match fork.blocks.mapM Except.toOption with
  | none =>
    { broadcaster with
      forkReceiverCommandTx := broadcaster.forkReceiverCommandTx ++ [.multipartNack fork.remainingParts] }
  | some blocks =>
    let broadcaster := forwardAll (fun _ => fork.aeStats) storageAck broadcaster blocks
    { broadcaster with
      appCommandTx := broadcaster.appCommandTx ++ blocks.map fun block =>
        .newRequestBatch block.block.n fork.aeStats.view fork.aeStats.viewIsStable false
          block.block.txList.length block.blockHash }

theorem forwardAll_spec (aeStats : CachedBlock → AppendEntriesStats) (storageAck broadcaster blocks) :
    ∃ items, items.map (·.1) = blocks ∧ (∀ item ∈ items, item.2.2.1 = aeStats item.1) ∧
      forwardAll aeStats storageAck broadcaster blocks = { broadcaster with
        stored := broadcaster.stored ++ blocks
        stagingTx := broadcaster.stagingTx ++ items } := by
  induction blocks generalizing broadcaster with
  | nil => exact ⟨[], by simp [forwardAll]⟩
  | cons block rest ih =>
    obtain ⟨items, ofBlocks, ofStats, forwarded⟩ :=
      ih (broadcaster.storeAndForwardInternally block storageAck (aeStats block) rest.isEmpty)
    refine ⟨(block, storageAck, aeStats block, rest.isEmpty) :: items, ?_, ?_, ?_⟩
    · simp [ofBlocks]
    · simpa using ofStats
    · rw [forwardAll, forwarded]
      simp [storeAndForwardInternally]

end BlockBroadcaster

end PirateShip
