import PirateShip.Crypto.Service

/-! The block sequencer: it turns batches into a chain of blocks, as the
control commands of the staging stage tell it to. A future hash is the hash.
`none` is a panic of the crypto service. -/

set_option autoImplicit false

namespace PirateShip

structure BlockSequencer where
  currentQcList : List ProtoQuorumCertificate := []
  parentHash : HashType := defaultHash
  seqNum : Nat := 0
  view : Nat := 0
  configNum : Nat := 0
  viewIsStable : Bool := false
  forceSignNextBatch : Bool := false
  lastSignedSeqNum : Nat := 0
  blockBroadcasterTx : List CachedBlock := []
  lastQcNSeen : Nat := 0
  blocksProposedInThisView : Nat := 0

namespace BlockSequencer

/-- `BlockSequencer::new`. Without view changes it starts in a stable view 1. -/
def new (config : Config) : BlockSequencer :=
  if config.features.viewChange then {} else { view := 1, configNum := 1, viewIsStable := true }

variable (crypto : CryptoService)

def iAmLeader (config : Config) (sequencer : BlockSequencer) : Bool :=
  config.getLeaderForView sequencer.view == config.netConfig.name

/-- The subtraction wraps when the sequence number went back below the last signed one. -/
def mustSign (config : Config) (sequencer : BlockSequencer) (n : Nat) : Bool :=
  match config.features.signing with
  | .dynamicSign =>
    sequencer.forceSignNextBatch ||
      decide (config.consensusConfig.signatureMaxDelayBlocks ≤ wrappingSub n sequencer.lastSignedSeqNum) ||
      (sequencer.iAmLeader config && !sequencer.viewIsStable)
  | .neverSign => false
  | .alwaysSign => true

/-- The block before the crypto service fills in its parent and its signature. -/
def nextBlock (sequencer : BlockSequencer) (signed : Bool) (batch : List ProtoTransaction)
    (forkValidation : List ProtoForkValidation) : ProtoBlock where
  txList := batch
  n := sequencer.seqNum + 1
  parent := []
  view := sequencer.view
  -- Only signed blocks get certificates.
  qc := if signed then sequencer.currentQcList else []
  forkValidation
  viewIsStable := sequencer.viewIsStable
  configNum := sequencer.configNum
  sig := some .noSig

def handleNewBatch (sequencer : BlockSequencer) (batch : List ProtoTransaction)
    (forkValidation : List ProtoForkValidation) : Option BlockSequencer :=
  let n := sequencer.seqNum + 1
  let signed := sequencer.mustSign crypto.config n
  (crypto.prepareBlock (sequencer.nextBlock signed batch forkValidation) signed
    sequencer.parentHash).map fun block =>
    { sequencer with
      seqNum := n
      parentHash := block.blockHash
      lastSignedSeqNum := if signed then n else sequencer.lastSignedSeqNum
      forceSignNextBatch := !signed && sequencer.forceSignNextBatch
      currentQcList := if signed then [] else sequencer.currentQcList
      blockBroadcasterTx := sequencer.blockBroadcasterTx ++ [block] }

/-- A batch that arrives while the node may not propose is answered and dropped. -/
def handleBatch (sequencer : BlockSequencer) (batch : List ProtoTransaction) : Option BlockSequencer :=
  if sequencer.viewIsStable && sequencer.iAmLeader crypto.config then
    handleNewBatch crypto
      { sequencer with blocksProposedInThisView := sequencer.blocksProposedInThisView + 1 } batch []
  else some sequencer

/-- One certificate of `add_qcs`. -/
def addQc (sequencer : BlockSequencer) (qc : ProtoQuorumCertificate) : BlockSequencer :=
  if qc.view ≠ sequencer.view then sequencer
  else
    { sequencer with
      lastQcNSeen := max sequencer.lastQcNSeen qc.n
      currentQcList := sequencer.currentQcList ++ [qc] }

def signatureTick (sequencer : BlockSequencer) : BlockSequencer :=
  { sequencer with forceSignNextBatch := true }

/-- Follow a change of view, with the stability that comes with it. -/
def enterView (sequencer : BlockSequencer) (view configNum : Nat) (viewIsStable : Bool) :
    BlockSequencer :=
  { sequencer with
    view
    configNum
    viewIsStable
    currentQcList := sequencer.currentQcList.filter fun qc => decide (view ≤ qc.view)
    blocksProposedInThisView := 0
    lastQcNSeen := sequencer.seqNum }

def handleControlCommand (sequencer : BlockSequencer) :
    BlockSequencerControlCommand → Option BlockSequencer
  | .newUnstableView view configNum => some (sequencer.enterView view configNum false)
  | .viewStabilised view configNum => some (sequencer.enterView view configNum true)
  | .newViewMessage view configNum forkValidation newParentHash newSeqNum =>
    let sequencer : BlockSequencer := { sequencer with
      view
      configNum
      viewIsStable := false
      currentQcList := sequencer.currentQcList.filter fun qc => qc.view == view
      blocksProposedInThisView := 0
      lastQcNSeen := newSeqNum }
    if sequencer.iAmLeader crypto.config then
      -- The sequence number may go back, and the next block is the NewView block.
      handleNewBatch crypto { sequencer with seqNum := newSeqNum, parentHash := newParentHash } []
        forkValidation
    else some sequencer

end BlockSequencer

end PirateShip
