import PirateShip.Staging.ForkChoice

/-! Entering a view, sending the view-change message, and proposing the new
view as its leader. -/

set_option autoImplicit false

namespace PirateShip.Staging

variable (crypto : CryptoService)

/-- Everything from `bci` onwards: the current parent and the pending blocks. -/
def createMyVcMsg (staging : Staging) : Option ProtoViewChange :=
  let blocks := staging.currParentForPending.toList ++ staging.pendingBlocks.map (·.block)
  let forkLastN := match staging.pendingBlocks.getLast? with
    | some last => last.n
    | none => (staging.currParentForPending.map (·.block.n)).getD 0
  crypto.prepareVc
    { view := staging.view
      configNum := staging.configNum
      fork := some { serializedBlocks := blocks.map (·.toHalfSerialized) }
      forkLastQc := staging.lastQc
      forkLastN
      forkSig := [] }

def getEveryoneExceptMe (config : Config) : List String :=
  config.consensusConfig.nodeList.filter (· != config.netConfig.name)

def updateView (staging : Staging) (viewNum configNum : Nat) : Option Staging :=
  let staging : Staging := { staging with view := viewNum, configNum, viewIsStable := false }
  match createMyVcMsg crypto staging with
  | none => none
  | some vcMsg =>
    let leader := crypto.config.getLeaderForView viewNum
    let staging : Staging := { staging with
      blockSequencerCommandTx := staging.blockSequencerCommandTx ++ [.newUnstableView viewNum configNum]
      batchProposerCommandTx := staging.batchProposerCommandTx ++ [(false, leader)]
      clientReplyTx := staging.clientReplyTx ++ [.cancelAllRequests]
      forkReceiverCommandTx := staging.forkReceiverCommandTx ++ [.updateView viewNum configNum]
      pacemakerTx := staging.pacemakerTx ++ [.myViewJumped viewNum configNum vcMsg]
      aeSeenInThisView := 0 }
    -- The broadcast asks for the liveness threshold of acknowledgements.
    match byzantineLivenessThreshold crypto.config with
    | none => none
    | some _ =>
      let everyone := getEveryoneExceptMe crypto.config
      some { staging with client := staging.client ++ everyone.map fun name => (name, .viewChange vcMsg) }

def maybeUpdateView (staging : Staging) (viewNum configNum : Nat) : Option Staging :=
  if viewNum ≤ staging.view then some staging else updateView crypto staging viewNum configNum

/-- Acknowledgements that the broadcast of a view-change message waits for. -/
def viewChangeBroadcastThreshold (config : Config) : Option Nat :=
  (byzantineLivenessThreshold config).map wrappingPred

/-- Any certificate labelled with the current view stabilizes it. The first
line unwraps the last pending block, although its number is not used. -/
def maybeStabilizeView (staging : Staging) (qc : ProtoQuorumCertificate) : Option Staging :=
  match staging.pendingBlocks.getLast? with
  | none => none
  | some _ =>
    if qc.view ≠ staging.view then some staging
    else
      let leader := crypto.config.getLeaderForView staging.view
      some { staging with
        viewIsStable := true
        blockSequencerCommandTx :=
          staging.blockSequencerCommandTx ++ [.viewStabilised staging.view staging.configNum]
        batchProposerCommandTx :=
          staging.batchProposerCommandTx ++ [(iAmLeader crypto.config staging, leader)]
        clientReplyTx := staging.clientReplyTx ++ [.stopCancelling] }

/-!
## Proposing a new view
-/

def statsToValidation (forkStats : List (SenderType × ForkStat))
    (forks : HashMap SenderType ProtoViewChange) : Option (List ProtoForkValidation) :=
  forkStats.mapM fun binding =>
    (forks.lookup binding.1).map fun vc =>
      { vcView := vc.view
        vcConfigNum := vc.configNum
        blockHashes := binding.2.blockHashes
        forkLastN := binding.2.forkLastN
        forkLastQc := binding.2.lastQc
        forkLastView := binding.2.lastView
        forkLastConfigNum := binding.2.lastConfigNum
        vcSig := vc.forkSig
        sender := binding.1.toNameAndSubId.1 }

/-- `prepare_for_rebroadcast`; both answers of the crypto service are unwrapped. -/
def prepareForRebroadcast (blocks : List HalfSerializedBlock) (minQcLen : Nat) :
    Option (List CachedBlock) :=
  blocks.mapM fun block =>
    match crypto.verifyBlockSer minQcLen block.serializedBody with
    | some (.ok cached, _) => some cached
    | _ => none

def sendBlocksToBroadcasterAndGetStats (staging : Staging) (vc : ProtoViewChange) :
    Option (Staging × ForkStat) :=
  match vc.fork, byzantineLivenessThreshold crypto.config with
  | some fork, some minQcLen =>
    match prepareForRebroadcast crypto fork.serializedBlocks minQcLen with
    | none => none
    | some cached =>
      let staging : Staging := { staging with
        blockBroadcasterCommandTx :=
          staging.blockBroadcasterCommandTx ++ [.nextAEForkPrefix cached] }
      let firstParent := match fork.serializedBlocks.head? with
        | none => some defaultHash
        | some first => getParentHashInProtoBlockSer first.serializedBody
      firstParent.map fun parent =>
        (staging,
          { blockHashes := cached.map (·.blockHash)
            forkLastN := (fork.serializedBlocks.getLast?.map (·.n)).getD 0
            firstN := (fork.serializedBlocks.head?.map (·.n)).getD 0
            firstParent := parent
            lastQc := vc.forkLastQc
            lastView := (fork.serializedBlocks.getLast?.map (·.view)).getD 0
            lastConfigNum := (fork.serializedBlocks.getLast?.map (·.configNum)).getD 0 })
  | _, _ => none

/-- The chosen fork is the first applicable one in iteration order. -/
def applyForkChoiceRule (staging : Staging) (forks : HashMap SenderType ProtoViewChange) :
    Option (Staging × ForkStat × List ProtoForkValidation) := do
  let forkStats ← vcToStats crypto.primitives forks
  let forkValidation ← statsToValidation forkStats forks
  let applicable ← forkChoiceFilter crypto.config.features forkStats
    (fastPathSelectionThreshold crypto.config)
  let chosen ← applicable.head?
  let vc ← forks.lookup chosen
  let (staging, stat) ← sendBlocksToBroadcasterAndGetStats crypto staging vc
  pure (staging, stat, forkValidation)

/-- Invariant `<ByzCommit>`: the chosen fork contains, or continues from, what
is byzantine committed. The result is the highest number to retain in
`pending_blocks`; `none` fails the caller's `expect`. -/
def checkByzCommitInvariant (staging : Staging) (chosenFork : ForkStat) : Option Nat :=
  if staging.bci = 0 then some 0
  else
    match staging.currParentForPending with
    | none => none
    | some currParent =>
      if chosenFork.forkLastN = 0 then
        some ((staging.pendingBlocks.getLast?.map (·.n)).getD staging.bci)
      else if chosenFork.firstN ≤ staging.bci then
        if chosenFork.blockHashes.any (· == currParent.blockHash) then some staging.bci else none
      else if chosenFork.firstN = staging.bci + 1 then
        if currParent.blockHash = chosenFork.firstParent then some staging.bci else none
      else
        let findN := chosenFork.firstN - 1
        if staging.pendingBlocks.any fun entry =>
            entry.n == findN && entry.block.blockHash == chosenFork.firstParent then
          some findN
        else none

/-- Keep what the chosen fork continues from. Only the application learns of a
rollback here. -/
def truncateForNewView (staging : Staging) (retainN : Nat) : Staging :=
  let staging : Staging := { staging with
    pendingBlocks := staging.pendingBlocks.filter fun entry => decide (entry.n ≤ retainN) }
  if retainN < staging.ci then
    { staging with ci := retainN, appTx := staging.appTx ++ [.rollback retainN] }
  else staging

/-- The parent handed to the sequencer for the new-view block. -/
def newParentHash (staging : Staging) (chosenFork : ForkStat) : HashType :=
  match chosenFork.blockHashes.getLast? with
  | some hash => hash
  | none =>
    match staging.pendingBlocks.getLast? with
    | some last => last.block.blockHash
    | none =>
      match staging.currParentForPending with
      | some parent => parent.blockHash
      | none => defaultHash

def proposeNewView (staging : Staging) (viewNum configNum : Nat)
    (forks : HashMap SenderType ProtoViewChange) : Option Staging :=
  if viewNum ≠ staging.view ∨ configNum ≠ staging.configNum then some staging
  else if staging.viewIsStable || !iAmLeader crypto.config staging then some staging
  else
    match applyForkChoiceRule crypto staging forks with
    | none => none
    | some (staging, chosenFork, forkValidation) =>
      match checkByzCommitInvariant staging chosenFork with
      | none => none
      | some retainN =>
        let staging := truncateForNewView staging retainN
        some { staging with
          blockSequencerCommandTx := staging.blockSequencerCommandTx ++
            [.newViewMessage staging.view staging.configNum forkValidation
              (newParentHash staging chosenFork) chosenFork.forkLastN] }

/-- `process_view_change_message`; other commands are `unreachable!`. -/
def processViewChangeMessage (staging : Staging) : PacemakerCommand → Option Staging
  | .updateView viewNum configNum => maybeUpdateView crypto staging viewNum configNum
  | .newViewForks viewNum configNum forks => proposeNewView crypto staging viewNum configNum forks
  | _ => none

end PirateShip.Staging
