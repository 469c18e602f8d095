import PirateShip.BlockBroadcaster
import PirateShip.LogServer

/-! The fork receiver: it checks what other nodes append, asks for what is
missing, and forwards the rest part by part. A future hash is the hash, or
`none` if the crypto service refused the block. An outer `none` is a panic. -/

set_option autoImplicit false

namespace PirateShip

structure ForkReceiver where
  view : Nat := 0
  configNum : Nat := 0
  multipartBuffer : List (List HalfSerializedBlock × AppendEntriesStats) := []
  blockedOnMultipart : Bool := false
  lastAeView : Nat := 0
  lastAeBlockHash : Option HashType := none
  waitingOnNackReply : Bool := false
  broadcasterTx : List MultipartFork := []
  client : List (String × ProtoPayload) := []

namespace ForkReceiver

def new (config : Config) : ForkReceiver :=
  if config.features.viewChange then {} else { view := 1, configNum := 1 }

variable (crypto : CryptoService) (store : BlockStore)

def byzantineLivenessThreshold (config : Config) : Nat :=
  let n := config.consensusConfig.nodeList.length
  if config.features.platforms then wrappingSub n config.consensusConfig.livenessU
  else n - n / 3

/-- `prepare_fork` and the futures it returns. -/
def prepareFork (part : List HalfSerializedBlock) (minQcLen : Nat) :
    Option (List (Except String CachedBlock) × Option HashType) :=
  (part.mapM fun block => crypto.verifyBlockSer minQcLen block.serializedBody).map fun answers =>
    (answers.map (·.1), answers.getLast?.bind fun answer => answer.2.toOption)

/-- Hand a part to the broadcaster; a part without blocks has no hash to wait for. -/
def forwardPart (receiver : ForkReceiver) (part : List HalfSerializedBlock) (remainingParts : Nat)
    (aeStats : AppendEntriesStats) : Option ForkReceiver :=
  if part = [] then none
  else (prepareFork crypto part (byzantineLivenessThreshold crypto.config)).map fun (blocks, lastHash) =>
    { receiver with
      broadcasterTx := receiver.broadcasterTx ++ [{ blocks, remainingParts, aeStats }]
      lastAeBlockHash := lastHash }

def sendNack (receiver : ForkReceiver) (server : LogServer) (sender : String) (ae : ProtoAppendEntries) :
    Option (ForkReceiver × LogServer) :=
  let firstBlockN := match ae.fork with
    | none => some ae.commitIndex
    | some fork => fork.serializedBlocks.head?.map (·.n)
  match firstBlockN with
  | none => none
  | some firstBlockN =>
    let lastIndexNeeded := if 100 < firstBlockN then firstBlockN - 100 else 0
    (server.getHints store lastIndexNeeded).map fun (hints, server) =>
      ({ receiver with
          waitingOnNackReply := true
          client := receiver.client ++ [(sender, ProtoPayload.backfillNack
            { origin := some (.ae ae), hints, lastIndexNeeded, replyName := crypto.config.netConfig.name })] },
        server)

/-- The fork continues from what was forwarded last, or from a block in the log server. -/
def ensureCommonPrefix (receiver : ForkReceiver) (server : LogServer) (ae : ProtoAppendEntries) :
    Option (Bool × LogServer) :=
  match ae.fork with
  | none => none
  | some fork =>
    match fork.serializedBlocks.head? with
    | none => some (true, server)
    | some first =>
      match getParentHashInProtoBlockSer first.serializedBody with
      | none => none
      | some parentHash =>
        if receiver.lastAeBlockHash = some parentHash then some (true, server)
        else server.checkHash store (wrappingPred first.n) parentHash

/-- The first block of each new view has to be an unstable one; the view reached
at the end, or `none`. -/
def viewsChecked : Nat → List HalfSerializedBlock → Option Nat
  | testView, [] => some testView
  | testView, block :: rest =>
    if testView < block.view then
      if block.viewIsStable then none else viewsChecked block.view rest
    else viewsChecked testView rest

/-- Cut behind the first block of each new configuration, which has to be an
unstable one. -/
def splitParts : Nat → List HalfSerializedBlock → List HalfSerializedBlock →
    Option (List (List HalfSerializedBlock))
  | _, part, [] => some (if part = [] then [] else [part])
  | currConfig, part, block :: rest =>
    if block.configNum = currConfig then splitParts currConfig (part ++ [block]) rest
    else if block.viewIsStable then none
    else (splitParts block.configNum [] rest).map fun parts => (part ++ [block]) :: parts

def statsOf (ae : ProtoAppendEntries) (sender : String) : AppendEntriesStats where
  view := ae.view
  viewIsStable := ae.viewIsStable
  configNum := ae.configNum
  sender
  ci := ae.commitIndex

/-- The parts after the first wait for the staging stage. -/
def forwardFork (receiver : ForkReceiver) (ae : ProtoAppendEntries) (sender : String)
    (blocks : List HalfSerializedBlock) : Option ForkReceiver :=
  let receiver := { receiver with waitingOnNackReply := false }
  match splitParts receiver.configNum [] blocks with
  | none => some receiver
  | some [] => some receiver
  | some (first :: rest) =>
    (receiver.forwardPart crypto first rest.length (statsOf ae sender)).bind fun receiver =>
      if rest = [] then some receiver
      -- The assertion of the invariant on `blocked_on_multipart`.
      else if receiver.multipartBuffer ≠ [] then none
      else some { receiver with
        multipartBuffer := rest.map fun part => (part, statsOf ae sender)
        blockedOnMultipart := true }

def processFork (receiver : ForkReceiver) (server : LogServer) (ae : ProtoAppendEntries)
    (sender : String) : Option (ForkReceiver × LogServer) :=
  if ae.view < receiver.view ∨ ae.configNum < receiver.configNum then some (receiver, server)
  else if ae.configNum = receiver.configNum ∧ crypto.config.getLeaderForView ae.view ≠ sender then
    some (receiver, server)
  else
    match receiver.ensureCommonPrefix store server ae with
    | none => none
    | some (false, server) => receiver.sendNack crypto store server sender ae
    | some (true, server) =>
      match ae.fork with
      | none => some (receiver, server)
      | some fork =>
        match viewsChecked receiver.view fork.serializedBlocks with
        | none => receiver.sendNack crypto store server sender ae
        | some testView =>
          if testView < ae.view then receiver.sendNack crypto store server sender ae
          else (receiver.forwardFork crypto ae sender fork.serializedBlocks).map (·, server)

def handleUpdateView (receiver : ForkReceiver) (view configNum : Nat) : Option ForkReceiver :=
  let updating := decide (receiver.configNum < configNum)
  let receiver : ForkReceiver :=
    if receiver.view ≠ view then { receiver with lastAeView := view, lastAeBlockHash := none }
    else receiver
  let receiver : ForkReceiver := { receiver with view, configNum }
  let forwarded := match updating, receiver.multipartBuffer with
    | true, (part, aeStats) :: rest =>
      let receiver : ForkReceiver := { receiver with multipartBuffer := rest }
      -- The last part has to come from the leader of the view.
      if rest ≠ [] ∨ crypto.config.getLeaderForView view = aeStats.sender then
        receiver.forwardPart crypto part rest.length aeStats
      else some receiver
    | _, _ => some receiver
  forwarded.map fun receiver =>
    { receiver with blockedOnMultipart := receiver.blockedOnMultipart && !receiver.multipartBuffer.isEmpty }

def handleCommand (receiver : ForkReceiver) (server : LogServer) :
    ForkReceiverCommand → Option (ForkReceiver × LogServer)
  | .updateView view configNum => (receiver.handleUpdateView crypto view configNum).map (·, server)
  | .multipartNack parts =>
    if parts ≠ receiver.multipartBuffer.length then none
    else some ({ receiver with multipartBuffer := [], blockedOnMultipart := false }, server)
  | .useBackfillResponse ae sender => receiver.processFork crypto store server ae sender.toNameAndSubId.1

end ForkReceiver

end PirateShip
