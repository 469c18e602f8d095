import PirateShip.Crypto.Service
import PirateShip.LogServer

/-! The pacemaker: it collects view-change messages, and tells the staging stage
when to change its view and which forks to choose from. An absent entry of the
buffer is the empty map. `none` is a panic. -/

set_option autoImplicit false

namespace PirateShip

structure Pacemaker where
  viewNum : Nat := 0
  configNum : Nat := 0
  lastViewNotified : Nat := 0
  lastNewViewedView : Nat := 0
  bci : Nat := 0
  vcBuffer : Nat × Nat → HashMap SenderType ProtoViewChange := fun _ => ∅
  stagingTx : List PacemakerCommand := []
  client : List (String × ProtoPayload) := []

namespace Pacemaker

def pacemakerViewUpdateThreshold (config : Config) : Nat :=
  let n := config.consensusConfig.nodeList.length
  if config.features.platforms then wrappingSub n (2 * config.consensusConfig.livenessU % 2 ^ 64)
  else n / 3 + 1

def newViewBcastThreshold (config : Config) : Nat :=
  let n := config.consensusConfig.nodeList.length
  if config.features.platforms then wrappingSub n config.consensusConfig.livenessU
  else n - n / 3

variable (config : Config) (store : BlockStore)

/-- The number and the hash that the fork continues from. -/
def forkParent (vc : ProtoViewChange) : Option (Nat × HashType) :=
  match vc.fork.bind fun fork => fork.serializedBlocks.head? with
  | none => some (0, [])
  | some first => (getParentHashInProtoBlockSer first.serializedBody).map (wrappingPred first.n, ·)

def sendNack (pacemaker : Pacemaker) (server : LogServer) (sender : SenderType) (vc : ProtoViewChange) :
    Option (Pacemaker × LogServer) :=
  (server.getHints store pacemaker.bci).map fun (hints, server) =>
    ({ pacemaker with
        client := pacemaker.client ++ [(sender.toNameAndSubId.1, ProtoPayload.backfillNack
          { origin := some (.vc vc), hints, lastIndexNeeded := pacemaker.bci
            replyName := config.netConfig.name })] },
      server)

/-- Buffer the message, and notify the staging stage at the two thresholds. -/
def bufferVc (pacemaker : Pacemaker) (sender : SenderType) (vc : ProtoViewChange) : Pacemaker :=
  let key := (vc.view, vc.configNum)
  let buffered := (pacemaker.vcBuffer key).insert sender vc
  let pacemaker : Pacemaker := { pacemaker with
    vcBuffer := fun other => if other = key then buffered else pacemaker.vcBuffer other }
  let pacemaker : Pacemaker :=
    if pacemakerViewUpdateThreshold config ≤ buffered.keys.length ∧
        pacemaker.lastViewNotified < vc.view then
      { pacemaker with
        stagingTx := pacemaker.stagingTx ++ [.updateView vc.view vc.configNum]
        lastViewNotified := vc.view }
    else pacemaker
  if newViewBcastThreshold config ≤ buffered.keys.length ∧ pacemaker.lastNewViewedView < vc.view then
    { pacemaker with
      vcBuffer := fun other => if other = key then ∅ else pacemaker.vcBuffer other
      stagingTx := pacemaker.stagingTx ++ [.newViewForks vc.view vc.configNum buffered]
      lastNewViewedView := vc.view }
  else pacemaker

def handleViewChange (pacemaker : Pacemaker) (server : LogServer) (vc : ProtoViewChange)
    (sender : SenderType) : Option (Pacemaker × LogServer) :=
  if vc.view < pacemaker.viewNum ∨ vc.configNum < pacemaker.configNum then some (pacemaker, server)
  else if vc.view ≤ pacemaker.lastNewViewedView then some (pacemaker, server)
  else
    match forkParent vc with
    | none => none
    | some (forkParentN, forkParentHash) =>
      match server.checkHash store forkParentN forkParentHash with
      | none => none
      | some (true, server) => some (pacemaker.bufferVc config sender vc, server)
      | some (false, server) =>
        if forkParentN ≤ pacemaker.bci then some (pacemaker, server)
        else pacemaker.sendNack config store server sender vc

def handleMyViewJump (pacemaker : Pacemaker) (server : LogServer) (viewNum configNum : Nat)
    (vc : ProtoViewChange) : Option (Pacemaker × LogServer) :=
  let pacemaker : Pacemaker := { pacemaker with
    vcBuffer := fun key =>
      if viewNum ≤ key.1 ∧ configNum ≤ key.2 then pacemaker.vcBuffer key else ∅ }
  pacemaker.handleViewChange config store server vc (.auth config.netConfig.name 0)

def handleStagingCommand (pacemaker : Pacemaker) (server : LogServer) :
    PacemakerCommand → Option (Pacemaker × LogServer)
  | .myViewJumped viewNum configNum vc => pacemaker.handleMyViewJump config store server viewNum configNum vc
  | .updateBCI bci => some ({ pacemaker with bci }, server)
  -- A query is answered and changes nothing; the other commands are ignored.
  | .queryEnoughVCMsg _ _ | .updateView _ _ | .newViewForks _ _ _ => some (pacemaker, server)

end Pacemaker

end PirateShip
