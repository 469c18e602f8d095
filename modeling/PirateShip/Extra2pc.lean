import PirateShip.ClientReply
import PirateShip.Config
import PirateShip.Utils.Serialize

/-! Replication of the raft meta data of Engraft, outside the consensus protocol: the
handler of one node, the nodes it talks to, and the links between them. A link
keeps its messages in order; storage, messages and replies may fail. `none` is a
panic of the handler. -/

set_option autoImplicit false

namespace PirateShip

/-- The message that a follower sends later is its vote. -/
inductive EngraftActionAfterFutureDone where
  | none
  | asLeader (name : String) (vote : ProtoVote)
  | asFollower (leader : String) (vote : ProtoVote)
  deriving DecidableEq, Repr

def EngraftActionAfterFutureDone.vote? : EngraftActionAfterFutureDone → Option ProtoVote
  | .none => Option.none
  | .asLeader _ vote => some vote
  | .asFollower _ vote => some vote

structure TwoPCCommand where
  key : String
  value : Bytes
  action : EngraftActionAfterFutureDone
  deriving DecidableEq, Repr

namespace TwoPCCommand

def raftMetaFile (vote : ProtoVote) : Bytes := toBeBytes vote.n ++ toBeBytes vote.view

def raftMeta (vote : ProtoVote) : TwoPCCommand := ⟨"raft_meta", raftMetaFile vote, .none⟩

/-- The vote itself waits for the second command only. -/
def logMeta (vote : ProtoVote) (action : EngraftActionAfterFutureDone) : TwoPCCommand :=
  ⟨"log_meta", vote.forkDigest, action⟩

end TwoPCCommand

namespace TwoPC

/-!
## Storage
-/

abbrev Store := Bytes → Option Bytes

/-- What comes back for a `put_raw`: the result of the storage engine, or nothing. -/
inductive StorageResult where
  | ok
  | error
  | closed
  deriving DecidableEq, Repr

structure PutOutcome where
  written : Bool
  result : StorageResult
  deriving DecidableEq, Repr

def putRaw (store : Store) (key val : Bytes) (outcome : PutOutcome) : Store :=
  if outcome.written then fun other => if other = key then some val else store other else store

/-- `if let Err(e) = ack.await`: only a closed channel is an `Err`, since the result
of the storage engine is inside the `Ok`. -/
def ackIsErr (outcome : PutOutcome) : Bool := outcome.result == .closed

def keyBytes (key : String) : Bytes := key.toUTF8.data.toList

/-!
## Messages
-/

/-- The two broadcasts: `Store` and `ConfirmStore`. -/
inductive Phase where
  | phase1
  | phase2
  deriving DecidableEq, Repr

/-- `Write` and `Custom`. -/
def Phase.opType : Phase → Int
  | .phase1 => 2
  | .phase2 => 9

structure PhaseMessage where
  clientTag : Nat
  phase : Phase
  key : String
  val : Bytes
  deriving DecidableEq, Repr

def PhaseMessage.tx (msg : PhaseMessage) : ProtoTransaction where
  onReceive := some
    { ops := [{ opType := msg.phase.opType, operands := [keyBytes msg.key, msg.val, List.replicate 1024 0] }] }
  onCrashCommit := none
  onByzantineCommit := none
  isReconfiguration := false
  is2pc := true

def phaseResult (success : Bool) : ProtoTransactionResult := { result := [{ success, values := [] }] }

/-- The receiver. `outcome` is that of a write, and `readable` says whether a read
gives the value that is stored. -/
def handlePhaseMessage (store : Store) (tx : ProtoTransaction) (outcome : PutOutcome) (readable : Bool) :
    Store × ProtoTransactionResult :=
  if !tx.is2pc then (store, phaseResult false)
  else
    match (tx.onReceive.map (·.ops)).getD [] with
    | [] => (store, phaseResult false)
    | op :: _ =>
      match op.operands with
      | key :: val :: _ =>
        if (String.fromUTF8? ⟨key.toArray⟩).isNone then (store, phaseResult false)
        else
          match ProtoTransactionOpType.fromI32 op.opType with
          | some .write => (putRaw store key val outcome, phaseResult !ackIsErr outcome)
          | some .custom => (store, phaseResult (readable && store key == some val))
          | _ => (store, phaseResult false)
      | _ => (store, phaseResult false)

/-- The result of an unlogged request, as the client sees it. -/
def replyWith (clientTag : Nat) (results : ProtoTransactionResult) : ProtoClientReply where
  reply := .receipt
    { reqDigest := []
      blockN := 0
      txN := 0
      results := some results
      awaitByzResponse := false
      byzResponses := [] }
  clientTag

def succeeded : Reply → Bool
  | .receipt receipt => ((receipt.results.map (·.result)).getD []).head?.any (·.success)
  | _ => false

/-- A reply that does not decode is `none`. -/
def isSuccessAck (clientTagCounter : Nat) (reply : Option ProtoClientReply) : Bool :=
  reply.any fun payload => payload.clientTag == clientTagCounter && succeeded payload.reply

/-!
## The handler
-/

/-- A command between two broadcasts, with the nodes that have not replied and the
replies so far. -/
structure Running where
  cmd : TwoPCCommand
  index : Nat
  phase : Phase
  waiting : List String
  replies : List (String × Option ProtoClientReply)

def storedValue (index : Nat) (value : Bytes) : Bytes := toBeBytes index ++ value

/-- What is sent to the staging stage is the action of the command. -/
structure Release where
  cmd : TwoPCCommand
  index : Nat
  deriving DecidableEq, Repr

end TwoPC

open TwoPC in
structure TwoPC where
  localIndexCounter : HashMap String Nat := ∅
  clientTagCounter : Nat := 0
  commandRx : List TwoPCCommand := []
  running : Option Running := none
  stagingTx : List Release := []
  stores : String → Store := fun _ _ => none
  links : String → List PhaseMessage := fun _ => []
  replies : String → List (Option ProtoClientReply) := fun _ => []

namespace TwoPC

variable (config : Config)

def sendList : List String := config.consensusConfig.nodeList.filter fun name => name ≠ config.netConfig.name

def majority : Nat := config.consensusConfig.nodeList.length / 2 + 1

def finalKeyName (key : String) : String := config.netConfig.name ++ ":" ++ key

/-- `generic_phase` up to the broadcast. It asserts that there are enough nodes, and
a channel cannot have room for no reply. -/
def broadcast (system : TwoPC) (cmd : TwoPCCommand) (index : Nat) (phase : Phase) : Option TwoPC :=
  let quorum := majority config - 1
  if (sendList config).length < quorum ∨ quorum = 0 then none
  else
    let clientTag := system.clientTagCounter + 1
    let msg : PhaseMessage := ⟨clientTag, phase, finalKeyName config cmd.key, storedValue index cmd.value⟩
    some
      { system with
        clientTagCounter := clientTag
        links := fun node => system.links node ++ List.replicate ((sendList config).count node) msg
        running := some { cmd, index, phase, waiting := sendList config, replies := [] } }

/-- `handle_command` up to its first broadcast. -/
def takeCommand (system : TwoPC) (outcome : PutOutcome) : Option TwoPC :=
  match system.running, system.commandRx with
  | none, cmd :: rest =>
    let index := (system.localIndexCounter.lookup cmd.key).getD 0 + 1
    let me := config.netConfig.name
    let key := keyBytes (finalKeyName config cmd.key)
    let system : TwoPC :=
      { system with
        localIndexCounter := system.localIndexCounter.insert cmd.key index
        commandRx := rest
        stores := fun node =>
          if node = me then putRaw (system.stores me) key (storedValue index cmd.value) outcome
          else system.stores node }
    if ackIsErr outcome then some system else system.broadcast config cmd index .phase1
  | _, _ => none

/-- The end of `generic_phase` and what `handle_command` does then. The node counts
itself. -/
def finishPhase (system : TwoPC) : Option TwoPC :=
  match system.running with
  | none => none
  | some running =>
    let successAcks := running.replies.countP (fun reply => isSuccessAck system.clientTagCounter reply.2) + 1
    if majority config ≤ successAcks then
      match running.phase with
      | .phase1 => system.broadcast config running.cmd running.index .phase2
      | .phase2 => some
        { system with
          running := none
          stagingTx := system.stagingTx ++ [⟨running.cmd, running.index⟩] }
    else system.broadcast config running.cmd running.index running.phase

/-- Only as many replies as are needed are looked at. -/
def receiveReply (system : TwoPC) (node : String) : Option TwoPC :=
  match system.running, system.replies node with
  | some running, reply :: rest =>
    if node ∈ running.waiting then some
      { system with
        replies := fun other => if other = node then rest else system.replies other
        running := some { running with
          waiting := running.waiting.erase node
          replies :=
            if running.replies.length < majority config - 1 then running.replies ++ [(node, reply)]
            else running.replies } }
    else none
  | _, _ => none

/-!
## Everything that happens
-/

inductive Event where
  | vote (vote : ProtoVote) (action : EngraftActionAfterFutureDone)
  | command (key : String) (value : Bytes)
  | takeCommand (outcome : PutOutcome)
  | deliver (node : String) (outcome : PutOutcome) (readable : Bool)
  | refuse (node : String) (reply : Option ProtoClientReply)
  | loseMessage (node : String)
  | receiveReply (node : String)
  | loseReply (node : String)
  | finishPhase
  | otherPut (node : String) (key val : Bytes)

def setLink (system : TwoPC) (node : String) (msgs : List PhaseMessage) : TwoPC :=
  { system with links := fun other => if other = node then msgs else system.links other }

def addReply (system : TwoPC) (node : String) (reply : Option ProtoClientReply) : TwoPC :=
  { system with replies := fun other => if other = node then system.replies other ++ [reply] else system.replies other }

/-- A vote is the second of two commands that the staging stage sends together; no
other command carries one. Others write to the stores under other keys. -/
def step (system : TwoPC) : Event → Option TwoPC
  | .vote vote action =>
    if action.vote? = some vote then some
      { system with commandRx := system.commandRx ++ [.raftMeta vote, .logMeta vote action] }
    else none
  | .command key value => some { system with commandRx := system.commandRx ++ [⟨key, value, .none⟩] }
  | .takeCommand outcome => system.takeCommand config outcome
  | .deliver node outcome readable =>
    match system.links node with
    | [] => none
    | msg :: rest =>
      let (store, results) := handlePhaseMessage (system.stores node) msg.tx outcome readable
      some (addReply
        { system.setLink node rest with stores := fun other => if other = node then store else system.stores other }
        node (some (replyWith msg.clientTag results)))
  | .refuse node reply =>
    match system.links node with
    | [] => none
    | _ :: rest =>
      if reply.any fun payload => succeeded payload.reply then none
      else some ((system.setLink node rest).addReply node reply)
  | .loseMessage node =>
    match system.links node with
    | [] => none
    | _ :: rest => some (system.setLink node rest)
  | .receiveReply node => system.receiveReply config node
  | .loseReply node =>
    match system.replies node with
    | [] => none
    | _ :: rest => some
      { system with replies := fun other => if other = node then rest else system.replies other }
  | .finishPhase => system.finishPhase config
  | .otherPut node key val =>
    if (keyBytes (config.netConfig.name ++ ":")).isPrefixOf key then none
    else some
      { system with
        stores := fun other =>
          if other = node then putRaw (system.stores node) key val ⟨true, .ok⟩ else system.stores other }

end TwoPC

end PirateShip
