import Mathlib.Data.List.Pairwise
import PirateShip.Config
import PirateShip.Engines.Kvs

/-! The application stage: it hands commits and rollbacks of staging to the
engine and the results to the client reply stage. `none` is a panic. -/

set_option autoImplicit false

namespace PirateShip

/-!
## Engines
-/

/-- The trait `AppEngine`. -/
class AppEngine (Engine : Type) where
  new : Engine
  handleCrashCommit : Engine → List CachedBlock → Option (Engine × List (List ProtoTransactionResult))
  handleByzCommit : Engine → List CachedBlock → Engine × List (List ProtoByzResponse)
  handleRollback : Engine → Nat → Engine
  handleUnloggedRequest : Engine → ProtoTransaction → ProtoTransactionResult

instance : AppEngine KVSAppEngine where
  new := {}
  handleCrashCommit := KVSAppEngine.handleCrashCommit
  handleByzCommit := KVSAppEngine.handleByzCommit
  handleRollback := KVSAppEngine.handleRollback
  handleUnloggedRequest := KVSAppEngine.handleUnloggedRequest

structure NullApp where
  deriving DecidableEq, Repr

namespace NullApp

def phaseResult (phase : Option ProtoTransactionPhase) : ProtoTransactionResult where
  result := ((phase.map (·.ops)).getD []).map fun _ => { success := true, values := [] }

def handleCrashCommit (engine : NullApp) (blocks : List CachedBlock) :
    Option (NullApp × List (List ProtoTransactionResult)) :=
  some (engine, blocks.map fun block => block.block.txList.map fun tx => phaseResult tx.onCrashCommit)

def handleByzCommit (engine : NullApp) (blocks : List CachedBlock) : NullApp × List (List ProtoByzResponse) :=
  (engine, blocks.map fun block => block.block.txList.zipIdx.map fun (_, txN) =>
    { blockN := block.block.n, txN, clientTag := 0 })

def handleRollback (engine : NullApp) (_ : Nat) : NullApp := engine

def handleUnloggedRequest (_ : NullApp) (request : ProtoTransaction) : ProtoTransactionResult :=
  phaseResult request.onReceive

end NullApp

instance : AppEngine NullApp where
  new := {}
  handleCrashCommit := NullApp.handleCrashCommit
  handleByzCommit := NullApp.handleByzCommit
  handleRollback := NullApp.handleRollback
  handleUnloggedRequest := NullApp.handleUnloggedRequest

/-!
## The stage
-/

structure LogStats where
  ci : Nat := 0
  bci : Nat := 0
  view : Nat := 0
  iAmLeader : Bool := false
  viewIsStable : Bool := false
  lastN : Nat := 0
  lastQc : Nat := 0
  lastHash : HashType := defaultHash
  totalRequests : Nat := 0
  totalCrashCommittedTxs : Nat := 0
  totalByzCommittedTxs : Nat := 0
  totalUnloggedTxs : Nat := 0

/-- Without view changes a node starts in a stable view 1. -/
def LogStats.new (features : Features) : LogStats :=
  if features.viewChange then {} else { view := 1, viewIsStable := true }

structure Application (Engine : Type) where
  engine : Engine
  stats : LogStats := {}
  clientReplyTx : List ClientReplyCommand := []
  gcTx : List Nat := []
  unloggedResults : List ProtoTransactionResult := []

namespace Application

variable {Engine : Type} [AppEngine Engine]

def new (features : Features) : Application Engine := { engine := AppEngine.new, stats := .new features }

/-- The highest number among blocks, starting from a known one. -/
def highestN (known : Nat) (blocks : List CachedBlock) : Nat :=
  blocks.foldl (fun highest block => if highest < block.block.n then block.block.n else highest) known

def highestQcN (known : Nat) (blocks : List CachedBlock) : Nat :=
  (blocks.flatMap (·.block.qc)).foldl (fun highest qc => if highest < qc.n then qc.n else highest) known

/-- The map from block hashes to numbers and results, in the order of the blocks. Of blocks with the
same hash the last one is in the map. -/
def resultMap {Result : Type} (blocks : List CachedBlock) (results : List Result) :
    List (HashType × Nat × Result) :=
  ((blocks.map (·.blockHash)).zip ((blocks.map (·.block.n)).zip results)).pwFilter fun ack later => ack.1 ≠ later.1

def handleNewRequestBatch (app : Application Engine) (n view : Nat) (viewIsStable iAmLeader : Bool)
    (length : Nat) (lastHash : HashType) : Application Engine :=
  { app with
    stats := { app.stats with
      lastN := n
      view
      viewIsStable
      iAmLeader
      lastHash
      totalRequests := app.stats.totalRequests + length } }

/-- The stage asserts that the engine gave results for every block. -/
def handleCrashCommit (app : Application Engine) (blocks : List CachedBlock) : Option (Application Engine) :=
  match AppEngine.handleCrashCommit app.engine blocks with
  | none => none
  | some (engine, results) =>
    if blocks.length ≠ results.length then none
    else
      some { app with
        engine
        stats := { app.stats with
          ci := highestN app.stats.ci blocks
          lastQc := highestQcN app.stats.lastQc blocks
          totalCrashCommittedTxs := app.stats.totalCrashCommittedTxs + (results.map (·.length)).sum }
        clientReplyTx := app.clientReplyTx ++ [.crashCommitAck (resultMap blocks results)] }

def handleByzCommit (app : Application Engine) (blocks : List CachedBlock) : Option (Application Engine) :=
  let (engine, results) := AppEngine.handleByzCommit app.engine blocks
  if blocks.length ≠ results.length then none
  else
    some { app with
      engine
      stats := { app.stats with
        bci := highestN app.stats.bci blocks
        totalByzCommittedTxs := app.stats.totalByzCommittedTxs + (results.map (·.length)).sum }
      clientReplyTx := app.clientReplyTx ++ [.byzCommitAck (resultMap blocks results)] }

/-- A rollback at or below the byzantine commit index keeps one block above it. -/
def rollbackTarget (app : Application Engine) (newLastBlock : Nat) : Nat :=
  if newLastBlock ≤ app.stats.bci then app.stats.bci + 1 else newLastBlock

def handleRollback (app : Application Engine) (newLastBlock : Nat) : Application Engine :=
  let newLastBlock := app.rollbackTarget newLastBlock
  { app with
    engine := AppEngine.handleRollback app.engine newLastBlock
    stats := { app.stats with
      ci := if newLastBlock < app.stats.ci then newLastBlock else app.stats.ci
      lastN := newLastBlock } }

def handleStagingCommand (app : Application Engine) : AppCommand → Option (Application Engine)
  | .newRequestBatch n view viewIsStable iAmLeader length lastHash =>
    some (app.handleNewRequestBatch n view viewIsStable iAmLeader length lastHash)
  | .crashCommit blocks => app.handleCrashCommit blocks
  | .byzCommit blocks => app.handleByzCommit blocks
  | .rollback newLastBlock => some (app.handleRollback newLastBlock)

def handleUnloggedRequest (app : Application Engine) (request : ProtoTransaction) : Application Engine :=
  { app with
    stats := { app.stats with
      totalRequests := app.stats.totalRequests + 1
      totalUnloggedTxs := app.stats.totalUnloggedTxs + 1 }
    unloggedResults := app.unloggedResults ++ [AppEngine.handleUnloggedRequest app.engine request] }

/-- Everything below the byzantine commit index may be collected. -/
def checkpoint (app : Application Engine) : Application Engine :=
  if 1 < app.stats.bci then { app with gcTx := app.gcTx ++ [app.stats.bci - 1] } else app

end Application

end PirateShip
