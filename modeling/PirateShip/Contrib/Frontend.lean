import PirateShip.Engines.Kvs
import PirateShip.Lib.Run

/-! What the frontends of the contributed services share. A request stands at a
point where its handler waits for the reply to a transaction, or has ended; a
step executes one transaction of one request on the engine, or a reply fails to
arrive. -/

set_option autoImplicit false

namespace PirateShip.Contrib

open StepSystem

/-!
## Transactions
-/

inductive SendError where
  | closed
  | undecodable
  | noReceipt
  deriving DecidableEq, Repr

def SendError.status : SendError → Nat
  | .closed | .undecodable => 500
  | .noReceipt => 404

def bytesOf (text : String) : Bytes := text.toUTF8.data.toList

theorem bytesOf_injective {first second} : bytesOf first = bytesOf second ↔ first = second := toUTF8_inj

def readOp (key : Bytes) : ProtoTransactionOp := { opType := 1, operands := [key] }

def writeOp (key val : Bytes) : ProtoTransactionOp := { opType := 2, operands := [key, val] }

def incrementOp (key : Bytes) : ProtoTransactionOp := { opType := 3, operands := [key] }

def casOp (key swapVal compareVal : Bytes) : ProtoTransactionOp :=
  { opType := 4, operands := [key, swapVal, compareVal] }

structure Transaction where
  transactionOps : List ProtoTransactionOp
  isRead : Bool

namespace Transaction

def proto (tx : Transaction) : ProtoTransaction where
  onReceive := if tx.isRead then some { ops := tx.transactionOps } else none
  onCrashCommit := if tx.isRead then none else some { ops := tx.transactionOps }
  onByzantineCommit := none
  isReconfiguration := false
  is2pc := false

/-- A read is answered from the state of the engine, a write when it is executed
in block `blockN`. -/
def run (tx : Transaction) (blockN : Nat) (engine : KVSAppEngine) :
    Option (KVSAppEngine × ProtoTransactionResult) :=
  if tx.isRead then some (engine, engine.handleUnloggedRequest tx.proto)
  else (engine.state.crashCommitTx blockN tx.proto).map fun (state, txResult) => ({ engine with state }, txResult)

end Transaction

def values (txResult : ProtoTransactionResult) : List Bytes := txResult.result.flatMap (·.values)

/-!
## All requests
-/

/-- A service. `pending` is the transaction a handler waits for, unless it has
ended, and `resume` its way on from the reply. The journal is read by nothing:
`executed` notes a transaction of request `i` with the state it meets, and
`arrived` the point the request then gets to. -/
structure Frontend (Phase Journal : Type) where
  pending : Phase → Option Transaction
  resume : Phase → Except SendError (List Bytes) → Phase
  executed : Journal → KVSState → Nat → Phase → Journal
  arrived : Journal → Nat → Phase → Journal

/-- `probing` has the reply to a write and waits for its block to be byzantine
committed, to go on at `next`. -/
inductive Task (Phase : Type) where
  | waiting (phase : Phase)
  | probing (next : Phase)
  deriving DecidableEq, Repr

namespace Task

def phase {Phase : Type} : Task Phase → Phase
  | .waiting phase => phase
  | .probing next => next

end Task

/-- `late` has the writes whose reply was lost; they may still be executed. -/
structure System (Phase Journal : Type) where
  engine : KVSAppEngine := {}
  tasks : List (Task Phase)
  late : List (Nat × Phase) := []
  journal : Journal

/-- `probe` is the value of `probe_for_byz_commit`; `late k` executes a write that
nothing waits for. -/
inductive Event where
  | reply (i blockN : Nat) (probe : Bool)
  | probed (i : Nat)
  | lose (i : Nat) (error : SendError)
  | late (k blockN : Nat)
  deriving DecidableEq, Repr

namespace Frontend

variable {Phase Journal : Type} (frontend : Frontend Phase Journal)

def writes (phase : Phase) : Bool := (frontend.pending phase).any fun tx => !tx.isRead

def arrive (system : System Phase Journal) (i : Nat) (next : Phase) : System Phase Journal :=
  { system with
    tasks := system.tasks.set i (.waiting next)
    journal := frontend.arrived system.journal i next }

/-- The transaction that request `i` has sent at `phase` is executed. -/
def execute (system : System Phase Journal) (i blockN : Nat) (phase : Phase) :
    Option (System Phase Journal × ProtoTransactionResult) :=
  (frontend.pending phase).bind fun tx => (tx.run blockN system.engine).map fun (engine, txResult) =>
    ({ system with engine, journal := frontend.executed system.journal system.engine.state i phase }, txResult)

def step (system : System Phase Journal) : Event → Option (System Phase Journal)
  | .reply i blockN probe =>
    match system.tasks[i]? with
    | some (.waiting phase) =>
      (frontend.execute system i blockN phase).map fun (system, txResult) =>
        let next := frontend.resume phase (.ok (values txResult))
        if txResult.result ≠ [] ∧ frontend.writes phase ∧ blockN ≠ 0 ∧ probe then
          { system with tasks := system.tasks.set i (.probing next) }
        else frontend.arrive system i next
    | _ => none
  | .probed i =>
    match system.tasks[i]? with
    | some (.probing next) => some (frontend.arrive system i next)
    | _ => none
  | .lose i error =>
    match system.tasks[i]? with
    | some (.waiting phase) =>
      if (frontend.pending phase).isSome then
        some (frontend.arrive
          { system with late := if frontend.writes phase then system.late ++ [(i, phase)] else system.late }
          i (frontend.resume phase (.error error)))
      else none
    | _ => none
  | .late k blockN =>
    system.late[k]?.bind fun (i, phase) =>
      (frontend.execute { system with late := system.late.eraseIdx k } i blockN phase).map (·.1)

end Frontend

end PirateShip.Contrib
