import Mathlib.Algebra.Group.Int.Defs
import PirateShip.Engines.Kvs

/-! The payments of the smallbank frontend. A request is between two of the
points where `sendpayment` waits for the reply to a transaction; a step executes
one transaction of one request on the engine, or a reply fails to arrive. -/

set_option autoImplicit false

namespace PirateShip.Smallbank

variable {value : Int}

/-- `i64::to_be_bytes`; a value out of range is wrapped, as its computation is. -/
def i64ToBeBytes (value : Int) : Bytes := toBeBytes (value % 2 ^ 64).toNat

def i64FromBeBytes (bytes : Bytes) : Option Int :=
  (KVSState.i64FromBeBytes bytes).map fun (pattern : Nat) => (pattern : Int).bmod (2 ^ 64)

theorem i64FromBeBytes_range {bytes} (decoded : i64FromBeBytes bytes = some value) :
    -2 ^ 63 ≤ value ∧ value < 2 ^ 63 := by
  obtain ⟨_, _, rfl⟩ := Option.map_eq_some_iff.mp decoded
  simp only [Int.bmod_def]
  split <;> constructor <;> omega

def checkingAccount (user : String) : Bytes := ("checking:" ++ user).toUTF8.data.toList

def savingsAccount (user : String) : Bytes := ("savings:" ++ user).toUTF8.data.toList

structure SendPayload where
  senderAccount : String
  receiverAccount : String
  sendAmount : Int
  deriving DecidableEq, Repr

inductive HttpResponse where
  | ok (message : String) (resclone : List Bytes) (sendAttempts : Nat) (sendThreshold : Int)
  | badRequest (body : String)
  | internalServerError (body : String)
  | notFound (message : String)
  | requestTimeout (body : String) (resclone : List Bytes)
  deriving DecidableEq, Repr

/-!
## Transactions
-/

/-- What comes back for a transaction. Of a receipt only the results and the
block number are looked at. -/
inductive Answer where
  | closed
  | undecodable
  | receipt (results : Option ProtoTransactionResult) (blockN : Nat)
  | noReceipt
  deriving DecidableEq, Repr

/-- `send` up to its probe: the values read, and the block to probe for unless
`send` has returned already. -/
def receive : Answer → Except HttpResponse (List Bytes × Option Nat)
  | .closed => .error (.internalServerError "Error receiving response")
  | .undecodable => .error (.internalServerError "Error decoding response")
  | .receipt none blockN => .ok ([], some blockN)
  | .receipt (some txResult) blockN =>
    if txResult.result = [] then .ok ([], none)
    else if txResult.result.all (·.success) then .ok (txResult.result.flatMap (·.values), some blockN)
    else .ok ([], none)
  | .noReceipt => .error (.notFound "error, no Receipt found")

def readOp (account : Bytes) : ProtoTransactionOp := { opType := 1, operands := [account] }

def getBalancesTx (payload : SendPayload) : ProtoTransaction where
  onReceive := some
    { ops := [readOp (checkingAccount payload.senderAccount), readOp (checkingAccount payload.receiverAccount)] }
  onCrashCommit := none
  onByzantineCommit := none
  isReconfiguration := false
  is2pc := false

def creditOp (payload : SendPayload) (senderBalance receiverBalance : Int) : ProtoTransactionOp where
  opType := 4
  operands :=
    [checkingAccount payload.receiverAccount, i64ToBeBytes (receiverBalance + payload.sendAmount),
      i64ToBeBytes receiverBalance,
      checkingAccount payload.senderAccount, i64ToBeBytes (senderBalance - payload.sendAmount),
      i64ToBeBytes senderBalance]

def creditTx (payload : SendPayload) (senderBalance receiverBalance : Int) : ProtoTransaction where
  onReceive := none
  onCrashCommit := some { ops := [creditOp payload senderBalance receiverBalance] }
  onByzantineCommit := none
  isReconfiguration := false
  is2pc := false

/-!
## One request
-/

structure Attempts where
  sendAttempts : Nat
  resclone : List Bytes
  deriving DecidableEq, Repr

/-- `abandoned` has answered its client, but the swap it issued may still be
executed. -/
inductive Phase where
  | reading (attempts : Attempts)
  | swapping (attempts : Attempts) (senderBalance receiverBalance : Int)
  | probing (attempts : Attempts) (result : List Bytes)
  | abandoned (senderBalance receiverBalance : Int) (response : HttpResponse)
  | answered (response : HttpResponse)
  deriving DecidableEq, Repr

def sendpayment (payload : SendPayload) : Phase :=
  if payload.sendAmount ≤ 0 then .answered (.badRequest "Send a positive value")
  else .reading { sendAttempts := 1, resclone := [] }

def afterRead (payload : SendPayload) (attempts : Attempts) : List Bytes → Phase
  | [sender, receiver] =>
    match i64FromBeBytes sender, i64FromBeBytes receiver with
    | some senderBalance, some receiverBalance =>
      if senderBalance < payload.sendAmount then
        .answered (.badRequest "Sender's Account does not have enough money")
      else .swapping attempts senderBalance receiverBalance
    | _, _ => .answered (.badRequest "Expected 8 bytes for an i64")
  | _ => .answered (.internalServerError "Sender/Reciever Account does not exist")

def onRead (payload : SendPayload) (attempts : Attempts) (answer : Answer) : Phase :=
  match receive answer with
  | .error response => .answered response
  | .ok (result, _) => afterRead payload attempts result

/-- From the result of the swap to the answer, or to the next attempt. -/
def afterSwap (sendThreshold : Int) (payload : SendPayload) (attempts : Attempts) (result : List Bytes) : Phase :=
  if result.length = 2 then
    .answered (.ok ("sent $" ++ toString payload.sendAmount ++ " successfully from " ++
      payload.senderAccount ++ " to " ++ payload.receiverAccount)
      attempts.resclone attempts.sendAttempts sendThreshold)
  else if attempts.sendAttempts = 20 then .answered (.requestTimeout "retried CAS too many times: " result)
  else .reading { sendAttempts := attempts.sendAttempts + 1, resclone := result }

/-- From the threshold on, a swap that went through is answered after a probe of
its block. -/
def onSwap (sendThreshold : Int) (payload : SendPayload) (attempts : Attempts) (answer : Answer) : Phase :=
  match receive answer with
  | .error response => .answered response
  | .ok (result, blockN) =>
    if blockN.any (· ≠ 0) ∧ sendThreshold ≤ payload.sendAmount then .probing attempts result
    else afterSwap sendThreshold payload attempts result

/-!
## All requests
-/

structure Request where
  payload : SendPayload
  phase : Phase
  deriving DecidableEq, Repr

/-- `moved` lists the requests whose swap went through, and is read by nothing. -/
structure Bank where
  engine : KVSAppEngine
  requests : List Request
  moved : List Nat := []

/-- A step of request `i`. `lose` is a reply without a receipt. -/
inductive Event where
  | read (i : Nat)
  | swap (i blockN : Nat)
  | probe (i : Nat)
  | lose (i : Nat) (answer : Answer)
  deriving DecidableEq, Repr

namespace Bank

def setPhase (bank : Bank) (i : Nat) (payload : SendPayload) (phase : Phase) : Bank :=
  { bank with requests := bank.requests.set i { payload, phase } }

/-- The swap of request `i` is executed in block `blockN`; `next` is what the
request makes of the receipt. -/
def swap (bank : Bank) (i blockN : Nat) (payload : SendPayload) (senderBalance receiverBalance : Int)
    (next : Answer → Phase) : Option Bank :=
  (bank.engine.state.crashCommitTx blockN (creditTx payload senderBalance receiverBalance)).map
    fun (state, txResult) =>
      { engine := { bank.engine with state }
        requests := bank.requests.set i { payload, phase := next (.receipt (some txResult) blockN) }
        moved := if txResult.result.all (·.success) then bank.moved ++ [i] else bank.moved }

def step (sendThreshold : Int) (bank : Bank) : Event → Option Bank
  | .read i =>
    match bank.requests[i]? with
    | some ⟨payload, .reading attempts⟩ =>
      some (bank.setPhase i payload (onRead payload attempts
        (.receipt (some (bank.engine.handleUnloggedRequest (getBalancesTx payload))) 0)))
    | _ => none
  | .swap i blockN =>
    match bank.requests[i]? with
    | some ⟨payload, .swapping attempts senderBalance receiverBalance⟩ =>
      bank.swap i blockN payload senderBalance receiverBalance (onSwap sendThreshold payload attempts)
    | some ⟨payload, .abandoned senderBalance receiverBalance response⟩ =>
      bank.swap i blockN payload senderBalance receiverBalance fun _ => .answered response
    | _ => none
  | .probe i =>
    match bank.requests[i]? with
    | some ⟨payload, .probing attempts result⟩ =>
      some (bank.setPhase i payload (afterSwap sendThreshold payload attempts result))
    | _ => none
  | .lose i answer =>
    match bank.requests[i]?, receive answer with
    | some ⟨payload, .reading _⟩, .error response => some (bank.setPhase i payload (.answered response))
    | some ⟨payload, .swapping _ senderBalance receiverBalance⟩, .error response =>
      some (bank.setPhase i payload (.abandoned senderBalance receiverBalance response))
    | _, _ => none

end Bank

end PirateShip.Smallbank
