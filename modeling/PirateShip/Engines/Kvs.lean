import PirateShip.Utils.Serialize

/-! The key-value engine. A map whose values are never empty lists is a
function that gives the empty list for an absent key. An `i64` is its bit
pattern, a number below `2 ^ 64`; `none` is a panic. -/

set_option autoImplicit false

namespace PirateShip

structure KVSState where
  ciState : Bytes → List (Nat × Bytes)
  bciState : Bytes → Option Bytes

structure KVSAppEngine where
  lastCi : Nat := 0
  lastBci : Nat := 0
  state : KVSState := { ciState := fun _ => [], bciState := fun _ => none }

namespace KVSState

variable {state : KVSState} {key : Bytes}

/-- The last version that is crash committed, else the byzantine committed value. -/
def read (state : KVSState) (key : Bytes) : Option Bytes :=
  match (state.ciState key).getLast? with
  | some version => some version.2
  | none => state.bciState key

def push (state : KVSState) (n : Nat) (key val : Bytes) : KVSState :=
  { state with
    ciState := fun other =>
      if other = key then state.ciState other ++ [(n, val)] else state.ciState other }

theorem read_push (state : KVSState) (n : Nat) (key val other : Bytes) :
    (state.push n key val).read other = if other = key then some val else state.read other := by
  by_cases same : other = key
  · simp [read, push, same]
  · simp [read, push, same]

/-!
## Operations on crash commit
-/

def i64FromBeBytes (bytes : Bytes) : Option Nat :=
  if bytes.length = 8 then some (fromBeBytes bytes) else none

/-- The increment is read only if there are exactly two operands. -/
def incrVal : List Bytes → Nat
  | [_, incr] => (i64FromBeBytes incr).getD 1
  | _ => 1

def mustIncrement (counter : Nat) : List Bytes → Bool
  | [_, _, check] => (i64FromBeBytes check).all (counter == ·)
  | _ => true

/-- `[key, incr_val, check_val]`, the last two optional. A stored value that is
not a counter fails an `unwrap`. -/
def increment (state : KVSState) (n : Nat) (operands : List Bytes) (key : Bytes) :
    Option (KVSState × List ProtoTransactionOpResult) :=
  let counter := match state.read key with
    | none => some 0
    | some bytes => i64FromBeBytes bytes
  counter.map fun counter =>
    let counter := if mustIncrement counter operands then (counter + incrVal operands) % 2 ^ 64 else counter
    let val := toBeBytes counter
    (state.push n key val, [{ success := true, values := [val] }])

def CounterIs (state : KVSState) (key : Bytes) (counter : Nat) : Prop :=
  state.read key = none ∧ counter = 0 ∨ ∃ bytes, state.read key = some bytes ∧ i64FromBeBytes bytes = some counter

theorem of_increment {after n results} (incremented : state.increment n [key] key = some (after, results)) :
    ∃ counter, state.CounterIs key counter ∧ after = state.push n key (toBeBytes ((counter + 1) % 2 ^ 64)) ∧
      results = [{ success := true, values := [toBeBytes ((counter + 1) % 2 ^ 64)] }] := by
  obtain ⟨counter, found, same⟩ := Option.map_eq_some_iff.mp incremented
  obtain ⟨rfl, rfl⟩ := Prod.mk.inj same
  refine ⟨counter, ?_, rfl, rfl⟩
  split at found
  · exact .inl ⟨‹_›, (Option.some.inj found).symm⟩
  · exact .inr ⟨_, ‹_›, found⟩

theorem increment_of_counterIs {counter} (found : state.CounterIs key counter) (n) :
    state.increment n [key] key = some (state.push n key (toBeBytes ((counter + 1) % 2 ^ 64)),
      [{ success := true, values := [toBeBytes ((counter + 1) % 2 ^ 64)] }]) := by
  rcases found with ⟨absent, rfl⟩ | ⟨_, stored, decoded⟩
  · simp [increment, absent, mustIncrement, incrVal]
  · simp [increment, stored, decoded, mustIncrement, incrVal]

/-- `(key, swap_val, compare_val)` from the operands three by three. -/
def casOps : List Bytes → List (Bytes × Bytes × Bytes)
  | key :: swapVal :: compareVal :: rest => (key, swapVal, compareVal) :: casOps rest
  | _ => []

def cas (state : KVSState) (n : Nat) (operands : List Bytes) :
    KVSState × List ProtoTransactionOpResult :=
  let ops := casOps operands
  let readVals := ops.map fun op => (state.read op.1).getD []
  let mustOperate := (ops.zip readVals).all fun pair => pair.2 == pair.1.2.2
  (if mustOperate then ops.foldl (fun state op => state.push n op.1 op.2.1) state else state,
    [{ success := mustOperate, values := readVals }])

def crashCommitOp (n : Nat) (state : KVSState) (op : ProtoTransactionOp) :
    Option (KVSState × List ProtoTransactionOpResult) :=
  match ProtoTransactionOpType.fromI32 op.opType with
  | some .write =>
    match op.operands with
    | [key, val] => some (state.push n key val, [{ success := true, values := [] }])
    | _ => some (state, [])
  | some .read =>
    match op.operands with
    | [key] => some (state, (state.read key).toList.map fun value => { success := true, values := [value] })
    | _ => some (state, [])
  | some .increment =>
    match op.operands with
    | [key] | [key, _] | [key, _, _] => state.increment n op.operands key
    | _ => some (state, [])
  | some .cas =>
    if op.operands.length % 3 ≠ 0 then some (state, []) else some (state.cas n op.operands)
  | _ => some (state, [])

end KVSState

def commitEach {α β : Type} (commit : KVSState → α → Option (KVSState × β)) :
    KVSState → List α → Option (KVSState × List β)
  | state, [] => some (state, [])
  | state, item :: rest =>
    match commit state item with
    | none => none
    | some (state, result) => (commitEach commit state rest).map fun (state, results) =>
      (state, result :: results)

theorem commitEach_cons_eq_some {α β : Type} {commit : KVSState → α → Option (KVSState × β)} {state next : KVSState}
    {item : α} {rest : List α} {results : List β} :
    commitEach commit state (item :: rest) = some (next, results) ↔
      ∃ middle result more, commit state item = some (middle, result) ∧
        commitEach commit middle rest = some (next, more) ∧ result :: more = results := by
  rw [commitEach]
  cases commit state item with
  | none => simp
  | some pair =>
    obtain ⟨middle, result⟩ := pair
    simp

namespace KVSState

def crashCommitTx (n : Nat) (state : KVSState) (tx : ProtoTransaction) :
    Option (KVSState × ProtoTransactionResult) :=
  match tx.onCrashCommit with
  | none => some (state, { result := [] })
  | some phase => (commitEach (crashCommitOp n) state phase.ops).map fun (state, results) =>
    (state, { result := results.flatten })

def crashCommitBlock (state : KVSState) (block : CachedBlock) :
    Option (KVSState × List ProtoTransactionResult) :=
  commitEach (crashCommitTx block.block.n) state block.block.txList

def byzCommitBlock (state : KVSState) (block : CachedBlock) : KVSState :=
  (block.block.txList.flatMap fun tx => (tx.onByzantineCommit.map (·.ops)).getD []).foldl
    (fun state op =>
      match ProtoTransactionOpType.fromI32 op.opType, op.operands with
      | some .write, [key, val] =>
        { state with bciState := fun other => if other = key then some val else state.bciState other }
      | _, _ => state)
    state

/-- Move the versions up to `lastBci` over; the last of them is the value. -/
def settleUpTo (state : KVSState) (lastBci : Nat) : KVSState where
  ciState key := (state.ciState key).filter fun version => decide (lastBci < version.1)
  bciState key :=
    match ((state.ciState key).filter fun version => decide (version.1 ≤ lastBci)).getLast? with
    | some version => some version.2
    | none => state.bciState key

def cut (state : KVSState) (last : Nat) : KVSState :=
  { state with ciState := fun key => (state.ciState key).filter fun version => decide (version.1 ≤ last) }

end KVSState

namespace KVSAppEngine

def handleCrashCommit (engine : KVSAppEngine) (blocks : List CachedBlock) :
    Option (KVSAppEngine × List (List ProtoTransactionResult)) :=
  (commitEach KVSState.crashCommitBlock engine.state blocks).map fun (state, results) =>
    ({ engine with lastCi := (blocks.getLast?.map (·.block.n)).getD engine.lastCi, state }, results)

def handleByzCommit (engine : KVSAppEngine) (blocks : List CachedBlock) :
    KVSAppEngine × List (List ProtoByzResponse) :=
  let lastBci := (blocks.getLast?.map (·.block.n)).getD engine.lastBci
  let state := (blocks.foldl KVSState.byzCommitBlock engine.state).settleUpTo lastBci
  ({ engine with lastBci, state },
    blocks.map fun block => block.block.txList.zipIdx.map fun (_, txN) =>
      { blockN := block.block.n, txN, clientTag := 0 })

def handleRollback (engine : KVSAppEngine) (newLastBlock : Nat) : KVSAppEngine :=
  { engine with state := engine.state.cut newLastBlock }

def handleUnloggedRequest (engine : KVSAppEngine) (request : ProtoTransaction) :
    ProtoTransactionResult where
  result := ((request.onReceive.map (·.ops)).getD []).filterMap fun op =>
    match op.operands with
    | [key] => some <| match engine.state.read key with
      | some value => { success := true, values := [value] }
      | none => { success := false, values := [] }
    | _ => none

end KVSAppEngine

end PirateShip
