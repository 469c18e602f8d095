import Mathlib.Data.Set.Lattice
import Mathlib.Order.CompletePartialOrder
import PirateShip.BatchProposal
import PirateShip.Engines.Kvs
import PirateShip.Lib.Run

/-! Requests that stop a replica. The batch proposer unwraps the transaction of a
request, and an increment unwraps the stored value as a counter of eight bytes, so it
depends on what any client stored under the key before. -/

set_option autoImplicit false

namespace PirateShip

open List StepSystem Option

/-!
## Keys and values of a transaction
-/

namespace ProtoTransactionOp

def incremented (op : ProtoTransactionOp) : List Bytes :=
  match ProtoTransactionOpType.fromI32 op.opType with
  | some .increment =>
    match op.operands with
    | [key] | [key, _] | [key, _, _] => [key]
    | _ => []
  | _ => []

/-- The values that an operation may store on crash commit, apart from counters. -/
def stored (op : ProtoTransactionOp) : List (Bytes × Bytes) :=
  match ProtoTransactionOpType.fromI32 op.opType with
  | some .write =>
    match op.operands with
    | [key, val] => [(key, val)]
    | _ => []
  | some .cas =>
    if op.operands.length % 3 ≠ 0 then [] else (KVSState.casOps op.operands).map fun op => (op.1, op.2.1)
  | _ => []

def byzStored (op : ProtoTransactionOp) : List (Bytes × Bytes) :=
  match ProtoTransactionOpType.fromI32 op.opType, op.operands with
  | some .write, [key, val] => [(key, val)]
  | _, _ => []

end ProtoTransactionOp

namespace ProtoTransaction

def crashOps (tx : ProtoTransaction) : List ProtoTransactionOp := (tx.onCrashCommit.map (·.ops)).getD []

def byzOps (tx : ProtoTransaction) : List ProtoTransactionOp := (tx.onByzantineCommit.map (·.ops)).getD []

/-- Increments name keys of `counters`, and values that are no counters go to keys of `raws`. -/
structure Within (counters raws : Set Bytes) (tx : ProtoTransaction) : Prop where
  incremented : ∀ op ∈ tx.crashOps, ∀ key ∈ op.incremented, key ∈ counters
  stored : ∀ op ∈ tx.crashOps, ∀ pair ∈ op.stored, pair.2.length ≠ 8 → pair.1 ∈ raws
  byzStored : ∀ op ∈ tx.byzOps, ∀ pair ∈ op.byzStored, pair.2.length ≠ 8 → pair.1 ∈ raws

end ProtoTransaction

/-!
## The engine
-/

namespace KVSState

variable {counters raws : Set Bytes} {state : KVSState} {n : Nat}
variable {key value : Bytes} {operands : List Bytes} {block : CachedBlock}

structure Counts (raws : Set Bytes) (state : KVSState) : Prop where
  ciState : ∀ key ∉ raws, ∀ version ∈ state.ciState key, version.2.length = 8
  bciState : ∀ key ∉ raws, ∀ value, state.bciState key = some value → value.length = 8

variable (counts : Counts raws state)
include counts

theorem Counts.read (isCounter : key ∉ raws) (found : state.read key = some value) : value.length = 8 := by
  unfold KVSState.read at found
  split at found
  · next version last =>
    obtain rfl := some.inj found
    exact counts.ciState key isCounter version (mem_of_getLast? last)
  · exact counts.bciState key isCounter value found

theorem Counts.push (fits : value.length ≠ 8 → key ∈ raws) : Counts raws (state.push n key value) where
  ciState other isCounter version member := by
    simp only [KVSState.push] at member
    split at member
    · next same =>
      cases mem_append.mp member with
      | inl earlier => exact counts.ciState other isCounter version earlier
      | inr last =>
        obtain rfl := mem_singleton.mp last
        by_contra long
        exact isCounter (same ▸ fits long)
    · exact counts.ciState other isCounter version member
  bciState := counts.bciState

theorem Counts.increment (isCounter : key ∉ raws) :
    ∃ after results, state.increment n operands key = some (after, results) ∧ Counts raws after := by
  unfold KVSState.increment
  cases found : state.read key with
  | none => exact ⟨_, _, rfl, counts.push fun long => absurd (length_toBeBytes _) long⟩
  | some value =>
    have isEight : i64FromBeBytes value = some (fromBeBytes value) := if_pos (counts.read isCounter found)
    simp only [isEight]
    exact ⟨_, _, rfl, counts.push fun long => absurd (length_toBeBytes _) long⟩

theorem Counts.pushAll {ops : List (Bytes × Bytes × Bytes)} (fits : ∀ op ∈ ops, op.2.1.length ≠ 8 → op.1 ∈ raws) :
    Counts raws (ops.foldl (fun state op => state.push n op.1 op.2.1) state) := by
  induction ops generalizing state with
  | nil => exact counts
  | cons op ops ih =>
    exact ih (counts.push (fits op mem_cons_self)) fun other member => fits other (mem_cons_of_mem _ member)

theorem Counts.cas
    (fits : ∀ op ∈ casOps operands, op.2.1.length ≠ 8 → op.1 ∈ raws) : Counts raws (state.cas n operands).1 := by
  simp only [KVSState.cas]
  split
  · exact counts.pushAll fits
  · exact counts

theorem Counts.crashCommitOp {op} (isCounter : ∀ key ∈ op.incremented, key ∉ raws)
    (fits : ∀ pair ∈ op.stored, pair.2.length ≠ 8 → pair.1 ∈ raws) :
    ∃ after results, crashCommitOp n state op = some (after, results) ∧ Counts raws after := by
  unfold KVSState.crashCommitOp
  unfold ProtoTransactionOp.incremented at isCounter
  unfold ProtoTransactionOp.stored at fits
  split
  · next write =>
    simp only [write] at fits
    split
    · next key _ operands =>
      simp only [operands, mem_singleton, forall_eq] at fits
      exact ⟨_, _, rfl, counts.push fits⟩
    · exact ⟨_, _, rfl, counts⟩
  · split <;> exact ⟨_, _, rfl, counts⟩
  · next incr =>
    simp only [incr] at isCounter
    split
    · next key operands =>
      simp only [operands, mem_singleton, forall_eq] at isCounter
      exact counts.increment isCounter
    · next key _ operands =>
      simp only [operands, mem_singleton, forall_eq] at isCounter
      exact counts.increment isCounter
    · next key _ _ operands =>
      simp only [operands, mem_singleton, forall_eq] at isCounter
      exact counts.increment isCounter
    · exact ⟨_, _, rfl, counts⟩
  · next cas =>
    simp only [cas] at fits
    split
    · exact ⟨_, _, rfl, counts⟩
    · next whole =>
      simp only [whole, ↓reduceIte, List.mem_map, forall_exists_index, and_imp, forall_apply_eq_imp_iff₂] at fits
      exact ⟨_, _, rfl, counts.cas fits⟩
  · exact ⟨_, _, rfl, counts⟩

theorem Counts.commitEach {α β : Type} {commit : KVSState → α → Option (KVSState × β)} {items : List α}
    (each : ∀ item ∈ items, ∀ {state : KVSState}, Counts raws state →
      ∃ after result, commit state item = some (after, result) ∧ Counts raws after) :
    ∃ after results, commitEach commit state items = some (after, results) ∧ Counts raws after := by
  induction items generalizing state with
  | nil => exact ⟨state, [], rfl, counts⟩
  | cons item items ih =>
    obtain ⟨_, result, first, counts'⟩ := each item mem_cons_self counts
    obtain ⟨after, results, rest, counts''⟩ := ih counts' fun other member =>
      each other (mem_cons_of_mem _ member)
    refine ⟨after, result :: results, ?_, counts''⟩
    simp [PirateShip.commitEach, first, rest]

theorem Counts.crashCommitTx {tx} (within : tx.Within counters raws) (apart : Disjoint counters raws) :
    ∃ after result, crashCommitTx n state tx = some (after, result) ∧ Counts raws after := by
  have incremented := within.incremented
  have stored := within.stored
  unfold ProtoTransaction.crashOps at incremented stored
  unfold KVSState.crashCommitTx
  cases phase : tx.onCrashCommit with
  | none => exact ⟨state, _, rfl, counts⟩
  | some phase =>
    simp only [phase, map_some, getD_some] at incremented stored
    obtain ⟨after, _, committed, counts'⟩ := counts.commitEach fun op member _ counts =>
      counts.crashCommitOp (n := n)
        (fun key inside => Set.disjoint_left.mp apart (incremented op member key inside)) (stored op member)
    exact ⟨after, _, by simp only [committed]; rfl, counts'⟩

theorem Counts.crashCommitBlock
    (within : ∀ tx ∈ block.block.txList, tx.Within counters raws) (apart : Disjoint counters raws) :
    ∃ after results, crashCommitBlock state block = some (after, results) ∧ Counts raws after :=
  counts.commitEach fun tx member _ counts => counts.crashCommitTx (within tx member) apart

theorem Counts.byzCommitBlock
    (within : ∀ tx ∈ block.block.txList, tx.Within counters raws) : Counts raws (state.byzCommitBlock block) := by
  have stored : ∀ op ∈ block.block.txList.flatMap fun tx => (tx.onByzantineCommit.map (·.ops)).getD [],
      ∀ pair ∈ op.byzStored, pair.2.length ≠ 8 → pair.1 ∈ raws := by
    intro op member
    obtain ⟨tx, listed, inside⟩ := mem_flatMap.mp member
    exact (within tx listed).byzStored op inside
  unfold KVSState.byzCommitBlock
  generalize block.block.txList.flatMap (fun tx => (tx.onByzantineCommit.map (·.ops)).getD []) = ops at stored
  induction ops generalizing state with
  | nil => exact counts
  | cons op ops ih =>
    refine ih ?_ fun other member => stored other (mem_cons_of_mem _ member)
    have fits := stored op mem_cons_self
    unfold ProtoTransactionOp.byzStored at fits
    dsimp only
    split
    · next _ _ write operands =>
      simp only [write, operands, mem_singleton, forall_eq] at fits
      refine ⟨counts.ciState, fun other isCounter value found => ?_⟩
      simp only at found
      split at found
      · next same =>
        obtain rfl := some.inj found
        by_contra long
        exact isCounter (same ▸ fits long)
      · exact counts.bciState other isCounter value found
    · exact counts

theorem Counts.settleUpTo (lastBci) : Counts raws (state.settleUpTo lastBci) where
  ciState key isCounter version member := counts.ciState key isCounter version (mem_of_mem_filter member)
  bciState key isCounter value found := by
    simp only [KVSState.settleUpTo] at found
    split at found
    · next version last =>
      obtain rfl := some.inj found
      exact counts.ciState key isCounter version (mem_of_mem_filter (mem_of_getLast? last))
    · exact counts.bciState key isCounter value found

theorem Counts.cut (last) : Counts raws (state.cut last) :=
  ⟨fun key isCounter version member =>
    counts.ciState key isCounter version (mem_of_mem_filter member), counts.bciState⟩

end KVSState

namespace KVSAppEngine

variable {counters raws : Set Bytes} {engine : KVSAppEngine} {blocks : List CachedBlock}

theorem counts_handleCrashCommit (counts : engine.state.Counts raws) (apart : Disjoint counters raws)
    (within : ∀ block ∈ blocks, ∀ tx ∈ block.block.txList, tx.Within counters raws) :
    ∃ after results, engine.handleCrashCommit blocks = some (after, results) ∧ after.state.Counts raws := by
  obtain ⟨state, results, committed, counts'⟩ := counts.commitEach fun block member _ counts =>
    counts.crashCommitBlock (within block member) apart
  refine ⟨{ engine with lastCi := (blocks.getLast?.map (·.block.n)).getD engine.lastCi, state }, results, ?_, counts'⟩
  rw [handleCrashCommit, committed]
  rfl

theorem counts_handleByzCommit (counts : engine.state.Counts raws)
    (within : ∀ block ∈ blocks, ∀ tx ∈ block.block.txList, tx.Within counters raws) :
    (engine.handleByzCommit blocks).1.state.Counts raws := by
  have folded : (blocks.foldl KVSState.byzCommitBlock engine.state).Counts raws := by
    generalize engine.state = state at counts
    induction blocks generalizing state with
    | nil => exact counts
    | cons block blocks ih =>
      exact ih (fun other member => within other (mem_cons_of_mem _ member)) _
        (counts.byzCommitBlock (within block mem_cons_self))
  exact folded.settleUpTo _

end KVSAppEngine

/-!
## Requests, batches and commits
-/

/-- The proposer and the engine; what is committed, and when, is up to the protocol. -/
structure ClientWork where
  proposer : BatchProposer
  engine : KVSAppEngine := {}

namespace ClientWork

inductive Event where
  | input (input : BatchProposer.Input)
  | crashCommit (blocks : List CachedBlock)
  | byzCommit (blocks : List CachedBlock)
  | rollback (newLastBlock : Nat)
  | unlogged (tx : ProtoTransaction)

def new (config : Config) : ClientWork := { proposer := .new config }

def step (config : Config) (work : ClientWork) : Event → Option ClientWork
  | .input input => (work.proposer.worker config input).map fun proposer => { work with proposer }
  | .crashCommit blocks => (work.engine.handleCrashCommit blocks).map fun outcome => { work with engine := outcome.1 }
  | .byzCommit blocks => some { work with engine := (work.engine.handleByzCommit blocks).1 }
  | .rollback newLastBlock => some { work with engine := work.engine.handleRollback newLastBlock }
  -- An unlogged request reads the state and leaves it as it is.
  | .unlogged tx => (some (work.engine.handleUnloggedRequest tx)).map fun _ => work

/-- Blocks are made of batches that were proposed; a NewView block is empty. -/
def Proposed (work : ClientWork) (blocks : List CachedBlock) : Prop :=
  ∀ block ∈ blocks, block.block.txList = [] ∨ block.block.txList ∈ work.proposer.blockMakerTx.map (·.1)

/-- Requests may lack a transaction only if `missing`, and transactions that are logged
use keys as `counters` and `raws` say. -/
def Within (missing : Bool) (counters raws : Set Bytes) (work : ClientWork) : Event → Prop
  | .input (.newTx (none, _) _) => missing = true
  | .input (.newTx (some tx, _) _) => tx.onReceive = none → tx.Within counters raws
  | .input (.cmd _) | .input .tick | .rollback _ => True
  | .crashCommit blocks | .byzCommit blocks => work.Proposed blocks
  | .unlogged tx => tx ∈ work.proposer.unloggedTx

def Completes (config : Config) (missing : Bool) (counters raws : Set Bytes) : Prop :=
  ∀ work, Reaches (step config) (Within missing counters raws) (new config) work →
    ∀ event, Within missing counters raws work event → (step config work event).isSome = true

section Completes

variable {config : Config} {counters raws : Set Bytes} {work after : ClientWork}
variable {key : Bytes}

structure Safe (counters raws : Set Bytes) (work : ClientWork) : Prop where
  counts : work.engine.state.Counts raws
  current : ∀ tx ∈ work.proposer.currentRawBatch, tx.Within counters raws
  proposed : ∀ batch ∈ work.proposer.blockMakerTx, ∀ tx ∈ batch.1, tx.Within counters raws

variable (safe : Safe counters raws work)
include safe

theorem Safe.within_blocks {blocks} (proposed : work.Proposed blocks) :
    ∀ block ∈ blocks, ∀ tx ∈ block.block.txList, tx.Within counters raws := by
  intro block member tx inside
  cases proposed block member with
  | inl empty => exact absurd (empty ▸ inside) not_mem_nil
  | inr listed =>
    obtain ⟨batch, sent, same⟩ := mem_map.mp listed
    exact safe.proposed batch sent tx (same ▸ inside)

theorem Safe.maybePropose (tick) :
    Safe counters raws { work with proposer := work.proposer.maybePropose config tick } := by
  unfold BatchProposer.maybePropose
  split
  · refine ⟨safe.counts, fun tx member => absurd member not_mem_nil, fun batch member => ?_⟩
    cases mem_append.mp member with
    | inl earlier => exact safe.proposed batch earlier
    | inr last =>
      obtain rfl := mem_singleton.mp last
      exact safe.current
  · exact safe

theorem Safe.addTx {tx} (within : tx.Within counters raws) (ack tick) :
    Safe counters raws { work with proposer := work.proposer.addTx config (some tx, ack) tick } := by
  unfold BatchProposer.addTx
  split
  · exact ⟨safe.counts, safe.current, safe.proposed⟩
  · have added : Safe counters raws { work with proposer := { work.proposer with
        currentRawBatch := work.proposer.currentRawBatch ++ [tx]
        currentReplyVec := work.proposer.currentReplyVec ++ [ack] } } := by
      refine ⟨safe.counts, fun other member => ?_, safe.proposed⟩
      cases mem_append.mp member with
      | inl earlier => exact safe.current other earlier
      | inr last => exact mem_singleton.mp last ▸ within
    exact added.maybePropose tick

theorem Safe.newTx {tx} (ack elapsed) (within : tx.onReceive = none → tx.Within counters raws) :
    ∃ proposer, work.proposer.worker config (.newTx (some tx, ack) elapsed) = some proposer ∧
      Safe counters raws { work with proposer } := by
  simp only [BatchProposer.worker, BatchProposer.filterUnloggedRequest]
  cases receive : tx.onReceive with
  | none => exact ⟨_, rfl, safe.addTx (within receive) ack elapsed⟩
  | some phase =>
    cases BatchProposer.isProbeTx tx with
    | none =>
      have sent : Safe counters raws { work with proposer := { work.proposer with
          unloggedTx := work.proposer.unloggedTx ++ [tx]
          replyTx := work.proposer.replyTx ++ [.unloggedRequestAck work.proposer.unloggedTx.length ack] } } :=
        ⟨safe.counts, safe.current, safe.proposed⟩
      exact ⟨_, rfl, sent.maybePropose elapsed⟩
    | some blockN =>
      have sent : Safe counters raws { work with proposer := { work.proposer with
          replyTx := work.proposer.replyTx ++ [.probeRequestAck blockN ack] } } :=
        ⟨safe.counts, safe.current, safe.proposed⟩
      exact ⟨_, rfl, sent.maybePropose elapsed⟩

theorem Safe.step (apart : Disjoint counters raws) {event} (within : Within false counters raws work event) :
    ∃ after, step config work event = some after ∧ Safe counters raws after := by
  cases event with
  | input input =>
    cases input with
    | cmd command => exact ⟨_, rfl, safe.counts, safe.current, safe.proposed⟩
    | tick => exact ⟨_, rfl, safe.maybePropose true⟩
    | newTx request elapsed =>
      obtain ⟨tx, ack⟩ := request
      cases tx with
      | none => cases within
      | some tx =>
        obtain ⟨_, worked, next⟩ := safe.newTx ack elapsed within
        exact ⟨_, by rw [ClientWork.step, worked]; rfl, next⟩
  | crashCommit blocks =>
    obtain ⟨engine, _, committed, counts⟩ :=
      KVSAppEngine.counts_handleCrashCommit safe.counts apart (safe.within_blocks within)
    exact ⟨{ work with engine }, by rw [ClientWork.step, committed]; rfl, counts, safe.current, safe.proposed⟩
  | byzCommit blocks =>
    exact ⟨_, rfl, KVSAppEngine.counts_handleByzCommit safe.counts (safe.within_blocks within), safe.current,
      safe.proposed⟩
  | rollback newLastBlock => exact ⟨_, rfl, safe.counts.cut newLastBlock, safe.current, safe.proposed⟩
  | unlogged tx => exact ⟨_, rfl, safe⟩

omit safe

theorem new_empty (config) : (BatchProposer.new config).currentRawBatch = [] ∧
    (BatchProposer.new config).currentReplyVec = [] ∧ (BatchProposer.new config).blockMakerTx = [] := by
  unfold BatchProposer.new
  split <;> exact ⟨rfl, rfl, rfl⟩

theorem safe_new (config) : Safe counters raws (new config) := by
  refine ⟨⟨fun _ _ _ member => absurd member not_mem_nil, fun _ _ _ found => by cases found⟩, ?_, ?_⟩
  · exact fun tx member => absurd ((new_empty config).1 ▸ member) not_mem_nil
  · exact fun batch member => absurd ((new_empty config).2.2 ▸ member) not_mem_nil

theorem completes_of_disjoint (config) (apart : Disjoint counters raws) : Completes config false counters raws := by
  intro work reached event within
  have safe : Safe counters raws work := by
    refine reached.invariant (safe_new config) fun safe permitted stepped => ?_
    obtain ⟨after, stepped', next⟩ := safe.step apart permitted
    exact some.inj (stepped'.symm.trans stepped) ▸ next
  obtain ⟨after, stepped, _⟩ := safe.step apart within
  rw [stepped, isSome_some]

/-!
## Requests that panic
-/

def oneOpTx (opType : Int) (operands : List Bytes) : ProtoTransaction where
  onCrashCommit := some ⟨[⟨opType, operands⟩]⟩

def oneTxBlock (n : Nat) (tx : ProtoTransaction) : CachedBlock where
  block := { txList := [tx], n, view := 1, viewIsStable := true, configNum := 1 }
  blockSer := []
  blockHash := defaultHash

def someClient : MsgAckChanWithTag := ⟨0, 0, .auth "client1" 0⟩

def leading (config : Config) (txs : List ProtoTransaction) : BatchProposer where
  makeNewBatches := true
  currentLeader := config.netConfig.name
  blockMakerTx := txs.map fun tx => ([tx], [someClient])

theorem worker_leading {tx} (txs) (logged : tx.onReceive = none) :
    (leading config txs).worker config (.newTx (some tx, someClient) true) = some (leading config (txs ++ [tx])) := by
  simp [leading, BatchProposer.worker, BatchProposer.filterUnloggedRequest, BatchProposer.addTx,
    BatchProposer.iAmLeader, BatchProposer.maybePropose, BatchProposer.proposeNewBatch, logged]

theorem reaches_leading (config missing) {txs} (within : ∀ tx ∈ txs, tx.onReceive = none ∧ tx.Within counters raws) :
    Reaches (step config) (Within missing counters raws) (new config) ⟨leading config txs, {}⟩ := by
  induction txs using List.reverseRecOn with
  | nil =>
    have permitted : Within missing counters raws (new config)
      (.input (.cmd (true, config.netConfig.name))) := trivial
    refine .tail .refl permitted ?_
    simp only [new, BatchProposer.new]
    split <;> rfl
  | append_singleton txs tx ih =>
    obtain ⟨logged, within_tx⟩ := within tx (by simp)
    have permitted : Within missing counters raws ⟨leading config txs, {}⟩
        (.input (.newTx (some tx, someClient) true)) := fun _ => within_tx
    refine .tail (ih fun other member => within other (mem_append_left _ member)) permitted ?_
    rw [step, worker_leading txs logged]
    rfl

theorem within_write (raw : key ∈ raws) : (oneOpTx 2 [key, []]).Within counters raws := by
  constructor <;> simp [oneOpTx, ProtoTransaction.crashOps, ProtoTransaction.byzOps, ProtoTransactionOp.incremented,
    ProtoTransactionOp.stored, ProtoTransactionOpType.fromI32, raw]

theorem within_increment (counter : key ∈ counters) : (oneOpTx 3 [key]).Within counters raws := by
  constructor <;> simp [oneOpTx, ProtoTransaction.crashOps, ProtoTransaction.byzOps, ProtoTransactionOp.incremented,
    ProtoTransactionOp.stored, ProtoTransactionOpType.fromI32, counter]

theorem not_completes_of_shared (config missing) (counter : key ∈ counters) (raw : key ∈ raws) :
    ¬ Completes config missing counters raws := by
  intro completes
  have reached : Reaches (step config) (Within missing counters raws) (new config)
      ⟨leading config [oneOpTx 2 [key, []], oneOpTx 3 [key]], {}⟩ := by
    refine reaches_leading config missing fun tx member => ?_
    obtain rfl | rfl := mem_pair.mp member
    · exact ⟨rfl, within_write raw⟩
    · exact ⟨rfl, within_increment counter⟩
  have permitted : Within missing counters raws ⟨leading config [oneOpTx 2 [key, []], oneOpTx 3 [key]], {}⟩
      (.crashCommit [oneTxBlock 1 (oneOpTx 2 [key, []])]) := by
    simp [Within, Proposed, leading, oneTxBlock]
  have permitted' : Within missing counters raws ⟨leading config [oneOpTx 2 [key, []], oneOpTx 3 [key]],
        { lastCi := 1, state := ({} : KVSAppEngine).state.push 1 key [] }⟩
      (.crashCommit [oneTxBlock 2 (oneOpTx 3 [key])]) := by
    simp [Within, Proposed, leading, oneTxBlock]
  have finished := completes _ (.tail reached permitted (by
    simp [step, KVSAppEngine.handleCrashCommit, commitEach, KVSState.crashCommitBlock, KVSState.crashCommitTx,
      KVSState.crashCommitOp, oneTxBlock, oneOpTx, ProtoTransactionOpType.fromI32])) _ permitted'
  simp [step, KVSAppEngine.handleCrashCommit, commitEach, KVSState.crashCommitBlock, KVSState.crashCommitTx,
    KVSState.crashCommitOp, KVSState.increment, KVSState.read, KVSState.push, KVSState.i64FromBeBytes, oneTxBlock,
    oneOpTx, ProtoTransactionOpType.fromI32] at finished

theorem not_completes_of_missing (config counters raws) : ¬ Completes config true counters raws := by
  intro completes
  have finished := completes _ .refl (.input (.newTx (none, someClient) false)) rfl
  cases finished

/-- No request stops the proposer or the engine exactly if every request has a
transaction and no key is both incremented and given values that are no counters. -/
theorem completes_iff (config : Config) (missing : Bool) (counters raws : Set Bytes) :
    Completes config missing counters raws ↔ missing = false ∧ Disjoint counters raws := by
  constructor
  · intro completes
    cases missing with
    | true => exact absurd completes (not_completes_of_missing config counters raws)
    | false =>
      refine ⟨rfl, Set.disjoint_left.mpr fun key counter raw => ?_⟩
      exact not_completes_of_shared config false counter raw completes
  · rintro ⟨rfl, apart⟩
    exact completes_of_disjoint config apart

def firstReplica : Config where
  netConfig := { name := "node1" }
  consensusConfig := { nodeList := ["node1", "node2", "node3"], livenessU := 1 }

/-- A client of a replica stops it without a transaction, and also with two valid ones. -/
theorem not_completes_of_requests :
    ¬ Completes firstReplica true Set.univ Set.univ ∧ ¬ Completes firstReplica false Set.univ Set.univ := by
  constructor
  · exact not_completes_of_missing firstReplica Set.univ Set.univ
  · exact not_completes_of_shared firstReplica false (Set.mem_univ [1]) (Set.mem_univ [1])

end Completes

end ClientWork

end PirateShip
