import Mathlib.Order.Basic
import PirateShip.App.Rollback

/-! Replicas group the blocks of one log into batches differently, and interleave
crash commits with byzantine commits differently. Where every read on crash commit
is shown the last version, they end alike exactly if a byzantine write that comes
after a key's last version writes the same. -/

set_option autoImplicit false

namespace PirateShip

open List StepSystem Option

/-!
## The keys of a block
-/

namespace KVSState

variable {key : Bytes} {ideal state next : KVSState} {keys : List Bytes} {done blocks : List CachedBlock}

/-- The keys that an operation reads on crash commit. -/
def crashReadsOfOp (op : ProtoTransactionOp) : List Bytes :=
  match ProtoTransactionOpType.fromI32 op.opType with
  | some .read =>
    match op.operands with
    | [key] => [key]
    | _ => []
  | some .increment =>
    match op.operands with
    | [key] | [key, _] | [key, _, _] => [key]
    | _ => []
  | some .cas => (casOps op.operands).map (·.1)
  | _ => []

def crashReads (block : CachedBlock) : List Bytes :=
  block.block.txList.flatMap fun tx => ((tx.onCrashCommit.map (·.ops)).getD []).flatMap crashReadsOfOp

def byzOps (block : CachedBlock) : List ProtoTransactionOp :=
  block.block.txList.flatMap fun tx => (tx.onByzantineCommit.map (·.ops)).getD []

def byzKeysOfOp (op : ProtoTransactionOp) : List Bytes :=
  match ProtoTransactionOpType.fromI32 op.opType, op.operands with
  | some .write, [key, _] => [key]
  | _, _ => []

def byzKeys (block : CachedBlock) : List Bytes := (byzOps block).flatMap byzKeysOfOp

def empty : KVSState := { ciState := fun _ => [], bciState := fun _ => none }

/-- What the blocks alone write on byzantine commit. -/
def byzWrites (blocks : List CachedBlock) : Bytes → Option Bytes :=
  (blocks.foldl byzCommitBlock empty).bciState

/-- A key that the block writes does not depend on what was there before. -/
private theorem byzCommitBlock_congr {first second : KVSState} {block}
    (same : key ∈ byzKeys block ∨ first.bciState key = second.bciState key) :
    (first.byzCommitBlock block).bciState key = (second.byzCommitBlock block).bciState key := by
  unfold byzKeys byzOps at same
  unfold byzCommitBlock
  generalize (block.block.txList.flatMap fun tx => (tx.onByzantineCommit.map (·.ops)).getD []) = ops at same ⊢
  induction ops generalizing first second with
  | nil =>
    rcases same with absent | same
    · cases absent
    · exact same
  | cons op rest ih =>
    apply ih
    have later : key ∈ rest.flatMap byzKeysOfOp ∨ key ∈ byzKeysOfOp op ∨
        first.bciState key = second.bciState key := by
      rw [flatMap_cons, mem_append] at same
      grind
    refine later.imp_right fun same => ?_
    unfold byzKeysOfOp at same
    dsimp only
    split
    · simp_all only [mem_singleton]
      rcases same with rfl | same
      · simp only [if_true]
      · simp only [same]
    · simp_all

theorem foldl_byzCommitBlock_congr {first second : KVSState}
    (same : (∃ block ∈ blocks, key ∈ byzKeys block) ∨ first.bciState key = second.bciState key) :
    (blocks.foldl byzCommitBlock first).bciState key = (blocks.foldl byzCommitBlock second).bciState key := by
  induction blocks generalizing first second with
  | nil => simpa using same
  | cons block rest ih =>
    apply ih
    rw [exists_mem_cons_iff, or_right_comm, or_comm] at same
    exact same.imp_right byzCommitBlock_congr

private theorem byzCommitBlock_other {block} (other : key ∉ byzKeys block) (state : KVSState) :
    (state.byzCommitBlock block).bciState key = state.bciState key := by
  unfold byzKeys byzOps at other
  unfold byzCommitBlock
  generalize (block.block.txList.flatMap fun tx => (tx.onByzantineCommit.map (·.ops)).getD []) = ops at other ⊢
  induction ops generalizing state with
  | nil => rfl
  | cons op rest ih =>
    rw [flatMap_cons, mem_append, not_or] at other
    rw [foldl_cons, ih _ other.2]
    have first := other.1
    unfold byzKeysOfOp at first
    split
    · simp_all
    · rfl

theorem foldl_byzCommitBlock_other (other : ¬ ∃ block ∈ blocks, key ∈ byzKeys block) (state) :
    (blocks.foldl byzCommitBlock state).bciState key = state.bciState key := by
  induction blocks generalizing state with
  | nil => rfl
  | cons block rest ih =>
    rw [exists_mem_cons_iff, not_or] at other
    rw [foldl_cons, ih other.2, byzCommitBlock_other other.1]

/-!
## Logs
-/

/-- The sequence numbers go up, from above the genesis block. -/
def InOrder (blocks : List CachedBlock) : Prop :=
  (0 :: blocks.map (·.block.n)).Pairwise (· < ·)

def lastN (blocks : List CachedBlock) : Nat := (blocks.getLast?.map (·.block.n)).getD 0

theorem lastN_append (blocks more) :
    (more.getLast?.map (·.block.n)).getD (lastN blocks) = lastN (blocks ++ more) := by
  unfold lastN
  rw [getLast?_append]
  cases more.getLast? <;> rfl

theorem InOrder.of_append {more} (inOrder : InOrder (blocks ++ more)) : InOrder blocks := by
  unfold InOrder at inOrder
  rw [map_append, ← cons_append] at inOrder
  exact (pairwise_append.mp inOrder).1

theorem InOrder.lastN_lt {block} (inOrder : InOrder (done ++ blocks)) (member : block ∈ blocks) :
    lastN done < block.block.n := by
  unfold InOrder at inOrder
  rw [map_append, ← cons_append] at inOrder
  apply (pairwise_append.mp inOrder).2.2 _ _ _ (mem_map_of_mem member)
  unfold lastN
  cases last : done.getLast? with
  | none => exact mem_cons_self
  | some block => exact mem_cons_of_mem _ (mem_map_of_mem (mem_of_getLast? last))

theorem InOrder.le_of_mem {before after block other} (inOrder : InOrder (before ++ block :: after))
    (member : other ∈ block :: after) : block.block.n ≤ other.block.n := by
  rcases mem_cons.mp member with rfl | member
  · rfl
  · have split : InOrder ((before ++ [block]) ++ after) := by
      simpa using inOrder
    have above := split.lastN_lt member
    simp only [lastN, getLast?_concat, map_some, getD_some] at above
    exact above.le

theorem InOrder.le_lastN {block} (inOrder : InOrder blocks) (member : block ∈ blocks) :
    block.block.n ≤ lastN blocks := by
  obtain ⟨before, after, rfl⟩ := append_of_mem member
  rw [← lastN_append]
  cases last : (block :: after).getLast? with
  | none => simp at last
  | some final => exact inOrder.le_of_mem (mem_of_getLast? last)

/-!
## A replica beside the log
-/

/-- The key's latest write, over these blocks, is one on crash commit, unless no
block writes it on byzantine commit. -/
def Shown (done : List CachedBlock) (key : Bytes) (ideal : KVSState) : Prop :=
  ∀ block ∈ done, key ∈ byzKeys block → ∃ version ∈ ideal.ciState key, block.block.n ≤ version.1

/-- Once a byzantine write is above all versions that were moved over, the batches
decide which of the two the key has. -/
def Settled (done : List CachedBlock) (key : Bytes) (promoted : List (Nat × Bytes)) (value : Option Bytes) : Prop :=
  value = (promoted.getLast?.map (·.2)).or (byzWrites done key) ∨
    value = byzWrites done key ∧
      ∃ block ∈ done, key ∈ byzKeys block ∧ ∀ version ∈ promoted, version.1 < block.block.n

/-- The state of a replica beside the state in which nothing was byzantine
committed: the versions that have been moved over are gone from the front. -/
structure Sees (done : List CachedBlock) (keys : List Bytes) (ideal state : KVSState) : Prop where
  fresh : ∀ key, ideal.bciState key = none
  moved : ∀ key, ∃ promoted, ideal.ciState key = promoted ++ state.ciState key ∧
    (∀ version ∈ promoted, version.1 ≤ lastN done) ∧ Settled done key promoted (state.bciState key)
  shown : ∀ key ∈ keys, Shown done key ideal

theorem Sees.read_eq (sees : Sees done keys ideal state) (used : key ∈ keys) : state.read key = ideal.read key := by
  obtain ⟨promoted, versions, -, settled⟩ := sees.moved key
  have shown := sees.shown key used
  unfold Shown at shown
  unfold read
  rw [versions] at shown
  rw [versions, sees.fresh key]
  cases last : (state.ciState key).getLast? with
  | some version => simp [last]
  | none =>
    rw [getLast?_eq_none_iff.mp last, append_nil] at shown
    rw [getLast?_eq_none_iff.mp last, append_nil]
    rcases settled with value | ⟨-, block, inside, writes, above⟩
    · dsimp only
      rw [value]
      cases lastPromoted : promoted.getLast? with
      | some version => rfl
      | none =>
        -- A write on byzantine commit would be below a version, and there is none.
        rw [getLast?_eq_none_iff.mp lastPromoted] at shown
        refine foldl_byzCommitBlock_other ?_ empty
        rintro ⟨block, inside, writes⟩
        obtain ⟨_, absent, -⟩ := shown block inside writes
        cases absent
    · obtain ⟨version, held, below⟩ := shown block inside writes
      exact absurd (above version held) (Nat.not_lt.mpr below)

theorem Sees.push (sees : Sees done keys ideal state) (n key val) :
    Sees done keys (ideal.push n key val) (state.push n key val) where
  fresh := sees.fresh
  moved other := by
    obtain ⟨promoted, versions, bounded⟩ := sees.moved other
    refine ⟨promoted, ?_, bounded⟩
    unfold KVSState.push
    dsimp only
    split
    · rw [versions, append_assoc]
    · exact versions
  shown other used block inside writes := by
    obtain ⟨version, held, below⟩ := sees.shown other used block inside writes
    obtain ⟨_, grown, -⟩ := (push_appends ideal n key val).ciState other
    exact ⟨version, grown ▸ mem_append_left _ held, below⟩

/-!
## Crash commits
-/

inductive Agree {β : Type} (done : List CachedBlock) (keys : List Bytes) :
    Option (KVSState × β) → Option (KVSState × β) → Prop where
  | failed : Agree done keys none none
  | done {ideal state : KVSState} {result : β} : Sees done keys ideal state →
      Agree done keys (some (ideal, result)) (some (state, result))

theorem Agree.map {β γ first second} (agree : Agree done keys first second) (f : β → γ) :
    Agree done keys (first.map fun pair => (pair.1, f pair.2)) (second.map fun pair => (pair.1, f pair.2)) := by
  cases agree with
  | failed => exact .failed
  | done sees => exact .done sees

theorem Sees.commitEach {α β : Type} {commit : KVSState → α → Option (KVSState × β)} {items : List α}
    (each : ∀ item ∈ items, ∀ {ideal state : KVSState}, Sees done keys ideal state →
      Agree done keys (commit ideal item) (commit state item))
    (sees : Sees done keys ideal state) :
    Agree done keys (commitEach commit ideal items) (commitEach commit state items) := by
  induction items generalizing ideal state with
  | nil => exact .done sees
  | cons item rest ih =>
    have first := each item mem_cons_self sees
    unfold PirateShip.commitEach
    generalize commit ideal item = idealResult, commit state item = stateResult at first
    cases first with
    | failed => exact .failed
    | done sees =>
      apply Agree.map
      exact ih (fun item member => each item (mem_cons_of_mem _ member)) sees

section Operations

variable (sees : Sees done keys ideal state)
include sees

theorem Sees.increment (n operands) (used : key ∈ keys) :
    Agree done keys (ideal.increment n operands key) (state.increment n operands key) := by
  unfold KVSState.increment
  rw [sees.read_eq used]
  cases ideal.read key with
  | none => exact .done (sees.push n _ _)
  | some bytes =>
    cases counter : i64FromBeBytes bytes with
    | none =>
      simp only [counter]
      exact .failed
    | some counter' =>
      simp only [counter]
      exact .done (sees.push n _ _)

theorem Sees.pushAll (n) (ops : List (Bytes × Bytes × Bytes)) :
    Sees done keys (ops.foldl (fun state op => state.push n op.1 op.2.1) ideal)
      (ops.foldl (fun state op => state.push n op.1 op.2.1) state) := by
  induction ops generalizing ideal state with
  | nil => exact sees
  | cons op rest ih => exact ih (sees.push n op.1 op.2.1)

theorem Sees.cas (n operands) (used : ∀ op ∈ casOps operands, op.1 ∈ keys) :
    Agree done keys (some (ideal.cas n operands)) (some (state.cas n operands)) := by
  have reads : ((casOps operands).map fun op => (state.read op.1).getD []) =
      (casOps operands).map fun op => (ideal.read op.1).getD [] := by
    apply map_congr_left
    intro op member
    rw [sees.read_eq (used op member)]
  unfold KVSState.cas
  dsimp only
  rw [reads]
  split
  · exact .done (sees.pushAll n _)
  · exact .done sees

theorem Sees.crashCommitOp (n) {op} (used : ∀ key ∈ crashReadsOfOp op, key ∈ keys) :
    Agree done keys (crashCommitOp n ideal op) (crashCommitOp n state op) := by
  unfold KVSState.crashCommitOp
  unfold crashReadsOfOp at used
  split
  · split
    · exact .done (sees.push n _ _)
    · exact .done sees
  · split <;> simp_all only [mem_singleton, forall_eq]
    · rw [sees.read_eq used]
      exact .done sees
    · exact .done sees
  · split <;> simp_all only [mem_singleton, forall_eq]
    · exact sees.increment n _ used
    · exact sees.increment n _ used
    · exact sees.increment n _ used
    · exact .done sees
  · split
    · exact .done sees
    · apply sees.cas
      intro op member
      simp_all only [List.mem_map, forall_exists_index, and_imp, forall_apply_eq_imp_iff₂]
  · exact .done sees

theorem Sees.crashCommitBlock {block} (used : ∀ key ∈ crashReads block, key ∈ keys) :
    Agree done keys (crashCommitBlock ideal block) (crashCommitBlock state block) := by
  refine Sees.commitEach (fun tx member ideal state sees => ?_) sees
  unfold crashCommitTx
  cases phase : tx.onCrashCommit with
  | none => exact .done sees
  | some phase' =>
    have ops : Agree done keys (PirateShip.commitEach (KVSState.crashCommitOp block.block.n) ideal phase'.ops)
        (PirateShip.commitEach (KVSState.crashCommitOp block.block.n) state phase'.ops) := by
      refine Sees.commitEach (fun op held _ _ sees => sees.crashCommitOp _ fun key inside => used key ?_) sees
      refine mem_flatMap.mpr ⟨tx, member, mem_flatMap.mpr ⟨op, ?_, inside⟩⟩
      simpa [phase] using held
    exact ops.map fun results => ({ result := results.flatten } : ProtoTransactionResult)

end Operations

/-- Where a crash commit reads a key, no byzantine write of an earlier block is
later than the key's last version. -/
def ReadsShown (all : List CachedBlock) : Prop :=
  ∀ before block after ideal results, all = before ++ block :: after →
    commitEach crashCommitBlock .empty before = some (ideal, results) →
    ∀ key ∈ crashReads block, Shown before key ideal

theorem Sees.crashCommit {before after results} (sees : Sees done [] ideal state)
    (reads : ReadsShown (before ++ (blocks ++ after))) (within : done ⊆ before)
    (committed : PirateShip.commitEach KVSState.crashCommitBlock .empty before = some (ideal, results)) :
    Agree done [] (PirateShip.commitEach KVSState.crashCommitBlock ideal blocks)
      (PirateShip.commitEach KVSState.crashCommitBlock state blocks) := by
  induction blocks generalizing before ideal state results with
  | nil => exact .done sees
  | cons block rest ih =>
    have shown (key) (used : key ∈ crashReads block) : Shown done key ideal := fun earlier inside =>
      reads before block (rest ++ after) ideal results rfl committed key used earlier (within inside)
    have first : Agree done (crashReads block) (KVSState.crashCommitBlock ideal block)
        (KVSState.crashCommitBlock state block) := Sees.crashCommitBlock { sees with shown } fun _ => id
    unfold PirateShip.commitEach
    generalize idealCommit : KVSState.crashCommitBlock ideal block = idealResult,
      KVSState.crashCommitBlock state block = stateResult at first
    cases first with
    | failed => exact .failed
    | @done nextIdeal _ result sees =>
      have longer : PirateShip.commitEach KVSState.crashCommitBlock .empty (before ++ [block]) =
          some (nextIdeal, results ++ [result]) := by
        rw [commitEach_append, committed, bind_some]
        simp only [PirateShip.commitEach, idealCommit, map_some]
      have reads : ReadsShown ((before ++ [block]) ++ (rest ++ after)) := by
        simpa using reads
      apply Agree.map
      exact ih { sees with shown := forall_mem_nil _ } reads
        (List.Subset.trans within (subset_append_left _ _)) longer

/-!
## Byzantine commits
-/

def Ordered (state : KVSState) : Prop :=
  ∀ key, (state.ciState key).Pairwise fun first second => first.1 ≤ second.1

private theorem filter_append_filter {versions : List (Nat × Bytes)}
    (ordered : versions.Pairwise fun first second => first.1 ≤ second.1) (last) :
    versions.filter (fun version => decide (version.1 ≤ last)) ++
      versions.filter (fun version => decide (last < version.1)) = versions := by
  induction versions with
  | nil => rfl
  | cons version rest ih =>
    obtain ⟨first, ordered⟩ := pairwise_cons.mp ordered
    by_cases low : version.1 ≤ last
    · have high : ¬ last < version.1 := Nat.not_lt.mpr low
      simpa [low] using ih ordered
    · have high : last < version.1 := Nat.not_le.mp low
      have none : rest.filter (fun version => decide (version.1 ≤ last)) = [] := by
        apply filter_eq_nil_iff.mpr
        intro other member
        have := first other member
        simp only [decide_eq_true_eq]
        omega
      have all : rest.filter (fun version => decide (last < version.1)) = rest := by
        apply filter_eq_self.mpr
        intro other member
        have := first other member
        simp only [decide_eq_true_eq]
        omega
      simp [high, none, all]

theorem Sees.byzCommit (sees : Sees done [] ideal state) (ordered : ideal.Ordered)
    (inOrder : InOrder (done ++ blocks)) :
    Sees (done ++ blocks) [] ideal ((blocks.foldl byzCommitBlock state).settleUpTo (lastN (done ++ blocks))) where
  fresh := sees.fresh
  moved key := by
    obtain ⟨promoted, versions, low, settled⟩ := sees.moved key
    have stateInOrder : (state.ciState key).Pairwise fun first second => first.1 ≤ second.1 := by
      have whole := ordered key
      rw [versions] at whole
      exact (pairwise_append.mp whole).2.1
    have higher : lastN done ≤ lastN (done ++ blocks) := by
      rw [← lastN_append]
      cases last : blocks.getLast? with
      | none => exact le_rfl
      | some block => exact (inOrder.lastN_lt (mem_of_getLast? last)).le
    unfold settleUpTo
    dsimp only
    rw [foldl_byzCommitBlock_ciState]
    refine ⟨promoted ++ (state.ciState key).filter fun version =>
      decide (version.1 ≤ lastN (done ++ blocks)), ?_, ?_, ?_⟩
    · rw [append_assoc, filter_append_filter stateInOrder, versions]
    · intro version member
      rcases mem_append.mp member with member | member
      · exact (low version member).trans higher
      · exact of_decide_eq_true (mem_filter.mp member).2
    · unfold Settled at settled ⊢
      rw [getLast?_append]
      have writes : byzWrites (done ++ blocks) key =
          (blocks.foldl byzCommitBlock (done.foldl byzCommitBlock empty)).bciState key := by
        unfold byzWrites
        rw [foldl_append]
      cases last : ((state.ciState key).filter fun version =>
        decide (version.1 ≤ lastN (done ++ blocks))).getLast? with
      | some version => exact .inl rfl
      | none =>
        rw [getLast?_eq_none_iff.mp last, append_nil, none_or]
        by_cases written : ∃ block ∈ blocks, key ∈ byzKeys block
        · -- The batch comes after every version that was moved over before it.
          obtain ⟨block, member, inside⟩ := written
          refine .inr ⟨?_, block, mem_append_right _ member, inside, fun version held => ?_⟩
          · rw [writes]
            exact foldl_byzCommitBlock_congr (.inl ⟨block, member, inside⟩)
          · exact (low version held).trans_lt (inOrder.lastN_lt member)
        · rw [writes, foldl_byzCommitBlock_other written, foldl_byzCommitBlock_other written]
          refine settled.imp id fun ⟨value, block, member, rest⟩ => ?_
          exact ⟨value, block, mem_append_left _ member, rest⟩
  shown := forall_mem_nil _

theorem Ordered.crashCommit {blocks results} (ordered : state.Ordered)
    (inOrder : blocks.Pairwise fun first second => first.block.n ≤ second.block.n)
    (before : ∀ key, ∀ version ∈ state.ciState key, ∀ block ∈ blocks, version.1 ≤ block.block.n)
    (done : commitEach crashCommitBlock state blocks = some (next, results)) : next.Ordered := by
  induction blocks generalizing state results with
  | nil =>
    cases done
    exact ordered
  | cons block rest ih =>
    obtain ⟨first, inOrder⟩ := pairwise_cons.mp inOrder
    obtain ⟨_, _, _, committed, tail, -⟩ := commitEach_cons_eq_some.mp done
    have appends := crashCommitBlock_appends committed
    refine ih ?_ inOrder ?_ tail
    · intro key
      obtain ⟨added, grown, numbers⟩ := appends.ciState key
      rw [grown]
      refine pairwise_append.mpr ⟨ordered key, ?_, ?_⟩
      · apply pairwise_of_forall_mem_list
        intro old member new newMember
        exact ((numbers old member).trans (numbers new newMember).symm).le
      · intro old member new newMember
        exact (before key old member block mem_cons_self).trans (numbers new newMember).ge
    · intro key version member other held
      obtain ⟨added, grown, numbers⟩ := appends.ciState key
      rw [grown] at member
      rcases mem_append.mp member with member | member
      · exact before key version member other (mem_cons_of_mem _ held)
      · exact (numbers version member).le.trans (first other held)

theorem InOrder.ordered {results} (inOrder : InOrder blocks)
    (committed : commitEach crashCommitBlock .empty blocks = some (ideal, results)) : ideal.Ordered := by
  have fresh : empty.Ordered := fun _ => .nil
  refine fresh.crashCommit ?_ (fun _ => forall_mem_nil _) committed
  exact (pairwise_map.mp (pairwise_cons.mp inOrder).2).imp Nat.le_of_lt

end KVSState

namespace KVSAppEngine

open KVSState

variable {all done waiting blocks : List CachedBlock}

/-!
## Schedules
-/

inductive Call where
  | crash (blocks : List CachedBlock)
  | byz (blocks : List CachedBlock)

/-- The engine and everything it has returned, block by block. -/
structure Outcome where
  engine : KVSAppEngine := {}
  crashResults : List (List ProtoTransactionResult) := []
  byzResults : List (List ProtoByzResponse) := []

def call (outcome : Outcome) : Call → Option Outcome
  | .crash blocks => (outcome.engine.handleCrashCommit blocks).map fun (engine, results) =>
    { outcome with engine, crashResults := outcome.crashResults ++ results }
  | .byz blocks =>
    let (engine, results) := outcome.engine.handleByzCommit blocks
    some { outcome with engine, byzResults := outcome.byzResults ++ results }

def crashed (schedule : List Call) : List CachedBlock :=
  schedule.flatMap fun
    | .crash blocks => blocks
    | .byz _ => []

def settled (schedule : List Call) : List CachedBlock :=
  schedule.flatMap fun
    | .crash _ => []
    | .byz blocks => blocks

def byzResponses (block : CachedBlock) : List ProtoByzResponse :=
  block.block.txList.zipIdx.map fun (_, txN) => { blockN := block.block.n, txN, clientTag := 0 }

structure Reached (done waiting : List CachedBlock) (ideal : KVSState) (outcome : Outcome) : Prop where
  committed : commitEach crashCommitBlock .empty (done ++ waiting) = some (ideal, outcome.crashResults)
  sees : Sees done [] ideal outcome.engine.state
  versions : ∀ key, ∀ version ∈ outcome.engine.state.ciState key, ∃ block ∈ waiting, version.1 = block.block.n
  lastCi : outcome.engine.lastCi = lastN (done ++ waiting)
  lastBci : outcome.engine.lastBci = lastN done
  byzResults : outcome.byzResults = done.map byzResponses

variable {ideal : KVSState} {outcome : Outcome}

attribute [ext] KVSState KVSAppEngine Outcome

section Final

variable (reached : Reached all [] ideal outcome)
include reached

end Final

theorem call_crash (outcome blocks) : call outcome (.crash blocks) =
    (commitEach crashCommitBlock outcome.engine.state blocks).map fun final =>
      { outcome with
        engine := { outcome.engine with
          lastCi := (blocks.getLast?.map (·.block.n)).getD outcome.engine.lastCi
          state := final.1 }
        crashResults := outcome.crashResults ++ final.2 } :=
  map_map ..

theorem Reached.crash {after} (reached : Reached done waiting ideal outcome)
    (reads : ReadsShown (done ++ (waiting ++ blocks) ++ after)) :
    (call outcome (.crash blocks) = none ∧ commitEach crashCommitBlock .empty (done ++ (waiting ++ blocks)) = none) ∨
      ∃ nextIdeal next, call outcome (.crash blocks) = some next ∧
        Reached done (waiting ++ blocks) nextIdeal next := by
  have agree : Agree done [] (commitEach crashCommitBlock ideal blocks)
      (commitEach crashCommitBlock outcome.engine.state blocks) := by
    apply reached.sees.crashCommit _ (subset_append_left _ _) reached.committed
    · exact after
    · simpa using reads
  have whole : commitEach crashCommitBlock .empty (done ++ (waiting ++ blocks)) =
      (commitEach crashCommitBlock ideal blocks).map fun final =>
        (final.1, outcome.crashResults ++ final.2) := by
    rw [← append_assoc, commitEach_append, reached.committed, bind_some]
  rw [call_crash, whole]
  generalize committed : commitEach crashCommitBlock outcome.engine.state blocks = result at agree ⊢
  generalize commitEach crashCommitBlock ideal blocks = idealResult at agree whole ⊢
  cases agree with
  | failed => exact .inl ⟨rfl, rfl⟩
  | @done nextIdeal nextState results sees =>
    refine .inr ⟨nextIdeal, _, rfl, ?_, sees, ?_, ?_, reached.lastBci, reached.byzResults⟩
    · rw [whole, map_some]
    · intro key version member
      have appends : Appends (fun n => ∃ block ∈ blocks, n = block.block.n) outcome.engine.state nextState :=
        crashCommit_appends (fun block member => ⟨block, member, rfl⟩) committed
      obtain ⟨_, grown, numbers⟩ := appends.ciState key
      rcases mem_append.mp (grown ▸ member) with member | member
      · obtain ⟨block, held, number⟩ := reached.versions key version member
        exact ⟨block, mem_append_left _ held, number⟩
      · obtain ⟨block, held, number⟩ := numbers version member
        exact ⟨block, mem_append_right _ held, number⟩
    · rw [← append_assoc, ← lastN_append, ← reached.lastCi]

theorem Reached.byz {rest} (reached : Reached done (blocks ++ rest) ideal outcome)
    (inOrder : InOrder (done ++ (blocks ++ rest))) :
    ∃ next, call outcome (.byz blocks) = some next ∧ Reached (done ++ blocks) rest ideal next := by
  have ordered := inOrder.ordered reached.committed
  have batch : InOrder (done ++ blocks) := by
    rw [← append_assoc] at inOrder
    exact inOrder.of_append
  have lastBci : (blocks.getLast?.map (·.block.n)).getD outcome.engine.lastBci = lastN (done ++ blocks) := by
    rw [← lastN_append, reached.lastBci]
  refine ⟨_, rfl, ⟨?_, ?_, ?_, ?_, lastBci, ?_⟩⟩
  · rw [append_assoc]
    exact reached.committed
  · have sees := reached.sees.byzCommit ordered batch
    rw [← lastBci] at sees
    exact sees
  · intro key version member
    unfold settleUpTo at member
    rw [foldl_byzCommitBlock_ciState] at member
    obtain ⟨held, above⟩ := mem_filter.mp member
    obtain ⟨block, inside, number⟩ := reached.versions key version held
    rcases mem_append.mp inside with inside | inside
    · -- What the batch wrote is not above its last block.
      have below := batch.le_lastN (mem_append_right done inside)
      rw [← lastBci] at below
      exact absurd (of_decide_eq_true above) (Nat.not_lt.mpr (number.le.trans below))
    · exact ⟨block, inside, number⟩
  · rw [append_assoc]
    exact reached.lastCi
  · rw [map_append, ← reached.byzResults]
    rfl

theorem Reached.run {schedule} (reached : Reached done waiting ideal outcome)
    (inOrder : InOrder all) (reads : ReadsShown all)
    (crashes : done ++ (waiting ++ crashed schedule) = all) (settles : done ++ settled schedule = all)
    (behind : ∀ initial, initial <+: schedule →
      (settled initial).length ≤ waiting.length + (crashed initial).length) :
    (runAll call outcome schedule = none ∧ commitEach crashCommitBlock .empty all = none) ∨
      ∃ finalIdeal final, runAll call outcome schedule = some final ∧ Reached all [] finalIdeal final := by
  induction schedule generalizing done waiting ideal outcome with
  | nil =>
    have complete : done = all := by simpa [settled] using settles
    subst complete
    obtain rfl : waiting = [] := by simpa [crashed] using crashes
    exact .inr ⟨ideal, outcome, rfl, reached⟩
  | cons next rest ih =>
    cases next with
    | crash batch =>
      have crashes : done ++ ((waiting ++ batch) ++ crashed rest) = all := by
        simpa [crashed] using crashes
      rw [← append_assoc] at crashes
      rcases reached.crash (crashes ▸ reads) with ⟨failed, failedAll⟩ | ⟨nextIdeal, after, called, reached⟩
      · refine .inl ⟨by simp [runAll, failed], ?_⟩
        rw [← crashes, commitEach_append, failedAll, bind_none]
      · simp only [runAll, called]
        rw [append_assoc] at crashes
        apply ih reached crashes settles
        intro initial isPrefix
        have := behind (.crash batch :: initial) (cons_prefix_cons.mpr ⟨rfl, isPrefix⟩)
        simp only [settled, crashed, flatMap_cons, length_append] at this ⊢
        omega
    | byz batch =>
      have settles : (done ++ batch) ++ settled rest = all := by
        simpa [settled] using settles
      have short : batch.length ≤ waiting.length := by
        simpa [settled, crashed] using behind [.byz batch] (cons_prefix_cons.mpr ⟨rfl, nil_prefix⟩)
      obtain ⟨later, rfl⟩ : batch <+: waiting := by
        have same : batch ++ settled rest = waiting ++ crashed rest := by
          have : done ++ (batch ++ settled rest) = done ++ (waiting ++ crashed rest) := by
            rw [← append_assoc, settles, ← crashes]
            rfl
          exact append_cancel_left this
        exact prefix_of_prefix_length_le ⟨_, same⟩ (prefix_append _ _) short
      have crashes : (done ++ batch) ++ (later ++ crashed rest) = all := by
        rw [← crashes]
        simp [crashed]
      have prefixInOrder : InOrder (done ++ (batch ++ later)) := by
        have whole : InOrder ((done ++ (batch ++ later)) ++ crashed rest) := by
          simpa [← crashes] using inOrder
        exact whole.of_append
      obtain ⟨after, called, reached⟩ := reached.byz prefixInOrder
      simp only [runAll, called]
      apply ih reached crashes settles
      intro initial isPrefix
      have := behind (.byz batch :: initial) (cons_prefix_cons.mpr ⟨rfl, isPrefix⟩)
      simp only [settled, crashed, flatMap_cons, nil_append, length_append] at this ⊢
      omega

end KVSAppEngine

end PirateShip
