import PirateShip.LogServer.Lookup

/-! The answer to a backfill request. The range, the hints and the fork are what the
requester says they are; a range that ends before it starts, or one whose capacity cannot
be reserved, stops the node. Every other request is answered from the chain. -/

set_option autoImplicit false

namespace PirateShip.LogServer

open List HashLinked Option

variable {store : BlockStore} {server after : LogServer} {chain : List CachedBlock} {collected : Nat}
  {supplies : Nat → Bool} {nack : ProtoBackfillNack} {origin : BackfillOrigin} {existingFork : ProtoFork}
variable {hints : List ProtoBlockHint} {firstN : Nat}

/-!
## The process around the log server
-/

/-- `VecDeque::with_capacity` for blocks, which are pointers of eight bytes. `supplies`
is the allocator's answer to a request for so many bytes. -/
def withCapacity (supplies : Nat → Bool) (capacity : Nat) : Bool :=
  decide (capacity * 8 < 2 ^ 63) && (capacity == 0 || supplies (capacity * 8))

/-- The capacity that `fill_fork` asks for, in machine arithmetic. -/
def forkCapacity (firstN lastN : Nat) : Nat := (lastN - firstN + 1) % 2 ^ 64

def requestedLastN (server : LogServer) (existingFork : ProtoFork) : Nat :=
  match existingFork.serializedBlocks.getLast? with
  | some block => block.n
  | none => server.lastN

def requestedFork (nack : ProtoBackfillNack) : Option ProtoFork := nack.origin.bind BackfillOrigin.fork

/-- `respond_backfill` where the memory for the fork may be refused. -/
def respondBackfillWithin (supplies : Nat → Bool) (store : BlockStore) (server : LogServer)
    (nack : ProtoBackfillNack) : Option LogServer :=
  match requestedFork nack with
  | none => respondBackfill store server nack
  | some existingFork =>
    if withCapacity supplies (forkCapacity nack.lastIndexNeeded (server.requestedLastN existingFork)) then
      respondBackfill store server nack
    else none

/-!
## The fork
-/

theorem getBlock_frame {n found} (looked : getBlock store server n = some (found, after)) :
    ∃ readCache, after = { server with readCache } := by
  unfold getBlock at looked
  split at looked
  · split at looked
    · cases looked
      exact ⟨_, rfl⟩
    · split at looked
      · unfold getGcedBlock at looked
        split at looked
        · cases looked
          exact ⟨_, rfl⟩
        · split at looked
          · cases looked
            exact ⟨_, rfl⟩
          · split at looked
            · cases looked
              exact ⟨_, rfl⟩
            · obtain ⟨_, -, same⟩ := map_eq_some_iff.mp looked
              cases same
              exact ⟨_, rfl⟩
      · cases looked
        exact ⟨_, rfl⟩
  · cases looked
    exact ⟨_, rfl⟩

theorem fillDown_frame {count forkQueue blocks}
    (filled : fillDown store hints firstN count server forkQueue = some (blocks, after)) :
    ∃ readCache, after = { server with readCache } := by
  induction count generalizing server forkQueue with
  | zero =>
    cases filled
    exact ⟨_, rfl⟩
  | succ count ih =>
    unfold fillDown at filled
    split at filled
    · cases filled
    · next looked =>
      cases filled
      exact getBlock_frame looked
    · next _ _ looked =>
      obtain ⟨readCache, rfl⟩ := getBlock_frame looked
      split at filled
      · cases filled
        exact ⟨readCache, rfl⟩
      · obtain ⟨refilled, rfl⟩ := ih filled
        exact ⟨refilled, rfl⟩

theorem fillFork_frame {lastN fork} (filledFork : fillFork store server firstN lastN hints = some (fork, after)) :
    ∃ readCache, after = { server with readCache } := by
  rw [fillFork, if_neg (Nat.not_lt.mpr (ordered_of_fillFork filledFork))] at filledFork
  obtain ⟨⟨_, _⟩, down, same⟩ := map_eq_some_iff.mp filledFork
  cases same
  exact fillDown_frame down

variable (holds : Holds store chain collected server)
include holds

theorem fillFork_above {lastN} (hints) (ordered : firstN ≤ lastN) (above : chain.length < lastN) :
    fillFork store server firstN lastN hints = some (⟨[]⟩, server) := by
  have count : firstN + (lastN - firstN) = lastN := by omega
  rw [fillFork, if_neg (Nat.not_lt.mpr ordered), fillDown, count, getBlock_missing holds (.inr above)]
  rfl

theorem fillFork_segment {lastN} (hints) (ordered : firstN ≤ lastN) :
    ∃ segment after, fillFork store server firstN lastN hints = some (⟨segment.map (·.toHalfSerialized)⟩, after) ∧
      after.client = server.client ∧ segment <:+: chain ∧
      ∀ block ∈ segment, firstN ≤ block.block.n ∧ block.block.n ≤ lastN := by
  rcases Nat.lt_or_ge chain.length lastN with above | inside
  · refine ⟨[], server, fillFork_above holds hints ordered above, rfl, nil_infix, ?_⟩
    exact forall_mem_nil _
  · obtain ⟨below, after, filledFork, -, -, stops⟩ := fillFork_spec holds hints ordered
    refine ⟨_, after, filledFork, ?_, ?_, ?_⟩
    · obtain ⟨_, rfl⟩ := fillFork_frame filledFork
      rfl
    · exact (drop_suffix _ _).isInfix.trans (List.take_prefix _ _).isInfix
    · intro block member
      obtain ⟨i, found⟩ := mem_iff_getElem?.mp member
      rw [getElem?_drop] at found
      have bound := (List.getElem?_eq_some_iff.mp found).1
      rw [length_take] at bound
      rw [getElem?_take_of_lt (by omega)] at found
      have number := number_of_getElem? holds.linked found
      have lower : firstN ≤ below + 1 := by
        rcases stops inside with _ | ⟨_, -⟩ <;> omega
      omega

theorem Holds.follows_of_infix {segment} (inside : segment <:+: chain) : ∃ first tip, Follows first tip segment := by
  obtain ⟨_, _, split⟩ := inside
  have linked := split ▸ holds.linked
  exact ⟨_, _, (follows_append.mp (follows_append.mp linked).1).2⟩

omit holds

/-!
## The request
-/

/-- The message goes back with a linked part of the chain inside the range. -/
structure Answers (chain : List CachedBlock) (server : LogServer) (nack : ProtoBackfillNack)
    (origin : BackfillOrigin) (existingFork : ProtoFork) (segment : List CachedBlock) (after : LogServer) : Prop where
  sent : after.client = server.client ++ [(nack.replyName, refill ⟨segment.map (·.toHalfSerialized)⟩ origin)]
  ofChain : segment <:+: chain
  linked : ∃ first tip, Follows first tip segment
  inRange : ∀ block ∈ segment, nack.lastIndexNeeded ≤ block.block.n ∧
    block.block.n ≤ server.requestedLastN existingFork

/-- The range ends where it starts or later, and its capacity can be reserved. -/
def Fillable (supplies : Nat → Bool) (server : LogServer) (nack : ProtoBackfillNack) (existingFork : ProtoFork) :
    Prop :=
  nack.lastIndexNeeded ≤ server.requestedLastN existingFork ∧
    withCapacity supplies (forkCapacity nack.lastIndexNeeded (server.requestedLastN existingFork)) = true

theorem respondBackfill_eq (isOrigin : nack.origin = some origin)
    (isFork : BackfillOrigin.fork origin = some existingFork) :
    respondBackfill store server nack =
      (fillFork store server nack.lastIndexNeeded (server.requestedLastN existingFork) nack.hints).map fun filled =>
        { filled.2 with client := filled.2.client ++ [(nack.replyName, refill filled.1 origin)] } := by
  simp only [respondBackfill, isOrigin, isFork]
  rfl

theorem respondBackfillWithin_eq (isOrigin : nack.origin = some origin)
    (isFork : BackfillOrigin.fork origin = some existingFork) :
    respondBackfillWithin supplies store server nack =
      if withCapacity supplies (forkCapacity nack.lastIndexNeeded (server.requestedLastN existingFork)) then
        respondBackfill store server nack
      else none := by
  simp [respondBackfillWithin, requestedFork, isOrigin, isFork]

theorem respondBackfill_malformed (noFork : requestedFork nack = none) :
    respondBackfill store server nack = some server := by
  unfold respondBackfill
  split
  · rfl
  · next _ isOrigin =>
    rw [requestedFork, isOrigin, bind_some] at noFork
    rw [noFork]

/-- A request without a fork is ignored. Any other request is answered, from the chain
and inside its range, exactly when the range is fillable; if not, the node stops. -/
theorem respondBackfill_answers_iff (holds : Holds store chain collected server) (supplies : Nat → Bool)
    (nack : ProtoBackfillNack) :
    (requestedFork nack = none ∧ respondBackfillWithin supplies store server nack = some server) ∨
      ∃ origin existingFork, nack.origin = some origin ∧ BackfillOrigin.fork origin = some existingFork ∧
        ((respondBackfillWithin supplies store server nack).isSome = true ↔
          Fillable supplies server nack existingFork) ∧
        ∀ after ∈ respondBackfillWithin supplies store server nack,
          ∃ segment, Answers chain server nack origin existingFork segment after := by
  cases hasFork : requestedFork nack with
  | none =>
    left
    exact ⟨rfl, by rw [respondBackfillWithin, hasFork, respondBackfill_malformed hasFork]⟩
  | some existingFork =>
    right
    obtain ⟨origin, isOrigin, isFork⟩ := bind_eq_some_iff.mp hasFork
    refine ⟨origin, existingFork, isOrigin, isFork, ?_⟩
    rw [respondBackfillWithin_eq isOrigin isFork, respondBackfill_eq isOrigin isFork]
    by_cases ordered : nack.lastIndexNeeded ≤ server.requestedLastN existingFork
    · obtain ⟨segment, _, filledFork, client, ofChain, inRange⟩ :=
        fillFork_segment holds nack.hints ordered
      rw [filledFork, Fillable, map_some]
      split
      · next reserved =>
        refine ⟨by simp [ordered, reserved], fun after isAfter => ?_⟩
        cases isAfter
        refine ⟨segment, ?_, ofChain, holds.follows_of_infix ofChain, inRange⟩
        rw [client]
      · next refused => simp [refused]
    · rw [fillFork, Fillable]
      simp [ordered]

def forkUpTo (lastN : Nat) : ProtoFork := ⟨[⟨lastN, 1, true, 1, []⟩]⟩

def originUpTo (lastN : Nat) : BackfillOrigin :=
  .ae { fork := some (forkUpTo lastN), commitIndex := 0, view := 1, viewIsStable := true, configNum := 1
        isBackfillResponse := false }

def requestUpTo (firstN lastN : Nat) : ProtoBackfillNack where
  origin := some (originUpTo lastN)
  hints := []
  lastIndexNeeded := firstN
  replyName := "node2"

def fullServer : LogServer where
  log := fourBlocks

theorem fullServer_holds : Holds (fun _ => none) fourBlocks 0 fullServer :=
  holds_of_chain (by simp [fourBlocks, Follows, Staging.sampleBlock])

theorem fullServer_answers :
    ∃ after segment, respondBackfillWithin (fun _ => true) (fun _ => none) fullServer (requestUpTo 2 3) = some after ∧
      Answers fourBlocks fullServer (requestUpTo 2 3) (originUpTo 3) (forkUpTo 3) segment after := by
  rcases respondBackfill_answers_iff fullServer_holds (fun _ => true) (requestUpTo 2 3) with
    ⟨noFork, -⟩ | ⟨origin, existingFork, isOrigin, isFork, returns, answers⟩
  · cases noFork
  · cases isOrigin
    cases isFork
    obtain ⟨after, result⟩ := isSome_iff_exists.mp (returns.mpr ⟨by decide, by decide⟩)
    obtain ⟨segment, answered⟩ := answers after result
    exact ⟨after, segment, result, answered⟩

/-- Neither an inverted range nor a range of 2^60 blocks is survived, whatever memory
there is. -/
theorem malformed_request_aborts :
    respondBackfillWithin (fun _ => true) (fun _ => none) fullServer (requestUpTo 3 2) = none ∧
      respondBackfillWithin (fun _ => true) (fun _ => none) fullServer (requestUpTo 1 (2 ^ 60)) = none :=
  ⟨rfl, rfl⟩

end PirateShip.LogServer
