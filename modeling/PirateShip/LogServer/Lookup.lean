import PirateShip.LogServer
import PirateShip.Staging.ChainInvariant

/-! Looking up blocks in the log server. Whatever was collected, rolled back or read
before, it finds the block that storage has at that place of the chain. -/

set_option autoImplicit false

namespace PirateShip.LogServer

open List HashLinked StepSystem Option

variable {store : BlockStore} {server after : LogServer} {chain : List CachedBlock} {collected n : Nat}
variable {i firstN : Nat} {block : CachedBlock} {binding : Nat × CachedBlock} {readCache : ReadCache}

/-- What is reached from a block by so many links to a parent. -/
def ancestor (store : BlockStore) : Nat → CachedBlock → Option CachedBlock
  | 0, block => some block
  | links + 1, block => (store block.block.parent).bind (ancestor store links)

/-- The log is consecutive and linked, each number up to the last is answered by the
block at its place in the chain, and no other number is. -/
structure ServesChain (store : BlockStore) (server : LogServer) : Prop where
  linked : ∃ first tip, Follows first tip server.log
  found : ∀ last ∈ server.log.getLast?, ∀ n, 1 ≤ n → n ≤ last.block.n → ∃ block after,
    ancestor store (last.block.n - n) last = some block ∧ block.block.n = n ∧
      getBlock store server n = some (some block, after)
  missing : ∀ n, n = 0 ∨ server.lastN < n → getBlock store server n = some (none, server)

inductive Request where
  | input (input : Input)
  | checkHash (n : Nat) (hash : HashType)
  | getHints (lastNeededN : Nat)
  | backfill (nack : ProtoBackfillNack)

def serve (store : BlockStore) (server : LogServer) : Request → Option LogServer
  | .input input => some (server.handle input)
  | .checkHash n hash => (checkHash store server n hash).map (·.2)
  | .getHints lastNeededN => (getHints store server lastNeededN).map (·.2)
  | .backfill nack => respondBackfill store server nack

/-- New blocks are in storage, `bci` grows within the log, and what is collected is
below it. -/
def Admissible (store : BlockStore) (server : LogServer) : Request → Prop
  | .input (.command (.newBlock block)) => store block.blockHash = some block
  | .input (.command (.updateBCI n)) => server.bci ≤ n ∧ n ≤ server.lastN
  | .input (.gc n) => n < server.bci
  | _ => True

instance (store : BlockStore) (server : LogServer) : ∀ request, Decidable (Admissible store server request)
  | .input (.command (.newBlock _)) => inferInstanceAs (Decidable (_ = _))
  | .input (.command (.updateBCI _)) => inferInstanceAs (Decidable (_ ∧ _))
  | .input (.gc _) => inferInstanceAs (Decidable (_ < _))
  | .input (.command (.rollback _)) | .checkHash .. | .getHints _ | .backfill _ => inferInstanceAs (Decidable True)

/-!
## The chain behind the log
-/

/-- The cache holds collected blocks of the chain, under their numbers. -/
def Cached (chain : List CachedBlock) (collected : Nat) (readCache : ReadCache) : Prop :=
  ∀ binding ∈ readCache.cache, ∃ i < collected, binding.1 = i + 1 ∧ chain[i]? = some binding.2

/-- The log is a chain without the blocks that were collected, which are in storage. -/
structure Holds (store : BlockStore) (chain : List CachedBlock) (collected : Nat) (server : LogServer) : Prop where
  linked : Follows 0 none chain
  log : server.log = chain.drop collected
  inside : collected < chain.length ∨ collected = 0
  stored : ∀ block ∈ chain.take collected, store block.blockHash = some block
  cache : Cached chain collected server.readCache

theorem holds_of_chain (linked : Follows 0 none chain) : Holds store chain 0 { log := chain } where
  linked := linked
  log := rfl
  inside := .inr rfl
  stored := forall_mem_nil _
  cache := forall_mem_nil _

theorem number_of_getElem? (linked : Follows 0 none chain)
    (found : chain[i]? = some block) : block.block.n = i + 1 := by
  have number := linked.seq_getElem? found
  rwa [CachedBlock.seq_eq, Nat.zero_add] at number

theorem number_of_getLast? (linked : Follows 0 none chain)
    (ends : chain.getLast? = some block) : block.block.n = chain.length := by
  have number := linked.seq_getLast? ends
  rwa [CachedBlock.seq_eq, Nat.zero_add] at number

theorem Holds.last (holds : Holds store chain collected server) : server.log.getLast? = chain.getLast? := by
  have inside := holds.inside
  rw [holds.log]
  rcases Nat.eq_zero_or_pos chain.length with empty | _
  · rw [length_eq_zero_iff.mp empty, drop_nil]
  · rw [getLast?_drop, if_neg (by omega)]

theorem Holds.lastN (holds : Holds store chain collected server) : server.lastN = chain.length := by
  rw [LogServer.lastN, holds.last]
  cases last : chain.getLast? with
  | none => rw [getLast?_eq_none_iff.mp last]; rfl
  | some block => exact number_of_getLast? holds.linked last

theorem ancestor_getElem? (linked : Follows 0 none chain)
    (stored : ∀ block ∈ chain, store block.blockHash = some block) {links} (found : chain[i]? = some block)
    (inside : links ≤ i) :
    ancestor store links block = chain[i - links]? := by
  induction links generalizing i block with
  | zero => exact found.symm
  | succ links ih =>
    obtain ⟨i, rfl⟩ : ∃ j, i = j + 1 := ⟨i - 1, by omega⟩
    obtain ⟨parent, before⟩ : ∃ parent, chain[i]? = some parent :=
      ⟨_, List.getElem?_eq_getElem (by have := (List.getElem?_eq_some_iff.mp found).1; omega)⟩
    have link : block.block.parent = parent.blockHash := linked.parent_getElem? before found
    rw [ancestor, link, stored parent (mem_of_getElem? before), bind_some, ih before (by omega)]
    congr 1
    omega

/-!
## The read cache
-/

theorem mem_insert {cache} (member : binding ∈ ReadCache.insert cache block) :
    binding = (block.block.n, block) ∨ binding ∈ cache := by
  simp only [ReadCache.insert, mem_append, mem_filter, mem_singleton] at member
  rcases member with (⟨old, -⟩ | new) | ⟨old, -⟩
  · exact .inr old
  · exact .inl new
  · exact .inr old

theorem mem_put (member : binding ∈ (readCache.put block).cache) :
    binding = (block.block.n, block) ∨ binding ∈ readCache.cache := by
  unfold ReadCache.put at member
  split at member
  · split at member
    · next _ => exact .inl ((mem_insert member).resolve_right (not_mem_nil))
    · next _ _ full =>
      split at member
      · exact .inr member
      · exact (mem_insert member).imp_right fun old => full ▸ mem_cons_of_mem _ old
  · exact mem_insert member

theorem Cached.put (cached : Cached chain collected readCache)
    (linked : Follows 0 none chain) (found : chain[i]? = some block) (below : i < collected) :
    Cached chain collected (readCache.put block) := by
  intro binding member
  rcases mem_put member with rfl | old
  · exact ⟨i, below, number_of_getElem? linked found, found⟩
  · exact cached binding old

theorem walkBack_spec (holds : Holds store chain collected server) {j fuel start}
    (cached : Cached chain collected readCache) (found : chain[i]? = some block)
    (starts : chain[j]? = some start) (before : i ≤ j) (below : j ≤ collected) (enough : j ≤ i + fuel) :
    ∃ filled, walkBack store (i + 1) fuel start readCache = some (block, filled) ∧ Cached chain collected filled := by
  have number := number_of_getElem? holds.linked starts
  have arrived (same : j = i) : start = block := by
    subst same
    exact some.inj (starts.symm.trans found)
  induction fuel generalizing j start readCache with
  | zero =>
    have same : j = i := by omega
    refine ⟨readCache, ?_, cached⟩
    rw [walkBack, if_neg (by omega), arrived same]
  | succ fuel ih =>
    rw [walkBack]
    by_cases same : j = i
    · refine ⟨readCache, ?_, cached⟩
      rw [if_neg (by omega), arrived same]
    · obtain ⟨j, rfl⟩ : ∃ k, j = k + 1 := ⟨j - 1, by omega⟩
      obtain ⟨parent, above⟩ : ∃ parent, chain[j]? = some parent :=
        ⟨_, List.getElem?_eq_getElem (by have := (List.getElem?_eq_some_iff.mp starts).1; omega)⟩
      have link : start.block.parent = parent.blockHash := holds.linked.parent_getElem? above starts
      have stored : parent ∈ chain.take collected := mem_of_getElem? ((getElem?_take_of_lt (by omega)).trans above)
      rw [if_pos (by omega), link, holds.stored parent stored]
      refine ih (cached.put holds.linked above (by omega)) above (by omega) (by omega) (by omega)
        (number_of_getElem? holds.linked above) ?_
      intro same
      subst same
      exact some.inj (above.symm.trans found)

/-!
## Lookups
-/

structure Filled (store : BlockStore) (chain : List CachedBlock) (collected : Nat) (server after : LogServer) :
    Prop where
  holds : Holds store chain collected after
  bci : after.bci = server.bci

theorem Holds.fill (holds : Holds store chain collected server)
    (cached : Cached chain collected readCache) : Filled store chain collected server { server with readCache } :=
  ⟨{ holds with cache := cached }, rfl⟩

theorem Holds.filled (holds : Holds store chain collected server) : Filled store chain collected server server :=
  ⟨holds, rfl⟩

theorem Filled.trans {middle} (first : Filled store chain collected server middle)
    (second : Filled store chain collected middle after) : Filled store chain collected server after :=
  ⟨second.holds, second.bci.trans first.bci⟩

theorem getBlock_missing (holds : Holds store chain collected server) (outside : n = 0 ∨ chain.length < n) :
    getBlock store server n = some (none, server) := by
  unfold getBlock
  split
  · next _ _ _ atLast =>
    have number := number_of_getLast? holds.linked (holds.last ▸ atLast)
    rw [if_pos (by omega)]
  · rfl

theorem find?_of_mem {log first tip} (linked : Follows first tip log) (member : block ∈ log) :
    log.find? (fun other => other.block.n == block.block.n) = some block := by
  cases search : log.find? (fun other => other.block.n == block.block.n) with
  | none => exact absurd (beq_self_eq_true _) (find?_eq_none.mp search block member)
  | some other =>
    have same : other.block.n = block.block.n := by simpa using find?_some search
    rw [linked.eq_of_seq_eq (mem_of_find?_eq_some search) member same]

theorem find?_eq_some (linked : Follows 0 none chain) {k} (found : chain[i]? = some block) (inside : k ≤ i) :
    (chain.drop k).find? (fun other => other.block.n == i + 1) = some block := by
  have member : block ∈ chain.drop k := by
    refine mem_of_getElem? (i := i - k) ?_
    rw [getElem?_drop, show k + (i - k) = i by omega, found]
  rw [← number_of_getElem? linked found]
  exact find?_of_mem (linked.drop k) member

theorem getGcedBlock_found (holds : Holds store chain collected server) {first} (found : chain[i]? = some block)
    (atHead : server.log.head? = some first) (starts : chain[collected]? = some first) (below : i < collected) :
    ∃ after, getGcedBlock store server (i + 1) = some (some block, after) ∧
      Filled store chain collected server after := by
  have firstNumber := number_of_getElem? holds.linked starts
  simp only [getGcedBlock, atHead, if_neg (show ¬ first.block.n ≤ i + 1 by omega), ReadCache.get]
  cases hit : server.readCache.cache.find? (fun binding => binding.1 == i + 1) with
  | some binding =>
    obtain ⟨k, -, number, isCached⟩ := holds.cache binding (mem_of_find?_eq_some hit)
    have asked : binding.1 = i + 1 := by simpa using find?_some hit
    obtain rfl : k = i := by omega
    cases isCached.symm.trans found
    exact ⟨server, rfl, holds.filled⟩
  | none =>
    -- The walk starts from a block of the chain, at or above the one asked for.
    obtain ⟨k, start, isStart, atK, above, inside⟩ : ∃ k start,
        ((server.readCache.cache.find? fun binding => decide (i + 1 ≤ binding.1)).map (·.2)).getD first = start ∧
        chain[k]? = some start ∧ i ≤ k ∧ k ≤ collected := by
      cases next : server.readCache.cache.find? fun binding => decide (i + 1 ≤ binding.1) with
      | none => exact ⟨collected, first, rfl, starts, below.le, Nat.le_refl _⟩
      | some binding =>
        obtain ⟨k, under, number, isCached⟩ := holds.cache binding (mem_of_find?_eq_some next)
        have upTo : i + 1 ≤ binding.1 := by simpa using find?_some next
        exact ⟨k, binding.2, rfl, isCached, by omega, under.le⟩
    have number := number_of_getElem? holds.linked atK
    obtain ⟨filled, walked, cached⟩ :=
      walkBack_spec holds holds.cache found atK above inside (show k ≤ i + start.block.n by omega)
    refine ⟨{ server with readCache := filled }, ?_, holds.fill cached⟩
    simp only [isStart, walked, map_some]

theorem getBlock_found (holds : Holds store chain collected server) (found : chain[i]? = some block) :
    ∃ after, getBlock store server (i + 1) = some (some block, after) ∧
      Filled store chain collected server after := by
  have inside := holds.inside
  have bound := (List.getElem?_eq_some_iff.mp found).1
  obtain ⟨first, starts⟩ : ∃ first, chain[collected]? = some first :=
    ⟨_, List.getElem?_eq_getElem (show collected < chain.length by omega)⟩
  obtain ⟨last, ends⟩ : ∃ last, chain.getLast? = some last :=
    isSome_iff_exists.mp (getLast?_isSome.mpr (ne_nil_of_mem (mem_of_getElem? found)))
  have atHead : server.log.head? = some first := by rw [holds.log, head?_drop, starts]
  have lastNumber := number_of_getLast? holds.linked ends
  have firstNumber := number_of_getElem? holds.linked starts
  simp only [getBlock, atHead, holds.last, ends]
  rw [if_neg (by omega)]
  split
  · next _ => exact getGcedBlock_found holds found atHead starts (by omega)
  · next _ =>
    refine ⟨server, ?_, holds.filled⟩
    rw [holds.log, find?_eq_some holds.linked found (by omega)]

def blockAt (chain : List CachedBlock) (n : Nat) : Option CachedBlock := if n = 0 then none else chain[n - 1]?

theorem getBlock_spec (holds : Holds store chain collected server) (n) :
    ∃ after, getBlock store server n = some (blockAt chain n, after) ∧ Filled store chain collected server after := by
  unfold blockAt
  rcases Nat.eq_zero_or_pos n with rfl | _
  · exact ⟨server, getBlock_missing holds (.inl rfl), holds.filled⟩
  · obtain ⟨i, rfl⟩ : ∃ i, n = i + 1 := ⟨n - 1, by omega⟩
    rw [Nat.add_sub_cancel]
    cases found : chain[i]? with
    | none =>
      have outside := getElem?_eq_none_iff.mp found
      exact ⟨server, getBlock_missing holds (.inr (by omega)), holds.filled⟩
    | some block => exact getBlock_found holds found

/-!
## Queries
-/

theorem blockAt_eq_some_iff (linked : Follows 0 none chain) :
    blockAt chain n = some block ↔ block ∈ chain ∧ block.block.n = n := by
  unfold blockAt
  constructor
  · intro found
    split at found
    · cases found
    · refine ⟨mem_of_getElem? found, ?_⟩
      rw [number_of_getElem? linked found]
      omega
  · rintro ⟨member, rfl⟩
    obtain ⟨i, found⟩ := mem_iff_getElem?.mp member
    rw [number_of_getElem? linked found, if_neg (by omega), Nat.add_sub_cancel, found]

theorem checkHash_spec (holds : Holds store chain collected server) (n hash) :
    ∃ after, checkHash store server n hash = some (decide (n = 0) ||
        ((blockAt chain n).map fun block => block.blockHash == hash).getD false, after) ∧
      Filled store chain collected server after := by
  unfold checkHash
  split
  · next zero => exact ⟨server, by simp [zero], holds.filled⟩
  · next positive =>
    obtain ⟨after, looked, filled⟩ := getBlock_spec holds n
    exact ⟨after, by simp [looked, positive], filled⟩

def HintsOf (chain : List CachedBlock) (hints : List ProtoBlockHint) : Prop :=
  ∀ hint ∈ hints, ∃ block, blockAt chain hint.blockN = some block ∧ hint.digest = block.blockHash

variable (holds : Holds store chain collected server)
include holds

theorem hintsFrom_spec (lastN fuel currN currJump used) :
    ∃ hints after, hintsFrom store lastN fuel server currN currJump used = some (hints, after) ∧
      HintsOf chain hints ∧ Filled store chain collected server after := by
  induction fuel generalizing server currN currJump used with
  | zero => exact ⟨[], server, rfl, forall_mem_nil _, holds.filled⟩
  | succ fuel ih =>
    rw [hintsFrom]
    split
    · exact ⟨[], server, rfl, forall_mem_nil _, holds.filled⟩
    · obtain ⟨middle, looked, filled⟩ := getBlock_spec holds currN
      rw [looked]
      cases found : blockAt chain currN with
      | none => exact ⟨[], middle, rfl, forall_mem_nil _, filled⟩
      | some block =>
        dsimp only
        obtain ⟨hints, after, rest, ofChain, more⟩ := ih filled.holds (currN + currJump)
          (if 10 ≤ used + 1 then (currJump * 10, 0) else (currJump, used + 1)).1
          (if 10 ≤ used + 1 then (currJump * 10, 0) else (currJump, used + 1)).2
        rw [rest]
        refine ⟨_, after, rfl, forall_mem_cons.mpr ⟨⟨block, ?_, rfl⟩, ofChain⟩, filled.trans more⟩
        rwa [((blockAt_eq_some_iff holds.linked).mp found).2]

theorem getHints_spec (lastNeededN) :
    ∃ hints after, getHints store server lastNeededN = some (hints, after) ∧ HintsOf chain hints ∧
      Filled store chain collected server after := by
  unfold getHints
  obtain ⟨hints, middle, jumped, ofChain, filled⟩ := hintsFrom_spec holds server.lastN server.lastN
    (if lastNeededN = 0 then 1 else lastNeededN) 1000 0
  simp only [jumped]
  split
  · exact ⟨hints, middle, rfl, ofChain, filled⟩
  · next nonempty =>
    rw [holds.lastN] at nonempty ⊢
    obtain ⟨block, found⟩ : ∃ block, blockAt chain chain.length = some block := by
      rw [blockAt, if_neg nonempty]
      exact ⟨_, getElem?_eq_getElem (by omega)⟩
    obtain ⟨after, looked, more⟩ := getBlock_spec filled.holds chain.length
    rw [looked, found]
    refine ⟨_, after, rfl, forall_mem_append.mpr ⟨ofChain, ?_⟩, filled.trans more⟩
    refine forall_mem_singleton.mpr ⟨block, ?_, rfl⟩
    rwa [((blockAt_eq_some_iff holds.linked).mp found).2]

theorem fillDown_spec (hints firstN count forkQueue) :
    ∃ below after, fillDown store hints firstN count server forkQueue =
        some ((chain.take (firstN + count - 1)).drop below ++ forkQueue, after) ∧
      Filled store chain collected server after ∧ below ≤ firstN + count - 1 ∧
      (firstN + count - 1 ≤ chain.length → below = firstN - 1 ∨ firstN ≤ below ∧
        ∃ block, blockAt chain below = some block ∧ hintMatches hints below block.blockHash = true) := by
  induction count generalizing server forkQueue with
  | zero =>
    refine ⟨firstN - 1, server, ?_, holds.filled, Nat.le_refl _, fun _ => .inl rfl⟩
    rw [Nat.add_zero, drop_eq_nil_of_le (length_take_le _ _)]
    rfl
  | succ count ih =>
    obtain ⟨middle, looked, filled⟩ := getBlock_spec holds (firstN + count)
    rw [fillDown, looked, ← Nat.add_assoc, Nat.add_sub_cancel]
    cases found : blockAt chain (firstN + count) with
    | none =>
      refine ⟨firstN + count, middle, ?_, filled, Nat.le_refl _, fun inside => .inl ?_⟩
      · rw [drop_eq_nil_of_le (length_take_le _ _), nil_append]
      · -- Within the chain only number 0 has no block.
        by_contra other
        rw [blockAt, if_neg (by omega), getElem?_eq_none_iff] at found
        omega
    | some block =>
      dsimp only
      split
      · next hinted =>
        refine ⟨firstN + count, middle, ?_, filled, Nat.le_refl _,
          fun _ => .inr ⟨Nat.le_add_right _ _, block, found, hinted⟩⟩
        rw [drop_eq_nil_of_le (length_take_le _ _), nil_append]
      · obtain ⟨below, after, filledDown, more, bound, stops⟩ := ih filled.holds (block :: forkQueue)
        have inside : firstN + count ≠ 0 ∧ chain[firstN + count - 1]? = some block := by
          unfold blockAt at found
          split at found
          · cases found
          · next positive => exact ⟨positive, found⟩
        have taken : chain.take (firstN + count) = chain.take (firstN + count - 1) ++ [block] := by
          obtain ⟨k, isNext⟩ : ∃ k, firstN + count = k + 1 := ⟨firstN + count - 1, by omega⟩
          rw [isNext, Nat.add_sub_cancel] at inside ⊢
          rw [take_add_one, inside.2]
          rfl
        have within := (List.getElem?_eq_some_iff.mp inside.2).1
        refine ⟨below, after, ?_, filled.trans more, by omega, fun _ => stops (by omega)⟩
        rw [filledDown, taken, drop_append_of_le_length, append_assoc, singleton_append]
        rw [length_take, Nat.min_eq_left (by omega)]
        exact bound

omit holds

theorem ordered_of_fillFork {hints lastN result}
    (filledFork : fillFork store server firstN lastN hints = some result) : firstN ≤ lastN := by
  unfold fillFork at filledFork
  split at filledFork
  · cases filledFork
  · next ordered => exact Nat.not_lt.mp ordered

theorem fillFork_spec {lastN} (holds : Holds store chain collected server) (hints) (ordered : firstN ≤ lastN) :
    ∃ below after, fillFork store server firstN lastN hints =
        some (⟨((chain.take lastN).drop below).map (·.toHalfSerialized)⟩, after) ∧
      Filled store chain collected server after ∧ below ≤ lastN ∧
      (lastN ≤ chain.length → below = firstN - 1 ∨ firstN ≤ below ∧
        ∃ block, blockAt chain below = some block ∧ hintMatches hints below block.blockHash = true) := by
  have count : firstN + (lastN - firstN + 1) - 1 = lastN := by omega
  obtain ⟨below, after, filledDown, filled, bound, stops⟩ := fillDown_spec holds hints firstN (lastN - firstN + 1) []
  rw [count] at filledDown bound stops
  refine ⟨below, after, ?_, filled, bound, stops⟩
  rw [fillFork, if_neg (Nat.not_lt.mpr ordered), filledDown, append_nil]
  rfl

/-!
## Requests
-/

structure Sound (store : BlockStore) (chain : List CachedBlock) (collected : Nat) (server : LogServer) : Prop
    extends Holds store chain collected server where
  all : ∀ block ∈ chain, store block.blockHash = some block
  committed : server.bci ≤ chain.length
  below : collected < server.bci ∨ collected = 0

theorem Filled.sound (filled : Filled store chain collected server after)
    (sound : Sound store chain collected server) :
    Sound store chain collected after :=
  ⟨filled.holds, sound.all, filled.bci ▸ sound.committed, filled.bci ▸ sound.below⟩

variable (sound : Sound store chain collected server)
include sound

theorem Sound.serves : ServesChain store server := by
  have holds := sound.toHolds
  refine ⟨?_, ?_, fun n outside => ?_⟩
  · exact ⟨_, _, holds.log ▸ holds.linked.drop collected⟩
  · intro last isLast n positive inside
    have atLast : chain.getLast? = some last := holds.last ▸ isLast
    have number := number_of_getLast? holds.linked atLast
    obtain ⟨block, found⟩ : ∃ block, chain[n - 1]? = some block :=
      ⟨_, getElem?_eq_getElem (show n - 1 < chain.length by omega)⟩
    obtain ⟨after, looked, -⟩ := getBlock_found holds found
    rw [show n - 1 + 1 = n by omega] at looked
    refine ⟨block, after, ?_, ?_, looked⟩
    · rw [getLast?_eq_getElem?] at atLast
      rw [ancestor_getElem? holds.linked sound.all atLast (by omega), ← found]
      congr 1
      omega
    · rw [number_of_getElem? holds.linked found]
      omega
  · exact getBlock_missing holds (holds.lastN ▸ outside)

theorem Sound.newBlock (stored : store block.blockHash = some block) :
    ∃ chain, Sound store chain collected (server.handleNewBlock block) := by
  have last := sound.lastN
  unfold handleNewBlock
  split
  · exact ⟨chain, sound⟩
  · next number =>
    rw [Decidable.not_not, last] at number
    split
    · exact ⟨chain, sound⟩
    · next link =>
      have inside : collected ≤ chain.length := sound.inside.elim Nat.le_of_lt fun zero => by omega
      have committed := sound.committed
      refine ⟨chain ++ [block], ⟨?_, ?_, ?_, ?_, ?_⟩, ?_, ?_, sound.below⟩
      · refine follows_concat.mpr ⟨sound.linked, by rw [CachedBlock.seq_eq, number, Nat.zero_add], ?_⟩
        intro hash atEnd
        rw [endTip, or_none, ← sound.last] at atEnd
        have atEnd : server.log.getLast?.map (·.blockHash) = some hash := atEnd
        have nonempty : 0 < server.lastN := by
          rw [last, length_pos_iff]
          rintro rfl
          rw [sound.last] at atEnd
          cases atEnd
        rw [atEnd] at link
        exact (some.inj (Decidable.not_not.mp fun other => link ⟨nonempty, other⟩)).symm
      · rw [drop_append_of_le_length inside, ← sound.log]
      · rw [length_append, length_singleton]
        omega
      · rw [take_append_of_le_length inside]
        exact sound.stored
      · intro binding member
        obtain ⟨i, under, isNumber, found⟩ := sound.cache binding member
        exact ⟨i, under, isNumber, by rw [List.getElem?_append_left (List.getElem?_eq_some_iff.mp found).1, found]⟩
      · intro other member
        rcases mem_append.mp member with old | new
        · exact sound.all other old
        · exact mem_singleton.mp new ▸ stored
      · rw [length_append]
        exact Nat.le_add_right_of_le committed

theorem Sound.rollback (n) : ∃ chain, Sound store chain collected (server.handleRollback n) := by
  unfold handleRollback
  obtain ⟨m, isBound, above⟩ : ∃ m, (if n ≤ server.bci then server.bci + 1 else n) = m ∧ server.bci < m := by
    split <;> exact ⟨_, rfl, by omega⟩
  rw [isBound]
  have below := sound.below
  have committed := sound.committed
  refine ⟨chain.take m, ⟨sound.linked.take m, ?_, ?_, ?_, ?_⟩, ?_, ?_, below⟩
  · have cut := (sound.linked.drop collected).filter_seq_le m
    simp only [CachedBlock.seq_eq] at cut
    simp only
    rw [sound.log, cut, length_take, Nat.zero_add, Nat.min_eq_left (by omega), drop_take]
  · rw [length_take]
    omega
  · rw [take_take, Nat.min_eq_left (by omega)]
    exact sound.stored
  · intro binding member
    obtain ⟨i, under, isNumber, found⟩ := sound.cache binding (mem_of_mem_filter member)
    exact ⟨i, under, isNumber, by rw [getElem?_take_of_lt (by omega), found]⟩
  · exact fun block member => sound.all block (mem_of_mem_take member)
  · rw [length_take]
    exact Nat.le_min.mpr ⟨above.le, committed⟩

theorem Sound.gc (below : n < server.bci) : Sound store chain (max collected n) (server.handleGc n) := by
  have kept := sound.below
  have committed := sound.committed
  refine ⟨⟨sound.linked, ?_, ?_, ?_, ?_⟩, sound.all, committed, ?_⟩
  · have cut := (sound.linked.drop collected).filter_lt_seq n
    simp only [CachedBlock.seq_eq] at cut
    have position : collected + (n - (0 + min collected chain.length)) = max collected n := by omega
    rw [handleGc, sound.log, cut, drop_drop, length_take, position]
  · omega
  · exact fun block member => sound.all block (mem_of_mem_take member)
  · intro binding member
    obtain ⟨i, under, rest⟩ := sound.cache binding member
    exact ⟨i, Nat.lt_of_lt_of_le under (Nat.le_max_left _ _), rest⟩
  · simp only [handleGc]
    omega

theorem Sound.updateBCI (grows : server.bci ≤ n ∧ n ≤ server.lastN) :
    Sound store chain collected { server with bci := n } :=
  ⟨{ sound.toHolds with }, sound.all, sound.lastN ▸ grows.2, sound.below.imp_left (Nat.lt_of_lt_of_le · grows.1)⟩

theorem Sound.respondBackfill {nack} (responded : server.respondBackfill store nack = some after) :
    Sound store chain collected after := by
  unfold LogServer.respondBackfill at responded
  split at responded
  · cases responded
    exact sound
  · split at responded
    · cases responded
      exact sound
    · obtain ⟨⟨_, _⟩, filledFork, rfl⟩ := map_eq_some_iff.mp responded
      obtain ⟨_, _, looked, filled, -⟩ := fillFork_spec sound.toHolds _ (ordered_of_fillFork filledFork)
      cases looked.symm.trans filledFork
      have answered := filled.sound sound
      exact ⟨{ answered.toHolds with }, answered.all, answered.committed, answered.below⟩

theorem Sound.serve {request} (admissible : Admissible store server request)
    (served : server.serve store request = some after) :
    ∃ chain collected, Sound store chain collected after := by
  cases request with
  | input input =>
    cases served
    cases input with
    | command cmd =>
      cases cmd with
      | newBlock block =>
        obtain ⟨chain, sound⟩ := sound.newBlock admissible
        exact ⟨chain, collected, sound⟩
      | rollback n =>
        obtain ⟨chain, sound⟩ := sound.rollback n
        exact ⟨chain, collected, sound⟩
      | updateBCI n => exact ⟨chain, collected, sound.updateBCI admissible⟩
    | gc n => exact ⟨chain, max collected n, sound.gc admissible⟩
  | checkHash n hash =>
    obtain ⟨_, looked, filled⟩ := checkHash_spec sound.toHolds n hash
    simp only [LogServer.serve, looked, map_some, some.injEq] at served
    exact ⟨chain, collected, served ▸ filled.sound sound⟩
  | getHints lastNeededN =>
    obtain ⟨_, _, looked, -, filled⟩ := getHints_spec sound.toHolds lastNeededN
    simp only [LogServer.serve, looked, map_some, some.injEq] at served
    exact ⟨chain, collected, served ▸ filled.sound sound⟩
  | backfill nack => exact ⟨chain, collected, sound.respondBackfill served⟩

omit sound

theorem sound_new (store) : Sound store [] 0 {} where
  linked := trivial
  log := rfl
  inside := .inr rfl
  stored := forall_mem_nil _
  cache := forall_mem_nil _
  all := forall_mem_nil _
  committed := Nat.le_refl _
  below := .inr rfl

/-- In every run, whatever was collected, rolled back or looked up, the log server
serves the chain that ends with its log. -/
theorem servesChain_of_reaches (reached : Reaches (serve store) (Admissible store) {} server) :
    ServesChain store server := by
  obtain ⟨chain, collected, sound⟩ : ∃ chain collected, Sound store chain collected server := by
    apply reached.invariant (motive := fun server => ∃ chain collected, Sound store chain collected server)
      ⟨[], 0, sound_new store⟩
    rintro _ _ _ ⟨chain, collected, sound⟩ admissible served
    exact sound.serve admissible served
  exact sound.serves

def fourBlocks : List CachedBlock :=
  [Staging.sampleBlock 1 1 1 0 [], Staging.sampleBlock 2 1 2 1 [], Staging.sampleBlock 3 1 3 2 [],
    Staging.sampleBlock 4 1 4 3 []]

theorem servesChain_of_collected : ∃ server,
    Reaches (serve fun hash => fourBlocks.find? fun block => block.blockHash == hash)
      (Admissible fun hash => fourBlocks.find? fun block => block.blockHash == hash) {} server ∧
    (server.log.map (·.block.n) = [2, 3] ∧ server.readCache.cache.map (·.1) = [1]) ∧
    ServesChain (fun hash => fourBlocks.find? fun block => block.blockHash == hash) server :=
  exists_reaches_and (fourBlocks.map (fun block => .input (.command (.newBlock block))) ++
      [.input (.command (.updateBCI 2)), .input (.gc 1), .checkHash 1 [], .input (.command (.rollback 3))])
    (by decide +kernel) (by decide +kernel) fun reached _ => servesChain_of_reaches reached

end PirateShip.LogServer
