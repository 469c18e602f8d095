import PirateShip.Crypto.Accepted
import PirateShip.ForkReceiver
import PirateShip.LogServer.Lookup

/-! Backfill between two nodes. A requester that does not know the parent of a fork
asks for a hundred blocks more, with hints of what it has, until the fork starts from
a block that it knows or from the first one. -/

set_option autoImplicit false

namespace PirateShip.ForkReceiver

open List HashLinked LogServer Option

variable {server : LogServer} {ae : ProtoAppendEntries} {hints : List ProtoBlockHint}

/-- The two sides, and the message that goes back and forth. -/
structure Exchange where
  receiver : ForkReceiver
  requester : LogServer
  responder : LogServer
  ae : ProtoAppendEntries

section

variable (crypto : CryptoService) (requesterStore responderStore : BlockStore) (sender : String)

/-- The requester nacks the message, and the responder answers the nack. -/
def Exchange.round (state : Exchange) : Option Exchange :=
  match sendNack crypto requesterStore state.receiver state.requester sender state.ae with
  | none => none
  | some (receiver, requester) =>
    match receiver.client.getLast? with
    | some (_, .backfillNack nack) =>
      match respondBackfill responderStore state.responder nack with
      | none => none
      | some responder =>
        match responder.client.getLast? with
        | some (_, .appendEntries ae) => some { receiver, requester, responder, ae }
        | _ => none
    | _ => none

/-- Rounds until the requester accepts, but no more than so many. -/
def Exchange.converge : Nat → Exchange → Option Exchange
  | rounds, state =>
    match ensureCommonPrefix requesterStore state.receiver state.requester state.ae with
    | none => none
    | some (true, requester) => some { state with requester }
    | some (false, requester) =>
      match rounds with
      | 0 => none
      | rounds + 1 =>
        (Exchange.round crypto requesterStore responderStore sender { state with requester }).bind (converge rounds)

end

def Known (receiver : ForkReceiver) (chain : List CachedBlock) (n : Nat) (hash : HashType) : Prop :=
  receiver.lastAeBlockHash = some hash ∨ n = 0 ∨ ∃ block, blockAt chain n = some block ∧ block.blockHash = hash

variable {crypto : CryptoService} {requesterStore responderStore : BlockStore} {sender : String}
  {state : Exchange} {mine theirs : List CachedBlock} {collected gone below last : Nat}

/-!
## The requester
-/

def Carries (ae : ProtoAppendEntries) (chain : List CachedBlock) (below last : Nat) : Prop :=
  ae.fork = some ⟨((chain.take last).drop below).map (·.toHalfSerialized)⟩

theorem head?_segment (nonempty : below < last) : ((theirs.take last).drop below).head? = theirs[below]? := by
  rw [head?_drop, getElem?_take_of_lt nonempty]

theorem getLast?_segment (nonempty : below < last) (inside : last ≤ theirs.length) :
    ((theirs.take last).drop below).getLast? = theirs[last - 1]? := by
  have length : (theirs.take last).length = last := by rw [length_take, Nat.min_eq_left inside]
  rw [getLast?_drop, if_neg (by omega), getLast?_eq_getElem?, length, getElem?_take_of_lt (by omega)]

theorem ensureCommonPrefix_spec {first} (receiver) (holds : Holds requesterStore mine collected server)
    (linked : Follows 0 none theirs) (carries : Carries ae theirs below last) (nonempty : below < last)
    (starts : theirs[below]? = some first)
    (inSer : getParentHashInProtoBlockSer first.blockSer = some first.block.parent) :
    ∃ accepts after, ensureCommonPrefix requesterStore receiver server ae = some (accepts, after) ∧
      (accepts = true ↔ Known receiver mine below first.block.parent) ∧
      Filled requesterStore mine collected server after := by
  have number := number_of_getElem? linked starts
  have head : (((theirs.take last).drop below).map (·.toHalfSerialized)).head? = some first.toHalfSerialized := by
    rw [head?_map, head?_segment nonempty, starts]
    rfl
  unfold ensureCommonPrefix
  rw [carries]
  dsimp only
  rw [head]
  simp only [CachedBlock.toHalfSerialized, inSer]
  by_cases forwarded : receiver.lastAeBlockHash = some first.block.parent
  · rw [if_pos forwarded]
    exact ⟨true, server, rfl, by simp [Known, forwarded], holds.filled⟩
  · rw [if_neg forwarded, number]
    obtain ⟨after, checked, filled⟩ := checkHash_spec holds below first.block.parent
    refine ⟨_, after, checked, ?_, filled⟩
    cases found : blockAt mine below <;> simp [Known, forwarded, found]

theorem sendNack_of_carries {first} (crypto sender receiver)
    (holds : Holds requesterStore mine collected server) (linked : Follows 0 none theirs)
    (carries : Carries ae theirs below last) (nonempty : below < last) (starts : theirs[below]? = some first) :
    ∃ hints after, sendNack crypto requesterStore receiver server sender ae = some ({ receiver with
            waitingOnNackReply := true
            client := receiver.client ++ [(sender, .backfillNack
              { origin := some (.ae ae), hints, lastIndexNeeded := below + 1 - 100
                replyName := crypto.config.netConfig.name })] }, after) ∧
      HintsOf mine hints ∧ Filled requesterStore mine collected server after := by
  have number := number_of_getElem? linked starts
  have head : (((theirs.take last).drop below).map (·.toHalfSerialized)).head? = some first.toHalfSerialized := by
    rw [head?_map, head?_segment nonempty, starts]
    rfl
  have needed : (if 100 < below + 1 then below + 1 - 100 else 0) = below + 1 - 100 := by
    split <;> omega
  unfold sendNack
  rw [carries]
  dsimp only
  rw [head]
  simp only [map_some, CachedBlock.toHalfSerialized, number, needed]
  obtain ⟨hints, after, asked, ofChain, filled⟩ := getHints_spec holds (below + 1 - 100)
  rw [asked]
  exact ⟨hints, after, rfl, ofChain, filled⟩

/-!
## The responder
-/

theorem hintMatches_spec {n hash} (hinted : HintsOf mine hints) (isMatch : hintMatches hints n hash = true) :
    ∃ block, blockAt mine n = some block ∧ block.blockHash = hash := by
  unfold hintMatches at isMatch
  cases found : (hints.filter fun hint => hint.blockN == n).getLast? with
  | none => simp [found] at isMatch
  | some hint =>
    rw [found] at isMatch
    have member := mem_of_getLast? found
    rw [mem_filter, beq_iff_eq] at member
    obtain ⟨block, atNumber, digest⟩ := hinted hint member.1
    refine ⟨block, member.2 ▸ atNumber, ?_⟩
    simpa [digest] using isMatch

theorem respondBackfill_spec (name) (holds : Holds responderStore theirs gone server)
    (carries : Carries ae theirs below last) (nonempty : below < last) (inside : last ≤ theirs.length)
    (hinted : HintsOf mine hints) :
    ∃ lower after, respondBackfill responderStore server
        { origin := some (.ae ae), hints, lastIndexNeeded := below + 1 - 100, replyName := name } =
        some { after with client := after.client ++ [(name, .appendEntries { ae with
          fork := some ⟨((theirs.take last).drop lower).map (·.toHalfSerialized)⟩
          isBackfillResponse := true })] } ∧
      Filled responderStore theirs gone server after ∧ lower ≤ last ∧
      (lower = below - 100 ∨ ∃ ours other, blockAt mine lower = some ours ∧ blockAt theirs lower = some other ∧
        ours.blockHash = other.blockHash) := by
  obtain ⟨final, ends⟩ : ∃ final, theirs[last - 1]? = some final := ⟨_, getElem?_eq_getElem (by omega)⟩
  have atEnd : (((theirs.take last).drop below).map (·.toHalfSerialized)).getLast? = some final.toHalfSerialized := by
    rw [getLast?_map, getLast?_segment nonempty inside, ends]
    rfl
  have number : final.toHalfSerialized.n = last := by
    have atLast := number_of_getElem? holds.linked ends
    simp only [CachedBlock.toHalfSerialized]
    omega
  obtain ⟨lower, after, filledFork, filled, bound, stops⟩ :=
    fillFork_spec holds hints (show below + 1 - 100 ≤ last by omega)
  refine ⟨lower, after, ?_, filled, bound, ?_⟩
  · have origin : BackfillOrigin.fork (.ae ae) =
        some ⟨((theirs.take last).drop below).map (·.toHalfSerialized)⟩ := carries
    simp only [respondBackfill, origin, atEnd, number, filledFork]
    rfl
  · rcases stops inside with _ | ⟨-, other, atLower, isMatch⟩
    · exact .inl (by omega)
    · obtain ⟨ours, mineAt, same⟩ := hintMatches_spec hinted isMatch
      exact .inr ⟨ours, other, mineAt, atLower, same⟩

/-!
## Rounds
-/

structure Between (requesterStore responderStore : BlockStore) (mine theirs : List CachedBlock)
    (collected gone below last : Nat) (state : Exchange) : Prop where
  requester : Holds requesterStore mine collected state.requester
  responder : Holds responderStore theirs gone state.responder
  carries : Carries state.ae theirs below last
  nonempty : below < last

theorem Exchange.round_spec (crypto sender)
    (between : Between requesterStore responderStore mine theirs collected gone below last state)
    (inside : last ≤ theirs.length) :
    ∃ next lower, Exchange.round crypto requesterStore responderStore sender state = some next ∧
      Holds requesterStore mine collected next.requester ∧ Holds responderStore theirs gone next.responder ∧
      Carries next.ae theirs lower last ∧ next.receiver.lastAeBlockHash = state.receiver.lastAeBlockHash ∧
      lower ≤ last ∧ (lower = below - 100 ∨ ∃ ours other, blockAt mine lower = some ours ∧
        blockAt theirs lower = some other ∧ ours.blockHash = other.blockHash) := by
  have nonempty := between.nonempty
  obtain ⟨first, starts⟩ : ∃ first, theirs[below]? = some first :=
    ⟨_, getElem?_eq_getElem (by omega)⟩
  obtain ⟨hints, requester, nacked, hinted, filled⟩ := sendNack_of_carries crypto sender state.receiver
    between.requester between.responder.linked between.carries nonempty starts
  obtain ⟨lower, responder, answered, served, bound, lowers⟩ := respondBackfill_spec crypto.config.netConfig.name
    between.responder between.carries nonempty inside hinted
  let next : Exchange :=
    { receiver := { state.receiver with
        waitingOnNackReply := true
        client := state.receiver.client ++ [(sender, .backfillNack
          { origin := some (.ae state.ae), hints, lastIndexNeeded := below + 1 - 100
            replyName := crypto.config.netConfig.name })] }
      requester
      responder := { responder with client := responder.client ++ [(crypto.config.netConfig.name,
        .appendEntries { state.ae with
          fork := some ⟨((theirs.take last).drop lower).map (·.toHalfSerialized)⟩
          isBackfillResponse := true })] }
      ae := { state.ae with
        fork := some ⟨((theirs.take last).drop lower).map (·.toHalfSerialized)⟩
        isBackfillResponse := true } }
  refine ⟨next, lower, ?_, filled.holds, { served.holds with }, rfl, rfl, bound, lowers⟩
  simp only [Exchange.round, nacked, getLast?_append, getLast?_singleton, some_or, answered]
  rfl

section Converges

variable (faithful : ∀ ours ∈ mine, ∀ other ∈ theirs, ours.blockHash = other.blockHash → ours = other)
  (carriesParent : ∀ block ∈ theirs, getParentHashInProtoBlockSer block.blockSer = some block.block.parent)

include faithful

theorem known_of_meet {first ours other lower n} (receiver) (mineLinked : Follows 0 none mine)
    (linked : Follows 0 none theirs) (starts : theirs[n]? = some first) (upTo : n ≤ lower)
    (mineAt : blockAt mine lower = some ours) (atLower : blockAt theirs lower = some other)
    (same : ours.blockHash = other.blockHash) : Known receiver mine n first.block.parent := by
  rcases Nat.eq_zero_or_pos n with zero | positive
  · exact .inr (.inl zero)
  · have nonzero : lower ≠ 0 := by omega
    rw [blockAt, if_neg nonzero] at mineAt atLower
    have agree := mineLinked.take_eq linked faithful mineAt atLower same
    obtain ⟨parent, before⟩ : ∃ parent, theirs[n - 1]? = some parent :=
      ⟨_, List.getElem?_eq_getElem (by have := (List.getElem?_eq_some_iff.mp starts).1; omega)⟩
    have link : first.block.parent = parent.blockHash :=
      linked.parent_getElem? before (by rwa [Nat.sub_add_cancel positive])
    refine .inr (.inr ⟨parent, ?_, link.symm⟩)
    rw [blockAt, if_neg (by omega), ← getElem?_take_of_lt (show n - 1 < lower - 1 + 1 by omega), agree,
      getElem?_take_of_lt (by omega), before]

include carriesParent

theorem Exchange.converge_spec {rounds first}
    (between : Between requesterStore responderStore mine theirs collected gone below last state)
    (inside : last ≤ theirs.length) (starts : theirs[below]? = some first)
    (enough : below ≤ 100 * rounds ∨ Known state.receiver mine below first.block.parent) :
    ∃ final lower first, Exchange.converge crypto requesterStore responderStore sender rounds state = some final ∧
      Holds requesterStore mine collected final.requester ∧
      final.receiver.lastAeBlockHash = state.receiver.lastAeBlockHash ∧ Carries final.ae theirs lower last ∧
      lower < last ∧ theirs[lower]? = some first ∧ Known state.receiver mine lower first.block.parent := by
  induction rounds generalizing state below first with
  | zero =>
    have known : Known state.receiver mine below first.block.parent :=
      enough.elim (fun zero => .inr (.inl (by omega))) id
    obtain ⟨accepts, requester, checked, iff, filled⟩ := ensureCommonPrefix_spec state.receiver between.requester
      between.responder.linked between.carries between.nonempty starts
      (carriesParent first (mem_of_getElem? starts))
    refine ⟨{ state with requester }, below, first, ?_, filled.holds, rfl, between.carries, between.nonempty, starts,
      known⟩
    rw [Exchange.converge, checked, iff.mpr known]
  | succ rounds ih =>
    obtain ⟨accepts, requester, checked, iff, filled⟩ := ensureCommonPrefix_spec state.receiver between.requester
      between.responder.linked between.carries between.nonempty starts
      (carriesParent first (mem_of_getElem? starts))
    cases accepts with
    | true =>
      refine ⟨{ state with requester }, below, first, ?_, filled.holds, rfl, between.carries,
        between.nonempty, starts,
        iff.mp rfl⟩
      rw [Exchange.converge, checked]
    | false =>
      have unknown : ¬ Known state.receiver mine below first.block.parent := fun known => by
        cases iff.mpr known
      have nacked : Between requesterStore responderStore mine theirs collected gone below last
          { state with requester } := { between with requester := filled.holds }
      obtain ⟨next, lower, ran, requesterHolds, responderHolds, carries, sameHash, _, lowers⟩ :=
        Exchange.round_spec crypto sender nacked inside
      have linked := between.responder.linked
      have nonempty := between.nonempty
      -- A hint can only match below the fork: otherwise the requester would know its parent.
      have lower_lt : lower < last := by
        rcases lowers with further | ⟨ours, other, mineAt, atLower, same⟩
        · omega
        · by_contra above
          exact unknown (known_of_meet faithful state.receiver between.requester.linked linked starts (by omega)
            mineAt atLower same)
      obtain ⟨second, startsNow⟩ : ∃ second, theirs[lower]? = some second := ⟨_, getElem?_eq_getElem (by omega)⟩
      have closer : lower ≤ 100 * rounds ∨ Known next.receiver mine lower second.block.parent := by
        rcases lowers with further | ⟨ours, other, mineAt, atLower, same⟩
        · exact .inl (by have := enough.resolve_right unknown; omega)
        · exact .inr (known_of_meet faithful next.receiver between.requester.linked linked startsNow (Nat.le_refl _)
            mineAt atLower same)
      obtain ⟨final, lowest, last, converged, rest⟩ :=
        ih ⟨requesterHolds, responderHolds, carries, lower_lt⟩ startsNow closer
      refine ⟨final, lowest, last, ?_, ?_⟩
      · rw [Exchange.converge, checked]
        simp [ran, converged]
      · simpa only [Known, sameHash] using rest

/-- Whatever the two logs are, a fork of the responder is accepted after a round for
each hundred blocks below it, and then starts from a block that the requester knows and
ends as it did. -/
theorem Exchange.converges {fork : List CachedBlock} {first : CachedBlock}
    (requester : Holds requesterStore mine collected state.requester)
    (responder : Holds responderStore theirs gone state.responder) (segment : fork <:+: theirs)
    (starts : fork.head? = some first) (sent : state.ae.fork = some ⟨fork.map (·.toHalfSerialized)⟩) :
    ∃ (final : Exchange) (accepted : List CachedBlock) (after : LogServer),
      Exchange.converge crypto requesterStore responderStore sender (first.block.n / 100 + 2)
        state = some final ∧
      ensureCommonPrefix requesterStore final.receiver final.requester final.ae = some (true, after) ∧
      final.ae.fork = some ⟨accepted.map (·.toHalfSerialized)⟩ ∧ accepted.getLast? = fork.getLast? ∧
      ∃ block ∈ accepted.head?, block.block.n = 1 ∨ block.block.parent ∈ mine.map (·.blockHash) ∨
        state.receiver.lastAeBlockHash = some block.block.parent := by
  obtain ⟨before, _, split⟩ := segment
  have cut : (theirs.take (before.length + fork.length)).drop before.length = fork := by
    rw [← split, append_assoc, take_length_add_append, drop_left, take_left]
  have length : 0 < fork.length := length_pos_of_ne_nil (by rintro rfl; cases starts)
  have bound : before.length + fork.length ≤ theirs.length := by
    rw [← split, length_append, length_append]
    omega
  have startsAt : theirs[before.length]? = some first := by
    rw [← head?_segment (show before.length < before.length + fork.length by omega), cut, starts]
  have number := number_of_getElem? responder.linked startsAt
  have carries : Carries state.ae theirs before.length (before.length + fork.length) := by
    rw [Carries, cut, sent]
  obtain ⟨final, lower, block, converged, holds, sameHash, lowered, lower_lt, startsNow, known⟩ :=
    Exchange.converge_spec faithful carriesParent ⟨requester, responder, carries, by omega⟩ bound startsAt
      (.inl (show before.length ≤ 100 * (first.block.n / 100 + 2) by omega))
  obtain ⟨_, after, checked, iff, -⟩ := ensureCommonPrefix_spec final.receiver holds responder.linked lowered
    lower_lt startsNow (carriesParent block (mem_of_getElem? startsNow))
  have known' : Known final.receiver mine lower block.block.parent := by
    simpa only [Known, sameHash] using known
  refine ⟨final, _, after, converged, ?_, lowered, ?_, block, ?_, ?_⟩
  · rw [checked, iff.mpr known']
  · rw [getLast?_segment lower_lt bound, ← getLast?_segment (show before.length < _ by omega) bound, cut]
  · rw [head?_segment lower_lt, startsNow]
    exact mem_some_self _
  · rcases known with forwarded | zero | ⟨_, found, same⟩
    · exact .inr (.inr forwarded)
    · exact .inl (by rw [number_of_getElem? responder.linked startsNow, zero])
    · have member := ((blockAt_eq_some_iff requester.linked).mp found).1
      exact .inr (.inl (same ▸ mem_map_of_mem member))

end Converges

def firstBlock : CachedBlock := tinyBlock 1 1 true defaultHash

def secondBlock : CachedBlock := tinyBlock 2 1 true firstBlock.blockHash

def thirdBlock : CachedBlock := tinyBlock 3 1 true secondBlock.blockHash

def oneOfThree : Exchange where
  receiver := {}
  requester := { log := [firstBlock] }
  responder := { log := [firstBlock, secondBlock, thirdBlock] }
  ae :=
    { fork := some ⟨[thirdBlock.toHalfSerialized]⟩
      commitIndex := 0, view := 1, viewIsStable := true, configNum := 1, isBackfillResponse := false }

theorem oneOfThree_converges :
    ∃ (final : Exchange) (accepted : List CachedBlock) (after : LogServer),
      Exchange.converge (tinyNode (Staging.threeNodes "node3").config) (fun _ => none) (fun _ => none) "node1" 2
        oneOfThree = some final ∧
      ensureCommonPrefix (fun _ => none) final.receiver final.requester final.ae = some (true, after) ∧
      final.ae.fork = some ⟨accepted.map (·.toHalfSerialized)⟩ ∧ accepted.getLast? = some thirdBlock ∧
      ∃ block ∈ accepted.head?, block.block.n = 1 ∨ block.block.parent ∈ [firstBlock].map (·.blockHash) ∨
        oneOfThree.receiver.lastAeBlockHash = some block.block.parent := by
  have requester : Holds (fun _ => none) [firstBlock] 0 oneOfThree.requester := holds_of_chain (by decide +kernel)
  have responder : Holds (fun _ => none) [firstBlock, secondBlock, thirdBlock] 0 oneOfThree.responder :=
    holds_of_chain (by decide +kernel)
  have fork : [thirdBlock] <:+: [firstBlock, secondBlock, thirdBlock] := ⟨[firstBlock, secondBlock], [], rfl⟩
  have rounds : thirdBlock.block.n / 100 + 2 = 2 := by decide +kernel
  rw [← rounds]
  exact Exchange.converges (by decide +kernel) (by decide +kernel) requester responder fork rfl rfl

end PirateShip.ForkReceiver
