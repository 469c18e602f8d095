import PirateShip.Crypto.RoundTrip
import PirateShip.LogServer.Backfill

/-! A view-change message that the log server has filled. The signature covers the hash
of the last block and not the blocks below it, so a fork that ends with the same block
needs no new signature. -/

set_option autoImplicit false

namespace PirateShip

open List HashLinked StepSystem Option

/-!
## Signatures
-/

namespace CryptoService

variable {signer verifier : CryptoService} {vc unsigned : ProtoViewChange} {fork newFork : ProtoFork} {name : String}

theorem vcText_refill (service : CryptoService) (isFork : vc.fork = some fork)
    (sameLast : newFork.serializedBlocks.getLast? = fork.serializedBlocks.getLast?) :
    service.vcText { vc with fork := some newFork } = service.vcText vc := by
  unfold vcText
  rw [isFork, bind_some, bind_some, sameLast]

theorem verifyVc_refill (service : CryptoService) (isFork : vc.fork = some fork)
    (sameLast : newFork.serializedBlocks.getLast? = fork.serializedBlocks.getLast?) :
    service.verifyVc { vc with fork := some newFork } name = service.verifyVc vc name := by
  unfold verifyVc
  rw [vcText_refill service isFork sameLast]

theorem vcText_congr (samePrimitives : verifier.primitives = signer.primitives)
    (sameCodec : verifier.codec = signer.codec) (vc) : verifier.vcText vc = signer.vcText vc := by
  unfold vcText
  rw [samePrimitives, sameCodec]

theorem verifyVc_prepareVc (samePrimitives : verifier.primitives = signer.primitives)
    (sameCodec : verifier.codec = signer.codec) (signs : ∀ data, (signer.sign data).length = signatureLength)
    (trusts : ∀ data, verifier.verify data name (signer.sign data) = true)
    (prepared : signer.prepareVc unsigned = some vc) : verifier.verifyVc vc name = some true := by
  obtain ⟨text, isText, rfl⟩ := map_eq_some_iff.mp prepared
  have unsignedText : signer.vcText { unsigned with forkSig := signer.sign text } = some text := isText
  rw [verifyVc, vcText_congr samePrimitives sameCodec, unsignedText]
  dsimp only
  rw [if_neg (not_not.mpr (signs text)), trusts]

end CryptoService

/-!
## The log
-/

namespace LogServer

variable {store : BlockStore} {server after : LogServer} {block : CachedBlock} {hints : List ProtoBlockHint}
variable {found : List ProtoBlockHint} {firstN : Nat}

def Continuous (server : LogServer) : Prop := ∃ first tip, Follows first tip server.log

def serveFrom (server : LogServer) (event : BlockStore × Request) : Option LogServer := serve event.1 server event.2

theorem Continuous.newBlock (continuous : Continuous server) (block) : Continuous (server.handleNewBlock block) := by
  obtain ⟨first, tip, chain⟩ := continuous
  unfold handleNewBlock
  split
  · exact ⟨first, tip, chain⟩
  · next number =>
    split
    · exact ⟨first, tip, chain⟩
    · next link =>
      rw [Decidable.not_not, lastN] at number
      rw [lastN] at link
      cases atEnd : server.log.getLast? with
      | none =>
        rw [getLast?_eq_none_iff] at atEnd
        exact ⟨block.block.n - 1, none, by simp [atEnd, Follows, number]⟩
      | some last =>
        rw [atEnd, map_some, getD_some] at number link
        have lastNumber : last.block.n = first + server.log.length := chain.seq_getLast? atEnd
        have nonempty : 0 < last.block.n :=
          Nat.lt_of_le_of_lt (Nat.zero_le _) (chain.seq_mem (mem_of_getLast? atEnd)).1
        refine ⟨first, tip, follows_concat.mpr ⟨chain, number.trans (by rw [lastNumber]), ?_⟩⟩
        rw [endTip, atEnd]
        rintro _ ⟨⟩
        exact (some.inj (Decidable.not_not.mp fun other => link ⟨nonempty, other⟩)).symm

theorem Continuous.handle (continuous : Continuous server) (input) : Continuous (server.handle input) := by
  cases input with
  | command cmd =>
    cases cmd with
    | newBlock block => exact continuous.newBlock block
    | rollback n =>
      obtain ⟨first, tip, chain⟩ := continuous
      refine ⟨first, tip, ?_⟩
      simpa [LogServer.handle, handleCommand, handleRollback] using chain.filter_seq_le _ ▸ chain.take _
    | updateBCI n => exact continuous
  | gc n =>
    obtain ⟨first, tip, chain⟩ := continuous
    exact ⟨_, _, chain.filter_lt_seq n ▸ chain.drop (n - first)⟩

theorem hintsFrom_frame {lastN fuel currN currJump used}
    (looked : hintsFrom store lastN fuel server currN currJump used = some (found, after)) :
    ∃ readCache, after = { server with readCache } := by
  induction fuel generalizing server currN currJump used found with
  | zero =>
    cases looked
    exact ⟨_, rfl⟩
  | succ fuel ih =>
    unfold hintsFrom at looked
    split at looked
    · cases looked
      exact ⟨_, rfl⟩
    · split at looked
      · cases looked
      · next looking =>
        cases looked
        exact getBlock_frame looking
      · next _ _ looking =>
        obtain ⟨readCache, rfl⟩ := getBlock_frame looking
        obtain ⟨⟨_, _⟩, further, same⟩ := map_eq_some_iff.mp looked
        cases same
        obtain ⟨refilled, rfl⟩ := ih further
        exact ⟨refilled, rfl⟩

theorem getHints_frame {lastNeededN} (looked : getHints store server lastNeededN = some (found, after)) :
    ∃ readCache, after = { server with readCache } := by
  unfold getHints at looked
  dsimp only at looked
  split at looked
  · cases looked
  · next _ _ jumped =>
    obtain ⟨readCache, rfl⟩ := hintsFrom_frame jumped
    split at looked
    · cases looked
      exact ⟨readCache, rfl⟩
    · split at looked
      · next _ _ looking =>
        cases looked
        obtain ⟨refilled, rfl⟩ := getBlock_frame looking
        exact ⟨refilled, rfl⟩
      · cases looked

theorem respondBackfill_log {nack} (responded : respondBackfill store server nack = some after) :
    after.log = server.log := by
  cases hasFork : requestedFork nack with
  | none =>
    cases (respondBackfill_malformed hasFork).symm.trans responded
    rfl
  | some existingFork =>
    obtain ⟨_, isOrigin, isFork⟩ := bind_eq_some_iff.mp hasFork
    obtain ⟨⟨_, _⟩, filledFork, rfl⟩ := map_eq_some_iff.mp ((respondBackfill_eq isOrigin isFork).symm.trans responded)
    obtain ⟨_, rfl⟩ := fillFork_frame filledFork
    rfl

theorem Continuous.serve {request} (continuous : Continuous server)
    (served : serve store server request = some after) : Continuous after := by
  cases request with
  | input input =>
    cases served
    exact continuous.handle input
  | checkHash n hash =>
    obtain ⟨⟨_, filled⟩, checked, rfl⟩ := map_eq_some_iff.mp served
    unfold checkHash at checked
    split at checked
    · cases checked
      exact continuous
    · obtain ⟨⟨found, filled⟩, looked, same⟩ := map_eq_some_iff.mp checked
      cases same
      obtain ⟨readCache, rfl⟩ := getBlock_frame looked
      exact continuous
  | getHints lastNeededN =>
    obtain ⟨⟨found, filled⟩, looked, rfl⟩ := map_eq_some_iff.mp served
    obtain ⟨readCache, rfl⟩ := getHints_frame looked
    exact continuous
  | backfill nack =>
    unfold Continuous
    rwa [respondBackfill_log served]

theorem continuous_of_reaches (reached : Reaches serveFrom Any {} server) : Continuous server :=
  reached.invariant (motive := Continuous) ⟨0, none, trivial⟩ fun continuous _ served => continuous.serve served

/-!
## The fork
-/

theorem Continuous.getBlock_of_mem (continuous : Continuous server) (held : block ∈ server.log) :
    getBlock store server block.block.n = some (some block, server) := by
  obtain ⟨first, _, chain⟩ := continuous
  obtain ⟨above, inside⟩ := chain.seq_mem held
  rw [CachedBlock.seq_eq] at above inside
  have nonempty := ne_nil_of_mem held
  obtain ⟨head, _, split⟩ := exists_cons_of_ne_nil nonempty
  obtain ⟨last, atEnd⟩ : ∃ last, server.log.getLast? = some last := ⟨_, getLast?_eq_some_getLast nonempty⟩
  have atHead : server.log.head? = some head := by rw [split, head?_cons]
  have headNumber : head.block.n = first + 0 + 1 := chain.seq_getElem? (head?_eq_getElem?.symm.trans atHead)
  have lastNumber : last.block.n = first + server.log.length := chain.seq_getLast? atEnd
  unfold getBlock
  rw [atHead, atEnd]
  dsimp only
  rw [if_neg (by omega), if_neg (by omega)]
  rw [find?_of_mem chain held]

theorem fillDown_suffix {count forkQueue blocks}
    (filled : fillDown store hints firstN count server forkQueue = some (blocks, after)) : forkQueue <:+ blocks := by
  induction count generalizing server forkQueue with
  | zero =>
    cases filled
    exact suffix_rfl
  | succ count ih =>
    unfold fillDown at filled
    split at filled
    · cases filled
    · cases filled
      exact suffix_rfl
    · split at filled
      · cases filled
        exact suffix_rfl
      · exact (suffix_cons _ _).trans (ih filled)

theorem Continuous.getLast_of_fillFork {newFork} (continuous : Continuous server) (held : block ∈ server.log)
    (unmatched : hintMatches hints block.block.n block.blockHash = false)
    (filledFork : fillFork store server firstN block.block.n hints = some (newFork, after)) :
    newFork.serializedBlocks.getLast? = some block.toHalfSerialized := by
  have ordered := ordered_of_fillFork filledFork
  have number : firstN + (block.block.n - firstN) = block.block.n := by omega
  rw [fillFork, if_neg (Nat.not_lt.mpr ordered), fillDown, number, continuous.getBlock_of_mem held] at filledFork
  dsimp only at filledFork
  rw [unmatched] at filledFork
  obtain ⟨⟨_, _⟩, down, same⟩ := map_eq_some_iff.mp filledFork
  cases same
  obtain ⟨_, rfl⟩ := fillDown_suffix down
  simp

/-- The answer carries the message with the fork that was filled, and still verifies. -/
structure Refilled (verifier : CryptoService) (name : String) (store : BlockStore) (server : LogServer)
    (nack : ProtoBackfillNack) (vc : ProtoViewChange) (last : HalfSerializedBlock) (newFork : ProtoFork)
    (after : LogServer) : Prop where
  fills : ∃ filled, fillFork store server nack.lastIndexNeeded vc.forkLastN nack.hints = some (newFork, filled)
  sent : after.client = server.client ++ [(nack.replyName, .viewChange { vc with fork := some newFork })]
  verifies : verifier.verifyVc { vc with fork := some newFork } name = some true
  ends : newFork.serializedBlocks.getLast? = some last

/-- Every cut of the prefix leaves the signature valid. The request is answered if the
collected blocks are in storage and the fork's capacity can be reserved. -/
theorem refilled_of_prepareVc {signer verifier : CryptoService} {name : String} {unsigned vc : ProtoViewChange}
    {fork : ProtoFork} {nack : ProtoBackfillNack} (samePrimitives : verifier.primitives = signer.primitives)
    (sameCodec : verifier.codec = signer.codec) (signs : ∀ data, (signer.sign data).length = signatureLength)
    (trusts : ∀ data, verifier.verify data name (signer.sign data) = true)
    (prepared : signer.prepareVc unsigned = some vc) (isFork : vc.fork = some fork)
    (isLast : fork.serializedBlocks.getLast? = some block.toHalfSerialized)
    (reached : Reaches serveFrom Any {} server) (held : block ∈ server.log) (atLast : block.block.n = vc.forkLastN)
    (isOrigin : nack.origin = some (.vc vc)) (needed : nack.lastIndexNeeded ≤ vc.forkLastN)
    (unmatched : hintMatches nack.hints vc.forkLastN block.blockHash = false) (store : BlockStore)
    (supplies : Nat → Bool) :
    (∀ after ∈ respondBackfillWithin supplies store server nack,
        ∃ newFork, Refilled verifier name store server nack vc block.toHalfSerialized newFork after) ∧
      ∀ chain collected, Holds store chain collected server →
        withCapacity supplies (forkCapacity nack.lastIndexNeeded vc.forkLastN) = true →
        (respondBackfillWithin supplies store server nack).isSome = true := by
  have continuous := continuous_of_reaches reached
  have asFork : BackfillOrigin.fork (.vc vc) = some fork := isFork
  have requested : server.requestedLastN fork = vc.forkLastN := by
    rw [requestedLastN, isLast]
    exact atLast
  rw [respondBackfillWithin_eq isOrigin asFork, respondBackfill_eq isOrigin asFork, requested]
  refine ⟨?_, ?_⟩
  · intro after answered
    obtain ⟨_, answered⟩ := ite_none_right_eq_some.mp answered
    obtain ⟨⟨newFork, filled⟩, filledFork, rfl⟩ := map_eq_some_iff.mp answered
    obtain ⟨_, rfl⟩ := fillFork_frame filledFork
    have ends := continuous.getLast_of_fillFork held (atLast ▸ unmatched) (atLast ▸ filledFork)
    refine ⟨newFork, ⟨_, filledFork⟩, rfl, ?_, ends⟩
    rw [CryptoService.verifyVc_refill verifier isFork (ends.trans isLast.symm)]
    exact CryptoService.verifyVc_prepareVc samePrimitives sameCodec signs trusts prepared
  · intro chain collected holds reserved
    obtain ⟨_, filled, filledFork, -⟩ := fillFork_spec holds nack.hints needed
    rw [if_pos reserved, filledFork]
    rfl

def firstBlock : CachedBlock := tinyBlock 1 1 true defaultHash

def secondBlock : CachedBlock := tinyBlock 2 1 true firstBlock.blockHash

def shortVc : ProtoViewChange where
  view := 2
  configNum := 1
  fork := some ⟨[secondBlock.toHalfSerialized]⟩
  forkLastQc := none
  forkLastN := 2
  forkSig := []

def fillRequest (vc : ProtoViewChange) : ProtoBackfillNack where
  origin := some (.vc vc)
  hints := []
  lastIndexNeeded := 1
  replyName := "node2"

theorem shortVc_refilled : ∃ server vc newFork after,
    Reaches serveFrom Any {} server ∧ firstLeader.prepareVc shortVc = some vc ∧
      Refilled firstLeader "node1" (fun _ => none) server (fillRequest vc) vc secondBlock.toHalfSerialized newFork
        after ∧
      newFork.serializedBlocks = [firstBlock.toHalfSerialized, secondBlock.toHalfSerialized] := by
  obtain ⟨server, reached, log, cache⟩ : ∃ server, Reaches serveFrom Any {} server ∧
      server.log = [firstBlock, secondBlock] ∧ server.readCache.cache = [] :=
    exists_reaches_any [(fun _ => none, .input (.command (.newBlock firstBlock))),
      (fun _ => none, .input (.command (.newBlock secondBlock)))] (by decide +kernel)
  obtain ⟨vc, prepared⟩ : ∃ vc, firstLeader.prepareVc shortVc = some vc :=
    isSome_iff_exists.mp (by decide +kernel)
  obtain ⟨_, -, isVc⟩ := map_eq_some_iff.mp prepared
  have isFork : vc.fork = shortVc.fork := isVc ▸ rfl
  have lastN : vc.forkLastN = 2 := isVc ▸ rfl
  have holds : Holds (fun _ => none) [firstBlock, secondBlock] 0 server :=
    ⟨by decide +kernel, log, .inr rfl, forall_mem_nil _, fun binding member => by rw [cache] at member; cases member⟩
  have trusts : ∀ data, firstLeader.verify data "node1" (firstLeader.sign data) = true :=
    fun data => beq_self_eq_true _
  have held : secondBlock ∈ server.log := by simp [log]
  have isOrigin : (fillRequest vc).origin = some (.vc vc) := rfl
  have needed : (fillRequest vc).lastIndexNeeded ≤ vc.forkLastN := by rw [lastN]; exact Nat.le_succ 1
  obtain ⟨verifies, answers⟩ := refilled_of_prepareVc rfl rfl (fun data => (firstLeader_signs data).1) trusts prepared
    isFork rfl reached held lastN.symm isOrigin needed rfl (fun _ => none) (fun _ => true)
  obtain ⟨after, answered⟩ := isSome_iff_exists.mp (answers _ _ holds (by rw [lastN]; rfl))
  obtain ⟨newFork, refilled⟩ := verifies after answered
  obtain ⟨_, fills⟩ := refilled.fills
  refine ⟨server, vc, newFork, after, reached, prepared, refilled, ?_⟩
  obtain ⟨_, _, spec, -, -, stops⟩ := fillFork_spec holds (fillRequest vc).hints needed
  cases spec.symm.trans fills
  rw [lastN] at stops ⊢
  rcases stops (Nat.le_refl 2) with rfl | ⟨_, _, _, hinted⟩
  · rfl
  · cases hinted

end LogServer

end PirateShip
