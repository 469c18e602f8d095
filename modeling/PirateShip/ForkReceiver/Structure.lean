import Mathlib.Data.List.Forall2
import PirateShip.ForkReceiver.Transition

/-! The structure of a fork is checked on the headers in front of its blocks, and
the headers are not signed. What is checked holds for the blocks if the headers
are theirs, go up, and end in the view of the message; that it is reached is
checked only when it is a new one. -/

set_option autoImplicit false

namespace PirateShip.ForkReceiver

open List Option

variable {crypto : CryptoService} {store : BlockStore} {server answered : LogServer}
  {receiver after : ForkReceiver} {ae : ProtoAppendEntries} {sender : String} {fork : ProtoFork}
  {headers : List HalfSerializedBlock} {blocks : List CachedBlock}

/-!
## Headers and blocks
-/

/-- `VerifyBlockSer` accepts the body, and this is the block in it. -/
def Verified (crypto : CryptoService) (header : HalfSerializedBlock) (block : CachedBlock) : Prop :=
  crypto.verifyBlockSer (byzantineLivenessThreshold crypto.config) header.serializedBody =
    some (.ok block, .ok block.blockHash)

structure HeaderOf (header : HalfSerializedBlock) (block : CachedBlock) : Prop where
  n : header.n = block.block.n
  view : header.view = block.block.view
  viewIsStable : header.viewIsStable = block.block.viewIsStable
  configNum : header.configNum = block.block.configNum

/-- The message is accepted, and its first part goes to the broadcaster. -/
def Forwards (crypto : CryptoService) (store : BlockStore) (server : LogServer) (receiver : ForkReceiver)
    (ae : ProtoAppendEntries) (sender : String) : Prop :=
  ∃ after answered, processFork crypto store receiver server ae sender = some (after, answered) ∧
    after.broadcasterTx ≠ receiver.broadcasterTx

/-- The documented structure of the blocks of a fork. -/
structure Documented (receiver : ForkReceiver) (ae : ProtoAppendEntries) (headers : List HalfSerializedBlock)
    (blocks : List CachedBlock) : Prop where
  ofBlocks : headers = blocks.map (·.toHalfSerialized)
  views : (blocks.map (·.block.view)).Pairwise (· ≤ ·)
  configs : (blocks.map (·.block.configNum)).Pairwise (· ≤ ·)
  newViews : ∀ before block rest, blocks = before ++ block :: rest → receiver.view < block.block.view →
    (∀ earlier ∈ before, earlier.block.view ≠ block.block.view) → block.block.viewIsStable = false
  newConfigs : ∀ before block rest, blocks = before ++ block :: rest →
    block.block.configNum ≠ receiver.configNum →
    (∀ earlier ∈ before, earlier.block.configNum ≠ block.block.configNum) → block.block.viewIsStable = false
  highest : (blocks.map (·.block.view)).max? = some ae.view

/-- The headers are those of the blocks, their views and configurations go up, none
is above the view of the message, and one has it if the receiver was in it already. -/
structure Ordered (receiver : ForkReceiver) (ae : ProtoAppendEntries) (headers : List HalfSerializedBlock)
    (blocks : List CachedBlock) : Prop where
  ofBlocks : List.Forall₂ HeaderOf headers blocks
  views : (headers.map (·.view)).Pairwise (· ≤ ·)
  configs : (headers.map (·.configNum)).Pairwise (· ≤ ·)
  below : ∀ header ∈ headers, header.view ≤ ae.view
  reaches : ae.view = receiver.view → ∃ header ∈ headers, header.view = ae.view

/-!
## What the checks say
-/

theorem unstable_of_viewsChecked {before rest header testView reached}
    (checked : viewsChecked testView (before ++ header :: rest) = some reached) (above : testView < header.view)
    (first : ∀ earlier ∈ before, earlier.view < header.view) :
    header.viewIsStable = false := by
  induction before generalizing testView with
  | nil =>
    simp only [nil_append, viewsChecked, if_pos above] at checked
    split at checked
    · cases checked
    · next unstable => simpa using unstable
  | cons earlier before ih =>
    have lower := first earlier mem_cons_self
    have first : ∀ earlier ∈ before, earlier.view < header.view := fun other member =>
      first other (mem_cons_of_mem _ member)
    simp only [cons_append, viewsChecked] at checked
    split at checked
    · split at checked
      · cases checked
      · exact ih checked lower first
    · exact ih checked above first

theorem eq_or_exists_of_viewsChecked {testView reached} (checked : viewsChecked testView headers = some reached) :
    reached = testView ∨ ∃ header ∈ headers, header.view = reached := by
  induction headers generalizing testView with
  | nil => exact .inl (some.inj checked).symm
  | cons header rest ih =>
    rw [exists_mem_cons_iff]
    unfold viewsChecked at checked
    split at checked
    · split at checked
      · cases checked
      · rcases ih checked with same | later
        · exact .inr (.inl same.symm)
        · exact .inr (.inr later)
    · exact (ih checked).imp_right .inr

/-- A view above the receiver's is reached: the code checks it. -/
theorem Ordered.reached (ordered : Ordered receiver ae headers blocks) {testView} (higher : receiver.view ≤ ae.view)
    (checked : viewsChecked receiver.view headers = some testView) (reached : ae.view ≤ testView) :
    ∃ header ∈ headers, header.view = ae.view := by
  rcases eq_or_exists_of_viewsChecked checked with same | ⟨header, member, same⟩
  · exact ordered.reaches (Nat.le_antisymm (same ▸ reached) higher)
  · exact ⟨header, member, Nat.le_antisymm (ordered.below header member) (same ▸ reached)⟩

theorem unstable_of_splitParts {before rest header config part parts}
    (split : splitParts config part (before ++ header :: rest) = some parts) (isNew : header.configNum ≠ config)
    (first : ∀ earlier ∈ before, earlier.configNum ≠ header.configNum) : header.viewIsStable = false := by
  induction before generalizing config part parts with
  | nil =>
    simp only [nil_append, splitParts, if_neg isNew] at split
    split at split
    · cases split
    · next unstable => simpa using unstable
  | cons earlier before ih =>
    have other := first earlier mem_cons_self
    have first : ∀ earlier ∈ before, earlier.configNum ≠ header.configNum := fun other member =>
      first other (mem_cons_of_mem _ member)
    simp only [cons_append, splitParts] at split
    split at split
    · exact ih split isNew first
    · split at split
      · cases split
      · obtain ⟨_, split, -⟩ := map_eq_some_iff.mp split
        exact ih split other.symm first

theorem exists_passes_of_forwards (forwards : Forwards crypto store server receiver ae sender) :
    ∃ fork part rest, Passes crypto store server receiver ae sender fork ∧
      splitParts receiver.configNum [] fork.serializedBlocks = some (part :: rest) := by
  obtain ⟨_, _, processed, sent⟩ := forwards
  cases processFork_processes processed with
  | ignored => exact absurd rfl sent
  | nacked => exact absurd rfl sent
  | dropped => exact absurd rfl sent
  | whole passes split => exact ⟨_, _, _, passes, split⟩
  | inParts passes split => exact ⟨_, _, _, passes, split⟩

/-!
## Headers in place of blocks
-/

theorem map_eq_of_headers {α : Type} {field : HalfSerializedBlock → α} {ofBlock : CachedBlock → α}
    (same : ∀ header block, HeaderOf header block → field header = ofBlock block)
    (headersOf : List.Forall₂ HeaderOf headers blocks) : headers.map field = blocks.map ofBlock := by
  induction headersOf with
  | nil => rfl
  | cons headerOf _ ih => rw [map_cons, map_cons, same _ _ headerOf, ih]

theorem exists_header {before rest block} (headersOf : List.Forall₂ HeaderOf headers (before ++ block :: rest)) :
    ∃ firsts header others, headers = firsts ++ header :: others ∧ HeaderOf header block ∧
      List.Forall₂ HeaderOf firsts before := by
  induction before generalizing headers with
  | nil =>
    cases headersOf with
    | cons headerOf _ => exact ⟨[], _, _, rfl, headerOf, .nil⟩
  | cons earlier before ih =>
    cases headersOf with
    | cons earlierOf headersOf =>
      obtain ⟨firsts, header, others, rfl, headerOf, firstsOf⟩ := ih headersOf
      exact ⟨_ :: firsts, header, others, rfl, headerOf, .cons earlierOf firstsOf⟩

theorem headers_eq (verified : List.Forall₂ (Verified crypto) headers blocks)
    (headersOf : List.Forall₂ HeaderOf headers blocks) : headers = blocks.map (·.toHalfSerialized) := by
  induction headersOf with
  | nil => rfl
  | @cons header block _ _ headerOf _ ih =>
    obtain ⟨verifies, verified⟩ := List.forall₂_cons.mp verified
    obtain ⟨n, _, _, _⟩ := headerOf
    have body := (CryptoService.accepts_of_verifyBlockSer verifies).ser
    have same : header = block.toHalfSerialized := by
      cases header
      simp_all [CachedBlock.toHalfSerialized]
    rw [same, map_cons, ← ih verified]

theorem headerOf_toHalfSerialized (blocks) : List.Forall₂ HeaderOf (blocks.map (·.toHalfSerialized)) blocks := by
  induction blocks with
  | nil => exact .nil
  | cons block rest ih => exact .cons ⟨rfl, rfl, rfl, rfl⟩ ih

/-- For every message that is forwarded and whose blocks all verify, the blocks
have the documented structure if and only if the headers are in order. -/
theorem documented_iff_ordered (forwards : Forwards crypto store server receiver ae sender)
    (isFork : ae.fork = some fork) (verified : List.Forall₂ (Verified crypto) fork.serializedBlocks blocks) :
    Documented receiver ae fork.serializedBlocks blocks ↔ Ordered receiver ae fork.serializedBlocks blocks := by
  obtain ⟨_, _, rest, passes, split⟩ := exists_passes_of_forwards forwards
  cases isFork.symm.trans passes.isFork
  obtain ⟨_, checked, reached⟩ := passes.views
  constructor
  · intro documented
    have headersOf : List.Forall₂ HeaderOf fork.serializedBlocks blocks := by
      rw [documented.ofBlocks]
      exact headerOf_toHalfSerialized blocks
    have views := map_eq_of_headers (fun _ _ headerOf => headerOf.view) headersOf
    have highest := documented.highest
    rw [← views, max?_eq_some_iff] at highest
    constructor
    · exact headersOf
    · rw [views]
      exact documented.views
    · rw [map_eq_of_headers (fun _ _ headerOf => headerOf.configNum) headersOf]
      exact documented.configs
    · intro header member
      exact highest.2 _ (mem_map_of_mem member)
    · intro _
      exact mem_map.mp highest.1
  · intro ordered
    have views := map_eq_of_headers (fun _ _ headerOf => headerOf.view) ordered.ofBlocks
    have configs := map_eq_of_headers (fun _ _ headerOf => headerOf.configNum) ordered.ofBlocks
    constructor
    · exact headers_eq verified ordered.ofBlocks
    · rw [← views]
      exact ordered.views
    · rw [← configs]
      exact ordered.configs
    · rintro before block rest rfl above first
      obtain ⟨firsts, header, others, isSplit, headerOf, firstsOf⟩ := exists_header ordered.ofBlocks
      have ascending := ordered.views
      rw [isSplit] at checked ascending
      rw [← headerOf.viewIsStable]
      apply unstable_of_viewsChecked checked (headerOf.view ▸ above)
      intro earlier member
      have below : earlier.view ≤ header.view := by
        rw [map_append, pairwise_append] at ascending
        exact ascending.2.2 _ (mem_map_of_mem member) _ mem_cons_self
      obtain ⟨held, isHeld, same⟩ := mem_map.mp
        (map_eq_of_headers (fun _ _ headerOf => headerOf.view) firstsOf ▸ mem_map_of_mem member)
      have different := first held isHeld
      rw [← headerOf.view] at different
      omega
    · rintro before block rest rfl isNew first
      obtain ⟨firsts, header, others, isSplit, headerOf, firstsOf⟩ := exists_header ordered.ofBlocks
      rw [isSplit] at split
      rw [← headerOf.viewIsStable]
      apply unstable_of_splitParts split (headerOf.configNum ▸ isNew)
      intro earlier member
      obtain ⟨held, isHeld, same⟩ := mem_map.mp
        (map_eq_of_headers (fun _ _ headerOf => headerOf.configNum) firstsOf ▸ mem_map_of_mem member)
      rw [headerOf.configNum, ← same]
      exact first held isHeld
    · rw [← views, max?_eq_some_iff]
      exact ⟨mem_map.mpr (ordered.reached passes.view checked reached), forall_mem_map.mpr ordered.below⟩

/-!
## A header of another block
-/

def inViewOne : ForkReceiver := { view := 1, configNum := 1 }

theorem forwards_of_longer (longer : (processFork crypto store receiver server ae sender).any (fun result =>
      decide (receiver.broadcasterTx.length < result.1.broadcasterTx.length)) = true) :
    Forwards crypto store server receiver ae sender := by
  obtain ⟨⟨after, answered⟩, processed, longer⟩ := (any_eq_true _ _).mp longer
  refine ⟨after, answered, processed, fun same => ?_⟩
  simp [same] at longer

theorem verified_of_toOption {header block}
    (accepted : (crypto.verifyBlockSer (byzantineLivenessThreshold crypto.config) header.serializedBody).map
      (fun answer => (answer.1.toOption, answer.2.toOption)) = some (some block, some block.blockHash)) :
    Verified crypto header block := by
  obtain ⟨⟨cached, hash⟩, answered, pair⟩ := map_eq_some_iff.mp accepted
  cases cached <;> cases hash <;> cases pair
  exact answered

def forged : HalfSerializedBlock :=
  { (tinyBlock 1 9 true defaultHash).toHalfSerialized with view := 1, viewIsStable := false }

/-- A block of view 9 passes as the first one of view 1. -/
theorem forged_header_is_forwarded :
    ∃ ae fork, ae.fork = some fork ∧ Forwards follower (fun _ => none) {} inViewOne ae "node1" ∧
      ∃ blocks, List.Forall₂ (Verified follower) fork.serializedBlocks blocks ∧
        ¬ Documented inViewOne ae fork.serializedBlocks blocks := by
  refine ⟨{ entries 1 false [] with fork := some ⟨[forged]⟩ }, ⟨[forged]⟩, rfl, ?_,
    [tinyBlock 1 9 true defaultHash], ?_, ?_⟩
  · exact forwards_of_longer (by decide +kernel)
  · exact .cons (verified_of_toOption (by decide +kernel)) .nil
  · intro documented
    have highest := documented.highest
    revert highest
    decide

theorem documented_of_first_block :
    Documented inViewOne (entries 1 false [tinyBlock 1 1 false defaultHash])
      [(tinyBlock 1 1 false defaultHash).toHalfSerialized] [tinyBlock 1 1 false defaultHash] := by
  have forwards : Forwards follower (fun _ => none) {} inViewOne
      (entries 1 false [tinyBlock 1 1 false defaultHash]) "node1" := forwards_of_longer (by decide +kernel)
  refine (documented_iff_ordered forwards rfl (.cons (verified_of_toOption (by decide +kernel)) .nil)).mpr ?_
  constructor
  · exact headerOf_toHalfSerialized [tinyBlock 1 1 false defaultHash]
  · simp
  · simp
  · decide
  · decide

end PirateShip.ForkReceiver
