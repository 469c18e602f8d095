import PirateShip.ForkReceiver.Multipart

/-! A fork is cut into parts by configuration: nothing of it is lost, and every part but the
last ends with the block that changes the configuration. -/

set_option autoImplicit false

namespace PirateShip.ForkReceiver

open List Option

variable {crypto : CryptoService} {store : BlockStore} {server answered : LogServer}
  {receiver after : ForkReceiver} {ae : ProtoAppendEntries} {sender : String} {fork : ProtoFork}
  {configNum : Nat} {part blocks : List HalfSerializedBlock} {parts : List (List HalfSerializedBlock)}

/-- Some block has another configuration than the one in force before it, and is stable. -/
def StableChange : Nat → List HalfSerializedBlock → Prop
  | _, [] => False
  | configNum, block :: rest =>
    block.configNum ≠ configNum ∧ block.viewIsStable = true ∨ StableChange block.configNum rest

/-- A configuration is in force for all blocks of a part but the last, whose configuration is in
force for the next part. -/
def CutByConfig : Nat → List (List HalfSerializedBlock) → Prop
  | _, [] => True
  | configNum, part :: rest => ∃ blocks last, part = blocks ++ [last] ∧
    (∀ block ∈ blocks, block.configNum = configNum) ∧
    (rest ≠ [] → last.configNum ≠ configNum ∧ last.viewIsStable = false) ∧ CutByConfig last.configNum rest

theorem splitParts_eq_none : splitParts configNum part blocks = none ↔ StableChange configNum blocks := by
  induction blocks generalizing configNum part with
  | nil => simp [splitParts, StableChange]
  | cons block rest ih =>
    rw [splitParts, StableChange]
    by_cases same : block.configNum = configNum
    · simp [same, ih]
    · by_cases stable : block.viewIsStable = true
      · simp [same, stable]
      · simp [same, stable, ih]

theorem splitParts_spec (inForce : ∀ block ∈ part, block.configNum = configNum)
    (split : splitParts configNum part blocks = some parts) :
    parts.flatten = part ++ blocks ∧ CutByConfig configNum parts := by
  induction blocks generalizing configNum part parts with
  | nil =>
    obtain rfl := some.inj split
    by_cases empty : part = []
    · simp [empty, CutByConfig]
    · obtain ⟨blocks, last, rfl⟩ := (eq_nil_or_concat' part).resolve_left empty
      rw [if_neg empty]
      refine ⟨by simp, blocks, last, by simp, fun block member => ?_, absurd rfl, trivial⟩
      exact inForce block (by simp [member])
  | cons block rest ih =>
    rw [splitParts] at split
    split at split
    · next same =>
      have grown := ih (forall_mem_append.mpr ⟨inForce, forall_mem_singleton.mpr same⟩) split
      rwa [append_assoc] at grown
    · next differs =>
      split at split
      · cases split
      · next unstable =>
        obtain ⟨_, splitLater, rfl⟩ := map_eq_some_iff.mp split
        obtain ⟨whole, cut⟩ := ih (forall_mem_nil _) splitLater
        refine ⟨by simp [whole], part, block, rfl, inForce, fun _ => ⟨differs, ?_⟩, cut⟩
        simpa using unstable

/-- The first part goes to the broadcaster with the number of those behind it, which wait. -/
def Forwarded (crypto : CryptoService) (receiver : ForkReceiver) (ae : ProtoAppendEntries) (sender : String)
    (after : ForkReceiver) : List (List HalfSerializedBlock) → Prop
  | [] => after.broadcasterTx = receiver.broadcasterTx ∧ after.multipartBuffer = receiver.multipartBuffer
  | first :: rest => ∃ blocks lastHash,
    prepareFork crypto first (byzantineLivenessThreshold crypto.config) = some (blocks, lastHash) ∧
    after.broadcasterTx = receiver.broadcasterTx ++ [⟨blocks, rest.length, statsOf ae sender⟩] ∧
    after.multipartBuffer = if rest = [] then receiver.multipartBuffer else rest.map (·, statsOf ae sender)

theorem Passes.processFork_eq (passes : Passes crypto store server receiver ae sender fork) :
    ∃ asked, processFork crypto store receiver server ae sender =
      (forwardFork crypto receiver ae sender fork.serializedBlocks).map (·, asked) := by
  obtain ⟨asked, common⟩ := passes.common
  obtain ⟨_, views, reached⟩ := passes.views
  refine ⟨asked, ?_⟩
  have current : ¬ (ae.view < receiver.view ∨ ae.configNum < receiver.configNum) :=
    not_or.mpr ⟨Nat.not_lt.mpr passes.view, Nat.not_lt.mpr passes.configNum⟩
  have fromLeader : ¬ (ae.configNum = receiver.configNum ∧ crypto.config.getLeaderForView ae.view ≠ sender) :=
    fun other => other.2 (passes.leader other.1)
  rw [processFork, if_neg current, if_neg fromLeader]
  simp only [common, passes.isFork, views, if_neg (Nat.not_lt.mpr reached)]

theorem forwarded_of_forwardFork (split : splitParts receiver.configNum [] blocks = some parts)
    (forwards : forwardFork crypto receiver ae sender blocks = some after) :
    Forwarded crypto receiver ae sender after parts := by
  simp only [forwardFork, split] at forwards
  cases parts with
  | nil =>
    obtain rfl := some.inj forwards
    exact ⟨rfl, rfl⟩
  | cons first rest =>
    obtain ⟨_, sent, buffered⟩ := bind_eq_some_iff.mp forwards
    obtain ⟨blocks, lastHash, prepared, rfl⟩ := forwardPart_spec sent
    refine ⟨blocks, lastHash, prepared, ?_⟩
    split at buffered
    · next none =>
      obtain rfl := some.inj buffered
      exact ⟨rfl, (if_pos none).symm⟩
    · next more =>
      obtain ⟨-, buffered⟩ := ite_none_left_eq_some.mp buffered
      obtain rfl := some.inj buffered
      exact ⟨rfl, (if_neg more).symm⟩

/-- A fork whose configuration changes with a stable block is dropped as a whole. Any other fork
that passes the tests is forwarded and buffered in parts. -/
theorem fork_cut_by_config {receiver after : ForkReceiver} {ae : ProtoAppendEntries} {fork : ProtoFork}
    (isFork : ae.fork = some fork)
    (processed : processFork crypto store receiver server ae sender = some (after, answered)) :
    (StableChange receiver.configNum fork.serializedBlocks → Forwarded crypto receiver ae sender after []) ∧
      (Passes crypto store server receiver ae sender fork → ¬ StableChange receiver.configNum fork.serializedBlocks →
        ∃ parts, Forwarded crypto receiver ae sender after parts ∧ parts.flatten = fork.serializedBlocks ∧
          CutByConfig receiver.configNum parts) := by
  constructor
  · intro stable
    have unsplit : splitParts receiver.configNum [] fork.serializedBlocks = none := splitParts_eq_none.mpr stable
    cases processFork_processes processed with
    | ignored | nacked | dropped => exact ⟨rfl, rfl⟩
    | whole passes split =>
      cases isFork.symm.trans passes.isFork
      cases unsplit.symm.trans split
    | inParts passes split =>
      cases isFork.symm.trans passes.isFork
      cases unsplit.symm.trans split
  · intro passes unstable
    obtain ⟨parts, split⟩ := ne_none_iff_exists'.mp (mt splitParts_eq_none.mp unstable)
    obtain ⟨_, same⟩ := passes.processFork_eq
    obtain ⟨_, forwards, pair⟩ := map_eq_some_iff.mp (same.symm.trans processed)
    cases pair
    exact ⟨parts, forwarded_of_forwardFork split forwards, splitParts_spec (forall_mem_nil _) split⟩

theorem cut_inTwoParts : ∃ after answered,
    processFork follower (fun _ => none) { view := 1, configNum := 1 } {} Parts.inTwoParts "node1" =
      some (after, answered) ∧
    after.multipartBuffer.length = 1 ∧ ∃ parts,
      Forwarded follower { view := 1, configNum := 1 } Parts.inTwoParts "node1" after parts ∧
        parts.flatten.map (·.n) = [1, 2, 3] ∧ CutByConfig 1 parts := by
  have ran : (processFork follower (fun _ => none) { view := 1, configNum := 1 } {} Parts.inTwoParts "node1").any
      (fun result => decide (result.1.multipartBuffer.length = 1)) = true := by decide +kernel
  have known : (ensureCommonPrefix (fun _ => none) { view := 1, configNum := 1 } {} Parts.inTwoParts).map (·.1) =
      some true := by decide +kernel
  obtain ⟨⟨after, answered⟩, processed, buffered⟩ := (any_eq_true _ _).mp ran
  obtain ⟨⟨_, asked⟩, common, rfl⟩ := map_eq_some_iff.mp known
  obtain ⟨parts, forwarded, whole, cut⟩ := (fork_cut_by_config rfl processed).2
    ⟨rfl, by decide, by decide, by decide, ⟨asked, common⟩, 1, by decide, by decide⟩
    (by simp [StableChange, Parts.signedBlock])
  exact ⟨after, answered, processed, of_decide_eq_true buffered, parts, forwarded, by rw [whole]; rfl, cut⟩

end PirateShip.ForkReceiver
