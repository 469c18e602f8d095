import Mathlib.Data.Finset.Max
import PirateShip.Staging.Certificates
import PirateShip.Staging.Processed

/-! How a view becomes stable. Any certificate labelled with the view does it, and a leader
labels its certificates with the view that it is in, not with that of the block: signatures
that are sent again, or that were kept when the view changed, complete certificates over
blocks of earlier views. -/

set_option autoImplicit false

namespace PirateShip.Staging

open StepSystem

variable {crypto : CryptoService} {staging after : Staging} {event : Event}

/-- The first certificate of the step that is labelled with the view of the node. Those
before it are ignored, those after it find the view stable. -/
def stabilizer (crypto : CryptoService) (staging : Staging) (event : Event) : Option ProtoQuorumCertificate :=
  (processing crypto staging event).2.find? fun qc => qc.view == (processing crypto staging event).1.view

/-- The view is unstable before the step, or when its certificates are processed. -/
def UnstableAt (crypto : CryptoService) (staging : Staging) (event : Event) : Prop :=
  staging.viewIsStable = false ∨ (processing crypto staging event).1.viewIsStable = false

/-- The certificate is over the first block of the view in the log, or a later one. -/
structure OverNewView (log : List CachedBlock) (view : Nat) (qc : ProtoQuorumCertificate) : Prop where
  label : qc.view = view
  first : ∃ first ∈ log, first.block.view = view ∧
    (∀ block ∈ log, block.block.view = view → first.block.n ≤ block.block.n) ∧ first.block.n ≤ qc.n

/-- A block of the view stands at the number or below. -/
def Opened (log : List CachedBlock) (view n : Nat) : Prop :=
  ∃ block ∈ log, block.block.view = view ∧ block.block.n ≤ n

/-- With the vote counted, the first pending block that has the signatures for a certificate and lacks one does
not stand below the blocks of the view. -/
def CountsAbove (crypto : CryptoService) (staging : Staging) (sender : String) (vote : ProtoVote) : Prop :=
  ∀ thresh ∈ byzantineCommitThreshold crypto.config,
    ∀ entry ∈ (recordVote sender vote.n vote.sigArray staging.pendingBlocks).find?
      (needsQc thresh (byzantineFastPathThreshold crypto.config)),
    Opened staging.log staging.view entry.n

/-- The votes of a leader, its own included, keep above the first block of the view, and so does the first
certificate with the label of the view that a follower's block has attached. -/
def KeepsAbove (crypto : CryptoService) (staging : Staging) : Event → Prop
  | .vote sender vote => CountsAbove crypto staging sender.toNameAndSubId.1 vote
  | .block block _ aeStats final =>
    let settled := settledFor crypto staging block aeStats
    if iAmLeader crypto.config settled then
      CountsAbove crypto (pushBlock settled block final) crypto.config.netConfig.name
        (voteFor settled block (voteSignature crypto block))
    else ∀ qc ∈ block.block.qc.find? (·.view == aeStats.view),
      block.block.view = aeStats.view ∧ block.block.n ≤ qc.n ∨ Opened settled.log aeStats.view qc.n
  | .timerTick _ | .pacemaker _ => True

theorem settleForBlock_unstable {entered} (unstable : entered.viewIsStable = false) (block aeStats) :
    (settleForBlock entered block aeStats).viewIsStable = false := by
  rw [settleForBlock_core, if_neg (by simp [unstable])]
  rfl

theorem processing_unstable (unstable : staging.viewIsStable = false) (event) :
    (processing crypto staging event).1.viewIsStable = false := by
  cases event with
  | vote | timerTick | pacemaker => exact unstable
  | block block storageAck aeStats final =>
    have settled : (settledFor crypto staging block aeStats).viewIsStable = false := by
      apply settleForBlock_unstable
      split
      · exact unstable
      · split <;> rfl
    dsimp only [processing]
    split
    · exact unstable
    · rcases processingBlock_fst crypto (settledFor crypto staging block aeStats) block final with kept | pushed
      · rw [kept, settled]
      · rw [pushed]
        exact settled

theorem overNewView_iff {log view qc} : OverNewView log view qc ↔ qc.view = view ∧ Opened log view qc.n := by
  constructor
  · rintro ⟨label, first, member, inView, -, below⟩
    exact ⟨label, first, member, inView, below⟩
  · rintro ⟨label, block, member, inView, below⟩
    have held : block ∈ log.toFinset.filter fun other => other.block.view = view := by simp [member, inView]
    obtain ⟨first, isFirst, least⟩ := Finset.exists_min_image _ (·.block.n) ⟨block, held⟩
    rw [Finset.mem_filter, List.mem_toFinset] at isFirst
    refine ⟨label, first, isFirst.1, isFirst.2, fun other inLog sameView => ?_, (least block held).trans below⟩
    exact least other (by simp [inLog, sameView])

theorem find?_completedQcs {sender vote qc}
    (found : (completedQcs crypto staging sender vote).find? (·.view == staging.view) = some qc) :
    ∃ thresh, byzantineCommitThreshold crypto.config = some thresh ∧
      ∃ entry, (recordVote sender vote.n vote.sigArray staging.pendingBlocks).find?
        (needsQc thresh (byzantineFastPathThreshold crypto.config)) = some entry ∧ qc = qcOf staging.view entry := by
  unfold completedQcs at found
  split at found
  · next first last thresh atHead atLast known =>
    split at found
    · rw [proposeQcs, List.find?_map, List.find?_filter] at found
      simp only [Function.comp_def, qcOf, beq_self_eq_true, and_true, Bool.decide_eq_true] at found
      obtain ⟨entry, complete, rfl⟩ := Option.map_eq_some_iff.mp found
      exact ⟨thresh, known, entry, complete, rfl⟩
    · cases found
  · cases found

theorem countsAbove_iff {sender vote qc}
    (found : (completedQcs crypto staging sender vote).find? (·.view == staging.view) = some qc) :
    CountsAbove crypto staging sender vote ↔ Opened staging.log staging.view qc.n := by
  obtain ⟨thresh, known, entry, complete, rfl⟩ := find?_completedQcs found
  constructor
  · exact fun above => above thresh known entry complete
  · intro opened thresh' known' entry' complete'
    obtain rfl := Option.mem_unique known known'
    obtain rfl := Option.mem_unique complete complete'
    exact opened

theorem view_settledFor (crypto staging block aeStats) :
    (settledFor crypto staging block aeStats).view = aeStats.view := by
  rw [settledFor, view_settleForBlock]
  split
  · next same => exact same.symm
  · split <;> rfl

theorem opened_pushBlock {block final view n} : Opened (pushBlock staging block final).log view n ↔
    block.block.view = view ∧ block.block.n ≤ n ∨ Opened staging.log view n := by
  have log : (pushBlock staging block final).log = staging.log ++ [block] := by
    simp [pushBlock, StagingCore.log, StagingCore.blocks, StagingCore.committed]
  rw [Opened, log]
  simp only [List.mem_append, List.mem_singleton, or_and_right, exists_or, exists_eq_left]
  exact or_comm

theorem keepsAbove_iff {qc} (found : stabilizer crypto staging event = some qc) :
    KeepsAbove crypto staging event ↔
      Opened (processing crypto staging event).1.log (processing crypto staging event).1.view qc.n := by
  unfold stabilizer at found
  cases event with
  | vote sender vote =>
    dsimp only [processing] at found ⊢
    split at found
    · exact countsAbove_iff found
    · cases found
  | block block storageAck aeStats final =>
    dsimp only [processing] at found ⊢
    split at found
    · cases found
    · next current =>
      rw [if_neg current]
      unfold processingBlock at found ⊢
      split at found
      · cases found
      · next continues =>
        rw [if_neg continues]
        have view : (pushBlock (settledFor crypto staging block aeStats) block final).view = aeStats.view :=
          view_settledFor crypto staging block aeStats
        by_cases leads : iAmLeader crypto.config
          (pushBlock (settledFor crypto staging block aeStats) block final) = true
        · have leads' : iAmLeader crypto.config (settledFor crypto staging block aeStats) = true := leads
          simp only [KeepsAbove, leads, leads', if_true] at found ⊢
          split at found
          · exact countsAbove_iff found
          · cases found
        · have follows : ¬ iAmLeader crypto.config (settledFor crypto staging block aeStats) = true := leads
          simp only [KeepsAbove, leads, follows, Bool.false_eq_true, if_false, view, opened_pushBlock] at found ⊢
          exact ⟨fun above => above qc found, fun opened other found' => Option.mem_unique found found' ▸ opened⟩
  | timerTick | pacemaker => cases found

/-- A view becomes stable only by a certificate with its label, the first one of the step. That is over the
first block of the view or a later one exactly if votes and attached certificates keep above it. -/
theorem stabilized_over_newView_iff (taken : step crypto staging event = some after)
    (unstable : UnstableAt crypto staging event) (stable : after.viewIsStable = true) :
    ∃ qc ∈ stabilizer crypto staging event, qc.view = after.view ∧
      (OverNewView after.log after.view qc ↔ KeepsAbove crypto staging event) := by
  have unstable : (processing crypto staging event).1.viewIsStable = false :=
    unstable.elim (processing_unstable · event) id
  rcases step_processed taken with done | ⟨-, stays, without⟩
  · rw [done.viewIsStable, unstable] at stable
    obtain ⟨qc, found⟩ := Option.isSome_iff_exists.mp (List.find?_isSome.mpr (List.any_eq_true.mp stable))
    have label : qc.view = (processing crypto staging event).1.view := by
      simpa using List.find?_some found
    refine ⟨qc, found, label.trans done.view.symm, ?_⟩
    rw [overNewView_iff, keepsAbove_iff found, done.log, done.view]
    exact and_iff_right label
  · rcases without with ⟨_, rfl⟩ | ⟨_, rfl⟩
    · exact absurd (stays stable) (by simpa [processing] using unstable)
    · exact absurd (stays stable) (by simpa [processing] using unstable)

instance (log : List CachedBlock) (view n : Nat) : Decidable (Opened log view n) :=
  inferInstanceAs (Decidable (∃ block ∈ _, _))

instance (crypto : CryptoService) (staging : Staging) (sender : String) (vote : ProtoVote) :
    Decidable (CountsAbove crypto staging sender vote) :=
  inferInstanceAs (Decidable (∀ thresh ∈ byzantineCommitThreshold crypto.config, ∀ entry ∈ List.find? _ _, _))

def newViewBlock : CachedBlock := signedBlock [1] honestBlock.blockHash (plainBlock 2 4 [])

def sentVote (view : Nat) (blocks : List CachedBlock) (last : CachedBlock) : ProtoVote where
  sigArray := blocks.map fun block => ⟨block.block.n, repeatingPrimitives.sign [2] block.blockHash⟩
  forkDigest := last.blockHash
  n := last.block.n
  view
  configNum := 1

def voteOfNode2 (view : Nat) (blocks : List CachedBlock) (last : CachedBlock) : Event :=
  .vote (.auth "node2" 0) (sentVote view blocks last)

theorem stabilized_by_own_block :
    ∃ staging after, Reaches (step (keyedNode "node1")) Any (new (keyedNode "node1").config) staging ∧
      step (keyedNode "node1") staging (voteOfNode2 1 [honestBlock] honestBlock) = some after ∧
      ∃ qc ∈ stabilizer (keyedNode "node1") staging (voteOfNode2 1 [honestBlock] honestBlock),
        OverNewView after.log after.view qc := by
  obtain ⟨staging, reached, above, unstable, stabilizes⟩ : ∃ staging,
      Reaches (step (keyedNode "node1")) Any (new (keyedNode "node1").config) staging ∧
      CountsAbove (keyedNode "node1") staging "node2" (sentVote 1 [honestBlock] honestBlock) ∧
      staging.viewIsStable = false ∧
      (step (keyedNode "node1") staging (voteOfNode2 1 [honestBlock] honestBlock)).any
        (fun after => after.viewIsStable) = true :=
    exists_reaches_any [deliver honestBlock 1 0 false] (by decide +kernel)
  obtain ⟨after, taken, stable⟩ := (Option.any_eq_true _ _).mp stabilizes
  obtain ⟨qc, first, -, keeps⟩ := stabilized_over_newView_iff taken (.inl unstable) stable
  exact ⟨staging, after, reached, taken, qc, first, keeps.mpr above⟩

/-- Node 1 leads views 1 and 4. Its own signature on block 1 survives the view change, and
node 2 sends its signature again, so that view 4 becomes stable by a certificate over the
block of view 1. -/
theorem stabilized_by_inherited_block :
    ∃ staging, Reaches (step (keyedNode "node1")) Any (new (keyedNode "node1").config) staging ∧
      (staging.viewIsStable = false ∧ staging.view = 4 ∧
        staging.log.map (fun block => (block.block.view, block.block.n)) = [(1, 1), (4, 2)] ∧
        (step (keyedNode "node1") staging (voteOfNode2 4 [honestBlock, newViewBlock] newViewBlock)).any
          (fun after => after.viewIsStable) = true ∧
        (stabilizer (keyedNode "node1") staging
          (voteOfNode2 4 [honestBlock, newViewBlock] newViewBlock)).map (fun qc => (qc.view, qc.n)) = some (4, 1)) :=
  exists_reaches_any [deliver honestBlock 1 0 false, .pacemaker (.updateView 4 1), deliver newViewBlock 4 0 false]
    (by decide +kernel)

end PirateShip.Staging
