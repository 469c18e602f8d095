import PirateShip.BatchProposal
import PirateShip.Lib.Run

/-! Where a request is after it reached the batch proposer: it was answered with the leader,
or it is in one batch, beside its channel. A change of the leader does not close the batch. -/

set_option autoImplicit false

namespace PirateShip.BatchProposer

open List StepSystem Option

variable (config : Config)

/-!
## Runs of the batch proposer
-/

/-- A request that needs consensus, with the leader that the proposer knew when it came. -/
structure Arrival where
  tx : ProtoTransaction
  ack : MsgAckChanWithTag
  leader : String

structure Watched where
  proposer : BatchProposer
  arrived : List Arrival := []

def arrival (leader : String) : Input → List Arrival
  | .newTx (some tx, ack) _ => if tx.onReceive.isSome then [] else [⟨tx, ack, leader⟩]
  | _ => []

def watch (watched : Watched) (input : Input) : Option Watched :=
  (watched.proposer.worker config input).map fun proposer =>
    { proposer, arrived := watched.arrived ++ arrival watched.proposer.currentLeader input }

def start : Watched := { proposer := new config }

def batches (proposer : BatchProposer) : List (RawBatch × List MsgAckChanWithTag) :=
  proposer.blockMakerTx ++ [(proposer.currentRawBatch, proposer.currentReplyVec)]

/-- The requests that came while another node led are answered with its name, and the batches are
the other requests in order, transaction and channel at the same index. -/
structure Placed (watched : Watched) : Prop where
  answered : watched.proposer.leaderReplies =
    (watched.arrived.filter (·.leader ≠ config.netConfig.name)).map fun request =>
      (request.ack, ⟨.leader request.leader, request.ack.clientTag⟩)
  batched : watched.proposer.batches.flatMap (fun batch => batch.1.zip batch.2) =
    (watched.arrived.filter (·.leader = config.netConfig.name)).map fun request => (request.tx, request.ack)
  aligned : ∀ batch ∈ watched.proposer.batches, batch.1.length = batch.2.length

def Idle (watched : Watched) : Prop :=
  watched.proposer.currentLeader ≠ config.netConfig.name → watched.proposer.currentRawBatch = []

/-- What the inputs alone say: who leads, and how many requests wait for their batch to be closed. -/
structure Tally where
  makeNewBatches : Bool
  leader : String
  waiting : Nat

namespace Tally

def close (tally : Tally) (batchTimerTick : Bool) : Tally :=
  if decide (config.consensusConfig.maxBacklogBatchSize ≤ tally.waiting) ||
      (tally.makeNewBatches && batchTimerTick) then
    { tally with waiting := 0 }
  else tally

def count (tally : Tally) : Input → Option Tally
  | .cmd (makeNewBatches, leader) => some { tally with makeNewBatches, leader }
  | .tick => some (tally.close config true)
  | .newTx (none, _) _ => none
  | .newTx (some tx, _) elapsed =>
    if tx.onReceive.isSome then some (tally.close config elapsed)
    else if tally.leader ≠ config.netConfig.name then some tally
    else some ({ tally with waiting := tally.waiting + 1 }.close config elapsed)

/-- The leadership goes to another node only when no request has come since the last batch was closed. -/
def HandsOver (tally : Tally) : Input → Prop
  | .cmd (_, leader) => leader ≠ config.netConfig.name → tally.waiting = 0
  | .newTx _ _ | .tick => True

instance (tally : Tally) : ∀ input, Decidable (tally.HandsOver config input)
  | .cmd (_, _) => inferInstanceAs (Decidable (_ → _))
  | .newTx _ _ | .tick => isTrue trivial

end Tally

def tally (proposer : BatchProposer) : Tally :=
  ⟨proposer.makeNewBatches, proposer.currentLeader, proposer.currentRawBatch.length⟩

variable {config} {proposer after : BatchProposer} {arrived : List Arrival}

theorem iAmLeader_iff : proposer.iAmLeader config = true ↔ proposer.currentLeader = config.netConfig.name :=
  beq_iff_eq.trans eq_comm

theorem worker_newTx {request elapsed} (worked : proposer.worker config (.newTx request elapsed) = some after) :
    ∃ tx ack, request = (some tx, ack) ∧ ((tx.onReceive.isSome = true ∧ ∃ unloggedTx replyTx,
        after = { proposer with unloggedTx, replyTx }.maybePropose config elapsed) ∨
      (tx.onReceive.isSome = false ∧ after = proposer.addTx config request elapsed)) := by
  obtain ⟨tx, ack⟩ := request
  cases tx with
  | none => cases worked
  | some tx =>
    refine ⟨tx, ack, rfl, ?_⟩
    simp only [worker, filterUnloggedRequest] at worked
    cases unlogged : tx.onReceive.isSome with
    | true =>
      rw [unlogged] at worked
      cases probe : isProbeTx tx with
      | none =>
        rw [probe] at worked
        exact .inl ⟨rfl, _, _, (some.inj worked).symm⟩
      | some blockN =>
        rw [probe] at worked
        exact .inl ⟨rfl, _, _, (some.inj worked).symm⟩
    | false =>
      rw [unlogged] at worked
      exact .inr ⟨rfl, (some.inj worked).symm⟩

/-!
## Placed requests
-/

theorem batches_proposeNewBatch : proposer.proposeNewBatch.batches = proposer.batches ++ [([], [])] := rfl

variable (placed : Placed config ⟨proposer, arrived⟩)
include placed

theorem Placed.maybePropose (tick) : Placed config ⟨proposer.maybePropose config tick, arrived⟩ := by
  unfold BatchProposer.maybePropose
  split
  · refine ⟨placed.answered, ?_, fun batch member => ?_⟩
    · rw [batches_proposeNewBatch, flatMap_append]
      exact (append_nil _).trans placed.batched
    · cases mem_append.mp member with
      | inl earlier => exact placed.aligned batch earlier
      | inr last =>
        obtain rfl := mem_singleton.mp last
        rfl
  · exact placed

theorem Placed.congr (batches : after.batches = proposer.batches)
    (leaderReplies : after.leaderReplies = proposer.leaderReplies) : Placed config ⟨after, arrived⟩ where
  answered := leaderReplies ▸ placed.answered
  batched := batches ▸ placed.batched
  aligned := batches ▸ placed.aligned

theorem Placed.replyLeader {tx ack} (follows : proposer.currentLeader ≠ config.netConfig.name) :
    Placed config ⟨proposer.replyLeader ack, arrived ++ [⟨tx, ack, proposer.currentLeader⟩]⟩ where
  answered := by
    have answered := placed.answered
    simp only at answered
    simp only [BatchProposer.replyLeader, answered]
    simp [follows]
  batched := by
    refine placed.batched.trans ?_
    simp [follows]
  aligned := placed.aligned

theorem Placed.append {tx ack} (leads : proposer.currentLeader = config.netConfig.name) :
    Placed config ⟨{ proposer with
          currentRawBatch := proposer.currentRawBatch ++ [tx]
          currentReplyVec := proposer.currentReplyVec ++ [ack] },
        arrived ++ [⟨tx, ack, proposer.currentLeader⟩]⟩ := by
  have current : proposer.currentRawBatch.length = proposer.currentReplyVec.length :=
    placed.aligned _ (mem_append_right _ (mem_singleton_self _))
  have batched := placed.batched
  simp only [batches, flatMap_append, flatMap_singleton] at batched
  refine ⟨?_, ?_, fun batch member => ?_⟩
  · refine placed.answered.trans ?_
    simp [leads]
  · simp only [batches, flatMap_append, flatMap_singleton, zip_append current, ← append_assoc,
      batched, filter_append, map_append]
    simp [leads]
  · cases mem_append.mp member with
    | inl proposed => exact placed.aligned batch (mem_append_left _ proposed)
    | inr last =>
      obtain rfl := mem_singleton.mp last
      simp [current]

omit placed

theorem Placed.watch {watched next input} (placed : Placed config watched)
    (taken : watch config watched input = some next) : Placed config next := by
  obtain ⟨proposer, arrived⟩ := watched
  obtain ⟨_, ran, rfl⟩ := map_eq_some_iff.mp taken
  cases input with
  | cmd command =>
    cases ran
    exact (append_nil arrived).symm ▸ placed.congr rfl rfl
  | tick =>
    cases ran
    exact (append_nil arrived).symm ▸ placed.maybePropose true
  | newTx request elapsed =>
    obtain ⟨_, _, rfl, ⟨unlogged, unloggedTx, replyTx, rfl⟩ | ⟨logged, rfl⟩⟩ := worker_newTx ran
    · have unchanged : Placed config ⟨{ proposer with unloggedTx, replyTx }, arrived⟩ := placed.congr rfl rfl
      simpa [arrival, unlogged] using unchanged.maybePropose elapsed
    · simp only [arrival, logged]
      unfold addTx
      split
      · next follows => exact placed.replyLeader fun leads => by simp [iAmLeader_iff.mpr leads] at follows
      · next leads =>
        exact (placed.append (iAmLeader_iff.mp (by simpa using leads))).maybePropose elapsed

/-!
## Batches of a node that does not lead
-/

theorem tally_maybePropose (proposer : BatchProposer) (tick) :
    (proposer.maybePropose config tick).tally = proposer.tally.close config tick :=
  apply_ite tally _ _ _

theorem count_tally {input} (worked : proposer.worker config input = some after) :
    proposer.tally.count config input = some after.tally := by
  cases input with
  | cmd command =>
    cases worked
    rfl
  | tick =>
    cases worked
    rw [tally_maybePropose]
    rfl
  | newTx request elapsed =>
    obtain ⟨tx, ack, rfl, ⟨unlogged, _, _, rfl⟩ | ⟨logged, rfl⟩⟩ := worker_newTx worked
    · rw [tally_maybePropose, Tally.count, if_pos unlogged]
      rfl
    · rw [Tally.count, if_neg (by simp [logged]), addTx]
      by_cases leads : proposer.tally.leader = config.netConfig.name
      · rw [if_neg (not_not.mpr leads), if_neg (by simp [iAmLeader_iff.mpr leads]), tally_maybePropose]
        simp [tally]
      · have follows : proposer.iAmLeader config = false := Bool.eq_false_iff.mpr (iAmLeader_iff.not.mpr leads)
        rw [if_pos leads, if_pos (by rw [follows]; rfl)]
        rfl

theorem idle_maybePropose (idle : Idle config ⟨proposer, arrived⟩) (tick more) :
    Idle config ⟨proposer.maybePropose config tick, more⟩ := by
  unfold BatchProposer.maybePropose
  split
  · exact fun _ => rfl
  · exact idle

theorem idle_watch_iff {watched next input} (idle : Idle config watched)
    (taken : watch config watched input = some next) :
    Idle config next ↔ watched.proposer.tally.HandsOver config input := by
  obtain ⟨proposer, arrived⟩ := watched
  obtain ⟨_, ran, rfl⟩ := map_eq_some_iff.mp taken
  cases input with
  | cmd command =>
    cases ran
    exact imp_congr_right fun _ => length_eq_zero_iff.symm
  | tick =>
    cases ran
    exact iff_of_true (idle_maybePropose idle true _) trivial
  | newTx request elapsed =>
    refine iff_of_true ?_ trivial
    obtain ⟨tx, ack, rfl, ⟨_, unloggedTx, replyTx, rfl⟩ | ⟨_, rfl⟩⟩ := worker_newTx ran
    · have unchanged : Idle config ⟨{ proposer with unloggedTx, replyTx }, arrived⟩ := idle
      exact idle_maybePropose unchanged elapsed _
    · unfold addTx
      split
      · exact idle
      · next leads =>
        have leads : proposer.currentLeader = config.netConfig.name := iAmLeader_iff.mp (by simpa using leads)
        have added : Idle config ⟨{ proposer with
            currentRawBatch := proposer.currentRawBatch ++ [tx]
            currentReplyVec := proposer.currentReplyVec ++ [ack] }, arrived⟩ :=
          absurd leads
        exact idle_maybePropose added elapsed _

theorem placed_start (config) : Placed config (start config) := by
  unfold start new
  split <;> exact ⟨rfl, rfl, fun batch member => by obtain rfl := mem_singleton.mp member; rfl⟩

theorem idle_start (config) : Idle config (start config) := by
  unfold start new
  split <;> exact fun _ => rfl

/-- In every run no request is lost, duplicated or separated from its channel; and none is left in
the batch of a node that does not lead exactly if, by the inputs, none has come since the last batch
was closed whenever another node takes over. -/
theorem placed_and_idle_iff {inputs : List Input} {last : Watched}
    (ran : runAll (watch config) (start config) inputs = some last) :
    (∀ watched, Passes (watch config) (start config) inputs watched → Placed config watched) ∧
    ((∀ watched, Passes (watch config) (start config) inputs watched → Idle config watched) ↔
      AllAllowed (Tally.count config) (Tally.HandsOver config) (new config).tally inputs) := by
  constructor
  · rintro watched ⟨_, -, reached⟩
    exact (reaches_any_of_runAll reached).invariant (placed_start config) fun placed _ taken => placed.watch taken
  · have steps {watched next : Watched} {input : Input} (taken : watch config watched input = some next) :
        watched.proposer.tally.count config input = some next.proposer.tally := by
      obtain ⟨_, worked, rfl⟩ := map_eq_some_iff.mp taken
      exact count_tally worked
    have byInputs : AllAllowed (watch config) (fun watched => watched.proposer.tally.HandsOver config) (start config)
        inputs ↔ AllAllowed (Tally.count config) (Tally.HandsOver config) (new config).tally inputs :=
      allAllowed_map (fun watched : Watched => watched.proposer.tally) steps ran
    rw [← byInputs]
    exact forall_passes_iff (idle_start config) trivial (fun _ _ => trivial)
      (fun _ idle taken => idle_watch_iff idle taken) ran

/-!
## A change of the leader
-/

def pairsOfOne : Config where
  netConfig := { name := "node1" }
  consensusConfig := { nodeList := ["node1", "node2", "node3"], livenessU := 1, maxBacklogBatchSize := 2 }
  features := { viewChange := false }

def emptyTx : ProtoTransaction := {}

def ackOn (chan : Nat) : MsgAckChanWithTag := ⟨chan, 7, .auth "client1" 0⟩

def requestOn (chan : Nat) : Input := .newTx (some emptyTx, ackOn chan) false

theorem placed_and_idle_of_full_batch :
    ∃ last, runAll (watch pairsOfOne) (start pairsOfOne)
        [requestOn 0, requestOn 1, .cmd (false, "node2"), requestOn 2] = some last ∧
      (last.proposer.blockMakerTx = [([emptyTx, emptyTx], [ackOn 0, ackOn 1])] ∧
        last.proposer.leaderReplies = [(ackOn 2, ⟨.leader "node2", 7⟩)]) ∧
      Placed pairsOfOne last ∧ Idle pairsOfOne last := by
  have ran : (runAll (watch pairsOfOne) (start pairsOfOne)
      [requestOn 0, requestOn 1, .cmd (false, "node2"), requestOn 2]).any (fun last =>
        decide (last.proposer.blockMakerTx = [([emptyTx, emptyTx], [ackOn 0, ackOn 1])] ∧
          last.proposer.leaderReplies = [(ackOn 2, ⟨.leader "node2", 7⟩)])) = true := by decide +kernel
  obtain ⟨last, ran, holds⟩ := (any_eq_true _ _).mp ran
  have passes : Passes (watch pairsOfOne) (start pairsOfOne)
      [requestOn 0, requestOn 1, .cmd (false, "node2"), requestOn 2] last := ⟨_, prefix_rfl, ran⟩
  exact ⟨last, ran, of_decide_eq_true holds, (placed_and_idle_iff ran).1 last passes,
    (placed_and_idle_iff ran).2.mpr (by decide +kernel) last passes⟩

/-- The batch has one transaction when the leader changes, and the timer does not close it. -/
theorem request_left_in_batch :
    ∃ last, runAll (watch pairsOfOne) (start pairsOfOne) [requestOn 0, .cmd (false, "node2"), .tick] = some last ∧
      (last.proposer.currentLeader = "node2" ∧ last.proposer.blockMakerTx = [] ∧
        last.proposer.leaderReplies = [] ∧ last.proposer.currentReplyVec = [ackOn 0]) ∧ ¬ Idle pairsOfOne last := by
  have ran : (runAll (watch pairsOfOne) (start pairsOfOne) [requestOn 0, .cmd (false, "node2"), .tick]).any
      (fun last => decide ((last.proposer.currentLeader = "node2" ∧ last.proposer.blockMakerTx = [] ∧
        last.proposer.leaderReplies = [] ∧ last.proposer.currentReplyVec = [ackOn 0]) ∧
        last.proposer.currentRawBatch = [emptyTx])) = true := by decide +kernel
  obtain ⟨last, ran, holds⟩ := (any_eq_true _ _).mp ran
  obtain ⟨left, batch⟩ := of_decide_eq_true holds
  refine ⟨last, ran, left, fun idle => ?_⟩
  have empty := idle (by rw [left.1]; decide)
  rw [batch] at empty
  cases empty

end PirateShip.BatchProposer
