import PirateShip.ForkReceiver.Transition

/-! A fork receiver that waits for the reply to a nack reads no `AppendEntries`.
A change of the view does not end the waiting, so that it may outlast the view of
the message that was nacked. -/

set_option autoImplicit false

namespace PirateShip.ForkReceiver

open StepSystem Option

variable {crypto : CryptoService} {store : BlockStore} {server : LogServer} {receiver after : ForkReceiver}
  {ae : ProtoAppendEntries} {sender : String}

def nackedAe? : String × ProtoPayload → Option ProtoAppendEntries
  | (_, .backfillNack nack) =>
    match nack.origin with
    | some (.ae ae) => some ae
    | _ => none
  | _ => none

def nacked (receiver : ForkReceiver) : Option ProtoAppendEntries :=
  (receiver.client.filterMap nackedAe?).getLast?

/-- It waits for a message of its own view or of a higher one. -/
def WaitsForView (receiver : ForkReceiver) : Prop :=
  receiver.waitingOnNackReply = true → ∃ ae ∈ receiver.nacked, receiver.view ≤ ae.view

instance : DecidablePred WaitsForView := fun receiver =>
  inferInstanceAs (Decidable (_ → ∃ ae ∈ receiver.nacked, receiver.view ≤ ae.view))

/-- While it waits, the view does not move past the message that was nacked. -/
def StaysInView (receiver : ForkReceiver) : Event → Prop
  | .command (.updateView view _) _ _ => receiver.waitingOnNackReply = true → ∀ ae ∈ receiver.nacked, view ≤ ae.view
  | _ => True

instance (receiver : ForkReceiver) : ∀ event, Decidable (StaysInView receiver event)
  | .command (.updateView _ _) _ _ => inferInstanceAs (Decidable (_ → _))
  | .command (.multipartNack _) _ _ | .command (.useBackfillResponse _ _) _ _ | .appendEntries .. =>
    inferInstanceAs (Decidable True)

theorem Processes.waitsForView (processes : Processes crypto store server receiver ae sender after)
    (waits : WaitsForView receiver) : WaitsForView after := by
  cases processes with
  | ignored => exact waits
  | nacked inView origin =>
    intro _
    refine ⟨ae, ?_, inView⟩
    simp [ForkReceiver.nacked, nackedAe?, origin]
  | dropped => exact nofun
  | whole _ _ sent =>
    obtain ⟨_, _, _, rfl⟩ := forwardPart_spec sent
    exact nofun
  | inParts _ _ _ sent _ =>
    obtain ⟨_, _, _, rfl⟩ := forwardPart_spec sent
    exact nofun

theorem Updates.kept {view configNum} (updates : Updates crypto receiver view configNum after) :
    after.view = view ∧ after.client = receiver.client ∧ after.waitingOnNackReply = receiver.waitingOnNackReply := by
  have moved : (receiver.moveTo view configNum).view = view ∧
      (receiver.moveTo view configNum).client = receiver.client ∧
      (receiver.moveTo view configNum).waitingOnNackReply = receiver.waitingOnNackReply := by
    unfold moveTo
    split <;> simp
  cases updates with
  | moves => exact moved
  | releases _ _ sent =>
    obtain ⟨_, _, _, rfl⟩ := forwardPart_spec sent
    exact moved
  | discards => exact moved

theorem WaitsForView.worker {event} (waits : WaitsForView receiver) (stays : StaysInView receiver event)
    (taken : worker crypto receiver event = some after) : WaitsForView after := by
  cases event with
  | appendEntries ae sender store server =>
    simp only [ForkReceiver.worker] at taken
    split at taken
    · cases taken
    · obtain ⟨⟨_, answered⟩, processed, rfl⟩ := map_eq_some_iff.mp taken
      exact (processFork_processes processed).waitsForView waits
  | command cmd store server =>
    obtain ⟨⟨_, answered⟩, handled, rfl⟩ := map_eq_some_iff.mp taken
    cases cmd with
    | updateView view configNum =>
      obtain ⟨_, updates, pair⟩ := map_eq_some_iff.mp handled
      cases pair
      obtain ⟨inView, client, waiting⟩ := (handleUpdateView_updates updates).kept
      intro stillWaits
      obtain ⟨ae, isNacked, -⟩ := waits (waiting ▸ stillWaits)
      refine ⟨ae, ?_, ?_⟩
      · rw [nacked, client]
        exact isNacked
      · rw [inView]
        exact stays (waiting ▸ stillWaits) ae isNacked
    | multipartNack parts =>
      simp only [handleCommand] at handled
      split at handled
      · cases handled
      · cases handled
        exact waits
    | useBackfillResponse ae sender => exact (processFork_processes handled).waitsForView waits

/-- In every run in which no view overtakes a nack, the receiver waits for
messages of its view only. -/
theorem waitsForView_of_reaches (reached : Reaches (worker crypto) StaysInView (new crypto.config) receiver) :
    WaitsForView receiver := by
  apply reached.invariant
  · unfold new
    split <;> exact nofun
  · intro before after event waits stays taken
    exact waits.worker stays taken

def missesBlocks : List Event :=
  [.command (.updateView 1 1) (fun _ => none) {},
    .appendEntries (entries 1 true [tinyBlock 5 1 true defaultHash]) "node1" (fun _ => none) {}]

/-- The reply does not come, and the node moves to view 2. -/
theorem view_overtakes_nack :
    ∃ receiver, Reaches (worker follower) Any (new follower.config) receiver ∧ ¬ WaitsForView receiver :=
  exists_reaches_any (missesBlocks ++ [.command (.updateView 2 1) (fun _ => none) {}])
    (by decide +kernel)

theorem waitsForView_in_view :
    ∃ receiver, Reaches (worker follower) StaysInView (new follower.config) receiver ∧
      receiver.waitingOnNackReply = true ∧ WaitsForView receiver :=
  exists_reaches_and missesBlocks (by decide +kernel) (by decide +kernel) fun reached _ =>
    waitsForView_of_reaches reached

end PirateShip.ForkReceiver
