import PirateShip.Crypto.Accepted
import PirateShip.ForkReceiver
import PirateShip.Staging.ChainInvariant

/-! What one message can do to the fork receiver. -/

set_option autoImplicit false

namespace PirateShip.ForkReceiver

open Option

variable {crypto : CryptoService} {store : BlockStore} {server answered : LogServer}
  {receiver after : ForkReceiver} {ae : ProtoAppendEntries} {sender : String}

/-- What the worker's `select!` can receive, with the log server that answers the
queries made meanwhile. -/
inductive Event where
  | appendEntries (ae : ProtoAppendEntries) (sender : String) (store : BlockStore) (server : LogServer)
  | command (cmd : ForkReceiverCommand) (store : BlockStore) (server : LogServer)

/-- One iteration of `worker`. While it waits, it listens to commands only. -/
def worker (crypto : CryptoService) (receiver : ForkReceiver) : Event → Option ForkReceiver
  | .appendEntries ae sender store server =>
    if receiver.blockedOnMultipart || receiver.waitingOnNackReply then none
    else (receiver.processFork crypto store server ae sender).map (·.1)
  | .command cmd store server => (receiver.handleCommand crypto store server cmd).map (·.1)

/-- The tests that a fork has to pass before it is cut into parts. -/
structure Passes (crypto : CryptoService) (store : BlockStore) (server : LogServer) (receiver : ForkReceiver)
    (ae : ProtoAppendEntries) (sender : String) (fork : ProtoFork) : Prop where
  isFork : ae.fork = some fork
  view : receiver.view ≤ ae.view
  configNum : receiver.configNum ≤ ae.configNum
  leader : ae.configNum = receiver.configNum → crypto.config.getLeaderForView ae.view = sender
  common : ∃ answered, receiver.ensureCommonPrefix store server ae = some (true, answered)
  views : ∃ testView, viewsChecked receiver.view fork.serializedBlocks = some testView ∧ ae.view ≤ testView

def buffer (receiver : ForkReceiver) (rest : List (List HalfSerializedBlock)) (aeStats : AppendEntriesStats) :
    ForkReceiver :=
  { receiver with
    multipartBuffer := rest.map (·, aeStats)
    blockedOnMultipart := true }

inductive Processes (crypto : CryptoService) (store : BlockStore) (server : LogServer) (receiver : ForkReceiver)
    (ae : ProtoAppendEntries) (sender : String) : ForkReceiver → Prop where
  | ignored : Processes crypto store server receiver ae sender receiver
  | nacked {nack : ProtoBackfillNack} : receiver.view ≤ ae.view → nack.origin = some (.ae ae) →
      Processes crypto store server receiver ae sender { receiver with
        waitingOnNackReply := true
        client := receiver.client ++ [(sender, .backfillNack nack)] }
  | dropped : Processes crypto store server receiver ae sender { receiver with waitingOnNackReply := false }
  | whole {fork : ProtoFork} {part : List HalfSerializedBlock} {forwarded : ForkReceiver} :
      Passes crypto store server receiver ae sender fork →
      splitParts receiver.configNum [] fork.serializedBlocks = some [part] →
      forwardPart crypto { receiver with waitingOnNackReply := false } part 0 (statsOf ae sender) =
        some forwarded →
      Processes crypto store server receiver ae sender forwarded
  | inParts {fork : ProtoFork} {part : List HalfSerializedBlock} {rest : List (List HalfSerializedBlock)}
      {forwarded : ForkReceiver} :
      Passes crypto store server receiver ae sender fork →
      splitParts receiver.configNum [] fork.serializedBlocks = some (part :: rest) → rest ≠ [] →
      forwardPart crypto { receiver with waitingOnNackReply := false } part rest.length (statsOf ae sender) =
        some forwarded →
      receiver.multipartBuffer = [] →
      Processes crypto store server receiver ae sender (forwarded.buffer rest (statsOf ae sender))

theorem forwardPart_spec {part remainingParts aeStats}
    (forwarded : forwardPart crypto receiver part remainingParts aeStats = some after) :
    ∃ blocks lastHash, prepareFork crypto part (byzantineLivenessThreshold crypto.config) = some (blocks, lastHash) ∧
      after = { receiver with
        broadcasterTx := receiver.broadcasterTx ++ [{ blocks, remainingParts, aeStats }]
        lastAeBlockHash := lastHash } := by
  unfold forwardPart at forwarded
  split at forwarded
  · cases forwarded
  · obtain ⟨⟨blocks, lastHash⟩, prepared, rfl⟩ := map_eq_some_iff.mp forwarded
    exact ⟨blocks, lastHash, prepared, rfl⟩

theorem sendNack_spec (nacked : sendNack crypto store receiver server sender ae = some (after, answered)) :
    ∃ nack : ProtoBackfillNack, nack.origin = some (.ae ae) ∧ after = { receiver with
      waitingOnNackReply := true
      client := receiver.client ++ [(sender, .backfillNack nack)] } := by
  simp only [sendNack] at nacked
  split at nacked
  · cases nacked
  · obtain ⟨⟨_, server⟩, -, pair⟩ := map_eq_some_iff.mp nacked
    cases pair
    exact ⟨_, rfl, rfl⟩

theorem forwardFork_processes {fork} (passes : Passes crypto store server receiver ae sender fork)
    (forwards : forwardFork crypto receiver ae sender fork.serializedBlocks = some after) :
    Processes crypto store server receiver ae sender after := by
  simp only [forwardFork] at forwards
  split at forwards
  · cases forwards
    exact .dropped
  · cases forwards
    exact .dropped
  · next _ rest split =>
    obtain ⟨_, sent, buffered⟩ := bind_eq_some_iff.mp forwards
    cases rest with
    | nil =>
      cases buffered
      exact .whole passes split sent
    | cons second others =>
      rw [if_neg (List.cons_ne_nil _ _)] at buffered
      split at buffered
      · cases buffered
      · next empty =>
        cases buffered
        have empty : receiver.multipartBuffer = [] := by
          obtain ⟨_, _, _, rfl⟩ := forwardPart_spec sent
          simpa using empty
        exact .inParts passes split (List.cons_ne_nil _ _) sent empty

theorem processFork_processes
    (processed : processFork crypto store receiver server ae sender = some (after, answered)) :
    Processes crypto store server receiver ae sender after := by
  unfold processFork at processed
  split at processed
  · cases processed
    exact .ignored
  · next _ =>
    have nack {asked : LogServer} (nacked : sendNack crypto store receiver asked sender ae = some (after, answered)) :
        Processes crypto store server receiver ae sender after := by
      obtain ⟨nack, origin, rfl⟩ := sendNack_spec nacked
      exact .nacked (by omega) origin
    split at processed
    · cases processed
      exact .ignored
    · next fromLeader =>
      split at processed
      · cases processed
      · exact nack processed
      · next asked common =>
        split at processed
        · cases processed
          exact .ignored
        · next _ isFork =>
          split at processed
          · exact nack processed
          · next testView views =>
            split at processed
            · exact nack processed
            · next _ =>
              obtain ⟨_, forwards, pair⟩ := map_eq_some_iff.mp processed
              cases pair
              refine forwardFork_processes ⟨isFork, by omega, by omega, ?_, ⟨_, common⟩,
                ⟨testView, views, by omega⟩⟩ forwards
              intro sameConfig
              by_contra other
              exact fromLeader ⟨sameConfig, other⟩

/-!
## Commands
-/

def moveTo (receiver : ForkReceiver) (view configNum : Nat) : ForkReceiver :=
  let receiver : ForkReceiver :=
    if receiver.view ≠ view then { receiver with lastAeView := view, lastAeBlockHash := none } else receiver
  { receiver with view, configNum }

def unblock (receiver : ForkReceiver) : ForkReceiver :=
  { receiver with blockedOnMultipart := receiver.blockedOnMultipart && !receiver.multipartBuffer.isEmpty }

/-- A higher configuration releases the next part, unless it is the last one and
does not come from the leader. -/
inductive Updates (crypto : CryptoService) (receiver : ForkReceiver) (view configNum : Nat) :
    ForkReceiver → Prop where
  | moves : configNum ≤ receiver.configNum ∨ receiver.multipartBuffer = [] →
      Updates crypto receiver view configNum (receiver.moveTo view configNum).unblock
  | releases {part : List HalfSerializedBlock} {aeStats : AppendEntriesStats}
      {rest : List (List HalfSerializedBlock × AppendEntriesStats)} {forwarded : ForkReceiver} :
      receiver.configNum < configNum → receiver.multipartBuffer = (part, aeStats) :: rest →
      forwardPart crypto { receiver.moveTo view configNum with multipartBuffer := rest } part rest.length
        aeStats = some forwarded →
      Updates crypto receiver view configNum forwarded.unblock
  | discards {last : List HalfSerializedBlock × AppendEntriesStats} :
      receiver.configNum < configNum → receiver.multipartBuffer = [last] →
      Updates crypto receiver view configNum
        ({ receiver.moveTo view configNum with multipartBuffer := [] } : ForkReceiver).unblock

theorem multipartBuffer_moveTo (receiver : ForkReceiver) (view configNum : Nat) :
    (receiver.moveTo view configNum).multipartBuffer = receiver.multipartBuffer := by
  unfold moveTo
  split <;> rfl

variable {view configNum : Nat}

theorem handleUpdateView_updates (updated : handleUpdateView crypto receiver view configNum = some after) :
    Updates crypto receiver view configNum after := by
  obtain ⟨_, forwards, rfl⟩ := map_eq_some_iff.mp updated
  dsimp only at forwards
  split at forwards
  · next part aeStats rest higher moved =>
    have higher := of_decide_eq_true higher
    have buffered : receiver.multipartBuffer = (part, aeStats) :: rest :=
      (multipartBuffer_moveTo receiver view configNum).symm.trans moved
    split at forwards
    · exact .releases higher buffered forwards
    · next last =>
      cases forwards
      simp only [not_or, Decidable.not_not] at last
      cases last.1
      exact .discards higher buffered
  · next none =>
    cases forwards
    refine .moves ?_
    by_contra both
    simp only [not_or, Nat.not_le] at both
    obtain ⟨⟨part, aeStats⟩, rest, buffered⟩ := List.exists_cons_of_ne_nil both.2
    exact none part aeStats rest (decide_eq_true both.1)
      ((multipartBuffer_moveTo receiver view configNum).trans buffered)

/-!
## A follower
-/

def follower : CryptoService := tinyNode (Staging.threeNodes "node3").config

def entries (view : Nat) (viewIsStable : Bool) (blocks : List CachedBlock) : ProtoAppendEntries where
  fork := some { serializedBlocks := blocks.map (·.toHalfSerialized) }
  commitIndex := 0
  view
  viewIsStable
  configNum := 1
  isBackfillResponse := false

end PirateShip.ForkReceiver
