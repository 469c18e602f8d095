import PirateShip.ClientReply.Answers
import PirateShip.Lib.Run

/-! What becomes of the batches at the reply stage. Its maps follow two automata for
each batch, one for the receipts and one for the byzantine responses, and the
answers that were sent are those the first automaton calls for. -/

set_option autoImplicit false

namespace PirateShip.ClientReplyHandler

open List StepSystem

variable {handler after : ClientReplyHandler}

/-!
## What becomes of a batch
-/

def crashPolicy : Rendezvous.Policy HashType := ⟨fun hash => decide (hash = []), true⟩

def byzPolicy : Rendezvous.Policy HashType := ⟨fun hash => decide (hash = []), false⟩

def Signal.crashEvent :
    Signal → Option (Rendezvous.Event HashType (List MsgAckChanWithTag) (Nat × List ProtoTransactionResult))
  | .batch hash replyVec => some (.register hash replyVec)
  | .crashCommitAck hash n replyVec => some (.acknowledge hash (n, replyVec))
  | .byzCommitAck .. => none
  | .cancelAllRequests => some .cancel
  | .stopCancelling => some .resume

def Signal.byzEvent :
    Signal → Option (Rendezvous.Event HashType (List MsgAckChanWithTag) (Nat × List ProtoByzResponse))
  | .batch hash replyVec => some (.register hash replyVec)
  | .crashCommitAck .. => none
  | .byzCommitAck hash n replyVec => some (.acknowledge hash (n, replyVec))
  | .cancelAllRequests => some .cancel
  | .stopCancelling => some .resume

def crashFate (signals : List Signal) (hash : HashType) (replyVec : List MsgAckChanWithTag) :
    Rendezvous.Fate (Nat × List ProtoTransactionResult) :=
  Rendezvous.fate crashPolicy hash replyVec (signals.filterMap Signal.crashEvent)

def byzFate (signals : List Signal) (hash : HashType) (replyVec : List MsgAckChanWithTag) :
    Rendezvous.Fate (Nat × List ProtoByzResponse) :=
  Rendezvous.fate byzPolicy hash replyVec (signals.filterMap Signal.byzEvent)

def cancelling (signals : List Signal) : Bool := Rendezvous.cancelling (signals.filterMap Signal.crashEvent)

section Signals

variable {signals : List Signal} {hash : HashType} {replyVec : List MsgAckChanWithTag} {n : Nat}
  {results : List ProtoTransactionResult} {responses : List ProtoByzResponse}

theorem cancelling_byz (signals) :
    Rendezvous.cancelling (signals.filterMap Signal.byzEvent) = cancelling signals := by
  induction signals using List.reverseRecOn with
  | nil => rfl
  | append_singleton signals signal ih =>
    unfold cancelling at ih ⊢
    cases signal <;> simp [filterMap_cons, Signal.crashEvent, Signal.byzEvent, Rendezvous.Event.cancelling, ih]

@[simp]
theorem mem_crash_register : .register hash replyVec ∈ signals.filterMap Signal.crashEvent ↔
    .batch hash replyVec ∈ signals := by
  rw [mem_filterMap]
  constructor
  · rintro ⟨signal, member, _⟩
    cases signal <;> simp_all [Signal.crashEvent]
  · exact fun member => ⟨_, member, rfl⟩

@[simp]
theorem mem_byz_register : .register hash replyVec ∈ signals.filterMap Signal.byzEvent ↔
    .batch hash replyVec ∈ signals := by
  rw [mem_filterMap]
  constructor
  · rintro ⟨signal, member, _⟩
    cases signal <;> simp_all [Signal.byzEvent]
  · exact fun member => ⟨_, member, rfl⟩

@[simp]
theorem mem_crash_acknowledge : .acknowledge hash (n, results) ∈ signals.filterMap Signal.crashEvent ↔
    .crashCommitAck hash n results ∈ signals := by
  rw [mem_filterMap]
  constructor
  · rintro ⟨signal, member, _⟩
    cases signal <;> simp_all [Signal.crashEvent]
  · exact fun member => ⟨_, member, rfl⟩

@[simp]
theorem mem_byz_acknowledge : .acknowledge hash (n, responses) ∈ signals.filterMap Signal.byzEvent ↔
    .byzCommitAck hash n responses ∈ signals := by
  rw [mem_filterMap]
  constructor
  · rintro ⟨signal, member, _⟩
    cases signal <;> simp_all [Signal.byzEvent]
  · exact fun member => ⟨_, member, rfl⟩

theorem crashFate_concat (signal) : crashFate (signals ++ [signal]) hash replyVec =
    (signal.crashEvent.map fun event => event.move crashPolicy hash replyVec (cancelling signals)
      (crashFate signals hash replyVec)).getD (crashFate signals hash replyVec) := by
  unfold crashFate cancelling
  cases moves : signal.crashEvent <;> simp [moves]

end Signals

/-- Two registrations: a block hash is registered once, and each request has a
channel of its own. -/
def Signal.Apart : Signal → Signal → Prop
  | .batch hash replyVec, .batch hash' replyVec' =>
    (hash = hash' → hash = []) ∧ ∀ ack ∈ replyVec, ∀ other ∈ replyVec', ack.chan ≠ other.chan
  | _, _ => True

instance : Std.Symm Signal.Apart where
  symm left right apart := by
    cases left <;> cases right <;> try trivial
    exact ⟨fun same => same.trans (apart.1 same.symm), fun ack member other member' =>
      (apart.2 other member' ack member).symm⟩

/-- Inputs as the other stages send them: an acknowledgement that is repeated says
the same again, and has one result for each request of its batch. -/
structure Coherent (signals : List Signal) : Prop where
  apart : signals.Pairwise Signal.Apart
  channels : ∀ hash replyVec, .batch hash replyVec ∈ signals → (replyVec.map (·.chan)).Nodup
  crash_same : ∀ hash n results n' results', .crashCommitAck hash n results ∈ signals →
    .crashCommitAck hash n' results' ∈ signals → (n, results) = (n', results')
  byz_same : ∀ hash n responses n' responses', .byzCommitAck hash n responses ∈ signals →
    .byzCommitAck hash n' responses' ∈ signals → (n, responses) = (n', responses')
  crash_fits : ∀ hash replyVec n results, hash ≠ [] → .batch hash replyVec ∈ signals →
    .crashCommitAck hash n results ∈ signals → replyVec.length = results.length
  byz_fits : ∀ hash replyVec n responses, hash ≠ [] → .batch hash replyVec ∈ signals →
    .byzCommitAck hash n responses ∈ signals → replyVec.length = responses.length

namespace Coherent

variable {signals : List Signal} {hash hash' : HashType} {replyVec replyVec' : List MsgAckChanWithTag}
  {signal : Signal}

theorem init (coherent : Coherent (signals ++ [signal])) : Coherent signals where
  apart := (pairwise_append.mp coherent.apart).1
  channels hash replyVec member := coherent.channels hash replyVec (mem_append_left _ member)
  crash_same hash n results n' results' first second :=
    coherent.crash_same hash n results n' results' (mem_append_left _ first) (mem_append_left _ second)
  byz_same hash n results n' results' first second :=
    coherent.byz_same hash n results n' results' (mem_append_left _ first) (mem_append_left _ second)
  crash_fits hash replyVec n results nonempty first second :=
    coherent.crash_fits hash replyVec n results nonempty (mem_append_left _ first) (mem_append_left _ second)
  byz_fits hash replyVec n results nonempty first second :=
    coherent.byz_fits hash replyVec n results nonempty (mem_append_left _ first) (mem_append_left _ second)

theorem apart_of_ne (coherent : Coherent signals) (first : .batch hash replyVec ∈ signals)
    (second : .batch hash' replyVec' ∈ signals) (different : ¬ (hash = hash' ∧ replyVec = replyVec')) :
    (hash = hash' → hash = []) ∧ ∀ ack ∈ replyVec, ∀ other ∈ replyVec', ack.chan ≠ other.chan := by
  exact coherent.apart.forall first second fun same => different (Signal.batch.inj same)

theorem replyVec_unique (coherent : Coherent signals) (nonempty : hash ≠ []) (first : .batch hash replyVec ∈ signals)
    (second : .batch hash replyVec' ∈ signals) : replyVec = replyVec' := by
  by_contra different
  exact nonempty ((coherent.apart_of_ne first second fun same => different same.2).1 rfl)

theorem batch_unique (coherent : Coherent signals) (first : .batch hash replyVec ∈ signals)
    (second : .batch hash' replyVec' ∈ signals) {ack other} (member : ack ∈ replyVec)
    (member' : other ∈ replyVec') (same : ack.chan = other.chan) : hash = hash' ∧ replyVec = replyVec' := by
  by_contra different
  exact (coherent.apart_of_ne first second different).2 ack member other member' same

variable (coherent : Coherent (signals ++ [.batch hash replyVec]))
include coherent

theorem fresh {ack} (registered : .batch hash' replyVec' ∈ signals) (member : ack ∈ replyVec) :
    ∀ other ∈ replyVec', other.chan ≠ ack.chan := by
  have apart : Signal.Apart (.batch hash' replyVec') (.batch hash replyVec) :=
    (pairwise_append.mp coherent.apart).2.2 _ registered _ mem_cons_self
  exact fun other member' => apart.2 other member' ack member

theorem fresh_hash (nonempty : hash ≠ []) : .batch hash replyVec' ∉ signals := by
  intro registered
  have apart : Signal.Apart (.batch hash replyVec') (.batch hash replyVec) :=
    (pairwise_append.mp coherent.apart).2.2 _ registered _ mem_cons_self
  exact nonempty (apart.1 rfl)

end Coherent

/-!
## The answers on a channel
-/

section Picked

variable {answers more : List (MsgAckChanWithTag × ProtoClientReply)} {ack : MsgAckChanWithTag}
  {reply : ProtoClientReply} {replyVec : List MsgAckChanWithTag} {hash : HashType} {n k chan : Nat}
  {results : List ProtoTransactionResult}

theorem picked_append : picked (answers ++ more) chan = picked answers chan ++ picked more chan := by
  simp [picked]

theorem picked_eq_nil (others : ∀ entry ∈ answers, entry.1.chan ≠ chan) : picked answers chan = [] := by
  simpa [picked] using fun ack reply member => others (ack, reply) member

theorem picked_eq_singleton (distinct : (answers.map fun entry => entry.1.chan).Nodup)
    (member : (ack, reply) ∈ answers) : picked answers ack.chan = [reply] := by
  induction answers with
  | nil => cases member
  | cons entry answers ih =>
    obtain ⟨other, distinct⟩ := nodup_cons.mp distinct
    rw [← singleton_append, picked_append]
    cases mem_cons.mp member with
    | inl same =>
      have rest : picked answers ack.chan = [] := by
        refine picked_eq_nil fun entry' member' equal => other ?_
        rw [← same]
        exact mem_map.mpr ⟨entry', member', equal⟩
      rw [rest, ← same]
      simp [picked]
    | inr member =>
      have first : picked [entry] ack.chan = [] := by
        refine picked_eq_nil fun entry' member' equal => other ?_
        rw [mem_singleton.mp member'] at equal
        exact mem_map.mpr ⟨(ack, reply), member, equal.symm⟩
      rw [first, ih distinct member, nil_append]

theorem receipts_channels (fits : replyVec.length = results.length) :
    (receipts hash n replyVec results).map (fun entry => entry.1.chan) = replyVec.map (·.chan) := by
  have requests : ((replyVec.zip results).zipIdx.map fun entry => entry.1.1) = replyVec := by
    have := congrArg (List.map Prod.fst) (zipIdx_map_fst 0 (replyVec.zip results))
    rw [map_fst_zip (Nat.le_of_eq fits), map_map] at this
    exact this
  rw [receipts, map_map]
  conv_rhs => rw [← requests, map_map]
  rfl

theorem mem_of_mem_receipts {entry} (member : entry ∈ receipts hash n replyVec results) : entry.1 ∈ replyVec := by
  obtain ⟨_, listed, rfl⟩ := mem_map.mp member
  exact (of_mem_zip (fst_mem_of_mem_zipIdx listed)).1

theorem picked_receipts (distinct : (replyVec.map (·.chan)).Nodup) (fits : replyVec.length = results.length)
    (request : replyVec[k]? = some ack) :
    picked (receipts hash n replyVec results) ack.chan =
      results[k]?.toList.map fun result => receiptOf hash n k ack result := by
  have inside : k < results.length := fits ▸ (List.getElem?_eq_some_iff.mp request).1
  have result := getElem?_eq_getElem inside
  have member : (ack, receiptOf hash n k ack results[k]) ∈ receipts hash n replyVec results := by
    refine mem_map.mpr ⟨((ack, results[k]), k), ?_, rfl⟩
    rw [mk_mem_zipIdx_iff_getElem?]
    exact getElem?_zip_eq_some.mpr ⟨request, result⟩
  rw [picked_eq_singleton (receipts_channels fits ▸ distinct) member, result]
  rfl

theorem picked_tryAgain (distinct : (replyVec.map (·.chan)).Nodup) (member : ack ∈ replyVec) :
    picked (replyVec.map fun ack => (ack, getTryAgainMessage ack.clientTag)) ack.chan =
      [getTryAgainMessage ack.clientTag] := by
  refine picked_eq_singleton ?_ (mem_map_of_mem member)
  rwa [map_map]

end Picked

/-!
## The stage follows the fates
-/

def expectedAnswers (hash : HashType) (k : Nat) (ack : MsgAckChanWithTag) :
    Rendezvous.Fate (Nat × List ProtoTransactionResult) → List ProtoClientReply
  | .expected _ | .waiting => []
  | .dropped => [getTryAgainMessage ack.clientTag]
  | .joined (n, results) => results[k]?.toList.map fun result => receiptOf hash n k ack result

abbrev Settled := HashType × List MsgAckChanWithTag × Nat × List ProtoByzResponse

def Settled.responses (sender : SenderType) (settled : Settled) : List ProtoByzResponse :=
  responsesFor sender (byzSenders settled.2.1) settled.2.2.2

structure Tracks (signals : List Signal) (handler : ClientReplyHandler) (settled : List Settled) : Prop where
  mustCancel : handler.mustCancel = cancelling signals
  noProbes : handler.probeBuffer = ∅
  crash : Rendezvous.Follows crashPolicy id (signals.filterMap Signal.crashEvent) handler.crashMaps
  byz : Rendezvous.Follows byzPolicy byzSenders (signals.filterMap Signal.byzEvent) handler.byzMaps
  answered : ∀ hash replyVec k ack, .batch hash replyVec ∈ signals → replyVec[k]? = some ack →
    handler.answersTo ack.chan = expectedAnswers hash k ack (crashFate signals hash replyVec)
  owned : ∀ entry ∈ handler.answers, ∃ hash replyVec, .batch hash replyVec ∈ signals ∧ entry.1 ∈ replyVec
  ledger : Rendezvous.Ledger byzPolicy (signals.filterMap Signal.byzEvent) settled
  byzFor : ∀ sender, handler.byzFor sender = settled.flatMap (Settled.responses sender)

theorem tracks_new : Tracks [] {} [] where
  mustCancel := rfl
  noProbes := rfl
  crash := Rendezvous.follows_empty
  byz := Rendezvous.follows_empty
  answered _ _ _ _ registered := absurd registered not_mem_nil
  owned _ member := absurd member not_mem_nil
  ledger := Rendezvous.ledger_empty
  byzFor _ := rfl

section Steps

variable {signals : List Signal} {settled : List Settled} {hash : HashType} {replyVec : List MsgAckChanWithTag}
  {n : Nat} {results : List ProtoTransactionResult} {responses : List ProtoByzResponse}

theorem cancelling_batch : cancelling (signals ++ [.batch hash replyVec]) = cancelling signals := by
  simp [cancelling, Signal.crashEvent, Rendezvous.Event.cancelling]

theorem crashFate_register : crashFate (signals ++ [.batch hash replyVec]) hash replyVec =
    (crashFate signals hash replyVec).register (decide (hash = []) || cancelling signals) := by
  simp [crashFate_concat, Signal.crashEvent, Rendezvous.Event.move, crashPolicy]

theorem crashFate_register_other {hash' replyVec'} (other : ¬ (hash' = hash ∧ replyVec' = replyVec)) :
    crashFate (signals ++ [.batch hash replyVec]) hash' replyVec' = crashFate signals hash' replyVec' := by
  have other : ¬ (hash = hash' ∧ replyVec = replyVec') := fun both => other ⟨both.1.symm, both.2.symm⟩
  simp [crashFate_concat, Signal.crashEvent, Rendezvous.Event.move, other]

variable (tracks : Tracks signals handler settled)
include tracks

theorem Tracks.unanswered (coherent : Coherent (signals ++ [.batch hash replyVec])) {ack} (member : ack ∈ replyVec) :
    handler.answersTo ack.chan = [] := by
  refine picked_eq_nil fun entry listed => ?_
  obtain ⟨_, _, registered, owner⟩ := tracks.owned entry listed
  exact coherent.fresh registered member entry.1 owner

theorem Tracks.answered_batch (coherent : Coherent (signals ++ [.batch hash replyVec])) {more}
    (answers : after.answers = handler.answers ++ more) (owners : ∀ entry ∈ more, entry.1 ∈ replyVec)
    (mine : ∀ k ack, replyVec[k]? = some ack → picked more ack.chan =
      expectedAnswers hash k ack
        ((crashFate signals hash replyVec).register (decide (hash = []) || cancelling signals)))
    {hash' replyVec' k ack} (registered : .batch hash' replyVec' ∈ signals ++ [.batch hash replyVec])
    (request : replyVec'[k]? = some ack) :
    after.answersTo ack.chan =
      expectedAnswers hash' k ack (crashFate (signals ++ [.batch hash replyVec]) hash' replyVec') := by
  have member : ack ∈ replyVec' := mem_of_getElem? request
  rw [answersTo, answers, picked_append]
  cases mem_append.mp registered with
  | inl earlier =>
    have others : ∀ entry ∈ more, entry.1.chan ≠ ack.chan := fun entry listed =>
      (coherent.fresh earlier (owners entry listed) ack member).symm
    have different : ¬ (hash' = hash ∧ replyVec' = replyVec) := by
      rintro ⟨rfl, rfl⟩
      exact coherent.fresh earlier member ack member rfl
    rw [picked_eq_nil others, append_nil, crashFate_register_other different]
    exact tracks.answered hash' replyVec' k ack earlier request
  | inr now =>
    obtain ⟨rfl, rfl⟩ := Signal.batch.inj (mem_singleton.mp now)
    rw [crashFate_register, mine k ack request]
    exact congrArg (· ++ _) (tracks.unanswered coherent member)

theorem Tracks.owned_batch {more} (answers : after.answers = handler.answers ++ more)
    (owners : ∀ entry ∈ more, entry.1 ∈ replyVec) :
    ∀ entry ∈ after.answers, ∃ hash' replyVec', .batch hash' replyVec' ∈ signals ++ [.batch hash replyVec] ∧
      entry.1 ∈ replyVec' := by
  intro entry listed
  rw [answers] at listed
  cases mem_append.mp listed with
  | inl earlier =>
    obtain ⟨hash', replyVec', registered, owner⟩ := tracks.owned entry earlier
    exact ⟨hash', replyVec', mem_append_left _ registered, owner⟩
  | inr now => exact ⟨hash, replyVec, by simp, owners entry now⟩

theorem Tracks.batch (coherent : Coherent (signals ++ [.batch hash replyVec])) (nonempty : hash ≠ [])
    (listening : cancelling signals = false) :
    ∃ after settled, handler.handleBatch hash replyVec = some after ∧
      Tracks (signals ++ [.batch hash replyVec]) after settled := by
  have fresh : ∀ other, .register hash other ∉ signals.filterMap Signal.crashEvent := fun other registered =>
    coherent.fresh_hash nonempty (mem_crash_register.mp registered)
  have byz_fresh : ∀ other, .register hash other ∉ signals.filterMap Signal.byzEvent := fun other registered =>
    coherent.fresh_hash nonempty (mem_byz_register.mp registered)
  have accepted : crashPolicy.refused hash = false := decide_eq_false nonempty
  have byz_accepted : byzPolicy.refused hash = false := decide_eq_false nonempty
  obtain ⟨expected, _, early⟩ := tracks.crash.expected accepted fresh replyVec
  obtain ⟨_, _, byz_early⟩ := tracks.byz.expected byz_accepted byz_fresh replyVec
  have fits : ∀ ack, handler.crashCommitReplyBuf.lookup hash = some ack → replyVec.length = ack.2.length :=
    fun ack found => coherent.crash_fits hash replyVec ack.1 ack.2 nonempty (by simp)
      (mem_append_left _ (mem_crash_acknowledge.mp (early ack found)))
  have byz_fits : ∀ ack, handler.byzCommitReplyBuf.lookup hash = some ack → replyVec.length = ack.2.length :=
    fun ack found => coherent.byz_fits hash replyVec ack.1 ack.2 nonempty (by simp)
      (mem_append_left _ (mem_byz_acknowledge.mp (byz_early ack found)))
  obtain ⟨after, handled, takes⟩ := handleBatch_spec nonempty (tracks.mustCancel.trans listening) tracks.noProbes
    fits byz_fits
  have owners : ∀ entry ∈ handler.earlyReceipts hash replyVec, entry.1 ∈ replyVec := by
    intro entry listed
    unfold earlyReceipts at listed
    split at listed
    · cases listed
    · exact mem_of_mem_receipts listed
  refine ⟨after, settled ++ ((handler.byzCommitReplyBuf.lookup hash).map fun ack => (hash, replyVec, ack)).toList,
    handled, ?_⟩
  constructor
  case mustCancel => rw [takes.mustCancel, tracks.mustCancel, cancelling_batch]
  case noProbes => exact takes.probeBuffer.trans tracks.noProbes
  case crash =>
    rw [takes.crashMaps, filterMap_append]
    exact tracks.crash.register ⟨accepted, listening⟩ fresh
  case byz =>
    rw [takes.byzMaps, filterMap_append]
    exact tracks.byz.register ⟨byz_accepted, (cancelling_byz signals).trans listening⟩ byz_fresh
  case answered =>
    intro hash' replyVec' k ack registered request
    refine tracks.answered_batch coherent takes.answers owners ?_ registered request
    intro k ack request
    have state : crashFate signals hash replyVec = .expected (handler.crashCommitReplyBuf.lookup hash) := expected
    have kept : (decide (hash = []) || cancelling signals) = false := by simp [nonempty, listening]
    rw [state, kept, earlyReceipts]
    cases found : handler.crashCommitReplyBuf.lookup hash with
    | none => rfl
    | some early =>
      obtain ⟨n, _⟩ := early
      exact picked_receipts (coherent.channels hash replyVec (by simp)) (fits _ found) request
  case owned => exact tracks.owned_batch takes.answers owners
  case ledger =>
    rw [filterMap_append]
    exact tracks.ledger.register tracks.byz ⟨byz_accepted, (cancelling_byz signals).trans listening⟩ byz_fresh
  case byzFor =>
    intro sender
    rw [takes.byzFor, tracks.byzFor, flatMap_append, earlyResponses]
    cases handler.byzCommitReplyBuf.lookup hash with
    | none => rfl
    | some early => simp [Settled.responses]

theorem Tracks.turnAway
    (coherent : Coherent (signals ++ [.batch hash replyVec])) (refused : hash = [] ∨ cancelling signals = true) :
    Tracks (signals ++ [.batch hash replyVec]) (handler.tryAgain replyVec) settled := by
  have answers := answers_tryAgain handler replyVec
  have owners : ∀ entry ∈ replyVec.map fun ack => (ack, getTryAgainMessage ack.clientTag), entry.1 ∈ replyVec := by
    intro entry listed
    obtain ⟨ack, member, rfl⟩ := mem_map.mp listed
    exact member
  have turned : (decide (hash = []) || cancelling signals) = true := by simpa using refused
  have byz_turned : (byzPolicy.refused hash || Rendezvous.cancelling (signals.filterMap Signal.byzEvent)) = true := by
    rw [cancelling_byz]
    exact turned
  constructor
  case mustCancel => rw [cancelling_batch, ← tracks.mustCancel, tryAgain]
  case noProbes => exact tracks.noProbes
  case crash =>
    rw [filterMap_append]
    exact tracks.crash.refuse turned fun accepted _ registered =>
      coherent.fresh_hash (of_decide_eq_false accepted) (mem_crash_register.mp registered)
  case byz =>
    rw [filterMap_append]
    exact tracks.byz.refuse byz_turned fun accepted _ registered =>
      coherent.fresh_hash (of_decide_eq_false accepted) (mem_byz_register.mp registered)
  case answered =>
    intro hash' replyVec' k ack registered request
    refine tracks.answered_batch coherent answers owners ?_ registered request
    intro k ack request
    have member : ack ∈ replyVec := mem_of_getElem? request
    -- Its requests have channels of their own, so the batch was not registered before.
    have fresh : .register hash replyVec ∉ signals.filterMap Signal.crashEvent := fun registered =>
      coherent.fresh (mem_crash_register.mp registered) member ack member rfl
    obtain ⟨_, expected, _⟩ := Rendezvous.fate_of_fresh crashPolicy fresh
    rw [turned, crashFate, expected, picked_tryAgain (coherent.channels hash replyVec (by simp)) member]
    rfl
  case owned => exact tracks.owned_batch answers owners
  case ledger =>
    rw [filterMap_append]
    exact tracks.ledger.refuse byz_turned
  case byzFor =>
    intro sender
    rw [byzFor_tryAgain, tracks.byzFor]

theorem Tracks.owned_more {signal more} (answers : after.answers = handler.answers ++ more)
    (owners : ∀ entry ∈ more, ∃ hash replyVec, .batch hash replyVec ∈ signals ∧ entry.1 ∈ replyVec) :
    ∀ entry ∈ after.answers, ∃ hash replyVec, .batch hash replyVec ∈ signals ++ [signal] ∧ entry.1 ∈ replyVec := by
  intro entry listed
  rw [answers] at listed
  obtain ⟨hash, replyVec, registered, owner⟩ := (mem_append.mp listed).elim (tracks.owned entry) (owners entry)
  exact ⟨hash, replyVec, mem_append_left _ registered, owner⟩

theorem Tracks.waiting (coherent : Coherent signals) (found : handler.replyMap.lookup hash = some replyVec) :
    hash ≠ [] ∧ .batch hash replyVec ∈ signals ∧ crashFate signals hash replyVec = .waiting := by
  obtain ⟨accepted, _, registered, rfl⟩ := tracks.crash.waiting hash replyVec found
  have nonempty : hash ≠ [] := of_decide_eq_false accepted
  have registered := mem_crash_register.mp registered
  exact ⟨nonempty, registered, tracks.crash.fate_waiting (fun other member =>
    coherent.replyVec_unique nonempty (mem_crash_register.mp member) registered) found⟩

omit tracks

theorem mem_values_flatten {ack} : ack ∈ handler.replyMap.values.flatten ↔
    ∃ hash replyVec, handler.replyMap.lookup hash = some replyVec ∧ ack ∈ replyVec := by
  simp only [AList.values, mem_flatten, mem_map, Sigma.exists]
  constructor
  · rintro ⟨replyVec, ⟨hash, found, listed, rfl⟩, member⟩
    exact ⟨hash, found, (mem_dlookup_iff handler.replyMap.nodupKeys).mpr listed, member⟩
  · rintro ⟨hash, replyVec, found, member⟩
    exact ⟨replyVec, ⟨hash, replyVec, (mem_dlookup_iff handler.replyMap.nodupKeys).mp found, rfl⟩, member⟩

include tracks

theorem Tracks.waiting_channels (coherent : Coherent signals) :
    (handler.replyMap.values.flatten.map (·.chan)).Nodup := by
  have registered : ∀ entry ∈ handler.replyMap.entries, .batch entry.1 entry.2 ∈ signals := fun entry listed =>
    (tracks.waiting coherent ((mem_dlookup_iff handler.replyMap.nodupKeys).mpr listed)).2.1
  have flat : handler.replyMap.values.flatten.map (·.chan) =
      handler.replyMap.entries.flatMap fun entry => entry.2.map (·.chan) := by
    simp only [AList.values, map_flatten, map_map]
    rfl
  rw [flat, nodup_flatMap]
  refine ⟨fun entry listed => coherent.channels entry.1 entry.2 (registered entry listed), ?_⟩
  have keys : handler.replyMap.entries.Pairwise fun entry other => entry.1 ≠ other.1 :=
    pairwise_map.mp handler.replyMap.nodupKeys
  refine keys.imp_of_mem fun {entry other} listed listed' different => ?_
  intro chan member member'
  obtain ⟨_, inside, rfl⟩ := mem_map.mp member
  obtain ⟨_, inside', same⟩ := mem_map.mp member'
  exact different (coherent.batch_unique (registered entry listed) (registered other listed') inside inside'
    same.symm).1

theorem Tracks.lookup_waiting (coherent : Coherent signals)
    (registered : .batch hash replyVec ∈ signals) (waits : crashFate signals hash replyVec = .waiting) :
    handler.replyMap.lookup hash = some replyVec :=
  tracks.crash.lookup_waiting (fun accepted _ member =>
    coherent.replyVec_unique (of_decide_eq_false accepted) (mem_crash_register.mp member) registered) waits

omit tracks

theorem expectedAnswers_acknowledge {fate k ack} (settled : fate ≠ .waiting)
    (results : Nat × List ProtoTransactionResult) :
    expectedAnswers hash k ack (fate.acknowledge results) = expectedAnswers hash k ack fate := by
  cases fate with
  | waiting => exact absurd rfl settled
  | expected _ | dropped | joined _ => rfl

theorem crashFate_acknowledge {hash'} : crashFate (signals ++ [.crashCommitAck hash n results]) hash' replyVec =
      if hash = hash' then (crashFate signals hash' replyVec).acknowledge (n, results)
      else crashFate signals hash' replyVec := by
  simp [crashFate_concat, Signal.crashEvent, Rendezvous.Event.move]

include tracks

theorem Tracks.answered_crashCommitAck (coherent : Coherent (signals ++ [.crashCommitAck hash n results]))
    (answers : after.answers = handler.answers ++ handler.lateReceipts hash n results) {hash' replyVec' k ack}
    (registered : .batch hash' replyVec' ∈ signals) (request : replyVec'[k]? = some ack) :
    after.answersTo ack.chan =
      expectedAnswers hash' k ack (crashFate (signals ++ [.crashCommitAck hash n results]) hash' replyVec') := by
  have before := tracks.answered hash' replyVec' k ack registered request
  rw [answersTo] at before
  rw [answersTo, answers, picked_append, before, crashFate_acknowledge, lateReceipts]
  cases found : handler.replyMap.lookup hash with
  | none =>
    by_cases same : hash = hash'
    · subst same
      have settled : crashFate signals hash replyVec' ≠ .waiting := by
        intro waits
        cases found.symm.trans (tracks.lookup_waiting coherent.init registered waits)
      rw [if_pos rfl, expectedAnswers_acknowledge settled]
      exact append_nil _
    · rw [if_neg same]
      exact append_nil _
  | some replyVec =>
    obtain ⟨nonempty, present, waits⟩ := tracks.waiting coherent.init found
    by_cases same : hash = hash'
    · subst same
      obtain rfl := coherent.init.replyVec_unique nonempty registered present
      rw [if_pos rfl, waits]
      exact picked_receipts (coherent.init.channels hash replyVec' present)
        (coherent.crash_fits hash replyVec' n results nonempty (mem_append_left _ present) (by simp)) request
    · have others : ∀ entry ∈ receipts hash n replyVec results, entry.1.chan ≠ ack.chan := fun entry listed shared =>
        same (coherent.init.batch_unique present registered (mem_of_mem_receipts listed)
          (mem_of_getElem? request) shared).1
      rw [if_neg same, picked_eq_nil others, append_nil]

theorem Tracks.crashCommitAck (coherent : Coherent (signals ++ [.crashCommitAck hash n results])) :
    ∃ after, handler.crashCommitAck hash n results = some after ∧
      Tracks (signals ++ [.crashCommitAck hash n results]) after settled := by
  have fits : ∀ replyVec, handler.replyMap.lookup hash = some replyVec → replyVec.length = results.length := by
    intro replyVec found
    obtain ⟨nonempty, present, _⟩ := tracks.waiting coherent.init found
    exact coherent.crash_fits hash replyVec n results nonempty (mem_append_left _ present) (by simp)
  obtain ⟨after, handled, takes⟩ := crashCommitAck_spec fits
  refine ⟨after, handled, ?_⟩
  constructor
  case mustCancel =>
    rw [takes.mustCancel, tracks.mustCancel]
    simp [cancelling, Signal.crashEvent, Rendezvous.Event.cancelling]
  case noProbes => exact takes.probeBuffer.trans tracks.noProbes
  case crash =>
    rw [takes.crashMaps, filterMap_append]
    exact tracks.crash.acknowledge
  case byz =>
    rw [takes.byzMaps]
    simpa [Signal.byzEvent, filterMap_cons] using tracks.byz
  case answered =>
    intro hash' replyVec' k ack registered request
    exact tracks.answered_crashCommitAck coherent takes.answers (by simpa using registered) request
  case owned =>
    refine tracks.owned_more takes.answers fun entry listed => ?_
    rw [lateReceipts] at listed
    cases found : handler.replyMap.lookup hash with
    | none =>
      rw [found] at listed
      cases listed
    | some replyVec =>
      rw [found] at listed
      exact ⟨hash, replyVec, (tracks.waiting coherent.init found).2.1, mem_of_mem_receipts listed⟩
  case ledger =>
    simpa [Signal.byzEvent, filterMap_cons] using tracks.ledger
  case byzFor =>
    intro sender
    rw [takes.byzFor, tracks.byzFor, append_nil]

theorem Tracks.byzCommitAck (coherent : Coherent (signals ++ [.byzCommitAck hash n responses])) :
    ∃ after settled, handler.byzCommitAck hash n responses = some after ∧
      Tracks (signals ++ [.byzCommitAck hash n responses]) after settled := by
  have waiting : ∀ senders, handler.byzReplyMap.lookup hash = some senders → hash ≠ [] ∧
      ∃ replyVec, .batch hash replyVec ∈ signals ∧ senders = byzSenders replyVec := by
    intro senders found
    obtain ⟨accepted, replyVec, registered, is⟩ := tracks.byz.waiting hash senders found
    exact ⟨of_decide_eq_false accepted, replyVec, mem_byz_register.mp registered, is⟩
  have fits : ∀ senders, handler.byzReplyMap.lookup hash = some senders → senders.length = responses.length := by
    intro senders found
    obtain ⟨nonempty, replyVec, present, rfl⟩ := waiting senders found
    rw [byzSenders, length_map]
    exact coherent.byz_fits hash replyVec n responses nonempty (mem_append_left _ present) (by simp)
  obtain ⟨after, handled, takes⟩ := byzCommitAck_spec tracks.noProbes fits
  obtain ⟨settled', ledger, more⟩ : ∃ settled',
      Rendezvous.Ledger byzPolicy (signals.filterMap Signal.byzEvent ++ [.acknowledge hash (n, responses)]) settled' ∧
      ∀ sender, settled'.flatMap (Settled.responses sender) = settled.flatMap (Settled.responses sender) ++
        handler.lateResponses hash responses sender := by
    unfold lateResponses
    cases found : handler.byzReplyMap.lookup hash with
    | none =>
      refine ⟨settled, ?_, fun sender => (append_nil _).symm⟩
      refine tracks.ledger.acknowledge_early tracks.byz (fun accepted replyVec other first second => ?_) found
      exact coherent.init.replyVec_unique (of_decide_eq_false accepted) (mem_byz_register.mp second)
        (mem_byz_register.mp first)
    | some senders =>
      obtain ⟨nonempty, replyVec, present, rfl⟩ := waiting senders found
      refine ⟨settled ++ [(hash, replyVec, n, responses)], ?_, fun sender => ?_⟩
      · exact tracks.ledger.acknowledge tracks.byz (fun other registered =>
          coherent.init.replyVec_unique nonempty (mem_byz_register.mp registered) present) found
      · simp [Settled.responses]
  refine ⟨after, settled', handled, ?_⟩
  constructor
  case mustCancel =>
    rw [takes.mustCancel, tracks.mustCancel]
    simp [cancelling, Signal.crashEvent, filterMap_cons]
  case noProbes => exact takes.probeBuffer.trans tracks.noProbes
  case crash =>
    rw [takes.crashMaps]
    simpa [Signal.crashEvent, filterMap_cons] using tracks.crash
  case byz =>
    rw [takes.byzMaps, filterMap_append]
    exact tracks.byz.acknowledge
  case answered =>
    intro hash' replyVec' k ack registered request
    have before := tracks.answered hash' replyVec' k ack (by simpa using registered) request
    rw [answersTo] at before
    rw [answersTo, takes.answers, append_nil, before]
    simp [crashFate_concat, Signal.crashEvent]
  case owned => exact tracks.owned_more takes.answers (forall_mem_nil _)
  case ledger =>
    rw [filterMap_append]
    exact ledger
  case byzFor =>
    intro sender
    rw [takes.byzFor, tracks.byzFor, more]

omit tracks

theorem crashFate_cancel :
    crashFate (signals ++ [.cancelAllRequests]) hash replyVec = (crashFate signals hash replyVec).drop := by
  simp [crashFate_concat, Signal.crashEvent, Rendezvous.Event.move, crashPolicy]

include tracks

theorem Tracks.cancelAllRequests (coherent : Coherent (signals ++ [.cancelAllRequests])) :
    Tracks (signals ++ [.cancelAllRequests]) handler.cancelAllRequests settled := by
  have answers : handler.cancelAllRequests.answers = handler.answers ++
      handler.replyMap.values.flatten.map fun ack => (ack, getTryAgainMessage ack.clientTag) :=
    answers_tryAgain handler handler.replyMap.values.flatten
  constructor
  case mustCancel =>
    simp [ClientReplyHandler.cancelAllRequests, cancelling, Signal.crashEvent, Rendezvous.Event.cancelling]
  case noProbes => exact tracks.noProbes
  case crash =>
    rw [filterMap_append]
    exact tracks.crash.drop rfl
  case byz =>
    rw [filterMap_append]
    exact tracks.byz.keep rfl
  case answered =>
    intro hash replyVec k ack registered request
    have registered : .batch hash replyVec ∈ signals := by simpa using registered
    have member : ack ∈ replyVec := mem_of_getElem? request
    have before := tracks.answered hash replyVec k ack registered request
    rw [answersTo] at before
    rw [answersTo, answers, picked_append, before, crashFate_cancel]
    by_cases waits : crashFate signals hash replyVec = .waiting
    · have open_ : ack ∈ handler.replyMap.values.flatten :=
        mem_values_flatten.mpr ⟨hash, replyVec, tracks.lookup_waiting coherent.init registered waits, member⟩
      rw [waits, picked_tryAgain (tracks.waiting_channels coherent.init) open_]
      rfl
    · have others : ∀ entry ∈ handler.replyMap.values.flatten.map fun ack =>
          (ack, getTryAgainMessage ack.clientTag), entry.1.chan ≠ ack.chan := by
        intro entry listed shared
        obtain ⟨_, open_, rfl⟩ := mem_map.mp listed
        obtain ⟨_, _, found, inside⟩ := mem_values_flatten.mp open_
        obtain ⟨_, present, waits'⟩ := tracks.waiting coherent.init found
        obtain ⟨rfl, rfl⟩ := coherent.init.batch_unique present registered inside member shared
        exact waits waits'
      rw [picked_eq_nil others, append_nil]
      cases reached : crashFate signals hash replyVec with
      | waiting => exact absurd reached waits
      | expected _ | dropped | joined _ => rfl
  case owned =>
    refine tracks.owned_more answers fun entry listed => ?_
    obtain ⟨ack, open_, rfl⟩ := mem_map.mp listed
    obtain ⟨hash, replyVec, found, inside⟩ := mem_values_flatten.mp open_
    exact ⟨hash, replyVec, (tracks.waiting coherent.init found).2.1, inside⟩
  case ledger =>
    rw [filterMap_append]
    exact tracks.ledger.cancel
  case byzFor =>
    intro sender
    exact (byzFor_tryAgain handler handler.replyMap.values.flatten sender).trans (tracks.byzFor sender)

theorem Tracks.stopCancelling : Tracks (signals ++ [.stopCancelling]) handler.stopCancelling settled := by
  constructor
  case mustCancel =>
    simp [ClientReplyHandler.stopCancelling, cancelling, Signal.crashEvent, Rendezvous.Event.cancelling]
  case noProbes => exact tracks.noProbes
  case crash =>
    rw [filterMap_append]
    exact tracks.crash.resume
  case byz =>
    rw [filterMap_append]
    exact tracks.byz.resume
  case answered =>
    intro hash replyVec k ack registered request
    have before := tracks.answered hash replyVec k ack (by simpa using registered) request
    have same : crashFate (signals ++ [.stopCancelling]) hash replyVec = crashFate signals hash replyVec := by
      simp [crashFate_concat, Signal.crashEvent, Rendezvous.Event.move]
    rw [same, ← before]
    rfl
  case owned =>
    exact tracks.owned_more (append_nil _).symm (forall_mem_nil _)
  case ledger =>
    rw [filterMap_append]
    exact tracks.ledger.resume
  case byzFor => exact tracks.byzFor

theorem Tracks.signal {signal} (coherent : Coherent (signals ++ [signal])) :
    ∃ after settled, handler.signal signal = some after ∧ Tracks (signals ++ [signal]) after settled := by
  cases signal with
  | batch hash replyVec =>
    by_cases refused : hash = [] ∨ cancelling signals = true
    · have handled : handler.handleBatch hash replyVec = some (handler.tryAgain replyVec) := by
        rw [handleBatch, tracks.mustCancel, if_pos refused]
      exact ⟨_, settled, handled, tracks.turnAway coherent refused⟩
    · obtain ⟨nonempty, listening⟩ := not_or.mp refused
      exact tracks.batch coherent nonempty (Bool.eq_false_iff.mpr listening)
  | crashCommitAck hash n results =>
    obtain ⟨after, handled, next⟩ := tracks.crashCommitAck coherent
    exact ⟨after, settled, handled, next⟩
  | byzCommitAck hash n responses => exact tracks.byzCommitAck coherent
  | cancelAllRequests => exact ⟨_, settled, rfl, tracks.cancelAllRequests coherent⟩
  | stopCancelling => exact ⟨_, settled, rfl, tracks.stopCancelling⟩

omit tracks

theorem exists_tracks (coherent : Coherent signals) :
    ∃ handler settled, runAll signal {} signals = some handler ∧ Tracks signals handler settled := by
  induction signals using List.reverseRecOn with
  | nil => exact ⟨{}, [], rfl, tracks_new⟩
  | append_singleton signals signal ih =>
    obtain ⟨_, settled, ran, tracks⟩ := ih coherent.init
    obtain ⟨after, settled', handled, next⟩ := tracks.signal coherent
    refine ⟨after, settled', ?_, next⟩
    rw [runAll_append, ran, Option.bind_some, runAll_singleton, handled]

end Steps

end PirateShip.ClientReplyHandler
