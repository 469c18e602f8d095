import PirateShip.ClientReply.Fates

/-! Every request at the reply stage is answered once, and every byzantine response
is given once, in whatever order the inputs come. -/

set_option autoImplicit false

namespace PirateShip.ClientReplyHandler

open List StepSystem Option

inductive ReplyEvent where
  | batch (hash : HashType) (replyVec : List MsgAckChanWithTag)
  | command (command : ClientReplyCommand)
  deriving DecidableEq

def handle (handler : ClientReplyHandler) : ReplyEvent → Option ClientReplyHandler
  | .batch hash replyVec => handler.handleBatch hash replyVec
  | .command command => handler.handleReplyCommand command

def ReplyEvent.signals : ReplyEvent → List Signal
  | .batch hash replyVec => [.batch hash replyVec]
  | .command .cancelAllRequests => [.cancelAllRequests]
  | .command .stopCancelling => [.stopCancelling]
  | .command (.crashCommitAck acks) => acks.map fun ack => .crashCommitAck ack.1 ack.2.1 ack.2.2
  | .command (.byzCommitAck acks) => acks.map fun ack => .byzCommitAck ack.1 ack.2.1 ack.2.2

def signalsOf (events : List ReplyEvent) : List Signal := events.flatMap ReplyEvent.signals

theorem handle_eq_runAll (handler event) : handler.handle event = runAll signal handler event.signals := by
  cases event with
  | batch hash replyVec => exact (runAll_singleton signal handler (.batch hash replyVec)).symm
  | command command =>
    cases command with
    | cancelAllRequests | stopCancelling => rfl
    | crashCommitAck acks =>
      induction acks generalizing handler with
      | nil => rfl
      | cons ack acks ih =>
        exact congrArg (bind (handler.crashCommitAck ack.1 ack.2.1 ack.2.2)) (funext ih)
    | byzCommitAck acks =>
      induction acks generalizing handler with
      | nil => rfl
      | cons ack acks ih =>
        exact congrArg (bind (handler.byzCommitAck ack.1 ack.2.1 ack.2.2)) (funext ih)

theorem runAll_handle (handler events) : runAll handle handler events = runAll signal handler (signalsOf events) := by
  induction events generalizing handler with
  | nil => rfl
  | cons event events ih =>
    rw [runAll, handle_eq_runAll, signalsOf, flatMap_cons, runAll_append]
    exact congrArg (bind _) (funext ih)

def TurnedAway (signals : List Signal) (hash : HashType) (replyVec : List MsgAckChanWithTag) : Prop :=
  ∃ before after, signals = before ++ .batch hash replyVec :: after ∧ (hash = [] ∨ cancelling before = true)

def Cancelled (signals : List Signal) (hash : HashType) (replyVec : List MsgAckChanWithTag) : Prop :=
  TurnedAway signals hash replyVec ∨
    ∃ before after, signals = before ++ .batch hash replyVec :: after ∧ .cancelAllRequests ∈ after

section Reading

variable {signals : List Signal} {hash : HashType} {replyVec : List MsgAckChanWithTag} {n : Nat}

theorem Coherent.split_unique (coherent : Coherent signals) (nonempty : hash ≠ []) {before after before' after'}
    (here : signals = before ++ .batch hash replyVec :: after)
    (there : signals = before' ++ .batch hash replyVec :: after') : before = before' ∧ after = after' := by
  have apart := coherent.apart
  rw [here] at apart
  obtain ⟨_, later, earlier⟩ := pairwise_append.mp apart
  have not_before : .batch hash replyVec ∉ before := fun member =>
    nonempty ((earlier _ member _ mem_cons_self).1 rfl)
  have not_after : .batch hash replyVec ∉ after := fun member =>
    nonempty ((rel_of_pairwise_cons later member).1 rfl)
  have same := (append_cons_inj_of_notMem not_before not_after).mp (here.symm.trans there)
  exact ⟨same.1, same.2.2⟩

theorem exists_split {Output : Type} {f : Signal → Option Output} {output : Output} {source : Signal}
    (only : ∀ signal, f signal = some output → signal = source) {before after : List Output}
    (split : signals.filterMap f = before ++ output :: after) :
    ∃ before' after', signals = before' ++ source :: after' ∧ before'.filterMap f = before ∧
      after'.filterMap f = after := by
  obtain ⟨before', _, rfl, rfl, rest_eq⟩ := filterMap_eq_append_iff.mp split
  obtain ⟨skipped, signal, after', rfl, quiet, is, rfl⟩ := filterMap_eq_cons_iff.mp rest_eq
  obtain rfl := only signal is
  refine ⟨before' ++ skipped, after', by simp, ?_, rfl⟩
  rw [filterMap_append, filterMap_eq_nil_iff.mpr quiet, append_nil]

theorem eq_batch_of_crashEvent {signal : Signal} (is : signal.crashEvent = some (.register hash replyVec)) :
    signal = .batch hash replyVec := by
  cases signal <;> simp_all [Signal.crashEvent]

theorem eq_batch_of_byzEvent {signal : Signal} (is : signal.byzEvent = some (.register hash replyVec)) :
    signal = .batch hash replyVec := by
  cases signal <;> simp_all [Signal.byzEvent]

theorem cancelled_of_dropped (dropped : crashFate signals hash replyVec = .dropped) :
    Cancelled signals hash replyVec := by
  have explained := Rendezvous.fate_explains crashPolicy hash replyVec (signals.filterMap Signal.crashEvent)
  rw [crashFate] at dropped
  rw [dropped] at explained
  obtain ⟨_, _, ⟨split, _⟩, cause⟩ := explained
  obtain ⟨before, after, here, rfl, rfl⟩ := exists_split (fun _ => eq_batch_of_crashEvent) split
  cases cause with
  | inl refused => exact .inl ⟨before, after, here, by simpa [crashPolicy, cancelling] using refused⟩
  | inr cancel =>
    obtain ⟨signal, _, _⟩ := mem_filterMap.mp cancel.2
    refine .inr ⟨before, after, here, ?_⟩
    cases signal <;> simp_all [Signal.crashEvent]

theorem acknowledged_of_joined {results} (joined : crashFate signals hash replyVec = .joined (n, results)) :
    hash ≠ [] ∧ .crashCommitAck hash n results ∈ signals := by
  have explained := Rendezvous.fate_explains crashPolicy hash replyVec (signals.filterMap Signal.crashEvent)
  rw [crashFate] at joined
  rw [joined] at explained
  obtain ⟨_, _, _, accepted, found⟩ := explained
  exact ⟨of_decide_eq_false (Bool.or_eq_false_iff.mp accepted).1, mem_crash_acknowledge.mp found⟩

theorem not_waiting_of_cause (coherent : Coherent signals)
    (cause : (∃ n results, .crashCommitAck hash n results ∈ signals) ∨ Cancelled signals hash replyVec) :
    crashFate signals hash replyVec ≠ .waiting := by
  intro waits
  have explained := Rendezvous.fate_explains crashPolicy hash replyVec (signals.filterMap Signal.crashEvent)
  rw [crashFate] at waits
  rw [waits] at explained
  obtain ⟨_, _, ⟨split, _⟩, accepted, kept, unacknowledged⟩ := explained
  obtain ⟨before, _, here, rfl, rfl⟩ := exists_split (fun _ => eq_batch_of_crashEvent) split
  obtain ⟨nonempty, listening⟩ : hash ≠ [] ∧ cancelling before = false := by
    simpa [crashPolicy, cancelling] using accepted
  obtain ⟨n, results, found⟩ | ⟨before', after', there, refused⟩ | ⟨before', after', there, cancel⟩ := cause
  · exact unacknowledged (n, results) (mem_crash_acknowledge.mpr found)
  · obtain ⟨rfl, rfl⟩ := coherent.split_unique nonempty here there
    cases refused with
    | inl empty => exact nonempty empty
    | inr refused => exact absurd refused (Bool.eq_false_iff.mp listening)
  · obtain ⟨rfl, rfl⟩ := coherent.split_unique nonempty here there
    exact kept rfl (mem_filterMap.mpr ⟨_, cancel, rfl⟩)

theorem not_expected_of_registered (registered : .batch hash replyVec ∈ signals) (early) :
    crashFate signals hash replyVec ≠ .expected early := by
  intro expected
  have explained := Rendezvous.fate_explains crashPolicy hash replyVec (signals.filterMap Signal.crashEvent)
  rw [crashFate] at expected
  rw [expected] at explained
  exact explained.1 (mem_crash_register.mpr registered)

theorem byzFate_joined_iff (coherent : Coherent signals) {responses} :
    byzFate signals hash replyVec = .joined (n, responses) ↔
      .batch hash replyVec ∈ signals ∧ ¬ TurnedAway signals hash replyVec ∧
        .byzCommitAck hash n responses ∈ signals := by
  have explained := Rendezvous.fate_explains byzPolicy hash replyVec (signals.filterMap Signal.byzEvent)
  unfold byzFate
  constructor
  · intro joined
    rw [joined] at explained
    obtain ⟨_, _, ⟨split, _⟩, accepted, found⟩ := explained
    obtain ⟨before, after, here, rfl, rfl⟩ := exists_split (fun _ => eq_batch_of_byzEvent) split
    obtain ⟨nonempty, listening⟩ : hash ≠ [] ∧ cancelling before = false := by
      simpa [byzPolicy, cancelling_byz] using accepted
    refine ⟨here ▸ mem_append_right _ mem_cons_self, ?_, mem_byz_acknowledge.mp found⟩
    rintro ⟨_, _, there, refused⟩
    obtain ⟨rfl, rfl⟩ := coherent.split_unique nonempty here there
    exact refused.elim nonempty (Bool.eq_false_iff.mp listening)
  · rintro ⟨registered, kept, found⟩
    cases reached : Rendezvous.fate byzPolicy hash replyVec (signals.filterMap Signal.byzEvent) with
    | expected early =>
      rw [reached] at explained
      exact absurd (mem_byz_register.mpr registered) explained.1
    | waiting =>
      rw [reached] at explained
      obtain ⟨_, _, _, _, _, unacknowledged⟩ := explained
      exact absurd (mem_byz_acknowledge.mpr found) (unacknowledged (n, responses))
    | dropped =>
      rw [reached] at explained
      obtain ⟨_, _, ⟨split, _⟩, cause⟩ := explained
      obtain ⟨before, after, here, rfl, rfl⟩ := exists_split (fun _ => eq_batch_of_byzEvent) split
      exact absurd ⟨before, after, here, by simpa [byzPolicy, cancelling_byz] using cause⟩ kept
    | joined ack =>
      rw [reached] at explained
      obtain ⟨_, _, _, _, found'⟩ := explained
      obtain ⟨n', responses'⟩ := ack
      rw [coherent.byz_same hash n' responses' n responses (mem_byz_acknowledge.mp found') found]

end Reading

/-!
## Answers, once
-/

/-- What the clients have got after some inputs: a request one answer at most, which
is the receipt with its own result or a try again; and the responses of a client are
those of its requests in the batches that were byzantine committed, each batch once. -/
structure AnswersOnce (signals : List Signal) (handler : ClientReplyHandler) : Prop where
  at_most_one : ∀ chan, (handler.answersTo chan).length ≤ 1
  answered : ∀ hash replyVec k ack, .batch hash replyVec ∈ signals → replyVec[k]? = some ack →
    (∃ n results, .crashCommitAck hash n results ∈ signals) ∨ Cancelled signals hash replyVec →
    (∃ n results result, .crashCommitAck hash n results ∈ signals ∧ results[k]? = some result ∧
      handler.answersTo ack.chan = [receiptOf hash n k ack result]) ∨
    Cancelled signals hash replyVec ∧ handler.answersTo ack.chan = [getTryAgainMessage ack.clientTag]
  responses : ∃ settled : List Settled, (settled.map (·.1)).Nodup ∧
    (∀ hash replyVec n responses, (hash, replyVec, n, responses) ∈ settled ↔ .batch hash replyVec ∈ signals ∧
      ¬ TurnedAway signals hash replyVec ∧ .byzCommitAck hash n responses ∈ signals) ∧
    ∀ sender, handler.byzFor sender = settled.flatMap (Settled.responses sender)

variable {signals : List Signal} {handler : ClientReplyHandler} {settled : List Settled}

theorem length_expectedAnswers (hash k ack fate) : (expectedAnswers hash k ack fate).length ≤ 1 := by
  cases fate with
  | expected _ | waiting => exact Nat.zero_le 1
  | dropped => exact Nat.le_refl 1
  | joined ack =>
    obtain ⟨n, results⟩ := ack
    cases found : results[k]? <;> simp [expectedAnswers]

theorem Tracks.answersTo_eq_nil (tracks : Tracks signals handler settled) {chan}
    (nobody : ∀ hash replyVec, .batch hash replyVec ∈ signals → ∀ ack ∈ replyVec, ack.chan ≠ chan) :
    handler.answersTo chan = [] := by
  refine picked_eq_nil fun entry listed => ?_
  obtain ⟨hash, replyVec, registered, owner⟩ := tracks.owned entry listed
  exact nobody hash replyVec registered entry.1 owner

theorem Tracks.answersOnce (tracks : Tracks signals handler settled) (coherent : Coherent signals) :
    AnswersOnce signals handler where
  at_most_one chan := by
    by_cases owned : ∃ hash replyVec, .batch hash replyVec ∈ signals ∧ ∃ ack ∈ replyVec, ack.chan = chan
    · obtain ⟨hash, replyVec, registered, ack, member, rfl⟩ := owned
      obtain ⟨k, request⟩ := getElem?_of_mem member
      rw [tracks.answered hash replyVec k ack registered request]
      exact length_expectedAnswers hash k ack _
    · have nobody : handler.answersTo chan = [] :=
        tracks.answersTo_eq_nil fun hash replyVec registered ack member same =>
        owned ⟨hash, replyVec, registered, ack, member, same⟩
      rw [nobody]
      exact Nat.zero_le 1
  answered hash replyVec k ack registered request cause := by
    rw [tracks.answered hash replyVec k ack registered request]
    cases reached : crashFate signals hash replyVec with
    | expected early => exact absurd reached (not_expected_of_registered registered early)
    | waiting => exact absurd reached (not_waiting_of_cause coherent cause)
    | dropped => exact .inr ⟨cancelled_of_dropped reached, rfl⟩
    | joined results =>
      obtain ⟨n, results⟩ := results
      obtain ⟨nonempty, found⟩ := acknowledged_of_joined reached
      have fits := coherent.crash_fits hash replyVec n results nonempty registered found
      have inside : k < results.length := fits ▸ (List.getElem?_eq_some_iff.mp request).1
      have result := getElem?_eq_getElem inside
      refine .inl ⟨n, results, results[k], found, result, ?_⟩
      simp [expectedAnswers, result]
  responses := ⟨settled, tracks.ledger.keys, fun hash replyVec n responses =>
    (tracks.ledger.mem hash replyVec (n, responses)).trans (byzFate_joined_iff coherent), tracks.byzFor⟩

/-!
## A registration and what comes next, in either order
-/

def Signal.Calm : Signal → Prop
  | .cancelAllRequests | .stopCancelling => False
  | _ => True

section Swap

variable {before middle after : List Signal} {hash hash' : HashType} {replyVec replyVec' : List MsgAckChanWithTag}

variable (coherent : Coherent (before ++ .batch hash replyVec :: (middle ++ after)))
include coherent

theorem Coherent.swap :
    Coherent (before ++ middle ++ .batch hash replyVec :: after) := by
  have perm : (before ++ .batch hash replyVec :: (middle ++ after)).Perm
      (before ++ middle ++ .batch hash replyVec :: after) := by
    rw [append_assoc]
    exact perm_middle.symm.append_left before
  have mem {signal : Signal} := perm.mem_iff (a := signal)
  exact
    { apart := (perm.pairwise_iff fun apart => Std.Symm.symm _ _ apart).mp coherent.apart
      channels := fun hash replyVec member => coherent.channels hash replyVec (mem.mpr member)
      crash_same := fun hash n results n' results' first second =>
        coherent.crash_same hash n results n' results' (mem.mpr first) (mem.mpr second)
      byz_same := fun hash n responses n' responses' first second =>
        coherent.byz_same hash n responses n' responses' (mem.mpr first) (mem.mpr second)
      crash_fits := fun hash replyVec n results nonempty first second =>
        coherent.crash_fits hash replyVec n results nonempty (mem.mpr first) (mem.mpr second)
      byz_fits := fun hash replyVec n responses nonempty first second =>
        coherent.byz_fits hash replyVec n responses nonempty (mem.mpr first) (mem.mpr second) }

theorem Coherent.once
    (matters : hash ≠ [] ∨ replyVec ≠ []) : .batch hash replyVec ∉ before ∧ .batch hash replyVec ∉ middle := by
  have not_apart : ¬ Signal.Apart (.batch hash replyVec) (.batch hash replyVec) := by
    intro apart
    cases matters with
    | inl nonempty => exact nonempty (apart.1 rfl)
    | inr requests =>
      obtain ⟨ack, member⟩ := exists_mem_of_ne_nil replyVec requests
      exact apart.2 ack member ack member rfl
  obtain ⟨_, later, earlier⟩ := pairwise_append.mp coherent.apart
  exact ⟨fun member => not_apart (earlier _ member _ mem_cons_self), fun member =>
    not_apart (rel_of_pairwise_cons later (mem_append_left _ member))⟩

omit coherent

theorem fate_swap {Ack} (policy) (f : Signal → Option (Rendezvous.Event HashType (List MsgAckChanWithTag) Ack))
    (register : f (.batch hash replyVec) = some (.register hash replyVec))
    (beside : ∀ signal event, signal.Calm → signal ≠ .batch hash replyVec → f signal = some event →
      event.Beside hash replyVec)
    (registered : ∀ signals : List Signal, .register hash replyVec ∈ signals.filterMap f →
      .batch hash replyVec ∈ signals)
    (consistent : Rendezvous.Consistent ((before ++ middle).filterMap f) hash)
    (coherent : Coherent (before ++ .batch hash replyVec :: (middle ++ after)))
    (calm : ∀ signal ∈ middle, signal.Calm) (matters : hash' ≠ [] ∨ replyVec' ≠ []) :
    Rendezvous.fate policy hash' replyVec' ((before ++ .batch hash replyVec :: (middle ++ after)).filterMap f) =
      Rendezvous.fate policy hash' replyVec' ((before ++ middle ++ .batch hash replyVec :: after).filterMap f) := by
  simp only [filterMap_append, filterMap_cons, register] at consistent ⊢
  by_cases same : hash = hash' ∧ replyVec = replyVec'
  · obtain ⟨rfl, rfl⟩ := same
    obtain ⟨not_before, not_middle⟩ := coherent.once matters
    refine Rendezvous.fate_swap_self ?_ consistent fun member => not_before (registered _ member)
    intro event member
    obtain ⟨signal, listed, is⟩ := mem_filterMap.mp member
    refine beside signal event (calm signal listed) ?_ is
    rintro rfl
    exact not_middle listed
  · exact Rendezvous.fate_swap_other same

include coherent

theorem crashFate_swap (calm : ∀ signal ∈ middle, signal.Calm) (matters : hash' ≠ [] ∨ replyVec' ≠ []) :
    crashFate (before ++ .batch hash replyVec :: (middle ++ after)) hash' replyVec' =
      crashFate (before ++ middle ++ .batch hash replyVec :: after) hash' replyVec' := by
  refine fate_swap crashPolicy Signal.crashEvent rfl ?_ (fun _ => mem_crash_register.mp) ?_ coherent calm matters
  · intro signal event still other is
    cases signal with
    | batch hash' replyVec' =>
      obtain rfl := some.inj is
      rintro ⟨rfl, rfl⟩
      exact other rfl
    | crashCommitAck hash' n results =>
      obtain rfl := some.inj is
      exact trivial
    | byzCommitAck hash' n responses => cases is
    | cancelAllRequests | stopCancelling => exact still.elim
  · intro ack other first second
    have inside : ∀ signal ∈ before ++ middle, signal ∈ before ++ .batch hash replyVec :: (middle ++ after) := by
      simp +contextual [or_imp]
    exact coherent.crash_same hash ack.1 ack.2 other.1 other.2 (inside _ (mem_crash_acknowledge.mp first))
      (inside _ (mem_crash_acknowledge.mp second))

theorem byzFate_swap (calm : ∀ signal ∈ middle, signal.Calm) (matters : hash' ≠ [] ∨ replyVec' ≠ []) :
    byzFate (before ++ .batch hash replyVec :: (middle ++ after)) hash' replyVec' =
      byzFate (before ++ middle ++ .batch hash replyVec :: after) hash' replyVec' := by
  refine fate_swap byzPolicy Signal.byzEvent rfl ?_ (fun _ => mem_byz_register.mp) ?_ coherent calm matters
  · intro signal event still other is
    cases signal with
    | batch hash' replyVec' =>
      obtain rfl := some.inj is
      rintro ⟨rfl, rfl⟩
      exact other rfl
    | byzCommitAck hash' n responses =>
      obtain rfl := some.inj is
      exact trivial
    | crashCommitAck hash' n results => cases is
    | cancelAllRequests | stopCancelling => exact still.elim
  · intro ack other first second
    have inside : ∀ signal ∈ before ++ middle, signal ∈ before ++ .batch hash replyVec :: (middle ++ after) := by
      simp +contextual [or_imp]
    exact coherent.byz_same hash ack.1 ack.2 other.1 other.2 (inside _ (mem_byz_acknowledge.mp first))
      (inside _ (mem_byz_acknowledge.mp second))

omit coherent

def SameAnswers (handler other : ClientReplyHandler) : Prop :=
  (∀ chan, other.answersTo chan = handler.answersTo chan) ∧
    ∀ sender, (other.byzFor sender).Perm (handler.byzFor sender)

theorem Tracks.sameAnswers {handler other settled moved}
    (tracks : Tracks (before ++ .batch hash replyVec :: (middle ++ after)) handler settled)
    (tracks' : Tracks (before ++ middle ++ .batch hash replyVec :: after) other moved)
    (coherent : Coherent (before ++ .batch hash replyVec :: (middle ++ after)))
    (calm : ∀ signal ∈ middle, signal.Calm) : SameAnswers handler other := by
  have same_members : ∀ signal, signal ∈ before ++ middle ++ .batch hash replyVec :: after ↔
      signal ∈ before ++ .batch hash replyVec :: (middle ++ after) := by
    intro signal
    simp only [mem_append, mem_cons]
    tauto
  refine ⟨fun chan => ?_, fun sender => ?_⟩
  · by_cases owned : ∃ hash' replyVec', .batch hash' replyVec' ∈ before ++ .batch hash replyVec :: (middle ++ after) ∧
        ∃ ack ∈ replyVec', ack.chan = chan
    · obtain ⟨hash', replyVec', registered, ack, member, rfl⟩ := owned
      obtain ⟨k, request⟩ := getElem?_of_mem member
      rw [tracks.answered hash' replyVec' k ack registered request,
        tracks'.answered hash' replyVec' k ack ((same_members _).mpr registered) request,
        crashFate_swap coherent calm (.inr (ne_nil_of_mem member))]
    · have nobody : ∀ hash' replyVec', .batch hash' replyVec' ∈ before ++ .batch hash replyVec :: (middle ++ after) →
          ∀ ack ∈ replyVec', ack.chan ≠ chan := fun hash' replyVec' registered ack member same =>
        owned ⟨hash', replyVec', registered, ack, member, same⟩
      rw [tracks.answersTo_eq_nil nobody, tracks'.answersTo_eq_nil fun hash' replyVec' registered =>
        nobody hash' replyVec' ((same_members _).mp registered)]
  · rw [tracks.byzFor, tracks'.byzFor]
    refine List.Perm.flatMap_right _ ?_
    refine (perm_ext_iff_of_nodup tracks'.ledger.keys.of_map tracks.ledger.keys.of_map).mpr fun entry => ?_
    obtain ⟨hash', replyVec', ack⟩ := entry
    rw [tracks.ledger.mem, tracks'.ledger.mem]
    by_cases matters : hash' ≠ [] ∨ replyVec' ≠ []
    · have same := byzFate_swap coherent calm matters
      simp only [byzFate] at same
      rw [same]
    · have empty : hash' = [] := not_not.mp (not_or.mp matters).1
      have never : ∀ events : List (Rendezvous.Event HashType (List MsgAckChanWithTag) (Nat × List ProtoByzResponse)),
          Rendezvous.fate byzPolicy hash' replyVec' events ≠ .joined ack := fun events joins =>
        of_decide_eq_false (Rendezvous.accepted_of_joined joins) empty
      exact iff_of_false (never _) (never _)

end Swap

def ReplyEvent.Calm : ReplyEvent → Prop
  | .command .cancelAllRequests | .command .stopCancelling => False
  | _ => True

theorem calm_of_mem_signals {event : ReplyEvent} (calm : event.Calm) {signal : Signal}
    (member : signal ∈ event.signals) : signal.Calm := by
  cases event with
  | batch hash replyVec =>
    obtain rfl := mem_singleton.mp member
    trivial
  | command command =>
    cases command with
    | cancelAllRequests | stopCancelling => exact calm.elim
    | crashCommitAck acks | byzCommitAck acks =>
      obtain ⟨_, _, rfl⟩ := mem_map.mp member
      trivial

def oneRequest : MsgAckChanWithTag := ⟨0, 7, .auth "client1" 0⟩

def oneBatch : ReplyEvent := .batch [1] [oneRequest]

def oneResult : ReplyEvent := .command (.crashCommitAck [([1], 1, [⟨[]⟩])])

def oneResponse : ReplyEvent := .command (.byzCommitAck [([1], 1, [⟨1, 0, 0⟩])])

theorem coherent_of_one {events}
    (inputs : ∀ event ∈ events, event = oneBatch ∨ event = oneResult ∨ event = oneResponse ∨
      event = .command .cancelAllRequests) (once : (signalsOf events).Pairwise Signal.Apart) :
    Coherent (signalsOf events) := by
  have only : ∀ signal ∈ signalsOf events, signal = .batch [1] [oneRequest] ∨ signal = .crashCommitAck [1] 1 [⟨[]⟩] ∨
      signal = .byzCommitAck [1] 1 [⟨1, 0, 0⟩] ∨ signal = .cancelAllRequests := by
    intro signal member
    obtain ⟨event, listed, _⟩ := mem_flatMap.mp member
    obtain rfl | rfl | rfl | rfl := inputs event listed <;>
      simp_all [oneBatch, oneResult, oneResponse, ReplyEvent.signals]
  constructor
  case apart => exact once
  case channels =>
    intro hash replyVec member
    have := only _ member
    simp_all
  case crash_same | byz_same =>
    intro hash n results n' results' first second
    have := only _ first
    have := only _ second
    simp_all
  case crash_fits | byz_fits =>
    intro hash replyVec n results _ first second
    have := only _ first
    have := only _ second
    simp_all

/-- A batch that is turned away gets no byzantine response, though its transactions
are committed. And a response that comes before the registration rides on the
receipt, while one that comes after it has to wait for the next. -/
theorem no_response_of_turned_away :
    (Coherent (signalsOf [.command .cancelAllRequests, oneBatch, oneResponse]) ∧
      ∃ handler, runAll handle {} [.command .cancelAllRequests, oneBatch, oneResponse] = some handler ∧
        ∀ sender, handler.byzFor sender = []) ∧
    Coherent (signalsOf [oneResult, oneBatch, oneResponse]) ∧
      ∃ handler other, runAll handle {} [oneResult, oneBatch, oneResponse] = some handler ∧
        runAll handle {} [oneResult, oneResponse, oneBatch] = some other ∧ handler.sent ≠ other.sent := by
  refine ⟨⟨?_, _, rfl, ?_⟩, ?_, _, _, rfl, rfl, by decide⟩
  · exact coherent_of_one (by simp) (by simp [signalsOf, oneBatch, oneResponse, ReplyEvent.signals, Signal.Apart])
  · intro sender
    exact byzFor_tryAgain (ClientReplyHandler.cancelAllRequests {}) [oneRequest] sender
  · exact coherent_of_one (by simp)
      (by simp [signalsOf, oneBatch, oneResult, oneResponse, ReplyEvent.signals, Signal.Apart])

/-- Whatever the inputs and their order, no assertion fails, every request gets one
answer at most and the one that is due, and every response is given once. It makes no
difference if a batch is registered after the acknowledgements and batches that
follow it. -/
theorem exists_answersOnce (events : List ReplyEvent) (coherent : Coherent (signalsOf events)) :
    ∃ handler, runAll handle {} events = some handler ∧ AnswersOnce (signalsOf events) handler ∧
      ∀ before hash replyVec middle after, events = before ++ .batch hash replyVec :: (middle ++ after) →
        (∀ event ∈ middle, event.Calm) →
        ∃ other, runAll handle {} (before ++ middle ++ .batch hash replyVec :: after) = some other ∧
          SameAnswers handler other := by
  obtain ⟨handler, _, ran, tracks⟩ := exists_tracks coherent
  refine ⟨handler, (runAll_handle {} events).trans ran, tracks.answersOnce coherent, ?_⟩
  rintro before hash replyVec middle after rfl calm
  have split : signalsOf (before ++ .batch hash replyVec :: (middle ++ after)) =
      signalsOf before ++ .batch hash replyVec :: (signalsOf middle ++ signalsOf after) := by
    simp [signalsOf, ReplyEvent.signals]
  have split' : signalsOf (before ++ middle ++ .batch hash replyVec :: after) =
      signalsOf before ++ signalsOf middle ++ .batch hash replyVec :: signalsOf after := by
    simp [signalsOf, ReplyEvent.signals]
  have calm_signals : ∀ signal ∈ signalsOf middle, signal.Calm := by
    intro signal member
    obtain ⟨event, listed, inside⟩ := mem_flatMap.mp member
    exact calm_of_mem_signals (calm event listed) inside
  rw [split] at coherent tracks
  obtain ⟨other, _, ran', tracks'⟩ := exists_tracks coherent.swap
  refine ⟨other, ?_, tracks.sameAnswers tracks' coherent calm_signals⟩
  rw [runAll_handle, split', ran']

theorem exists_answersOnce_one :
    Coherent (signalsOf [oneResult, oneBatch, oneResponse, .command .cancelAllRequests]) ∧
      ∃ handler, runAll handle {} [oneResult, oneBatch, oneResponse, .command .cancelAllRequests] = some handler ∧
        AnswersOnce (signalsOf [oneResult, oneBatch, oneResponse, .command .cancelAllRequests]) handler := by
  have coherent : Coherent (signalsOf [oneResult, oneBatch, oneResponse, .command .cancelAllRequests]) :=
    coherent_of_one (by simp)
      (by simp [signalsOf, oneBatch, oneResult, oneResponse, ReplyEvent.signals, Signal.Apart])
  obtain ⟨handler, ran, once, _⟩ := exists_answersOnce _ coherent
  exact ⟨coherent, handler, ran, once⟩

end PirateShip.ClientReplyHandler
