import PirateShip.ClientReply.Answers

/-! The length assertions of the reply stage. They do not fail as long as results
have the length of the batches that are registered under their hash, in whatever
order the inputs come and with probes in between. -/

set_option autoImplicit false

namespace PirateShip.ClientReplyHandler

variable {handler middle after : ClientReplyHandler}

structure Shrinks (handler after : ClientReplyHandler) : Prop where
  replyMap : ∀ hash replyVec, after.replyMap.lookup hash = some replyVec →
    handler.replyMap.lookup hash = some replyVec
  byzReplyMap : ∀ hash senders, after.byzReplyMap.lookup hash = some senders →
    handler.byzReplyMap.lookup hash = some senders
  crashCommitReplyBuf : ∀ hash ack, after.crashCommitReplyBuf.lookup hash = some ack →
    handler.crashCommitReplyBuf.lookup hash = some ack
  byzCommitReplyBuf : ∀ hash ack, after.byzCommitReplyBuf.lookup hash = some ack →
    handler.byzCommitReplyBuf.lookup hash = some ack

theorem shrinks_of_eq (replyMap : after.replyMap = handler.replyMap)
    (byzReplyMap : after.byzReplyMap = handler.byzReplyMap)
    (crashCommitReplyBuf : after.crashCommitReplyBuf = handler.crashCommitReplyBuf)
    (byzCommitReplyBuf : after.byzCommitReplyBuf = handler.byzCommitReplyBuf) : Shrinks handler after where
  replyMap _ _ found := replyMap ▸ found
  byzReplyMap _ _ found := byzReplyMap ▸ found
  crashCommitReplyBuf _ _ found := crashCommitReplyBuf ▸ found
  byzCommitReplyBuf _ _ found := byzCommitReplyBuf ▸ found

theorem Shrinks.trans (first : Shrinks handler middle) (second : Shrinks middle after) : Shrinks handler after where
  replyMap hash replyVec found := first.replyMap hash replyVec (second.replyMap hash replyVec found)
  byzReplyMap hash senders found := first.byzReplyMap hash senders (second.byzReplyMap hash senders found)
  crashCommitReplyBuf hash ack found := first.crashCommitReplyBuf hash ack (second.crashCommitReplyBuf hash ack found)
  byzCommitReplyBuf hash ack found := first.byzCommitReplyBuf hash ack (second.byzCommitReplyBuf hash ack found)

theorem Replies.shrinks {answers responses} (replies : Replies handler after answers responses) :
    Shrinks handler after :=
  shrinks_of_eq replies.replyMap replies.byzReplyMap replies.crashCommitReplyBuf replies.byzCommitReplyBuf

theorem shrinks_doCrashCommitReply (handler) {replyVec results} (fits : replyVec.length = results.length) (hash n) :
    ∃ after, handler.doCrashCommitReply replyVec hash n results = some after ∧ Shrinks handler after := by
  obtain ⟨after, replied, replies⟩ := doCrashCommitReply_spec handler hash n fits
  exact ⟨after, replied, replies.shrinks⟩

theorem shrinks_doByzCommitReply (handler) {senders responses} (fits : senders.length = responses.length) (n) :
    ∃ after, handler.doByzCommitReply senders n responses = some after ∧ Shrinks handler after := by
  have stored := (replies_foldl_storeByzResponse handler (senders.zip responses)).shrinks
  refine ⟨_, if_neg (not_not.mpr fits), stored.trans ?_⟩
  split <;> exact shrinks_of_eq rfl rfl rfl rfl

theorem lookup_of_lookup_erase {α β : Type} [DecidableEq α] {map : HashMap α β} {key other : α} {value : β}
    (found : (map.erase key).lookup other = some value) : map.lookup other = some value := by
  by_cases same : other = key
  · subst same
    rw [AList.lookup_erase] at found
    cases found
  · rwa [AList.lookup_erase_ne same] at found

section Holding

variable (registered : HashType → List MsgAckChanWithTag → Prop)
  (crashAck : HashType → Nat × List ProtoTransactionResult → Prop)
  (byzAck : HashType → Nat × List ProtoByzResponse → Prop)

structure Holding (handler : ClientReplyHandler) : Prop where
  replyMap : ∀ hash replyVec, handler.replyMap.lookup hash = some replyVec → registered hash replyVec
  byzReplyMap : ∀ hash senders, handler.byzReplyMap.lookup hash = some senders →
    ∃ replyVec, registered hash replyVec ∧ senders.length = replyVec.length
  crashCommitReplyBuf : ∀ hash ack, handler.crashCommitReplyBuf.lookup hash = some ack → crashAck hash ack
  byzCommitReplyBuf : ∀ hash ack, handler.byzCommitReplyBuf.lookup hash = some ack → byzAck hash ack

structure Fitting : Prop where
  crash : ∀ hash replyVec ack, registered hash replyVec → crashAck hash ack → replyVec.length = ack.2.length
  byz : ∀ hash replyVec ack, registered hash replyVec → byzAck hash ack → replyVec.length = ack.2.length

variable {registered crashAck byzAck} {hash : HashType} {replyVec : List MsgAckChanWithTag} {n : Nat}
  {results : List ProtoTransactionResult} {responses : List ProtoByzResponse}

theorem holding_new : Holding registered crashAck byzAck {} where
  replyMap hash replyVec found := by cases (AList.lookup_empty hash).symm.trans found
  byzReplyMap hash senders found := by cases (AList.lookup_empty hash).symm.trans found
  crashCommitReplyBuf hash ack found := by cases (AList.lookup_empty hash).symm.trans found
  byzCommitReplyBuf hash ack found := by cases (AList.lookup_empty hash).symm.trans found

theorem Holding.mono {registered' crashAck' byzAck'} (holding : Holding registered crashAck byzAck handler)
    (more : ∀ hash replyVec, registered hash replyVec → registered' hash replyVec)
    (more_crash : ∀ hash ack, crashAck hash ack → crashAck' hash ack)
    (more_byz : ∀ hash ack, byzAck hash ack → byzAck' hash ack) : Holding registered' crashAck' byzAck' handler where
  replyMap hash replyVec found := more hash replyVec (holding.replyMap hash replyVec found)
  byzReplyMap hash senders found := by
    obtain ⟨replyVec, known, length⟩ := holding.byzReplyMap hash senders found
    exact ⟨replyVec, more hash replyVec known, length⟩
  crashCommitReplyBuf hash ack found := more_crash hash ack (holding.crashCommitReplyBuf hash ack found)
  byzCommitReplyBuf hash ack found := more_byz hash ack (holding.byzCommitReplyBuf hash ack found)

theorem Holding.shrinks (holding : Holding registered crashAck byzAck handler) (shrinks : Shrinks handler after) :
    Holding registered crashAck byzAck after where
  replyMap hash replyVec found := holding.replyMap hash replyVec (shrinks.replyMap hash replyVec found)
  byzReplyMap hash senders found := holding.byzReplyMap hash senders (shrinks.byzReplyMap hash senders found)
  crashCommitReplyBuf hash ack found :=
    holding.crashCommitReplyBuf hash ack (shrinks.crashCommitReplyBuf hash ack found)
  byzCommitReplyBuf hash ack found := holding.byzCommitReplyBuf hash ack (shrinks.byzCommitReplyBuf hash ack found)

/-!
## Batches
-/

theorem Holding.clearByzReplyBuf (holding : Holding registered crashAck byzAck handler)
    (fitting : Fitting registered crashAck byzAck) (hash) :
    ∃ after, handler.clearByzReplyBuf hash = some after ∧ Shrinks handler after := by
  unfold ClientReplyHandler.clearByzReplyBuf
  cases early : handler.byzCommitReplyBuf.lookup hash with
  | none => exact ⟨handler, rfl, shrinks_of_eq rfl rfl rfl rfl⟩
  | some ack =>
    obtain ⟨n, responses⟩ := ack
    cases found : handler.byzReplyMap.lookup hash with
    | none =>
      simp only [found]
      refine ⟨_, rfl, ?_⟩
      exact ⟨fun _ _ found => found, fun _ _ found => found, fun _ _ found => found,
        fun _ _ => lookup_of_lookup_erase⟩
    | some senders =>
      obtain ⟨replyVec, known, length⟩ := holding.byzReplyMap hash senders found
      have fits : senders.length = responses.length :=
        length.trans (fitting.byz hash replyVec _ known (holding.byzCommitReplyBuf hash _ early))
      obtain ⟨after, replied, shrinks⟩ := shrinks_doByzCommitReply { handler with
        byzCommitReplyBuf := handler.byzCommitReplyBuf.erase hash
        byzReplyMap := handler.byzReplyMap.erase hash } fits n
      refine ⟨after, by simp only [found, replied], .trans ?_ shrinks⟩
      exact ⟨fun _ _ found => found, fun _ _ => lookup_of_lookup_erase, fun _ _ found => found,
        fun _ _ => lookup_of_lookup_erase⟩

theorem Holding.clearCrashReplyBuf (holding : Holding registered crashAck byzAck handler)
    (fitting : Fitting registered crashAck byzAck) (hash) :
    ∃ after, handler.clearCrashReplyBuf hash = some after ∧ Shrinks handler after := by
  unfold ClientReplyHandler.clearCrashReplyBuf
  cases early : handler.crashCommitReplyBuf.lookup hash with
  | none => exact ⟨handler, rfl, shrinks_of_eq rfl rfl rfl rfl⟩
  | some ack =>
    obtain ⟨n, results⟩ := ack
    cases found : handler.replyMap.lookup hash with
    | none =>
      simp only [found]
      refine ⟨_, rfl, ?_⟩
      exact ⟨fun _ _ found => found, fun _ _ found => found, fun _ _ => lookup_of_lookup_erase,
        fun _ _ found => found⟩
    | some replyVec =>
      have fits : replyVec.length = results.length :=
        fitting.crash hash replyVec _ (holding.replyMap hash replyVec found)
          (holding.crashCommitReplyBuf hash _ early)
      obtain ⟨after, replied, shrinks⟩ := shrinks_doCrashCommitReply { handler with
        crashCommitReplyBuf := handler.crashCommitReplyBuf.erase hash
        replyMap := handler.replyMap.erase hash } fits hash n
      refine ⟨after, by simp only [found, replied], .trans ?_ shrinks⟩
      exact ⟨fun _ _ => lookup_of_lookup_erase, fun _ _ found => found, fun _ _ => lookup_of_lookup_erase,
        fun _ _ found => found⟩

theorem eq_or_lookup_of_lookup_insert {α β : Type} [DecidableEq α] {map : HashMap α β} {key other : α}
    {value found : β} (lookup : (map.insert key value).lookup other = some found) :
    other = key ∧ found = value ∨ map.lookup other = some found := by
  by_cases same : other = key
  · subst same
    rw [AList.lookup_insert] at lookup
    exact .inl ⟨rfl, (Option.some.inj lookup).symm⟩
  · exact .inr (by rwa [AList.lookup_insert_ne same] at lookup)

theorem Holding.handleBatch (holding : Holding registered crashAck byzAck handler)
    (fitting : Fitting registered crashAck byzAck) (known : hash ≠ [] → registered hash replyVec) :
    ∃ after, handler.handleBatch hash replyVec = some after ∧ Holding registered crashAck byzAck after := by
  by_cases refused : hash = [] ∨ handler.mustCancel = true
  · exact ⟨_, if_pos refused, holding.shrinks (shrinks_of_eq rfl rfl rfl rfl)⟩
  · have known := known (not_or.mp refused).1
    have opened : Holding registered crashAck byzAck { handler with
        byzReplyMap := handler.byzReplyMap.insert hash (replyVec.map fun ack => (ack.clientTag, ack.sender))
        replyMap := handler.replyMap.insert hash replyVec } :=
      { replyMap := fun other found lookup => by
          obtain ⟨rfl, rfl⟩ | earlier := eq_or_lookup_of_lookup_insert lookup
          · exact known
          · exact holding.replyMap other found earlier
        byzReplyMap := fun other found lookup => by
          obtain ⟨rfl, rfl⟩ | earlier := eq_or_lookup_of_lookup_insert lookup
          · exact ⟨replyVec, known, List.length_map _⟩
          · exact holding.byzReplyMap other found earlier
        crashCommitReplyBuf := holding.crashCommitReplyBuf
        byzCommitReplyBuf := holding.byzCommitReplyBuf }
    obtain ⟨_, cleared, shrinks⟩ := opened.clearByzReplyBuf fitting hash
    obtain ⟨after, replied, shrinks'⟩ := (opened.shrinks shrinks).clearCrashReplyBuf fitting hash
    refine ⟨after, ?_, opened.shrinks (shrinks.trans shrinks')⟩
    rw [ClientReplyHandler.handleBatch, if_neg refused, maybeClearReplyBuf, cleared, Option.bind_some, replied]

/-!
## Results
-/

theorem Holding.crashCommitAck (holding : Holding registered crashAck byzAck handler)
    (fitting : Fitting registered crashAck byzAck) (known : crashAck hash (n, results)) :
    ∃ after, handler.crashCommitAck hash n results = some after ∧ Holding registered crashAck byzAck after := by
  unfold ClientReplyHandler.crashCommitAck
  cases found : handler.replyMap.lookup hash with
  | none =>
    refine ⟨_, rfl, holding.replyMap, holding.byzReplyMap, fun other ack lookup => ?_, holding.byzCommitReplyBuf⟩
    obtain ⟨rfl, rfl⟩ | earlier := eq_or_lookup_of_lookup_insert lookup
    · exact known
    · exact holding.crashCommitReplyBuf other ack earlier
  | some replyVec =>
    have fits := fitting.crash hash replyVec _ (holding.replyMap hash replyVec found) known
    obtain ⟨after, replied, shrinks⟩ := shrinks_doCrashCommitReply { handler with
      replyMap := handler.replyMap.erase hash } fits hash n
    refine ⟨after, replied, holding.shrinks (.trans ?_ shrinks)⟩
    exact ⟨fun _ _ => lookup_of_lookup_erase, fun _ _ found => found, fun _ _ found => found, fun _ _ found => found⟩

theorem Holding.byzCommitAck (holding : Holding registered crashAck byzAck handler)
    (fitting : Fitting registered crashAck byzAck) (known : byzAck hash (n, responses)) :
    ∃ after, handler.byzCommitAck hash n responses = some after ∧ Holding registered crashAck byzAck after := by
  unfold ClientReplyHandler.byzCommitAck
  cases found : handler.byzReplyMap.lookup hash with
  | none =>
    refine ⟨_, rfl, holding.replyMap, holding.byzReplyMap, holding.crashCommitReplyBuf, fun other ack lookup => ?_⟩
    obtain ⟨rfl, rfl⟩ | earlier := eq_or_lookup_of_lookup_insert lookup
    · exact known
    · exact holding.byzCommitReplyBuf other ack earlier
  | some senders =>
    obtain ⟨replyVec, present, length⟩ := holding.byzReplyMap hash senders found
    have fits := length.trans (fitting.byz hash replyVec _ present known)
    obtain ⟨after, replied, shrinks⟩ := shrinks_doByzCommitReply { handler with
      byzReplyMap := handler.byzReplyMap.erase hash } fits n
    refine ⟨after, replied, holding.shrinks (.trans ?_ shrinks)⟩
    exact ⟨fun _ _ found => found, fun _ _ => lookup_of_lookup_erase, fun _ _ found => found, fun _ _ found => found⟩

def Known (crashAck : HashType → Nat × List ProtoTransactionResult → Prop)
    (byzAck : HashType → Nat × List ProtoByzResponse → Prop) : ClientReplyCommand → Prop
  | .crashCommitAck acks => ∀ ack ∈ acks, crashAck ack.1 ack.2
  | .byzCommitAck acks => ∀ ack ∈ acks, byzAck ack.1 ack.2
  | .cancelAllRequests | .stopCancelling => True

theorem Holding.handleReplyCommand (holding : Holding registered crashAck byzAck handler)
    (fitting : Fitting registered crashAck byzAck) {command} (known : Known crashAck byzAck command) :
    ∃ after, handler.handleReplyCommand command = some after ∧ Holding registered crashAck byzAck after := by
  cases command with
  | cancelAllRequests =>
    refine ⟨_, rfl, holding.shrinks ⟨fun hash _ found => ?_, fun _ _ found => found, fun _ _ found => found,
      fun _ _ found => found⟩⟩
    cases (AList.lookup_empty hash).symm.trans found
  | stopCancelling => exact ⟨_, rfl, holding.shrinks (shrinks_of_eq rfl rfl rfl rfl)⟩
  | crashCommitAck acks =>
    simp only [ClientReplyHandler.handleReplyCommand]
    induction acks generalizing handler with
    | nil => exact ⟨handler, rfl, holding⟩
    | cons ack acks ih =>
      obtain ⟨middle, handled, holding'⟩ := holding.crashCommitAck fitting (known ack List.mem_cons_self)
      obtain ⟨after, rest, holding''⟩ := ih holding' fun other member => known other (List.mem_cons_of_mem _ member)
      exact ⟨after, by rw [List.foldlM_cons, handled]; exact rest, holding''⟩
  | byzCommitAck acks =>
    simp only [ClientReplyHandler.handleReplyCommand]
    induction acks generalizing handler with
    | nil => exact ⟨handler, rfl, holding⟩
    | cons ack acks ih =>
      obtain ⟨middle, handled, holding'⟩ := holding.byzCommitAck fitting (known ack List.mem_cons_self)
      obtain ⟨after, rest, holding''⟩ := ih holding' fun other member => known other (List.mem_cons_of_mem _ member)
      exact ⟨after, by rw [List.foldlM_cons, handled]; exact rest, holding''⟩

end Holding

end PirateShip.ClientReplyHandler
