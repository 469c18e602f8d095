import PirateShip.Staging.ChainInvariant
import PirateShip.Staging.Operations
import PirateShip.Staging.Processed

/-! `last_qc` and the order of certificates. Fork choice compares certificates by their view
first; a node replaces `last_qc` by number alone. The two agree as long as certificates of
a higher view are for higher blocks, which a rollback can break. -/

set_option autoImplicit false

namespace PirateShip.Staging

open List StepSystem Option

variable {crypto : CryptoService} {staging middle after : Staging} {event : Event}
  {lastQc : Option ProtoQuorumCertificate} {qc : ProtoQuorumCertificate}
  {processed qcs : List ProtoQuorumCertificate} {carried : Option ProtoQuorumCertificate → Prop}

/-!
## The highest certificate
-/

def Below (qc other : ProtoQuorumCertificate) : Prop :=
  qc.view < other.view ∨ qc.view = other.view ∧ qc.n < other.n

instance (qc other : ProtoQuorumCertificate) : Decidable (Below qc other) :=
  inferInstanceAs (Decidable (_ ∨ _ ∧ _))

def Highest (lastQc : Option ProtoQuorumCertificate) (processed : List ProtoQuorumCertificate) : Prop :=
  match lastQc with
  | none => processed = []
  | some last => last ∈ processed ∧ ∀ qc ∈ processed, ¬ Below last qc

instance (lastQc : Option ProtoQuorumCertificate) (processed : List ProtoQuorumCertificate) :
    Decidable (Highest lastQc processed) :=
  match lastQc with
  | none => inferInstanceAs (Decidable (processed = []))
  | some last => inferInstanceAs (Decidable (last ∈ processed ∧ ∀ qc ∈ processed, ¬ Below last qc))

/-- The number says whether the certificate is above `last_qc`. -/
def OrdersAlike (lastQc : Option ProtoQuorumCertificate) (qc : ProtoQuorumCertificate) : Prop :=
  (lastQc.map (·.n)).getD 0 < qc.n ↔ ∀ last ∈ lastQc, Below last qc

instance (lastQc : Option ProtoQuorumCertificate) (qc : ProtoQuorumCertificate) : Decidable (OrdersAlike lastQc qc) :=
  inferInstanceAs (Decidable (_ ↔ _))

def InTurn : Option ProtoQuorumCertificate → List ProtoQuorumCertificate → Prop
  | _, [] => True
  | lastQc, qc :: rest => OrdersAlike lastQc qc ∧ InTurn (recordQc lastQc qc) rest

instance decidableInTurn : ∀ (lastQc : Option ProtoQuorumCertificate) (qcs : List ProtoQuorumCertificate),
    Decidable (InTurn lastQc qcs)
  | _, [] => inferInstanceAs (Decidable True)
  | lastQc, qc :: rest =>
    have := decidableInTurn (recordQc lastQc qc) rest
    inferInstanceAs (Decidable (_ ∧ _))

variable (highest : Highest lastQc processed)
include highest

theorem highest_recordQc_iff : Highest (recordQc lastQc qc) (processed ++ [qc]) ↔ OrdersAlike lastQc qc := by
  cases lastQc with
  | none =>
    cases (show processed = [] from highest)
    by_cases positive : 0 < qc.n <;> simp [recordQc, OrdersAlike, Highest, Below, positive]
  | some last =>
    obtain ⟨member, above⟩ := highest
    by_cases higher : last.n < qc.n
    · have replaced : recordQc (some last) qc = some qc := by simp [recordQc, higher]
      simp only [replaced, Highest, OrdersAlike, map_some, getD_some, higher, true_iff,
        mem_some_iff, forall_eq', mem_append, mem_singleton, or_true, true_and]
      constructor
      · intro highest
        have := highest last (.inl member)
        unfold Below at this ⊢
        omega
      · rintro below other (old | rfl)
        · have := above other old
          unfold Below at this below ⊢
          omega
        · unfold Below
          omega
    · have kept : recordQc (some last) qc = some last := by simp [recordQc, higher]
      simp only [kept, Highest, OrdersAlike, map_some, getD_some, higher, false_iff,
        mem_some_iff, forall_eq', mem_append, mem_singleton]
      constructor
      · exact fun highest => highest.2 qc (.inr rfl)
      · rintro notBelow
        refine ⟨.inl member, ?_⟩
        rintro other (old | rfl)
        · exact above other old
        · exact notBelow

theorem highest_foldl (inTurn : InTurn lastQc qcs) : Highest (qcs.foldl recordQc lastQc) (processed ++ qcs) := by
  induction qcs generalizing lastQc processed with
  | nil => rwa [append_nil]
  | cons qc rest ih =>
    have next := ih ((highest_recordQc_iff highest).mpr inTurn.1) inTurn.2
    rwa [append_assoc] at next

theorem Highest.view_le (member : qc ∈ processed) : ∃ last ∈ lastQc, qc.view ≤ last.view := by
  cases lastQc with
  | none =>
    rw [show processed = [] from highest] at member
    cases member
  | some last =>
    have notBelow := highest.2 qc member
    unfold Below at notBelow
    exact ⟨last, rfl, by omega⟩

omit highest

/-- Certificates of one view are in turn if those of a lower view are for lower blocks. -/
theorem inTurn_of_view {view} (ofView : ∀ qc ∈ qcs, qc.view = view ∧ 0 < qc.n)
    (last : ∀ last ∈ lastQc, last.view = view ∨ last.view < view ∧ ∀ qc ∈ qcs, last.n < qc.n) :
    InTurn lastQc qcs := by
  induction qcs generalizing lastQc with
  | nil => trivial
  | cons qc rest ih =>
    obtain ⟨⟨label, positive⟩, ofView⟩ := forall_mem_cons.mp ofView
    have kept : ∀ last ∈ recordQc lastQc qc, last.view = view := by
      intro next found
      unfold recordQc at found
      split at found
      · exact mem_some_iff.mp found ▸ label
      · next low =>
        refine (last next found).resolve_right fun lower => low ?_
        rw [mem_def.mp found]
        exact lower.2 qc mem_cons_self
    refine ⟨?_, ih ofView fun next found => .inl (kept next found)⟩
    cases lastQc with
    | none => simp [OrdersAlike, positive]
    | some earlier =>
      have ordered := last earlier rfl
      simp only [OrdersAlike, Below, map_some, getD_some, mem_some_iff, forall_eq', label]
      rcases ordered with same | ⟨lower, below⟩
      · simp [same]
      · simp [lower, below qc mem_cons_self]

/-!
## Steps
-/

def currentQcs (crypto : CryptoService) (staging : Staging) (event : Event) : List ProtoQuorumCertificate :=
  (processing crypto staging event).2.filter fun qc => decide ((processing crypto staging event).1.view ≤ qc.view)

def stepNoting (crypto : CryptoService) (state : Staging × List ProtoQuorumCertificate) (event : Event) :
    Option (Staging × List ProtoQuorumCertificate) :=
  (step crypto state.1 event).map fun after => (after, state.2 ++ currentQcs crypto state.1 event)

/-- The certificates of the step agree with `last_qc`, one after the other. -/
def QcsInTurn (crypto : CryptoService) (state : Staging × List ProtoQuorumCertificate) (event : Event) : Prop :=
  InTurn state.1.lastQc (currentQcs crypto state.1 event)

instance (crypto : CryptoService) (state : Staging × List ProtoQuorumCertificate) (event : Event) :
    Decidable (QcsInTurn crypto state event) :=
  inferInstanceAs (Decidable (InTurn _ _))

/-- The certificates of the step are for the view, over a block of it or a later one, and the
view does not start over at or below the number that is certified. -/
structure StartsAbove (crypto : CryptoService) (staging : Staging) (event : Event) : Prop where
  certifies : ∀ qc ∈ currentQcs crypto staging event, 0 < qc.n ∧ qc.view = (processing crypto staging event).1.view ∧
    ∃ block ∈ (processing crypto staging event).1.log,
      block.block.view = (processing crypto staging event).1.view ∧ block.block.n ≤ qc.n
  starts : ∀ last ∈ staging.lastQc, last.view = (processing crypto staging event).1.view ∨
    last.view < (processing crypto staging event).1.view ∧ ∀ block ∈ (processing crypto staging event).1.log,
      block.block.view = (processing crypto staging event).1.view → last.n < block.block.n

theorem StartsAbove.qcsInTurn (above : StartsAbove crypto staging event) (noted) :
    QcsInTurn crypto (staging, noted) event := by
  refine inTurn_of_view (fun qc member => ?_) fun last found => (above.starts last found).imp_right fun lower => ?_
  · obtain ⟨positive, label, -⟩ := above.certifies qc member
    exact ⟨label, positive⟩
  · refine ⟨lower.1, fun qc member => ?_⟩
    obtain ⟨-, -, block, held, ofView, upTo⟩ := above.certifies qc member
    exact (lower.2 block held ofView).trans_le upTo

theorem lastQc_settleForBlock (staging block aeStats) :
    (settleForBlock staging block aeStats).lastQc = staging.lastQc := by
  rw [settleForBlock_core]
  split <;> rfl

theorem lastQc_processing (crypto staging event) : (processing crypto staging event).1.lastQc = staging.lastQc := by
  cases event with
  | vote | timerTick | pacemaker => rfl
  | block block storageAck aeStats final =>
    have settled : (settledFor crypto staging block aeStats).lastQc = staging.lastQc := by
      rw [settledFor, lastQc_settleForBlock]
      split
      · rfl
      · split <;> rfl
    dsimp only [processing]
    split
    · rfl
    · rcases processingBlock_fst crypto (settledFor crypto staging block aeStats) block final with kept | pushed
      · rw [kept, settled]
      · rw [pushed]
        exact settled

theorem step_lastQc (taken : step crypto staging event = some after) :
    after.lastQc = (currentQcs crypto staging event).foldl recordQc staging.lastQc := by
  rcases step_processed taken with done | ⟨same, -, without⟩
  · rw [done.lastQc, lastQc_processing, currentQcs]
  · rcases without with ⟨enough, rfl⟩ | ⟨cmd, rfl⟩ <;> exact same

/-!
## View-change messages
-/

/-- Every view-change message in between has a `fork_last_qc` of the kind. -/
structure Speaks (carried : Option ProtoQuorumCertificate → Prop) (staging after : Staging) : Prop where
  client : ∃ sent, after.client = staging.client ++ sent ∧
    ∀ name vcMsg, (name, .viewChange vcMsg) ∈ sent → carried vcMsg.forkLastQc
  pacemakerTx : ∃ cmds, after.pacemakerTx = staging.pacemakerTx ++ cmds ∧
    ∀ viewNum configNum vcMsg, .myViewJumped viewNum configNum vcMsg ∈ cmds → carried vcMsg.forkLastQc

theorem Speaks.same (client : after.client = staging.client) (pacemakerTx : after.pacemakerTx = staging.pacemakerTx) :
    Speaks carried staging after :=
  ⟨⟨[], by rw [client, append_nil], by simp⟩, ⟨[], by rw [pacemakerTx, append_nil], by simp⟩⟩

theorem Speaks.trans (first : Speaks carried staging middle) (second : Speaks carried middle after) :
    Speaks carried staging after := by
  obtain ⟨sent, client, carries⟩ := first.client
  obtain ⟨moreSent, moreClient, moreCarries⟩ := second.client
  obtain ⟨cmds, pacemaker, jumps⟩ := first.pacemakerTx
  obtain ⟨moreCmds, morePacemaker, moreJumps⟩ := second.pacemakerTx
  refine ⟨⟨sent ++ moreSent, by rw [moreClient, client, append_assoc], fun name vcMsg member => ?_⟩,
    ⟨cmds ++ moreCmds, by rw [morePacemaker, pacemaker, append_assoc], fun viewNum configNum vcMsg member => ?_⟩⟩
  · exact (mem_append.mp member).elim (carries name vcMsg) (moreCarries name vcMsg)
  · exact (mem_append.mp member).elim (jumps viewNum configNum vcMsg) (moreJumps viewNum configNum vcMsg)

theorem Speaks.mono {other} (speaks : Speaks carried staging after)
    (weaker : ∀ forkLastQc, carried forkLastQc → other forkLastQc) : Speaks other staging after := by
  obtain ⟨sent, client, carries⟩ := speaks.client
  obtain ⟨cmds, pacemaker, jumps⟩ := speaks.pacemakerTx
  exact ⟨⟨sent, client, fun name vcMsg member => weaker _ (carries name vcMsg member)⟩,
    ⟨cmds, pacemaker, fun viewNum configNum vcMsg member => weaker _ (jumps viewNum configNum vcMsg member)⟩⟩

theorem speaks_respected (carried : Option ProtoQuorumCertificate → Prop) : RespectsBlocks (Speaks carried) where
  refl _ := .same rfl rfl
  trans := .trans
  settle _ _ _ _ := .same rfl rfl
  note _ _ _ _ := .same rfl rfl
  sendQc _ _ := .same rfl rfl
  noteCommit _ _ := .same rfl rfl
  rollback _ _ := .same rfl rfl
  crashCommit _ _ _ := .same rfl rfl
  byzantineCommit _ _ _ _ := .same rfl rfl
  stabilize _ _ := .same rfl rfl
  markProposed _ _ _ := .same rfl rfl
  pushBlock _ _ _ := .same rfl rfl
  storageAcks _ _ := .same rfl rfl
  countVote _ _ _ := .same rfl rfl
  sendVote _ _ _ _ := ⟨⟨_, rfl, by simp⟩, ⟨[], by simp⟩⟩

theorem maybeUpdateView_speaks {viewNum configNum}
    (result : maybeUpdateView crypto staging viewNum configNum = some after) :
    Speaks (· = staging.lastQc) staging after := by
  unfold maybeUpdateView at result
  split at result
  · cases result
    exact .same rfl rfl
  · simp only [updateView] at result
    split at result
    · cases result
    · next vcMsg created =>
      have carries : vcMsg.forkLastQc = staging.lastQc := by
        obtain ⟨text, -, rfl⟩ := map_eq_some_iff.mp created
        rfl
      split at result
      · cases result
      · cases result
        refine ⟨⟨_, rfl, ?_⟩, ⟨_, rfl, ?_⟩⟩
        · intro name other member
          obtain ⟨peer, -, same⟩ := mem_map.mp member
          cases same
          exact carries
        · intro viewNum configNum other member
          cases mem_singleton.mp member
          exact carries

theorem step_speaks (taken : step crypto staging event = some after) : Speaks (· = staging.lastQc) staging after := by
  have respects := speaks_respected (· = staging.lastQc)
  cases event with
  | vote sender vote => exact respects.stepVote taken
  | block block storageAck aeStats final =>
    exact respects.stepBlock (fun _ => .same rfl rfl) (fun _ => .same rfl rfl) taken
  | pacemaker cmd =>
    cases cmd with
    | updateView viewNum configNum => exact maybeUpdateView_speaks taken
    | newViewForks viewNum configNum forks =>
      cases proposeNewView_decides taken with
      | turnedAway => exact .same rfl rfl
      | proposes vc sent stat validation retainN _ _ _ _ _ _ sends =>
        obtain ⟨fork, -, rfl⟩ := sendBlocks_eq sends
        unfold truncateForNewView
        dsimp only
        split <;> exact .same rfl rfl
    | queryEnoughVCMsg | myViewJumped | updateBCI => cases taken
  | timerTick enough =>
    simp only [step, handleViewChangeTimerTick] at taken
    split at taken
    · cases taken
      exact .same rfl rfl
    · split at taken
      · exact maybeUpdateView_speaks taken
      · have asks : Speaks (· = staging.lastQc) staging { staging with
            pacemakerTx := staging.pacemakerTx ++ [.queryEnoughVCMsg staging.view staging.configNum] } :=
          ⟨⟨[], by simp⟩, ⟨_, rfl, by simp⟩⟩
        split at taken
        · cases taken
          exact asks
        · split at taken
          · obtain ⟨moved, updated, rfl⟩ := map_eq_some_iff.mp taken
            exact asks.trans ((maybeUpdateView_speaks updated).trans (.same rfl rfl))
          · cases taken
            exact asks.trans (.same rfl rfl)

/-!
## Runs
-/

theorem stepNoting_highest {state next} (highest : Highest state.1.lastQc state.2)
    (inTurn : QcsInTurn crypto state event) (taken : stepNoting crypto state event = some next) :
    Highest next.1.lastQc next.2 ∧ state.2 <+: next.2 ∧ Speaks (· = state.1.lastQc) state.1 next.1 := by
  obtain ⟨after, stepped, rfl⟩ := map_eq_some_iff.mp taken
  refine ⟨?_, prefix_append _ _, step_speaks stepped⟩
  rw [step_lastQc stepped]
  exact highest_foldl highest inTurn

/-- In every run in which the numbers order the certificates as view and number do,
`last_qc` is the highest of them, and every later view-change message names one of at
least their views. They do where no view starts over at or below a certified number. -/
theorem lastQc_highest_of_reaches {state : Staging × List ProtoQuorumCertificate}
    (reached : Reaches (stepNoting crypto) (QcsInTurn crypto) (new crypto.config, []) state) :
    Highest state.1.lastQc state.2 ∧
      ∀ later, Reaches (stepNoting crypto) (QcsInTurn crypto) state later →
        Speaks (fun forkLastQc => ∀ qc ∈ state.2, ∃ last ∈ forkLastQc, qc.view ≤ last.view) state.1 later.1 ∧
          ∀ event, StartsAbove crypto later.1 event → QcsInTurn crypto later event := by
  have initially : Highest (new crypto.config).lastQc [] := by
    unfold new
    split <;> rfl
  have highest : Highest state.1.lastQc state.2 := by
    refine reached.invariant (motive := fun state => Highest state.1.lastQc state.2) initially ?_
    exact fun highest inTurn taken => (stepNoting_highest highest inTurn taken).1
  refine ⟨highest, fun later continued => ⟨?_, fun _ above => above.qcsInTurn later.2⟩⟩
  have holds := continued.invariant (motive := fun later => Highest later.1.lastQc later.2 ∧ state.2 <+: later.2 ∧
    Speaks (fun forkLastQc => ∀ qc ∈ state.2, ∃ last ∈ forkLastQc, qc.view ≤ last.view) state.1 later.1)
    ⟨highest, prefix_rfl, .same rfl rfl⟩ ?_
  · exact holds.2.2
  · rintro before after event ⟨highest, grown, speaks⟩ inTurn taken
    obtain ⟨stays, grows, spoken⟩ := stepNoting_highest highest inTurn taken
    refine ⟨stays, grown.trans grows, speaks.trans (spoken.mono ?_)⟩
    rintro forkLastQc rfl qc member
    exact highest.view_le (grown.subset member)

def announcedViews (staging : Staging) : List (Option Nat) :=
  staging.client.filterMap fun sent =>
    match sent.2 with
    | .viewChange vcMsg => some (vcMsg.forkLastQc.map (·.view))
    | _ => none

def certifiedDelivery : List Event :=
  delivery ++ [deliver (sampleBlock 4 1 4 3 [sampleQc 3 1 3]) 1 0 true]

def rivalDelivery : List Event :=
  [deliver (sampleBlock 3 2 13 2 []) 2 0 false, deliver (sampleBlock 4 2 14 13 [sampleQc 3 2 13]) 2 0 false,
    .pacemaker (.updateView 3 1)]

theorem highest_after_delivery :
    ∃ state, Reaches (stepNoting (threeNodes "node3")) (QcsInTurn (threeNodes "node3"))
        (new (threeNodes "node3").config, []) state ∧
      state.2 = [sampleQc 1 1 1, sampleQc 2 1 2, sampleQc 3 1 3] ∧ Highest state.1.lastQc state.2 :=
  exists_reaches_and certifiedDelivery (by decide +kernel) (by decide +kernel) fun reached _ =>
    (lastQc_highest_of_reaches reached).1

/-- The certificate of view 2 is not above the old one by number, so it is lost to fork choice. -/
theorem higher_view_not_recorded :
    ∃ state, Reaches (stepNoting (threeNodes "node3")) Any (new (threeNodes "node3").config, []) state ∧
      (sampleQc 3 2 13 ∈ state.2 ∧ ¬ Highest state.1.lastQc state.2 ∧
        announcedViews state.1 = [some 1, some 1]) :=
  exists_reaches_any (certifiedDelivery ++ rivalDelivery) (by decide +kernel)

end PirateShip.Staging
