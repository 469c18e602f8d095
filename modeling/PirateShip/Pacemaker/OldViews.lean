import PirateShip.Pacemaker.Quorum

/-! What the pacemaker keeps of earlier views. A jump of the own view empties the buffer of
messages for earlier views, but the view that later messages are compared with is never set. -/

set_option autoImplicit false

namespace PirateShip.Pacemaker

open List StepSystem Option

variable (config : Config) (store : BlockStore)

/-!
## Runs with view jumps
-/

/-- A jump of the own view, and how many commands had been sent when it was handled. -/
structure Jump where
  view : Nat
  configNum : Nat
  sent : Nat

structure Watched where
  pacemaker : Pacemaker := {}
  jumped : List Jump := []

def watch (watched : Watched) : Event → Option Watched
  | .viewChange server vc sender =>
    (watched.pacemaker.handleViewChange config store server vc sender).map fun after => ⟨after.1, watched.jumped⟩
  | .staging server (.myViewJumped view configNum vc) =>
    (watched.pacemaker.handleMyViewJump config store server view configNum vc).map fun after =>
      ⟨after.1, watched.jumped ++ [⟨view, configNum, watched.pacemaker.stagingTx.length⟩]⟩
  | .staging server command =>
    (watched.pacemaker.handleStagingCommand config store server command).map fun after => ⟨after.1, watched.jumped⟩

def viewOf : PacemakerCommand → Option Nat
  | .updateView view _ | .newViewForks view _ _ => some view
  | _ => none

/-- Nothing is kept for a view or a configuration before a jump, and no earlier view is
announced from the jump on. -/
structure Forgets (watched : Watched) : Prop where
  buffer : ∀ jump ∈ watched.jumped, ∀ key, watched.pacemaker.vcBuffer key ≠ ∅ →
    jump.view ≤ key.1 ∧ jump.configNum ≤ key.2
  sent : ∀ jump ∈ watched.jumped, ∀ view ∈ (watched.pacemaker.stagingTx.drop jump.sent).filterMap viewOf,
    jump.view ≤ view

def takes (pacemaker : Pacemaker) (server : LogServer) (vc : ProtoViewChange) : Bool :=
  decide (pacemaker.viewNum ≤ vc.view ∧ pacemaker.configNum ≤ vc.configNum ∧ pacemaker.lastNewViewedView < vc.view) &&
    (forkParent vc).any fun parent => (server.checkHash store parent.1 parent.2).any (·.1)

/-- The message completes the quorum for its view, so that its bucket is handed over. -/
def Completes (pacemaker : Pacemaker) (sender : SenderType) (vc : ProtoViewChange) : Prop :=
  newViewBcastThreshold config ≤ ((pacemaker.vcBuffer (vc.view, vc.configNum)).insert sender vc).keys.length

instance (pacemaker : Pacemaker) (sender : SenderType) (vc : ProtoViewChange) :
    Decidable (Completes config pacemaker sender vc) :=
  inferInstanceAs (Decidable (_ ≤ _))

/-- What is taken is for no view before a jump, and for an earlier configuration only if it is
handed over at once. -/
def FreshVc (watched : Watched) (server : LogServer) (vc : ProtoViewChange) (sender : SenderType) : Prop :=
  watched.pacemaker.takes store server vc = true → ∀ jump ∈ watched.jumped,
    jump.view ≤ vc.view ∧ (jump.configNum ≤ vc.configNum ∨ Completes config watched.pacemaker sender vc)

instance (watched : Watched) (server : LogServer) (vc : ProtoViewChange) (sender : SenderType) :
    Decidable (FreshVc config store watched server vc sender) :=
  inferInstanceAs (Decidable (_ → ∀ jump ∈ watched.jumped, _))

def prune (pacemaker : Pacemaker) (viewNum configNum : Nat) : Pacemaker :=
  { pacemaker with
    vcBuffer := fun key => if viewNum ≤ key.1 ∧ configNum ≤ key.2 then pacemaker.vcBuffer key else ∅ }

def Watched.jump (watched : Watched) (view configNum : Nat) : Watched :=
  ⟨watched.pacemaker.prune view configNum, watched.jumped ++ [⟨view, configNum, watched.pacemaker.stagingTx.length⟩]⟩

def Fresh (watched : Watched) : Event → Prop
  | .viewChange server vc sender => FreshVc config store watched server vc sender
  | .staging server (.myViewJumped view configNum vc) =>
    FreshVc config store (watched.jump view configNum) server vc (.auth config.netConfig.name 0)
  | .staging _ _ => True

instance (watched : Watched) : ∀ event, Decidable (Fresh config store watched event)
  | .viewChange server vc sender => inferInstanceAs (Decidable (FreshVc config store watched server vc sender))
  | .staging server (.myViewJumped view configNum vc) =>
    inferInstanceAs (Decidable (FreshVc config store (watched.jump view configNum) server vc _))
  | .staging _ (.updateView _ _) | .staging _ (.newViewForks _ _ _) | .staging _ (.updateBCI _)
  | .staging _ (.queryEnoughVCMsg _ _) => isTrue trivial

/-!
## One message
-/

variable {config store} {pacemaker next : Pacemaker} {server server' : LogServer} {vc : ProtoViewChange}
  {sender : SenderType} {jumped : List Jump}

theorem handleViewChange_takes
    (ran : pacemaker.handleViewChange config store server vc sender = some (next, server')) :
    (pacemaker.takes store server vc = true ∧ next = pacemaker.bufferVc config sender vc) ∨
      (pacemaker.takes store server vc = false ∧ next.vcBuffer = pacemaker.vcBuffer ∧
        next.stagingTx = pacemaker.stagingTx) := by
  unfold handleViewChange at ran
  unfold takes
  split at ran
  · next old =>
    cases ran
    exact .inr ⟨by simp; omega, rfl, rfl⟩
  · next _ =>
    split at ran
    · next old =>
      cases ran
      exact .inr ⟨by simp; omega, rfl, rfl⟩
    · next _ =>
      split at ran
      · cases ran
      · next parentN parentHash parent =>
        split at ran
        · cases ran
        · next matched =>
          cases ran
          exact .inl ⟨by simp [parent, matched]; omega, rfl⟩
        · next mismatched =>
          have rejected : (server.checkHash store parentN parentHash).any (·.1) = false := by simp [mismatched]
          split at ran
          · cases ran
            exact .inr ⟨by simp [parent, rejected], rfl, rfl⟩
          · obtain ⟨_, -, same⟩ := map_eq_some_iff.mp ran
            cases same
            exact .inr ⟨by simp [parent, rejected], rfl, rfl⟩

theorem vcBuffer_bufferVc_eq (ahead : pacemaker.lastNewViewedView < vc.view) (key : Nat × Nat) :
    (pacemaker.bufferVc config sender vc).vcBuffer key = if key = (vc.view, vc.configNum) then
        if Completes config pacemaker sender vc then ∅
        else (pacemaker.vcBuffer (vc.view, vc.configNum)).insert sender vc
      else pacemaker.vcBuffer key := by
  simp only [bufferVc, Completes]
  split <;> split <;> by_cases same : key = (vc.view, vc.configNum) <;> simp_all

theorem insert_ne_empty (bucket : HashMap SenderType ProtoViewChange) (sender : SenderType) (vc : ProtoViewChange) :
    bucket.insert sender vc ≠ ∅ := by
  intro same
  have found := AList.lookup_insert (b := vc) (a := sender) bucket
  rw [same] at found
  cases found

theorem viewOf_notified {command} (sent : command ∈ notified config pacemaker sender vc) :
    viewOf command = some vc.view := by
  rcases mem_notified sent with ⟨rfl, -⟩ | ⟨rfl, -⟩ <;> rfl

theorem newViewForks_mem_notified (ahead : pacemaker.lastNewViewedView < vc.view)
    (completes : Completes config pacemaker sender vc) :
    .newViewForks vc.view vc.configNum ((pacemaker.vcBuffer (vc.view, vc.configNum)).insert sender vc) ∈
      notified config pacemaker sender vc := by
  refine mem_append_right _ ?_
  rw [if_pos ⟨completes, ahead⟩]
  exact mem_singleton_self _

theorem forgets_bufferVc_iff (recorded : ∀ jump ∈ jumped, jump.sent ≤ pacemaker.stagingTx.length)
    (forgets : Forgets ⟨pacemaker, jumped⟩) (ahead : pacemaker.lastNewViewedView < vc.view) :
    Forgets ⟨pacemaker.bufferVc config sender vc, jumped⟩ ↔ ∀ jump ∈ jumped,
      jump.view ≤ vc.view ∧ (jump.configNum ≤ vc.configNum ∨ Completes config pacemaker sender vc) := by
  constructor
  · intro after jump member
    by_cases completes : Completes config pacemaker sender vc
    · refine ⟨after.sent jump member vc.view ?_, .inr completes⟩
      rw [stagingTx_bufferVc, drop_append_of_le_length (recorded jump member)]
      exact mem_filterMap.mpr ⟨_, mem_append_right _ (newViewForks_mem_notified ahead completes), rfl⟩
    · have kept := after.buffer jump member (vc.view, vc.configNum) (by
        rw [vcBuffer_bufferVc_eq ahead, if_pos rfl, if_neg completes]
        exact insert_ne_empty _ _ _)
      exact ⟨kept.1, .inl kept.2⟩
  · intro fresh
    constructor
    · intro jump member key nonempty
      rw [vcBuffer_bufferVc_eq ahead] at nonempty
      by_cases same : key = (vc.view, vc.configNum)
      · rw [if_pos same] at nonempty
        by_cases completes : Completes config pacemaker sender vc
        · exact absurd (if_pos completes) nonempty
        · subst same
          exact ⟨(fresh jump member).1, (fresh jump member).2.resolve_right completes⟩
      · rw [if_neg same] at nonempty
        exact forgets.buffer jump member key nonempty
    · intro jump member view sent
      rw [stagingTx_bufferVc, drop_append_of_le_length (recorded jump member), filterMap_append, mem_append] at sent
      rcases sent with earlier | new
      · exact forgets.sent jump member view earlier
      · obtain ⟨_, isNew, isView⟩ := mem_filterMap.mp new
        rw [viewOf_notified isNew] at isView
        exact some.inj isView ▸ (fresh jump member).1

theorem forgets_congr (buffer : next.vcBuffer = pacemaker.vcBuffer) (sent : next.stagingTx = pacemaker.stagingTx) :
    Forgets ⟨next, jumped⟩ ↔ Forgets ⟨pacemaker, jumped⟩ := by
  constructor
  · intro forgets
    exact ⟨by simpa only [buffer] using forgets.buffer, by simpa only [sent] using forgets.sent⟩
  · intro forgets
    exact ⟨by simpa only [buffer] using forgets.buffer, by simpa only [sent] using forgets.sent⟩

theorem forgets_handleViewChange_iff (recorded : ∀ jump ∈ jumped, jump.sent ≤ pacemaker.stagingTx.length)
    (forgets : Forgets ⟨pacemaker, jumped⟩)
    (ran : pacemaker.handleViewChange config store server vc sender = some (next, server')) :
    Forgets ⟨next, jumped⟩ ↔ FreshVc config store ⟨pacemaker, jumped⟩ server vc sender := by
  unfold FreshVc
  rcases handleViewChange_takes ran with ⟨taken, rfl⟩ | ⟨dropped, buffer, sent⟩
  · have ahead : pacemaker.lastNewViewedView < vc.view := (of_decide_eq_true (Bool.and_eq_true_iff.mp taken).1).2.2
    rw [forgets_bufferVc_iff recorded forgets ahead]
    simp [taken]
  · rw [forgets_congr buffer sent]
    refine iff_of_true forgets fun taken => ?_
    cases dropped.symm.trans taken

theorem Forgets.jump {watched} (forgets : Forgets watched) (view configNum) :
    Forgets (watched.jump view configNum) := by
  constructor
  · intro jump member key nonempty
    simp only [Watched.jump, prune] at nonempty
    split at nonempty
    · next later =>
      cases mem_append.mp member with
      | inl earlier => exact forgets.buffer jump earlier key nonempty
      | inr last =>
        obtain rfl := mem_singleton.mp last
        exact later
    · exact absurd rfl nonempty
  · intro jump member sentView sent
    cases mem_append.mp member with
    | inl earlier => exact forgets.sent jump earlier sentView sent
    | inr last =>
      obtain rfl := mem_singleton.mp last
      simp [Watched.jump, prune] at sent

/-!
## All messages of a run
-/

def Recorded (watched : Watched) : Prop :=
  ∀ jump ∈ watched.jumped, jump.sent ≤ watched.pacemaker.stagingTx.length

theorem Recorded.handleViewChange (recorded : Recorded ⟨pacemaker, jumped⟩)
    (ran : pacemaker.handleViewChange config store server vc sender = some (next, server')) :
    Recorded ⟨next, jumped⟩ := by
  intro jump member
  have before : jump.sent ≤ pacemaker.stagingTx.length := recorded jump member
  rcases handleViewChange_takes ran with ⟨-, rfl⟩ | ⟨-, -, sent⟩
  · rw [stagingTx_bufferVc, length_append]
    omega
  · rw [sent]
    exact before

theorem Recorded.jump {watched} (recorded : Recorded watched) (view configNum) :
    Recorded (watched.jump view configNum) := by
  intro jump member
  cases mem_append.mp member with
  | inl earlier => exact recorded jump earlier
  | inr last =>
    obtain rfl := mem_singleton.mp last
    exact Nat.le_refl _

theorem Recorded.watch {watched after event} (recorded : Recorded watched)
    (taken : watch config store watched event = some after) : Recorded after := by
  cases event with
  | viewChange server vc sender =>
    obtain ⟨⟨next, server'⟩, ran, rfl⟩ := map_eq_some_iff.mp taken
    exact recorded.handleViewChange ran
  | staging server command =>
    cases command with
    | myViewJumped view configNum vc =>
      obtain ⟨⟨next, server'⟩, ran, rfl⟩ := map_eq_some_iff.mp taken
      exact (recorded.jump view configNum).handleViewChange ran
    | updateBCI | queryEnoughVCMsg | updateView | newViewForks =>
      cases taken
      exact recorded

theorem forgets_watch_iff {watched after event} (recorded : Recorded watched) (forgets : Forgets watched)
    (taken : watch config store watched event = some after) :
    Forgets after ↔ Fresh config store watched event := by
  cases event with
  | viewChange server vc sender =>
    obtain ⟨⟨next, server'⟩, ran, rfl⟩ := map_eq_some_iff.mp taken
    exact forgets_handleViewChange_iff recorded forgets ran
  | staging server command =>
    cases command with
    | myViewJumped view configNum vc =>
      obtain ⟨⟨next, server'⟩, ran, rfl⟩ := map_eq_some_iff.mp taken
      exact forgets_handleViewChange_iff (recorded.jump view configNum) (forgets.jump view configNum) ran
    | updateBCI | queryEnoughVCMsg | updateView | newViewForks =>
      cases taken
      exact iff_of_true ⟨forgets.buffer, forgets.sent⟩ trivial

/-- In every run, all states on the way forget the views before a jump exactly if no message for
such a view is taken. -/
theorem forgets_iff_fresh {events : List Event} {last : Watched}
    (ran : runAll (watch config store) {} events = some last) :
    (∀ watched, Passes (watch config store) {} events watched → Forgets watched) ↔
      AllAllowed (watch config store) (Fresh config store) {} events :=
  forall_passes_iff ⟨nofun, nofun⟩ (nofun : Recorded {}) Recorded.watch forgets_watch_iff ran

/-!
## A late message
-/

def viewChangeFor (view : Nat) : ProtoViewChange := { emptyFork with view }

def followedJump : List Event :=
  [.viewChange {} (viewChangeFor 1) (.auth "node1" 0), .staging {} (.myViewJumped 3 1 (viewChangeFor 3)),
    .viewChange {} (viewChangeFor 3) (.auth "node1" 0)]

theorem forgets_of_followedJump :
    ∃ last, runAll (watch threeMembers fun _ => none) {} followedJump = some last ∧ Forgets last ∧
      last.pacemaker.stagingTx.filterMap viewOf = [1, 3, 3] := by
  have ran : (runAll (watch threeMembers fun _ => none) {} followedJump).any (fun last =>
      decide (last.pacemaker.stagingTx.filterMap viewOf = [1, 3, 3])) = true := by decide +kernel
  obtain ⟨last, ran, sent⟩ := (any_eq_true _ _).mp ran
  have each := (forgets_iff_fresh ran).mpr (by decide +kernel)
  exact ⟨last, ran, each last ⟨followedJump, prefix_rfl, ran⟩, of_decide_eq_true sent⟩

def lateMessages : List Event :=
  [.staging {} (.myViewJumped 3 1 (viewChangeFor 3)), .viewChange {} (viewChangeFor 1) (.auth "node1" 0),
    .viewChange {} (viewChangeFor 1) (.auth "node3" 0)]

/-- The first of them is kept, and with the second one view 1 is announced. -/
theorem old_view_announced :
    (∃ kept, runAll (watch threeMembers fun _ => none) {} (lateMessages.take 2) = some kept ∧
      (kept.jumped.map (·.view) = [3] ∧ (kept.pacemaker.vcBuffer (1, 1)).keys = [.auth "node1" 0]) ∧ ¬ Forgets kept) ∧
    ∃ last, runAll (watch threeMembers fun _ => none) {} lateMessages = some last ∧
      (last.jumped.map (fun jump => (jump.view, jump.sent)) = [(3, 0)] ∧
        last.pacemaker.stagingTx.filterMap viewOf = [3, 1]) ∧ ¬ Forgets last := by
  have kept_ran : (runAll (watch threeMembers fun _ => none) {} (lateMessages.take 2)).any (fun kept =>
      decide (kept.jumped.map (·.view) = [3] ∧
        (kept.pacemaker.vcBuffer (1, 1)).keys = [.auth "node1" 0])) = true := by
    decide +kernel
  have last_ran : (runAll (watch threeMembers fun _ => none) {} lateMessages).any (fun last =>
      decide (last.jumped.map (fun jump => (jump.view, jump.sent)) = [(3, 0)] ∧
        last.pacemaker.stagingTx.filterMap viewOf = [3, 1])) = true := by decide +kernel
  constructor
  · obtain ⟨kept, ran, holds⟩ := (any_eq_true _ _).mp kept_ran
    obtain ⟨jumps, keys⟩ := of_decide_eq_true holds
    refine ⟨kept, ran, ⟨jumps, keys⟩, fun forgets => ?_⟩
    obtain ⟨jump, member, isThree⟩ := mem_map.mp (jumps ▸ mem_singleton_self 3)
    have later := forgets.buffer jump member (1, 1) fun empty => by simp [empty] at keys
    omega
  · obtain ⟨last, ran, holds⟩ := (any_eq_true _ _).mp last_ran
    obtain ⟨jumps, announced⟩ := of_decide_eq_true holds
    refine ⟨last, ran, ⟨jumps, announced⟩, fun forgets => ?_⟩
    obtain ⟨jump, member, isThree⟩ := mem_map.mp (jumps ▸ mem_singleton_self (3, 0))
    obtain ⟨_, first⟩ := Prod.mk.inj isThree
    have later := forgets.sent jump member 1 (by rw [first, drop_zero, announced]; decide)
    omega

end PirateShip.Pacemaker
