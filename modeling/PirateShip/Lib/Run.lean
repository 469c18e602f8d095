/-! Runs of a partial step function: which states are reached when every step
taken satisfies a condition on the state before it. -/

set_option autoImplicit false

namespace StepSystem

open List Option

variable {State Event : Type} (step : State → Event → Option State)

/-- `finish` is reached from `start` by steps that are all `allowed`. -/
inductive Reaches (allowed : State → Event → Prop) (start : State) : State → Prop where
  | refl : Reaches allowed start start
  | tail {before after : State} {event : Event} :
      Reaches allowed start before → allowed before event → step before event = some after →
        Reaches allowed start after

/-- Every step is allowed. -/
def Any (_ : State) (_ : Event) : Prop := True

/-- The state after a list of events, unless a step fails. -/
def runAll : State → List Event → Option State
  | state, [] => some state
  | state, event :: rest => (step state event).bind fun after => runAll after rest

/-- Each event of the list is allowed in the state it meets. -/
def AllAllowed (allowed : State → Event → Prop) : State → List Event → Prop
  | _, [] => True
  | state, event :: rest =>
    allowed state event ∧ ∀ after ∈ step state event, AllAllowed allowed after rest

instance decidableAllAllowed {allowed : State → Event → Prop} [∀ state event, Decidable (allowed state event)] :
    ∀ (state : State) (events : List Event), Decidable (AllAllowed step allowed state events)
  | _, [] => isTrue trivial
  | state, event :: rest =>
    match taken : step state event with
    | none => decidable_of_iff (allowed state event) (by simp [AllAllowed, taken])
    | some after =>
      have : Decidable (AllAllowed step allowed after rest) := decidableAllAllowed after rest
      decidable_of_iff (allowed state event ∧ AllAllowed step allowed after rest)
        (by simp [AllAllowed, taken])

theorem runAll_append (state events more) :
    runAll step state (events ++ more) = (runAll step state events).bind fun after => runAll step after more := by
  induction events generalizing state with
  | nil => rfl
  | cons event rest ih =>
    simp only [runAll, bind_assoc]
    exact congrArg _ (funext ih)

theorem runAll_singleton (state event) : runAll step state [event] = step state event := bind_fun_some _

theorem exists_runAll_of_append {state finish events more} (ran : runAll step state (events ++ more) = some finish) :
    ∃ middle, runAll step state events = some middle ∧ runAll step middle more = some finish :=
  bind_eq_some_iff.mp (runAll_append step state events more ▸ ran)

variable {step} {allowed other : State → Event → Prop} {start middle finish : State}

theorem Reaches.invariant {motive : State → Prop} (reached : Reaches step allowed start finish)
    (initial : motive start)
    (preserved : ∀ {before after : State} {event : Event},
      motive before → allowed before event → step before event = some after → motive after) :
    motive finish := by
  induction reached with
  | refl => exact initial
  | tail _ permitted taken ih => exact preserved ih permitted taken

theorem Reaches.trans (first : Reaches step allowed start middle)
    (second : Reaches step allowed middle finish) : Reaches step allowed start finish := by
  induction second with
  | refl => exact first
  | tail _ permitted taken ih => exact ih.tail permitted taken

theorem Reaches.mono (reached : Reaches step allowed start finish)
    (weaker : ∀ {state event}, allowed state event → other state event) :
    Reaches step other start finish := by
  induction reached with
  | refl => exact .refl
  | tail _ permitted taken ih => exact ih.tail (weaker permitted) taken

theorem reaches_of_runAll {events} (ran : runAll step start events = some finish)
    (permitted : AllAllowed step allowed start events) : Reaches step allowed start finish := by
  induction events generalizing start with
  | nil =>
    obtain rfl : start = finish := by simpa [runAll] using ran
    exact .refl
  | cons event rest ih =>
    obtain ⟨after, taken, ran⟩ := bind_eq_some_iff.mp ran
    exact (Reaches.refl.tail permitted.1 taken).trans (ih ran (permitted.2 after taken))

theorem AllAllowed.of_append {events more} (permitted : AllAllowed step allowed start (events ++ more)) :
    AllAllowed step allowed start events := by
  induction events generalizing start with
  | nil => trivial
  | cons event rest ih => exact ⟨permitted.1, fun after taken => ih (permitted.2 after taken)⟩

theorem allAllowed_any (state events) : AllAllowed step Any state events := by
  induction events generalizing state with
  | nil => trivial
  | cons event rest ih => exact ⟨trivial, fun after _ => ih after⟩

/-- A condition on an image of the state, which takes the same steps, is one on the events alone. -/
theorem allAllowed_map {Other : Type} {otherStep : Other → Event → Option Other} {otherAllowed : Other → Event → Prop}
    (image : State → Other) (steps : ∀ {state after : State} {event : Event}, step state event = some after →
      otherStep (image state) event = some (image after))
    {events} (ran : runAll step start events = some finish) :
    AllAllowed step (fun state => otherAllowed (image state)) start events ↔
      AllAllowed otherStep otherAllowed (image start) events := by
  induction events generalizing start with
  | nil => rfl
  | cons event rest ih =>
    obtain ⟨after, taken, ran⟩ := bind_eq_some_iff.mp ran
    simp only [AllAllowed, taken, steps taken, mem_some_iff, forall_eq']
    rw [ih ran]

theorem reaches_any_of_runAll {events} (ran : runAll step start events = some finish) :
    Reaches step Any start finish :=
  reaches_of_runAll ran (allAllowed_any start events)

theorem exists_reaches (events) {property} [DecidablePred property] (permitted : AllAllowed step allowed start events)
    (ran : (runAll step start events).any (fun finish => decide (property finish)) = true) :
    ∃ finish, Reaches step allowed start finish ∧ property finish := by
  obtain ⟨finish, ran, holds⟩ := (any_eq_true _ _).mp ran
  exact ⟨finish, reaches_of_runAll ran permitted, of_decide_eq_true holds⟩

theorem exists_reaches_and (events) {property conclusion : State → Prop} [DecidablePred property]
    (permitted : AllAllowed step allowed start events)
    (ran : (runAll step start events).any (fun finish => decide (property finish)) = true)
    (follows : ∀ {finish}, Reaches step allowed start finish → property finish → conclusion finish) :
    ∃ finish, Reaches step allowed start finish ∧ property finish ∧ conclusion finish := by
  obtain ⟨finish, reached, holds⟩ := exists_reaches events permitted ran
  exact ⟨finish, reached, holds, follows reached holds⟩

theorem exists_reaches_any (events) {property} [DecidablePred property]
    (ran : (runAll step start events).any (fun finish => decide (property finish)) = true) :
    ∃ finish, Reaches step Any start finish ∧ property finish :=
  exists_reaches events (allAllowed_any start events) ran

variable (step) in
/-- A state on the way through a list of events. -/
def Passes (start : State) (events : List Event) (state : State) : Prop :=
  ∃ before, before <+: events ∧ runAll step start before = some state

theorem passes_cons_iff {event rest state} (taken : step start event = some middle) :
    Passes step start (event :: rest) state ↔ state = start ∨ Passes step middle rest state := by
  constructor
  · rintro ⟨before, within, ran⟩
    cases before with
    | nil => exact .inl (some.inj ran).symm
    | cons other before =>
      obtain ⟨rfl, within_rest⟩ := cons_prefix_cons.mp within
      rw [runAll, taken] at ran
      exact .inr ⟨before, within_rest, ran⟩
  · rintro (rfl | ⟨before, within, ran⟩)
    · exact ⟨[], nil_prefix, rfl⟩
    · refine ⟨event :: before, cons_prefix_cons.mpr ⟨rfl, within⟩, ?_⟩
      rw [runAll, taken]
      exact ran

/-- The invariant rule both ways: if the condition is what a step needs to keep the motive, the
motive holds all the way exactly if every event meets the condition. -/
theorem forall_passes_iff {motive invariant : State → Prop} {events : List Event} (initial : motive start)
    (holds : invariant start)
    (kept : ∀ {state after : State} {event : Event}, invariant state →
      step state event = some after → invariant after)
    (needs : ∀ {state after : State} {event : Event}, invariant state → motive state → step state event = some after →
      (motive after ↔ allowed state event))
    (ran : runAll step start events = some finish) :
    (∀ state, Passes step start events state → motive state) ↔ AllAllowed step allowed start events := by
  induction events generalizing start with
  | nil =>
    refine iff_of_true (fun state passes => ?_) trivial
    obtain ⟨_, within, here⟩ := passes
    rw [prefix_nil.mp within] at here
    exact some.inj here ▸ initial
  | cons event rest ih =>
    obtain ⟨middle, taken, ran⟩ := bind_eq_some_iff.mp ran
    have needs_first := needs holds initial taken
    have only : (∀ after ∈ step start event, AllAllowed step allowed after rest) ↔
        AllAllowed step allowed middle rest := by simp [taken]
    simp only [passes_cons_iff taken, AllAllowed, only]
    constructor
    · intro each
      have next := each middle (.inr ⟨[], nil_prefix, rfl⟩)
      exact ⟨needs_first.mp next, (ih next (kept holds taken) ran).mp fun state passes => each state (.inr passes)⟩
    · rintro ⟨permitted, others⟩ state (rfl | passes)
      · exact initial
      · exact (ih (needs_first.mpr permitted) (kept holds taken) ran).mpr others state passes

theorem runAll_iff_allAllowed {motive : State → Prop} {events : List Event} (initial : motive start)
    (lost : ∀ {state after : State} {event : Event}, event ∈ events → step state event = some after →
      motive after → motive state)
    (needs : ∀ {state after : State} {event : Event}, motive state → step state event = some after →
      (motive after ↔ allowed state event))
    (ran : runAll step start events = some finish) : motive finish ↔ AllAllowed step allowed start events := by
  have back : ∀ {first last : State} {rest : List Event}, rest ⊆ events → runAll step first rest = some last →
      motive last → motive first := by
    intro first last rest within ran holds
    induction rest generalizing first with
    | nil => exact some.inj ran ▸ holds
    | cons event rest ih =>
      obtain ⟨middle, taken, ran⟩ := bind_eq_some_iff.mp ran
      obtain ⟨here, others⟩ := cons_subset.mp within
      exact lost here taken (ih others ran)
  induction events generalizing start with
  | nil => exact iff_of_true (some.inj ran ▸ initial) trivial
  | cons event rest ih =>
    obtain ⟨middle, taken, ran⟩ := bind_eq_some_iff.mp ran
    have later := subset_cons_self event rest
    have rule := fun next : motive middle =>
      ih next (fun here => lost (later here)) ran fun within => back (List.Subset.trans within later)
    constructor
    · intro holds
      have next := back later ran holds
      refine ⟨(needs initial taken).mp next, fun after taken' => ?_⟩
      obtain rfl := some.inj (taken.symm.trans taken')
      exact (rule next).mp holds
    · rintro ⟨permitted, others⟩
      exact (rule ((needs initial taken).mpr permitted)).mpr (others middle taken)

/-- Two systems that take the same step. -/
def both (step : State → Event → Option State) (pair : State × State) (event : Event) : Option (State × State) :=
  (step pair.1 event).bind fun first => (step pair.2 event).map fun second => (first, second)

theorem both_eq_some {pair after event} :
    both step pair event = some after ↔ step pair.1 event = some after.1 ∧ step pair.2 event = some after.2 := by
  constructor
  · intro taken
    obtain ⟨_, taken_first, mapped⟩ := bind_eq_some_iff.mp taken
    obtain ⟨_, taken_second, rfl⟩ := map_eq_some_iff.mp mapped
    exact ⟨taken_first, taken_second⟩
  · rintro ⟨taken_first, taken_second⟩
    rw [both, taken_first, taken_second]
    rfl

end StepSystem
