import Mathlib.Data.List.AList
import Mathlib.Data.List.Induction

/-! Two inputs that meet under a key: values are registered, acknowledgements
name the key, and either may come first. Registrations can be cancelled. What
becomes of one registration is said by a small automaton, and two maps, one for
each side that waits for the other, follow it. -/

set_option autoImplicit false

namespace Rendezvous

open List Option

inductive Event (Key Value Ack : Type) where
  | register (key : Key) (value : Value)
  | acknowledge (key : Key) (ack : Ack)
  | cancel
  | resume

/-- What has become of a registration. -/
inductive Fate (Ack : Type) where
  | expected (early : Option Ack)
  | waiting
  | dropped
  | joined (ack : Ack)

variable {Key Value Ack : Type}

namespace Fate

def register (refused : Bool) : Fate Ack → Fate Ack
  | expected early =>
    if refused then dropped
    else
      match early with
      | none => waiting
      | some ack => joined ack
  | fate => fate

def acknowledge (ack : Ack) : Fate Ack → Fate Ack
  | expected _ => expected (some ack)
  | waiting => joined ack
  | fate => fate

def drop : Fate Ack → Fate Ack
  | waiting => dropped
  | fate => fate

end Fate

/-- Whether registrations are turned away after an event. -/
def Event.cancelling (before : Bool) : Event Key Value Ack → Bool
  | .cancel => true
  | .resume => false
  | _ => before

/-- Whether registrations are turned away after a list of events. -/
def cancelling (events : List (Event Key Value Ack)) : Bool := events.foldl Event.cancelling false

@[simp]
theorem cancelling_concat (events : List (Event Key Value Ack)) (event : Event Key Value Ack) :
    cancelling (events ++ [event]) = event.cancelling (cancelling events) := by
  simp [cancelling]

section Registrations

variable {key : Key} {value : Value} {events before after : List (Event Key Value Ack)}

/-- A registration, with the events before and after it. -/
def Registered (events : List (Event Key Value Ack)) (key : Key) (value : Value)
    (before after : List (Event Key Value Ack)) : Prop :=
  events = before ++ .register key value :: after ∧ .register key value ∉ before

theorem Registered.concat (registered : Registered events key value before after) (event) :
    Registered (events ++ [event]) key value before (after ++ [event]) :=
  ⟨by simp [registered.1], registered.2⟩

end Registrations

section Fates

variable [DecidableEq Key] [DecidableEq Value]

/-- A key may be refused whatever happens, and a cancellation may also drop what
waits. -/
structure Policy (Key : Type) where
  refused : Key → Bool
  drops : Bool

variable (policy : Policy Key) (key : Key) (value : Value)

def Event.move (cancelling : Bool) (fate : Fate Ack) : Event Key Value Ack → Fate Ack
  | .register k v => if k = key ∧ v = value then fate.register (policy.refused key || cancelling) else fate
  | .acknowledge k ack => if k = key then fate.acknowledge ack else fate
  | .cancel => if policy.drops then fate.drop else fate
  | .resume => fate

/-- Whether registrations are turned away, and the fate of one. -/
def track (state : Bool × Fate Ack) (event : Event Key Value Ack) : Bool × Fate Ack :=
  (event.cancelling state.1, event.move policy key value state.1 state.2)

def fate (events : List (Event Key Value Ack)) : Fate Ack :=
  (events.foldl (track policy key value) (false, .expected none)).2

variable {policy key value} {events before acks after : List (Event Key Value Ack)} {event : Event Key Value Ack}

theorem foldl_track_fst (state : Bool × Fate Ack) :
    (events.foldl (track policy key value) state).1 = events.foldl Event.cancelling state.1 := by
  induction events generalizing state with
  | nil => rfl
  | cons event events ih => exact ih _

@[simp]
theorem fate_concat : fate policy key value (events ++ [event]) =
    event.move policy key value (cancelling events) (fate policy key value events) := by
  simp only [fate, foldl_append, foldl_cons, foldl_nil, track, foldl_track_fst, cancelling]

/-- A fate, said of the events that led to it. -/
def Explains (policy : Policy Key) (key : Key) (value : Value) (events : List (Event Key Value Ack)) : Fate Ack → Prop
  | .expected early => .register key value ∉ events ∧
      (∀ ack, early = some ack → .acknowledge key ack ∈ events) ∧
      (early = none → ∀ ack, .acknowledge key ack ∉ events)
  | .waiting => ∃ before after, Registered events key value before after ∧
      (policy.refused key || cancelling before) = false ∧ (policy.drops = true → .cancel ∉ after) ∧
      ∀ ack, .acknowledge key ack ∉ events
  | .joined ack => ∃ before after, Registered events key value before after ∧
      (policy.refused key || cancelling before) = false ∧ .acknowledge key ack ∈ events
  | .dropped => ∃ before after, Registered events key value before after ∧
      ((policy.refused key || cancelling before) = true ∨ policy.drops = true ∧ .cancel ∈ after)

theorem Explains.of_expected {early} (explains : Explains policy key value events (.expected early)) :
    Explains policy key value (events ++ [event])
      (event.move policy key value (cancelling events) (.expected early)) := by
  obtain ⟨fresh, found, none_found⟩ := explains
  cases event with
  | register k v =>
    by_cases same : k = key ∧ v = value
    · obtain ⟨rfl, rfl⟩ := same
      have registered : Registered (events ++ [.register k v]) k v events [] := ⟨rfl, fresh⟩
      cases refused : policy.refused k || cancelling events with
      | true =>
        simp only [Event.move, refused]
        exact ⟨events, [], registered, .inl refused⟩
      | false =>
        cases early with
        | none =>
          simp only [Event.move, refused]
          refine ⟨events, [], registered, refused, fun _ => not_mem_nil, fun ack => ?_⟩
          simpa using none_found rfl ack
        | some ack =>
          simp only [Event.move, refused]
          exact ⟨events, [], registered, refused, mem_append_left _ (found ack rfl)⟩
    · simp only [Event.move, same]
      refine ⟨?_, ?_, ?_⟩
      · simp only [mem_append, mem_singleton, Event.register.injEq, not_or]
        exact ⟨fresh, fun equal => same ⟨equal.1.symm, equal.2.symm⟩⟩
      · exact fun ack is => mem_append_left _ (found ack is)
      · intro is ack
        simpa using none_found is ack
  | acknowledge k ack =>
    by_cases same : k = key
    · subst same
      simp only [Event.move]
      refine ⟨by simpa using fresh, ?_, ?_⟩
      · intro other is
        obtain rfl := some.inj is
        simp
      · intro is
        cases is
    · simp only [Event.move, same]
      refine ⟨by simpa using fresh, fun other is => mem_append_left _ (found other is), ?_⟩
      intro is other
      simpa [Ne.symm same] using none_found is other
  | cancel =>
    have unchanged : Event.move policy key value (cancelling events) (.expected early)
        (.cancel : Event Key Value Ack) =
        .expected early := by
      simp [Event.move, Fate.drop]
    rw [unchanged]
    exact ⟨by simpa using fresh, fun ack is => mem_append_left _ (found ack is), by simpa using none_found⟩
  | resume =>
    exact ⟨by simpa using fresh, fun ack is => mem_append_left _ (found ack is), by simpa using none_found⟩

theorem fate_explains (policy : Policy Key) (key : Key) (value : Value) (events : List (Event Key Value Ack)) :
    Explains policy key value events (fate policy key value events) := by
  induction events using List.reverseRecOn with
  | nil =>
    refine ⟨not_mem_nil, ?_, fun _ ack => not_mem_nil⟩
    intro ack found
    cases found
  | append_singleton events event ih =>
    rw [fate_concat]
    cases earlier : fate policy key value events with
    | expected early =>
      rw [earlier] at ih
      exact ih.of_expected
    | waiting =>
      rw [earlier] at ih
      obtain ⟨before, after, registered, accepted, kept, none_found⟩ := ih
      have registered := registered.concat event
      cases event with
      | register k v =>
        have unchanged : Event.move policy key value (cancelling events) .waiting
              (.register k v : Event Key Value Ack) =
            .waiting := by
          simp [Event.move, Fate.register]
        rw [unchanged]
        exact ⟨before, _, registered, accepted, by simpa using kept, by simpa using none_found⟩
      | acknowledge k ack =>
        by_cases same : k = key
        · subst same
          simp only [Event.move]
          exact ⟨before, _, registered, accepted, by simp⟩
        · simp only [Event.move, same]
          exact ⟨before, _, registered, accepted, by simpa using kept,
            fun other => by simpa [Ne.symm same] using none_found other⟩
      | cancel =>
        cases drops : policy.drops with
        | true =>
          simp only [Event.move, drops]
          exact ⟨before, _, registered, .inr ⟨drops, by simp⟩⟩
        | false =>
          simp only [Event.move, drops]
          refine ⟨before, _, registered, accepted, fun is => ?_, by simpa using none_found⟩
          rw [drops] at is
          cases is
      | resume =>
        exact ⟨before, _, registered, accepted, by simpa using kept, by simpa using none_found⟩
    | dropped =>
      rw [earlier] at ih
      obtain ⟨before, after, registered, cause⟩ := ih
      have unchanged : event.move policy key value (cancelling events) .dropped = .dropped := by
        cases event <;> simp [Event.move, Fate.register, Fate.acknowledge, Fate.drop]
      rw [unchanged]
      exact ⟨before, _, registered.concat event, cause.imp_right fun both =>
        ⟨both.1, mem_append_left _ both.2⟩⟩
    | joined ack =>
      rw [earlier] at ih
      obtain ⟨before, after, registered, accepted, found⟩ := ih
      have unchanged : event.move policy key value (cancelling events) (.joined ack) = .joined ack := by
        cases event <;> simp [Event.move, Fate.register, Fate.acknowledge, Fate.drop]
      rw [unchanged]
      exact ⟨before, _, registered.concat event, accepted, mem_append_left _ found⟩

theorem registered_of_joined {ack} (joins : fate policy key value events = .joined ack) :
    .register key value ∈ events := by
  have explained := fate_explains policy key value events
  rw [joins] at explained
  obtain ⟨_, _, registered, _⟩ := explained
  exact registered.1 ▸ mem_append_right _ mem_cons_self

theorem accepted_of_joined {ack} (joins : fate policy key value events = .joined ack) :
    policy.refused key = false := by
  have explained := fate_explains policy key value events
  rw [joins] at explained
  obtain ⟨_, _, _, accepted, _⟩ := explained
  exact (Bool.or_eq_false_iff.mp accepted).1

theorem registered_of_waiting (waits : fate policy key value events = .waiting) : .register key value ∈ events := by
  have explained := fate_explains policy key value events
  rw [waits] at explained
  obtain ⟨_, _, registered, _⟩ := explained
  exact registered.1 ▸ mem_append_right _ mem_cons_self

/-!
## A registration and acknowledgements in either order
-/

/-- All acknowledgements of a key say the same. -/
def Consistent (events : List (Event Key Value Ack)) (key : Key) : Prop :=
  ∀ ack other, .acknowledge key ack ∈ events → .acknowledge key other ∈ events → ack = other

theorem track_acknowledge (state : Bool × Fate Ack) (k ack) :
    track policy key value state (.acknowledge k ack : Event Key Value Ack) =
      (state.1, if k = key then state.2.acknowledge ack else state.2) := rfl

/-- Events that neither register a value nor cancel. -/
def Event.Beside (key : Key) (value : Value) : Event Key Value Ack → Prop
  | .register k v => ¬ (k = key ∧ v = value)
  | .acknowledge _ _ => True
  | .cancel | .resume => False

theorem foldl_track_beside (policy value) (beside : ∀ event ∈ acks, event.Beside key value)
    (consistent : Consistent acks key) (state : Bool × Fate Ack) :
    ((∀ ack, .acknowledge key ack ∉ acks) ∧ acks.foldl (track policy key value) state = state) ∨
      ∃ ack, .acknowledge key ack ∈ acks ∧
        acks.foldl (track policy key value) state = (state.1, state.2.acknowledge ack) := by
  induction acks generalizing state with
  | nil => exact .inl ⟨fun ack => not_mem_nil, rfl⟩
  | cons event acks ih =>
    have rest := ih (fun other member => beside other (mem_cons_of_mem _ member))
      (fun ack other found again => consistent ack other (mem_cons_of_mem _ found) (mem_cons_of_mem _ again))
    have first := beside event mem_cons_self
    rw [foldl_cons]
    cases event with
    | register k v =>
      have unmoved : track policy key value state (.register k v : Event Key Value Ack) = state := by
        simp only [Event.Beside] at first
        simp [track, Event.move, Event.cancelling, first]
      rw [unmoved]
      obtain ⟨missing, unchanged⟩ | ⟨ack, found, moved⟩ := rest state
      · exact .inl ⟨by simpa using missing, unchanged⟩
      · exact .inr ⟨ack, mem_cons_of_mem _ found, moved⟩
    | acknowledge k ack =>
      rw [track_acknowledge]
      by_cases same : k = key
      · subst same
        rw [if_pos rfl]
        refine .inr ⟨ack, mem_cons_self, ?_⟩
        obtain ⟨_, unchanged⟩ | ⟨again, found, moved⟩ := rest (state.1, state.2.acknowledge ack)
        · exact unchanged
        · obtain rfl := consistent ack again mem_cons_self (mem_cons_of_mem _ found)
          rw [moved]
          cases state.2 <;> rfl
      · rw [if_neg same]
        obtain ⟨missing, unchanged⟩ | ⟨ack, found, moved⟩ := rest state
        · exact .inl ⟨fun ack => by simpa [Ne.symm same] using missing ack, unchanged⟩
        · exact .inr ⟨ack, mem_cons_of_mem _ found, moved⟩
    | cancel | resume => exact first.elim

theorem fate_of_fresh (policy) (fresh : .register key value ∉ events) :
    ∃ early, fate policy key value events = .expected early ∧
      ∀ ack, early = some ack → .acknowledge key ack ∈ events := by
  have explained := fate_explains policy key value events
  cases reached : fate policy key value events with
  | expected early =>
    rw [reached] at explained
    exact ⟨early, rfl, explained.2.1⟩
  | waiting | dropped | joined ack =>
    rw [reached] at explained
    obtain ⟨_, _, registered, _⟩ := explained
    exact absurd (registered.1 ▸ mem_append_right _ mem_cons_self) fresh

theorem register_acknowledge {early : Option Ack} {ack : Ack}
    (consistent : ∀ first, early = some first → first = ack) (refused) :
    ((Fate.expected early).register refused).acknowledge ack = (Fate.expected (some ack)).register refused := by
  cases refused with
  | true => rfl
  | false =>
    cases early with
    | none => rfl
    | some first =>
      obtain rfl := consistent first rfl
      rfl

theorem fate_swap_self (beside : ∀ event ∈ acks, event.Beside key value)
    (consistent : Consistent (before ++ acks) key) (fresh : .register key value ∉ before) :
    fate policy key value (before ++ .register key value :: (acks ++ after)) =
      fate policy key value (before ++ acks ++ .register key value :: after) := by
  have consistent_acks : Consistent acks key := fun ack other found again =>
    consistent ack other (mem_append_right _ found) (mem_append_right _ again)
  obtain ⟨early, expected, found_early⟩ := fate_of_fresh policy fresh
  simp only [fate, foldl_append, foldl_cons] at expected ⊢
  congr 2
  obtain ⟨state, reached⟩ : ∃ state, state = before.foldl (track policy key value) (false, .expected none) := ⟨_, rfl⟩
  rw [← reached] at expected ⊢
  have registered : track policy key value state (.register key value) =
      (state.1, (Fate.expected early).register (policy.refused key || state.1)) := by
    simp [track, Event.move, Event.cancelling, expected]
  rw [registered]
  obtain ⟨missing, unchanged⟩ | ⟨ack, found, moved⟩ := foldl_track_beside policy value beside consistent_acks state
  · obtain ⟨_, unchanged'⟩ | ⟨ack, found, _⟩ := foldl_track_beside policy value beside
      consistent_acks (state.1, (Fate.expected early).register (policy.refused key || state.1))
    · rw [unchanged, unchanged', registered]
    · exact absurd found (missing ack)
  · obtain ⟨missing, _⟩ | ⟨again, found', moved'⟩ := foldl_track_beside policy value beside
      consistent_acks (state.1, (Fate.expected early).register (policy.refused key || state.1))
    · exact absurd found (missing ack)
    · obtain rfl := consistent_acks ack again found found'
      have one_ack : ∀ first, early = some first → first = ack := fun first is =>
        consistent first ack (mem_append_left _ (found_early first is)) (mem_append_right _ found)
      rw [moved, moved', register_acknowledge one_ack, expected]
      simp [track, Event.move, Event.cancelling, Fate.acknowledge]

theorem fate_swap_other {k v} (other : ¬ (k = key ∧ v = value)) :
    fate policy key value (before ++ .register k v :: (acks ++ after)) =
      fate policy key value (before ++ acks ++ .register k v :: after) := by
  have quiet (state : Bool × Fate Ack) : track policy key value state (.register k v) = state := by
    simp [track, Event.move, Event.cancelling, other]
  simp [fate, quiet]

end Fates

/-!
## The two maps
-/

/-- What is registered and not acknowledged, and what was acknowledged early. -/
structure Maps (Key Value Ack : Type) where
  waiting : AList (fun _ : Key => Value)
  early : AList (fun _ : Key => Ack)

namespace Maps

variable [DecidableEq Key]

/-- A value and an early acknowledgement leave the maps together. -/
def meet (maps : Maps Key Value Ack) (key : Key) : Maps Key Value Ack :=
  match maps.early.lookup key with
  | none => maps
  | some _ => ⟨maps.waiting.erase key, maps.early.erase key⟩

def register (maps : Maps Key Value Ack) (key : Key) (value : Value) : Maps Key Value Ack :=
  meet { maps with waiting := maps.waiting.insert key value } key

def acknowledge (maps : Maps Key Value Ack) (key : Key) (ack : Ack) : Maps Key Value Ack :=
  match maps.waiting.lookup key with
  | none => { maps with early := maps.early.insert key ack }
  | some _ => { maps with waiting := maps.waiting.erase key }

/-- The maps stand as the fate of a registration says. -/
def Holds (maps : Maps Key Value Ack) (key : Key) (value : Value) : Fate Ack → Prop
  | .expected early => maps.waiting.lookup key = none ∧ maps.early.lookup key = early
  | .waiting => maps.waiting.lookup key = some value
  | .dropped | .joined _ => maps.waiting.lookup key = none

variable {maps : Maps Key Value Ack} {key : Key} {value : Value} {fate : Fate Ack}

theorem holds_congr {other : Maps Key Value Ack} (holds : maps.Holds key value fate)
    (waiting : other.waiting.lookup key = maps.waiting.lookup key)
    (early : other.early.lookup key = maps.early.lookup key) : other.Holds key value fate := by
  cases fate with
  | expected _ => exact ⟨waiting.trans holds.1, early.trans holds.2⟩
  | waiting | dropped | joined _ => exact waiting.trans holds

theorem Holds.register_self {early} (holds : maps.Holds key value (.expected early)) :
    (maps.register key value).Holds key value ((Fate.expected early).register false) := by
  obtain ⟨_, found⟩ := holds
  cases early with
  | none => simp [register, meet, found, Fate.register, Holds]
  | some ack => simp [register, meet, found, Fate.register, Holds]

variable (holds : maps.Holds key value fate)
include holds

theorem Holds.register_other {k} (v) (other : key ≠ k) : (maps.register k v).Holds key value fate := by
  refine holds_congr holds ?_ ?_ <;> unfold register meet <;> split <;> simp [other]

theorem Holds.acknowledge_self (ack) : (maps.acknowledge key ack).Holds key value (fate.acknowledge ack) := by
  cases fate with
  | expected early =>
    obtain ⟨absent, _⟩ := holds
    simp [acknowledge, absent, Fate.acknowledge, Holds]
  | waiting =>
    have present : maps.waiting.lookup key = some value := holds
    simp [acknowledge, present, Fate.acknowledge, Holds]
  | dropped | joined _ =>
    have absent : maps.waiting.lookup key = none := holds
    simp [acknowledge, absent, Fate.acknowledge, Holds]

theorem Holds.acknowledge_other {k} (ack) (other : key ≠ k) : (maps.acknowledge k ack).Holds key value fate := by
  refine holds_congr holds ?_ ?_ <;> unfold acknowledge <;> split <;> simp [other]

omit holds

theorem lookup_waiting_register {k v} (found : (maps.register k v).waiting.lookup key = some value) :
    key = k ∧ value = v ∨ maps.waiting.lookup key = some value := by
  unfold register meet at found
  by_cases same : key = k
  · subst same
    split at found
    · rw [AList.lookup_insert] at found
      exact .inl ⟨rfl, (some.inj found).symm⟩
    · rw [AList.lookup_erase] at found
      cases found
  · right
    split at found
    · rwa [AList.lookup_insert_ne same] at found
    · rwa [AList.lookup_erase_ne same, AList.lookup_insert_ne same] at found

theorem lookup_waiting_acknowledge {k ack} (found : (maps.acknowledge k ack).waiting.lookup key = some value) :
    maps.waiting.lookup key = some value := by
  unfold acknowledge at found
  split at found
  · exact found
  · by_cases same : key = k
    · subst same
      rw [AList.lookup_erase] at found
      cases found
    · rwa [AList.lookup_erase_ne same] at found

theorem Holds.drop (holds : maps.Holds key value fate) : Holds { maps with waiting := ∅ } key value fate.drop := by
  cases fate with
  | expected _ => exact ⟨AList.lookup_empty key, holds.2⟩
  | waiting | dropped | joined _ => exact AList.lookup_empty key

end Maps

/-!
## Maps and events
-/

section Follows

variable [DecidableEq Key] [DecidableEq Value] {Kept : Type} {policy : Policy Key} {project : Value → Kept}
  {events : List (Event Key Value Ack)} {maps : Maps Key Kept Ack} {key : Key} {value : Value} {ack : Ack}

/-- Maps that keep a part of each value stand as the events say. -/
structure Follows (policy : Policy Key) (project : Value → Kept) (events : List (Event Key Value Ack))
    (maps : Maps Key Kept Ack) : Prop where
  holds : ∀ key value, policy.refused key = false → (∀ other, .register key other ∈ events → other = value) →
    maps.Holds key (project value) (fate policy key value events)
  waiting : ∀ key kept, maps.waiting.lookup key = some kept →
    policy.refused key = false ∧ ∃ value, .register key value ∈ events ∧ kept = project value

theorem follows_empty : Follows policy project ([] : List (Event Key Value Ack)) ⟨∅, ∅⟩ where
  holds key _ _ _ := ⟨AList.lookup_empty key, AList.lookup_empty key⟩
  waiting key kept found := by
    cases found

variable (follows : Follows policy project events maps)
include follows

theorem Follows.expected (accepted : policy.refused key = false) (fresh : ∀ other, .register key other ∉ events)
    (value) :
    fate policy key value events = .expected (maps.early.lookup key) ∧
      maps.Holds key (project value) (.expected (maps.early.lookup key)) ∧
      ∀ ack, maps.early.lookup key = some ack → .acknowledge key ack ∈ events := by
  obtain ⟨_, expected, found⟩ := fate_of_fresh policy (fresh value)
  have holds := follows.holds key value accepted fun other member => absurd member (fresh other)
  rw [expected] at holds
  obtain rfl := holds.2
  exact ⟨expected, holds, found⟩

theorem Follows.register (accepted : policy.refused key = false ∧ cancelling events = false)
    (fresh : ∀ other, .register key other ∉ events) :
    Follows policy project (events ++ [.register key value]) (maps.register key (project value)) where
  holds key' value' refused unique := by
    rw [fate_concat]
    by_cases same : key' = key
    · subst same
      obtain rfl := unique value (by simp)
      obtain ⟨expected, holds, _⟩ := follows.expected accepted.1 fresh value
      simp only [Event.move, expected, accepted]
      exact holds.register_self
    · have other : ¬ (key = key' ∧ value = value') := fun both => same both.1.symm
      simp only [Event.move, other]
      exact (follows.holds key' value' refused fun other member =>
        unique other (mem_append_left _ member)).register_other _ same
  waiting key' kept found := by
    obtain ⟨rfl, rfl⟩ | earlier := Maps.lookup_waiting_register found
    · exact ⟨accepted.1, value, by simp, rfl⟩
    · obtain ⟨refused, value', member, is⟩ := follows.waiting key' kept earlier
      exact ⟨refused, value', mem_append_left _ member, is⟩

theorem Follows.quiet {event}
    (same : ∀ key value, policy.refused key = false →
      (∀ other, .register key other ∈ events ++ [event] → other = value) →
      maps.Holds key (project value) (fate policy key value events) →
      maps.Holds key (project value) (fate policy key value (events ++ [event]))) :
    Follows policy project (events ++ [event]) maps where
  holds key value refused unique := same key value refused unique
    (follows.holds key value refused fun other member => unique other (mem_append_left _ member))
  waiting key kept found := by
    obtain ⟨refused, value, member, is⟩ := follows.waiting key kept found
    exact ⟨refused, value, mem_append_left _ member, is⟩

theorem Follows.refuse (refused : (policy.refused key || cancelling events) = true)
    (fresh : policy.refused key = false → ∀ other, .register key other ∉ events) :
    Follows policy project (events ++ [.register key value]) maps := by
  refine follows.quiet fun key' value' accepted unique holds => ?_
  rw [fate_concat]
  by_cases same : key = key' ∧ value = value'
  · obtain ⟨rfl, rfl⟩ := same
    obtain ⟨expected, absent, _⟩ := follows.expected accepted (fresh accepted) value
    simp only [Event.move, expected, refused]
    exact absent.1
  · simp only [Event.move, same]
    exact holds

theorem Follows.acknowledge :
    Follows policy project (events ++ [.acknowledge key ack]) (maps.acknowledge key ack) where
  holds key' value' refused unique := by
    have holds := follows.holds key' value' refused fun other member => unique other (mem_append_left _ member)
    rw [fate_concat]
    by_cases same : key = key'
    · subst same
      simp only [Event.move]
      exact holds.acknowledge_self ack
    · simp only [Event.move, same]
      exact holds.acknowledge_other ack (Ne.symm same)
  waiting key' kept found := by
    obtain ⟨refused, value', member, is⟩ := follows.waiting key' kept (Maps.lookup_waiting_acknowledge found)
    exact ⟨refused, value', mem_append_left _ member, is⟩

theorem Follows.drop (drops : policy.drops = true) :
    Follows policy project (events ++ [.cancel]) { maps with waiting := ∅ } where
  holds key value refused unique := by
    rw [fate_concat]
    simp only [Event.move, drops]
    exact (follows.holds key value refused fun other member => unique other (mem_append_left _ member)).drop
  waiting key kept found := by
    cases found

theorem Follows.keep (drops : policy.drops = false) : Follows policy project (events ++ [.cancel]) maps :=
  follows.quiet fun key value _ _ holds => by
    rw [fate_concat]
    simpa only [Event.move, drops, Bool.false_eq_true, ↓reduceIte] using holds

theorem Follows.resume : Follows policy project (events ++ [.resume]) maps :=
  follows.quiet fun key value _ _ holds => by rwa [fate_concat]

theorem Follows.lookup_waiting
    (unique : policy.refused key = false → ∀ other, .register key other ∈ events → other = value)
    (waits : fate policy key value events = .waiting) : maps.waiting.lookup key = some (project value) := by
  have explained := fate_explains policy key value events
  rw [waits] at explained
  obtain ⟨_, _, _, accepted, _⟩ := explained
  have accepted := (Bool.or_eq_false_iff.mp accepted).1
  have holds := follows.holds key value accepted (unique accepted)
  rwa [waits] at holds

theorem Follows.fate_waiting {kept} (unique : ∀ other, .register key other ∈ events → other = value)
    (found : maps.waiting.lookup key = some kept) : fate policy key value events = .waiting := by
  have holds := follows.holds key value (follows.waiting key kept found).1 unique
  cases reached : fate policy key value events with
  | waiting => rfl
  | expected early =>
    rw [reached] at holds
    cases found.symm.trans holds.1
  | dropped | joined ack =>
    rw [reached] at holds
    cases found.symm.trans holds

omit follows

/-!
## What has met
-/

/-- The registrations that met their acknowledgement. -/
structure Ledger (policy : Policy Key) (events : List (Event Key Value Ack)) (joined : List (Key × Value × Ack)) :
    Prop where
  keys : (joined.map (·.1)).Nodup
  mem : ∀ key value ack, (key, value, ack) ∈ joined ↔ fate policy key value events = .joined ack

variable {joined : List (Key × Value × Ack)}

theorem ledger_empty : Ledger policy ([] : List (Event Key Value Ack)) [] where
  keys := nodup_nil
  mem key value ack := by simp [fate]

variable (ledger : Ledger policy events joined)
include ledger

theorem Ledger.quiet {event} (same : ∀ key value ack, fate policy key value (events ++ [event]) = .joined ack ↔
      fate policy key value events = .joined ack) : Ledger policy (events ++ [event]) joined :=
  ⟨ledger.keys, fun key value ack => (ledger.mem key value ack).trans (same key value ack).symm⟩

theorem Ledger.not_mem_of_fresh (fresh : ∀ other, .register key other ∉ events) : key ∉ joined.map (·.1) := by
  intro member
  obtain ⟨⟨k, value, ack⟩, listed, rfl⟩ := mem_map.mp member
  obtain ⟨_, expected, _⟩ := fate_of_fresh policy (fresh value)
  rw [(ledger.mem k value ack).mp listed] at expected
  cases expected

theorem Ledger.register (follows : Follows policy project events maps)
    (accepted : policy.refused key = false ∧ cancelling events = false)
    (fresh : ∀ other, .register key other ∉ events) :
    Ledger policy (events ++ [.register key value])
      (joined ++ ((maps.early.lookup key).map fun ack => (key, value, ack)).toList) where
  keys := by
    cases maps.early.lookup key with
    | none => simpa using ledger.keys
    | some ack =>
      rw [map_append]
      exact nodup_append_comm.mp (nodup_cons.mpr ⟨ledger.not_mem_of_fresh fresh, ledger.keys⟩)
  mem k v ack := by
    obtain ⟨expected, _, _⟩ := follows.expected accepted.1 fresh v
    rw [mem_append, ledger.mem, fate_concat]
    by_cases same : key = k ∧ value = v
    · obtain ⟨rfl, rfl⟩ := same
      simp only [Event.move, expected, accepted]
      cases maps.early.lookup key <;> simp [Fate.register, eq_comm]
    · simp only [Event.move, same]
      refine or_iff_left fun listed => same ?_
      obtain ⟨_, _, is⟩ := map_eq_some_iff.mp (mem_toList.mp listed)
      cases is
      exact ⟨rfl, rfl⟩

omit ledger

theorem acknowledge_eq_joined {state : Fate Ack} {other : Ack} (settled : state ≠ .waiting) :
    state.acknowledge ack = .joined other ↔ state = .joined other := by
  cases state with
  | waiting => exact absurd rfl settled
  | expected _ | dropped | joined _ => simp [Fate.acknowledge]

variable (ledger : Ledger policy events joined)
include ledger

include follows

theorem Ledger.acknowledge_early (unique : policy.refused key = false →
      ∀ value other, .register key value ∈ events → .register key other ∈ events → other = value)
    (absent : maps.waiting.lookup key = none) : Ledger policy (events ++ [.acknowledge key ack]) joined := by
  refine ledger.quiet fun k v other => ?_
  rw [fate_concat]
  by_cases same : key = k
  · subst same
    simp only [Event.move]
    refine acknowledge_eq_joined fun waits => ?_
    have found := follows.lookup_waiting
      (fun accepted other => unique accepted v other (registered_of_waiting waits)) waits
    cases absent.symm.trans found
  · simp [Event.move, same]

theorem Ledger.acknowledge {kept} (unique : ∀ other, .register key other ∈ events → other = value)
    (found : maps.waiting.lookup key = some kept) :
    Ledger policy (events ++ [.acknowledge key ack]) (joined ++ [(key, value, ack)]) := by
  have waits := follows.fate_waiting unique found
  constructor
  · rw [map_append]
    refine nodup_append_comm.mp (nodup_cons.mpr ⟨fun member => ?_, ledger.keys⟩)
    obtain ⟨⟨k, v, other⟩, listed, rfl⟩ := mem_map.mp member
    have joins := (ledger.mem k v other).mp listed
    obtain rfl := unique v (registered_of_joined joins)
    rw [waits] at joins
    cases joins
  · intro k v other
    rw [mem_append, ledger.mem, fate_concat]
    by_cases same : key = k
    · subst same
      simp only [Event.move]
      by_cases value_same : v = value
      · subst value_same
        simp [waits, Fate.acknowledge, eq_comm]
      · have settled : fate policy key v events ≠ .waiting := fun waits' =>
          value_same (unique v (registered_of_waiting waits'))
        simp [acknowledge_eq_joined settled, value_same]
    · simp [Event.move, same, Ne.symm same]

omit follows

theorem Ledger.cancel : Ledger policy (events ++ [.cancel]) joined := by
  refine ledger.quiet fun key value ack => ?_
  rw [fate_concat]
  cases drops : policy.drops with
  | true =>
    simp only [Event.move, drops]
    cases fate policy key value events <;> simp [Fate.drop]
  | false => simp [Event.move, drops]

theorem Ledger.resume : Ledger policy (events ++ [.resume]) joined :=
  ledger.quiet fun key value ack => by simp [Event.move]

theorem Ledger.refuse (refused : (policy.refused key || cancelling events) = true) :
    Ledger policy (events ++ [.register key value]) joined := by
  refine ledger.quiet fun k v ack => ?_
  rw [fate_concat]
  by_cases same : key = k ∧ value = v
  · obtain ⟨rfl, rfl⟩ := same
    simp only [Event.move, refused]
    cases fate policy key value events <;> simp [Fate.register]
  · simp [Event.move, same]

end Follows

end Rendezvous
