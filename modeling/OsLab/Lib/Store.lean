import OsLab.Lib.Run

/-!
# Observed runs and refinement

An observer of a system sees an event at some of its steps.  A system refines another one whose
actions are those events if the events of every run are a run of the other system.  The store is
the plain map that caches and logs are compared with.
-/

namespace OsLab

namespace System

variable {State Action Event Abstract : Type*}

/-- The runs from a state, with the events that are seen on the way. -/
inductive Observes (system : System State Action) (observe : State → Action → Option Event)
    (start : State) : List Event → State → Prop
  | refl : Observes system observe start [] start
  | step {events : List Event} {state : State} (run : Observes system observe start events state)
      (action : Action) (enabled : system.Enabled state action) :
      Observes system observe start (events ++ (observe state action).toList)
        (system.next state action)

variable {system : System State Action} {observe : State → Action → Option Event}
  {start state : State} {events : List Event}

theorem Observes.reaches (run : system.Observes observe start events state) :
    system.Reaches start state := by
  induction run with
  | refl => exact .refl _
  | step _ action enabled ih => exact ih.snoc action enabled

/-- The events that are seen along a schedule. -/
def trace (system : System State Action) (observe : State → Action → Option Event) :
    State → List Action → List Event
  | _, [] => []
  | state, action :: rest =>
    (observe state action).toList ++ system.trace observe (system.next state action) rest

theorem Schedules.observes {actions : List Action} (enabled : system.Schedules state actions)
    (run : system.Observes observe start events state) :
    system.Observes observe start (events ++ system.trace observe state actions)
      (actions.foldl system.next state) := by
  induction actions generalizing state events with
  | nil => exact (List.append_nil events).symm ▸ run
  | cons action rest ih =>
    have later := ih enabled.2 (run.step action enabled.1)
    rwa [List.append_assoc] at later

theorem Schedules.append {abstract : System Abstract Event} {first : Abstract}
    {before after : List Event} (left : abstract.Schedules first before)
    (right : abstract.Schedules (before.foldl abstract.next first) after) :
    abstract.Schedules first (before ++ after) := by
  induction before generalizing first with
  | nil => exact right
  | cons event rest ih => exact ⟨left.1, ih left.2 right⟩

/-- One observed step agrees with the abstract system. -/
def Matches (abstract : System Abstract Event) (before after : Abstract) : Option Event → Prop
  | none => after = before
  | some event => abstract.Enabled before event ∧ after = abstract.next before event

/-- If every step keeps the invariant and agrees with the abstract system, the events of a run are a
run of that system. -/
theorem Observes.refines (abstract : System Abstract Event) (project : State → Abstract)
    {P : State → Prop} (initial : P start)
    (preserved : ∀ state action, P state → system.Enabled state action →
      P (system.next state action))
    (agrees : ∀ state action, P state → system.Enabled state action →
      abstract.Matches (project state) (project (system.next state action))
        (observe state action)) (run : system.Observes observe start events state) :
    abstract.Schedules (project start) events ∧
      project state = events.foldl abstract.next (project start) := by
  induction run with
  | refl => exact ⟨trivial, rfl⟩
  | step run action enabled ih =>
    obtain ⟨schedules, same⟩ := ih
    have agree := agrees _ action (run.reaches.invariant preserved initial) enabled
    cases observed : observe _ action with
    | none =>
      rw [observed] at agree
      rw [Option.toList_none, List.append_nil]
      exact ⟨schedules, agree.trans same⟩
    | some event =>
      rw [observed] at agree
      rw [Option.toList_some, List.foldl_append]
      refine ⟨schedules.append ?_, ?_⟩
      · rw [← same]
        exact ⟨agree.1, trivial⟩
      · rw [← same]
        exact agree.2

end System

/-- A read that returns a value, or a write. -/
inductive Access (Key Value : Type*) where
  | read (key : Key) (value : Value)
  | write (key : Key) (value : Value)

/-- The map from keys to values: a read returns what was written last. -/
def store (Key Value : Type*) [DecidableEq Key] : System (Key → Value) (Access Key Value) where
  Enabled map
    | .read key value => map key = value
    | .write _ _ => True
  next map
    | .read _ _ => map
    | .write key value => Function.update map key value

end OsLab
