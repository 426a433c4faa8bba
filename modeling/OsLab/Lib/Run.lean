import Mathlib

/-!
# Runs of labelled transition systems

A system is given by an enabling condition on labelled actions and by the state each action
leads to.  A run may be restricted by a further condition on the action and the state before
it, so that "every run whose steps all meet a condition" is reachability in the restricted
system.
-/

namespace OsLab

-- processes and CPUs of concrete runs are numbered from 0
instance neZero_one : NeZero 1 := ⟨Nat.one_ne_zero⟩

instance neZero_two : NeZero 2 := ⟨two_ne_zero⟩

instance neZero_three : NeZero 3 := ⟨three_ne_zero⟩

instance neZero_four : NeZero 4 := ⟨four_ne_zero⟩

/-- A step that changes one entry is checked there and, unchanged, everywhere else. -/
@[elab_as_elim]
theorem update_cases {ι α : Type*} [DecidableEq ι] {f g : ι → α} {i : ι} {a : α}
    {motive : ι → α → Prop} (changed : g = Function.update f i a) (j : ι) (self : motive i a)
    (others : ∀ j, j ≠ i → motive j (f j)) : motive j (g j) := by
  rw [changed]
  exact (Function.forall_update_iff f motive).mpr ⟨self, others⟩ j

/-- Changing one entry trades its old weight in a total for its new one. -/
theorem sum_update_add {ι α M : Type*} [Fintype ι] [DecidableEq ι] [AddCommMonoid M]
    (weight : α → M) (family : ι → α) (i : ι) (value : α) :
    ∑ j, weight (Function.update family i value j) + weight (family i) =
      ∑ j, weight (family j) + weight value := by
  rw [← Finset.add_sum_erase _ _ (Finset.mem_univ i),
    ← Finset.add_sum_erase _ (fun j => weight (family j)) (Finset.mem_univ i)]
  have others : ∑ j ∈ Finset.univ.erase i, weight (Function.update family i value j) =
      ∑ j ∈ Finset.univ.erase i, weight (family j) := by
    refine Finset.sum_congr rfl fun j member => ?_
    rw [Function.update_of_ne (Finset.ne_of_mem_erase member)]
  rw [others, Function.update_self]
  abel

/-- A transition system whose steps carry the action that is taken. -/
structure System (State Action : Type*) where
  Enabled : State → Action → Prop
  next : State → Action → State

namespace System

variable {State Action : Type*}

/-- The system whose actions must also meet `condition` in the state before the step. -/
def restrict (system : System State Action) (condition : State → Action → Prop) :
    System State Action where
  Enabled state action := system.Enabled state action ∧ condition state action
  next := system.next

/-- One step by some enabled action. -/
def Step (system : System State Action) (before after : State) : Prop :=
  ∃ action, system.Enabled before action ∧ after = system.next before action

/-- Reachability by any number of steps. -/
def Reaches (system : System State Action) : State → State → Prop :=
  Relation.ReflTransGen system.Step

variable {system : System State Action}

theorem Reaches.refl (state : State) : system.Reaches state state :=
  Relation.ReflTransGen.refl

theorem Reaches.trans {first second third : State} (left : system.Reaches first second)
    (right : system.Reaches second third) : system.Reaches first third :=
  Relation.ReflTransGen.trans left right

theorem Reaches.snoc {start state : State} (run : system.Reaches start state) (action : Action)
    (enabled : system.Enabled state action) : system.Reaches start (system.next state action) :=
  Relation.ReflTransGen.tail run ⟨action, enabled, rfl⟩

/-- A predicate that every enabled action keeps holds throughout a run that starts in it. -/
theorem Reaches.invariant {P : State → Prop}
    (preserved : ∀ state action, P state → system.Enabled state action →
      P (system.next state action)) {start state : State} (run : system.Reaches start state)
    (initial : P start) : P state := by
  induction run with
  | refl => exact initial
  | tail _ step ih =>
    obtain ⟨action, enabled, rfl⟩ := step
    exact preserved _ action ih enabled

theorem Reaches.mono {strong weak : State → Action → Prop}
    (weaker : ∀ state action, strong state action → weak state action) {start state : State}
    (run : (system.restrict strong).Reaches start state) :
    (system.restrict weak).Reaches start state := by
  induction run with
  | refl => exact .refl _
  | tail _ step ih =>
    obtain ⟨action, enabled, rfl⟩ := step
    exact ih.snoc action ⟨enabled.1, weaker _ _ enabled.2⟩

theorem Reaches.of_restrict {condition : State → Action → Prop} {start state : State}
    (run : (system.restrict condition).Reaches start state) : system.Reaches start state := by
  induction run with
  | refl => exact .refl _
  | tail _ step ih =>
    obtain ⟨action, enabled, rfl⟩ := step
    exact ih.snoc action enabled.1

/-- Every action of the schedule is enabled in the state it is taken in. -/
def Schedules (system : System State Action) : State → List Action → Prop
  | _, [] => True
  | state, action :: rest =>
    system.Enabled state action ∧ system.Schedules (system.next state action) rest

instance (system : System State Action) (condition : State → Action → Prop)
    [∀ state action, Decidable (system.Enabled state action)]
    [∀ state action, Decidable (condition state action)] (state : State) (action : Action) :
    Decidable ((system.restrict condition).Enabled state action) :=
  inferInstanceAs (Decidable (_ ∧ _))

instance Schedules.decidable (system : System State Action)
    [∀ state action, Decidable (system.Enabled state action)] :
    (state : State) → (actions : List Action) → Decidable (system.Schedules state actions)
  | _, [] => .isTrue trivial
  | state, action :: rest =>
    haveI := Schedules.decidable system (system.next state action) rest
    inferInstanceAs (Decidable (_ ∧ _))

theorem Schedules.reaches {state : State} {actions : List Action}
    (enabled : system.Schedules state actions) :
    system.Reaches state (actions.foldl system.next state) := by
  induction actions generalizing state with
  | nil => exact .refl _
  | cons action rest ih => exact .head ⟨action, enabled.1, rfl⟩ (ih enabled.2)

end System

end OsLab
