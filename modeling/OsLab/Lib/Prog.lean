import Mathlib

/-!
# Programs that perform operations

A program performs operations one after the other and may look at their results; what they do is
left to whoever runs it.  A specification of the operations gives the conditions under which the
program never performs one outside its precondition.
-/

namespace OsLab

/-- A program over operations `Op` with results `Res` that returns a value. -/
inductive Prog (Op : Type) (Res : Op → Type) (α : Type) where
  | ret (result : α)
  | call (op : Op) (rest : Res op → Prog Op Res α)

namespace Prog

variable {Op : Type} {Res : Op → Type} {α β : Type}

/-- Sequential composition. -/
def bind (program : Prog Op Res α) (rest : α → Prog Op Res β) : Prog Op Res β :=
  match program with
  | .ret result => rest result
  | .call op continuation => .call op fun result => (continuation result).bind rest

instance : Monad (Prog Op Res) where
  pure := .ret
  bind := bind

/-- `for (i = 0; i < count; i++) body(i)`. -/
def forRange : Nat → (Nat → Prog Op Res Unit) → Prog Op Res Unit
  | 0, _ => .ret ()
  | count + 1, body => do
    forRange count body
    body count

theorem bind_assoc {γ : Type} (program : Prog Op Res α) (first : α → Prog Op Res β)
    (second : β → Prog Op Res γ) :
    (program >>= first) >>= second = program >>= fun result => first result >>= second := by
  induction program with
  | ret result => rfl
  | call op rest ih =>
    change Prog.call op _ = Prog.call op _
    congr 1
    funext result
    exact ih result

theorem forRange_succ (count : Nat) (body : Nat → Prog Op Res Unit) :
    forRange (count + 1) body =
      body 0 >>= fun _ => forRange count fun i => body (i + 1) := by
  induction count with
  | zero =>
    have last : (fun _ : Unit => forRange 0 fun i => body (i + 1)) = .ret := rfl
    change body 0 = body 0 >>= fun _ => forRange 0 fun i => body (i + 1)
    rw [last]
    induction body 0 with
    | ret result => rfl
    | call op rest ih =>
      change _ = Prog.call op _
      congr 1
      funext result
      exact ih result
  | succ count ih =>
    change forRange (count + 1) body >>= (fun _ => body (count + 1)) = _
    rw [ih, bind_assoc]
    rfl

/-- The program has nothing left to do. -/
def Done : Prog Op Res α → Prop
  | .ret _ => True
  | .call _ _ => False

instance : (program : Prog Op Res α) → Decidable program.Done
  | .ret _ => .isTrue trivial
  | .call _ _ => .isFalse id

/-- What an operation needs to be known and what is known after it. -/
structure Spec (Op : Type) (Res : Op → Type) (View : Type*) where
  pre : Op → View → Prop
  post : (op : Op) → View → Res op → View → Prop

variable {View : Type*}

/-- Starting from `view` every operation finds its precondition and `goal` holds at the end. -/
def Meets (spec : Spec Op Res View) : Prog Op Res α → View → (α → View → Prop) → Prop
  | .ret result, view, goal => goal result view
  | .call op rest, view, goal =>
    spec.pre op view ∧
      ∀ result later, spec.post op view result later → (rest result).Meets spec later goal

variable {spec : Spec Op Res View} {program : Prog Op Res α} {view : View}

theorem Meets.mono {weak strong : α → View → Prop} (meets : program.Meets spec view strong)
    (implies : ∀ result later, strong result later → weak result later) :
    program.Meets spec view weak := by
  induction program generalizing view with
  | ret result => exact implies _ _ meets
  | call op rest ih =>
    exact ⟨meets.1, fun result later known => ih result (meets.2 result later known)⟩

theorem Meets.bind {rest : α → Prog Op Res β} {middle : α → View → Prop} {goal : β → View → Prop}
    (first : program.Meets spec view middle)
    (second : ∀ result later, middle result later → (rest result).Meets spec later goal) :
    (program >>= rest).Meets spec view goal := by
  induction program generalizing view with
  | ret result => exact second _ _ first
  | call op continuation ih =>
    exact ⟨first.1, fun result later known => ih result (first.2 result later known)⟩

/-- A loop whose body keeps an invariant that counts the rounds. -/
theorem Meets.forRange {body : Nat → Prog Op Res Unit} {P : Nat → View → Prop} {count : Nat}
    (round : ∀ i < count, ∀ view, P i view → (body i).Meets spec view fun _ => P (i + 1))
    (initial : P 0 view) : (Prog.forRange count body).Meets spec view fun _ => P count := by
  induction count with
  | zero => exact initial
  | succ count ih =>
    have earlier := ih fun i inside => round i (Nat.lt_succ_of_lt inside)
    exact earlier.bind fun _ later known => round count (Nat.lt_succ_self count) later known

end Prog

end OsLab
