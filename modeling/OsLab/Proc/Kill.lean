import OsLab.Proc.Runs

/-!
# Which entries `kill` reaches

`kill` compares pids without looking at the state of an entry.  An entry that was never used or that
`freeproc` has cleared has pid 0, and an `allocproc` that gets no trapframe leaves the new pid in an
entry that stays `UNUSED`.  Nothing clears `killed` when `fork` takes the entry.
-/

namespace OsLab.Sched

open Prog View Function

/-- The code is about to compare the pid of an entry in `kill`. -/
def Kills (x : Pslot) (pid : BitVec 32) : Code Next → Prop
  | .call (.kill y wanted) _ => y = x ∧ wanted = pid
  | _ => False

instance (x : Pslot) (pid : BitVec 32) : (code : Code Next) → Decidable (Kills x pid code)
  | .ret _ => instDecidableFalse
  | .call op _ => by cases op <;> first | exact instDecidableAnd | exact instDecidableFalse

/-- The operation is not a `kill` of pid 0, and the trapframe gets its page. -/
def Op.Tame (outcome : Bool) : Op → Prop
  | .kill _ pid => pid ≠ 0
  | .trapframe _ => outcome = true
  | _ => True

instance (outcome : Bool) (op : Op) : Decidable (op.Tame outcome) := by
  unfold Op.Tame
  split <;> infer_instance

/-- The code continues with such an operation. -/
def CodeTame (outcome : Bool) : Code Next → Prop
  | .ret _ => True
  | .call op _ => op.Tame outcome

instance (outcome : Bool) : (code : Code Next) → Decidable (CodeTame outcome code)
  | .ret _ => inferInstanceAs (Decidable True)
  | .call op _ => inferInstanceAs (Decidable (op.Tame outcome))

variable {Cpu : Type*}

/-- No step of a process calls `kill(0)` or finds no page for a trapframe. -/
def Tame (s : State Cpu) : Action Cpu → Prop
  | .step c outcome => ∀ p ∈ (s.cpu c).current, CodeTame outcome (s.todo p)
  | _ => True

instance (s : State Cpu) : (action : Action Cpu) → Decidable (Tame s action)
  | .step c outcome =>
    inferInstanceAs (Decidable (∀ p ∈ (s.cpu c).current, CodeTame outcome (s.todo p)))
  | .call _ _ | .timer _ => inferInstanceAs (Decidable True)

variable {s t : State Cpu} {c : Cpu} {p x : Pslot} {view : Cpu → View} {pass : Cpu → Pass}
  {outcome : Bool}

/-- An entry that `kill` looks at and that is not in use has pid 0, unless it is stale. -/
theorem Good.kills (good : Good s view pass) (here : s.Runs c p) {pid : BitVec 32}
    (kills : Kills x pid (s.todo p)) (clean : s.stale x = false)
    (unused : (s.proc x).state = .unused) : (s.proc x).pid = 0 := by
  have thread := good.machine.runs c p here
  have meets := thread.code
  generalize s.todo p = code at meets kills
  unfold Kills at kills
  split at kills
  · obtain ⟨rfl, rfl⟩ := kills
    obtain ⟨locked, -, settled⟩ := meets.1
    obtain ⟨-, none | ⟨d, q, stage, there, filling⟩⟩ :=
      (good.table.tidy _ unused).resolve_left (by simp [clean])
    · exact none
    -- the entry that a `fork` fills is locked, so it is not the one that `kill` has locked
    · have apart : d ≠ c := by
        rintro rfl
        simp [settled] at filling
      exact absurd locked
        (good.machine.apart here there apart (good.knows d q there |>.fresh _ _ filling).1)
  · exact kills.elim

variable [DecidableEq Cpu]

section

variable {op : Op} {result : Option op.Res} (done : effect s c outcome op = (t, result))
include done

/-- Only `ready` makes an unused entry runnable, and it keeps `killed`. -/
theorem effect_born (unused : (s.proc x).state = .unused)
    (runnable : (t.proc x).state = .runnable) : (t.proc x).killed = (s.proc x).killed := by
  cases op <;> simp only [effect] at done <;> repeat' split at done
  all_goals cases done
  all_goals first
    | rfl
    | (simp only [State.modify, State.setCpu, State.setStale, update_apply] at runnable ⊢
       split <;> simp_all [Proc.free])

/-- Operations other than `kill` and a failed `kalloc` leave no stale entry. -/
theorem effect_stale (tame : op.Tame outcome) (other : ∀ x pid, op ≠ .kill x pid)
    (clean : ∀ x, s.stale x = false) (x : Pslot) : t.stale x = false := by
  cases op with
  | kill y pid => exact absurd rfl (other y pid)
  | trapframe y =>
    obtain rfl : outcome = true := tame
    cases done
    exact clean x
  | freeproc y | reap y =>
    cases done
    simp only [State.setStale, State.modify, update_apply]
    split
    · rfl
    · exact clean x
  | _ =>
    simp only [effect] at done
    repeat' split at done
    all_goals
      cases done
      exact clean x

end

theorem Good.stale_kill (good : Good s view pass) (here : s.Runs c p) {pid : BitVec 32}
    (kills : Kills x pid (s.todo p)) (real : pid ≠ 0) (clean : ∀ y, s.stale y = false) (y : Pslot) :
    (Sched.effect s c outcome (.kill x pid)).1.stale y = false := by
  by_cases found : (s.proc x).pid = pid
  · have used : (s.proc x).state ≠ .unused := fun unused =>
      real (found.symm.trans (good.kills here kills (clean x) unused))
    rw [show Sched.effect s c outcome (.kill x pid) = _ from if_pos found]
    simp [State.setStale, State.modify, update_apply, clean, used]
  · rw [show Sched.effect s c outcome (.kill x pid) = _ from if_neg found]
    exact clean y

/-- The invariant of runs without `kill(0)` and without a failed `kalloc` of a trapframe. -/
def Clean (s : State Cpu) : Prop := Sane s ∧ ∀ x, s.stale x = false

theorem Good.stale_stepProc (good : Good s view pass) (here : s.Runs c p)
    (tame : CodeTame outcome (s.todo p)) (clean : ∀ y, s.stale y = false) (y : Pslot) :
    (Sched.stepProc s c p outcome).stale y = false := by
  cases code : s.todo p with
  | ret next =>
    rw [stepProc_ret code]
    exact clean y
  | call op rest =>
    have kept : (Sched.effect s c outcome op).1.stale y = false := by
      rw [code] at tame
      by_cases kills : ∃ x pid, op = .kill x pid
      · obtain ⟨x, pid, rfl⟩ := kills
        exact good.stale_kill here (code ▸ ⟨rfl, rfl⟩) tame clean y
      · push Not at kills
        exact effect_stale rfl tame kills clean y
    rcases done : Sched.effect s c outcome op with ⟨t, _ | result⟩ <;> rw [done] at kept
    · rw [stepProc_none code done]
      exact kept
    · rw [stepProc_some code done]
      exact kept

theorem clean_next (clean : Clean s) {action : Action Cpu}
    (enabled : ((schedSystem Cpu).restrict Tame).Enabled s action) :
    Clean (((schedSystem Cpu).restrict Tame).next s action) := by
  refine ⟨sane_next clean.1 enabled.1, fun y => ?_⟩
  obtain ⟨⟨⟨view, pass, good⟩, -⟩, clean⟩ := clean
  refine next_cases (P := (·.stale y = false)) enabled.1 (fun c p outcome same here _ => ?_)
    (fun c outcome resting _ => ?_) (fun _ _ _ _ _ => clean y) fun _ _ _ _ => clean y
  · subst same
    exact good.stale_stepProc here (enabled.2 p here) clean y
  · rcases good.stepLoop_table resting outcome with same | ⟨p, -, same⟩ <;> rw [same.stale] <;>
      exact clean y

theorem clean_of_reaches (run : ((schedSystem Cpu).restrict Tame).Reaches (boot Cpu) s) : Clean s :=
  System.Reaches.invariant (P := Clean) (fun _ _ clean enabled => clean_next clean enabled) run
    ⟨sane_boot, fun _ => rfl⟩

theorem Good.next_born (good : Good s view pass) {action : Action Cpu}
    (enabled : (schedSystem Cpu).Enabled s action) (unused : (s.proc x).state = .unused) :
    (((schedSystem Cpu).next s action).proc x).state = .runnable →
      (((schedSystem Cpu).next s action).proc x).killed = (s.proc x).killed := by
  refine next_cases (P := fun t => (t.proc x).state = .runnable →
    (t.proc x).killed = (s.proc x).killed) enabled (fun c p outcome _ here _ => ?_)
    (fun c outcome resting _ => ?_) (fun _ _ _ _ _ _ => rfl) fun _ _ _ _ _ => rfl
  · cases code : s.todo p with
    | ret next =>
      rw [stepProc_ret code]
      exact fun _ => rfl
    | call op rest =>
      rcases done : Sched.effect s c outcome op with ⟨t, _ | result⟩
      · rw [stepProc_none code done]
        exact effect_born done unused
      · rw [stepProc_some code done]
        exact effect_born (t := t) done unused
  · rcases good.stepLoop_table resting outcome with same | ⟨p, runnable, same⟩ <;> rw [same.proc]
    · exact fun _ => rfl
    have other : x ≠ p := by
      rintro rfl
      simp [unused] at runnable
    simp [State.modify, other]

/-- In a run without `kill(0)` in which every trapframe gets its page, `kill` of another pid finds
that pid only in a process, changes no unused entry, and every process that `fork` makes runnable
has `killed == 0`. -/
theorem kill_spares_unused (run : ((schedSystem Cpu).restrict Tame).Reaches (boot Cpu) s) :
    (∀ c p x pid outcome, (s.cpu c).current = some p → Kills x pid (s.todo p) → pid ≠ 0 →
      ((effect s c outcome (.kill x pid)).2 = some true →
        (s.proc x).state ≠ .unused ∧ (s.proc x).pid = pid) ∧
      ∀ y, (s.proc y).state = .unused → (effect s c outcome (.kill x pid)).1.proc y = s.proc y) ∧
      ∀ action x, (schedSystem Cpu).Enabled s action → (s.proc x).state = .unused →
        (((schedSystem Cpu).next s action).proc x).state = .runnable →
        (((schedSystem Cpu).next s action).proc x).killed = false := by
  obtain ⟨⟨⟨view, pass, good⟩, -⟩, clean⟩ := clean_of_reaches run
  refine ⟨fun c p x pid outcome here kills real => ?_, fun action x enabled unused runnable => ?_⟩
  · by_cases found : (s.proc x).pid = pid
    · have used : (s.proc x).state ≠ .unused := fun unused =>
        real (found.symm.trans (good.kills here kills (clean x) unused))
      refine ⟨fun _ => ⟨used, found⟩, fun y unused => ?_⟩
      have other : y ≠ x := by
        rintro rfl
        exact used unused
      rw [show effect s c outcome (.kill x pid) = _ from if_pos found]
      exact update_of_ne other ..
    · rw [show effect s c outcome (.kill x pid) = _ from if_neg found]
      exact ⟨by simp, fun _ _ => rfl⟩
  · rw [good.next_born enabled unused runnable]
    exact ((good.table.tidy x unused).resolve_left (by simp [clean])).1

/-- `init` forks a process and is about to look at it in `kill(2)`. -/
def forkedAndKilling : List (Action (Fin 1)) :=
  List.flatten [steps 0 4, [.call 0 .fork], steps 0 13, [.call 0 (.kill 2)], steps 0 4]

theorem kill_spares_unused_forked :
    ((forkedAndKilling.foldl (schedSystem (Fin 1)).next (boot (Fin 1))).proc
      ⟨1, by decide⟩).state ≠ .unused := by
  have run : ((schedSystem (Fin 1)).restrict Tame).Schedules (boot (Fin 1)) forkedAndKilling := by
    decide +kernel
  have spared := (kill_spares_unused run.reaches).1 0 initproc ⟨1, by decide⟩ 2 true
    (by decide +kernel) (by decide +kernel) (by decide)
  exact (spared.1 (by decide +kernel)).1

/-- The process on a CPU finds its pid in an entry that is not in use, and changes it. -/
def KillsUnused (s : State Cpu) (c : Cpu) (x : Pslot) (pid : BitVec 32) : Prop :=
  (∃ p, (s.cpu c).current = some p ∧ Kills x pid (s.todo p)) ∧
    (effect s c true (.kill x pid)).2 = some true ∧ (s.proc x).state = .unused ∧
    (effect s c true (.kill x pid)).1.proc x ≠ s.proc x

instance (s : State Cpu) (c : Cpu) (x : Pslot) (pid : BitVec 32) :
    Decidable (KillsUnused s c x pid) :=
  haveI : DecidableEq (Op.Res (.kill x pid)) := inferInstanceAs (DecidableEq Bool)
  inferInstanceAs (Decidable (_ ∧ _))

/-- The next step of a CPU makes an unused entry runnable that has `killed` set. -/
def BornKilled (s : State Cpu) (c : Cpu) (x : Pslot) : Prop :=
  (schedSystem Cpu).Enabled s (.step c true) ∧ (s.proc x).state = .unused ∧
    (((schedSystem Cpu).next s (.step c true)).proc x).state = .runnable ∧
    (((schedSystem Cpu).next s (.step c true)).proc x).killed = true

instance (s : State Cpu) (c : Cpu) (x : Pslot) : Decidable (BornKilled s c x) :=
  inferInstanceAs (Decidable (_ ∧ _))

/-- `init` is about to look at an unused entry in `kill(0)`. -/
def killingNobody : List (Action (Fin 1)) :=
  List.flatten [steps 0 4, [.call 0 (.kill 0)], steps 0 4]

/-- A `fork` of `init` has found no trapframe, and `init` is about to look at the entry in
`kill(2)`. -/
def killingUnborn : List (Action (Fin 1)) :=
  List.flatten [
    steps 0 4, [.call 0 .fork], steps 0 6, [.step 0 false, .step 0 true, .call 0 (.kill 2)],
    steps 0 4]

/-- After `kill(0)`, `fork` of `init` is about to make its child runnable. -/
def forkingKilled : List (Action (Fin 1)) :=
  List.flatten [killingNobody, steps 0 2, [.call 0 .fork], steps 0 11]

theorem kill_reaches_unused :
    (∃ s, (schedSystem (Fin 1)).Reaches (boot (Fin 1)) s ∧ KillsUnused s 0 ⟨1, by decide⟩ 0) ∧
      (∃ s, (schedSystem (Fin 1)).Reaches (boot (Fin 1)) s ∧ KillsUnused s 0 ⟨1, by decide⟩ 2) ∧
      ∃ s, (schedSystem (Fin 1)).Reaches (boot (Fin 1)) s ∧ BornKilled s 0 ⟨1, by decide⟩ := by
  have nobody : (schedSystem (Fin 1)).Schedules (boot (Fin 1)) killingNobody := by decide +kernel
  have unborn : (schedSystem (Fin 1)).Schedules (boot (Fin 1)) killingUnborn := by decide +kernel
  have killed : (schedSystem (Fin 1)).Schedules (boot (Fin 1)) forkingKilled := by decide +kernel
  exact ⟨⟨_, nobody.reaches, by decide +kernel⟩, ⟨_, unborn.reaches, by decide +kernel⟩,
    _, killed.reaches, by decide +kernel⟩

end OsLab.Sched
