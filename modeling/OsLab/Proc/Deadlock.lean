import OsLab.Lib.Acyclic
import OsLab.Proc.Runs

/-!
# Cycles of spinning processes

A process that holds a lock of the table only waits for locks below it in the family tree: `wait`
and `reparent` take that of a child, and `exit` holds the lock of the parent it remembers and takes
its own.  `fork` can close a cycle of such links: the remembered parent may have been reaped, and
its entry given to a descendant of the process.
-/

namespace OsLab.Sched

open Prog View Relation

/-- The code waits for the lock of an entry. -/
def SpinsFor (x : Pslot) : Code Next → Prop
  | .call (.acquire (.proc y)) _ => y = x
  | _ => False

instance (x : Pslot) (code : Code Next) : Decidable (SpinsFor x code) := by
  unfold SpinsFor
  split <;> infer_instance

variable {Cpu : Type*}

variable (s : State Cpu)

/-- `p` holds a lock of the table and spins for one that `q` holds. -/
def Spins (p q : Pslot) : Prop :=
  ∃ c d x y, s.Runs c p ∧ s.Runs d q ∧ s.lock (.proc y) = some c ∧ SpinsFor x (s.todo p) ∧
    s.lock (.proc x) = some d

/-- `z` is the parent of `y`, or the one that `y` remembers in `exit`. -/
def Above (y z : Pslot) : Prop :=
  (s.proc y).parent = some z ∨
    (s.original y = some z ∧ (s.proc y).state ≠ .unused ∧ (s.proc y).state ≠ .zombie)

/-- A new entry is not above the process that forks. -/
def CodeUnremembered : Code Next → Prop
  | .call (.adopt np p) _ => ¬ ReflTransGen (Above s) p np
  | _ => True

/-- No step of `fork` gives a process an entry that is above it. -/
def Unremembered : Action Cpu → Prop
  | .step c _ => ∀ p ∈ (s.cpu c).current, CodeUnremembered s (s.todo p)
  | _ => True

variable {s t : State Cpu} {c d : Cpu} {p q x y z : Pslot} {view : Cpu → View}
  {pass : Cpu → Pass} {outcome : Bool}

/-- With a lock of the table held, a process spins for its own lock, holding that of the parent it
remembers, or for the lock of a child. -/
theorem Good.spins_held (good : Good s view pass) (here : s.Runs c p)
    (holds : s.lock (.proc y) = some c) (spins : SpinsFor x (s.todo p)) :
    (x = p ∧ ∀ z, s.lock (.proc z) = some c → Above s p z) ∨
      ((s.proc x).parent = some p ∧ ∀ z, s.lock (.proc z) = some c → z = p ∨ Above s p z) := by
  have thread := good.machine.runs c p here
  have meets := thread.code
  generalize s.todo p = code at meets spins
  unfold SpinsFor at spins
  split at spins
  · subst spins
    obtain ⟨running, waits⟩ := meets.1
    have state := thread.state.trans running
    have remembers : ∀ q, (view c).original = some q → Above s p q := fun q original =>
      .inr ⟨thread.original.trans original, by simp [state], by simp [state]⟩
    rcases waits _ rfl with none | ⟨rfl, q, original, held⟩ | ⟨child, held⟩
    · exact absurd ((thread.lock _).mp holds) (none y)
    · refine .inl ⟨rfl, fun z locked => ?_⟩
      rw [thread.lock, held, List.mem_singleton] at locked
      cases locked
      exact remembers _ original
    · refine .inr ⟨(good.knows c p here).child _ child, fun z locked => ?_⟩
      rw [thread.lock] at locked
      rcases held with held | ⟨q, original, held⟩
      · rw [held, List.mem_singleton] at locked
        cases locked
        exact .inl rfl
      · rw [held, List.mem_pair] at locked
        rcases locked with same | same <;> cases same
        · exact .inl rfl
        · exact .inr (remembers _ original)
  · exact spins.elim

theorem Good.spins_above (good : Good s view pass) {r : Pslot} (first : Spins s p q)
    (second : Spins s q r) : TransGen (Above s) q p := by
  obtain ⟨c, d, x, y, here, there, holds, spins, locked⟩ := first
  obtain ⟨d', e, x', y', there', -, holds', spins', -⟩ := second
  obtain rfl := good.machine.unique d d' q there there'
  rcases good.spins_held here holds spins with ⟨rfl, above⟩ | ⟨child, -⟩
  · rcases good.spins_held there holds' spins' with ⟨-, within⟩ | ⟨-, within⟩
    · exact .single (within x locked)
    rcases within x locked with rfl | link
    · obtain rfl := good.machine.unique c d x here there
      exact .single (above x locked)
    · exact .single link
  · have within : x = q ∨ Above s q x := by
      rcases good.spins_held there holds' spins' with ⟨-, within⟩ | ⟨-, within⟩
      · exact .inr (within x locked)
      · exact within x locked
    rcases within with rfl | link
    · exact .single (.inl child)
    · exact .tail (.single link) (.inl child)

theorem Table.init_top (table : Table s view) : ¬ Above s initproc z := by
  rintro (child | ⟨original, used, -⟩)
  · simp [table.initTop] at child
  · exact (table.kin initproc z original used).1 rfl

variable [DecidableEq Cpu] {op : Op} {result : Option op.Res}

theorem effect_above (done : effect s c outcome op = (t, result)) (above : Above t y z) :
    Above s y z ∨ op = .adopt y z ∨ (op = .giveToInit y ∧ z = initproc) ∨
      ((op = .ready y ∨ ∃ chan, op = .sleep y chan) ∧ s.original y = some z) := by
  unfold Above at above ⊢
  cases op <;> simp only [effect] at done <;> repeat' split at done
  all_goals cases done
  all_goals first
    | exact .inl above
    | (simp only [State.modify, State.setCpu, State.setStale, Function.update_apply] at above
       split at above <;> simp_all [Proc.free] <;> grind)

section

variable (good : Good s view pass)
include good

theorem Good.above_effect (here : s.Runs c p) (needed : View.pre p op (view c))
    (done : Sched.effect s c outcome op = (t, result)) (above : Above t y z) :
    Above s y z ∨ op = .adopt y z ∨ (op = .giveToInit y ∧ z = initproc) := by
  have thread := good.machine.runs c p here
  have mine : ∀ {z}, s.original p = some z → (view c).own = .running → Above s p z := by
    intro z original running
    have state := thread.state.trans running
    exact .inr ⟨original, by simp [state], by simp [state]⟩
  rcases effect_above done above with old | adopts | gives | ⟨rfl | ⟨chan, rfl⟩, original⟩
  · exact .inl old
  · exact .inr (.inl adopts)
  · exact .inr (.inr gives)
  · obtain ⟨running, ⟨rfl, -⟩ | ⟨-, adopted⟩⟩ := needed
    · exact .inl (mine original running)
    · have fresh := ((good.knows c p here).fresh y .adopted adopted).2
      simp [fresh.original] at original
  · obtain ⟨rfl, -, running, -⟩ := needed
    exact .inl (mine original running)

theorem Good.acyclic_stepProc (here : s.Runs c p) (fits : CodeUnremembered s (s.todo p))
    (acyclic : Acyclic (Above s)) : Acyclic (Above (Sched.stepProc s c p outcome)) := by
  have thread := good.machine.runs c p here
  have meets := thread.code
  cases code : s.todo p with
  | ret next =>
    rw [stepProc_ret code]
    exact acyclic
  | call op rest =>
    rw [code] at meets fits
    rcases done : Sched.effect s c outcome op with ⟨t, result⟩
    have links : ∀ y z, Above (Sched.stepProc s c p outcome) y z →
        Above s y z ∨ op = .adopt y z ∨ (op = .giveToInit y ∧ z = initproc) := by
      intro y z above
      cases result with
      | none =>
        rw [stepProc_none code done] at above
        exact good.above_effect here meets.1 done above
      | some result =>
        rw [stepProc_some code done] at above
        exact good.above_effect here meets.1 (t := t) done above
    by_cases adopts : ∃ np q, op = .adopt np q
    · obtain ⟨np, q, rfl⟩ := adopts
      refine acyclic.link (a := np) (b := q) (fun y z above => ?_) fits
      rcases links y z above with old | same | ⟨same, -⟩
      · exact .inl old
      · cases same
        exact .inr ⟨rfl, rfl⟩
      · cases same
    by_cases gives : ∃ pp, op = .giveToInit pp
    · obtain ⟨pp, rfl⟩ := gives
      refine acyclic.link (a := pp) (b := initproc) (fun y z above => ?_) fun path => ?_
      · rcases links y z above with old | same | ⟨same, rfl⟩
        · exact .inl old
        · cases same
        · cases same
          exact .inr ⟨rfl, rfl⟩
      -- nothing is above `init`, and `init` does not give itself away
      · rcases ReflTransGen.cases_head path with same | ⟨z, link, -⟩
        · have child := (good.knows c p here).child pp meets.1.1
          simp [← same, good.table.initTop] at child
        · exact good.table.init_top link
    refine acyclic.mono fun y z above => ?_
    rcases links y z above with old | rfl | ⟨rfl, -⟩
    · exact old
    · exact absurd ⟨y, z, rfl⟩ adopts
    · exact absurd ⟨y, rfl⟩ gives

theorem Good.acyclic_stepLoop (resting : (s.cpu c).current = none) (acyclic : Acyclic (Above s)) :
    Acyclic (Above (Sched.stepLoop s c outcome)) := by
  refine acyclic.mono fun y z above => ?_
  rcases good.stepLoop_table resting outcome with same | ⟨p, runnable, same⟩ <;>
    rw [Above, same.proc, same.original] at above
  · exact above
  · simp only [State.modify, Function.update_apply] at above
    split at above <;> simp_all [Above]

end

/-- The invariant of runs in which no new entry is above the process that forks. -/
def Ordered (s : State Cpu) : Prop := Sane s ∧ Acyclic (Above s)

theorem ordered_next (ordered : Ordered s) {action : Action Cpu}
    (enabled : ((schedSystem Cpu).restrict Unremembered).Enabled s action) :
    Ordered (((schedSystem Cpu).restrict Unremembered).next s action) := by
  refine ⟨sane_next ordered.1 enabled.1, ?_⟩
  obtain ⟨⟨⟨view, pass, good⟩, -⟩, acyclic⟩ := ordered
  refine next_cases (P := fun t => Acyclic (Above t)) enabled.1 (fun c p outcome same here _ => ?_)
    (fun _ _ resting _ => good.acyclic_stepLoop resting acyclic) (fun _ _ _ _ _ => acyclic)
    fun _ _ _ _ => acyclic
  subst same
  exact good.acyclic_stepProc here (enabled.2 p here) acyclic

omit [DecidableEq Cpu] in
theorem acyclic_boot : Acyclic (Above (boot Cpu)) := by
  intro x cycle
  obtain ⟨y, link, -⟩ := TransGen.head'_iff.mp cycle
  rcases link with child | ⟨original, -⟩
  · by_cases first : x = initproc <;> simp [boot, first, Proc.init, Proc.unused] at child
  · simp [boot] at original

/-- No process spins for a lock in a cycle, if no `fork` takes an entry that is above it. -/
theorem spins_acyclic (run : ((schedSystem Cpu).restrict Unremembered).Reaches (boot Cpu) s)
    (p : Pslot) : ¬ TransGen (Spins s) p p := by
  obtain ⟨⟨⟨view, pass, good⟩, -⟩, acyclic⟩ : Ordered s :=
    System.Reaches.invariant (P := Ordered)
      (fun _ _ ordered enabled => ordered_next ordered enabled) run ⟨sane_boot, acyclic_boot⟩
  exact acyclic.back (fun _ _ _ first second => good.spins_above first second) p

/-- No entry has the new one as its parent or remembers it. -/
def CodeForgotten (s : State Cpu) : Code Next → Prop
  | .call (.adopt np p) _ =>
    p ≠ np ∧ ∀ y, (s.proc y).parent ≠ some np ∧ s.original y ≠ some np
  | _ => True

instance (s : State Cpu) (code : Code Next) : Decidable (CodeForgotten s code) := by
  unfold CodeForgotten
  split <;> infer_instance

/-- A condition that can be evaluated and that implies `Unremembered`. -/
def Forgotten (s : State Cpu) : Action Cpu → Prop
  | .step c _ => ∀ p ∈ (s.cpu c).current, CodeForgotten s (s.todo p)
  | _ => True

instance (s : State Cpu) : (action : Action Cpu) → Decidable (Forgotten s action)
  | .step c _ => inferInstanceAs (Decidable (∀ p ∈ (s.cpu c).current, CodeForgotten s (s.todo p)))
  | .call _ _ | .timer _ => inferInstanceAs (Decidable True)

omit [DecidableEq Cpu] in
theorem unremembered_of_forgotten (s : State Cpu) (action : Action Cpu)
    (forgotten : Forgotten s action) : Unremembered s action := by
  cases action with
  | step c outcome =>
    intro p here
    have known := forgotten p here
    generalize s.todo p = code at known
    unfold CodeForgotten at known
    split at known
    · intro path
      rcases ReflTransGen.cases_tail path with same | ⟨y, -, child | ⟨original, -⟩⟩
      · exact known.1 same.symm
      · exact (known.2 y).1 child
      · exact (known.2 y).2 original
    · rename_i other
      unfold CodeUnremembered
      split
      · exact absurd rfl (other _ _ _)
      · trivial
  | call c request => trivial
  | timer c => trivial

/-- The child of `init` holds the lock of `init` in `exit` and spins for its own, which `init`
holds in `kill`. -/
def exitingAndKilling : List (Action (Fin 2)) :=
  List.flatten [
    steps 0 4, [.call 0 .fork], steps 0 13, steps 1 7, [.call 1 (.exit 0)], steps 1 8,
    [.call 0 (.kill 99)], steps 0 4, [.step 1 true]]

theorem spins_acyclic_exiting :
    Spins (exitingAndKilling.foldl (schedSystem (Fin 2)).next (boot (Fin 2))) ⟨1, by decide⟩
        initproc ∧
      ¬ TransGen (Spins (exitingAndKilling.foldl (schedSystem (Fin 2)).next (boot (Fin 2))))
        ⟨1, by decide⟩ ⟨1, by decide⟩ := by
  have run : ((schedSystem (Fin 2)).restrict Forgotten).Schedules (boot (Fin 2))
      exitingAndKilling := by
    decide +kernel
  refine ⟨⟨1, 0, ⟨1, by decide⟩, initproc, ?_⟩,
    spins_acyclic (run.reaches.mono unremembered_of_forgotten) _⟩
  decide +kernel

/-- `init` and three generations: the second exits and is reaped while the third, in `exit`,
remembers it; the fourth forks and gets the entry of the second. -/
def grandchildForks : List (Action (Fin 4)) :=
  List.flatten [
    steps 0 4, [.call 0 .fork], steps 0 13, steps 1 7, [.call 1 .fork], steps 1 16, steps 2 10,
    [.call 2 .fork], steps 2 19, steps 3 13, [.call 2 (.exit 0)], steps 2 8, [.call 1 (.exit 0)],
    steps 1 84, [.call 0 (.wait false false)], steps 0 9, [.call 3 .fork], steps 3 13, steps 2 6,
    [.call 3 (.wait false false)], steps 3 4]

theorem spins_in_cycle :
    ∃ s, (schedSystem (Fin 4)).Reaches (boot (Fin 4)) s ∧
      Spins s ⟨2, by decide⟩ ⟨3, by decide⟩ ∧ Spins s ⟨3, by decide⟩ ⟨2, by decide⟩ ∧
      ¬ (schedSystem (Fin 4)).Enabled s (.step 2 true) ∧
      ¬ (schedSystem (Fin 4)).Enabled s (.step 3 true) := by
  have run : (schedSystem (Fin 4)).Schedules (boot (Fin 4)) grandchildForks := by decide +kernel
  refine ⟨_, run.reaches, ⟨2, 3, ⟨3, by decide⟩, ⟨2, by decide⟩, ?_⟩,
    ⟨3, 2, ⟨1, by decide⟩, ⟨3, by decide⟩, ?_⟩, ?_, ?_⟩ <;> decide +kernel

end OsLab.Sched
