import OsLab.Proc.Script

/-!
# The invariant of the process table

What is true in every state of a run: each CPU runs code that meets the specification, with a view
that agrees with the locks it holds; what a thread knows is true of the table; and the table has
no child of a dead process and no process asleep in `wait` that should be awake.
-/

namespace OsLab.Sched

open Prog View Function

variable {Cpu : Type*}

/-- The CPU runs the thread of the process. -/
abbrev State.Runs (s : State Cpu) (c : Cpu) (p : Pslot) : Prop := (s.cpu c).current = some p

/-- The process sleeps in `wait`. -/
def State.Waits (s : State Cpu) (x : Pslot) : Prop :=
  (s.proc x).state = .sleeping ∧ (s.proc x).chan = some (.proc x)

/-- The code of the scheduler, from what it knows on. -/
abbrev LoopMeets (code : Code Unit) (pass : Pass) : Prop :=
  code.Meets Pass.spec pass fun _ last => last = Pass.base

/-- The code of a thread, from what it knows on. -/
abbrev ThreadMeets (p : Pslot) (code : Code Next) (view : View) : Prop :=
  code.Meets (spec p) view (Ends p)

/-- A CPU that runs a process. -/
structure Thread (s : State Cpu) (c : Cpu) (p : Pslot) (view : View) : Prop where
  proc : (s.cpu c).proc = some p
  noff : (s.cpu c).noff = view.held.length
  nodup : view.held.Nodup
  lock : ∀ l, s.lock l = some c ↔ l ∈ view.held
  state : (s.proc p).state = view.own
  used : view.own ≠ .unused
  away : view.own ≠ .running → .proc p ∈ view.held
  quiet : view.held = [] → view = base view.original
  original : s.original p = view.original
  code : ThreadMeets p (s.todo p) view
  loop : LoopMeets (s.cpu c).loop ⟨[.proc p], some p⟩

/-- A CPU that runs its scheduler. -/
structure Idle (s : State Cpu) (c : Cpu) (pass : Pass) : Prop where
  proc : (s.cpu c).proc = pass.proc
  noff : (s.cpu c).noff = pass.held.length
  lock : ∀ l, s.lock l = some c ↔ l ∈ pass.held
  chosen : ∀ p, pass.proc = some p → .proc p ∈ pass.held ∧ (s.proc p).state ≠ .running
  loop : LoopMeets (s.cpu c).loop pass

/-- The CPUs and the threads. -/
structure Machine (s : State Cpu) (view : Cpu → View) (pass : Cpu → Pass) : Prop where
  runs : ∀ c p, s.Runs c p → Thread s c p (view c)
  idle : ∀ c, (s.cpu c).current = none → Idle s c (pass c)
  unique : ∀ c d p, s.Runs c p → s.Runs d p → c = d
  stopped : ∀ p, (∀ c, ¬ s.Runs c p) → (s.proc p).state ≠ .running
  parked : ∀ p, (∀ c, ¬ s.Runs c p) → (s.proc p).state = .runnable ∨ (s.proc p).state = .sleeping →
    ThreadMeets p (s.todo p) (resumed p (s.original p))

/-- The entry that `fork` fills. -/
structure Fresh (s : State Cpu) (me x : Pslot) (stage : Stage) : Prop where
  state : (s.proc x).state = .unused
  birth : (s.proc x).birth ≠ 0
  original : s.original x = none
  parent : (s.proc x).parent = if stage = .adopted then some me else none
  code : stage ≠ .claimed → s.todo x = forkret

/-- What is true of the table when a process knows `view`. -/
structure Knows (s : State Cpu) (me : Pslot) (view : View) : Prop where
  child : ∀ x, view.child = some x → (s.proc x).parent = some me
  given : ∀ x : Pslot, x.val < view.given → view.original ≠ none → (s.proc x).parent ≠ some me
  kids : view.kids = true → ∃ x, (s.proc x).parent = some me
  scanned : ∀ x : Pslot, x.val < view.scanned → .proc me ∈ view.held ∧
    (me ≠ initproc → (s.proc x).parent = some me → (s.proc x).state ≠ .zombie)
  woken : view.woken = true → ∀ q, view.original = some q → .proc q ∈ view.held ∧ ¬ s.Waits q
  fresh : ∀ x stage, view.fresh = some (x, stage) → .proc x ∈ view.held ∧ Fresh s me x stage
  found : ∀ x pid xstate, view.found = some (x, pid, xstate) →
    .proc x ∈ view.held ∧ (s.proc x).parent = some me ∧ (s.proc x).state = .zombie ∧
      (s.proc x).pid = pid ∧ (s.proc x).xstate = xstate

structure Table (s : State Cpu) (view : Cpu → View) : Prop where
  counts : 0 < s.nextpid
  initUsed : (s.proc initproc).state ≠ .unused ∧ (s.proc initproc).state ≠ .zombie
  initTop : (s.proc initproc).parent = none
  kin : ∀ y q, s.original y = some q → (s.proc y).state ≠ .unused →
    y ≠ initproc ∧ ((s.proc y).parent = some q ∨ (s.proc y).parent = some initproc)
  orphan : ∀ y, (s.proc y).state = .unused → (s.proc y).parent = none ∨
    ∃ c p, s.Runs c p ∧ (view c).fresh = some (y, .adopted)
  tidy : ∀ y, (s.proc y).state = .unused → s.stale y = true ∨ ((s.proc y).killed = false ∧
    ((s.proc y).pid = 0 ∨ ∃ c p stage, s.Runs c p ∧ (view c).fresh = some (y, stage)))
  childless : ∀ x, (s.proc x).state = .unused ∨ (s.proc x).state = .zombie →
    ∀ y, (s.proc y).parent ≠ some x
  waits : ∀ x, x ≠ initproc → s.Waits x → (∃ y, (s.proc y).parent = some x) ∧
      ∀ y, (s.proc y).parent = some x → (s.proc y).state ≠ .zombie

/-- The invariant. -/
structure Good (s : State Cpu) (view : Cpu → View) (pass : Cpu → Pass) : Prop where
  machine : Machine s view pass
  knows : ∀ c p, s.Runs c p → Knows s p (view c)
  table : Table s view

/-- How the entry of another process can change in a step of `p`. -/
structure Calm (p : Pslot) (e f : Proc) : Prop where
  running : f.state = .running ↔ e.state = .running
  zombie : f.state = .zombie → e.state = .zombie
  unused : f.state = .unused → e.state = .unused ∨ (e.state = .zombie ∧ f.parent = none)
  asleep : f.state = .sleeping → e.state = .sleeping ∧ f.chan = e.chan
  runnable : f.state = .runnable → e.state = .runnable ∨ e.state = .sleeping ∨ e.state = .unused
  parent : f.parent = e.parent ∨ (e.parent = some p ∧ f.parent = some initproc) ∨
    (e.parent = none ∧ f.parent = some p ∧ e.state = .unused ∧ f.state = .unused) ∨
    ((e.parent = none ∨ e.parent = some p) ∧ f.parent = none ∧ f.state = .unused)

theorem Calm.refl (p : Pslot) (e : Proc) : Calm p e e :=
  ⟨.rfl, id, .inl, fun asleep => ⟨asleep, rfl⟩, .inl, .inl rfl⟩

/-- A process that can run or sleeps was not freed. -/
theorem Calm.parked {p : Pslot} {e f : Proc} (calm : Calm p e f) (used : e.state ≠ .unused)
    (parked : f.state = .runnable ∨ f.state = .sleeping) :
    e.state = .runnable ∨ e.state = .sleeping := by
  rcases parked with runnable | sleeping
  · rcases calm.runnable runnable with same | asleep | unused
    · exact .inl same
    · exact .inr asleep
    · exact absurd unused used
  · exact .inr (calm.asleep sleeping).1

/-- A step of the thread of `p` that neither takes nor gives back a lock. -/
structure Step (s t : State Cpu) (p : Pslot) (view later : View) : Prop where
  lock : t.lock = s.lock
  cpu : t.cpu = s.cpu
  pids : s.nextpid ≤ t.nextpid
  held : later.held = view.held
  before : (s.proc p).state = .running
  own : (t.proc p).state = later.own
  used : later.own ≠ .unused
  away : later.own ≠ .running → .proc p ∈ view.held
  quiet : view.held = [] → later = base later.original
  original : t.original p = later.original
  locked : ∀ y, .proc y ∉ view.held → t.proc y = s.proc y
  calm : ∀ y, y ≠ p → Calm p (s.proc y) (t.proc y)
  born : ∀ y, y ≠ p → (s.proc y).state = .unused → (t.proc y).state ≠ .unused →
    t.todo y = forkret ∧ t.original y = none
  code : ∀ y, y ≠ p → (t.todo y = s.todo y ∧ t.original y = s.original y) ∨
    ((s.proc y).state = .unused ∧ .proc y ∈ view.held)
  parent : (t.proc p).parent = (s.proc p).parent
  kin : ∀ q, later.original = some q →
    view.original = some q ∨ (p ≠ initproc ∧ (s.proc p).parent = some q)
  adopted : ∀ y, (t.proc y).state = .unused → (t.proc y).parent ≠ none →
    later.fresh = some (y, .adopted) ∨
      (view.fresh ≠ some (y, .adopted) ∧ (t.proc y).parent = (s.proc y).parent)
  tidy : ∀ y, (t.proc y).state = .unused → t.stale y = true ∨
    ((t.proc y).killed = false ∧ ((t.proc y).pid = 0 ∨ ∃ stage, later.fresh = some (y, stage))) ∨
    ((s.proc y).state = .unused ∧ (t.proc y).killed = (s.proc y).killed ∧
      (t.proc y).pid = (s.proc y).pid ∧ t.stale y = s.stale y ∧
      ∀ stage, view.fresh = some (y, stage) → ∃ next, later.fresh = some (y, next))
  dies : later.own = .zombie → p ≠ initproc ∧ (∀ y, (t.proc y).parent ≠ some p) ∧
    ∃ q, view.original = some q ∧ .proc q ∈ view.held ∧ ¬ t.Waits q
  waits : t.Waits p → p ≠ initproc → (∃ y, (t.proc y).parent = some p) ∧
    ∀ y, (t.proc y).parent = some p → (t.proc y).state ≠ .zombie
  knows : Knows t p later

section Step

variable {s t : State Cpu} {c : Cpu} {p : Pslot} {view : Cpu → View} {pass : Cpu → Pass}
  {later : View}

section

variable (machine : Machine s view pass) {c d : Cpu} {p q : Pslot} (here : s.Runs c p)
  (there : s.Runs d q) (other : d ≠ c)
include machine here there other

theorem Machine.apart {l : Spinlock} (held : l ∈ (view d).held) : l ∉ (view c).held := by
  intro mine
  have first := ((machine.runs c p here).lock l).mpr mine
  have second := ((machine.runs d q there).lock l).mpr held
  exact other (Option.mem_unique second first)

theorem Machine.ne : q ≠ p := by
  rintro rfl
  exact other (machine.unique d c q there here)

end

variable [DecidableEq Cpu]

theorem Machine.step (machine : Machine s view pass) (here : s.Runs c p)
    (step : Step s t p (view c) later) (code : ThreadMeets p (t.todo p) later) :
    Machine t (update view c later) pass where
  runs d q there := by
    rw [State.Runs, step.cpu] at there
    by_cases same : d = c
    · subst same
      obtain rfl : p = q := Option.mem_unique here there
      have thread := machine.runs d p here
      rw [update_self]
      exact {
        proc := by rw [step.cpu]; exact thread.proc
        noff := by rw [step.cpu, step.held]; exact thread.noff
        nodup := step.held ▸ thread.nodup
        lock := by rw [step.lock, step.held]; exact thread.lock
        state := step.own
        used := step.used
        away := step.held ▸ step.away
        quiet := step.held ▸ step.quiet
        original := step.original
        code := code
        loop := by rw [step.cpu]; exact thread.loop }
    · have thread := machine.runs d q there
      have other := machine.ne here there same
      have used : (s.proc q).state ≠ .unused := thread.state ▸ thread.used
      obtain ⟨todo, original⟩ := (step.code q other).resolve_right fun new => used new.1
      rw [update_of_ne same]
      have state : (t.proc q).state = (view d).own := by
        by_cases running : (view d).own = .running
        · rw [running]
          exact (step.calm q other).running.mpr (thread.state.trans running)
        · rw [step.locked q (machine.apart here there same (thread.away running))]
          exact thread.state
      exact { thread with
        proc := by rw [step.cpu]; exact thread.proc
        noff := by rw [step.cpu]; exact thread.noff
        lock := by rw [step.lock]; exact thread.lock
        state := state
        original := original.trans thread.original
        code := todo ▸ thread.code
        loop := by rw [step.cpu]; exact thread.loop }
  idle d resting := by
    rw [step.cpu] at resting
    have idle := machine.idle d resting
    refine { idle with
      proc := by rw [step.cpu]; exact idle.proc
      noff := by rw [step.cpu]; exact idle.noff
      lock := by rw [step.lock]; exact idle.lock
      chosen := fun q chosen => ⟨(idle.chosen q chosen).1, fun running => ?_⟩
      loop := by rw [step.cpu]; exact idle.loop }
    by_cases same : q = p
    · exact (idle.chosen q chosen).2 (same ▸ step.before)
    · exact (idle.chosen q chosen).2 ((step.calm q same).running.mp running)
  unique d e q := by
    simp only [State.Runs, step.cpu]
    exact machine.unique d e q
  stopped q nowhere := by
    simp only [State.Runs, step.cpu] at nowhere
    have other : q ≠ p := fun same => nowhere c (same ▸ here)
    exact fun running => machine.stopped q nowhere ((step.calm q other).running.mp running)
  parked q nowhere waiting := by
    simp only [State.Runs, step.cpu] at nowhere
    have other : q ≠ p := fun same => nowhere c (same ▸ here)
    by_cases used : (s.proc q).state = .unused
    · have born : (t.proc q).state ≠ .unused := by
        rcases waiting with state | state <;> simp [state]
      obtain ⟨todo, original⟩ := step.born q other used born
      rw [todo, original]
      exact meets_forkret
    · obtain ⟨todo, original⟩ := (step.code q other).resolve_right fun new => used new.1
      rw [todo, original]
      exact machine.parked q nowhere ((step.calm q other).parked used waiting)

section

omit [DecidableEq Cpu]

section

variable {view : View} (step : Step s t p view later) {q y : Pslot} (other : q ≠ p)
include step other

/-- Only `p` takes children from `p`. -/
theorem Step.parent_keeps (child : (s.proc y).parent = some q) : (t.proc y).parent = some q := by
  by_cases same : y = p
  · subst same
    exact step.parent.trans child
  rcases (step.calm y same).parent with kept | ⟨given, -⟩ | ⟨none, -⟩ | ⟨freed, -⟩
  · exact kept.trans child
  · exact absurd (Option.mem_unique child given) other
  · simp [child] at none
  · simp [child, other] at freed

/-- Only `p` and `init` get children from `p`. -/
theorem Step.parent_came (notInit : q ≠ initproc) (child : (t.proc y).parent = some q) :
    (s.proc y).parent = some q := by
  by_cases same : y = p
  · subst same
    exact step.parent.symm.trans child
  rcases (step.calm y same).parent with kept | ⟨-, given⟩ | ⟨-, adopted, -⟩ | ⟨-, freed, -⟩
  · exact kept.symm.trans child
  · exact absurd (Option.mem_unique child given) notInit
  · exact absurd (Option.mem_unique child adopted) other
  · simp [child] at freed

end

variable {known : View}

/-- A process that dies holds the lock of its parent, unless it is a child of `init`. -/
theorem Step.dies_locked (step : Step s t p known later) (table : Table s view)
    (original : s.original p = known.original) {y q : Pslot} (dead : (t.proc y).state = .zombie)
    (alive : (s.proc y).state ≠ .zombie) (child : (s.proc y).parent = some q)
    (notInit : q ≠ initproc) : .proc q ∈ known.held ∧ ¬ t.Waits q := by
  have same : y = p := by
    by_contra other
    exact alive ((step.calm y other).zombie dead)
  subst same
  obtain ⟨-, -, r, remembered, locked, awake⟩ := step.dies (step.own ▸ dead)
  have used : (s.proc y).state ≠ .unused := by simp [step.before]
  obtain ⟨-, kin⟩ := table.kin y r (original.trans remembered) used
  have parent : q = r := by
    rcases kin with kin | kin
    · exact Option.mem_unique child kin
    · exact absurd (Option.mem_unique child kin) notInit
  subst parent
  exact ⟨locked, awake⟩

theorem Knows.step {q : Pslot} {known view' : View} (knows : Knows s q known) (table : Table s view)
    (step : Step s t p view' later) (original : s.original p = view'.original) (other : q ≠ p)
    (apart : ∀ y, .proc y ∈ known.held → .proc y ∉ view'.held)
    (exits : known.original ≠ none → q ≠ initproc) : Knows t q known where
  child x child := step.parent_keeps other (knows.child x child)
  given x inside exiting child :=
    knows.given x inside exiting (step.parent_came other (exits exiting) child)
  kids some := by
    obtain ⟨x, child⟩ := knows.kids some
    exact ⟨x, step.parent_keeps other child⟩
  scanned x inside := by
    obtain ⟨locked, alive⟩ := knows.scanned x inside
    refine ⟨locked, fun notInit child dead => ?_⟩
    have mine := step.parent_came other notInit child
    exact apart q locked (step.dies_locked table original dead (alive notInit mine) mine notInit).1
  woken awake r remembered := by
    obtain ⟨locked, awake⟩ := knows.woken awake r remembered
    refine ⟨locked, ?_⟩
    unfold State.Waits
    rw [step.locked r (apart r locked)]
    exact awake
  fresh x stage filling := by
    obtain ⟨locked, fresh⟩ := knows.fresh x stage filling
    have same := step.locked x (apart x locked)
    have notMe : x ≠ p := by
      rintro rfl
      exact absurd fresh.state (by simp [step.before])
    obtain ⟨todo, original⟩ := (step.code x notMe).resolve_right fun new => apart x locked new.2
    refine ⟨locked, ⟨same ▸ fresh.state, same ▸ fresh.birth, original.trans fresh.original,
      same ▸ fresh.parent, ?_⟩⟩
    exact fun claimed => todo.trans (fresh.code claimed)
  found x pid xstate zombie := by
    obtain ⟨locked, facts⟩ := knows.found x pid xstate zombie
    rw [step.locked x (apart x locked)]
    exact ⟨locked, facts⟩

theorem Step.dead {view : View} (step : Step s t p view later) {x : Pslot}
    (dead : (t.proc x).state = .unused ∨ (t.proc x).state = .zombie) :
    ((s.proc x).state = .unused ∨ (s.proc x).state = .zombie) ∨ (x = p ∧ later.own = .zombie) := by
  by_cases same : x = p
  · subst same
    rw [step.own] at dead
    exact .inr ⟨rfl, dead.resolve_left step.used⟩
  · rcases dead with unused | zombie
    · exact .inl (((step.calm x same).unused unused).imp_right And.left)
    · exact .inl (.inr ((step.calm x same).zombie zombie))

section

variable (step : Step s t p known later) (table : Table s view)
include step table

theorem Step.initUsed : (t.proc initproc).state ≠ .unused ∧ (t.proc initproc).state ≠ .zombie := by
  by_contra dead
  have dead : (t.proc initproc).state = .unused ∨ (t.proc initproc).state = .zombie := by
    tauto
  rcases step.dead dead with (unused | zombie) | ⟨same, dies⟩
  · exact table.initUsed.1 unused
  · exact table.initUsed.2 zombie
  · exact (step.dies dies).1 same.symm

theorem Step.initTop : (t.proc initproc).parent = none := by
  by_cases same : initproc = p
  · subst same
    exact step.parent.trans table.initTop
  rcases (step.calm _ same).parent with kept | ⟨given, -⟩ | ⟨-, -, unused, -⟩ | ⟨-, freed, -⟩
  · exact kept.trans table.initTop
  · simp [table.initTop] at given
  · exact absurd unused table.initUsed.1
  · exact freed

theorem Step.kept_kin (original : s.original p = known.original) {y q : Pslot}
    (remembered : t.original y = some q) (used : (t.proc y).state ≠ .unused) :
    y ≠ initproc ∧ ((t.proc y).parent = some q ∨ (t.proc y).parent = some initproc) := by
  by_cases same : y = p
  · subst same
    rw [step.parent]
    rcases step.kin q (step.original.symm.trans remembered) with before | ⟨notInit, parent⟩
    · exact table.kin y q (original.trans before) (by simp [step.before])
    · exact ⟨notInit, .inl parent⟩
  have alive : (s.proc y).state ≠ .unused := by
    intro unused
    obtain ⟨-, none⟩ := step.born y same unused used
    simp [remembered] at none
  obtain ⟨-, kept⟩ := (step.code y same).resolve_right fun new => alive new.1
  obtain ⟨notInit, kin⟩ := table.kin y q (kept.symm.trans remembered) alive
  refine ⟨notInit, ?_⟩
  rcases (step.calm y same).parent with kept | ⟨-, given⟩ | ⟨-, -, unused, -⟩ | ⟨-, -, freed⟩
  · exact kept ▸ kin
  · exact .inr given
  · exact absurd unused alive
  · exact absurd freed used

end

end

theorem Table.step (table : Table s view) (machine : Machine s view pass) (here : s.Runs c p)
    (step : Step s t p (view c) later) : Table t (update view c later) where
  counts := table.counts.trans_le step.pids
  initUsed := step.initUsed table
  initTop := step.initTop table
  kin y q := step.kept_kin table (machine.runs c p here).original
  orphan y unused := by
    by_cases none : (t.proc y).parent = none
    · exact .inl none
    refine .inr ?_
    rcases step.adopted y unused none with mine | ⟨notMine, kept⟩
    · exact ⟨c, p, by rw [State.Runs, step.cpu]; exact here, by rw [update_self]; exact mine⟩
    have other : y ≠ p := by
      rintro rfl
      exact step.used (step.own.symm.trans unused)
    have before : (s.proc y).state = .unused := by
      rcases (step.calm y other).unused unused with before | ⟨-, freed⟩
      · exact before
      · exact absurd freed none
    obtain ⟨d, q, there, fresh⟩ := (table.orphan y before).resolve_left (kept ▸ none)
    have apart : d ≠ c := by
      rintro rfl
      exact notMine fresh
    exact ⟨d, q, by rw [State.Runs, step.cpu]; exact there, by rw [update_of_ne apart]; exact fresh⟩
  tidy y unused := by
    have runs : t.Runs c p := by
      rw [State.Runs, step.cpu]
      exact here
    rcases step.tidy y unused with stale | ⟨unkilled, known⟩ | ⟨before, killed, pid, stale, kept⟩
    · exact .inl stale
    · refine .inr ⟨unkilled, known.imp_right ?_⟩
      rintro ⟨stage, fresh⟩
      exact ⟨c, p, stage, runs, by rw [update_self]; exact fresh⟩
    · rw [stale, killed, pid]
      refine (table.tidy y before).imp_right (And.imp_right (Or.imp_right ?_))
      rintro ⟨d, q, stage, there, fresh⟩
      by_cases same : d = c
      · subst same
        obtain ⟨next, fresh⟩ := kept stage fresh
        exact ⟨d, p, next, runs, by rw [update_self]; exact fresh⟩
      · exact ⟨d, q, stage, by rw [State.Runs, step.cpu]; exact there,
          by rw [update_of_ne same]; exact fresh⟩
  childless x dead y child := by
    rcases step.dead dead with before | ⟨same, dies⟩
    · have notInit : x ≠ initproc := by
        rintro rfl
        exact dead.elim (step.initUsed table).1 (step.initUsed table).2
      have other : x ≠ p := by
        rintro rfl
        simp [step.before] at before
      exact table.childless x before y (step.parent_came other notInit child)
    · exact (step.dies dies).2.1 y (same ▸ child)
  waits x notInit waits := by
    by_cases same : x = p
    · subst same
      exact step.waits waits notInit
    obtain ⟨asleep, chan⟩ := (step.calm x same).asleep waits.1
    obtain ⟨⟨y, child⟩, alive⟩ := table.waits x notInit ⟨asleep, chan.symm.trans waits.2⟩
    refine ⟨⟨y, step.parent_keeps same child⟩, fun z child dead => ?_⟩
    have before := step.parent_came same notInit child
    exact (step.dies_locked table (machine.runs c p here).original dead (alive z before) before
      notInit).2 waits

theorem Good.step (good : Good s view pass) (here : s.Runs c p) (step : Step s t p (view c) later)
    (code : ThreadMeets p (t.todo p) later) : Good t (update view c later) pass where
  machine := good.machine.step here step code
  knows d q there := by
    rw [State.Runs, step.cpu] at there
    by_cases same : d = c
    · subst same
      obtain rfl : p = q := Option.mem_unique here there
      rw [update_self]
      exact step.knows
    · have thread := good.machine.runs d q there
      rw [update_of_ne same]
      refine (good.knows d q there).step good.table step (good.machine.runs c p here).original
        (good.machine.ne here there same) (fun y => good.machine.apart here there same) ?_
      intro exiting
      obtain ⟨r, remembered⟩ := Option.ne_none_iff_exists'.mp exiting
      exact (good.table.kin q r (thread.original.trans remembered) (thread.state ▸ thread.used)).1
  table := good.table.step good.machine here step

end Step

end OsLab.Sched
