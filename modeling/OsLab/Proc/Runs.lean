import OsLab.Proc.Steps

/-!
# The runs of the process table

Every state of a run keeps the invariant.  From it: a process runs on one CPU at most, and a
process that sleeps in `wait` has a child and no dead child.
-/

namespace OsLab.Sched

open Prog View Function List

variable {Cpu : Type*} [DecidableEq Cpu] {s t : State Cpu} {c : Cpu} {p : Pslot}
  {view : Cpu → View} {pass : Cpu → Pass} {known later : View} {x : Pslot}

omit [DecidableEq Cpu] in
theorem Step.setTodo (step : Step s t p known later) (code : Code Next) :
    Step s (t.setTodo p code) p known later := by
  have rest : ∀ y, y ≠ p → (t.setTodo p code).todo y = t.todo y :=
    fun y other => update_of_ne other ..
  refine { step with
    born := fun y other => by rw [rest y other]; exact step.born y other
    code := fun y other => by rw [rest y other]; exact step.code y other
    knows := step.knows.congr rfl rfl fun x unused => rest x ?_ }
  rintro rfl
  exact step.used (step.own.symm.trans unused)

omit [DecidableEq Cpu] in
theorem Knows.release (knows : Knows s p known) (l : Spinlock) :
    Knows s p (after p known (.release l) ()) := by
  by_cases last : known.held.erase l = []
  · simp only [View.after, if_pos last]
    constructor <;> simp [base]
  simp only [View.after, if_neg last]
  refine { knows with
    child := by simp
    scanned := fun x inside => ?_
    woken := by simp
    fresh := by simp
    found := by simp }
  dsimp only at inside
  split at inside
  · omega
  · rename_i other
    obtain ⟨locked, alive⟩ := knows.scanned x inside
    exact ⟨(mem_erase_of_ne (Ne.symm other)).mpr locked, alive⟩

/-- The invariant holds with some views. -/
def Invariant (s : State Cpu) : Prop := ∃ view pass, Good s view pass

theorem Next.code_meets {next : Next} {view : View} (ends : Ends p next view) :
    ThreadMeets p next.code view := by
  cases next with
  | user => exact ends
  | waitLoop q addr flags =>
    obtain ⟨rfl, rfl⟩ := ends
    exact meets_waitRound addr flags

variable {code : Code Next} {l : Spinlock} {outcome : Bool} {op : Op} {result : op.Res}

section

variable (good : Good s view pass) (here : s.Runs c p)
include good here

theorem Good.quiet (step : Step s t p (view c) later)
    (meets : ThreadMeets p code later) : Good (t.setTodo p code) (update view c later) pass := by
  refine good.step here (step.setTodo code) ?_
  rw [show (t.setTodo p code).todo p = code from update_self ..]
  exact meets

theorem Good.panic (reason : Panic) :
    Good { s with panic := some reason } view pass := by
  have kept := good.relock (t := { s with panic := some reason }) here rfl rfl rfl rfl
    (fun _ _ => rfl) (fun _ _ => rfl) here (fun _ _ _ => .rfl)
    ((good.machine.runs c p here).frame rfl (fun _ => .rfl) rfl rfl rfl) (good.knows c p here)
    fun _ _ => id
  rwa [update_eq_self] at kept

theorem Good.acquire (needed : View.pre p (.acquire l) (view c)) (free : s.lock l = none)
    (meets : ThreadMeets p code { view c with held := l :: (view c).held }) :
    Good (((s.setLock l (some c)).setCpu c fun u => { u with noff := u.noff + 1 }).setTodo p code)
      (update view c { view c with held := l :: (view c).held }) pass := by
  have thread := good.machine.runs c p here
  have knows := good.knows c p here
  have new : l ∉ (view c).held := fun held => by simp [(thread.lock l).mpr held] at free
  have self : ((s.setLock l (some c)).setCpu c fun u => { u with noff := u.noff + 1 }).cpu c =
      { s.cpu c with noff := (s.cpu c).noff + 1 } := update_self ..
  refine good.relock here rfl rfl rfl rfl (fun q other => update_of_ne other ..)
    (fun d other => update_of_ne other ..) ?_ (fun d other k => ?_) ?_ ?_ fun _ _ => id
  · rw [State.Runs, State.setTodo, self]
    exact here
  · change update s.lock l (some c) k = some d ↔ s.lock k = some d
    by_cases same : k = l
    · simp [same, free, other.symm]
    · rw [update_of_ne same]
  · exact {
      proc := by rw [State.setTodo, self]; exact thread.proc
      noff := by rw [State.setTodo, self, length_cons, ← thread.noff]
      nodup := nodup_cons.mpr ⟨new, thread.nodup⟩
      lock := fun k => by
        change update s.lock l (some c) k = some c ↔ _
        by_cases same : k = l
        · simp [same]
        · rw [update_of_ne same, thread.lock k]
          simp [same]
      state := thread.state
      used := thread.used
      away := (absurd needed.1 ·)
      quiet := by simp
      original := thread.original
      code := by
        rw [show (((s.setLock l (some c)).setCpu c fun u =>
          { u with noff := u.noff + 1 }).setTodo p code).todo p = code from
          update_self ..]
        exact meets
      loop := by rw [State.setTodo, self]; exact thread.loop }
  · exact { knows with
      scanned := fun x inside => ⟨.tail _ (knows.scanned x inside).1, (knows.scanned x inside).2⟩
      woken := fun awake q remembered =>
        ⟨.tail _ (knows.woken awake q remembered).1, (knows.woken awake q remembered).2⟩
      fresh := fun x stage filling =>
        ⟨.tail _ (knows.fresh x stage filling).1, (knows.fresh x stage filling).2⟩
      found := fun x pid xstate dead =>
        ⟨.tail _ (knows.found x pid xstate dead).1, (knows.found x pid xstate dead).2⟩ }

theorem Good.release (needed : View.pre p (.release l) (view c)) (held : s.lock l = some c)
    (meets : ThreadMeets p code (after p (view c) (.release l) ())) :
    Good (((s.setLock l none).setCpu c fun u => { u with noff := u.noff - 1 }).setTodo p code)
      (update view c (after p (view c) (.release l) ())) pass := by
  have thread := good.machine.runs c p here
  have mine := (thread.lock l).mp held
  have self : ((s.setLock l none).setCpu c fun u => { u with noff := u.noff - 1 }).cpu c =
      { s.cpu c with noff := (s.cpu c).noff - 1 } := update_self ..
  obtain ⟨left, own, original, quiet⟩ := View.release_spec (l := l) needed.1
  refine good.relock here rfl rfl rfl rfl (fun q other => update_of_ne other ..)
    (fun d other => update_of_ne other ..) ?_ (fun d other k => ?_) ?_
    ((good.knows c p here).release l) fun y stage filling => by simp [needed.2] at filling
  · rw [State.Runs, State.setTodo, self]
    exact here
  · change update s.lock l none k = some d ↔ s.lock k = some d
    by_cases same : k = l
    · simp [same, held, other.symm]
    · rw [update_of_ne same]
  · exact {
      proc := by rw [State.setTodo, self]; exact thread.proc
      noff := by rw [State.setTodo, self, left, length_erase_of_mem mine, ← thread.noff]
      nodup := left ▸ thread.nodup.erase l
      lock := fun k => by
        change update s.lock l none k = some c ↔ _
        rw [left, thread.nodup.mem_erase_iff]
        by_cases same : k = l
        · simp [same]
        · rw [update_of_ne same, thread.lock k]
          simp [same]
      state := own ▸ thread.state
      used := own ▸ thread.used
      away := fun away => by
        rw [left]
        exact needed.1.resolve_left (own ▸ away)
      quiet := quiet
      original := original ▸ thread.original
      code := by
        rw [show (((s.setLock l none).setCpu c fun u =>
          { u with noff := u.noff - 1 }).setTodo p code).todo p = code from
          update_self ..]
        exact meets
      loop := by rw [State.setTodo, self]; exact thread.loop }

omit [DecidableEq Cpu] in
/-- An entry that this thread has locked and not adopted has no parent while it is unused. -/
theorem Good.alone (locked : .proc x ∈ (view c).held)
    (settled : (view c).fresh ≠ some (x, .adopted)) (unused : (s.proc x).state = .unused) :
    (s.proc x).parent = none := by
  refine (good.table.orphan x unused).resolve_right ?_
  rintro ⟨d, q, there, fresh⟩
  have apart : d ≠ c := by
    rintro rfl
    exact settled fresh
  exact good.machine.apart here there apart (good.knows d q there |>.fresh x _ fresh).1 locked

/-- What an operation other than taking or giving back a lock and `sched` does. -/
theorem Good.effect (needed : View.pre p op (view c))
    (done : effect s c outcome op = (t, some result)) (moved : op ≠ .sched)
    (locks : ∀ l, op ≠ .acquire l ∧ op ≠ .release l) :
    Told p (view c) op result ∧ Step s t p (view c) (after p (view c) op result) := by
  have thread := good.machine.runs c p here
  have knows := good.knows c p here
  cases op with
  | acquire l => exact absurd rfl (locks l).1
  | release l => exact absurd rfl (locks l).2
  | sched => exact absurd rfl moved
  | dispatch => exact needed.elim
  | idle => exact needed.elim
  | panic => cases done
  | holding l =>
    cases done
    exact ⟨by simp [Told, thread.lock l], .same thread needed knows⟩
  | myproc =>
    cases done
    exact ⟨thread.proc, .same thread needed knows⟩
  | succeeds =>
    cases done
    exact ⟨trivial, .same thread needed knows⟩
  | isKilled x =>
    cases done
    exact ⟨trivial, .same thread needed knows⟩
  | isRunnable x =>
    cases done
    exact ⟨trivial, .same thread needed knows⟩
  | parentOf x =>
    cases done
    exact ⟨trivial, .parentOf thread needed knows x⟩
  | ownParent x =>
    obtain rfl := needed.1
    cases done
    exact ⟨trivial, .ownParent thread knows needed outcome⟩
  | claim x =>
    by_cases unused : (s.proc x).state = .unused
    · have step := Step.claim thread knows needed unused
        (good.alone here needed.1 (by simp [needed.2.2]) unused) good.table.counts
        ((good.table.tidy x unused).imp_right And.left) outcome
      rw [show Sched.effect s c outcome (.claim x) = _ from if_pos unused] at done step
      cases done
      refine ⟨fun _ same => ?_, step⟩
      subst same
      exact thread.used (thread.state.symm.trans unused)
    · rw [show Sched.effect s c outcome (.claim x) = _ from if_neg unused] at done
      cases done
      exact ⟨by simp [Told], .same thread needed.2.1 knows⟩
  | trapframe x =>
    have step := Step.trapframe thread knows needed outcome
    cases done
    exact ⟨trivial, step⟩
  | initContext x =>
    cases done
    exact ⟨trivial, .initContext thread knows needed⟩
  | freeproc x =>
    cases done
    exact ⟨trivial, .freeproc thread knows needed⟩
  | adopt np x =>
    obtain rfl := needed.1
    cases done
    exact ⟨trivial, .adopt thread knows needed outcome⟩
  | giveToInit pp =>
    cases done
    have used : (s.proc pp).state ≠ .unused := fun unused => by
      have none := good.alone here needed.2.1 (by simp [needed.2.2.2.2.2.1]) unused
      simp [knows.child pp needed.1] at none
    exact ⟨trivial, .giveToInit thread knows needed used⟩
  | ready x =>
    cases done
    obtain ⟨running, ⟨rfl, locked⟩ | ⟨other, adopted⟩⟩ := needed
    · exact ⟨trivial, .readySelf thread knows running locked⟩
    · exact ⟨trivial, .readyFresh thread knows running other adopted⟩
  | wakeup x chan =>
    have step := Step.wakeup thread knows needed outcome
    by_cases asleep : (s.proc x).state = .sleeping ∧ (s.proc x).chan = some chan
    · rw [show Sched.effect s c outcome (.wakeup x chan) = _ from if_pos asleep] at done step
      cases done
      exact ⟨trivial, step⟩
    · rw [show Sched.effect s c outcome (.wakeup x chan) = _ from if_neg asleep] at done step
      cases done
      exact ⟨trivial, step⟩
  | kill x pid =>
    by_cases found : (s.proc x).pid = pid
    · rw [show Sched.effect s c outcome (.kill x pid) = _ from if_pos found] at done
      cases done
      exact ⟨trivial, .kill thread knows needed.1 needed.2.1⟩
    · rw [show Sched.effect s c outcome (.kill x pid) = _ from if_neg found] at done
      cases done
      exact ⟨trivial, .same thread needed.2.1 knows⟩
  | zombie np =>
    cases done
    exact ⟨trivial, .zombie thread knows needed⟩
  | reap np x pid xstate =>
    obtain rfl := needed.1
    cases done
    exact ⟨trivial, .reap thread knows needed outcome⟩
  | sleep x chan =>
    obtain rfl := needed.1
    cases done
    exact ⟨trivial, .sleep thread knows needed⟩
  | clearChan x =>
    obtain ⟨rfl, locked, running⟩ := needed
    cases done
    exact ⟨trivial, .clearChan thread knows locked running⟩
  | die x status =>
    obtain rfl := needed.1
    cases done
    exact ⟨trivial, .die thread knows needed outcome⟩

theorem Good.setTodo (meets : ThreadMeets p code (view c)) (history : List Event) :
    Good { s.setTodo p code with history } view pass := by
  have thread := good.machine.runs c p here
  have same : Thread { s.setTodo p code with history } c p (view c) :=
    { thread with
      code := by
        rw [show (s.setTodo p code).todo p = code from update_self ..]
        exact meets }
  have kept := good.relock (t := { s.setTodo p code with history }) here rfl rfl rfl rfl
    (fun q other => update_of_ne other ..) (fun _ _ => rfl) here (fun _ _ _ => .rfl)
    same (good.knows c p here) fun _ _ => id
  rwa [update_eq_self] at kept

theorem effect_sched (needed : View.pre p .sched (view c)) (outcome : Bool) :
    effect s c outcome .sched = (s.setCpu c fun u => { u with current := none }, some ()) := by
  have thread := good.machine.runs c p here
  obtain ⟨held, away⟩ := needed
  have locked : s.lock (.proc p) = some c := (thread.lock _).mpr (by simp [held])
  have noff : (s.cpu c).noff = 1 := thread.noff.trans (by simp [held])
  have state : (s.proc p).state ≠ .running := thread.state ▸ away
  simp [effect, thread.proc, locked, noff, state]

end

theorem effect_some (done : effect s c outcome op = (t, some result)) :
    t.panic = s.panic := by
  cases op <;> simp only [effect] at done <;> repeat' split at done
  all_goals cases done <;> rfl

theorem effect_none (moved : op ≠ .sched) (done : effect s c outcome op = (t, none)) :
    ∃ reason, t = { s with panic := some reason } ∧
      (reason = .acquire ∨ reason = .release ∨ op = .panic reason) := by
  cases op <;> simp only [effect] at done
  case sched => exact absurd rfl moved
  case panic reason =>
    cases done
    exact ⟨reason, rfl, .inr (.inr rfl)⟩
  case acquire =>
    split at done
    · cases done
      exact ⟨.acquire, rfl, .inl rfl⟩
    · cases done
  case release =>
    split at done
    · cases done
    · cases done
      exact ⟨.release, rfl, .inr (.inl rfl)⟩
  all_goals (try split at done) <;> cases done

theorem stepProc_ret {next : Next} (code : s.todo p = .ret next) (outcome : Bool) :
    stepProc s c p outcome = s.setTodo p next.code := by
  simp [stepProc, code]

variable {rest : op.Res → Code Next}

theorem stepProc_some (code : s.todo p = .call op rest)
    (done : effect s c outcome op = (t, some result)) :
    stepProc s c p outcome = t.setTodo p (rest result) := by
  simp [stepProc, code, done]

theorem stepProc_none (code : s.todo p = .call op rest) (done : effect s c outcome op = (t, none)) :
    stepProc s c p outcome = t := by
  simp [stepProc, code, done]

theorem effect_acquire (ready : ¬ Blocked s c (.acquire l))
    (done : effect s c outcome (.acquire l) = (t, some ())) :
    s.lock l = none ∧
      t = (s.setLock l (some c)).setCpu c fun u => { u with noff := u.noff + 1 } := by
  by_cases own : s.lock l = some c
  · simp [effect, own] at done
  rw [show effect s c outcome (.acquire l) = _ from if_neg own] at done
  cases done
  refine ⟨?_, rfl⟩
  by_contra taken
  exact ready ⟨taken, own⟩

theorem effect_release (done : effect s c outcome (.release l) = (t, some ())) :
    s.lock l = some c ∧ t = (s.setLock l none).setCpu c fun u => { u with noff := u.noff - 1 } := by
  by_cases own : s.lock l = some c
  · rw [show effect s c outcome (.release l) = _ from if_pos own] at done
    cases done
    exact ⟨own, rfl⟩
  · simp [effect, own] at done

theorem Good.stepProc (good : Good s view pass) (here : s.Runs c p) (ready : Ready s c (s.todo p))
    (outcome : Bool) :
    Invariant (stepProc s c p outcome) ∧
      ((stepProc s c p outcome).panic = some .schedRunning → s.panic = some .schedRunning) := by
  have thread := good.machine.runs c p here
  have meets := thread.code
  cases code : s.todo p with
  | ret next =>
    rw [code] at meets
    rw [stepProc_ret code]
    exact ⟨⟨view, pass, good.setTodo here (Next.code_meets meets) s.history⟩, id⟩
  | call op rest =>
    rw [code] at meets ready
    obtain ⟨needed, continues⟩ := meets
    by_cases switching : op = .sched
    · subst switching
      rw [stepProc_some code (effect_sched good here needed outcome)]
      exact ⟨⟨view, _, good.sched here needed _ (continues () _ ⟨trivial, rfl⟩)⟩, id⟩
    rcases done : Sched.effect s c outcome op with ⟨t, _ | result⟩
    · obtain ⟨reason, rfl, why⟩ := effect_none switching done
      rw [stepProc_none code done]
      refine ⟨⟨view, pass, good.panic here reason⟩, fun panicked => ?_⟩
      obtain rfl : reason = .schedRunning := Option.some.inj panicked
      rcases why with why | why | why
      · cases why
      · cases why
      · subst why
        exact absurd rfl needed.2
    · rw [stepProc_some code done]
      refine ⟨?_, fun panicked => (effect_some done).symm.trans panicked⟩
      by_cases locking : ∃ l, op = .acquire l
      · obtain ⟨l, rfl⟩ := locking
        obtain ⟨free, rfl⟩ := effect_acquire ready done
        have new : l ∉ (view c).held := fun held => by simp [(thread.lock l).mpr held] at free
        exact ⟨_, pass, good.acquire here needed free (continues () _ ⟨new, rfl⟩)⟩
      by_cases unlocking : ∃ l, op = .release l
      · obtain ⟨l, rfl⟩ := unlocking
        obtain ⟨held, rfl⟩ := effect_release done
        exact ⟨_, pass, good.release here needed held (continues () _ ⟨trivial, rfl⟩)⟩
      obtain ⟨told, step⟩ := good.effect here needed done switching fun l =>
        ⟨fun same => locking ⟨l, same⟩, fun same => unlocking ⟨l, same⟩⟩
      exact ⟨_, pass, good.quiet here step (continues result _ ⟨told, rfl⟩)⟩

theorem stepLoop_ret (code : (s.cpu c).loop = .ret ()) (outcome : Bool) :
    stepLoop s c outcome = s.setCpu c fun u => { u with loop := scheduler } := by
  simp [stepLoop, code]

theorem stepLoop_some {rest : op.Res → Code Unit} (code : (s.cpu c).loop = .call op rest)
    (done : effect s c outcome op = (t, some result)) :
    stepLoop s c outcome = t.setCpu c fun u => { u with loop := rest result } := by
  simp [stepLoop, code, done]

theorem Idle.setLoop {seen : Pass} (idle : Idle s c seen) {code : Code Unit}
    (meets : LoopMeets code seen) : Idle (s.setCpu c fun u => { u with loop := code }) c seen := by
  have self : (s.setCpu c fun u => { u with loop := code }).cpu c =
      { s.cpu c with loop := code } := update_self ..
  exact { idle with
    proc := by rw [self]; exact idle.proc
    noff := by rw [self]; exact idle.noff
    loop := by rw [self]; exact meets }

variable {change : CpuState → CpuState}

section

variable (good : Good s view pass) (seen : Pass) (resting : (s.cpu c).current = none)
  (kept : (change (s.cpu c)).current = none)
include good seen resting kept

theorem Good.ownCpu (idle : Idle (s.setCpu c change) c seen) :
    Good (s.setCpu c change) view (update pass c seen) := by
  refine good.idleStep resting rfl rfl rfl rfl rfl (fun d other => update_of_ne other ..)
    ?_ (fun _ _ _ => .rfl) idle
  rw [show (s.setCpu c change).cpu c = change (s.cpu c) from update_self ..]
  exact kept

theorem Good.ownLock {holder : Option Cpu} (before : s.lock l = none ∨ s.lock l = some c)
    (after : holder = none ∨ holder = some c)
    (idle : Idle ((s.setLock l holder).setCpu c change) c seen) :
    Good ((s.setLock l holder).setCpu c change) view (update pass c seen) := by
  refine good.idleStep resting rfl rfl rfl rfl rfl (fun d other => update_of_ne other ..)
    ?_ (fun d other k => ?_) idle
  · rw [show ((s.setLock l holder).setCpu c change).cpu c = change (s.cpu c) from
      update_self ..]
    exact kept
  · change update s.lock l holder k = some d ↔ s.lock k = some d
    by_cases same : k = l
    · rw [same, update_self]
      rcases before with before | before <;> rcases after with after | after <;>
        simp [before, after, other.symm]
    · rw [update_of_ne same]

end

theorem State.setCpu_setCpu (s : State Cpu) (c : Cpu) (first second : CpuState → CpuState) :
    (s.setCpu c first).setCpu c second = s.setCpu c (second ∘ first) := by
  simp [State.setCpu]

theorem Good.stepLoop (good : Good s view pass) (resting : (s.cpu c).current = none)
    (ready : Ready s c (s.cpu c).loop) (outcome : Bool) :
    Invariant (stepLoop s c outcome) ∧ (stepLoop s c outcome).panic = s.panic := by
  have idle := good.machine.idle c resting
  have meets := idle.loop
  cases code : (s.cpu c).loop with
  | ret result =>
    rw [code] at meets
    rw [stepLoop_ret code]
    have start : pass c = Pass.base := meets
    rw [start] at idle
    exact ⟨⟨view, _, good.ownCpu _ resting resting (idle.setLoop (schedulerFrom_meets _))⟩, rfl⟩
  | call op rest =>
    rw [code] at meets ready
    obtain ⟨needed, continues⟩ := meets
    cases op with
    | acquire l =>
      obtain ⟨start, -, -⟩ := needed
      rw [start] at idle
      have other : s.lock l ≠ some c := fun held => by
        simpa [Pass.base] using (idle.lock l).mp held
      have free : s.lock l = none := by
        by_contra taken
        exact ready ⟨taken, other⟩
      rw [stepLoop_some code (if_neg other), State.setCpu_setCpu]
      refine ⟨⟨view, _, good.ownLock ⟨[l], none⟩ resting resting (.inl free) (.inr rfl) ?_⟩, rfl⟩
      have self : ∀ change, ((s.setLock l (some c)).setCpu c change).cpu c =
        change (s.cpu c) := fun _ => update_self ..
      exact {
        proc := by rw [self]; exact idle.proc
        noff := by rw [self]; exact congrArg (· + 1) idle.noff
        lock := fun k => by
          change update s.lock l (some c) k = some c ↔ _
          by_cases same : k = l
          · simp [same]
          · rw [update_of_ne same, idle.lock k]
            simp [Pass.base, same]
        chosen := by simp
        loop := by rw [self]; exact continues () _ rfl }
    | release l =>
      have start : pass c = ⟨[l], none⟩ := needed
      rw [start] at idle
      have held : s.lock l = some c := (idle.lock l).mpr (by simp)
      rw [stepLoop_some code (if_pos held), State.setCpu_setCpu]
      refine ⟨⟨view, _, good.ownLock Pass.base resting resting (.inr held) (.inl rfl) ?_⟩, rfl⟩
      have self : ∀ change, ((s.setLock l none).setCpu c change).cpu c =
        change (s.cpu c) := fun _ => update_self ..
      exact {
        proc := by rw [self]; exact idle.proc
        noff := by rw [self]; exact congrArg (· - 1) idle.noff
        lock := fun k => by
          change update s.lock l none k = some c ↔ _
          by_cases same : k = l
          · simp [same, Pass.base]
          · rw [update_of_ne same, idle.lock k]
            simp [Pass.base, same]
        chosen := by simp [Pass.base]
        loop := by rw [self]; exact continues () _ rfl }
    | dispatch p =>
      have start : pass c = ⟨[.proc p], none⟩ := needed
      by_cases runnable : (s.proc p).state = .runnable
      · rw [stepLoop_some code (if_pos runnable)]
        refine ⟨⟨_, pass, good.dispatch resting
          ⟨rfl, rfl, rfl, rfl, rfl, runnable, ?_, ?_, ?_, ?_⟩ start
          (continues true _ rfl)⟩, rfl⟩
        · exact update_self ..
        · exact fun q other => update_of_ne other ..
        · simp [State.setCpu, State.modify]
        · intro d other
          simp [State.setCpu, State.modify, other]
      · have done : Sched.effect s c outcome (.dispatch p) = (s, some false) := if_neg runnable
        rw [stepLoop_some code done]
        refine ⟨⟨view, _, good.ownCpu _ resting resting (idle.setLoop ?_)⟩, rfl⟩
        exact continues false _ rfl
    | idle =>
      obtain ⟨p, start⟩ := needed
      rw [start] at idle continues
      rw [stepLoop_some code rfl, State.setCpu_setCpu]
      refine ⟨⟨view, _, good.ownCpu ⟨[.proc p], none⟩ resting resting ?_⟩, rfl⟩
      have self : ∀ change, (s.setCpu c change).cpu c = change (s.cpu c) :=
        fun _ => update_self ..
      exact {
        proc := by rw [self]; rfl
        noff := by rw [self]; exact idle.noff
        lock := idle.lock
        chosen := by simp
        loop := by rw [self]; exact continues () _ rfl }
    | _ => exact needed.elim

/-- Nothing that concerns the processes has changed. -/
structure SameTable (s t : State Cpu) : Prop where
  proc : t.proc = s.proc
  original : t.original = s.original
  stale : t.stale = s.stale
  todo : t.todo = s.todo
  history : t.history = s.history
  pids : t.nextpid = s.nextpid

/-- The scheduler changes the state of the process to which it switches, and nothing else of the
table. -/
theorem Good.stepLoop_table (good : Good s view pass) (resting : (s.cpu c).current = none)
    (outcome : Bool) : SameTable s (Sched.stepLoop s c outcome) ∨
      ∃ p, (s.proc p).state = .runnable ∧ SameTable
        (s.modify p fun e => { e with state := .running }) (Sched.stepLoop s c outcome) := by
  have meets := (good.machine.idle c resting).loop
  have same : ∀ lock cpu panic, SameTable s { s with lock, cpu, panic } := fun _ _ _ =>
    ⟨rfl, rfl, rfl, rfl, rfl, rfl⟩
  cases code : (s.cpu c).loop with
  | ret result =>
    rw [stepLoop_ret code]
    exact .inl (same ..)
  | call op rest =>
    rw [code] at meets
    obtain ⟨needed, -⟩ := meets
    cases op with
    | acquire l | release l =>
      simp only [Sched.stepLoop, code, Sched.effect]
      split_ifs <;> exact .inl (same ..)
    | dispatch p =>
      by_cases runnable : (s.proc p).state = .runnable
      · rw [stepLoop_some code (if_pos runnable)]
        exact .inr ⟨p, runnable, rfl, rfl, rfl, rfl, rfl, rfl⟩
      · rw [stepLoop_some code (if_neg runnable)]
        exact .inl (same ..)
    | idle =>
      rw [stepLoop_some code rfl]
      exact .inl (same ..)
    | _ => exact needed.elim

/-- The invariant and the panic that no run reaches. -/
def Sane (s : State Cpu) : Prop := Invariant s ∧ s.panic ≠ some .schedRunning

/-- A thread without locks can be made to yield at any point. -/
theorem Good.timer (good : Good s view pass) (here : s.Runs c p) (unlocked : (s.cpu c).noff = 0) :
    Good (s.setTodo p (Sched.yield >>= fun _ => s.todo p)) view pass := by
  have thread := good.machine.runs c p here
  have none : (view c).held = [] := length_eq_zero_iff.mp (thread.noff ▸ unlocked)
  have quiet := thread.quiet none
  have yields : Sched.yield.Meets (spec p) (view c) fun _ later => later = view c := by
    rw [quiet]
    exact meets_yield (view c).original
  exact good.setTodo here (yields.bind fun _ later same => same ▸ thread.code) s.history

/-- A step is one of a process or of a scheduler, or gives a process new code. -/
theorem next_cases {P : State Cpu → Prop} {action : Action Cpu}
    (enabled : (schedSystem Cpu).Enabled s action)
    (proc : ∀ c p outcome, action = .step c outcome → s.Runs c p → Ready s c (s.todo p) →
      P (stepProc s c p outcome))
    (loop : ∀ c outcome, (s.cpu c).current = none → Ready s c (s.cpu c).loop →
      P (stepLoop s c outcome))
    (call : ∀ c p (request : Call), s.Runs c p → s.todo p = .ret .user →
      P { s.setTodo p request.code with
        history := request.events (s.proc p).birth ++ s.history })
    (timer : ∀ c p, s.Runs c p → (s.cpu c).noff = 0 →
      P (s.setTodo p (Sched.yield >>= fun _ => s.todo p))) :
    P ((schedSystem Cpu).next s action) := by
  obtain ⟨-, allowed⟩ := enabled
  cases action with
  | step c outcome =>
    simp only [Allowed] at allowed
    simp only [schedSystem, Sched.next]
    split at allowed
    · rename_i p current
      exact proc c p outcome rfl current allowed.2
    · rename_i current
      exact loop c outcome current allowed
  | call c request =>
    obtain ⟨p, here, code⟩ := allowed
    simp only [schedSystem, Sched.next, here]
    exact call c p request here code
  | timer c =>
    obtain ⟨p, here, unlocked, -⟩ := allowed
    simp only [schedSystem, Sched.next, here]
    exact timer c p here unlocked

theorem sane_next (sane : Sane s) {action : Action Cpu}
    (enabled : (schedSystem Cpu).Enabled s action) : Sane ((schedSystem Cpu).next s action) := by
  obtain ⟨⟨view, pass, good⟩, fine⟩ := sane
  refine next_cases enabled (fun c p outcome _ here ready => ?_) (fun c outcome resting ready => ?_)
    (fun c p request here code => ?_) fun c p here unlocked => ?_
  · obtain ⟨good, panics⟩ := good.stepProc here ready outcome
    exact ⟨good, fun panicked => fine (panics panicked)⟩
  · obtain ⟨good, panics⟩ := good.stepLoop resting ready outcome
    exact ⟨good, panics ▸ fine⟩
  · have ended : view c = base none := by
      have meets := (good.machine.runs c p here).code
      rw [code] at meets
      exact meets
    exact ⟨⟨view, pass, good.setTodo here (ended ▸ request.code_meets) _⟩, fine⟩
  · exact ⟨⟨view, pass, good.timer here unlocked⟩, fine⟩

omit [DecidableEq Cpu] in
theorem sane_boot : Sane (boot Cpu) := by
  have parent : ∀ y, ((boot Cpu).proc y).parent = none := by
    intro y
    by_cases first : y = initproc <;> simp [boot, first, Proc.init, Proc.unused]
  have state : ∀ y, ((boot Cpu).proc y).state = if y = initproc then .runnable else .unused := by
    intro y
    by_cases first : y = initproc <;> simp [boot, first, Proc.init, Proc.unused]
  refine ⟨⟨fun _ => base none, fun _ => Pass.base, ?_, ?_, ?_⟩, by simp [boot]⟩
  · exact {
      runs := by simp [boot]
      idle := fun c _ => ⟨rfl, rfl, by simp [boot, Pass.base], by simp [Pass.base],
        schedulerFrom_meets _⟩
      unique := by simp [boot]
      stopped := fun p _ => by
        rw [state]
        split <;> simp
      parked := fun p _ _ => meets_forkret }
  · simp [boot]
  · exact {
      counts := by simp [boot]
      initUsed := by simp [state]
      initTop := parent _
      kin := by simp [boot]
      orphan := fun y _ => .inl (parent y)
      tidy := fun y unused => by
        have other : y ≠ initproc := by
          rintro rfl
          simp [state] at unused
        simp [boot, other, Proc.unused]
      childless := fun x _ y => by simp [parent]
      waits := fun x _ waits => by
        have asleep := waits.1
        rw [state] at asleep
        split at asleep <;> cases asleep }

theorem sane_of_reaches (run : (schedSystem Cpu).Reaches (boot Cpu) s) : Sane s :=
  System.Reaches.invariant (P := Sane) (fun _ _ sane enabled => sane_next sane enabled) run
    sane_boot

section

omit [DecidableEq Cpu]

section

variable (machine : Machine s view pass)
include machine

/-- A CPU with `c->proc = p` runs the process or holds its lock after the process has stopped. -/
theorem Machine.proc_cases (mine : (s.cpu c).proc = some p) :
    s.Runs c p ∨ ((s.cpu c).current = none ∧ s.lock (.proc p) = some c ∧
      (s.proc p).state ≠ .running) := by
  cases current : (s.cpu c).current with
  | some q =>
    have same := (machine.runs c q current).proc
    exact .inl (current.trans (same.symm.trans mine))
  | none =>
    have idle := machine.idle c current
    obtain ⟨held, stopped⟩ := idle.chosen p (idle.proc.symm.trans mine)
    exact .inr ⟨rfl, (idle.lock _).mpr held, stopped⟩

theorem Machine.locked_of_proc (mine : (s.cpu c).proc = some p)
    (stopped : (s.proc p).state ≠ .running) : s.lock (.proc p) = some c := by
  rcases machine.proc_cases mine with here | ⟨-, locked, -⟩
  · have thread := machine.runs c p here
    exact (thread.lock _).mpr (thread.away (thread.state ▸ stopped))
  · exact locked

theorem Machine.proc_unique {d : Cpu} (first : (s.cpu c).proc = some p)
    (second : (s.cpu d).proc = some p) : c = d := by
  by_cases running : (s.proc p).state = .running
  · have here := (machine.proc_cases first).resolve_right fun idle => idle.2.2 running
    have there := (machine.proc_cases second).resolve_right fun idle => idle.2.2 running
    exact machine.unique c d p here there
  · exact Option.some.inj ((machine.locked_of_proc first running).symm.trans
      (machine.locked_of_proc second running))

end

end

/-- The code is about to free the entry. -/
def Frees (x : Pslot) : Code Next → Prop
  | .call (.freeproc y) _ => y = x
  | .call (.reap y _ _ _) _ => y = x
  | _ => False

omit [DecidableEq Cpu] in
/-- An entry that a process is about to free is locked and not in use. -/
theorem Good.frees (good : Good s view pass) (here : s.Runs c p) (frees : Frees x (s.todo p)) :
    s.lock (.proc x) = some c ∧ (s.proc p).state = .running ∧
      ((s.proc x).state = .unused ∨ (s.proc x).state = .zombie) := by
  have thread := good.machine.runs c p here
  have meets := thread.code
  generalize s.todo p = code at meets frees
  unfold Frees at frees
  split at frees
  · subst frees
    obtain ⟨running, stage, -, filling⟩ := meets.1
    obtain ⟨locked, fresh⟩ := (good.knows c p here).fresh _ stage filling
    exact ⟨(thread.lock _).mpr locked, thread.state.trans running, .inl fresh.state⟩
  · subst frees
    obtain ⟨-, found, running⟩ := meets.1
    obtain ⟨locked, -, dead, -⟩ := (good.knows c p here).found _ _ _ found
    exact ⟨(thread.lock _).mpr locked, thread.state.trans running, .inr dead⟩
  · exact frees.elim

/-- A process that is `RUNNING` is the `c->proc` of exactly one CPU, no process is that of two, a
process with a free lock that is not `RUNNING` is on no CPU, no process frees one that is on a
CPU, and `sched` never finds its process `RUNNING`. -/
theorem running_on_one_cpu (run : (schedSystem Cpu).Reaches (boot Cpu) s) :
    (∀ p, (s.proc p).state = .running → ∃! c, (s.cpu c).proc = some p) ∧
      (∀ p c d, (s.cpu c).proc = some p → (s.cpu d).proc = some p → c = d) ∧
      (∀ p, s.lock (.proc p) = none → (s.proc p).state ≠ .running →
        ∀ c, (s.cpu c).proc ≠ some p ∧ (s.cpu c).current ≠ some p) ∧
      (∀ c p x, (s.cpu c).current = some p → Frees x (s.todo p) →
        ∀ d, (s.cpu d).proc ≠ some x ∧ (s.cpu d).current ≠ some x) ∧
      s.panic ≠ some .schedRunning := by
  obtain ⟨⟨view, pass, good⟩, fine⟩ := sane_of_reaches run
  have machine := good.machine
  have away : ∀ p, (s.proc p).state ≠ .running → ∀ c, s.lock (.proc p) ≠ some c →
      (s.cpu c).proc ≠ some p ∧ (s.cpu c).current ≠ some p := by
    intro p stopped c unlocked
    have clear : (s.cpu c).proc ≠ some p := fun mine =>
      unlocked (machine.locked_of_proc mine stopped)
    exact ⟨clear, fun here => clear (machine.runs c p here).proc⟩
  refine ⟨fun p running => ?_, fun p c d => machine.proc_unique, fun p free stopped c => ?_,
    fun c p x here frees d => ?_, fine⟩
  · have somewhere : ∃ c, s.Runs c p := by
      by_contra nowhere
      exact machine.stopped p (not_exists.mp nowhere) running
    obtain ⟨c, here⟩ := somewhere
    exact ⟨c, (machine.runs c p here).proc, fun d there =>
      machine.proc_unique there (machine.runs c p here).proc⟩
  · exact away p stopped c (by simp [free])
  · obtain ⟨locked, running, dead⟩ := good.frees here frees
    have stopped : (s.proc x).state ≠ .running := by
      rcases dead with dead | dead <;> simp [dead]
    by_cases same : d = c
    · subst same
      have other : p ≠ x := by
        rintro rfl
        exact stopped running
      have proc := (machine.runs d p here).proc
      rw [proc, here]
      simp [other]
    · refine away x stopped d fun taken => same ?_
      exact Option.mem_unique taken locked

/-- Two CPUs enter `scheduler` and the first switches to `init`. -/
def started : List (Action (Fin 2)) := [.step 0 true, .step 0 true]

theorem running_on_one_cpu_started :
    ∃! c, ((started.foldl (schedSystem (Fin 2)).next (boot (Fin 2))).cpu c).proc =
      some initproc := by
  have run : (schedSystem (Fin 2)).Schedules (boot (Fin 2)) started := by decide +kernel
  exact (running_on_one_cpu run.reaches).1 initproc (by decide +kernel)

/-- A process other than `init` that sleeps in `wait` has a child, and none of its children is a
zombie. -/
theorem waiting_has_live_child (run : (schedSystem Cpu).Reaches (boot Cpu) s) {x : Pslot}
    (notInit : x ≠ initproc) (asleep : (s.proc x).state = .sleeping)
    (chan : (s.proc x).chan = some (.proc x)) :
    (∃ y, (s.proc y).parent = some x) ∧
      ∀ y, (s.proc y).parent = some x → (s.proc y).state ≠ .zombie := by
  obtain ⟨⟨view, pass, good⟩, -⟩ := sane_of_reaches run
  exact good.table.waits x notInit ⟨asleep, chan⟩

/-- This many operations of one CPU, all with success. -/
def steps (c : Cpu) (count : Nat) : List (Action Cpu) := List.replicate count (.step c true)

/-- `init` forks a process, which forks another and waits for it. -/
def forkedAndWaiting : List (Action (Fin 2)) :=
  List.flatten [ steps 0 4, [.call 0 .fork], steps 0 13, steps 1 7, [.call 1 .fork], steps 1 16,
    [.call 1 (.wait false false)], steps 1 71]

theorem waiting_has_live_child_forked :
    ∃ y, ((forkedAndWaiting.foldl (schedSystem (Fin 2)).next (boot (Fin 2))).proc y).parent =
      some ⟨1, by decide⟩ := by
  have run : (schedSystem (Fin 2)).Schedules (boot (Fin 2)) forkedAndWaiting := by decide +kernel
  exact (waiting_has_live_child run.reaches (by decide) (by decide +kernel) (by decide +kernel)).1

/-- `noff` counts the locks of a CPU that runs a process.  The process calls `sched` with its own
lock and no other, and has none in its user program. -/
theorem lock_discipline (run : (schedSystem Cpu).Reaches (boot Cpu) s)
    (here : (s.cpu c).current = some p) :
    (∃ held : List Spinlock, held.Nodup ∧ held.length = (s.cpu c).noff ∧
      ∀ l, s.lock l = some c ↔ l ∈ held) ∧
      (∀ rest, s.todo p = .call .sched rest → (∀ l, s.lock l = some c ↔ l = .proc p) ∧
        (s.cpu c).noff = 1 ∧ (s.proc p).state ≠ .running) ∧
      (s.todo p = .ret .user → (s.cpu c).noff = 0 ∧ ∀ l, s.lock l ≠ some c) := by
  obtain ⟨⟨view, pass, good⟩, -⟩ := sane_of_reaches run
  have thread := good.machine.runs c p here
  have meets := thread.code
  refine ⟨⟨(view c).held, thread.nodup, thread.noff.symm, thread.lock⟩, fun rest code => ?_,
    fun code => ?_⟩ <;> rw [code] at meets
  · obtain ⟨held, away⟩ : pre p .sched (view c) := meets.1
    exact ⟨fun l => by rw [thread.lock, held, mem_singleton], by rw [thread.noff, held]; rfl,
      thread.state ▸ away⟩
  · have none : view c = base none := meets
    exact ⟨by rw [thread.noff, none]; rfl, fun l => by simp [thread.lock, none, base]⟩

theorem lock_discipline_forked :
    ((forkedAndWaiting.foldl (schedSystem (Fin 2)).next (boot (Fin 2))).cpu 0).noff = 0 := by
  have run : (schedSystem (Fin 2)).Schedules (boot (Fin 2)) forkedAndWaiting := by decide +kernel
  exact ((lock_discipline (p := initproc) run.reaches (by decide +kernel)).2.2
    (by decide +kernel)).1

end OsLab.Sched
