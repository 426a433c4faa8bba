import OsLab.Proc.Wakeup

/-!
# Sleep-locks

The processes that use one sleep-lock, on the machine of `sleep` and `wakeup`: `locked` and `pid`
are the data that `lk->lk` protects, and whoever finds the lock taken sleeps until it is free.
-/

namespace OsLab.SleepLock

open Function Wakeup

/-- The fields of `struct sleeplock` that `lk->lk` protects. -/
structure Lock where
  locked : Bool
  pid : BitVec 32
deriving DecidableEq

/-- What a process does with the lock. -/
inductive Role where
  | idle
  /-- In `acquiresleep`, before it has found the lock free. -/
  | acquiring
  /-- Behind the loop of `acquiresleep`. -/
  | passed
  /-- Behind the assignments of `acquiresleep`. -/
  | taken
  | holding
  | releasing
  /-- Behind the assignments of `releasesleep`, before its call of `wakeup`. -/
  | released
  /-- In `wakeup(lk)`, or behind it. -/
  | woken
  /-- In `holdingsleep`, called by the holder or by another process. -/
  | asking (holder : Bool)
deriving DecidableEq

/-- The process has the lock. -/
def Role.Owns : Role → Prop
  | .taken | .holding | .releasing => True
  | .asking holder => holder = true
  | _ => False

def Free (lk : Lock) : Prop := lk.locked = false

/-- The value that `holdingsleep` returns. -/
def holdingsleep (lk : Lock) (pid : BitVec 32) : Bool := lk.locked && lk.pid == pid

variable {Chan Cpu : Type*} {n : Nat}

/-- One statement of a process in the code of the lock, with what it does next. -/
inductive Moves (lk : Lock) (pid : BitVec 32) (p : Fin n) :
    Role → Action Lock Chan n Cpu → Role → Prop
  | acquiresleep : Moves lk pid p .idle (.enter (.proc p)) .acquiring
  /-- `while(lk->locked) sleep(lk, &lk->lk)`. -/
  | wait : Moves lk pid p .acquiring (.sleep p) .acquiring
  | pass (free : Free lk) : Moves lk pid p .acquiring (.use (.proc p) lk) .passed
  /-- `lk->locked = 1; lk->pid = myproc()->pid`. -/
  | take : Moves lk pid p .passed (.use (.proc p) ⟨true, pid⟩) .taken
  | acquired : Moves lk pid p .taken (.leave (.proc p)) .holding
  | releasesleep : Moves lk pid p .holding (.enter (.proc p)) .releasing
  /-- `lk->locked = 0; lk->pid = 0`. -/
  | free : Moves lk pid p .releasing (.change (.proc p) ⟨false, 0⟩) .released
  | wakeup : Moves lk pid p .released (.wakeup (.proc p)) .woken
  | released : Moves lk pid p .woken (.leave (.proc p)) .idle
  | holdingsleep : Moves lk pid p .idle (.enter (.proc p)) (.asking false)
  | holding : Moves lk pid p .holding (.enter (.proc p)) (.asking true)
  | denied : Moves lk pid p (.asking false) (.leave (.proc p)) .idle
  | affirmed : Moves lk pid p (.asking true) (.leave (.proc p)) .holding

/-- The machine and what each process does with the lock. -/
structure State (Chan : Type*) (n : Nat) (Cpu : Type*) where
  machine : Wakeup.State Lock Chan n Cpu
  role : Fin n → Role

variable [DecidableEq Chan] [DecidableEq Cpu] (pid : Fin n → BitVec 32) (chan : Chan)

/-- Every interleaving: a statement of a user of the lock, with its role behind it, or something
else. -/
def sleepLockSystem :
    System (State Chan n Cpu) (Action Lock Chan n Cpu × Option (Fin n × Role)) where
  Enabled s action := Wakeup.Enabled Free chan s.machine action.1 ∧
    match action.2 with
    | some (p, role) => Moves s.machine.shared (pid p) p (s.role p) action.1 role
    | none => Neutral action.1
  next s action :=
    { machine := Wakeup.next chan s.machine action.1
      role := match action.2 with
        | some (p, role) => update s.role p role
        | none => s.role }

/-- Nobody uses the lock. -/
structure Initial (s : State Chan n Cpu) : Prop where
  machine : Wakeup.Initial s.machine
  free : Free s.machine.shared
  idle : ∀ p, s.role p = .idle

/-- The owner is the process that the lock names, who is about to take the lock holds `lk->lk`,
and who has freed it is before its call of `wakeup`. -/
structure Inv (s : State Chan n Cpu) : Prop where
  attended : Attended Free chan s.machine
  owner : ∀ p, (s.role p).Owns → s.machine.shared = ⟨true, pid p⟩
  owned : ¬ Free s.machine.shared → ∃ p, (s.role p).Owns
  passed : ∀ p, s.role p = .passed → Free s.machine.shared ∧
    ∃ changed, s.machine.pc (.proc p) = .critical changed
  called : ∀ p, s.machine.pc (.proc p) = .critical true → s.role p = .released

variable {pid chan} {s : State Chan n Cpu} {m : Wakeup.State Lock Chan n Cpu} {p q : Fin n}
  {changed : Bool} {action : Action Lock Chan n Cpu}

/-- A process that holds `lk->lk` stays where it is while the others work. -/
theorem critical_of_neutral (neutral : Neutral action) (enabled : Wakeup.Enabled Free chan m action)
    (here : m.pc (.proc p) = .critical changed) :
    (next chan m action).pc (.proc p) = .critical changed := by
  rcases pc_of_neutral neutral enabled (t := .proc p) (by rw [here]; trivial) with same | rfl
  · exact same.trans here
  · simp [Wakeup.Enabled, here, CanStep] at enabled

theorem Moves.others {lk : Lock} {mine : BitVec 32} {role later : Role}
    (moves : Moves lk mine p role action later) (other : q ≠ p) :
    (next chan m action).pc (.proc q) = m.pc (.proc q) := by
  cases moves <;> simp [next, State.goto, other]

omit [DecidableEq Chan] in
theorem resume_critical (pc : Pc n Chan) :
    pc.resume p = .critical changed ↔ pc = .critical changed := by
  cases pc <;> simp [Pc.resume]

omit [DecidableEq Chan] in
theorem away_critical (pc : Pc n Chan) :
    pc.away = .critical changed ↔ pc = .critical changed := by
  cases pc <;> simp [Pc.away]

/-- Nobody comes to owe a call of `wakeup` but by freeing the lock. -/
theorem owing_of_neutral (neutral : Neutral action)
    (owing : (next chan m action).pc (.proc p) = .critical true) :
    m.pc (.proc p) = .critical true := by
  cases action with
  | step t =>
    by_cases mine : .proc p = t
    · subst mine
      revert owing
      cases place : m.pc (.proc p) <;> simp only [next, step, place]
      case wakeupAcquire | sleepUnlock => split <;> simp [State.goto]
      all_goals simp [State.goto]
    · rwa [next, (step_kept t).2 _ mine] at owing
  | look c =>
    revert owing
    simp only [next, schedule]
    split
    · split <;> simp only [State.goto, update_apply] <;> split_ifs <;>
        simp_all [resume_critical, State.setLock, State.setState]
    · exact id
  | enter _ | change _ _ | use _ _ | wakeup _ | sleep _ | leave _ => exact neutral.elim
  | _ =>
    revert owing
    simp only [next, State.goto, update_apply, State.setLock]
    split_ifs <;> simp_all [away_critical]

theorem Moves.owing {lk : Lock} {mine : BitVec 32} {role later : Role}
    (moves : Moves lk mine p role action later)
    (called : m.pc (.proc p) = .critical true → role = .released)
    (owing : (next chan m action).pc (.proc p) = .critical true) : later = .released := by
  cases moves <;> simp_all [next, State.goto]

section Steps

variable {later : Role} (inv : Inv pid chan s) (enabled : Wakeup.Enabled Free chan s.machine action)
  (moves : Moves s.machine.shared (pid p) p (s.role p) action later)
include inv enabled moves

theorem Inv.move (owner : later.Owns → (next chan s.machine action).shared = ⟨true, pid p⟩)
    (rest : ∀ q, q ≠ p → (s.role q).Owns → (next chan s.machine action).shared = ⟨true, pid q⟩)
    (owned : ¬ Free (next chan s.machine action).shared →
      later.Owns ∨ ∃ q, q ≠ p ∧ (s.role q).Owns)
    (passed : later = .passed → Free (next chan s.machine action).shared ∧
      ∃ changed, (next chan s.machine action).pc (.proc p) = .critical changed)
    (waiting : ∀ q, q ≠ p → s.role q = .passed → Free (next chan s.machine action).shared) :
    Inv pid chan ⟨next chan s.machine action, update s.role p later⟩ := by
  refine ⟨inv.attended.next enabled, fun q owns => ?_, fun taken => ?_, fun q there => ?_,
    fun q owing => ?_⟩
  · rcases eq_or_ne q p with rfl | other
    · exact owner (by simpa using owns)
    · exact rest q other (by simpa [other] using owns)
  · rcases owned taken with mine | ⟨q, other, theirs⟩
    · exact ⟨p, by simpa using mine⟩
    · exact ⟨q, by simpa [other] using theirs⟩
  · rcases eq_or_ne q p with rfl | other
    · exact passed (by simpa using there)
    have before : s.role q = .passed := by simpa [other] using there
    refine ⟨waiting q other before, ?_⟩
    rw [moves.others other]
    exact (inv.passed q before).2
  · rcases eq_or_ne q p with rfl | other
    · simpa using moves.owing (inv.called q) owing
    · rw [moves.others other] at owing
      simpa [other] using inv.called q owing

theorem Inv.keeps (same : (next chan s.machine action).shared = s.machine.shared)
    (owns : later.Owns ↔ (s.role p).Owns) (elsewhere : later ≠ .passed) :
    Inv pid chan ⟨next chan s.machine action, update s.role p later⟩ := by
  refine inv.move enabled moves (fun mine => ?_) (fun q _ theirs => ?_) (fun taken => ?_)
    (absurd · elsewhere) fun q _ there => ?_
  · rw [same]
    exact inv.owner p (owns.mp mine)
  · rw [same]
    exact inv.owner q theirs
  · rw [same] at taken
    obtain ⟨q, theirs⟩ := inv.owned taken
    rcases eq_or_ne q p with rfl | other
    · exact .inl (owns.mpr theirs)
    · exact .inr ⟨q, other, theirs⟩
  · rw [same]
    exact (inv.passed q there).1

theorem Inv.step_moves (distinct : Injective pid) :
    Inv pid chan ⟨next chan s.machine action, update s.role p later⟩ := by
  generalize before : s.role p = role at moves
  have kept := fun same owns => inv.keeps enabled (before ▸ moves) same (before ▸ owns)
  cases moves with
  | pass free =>
    refine inv.move enabled (before ▸ .pass free) False.elim (fun q _ => inv.owner q)
      (absurd free) (fun _ => ⟨free, enabled.2.1⟩) fun _ _ _ => free
  | take =>
    obtain ⟨free, changed, here⟩ := inv.passed p before
    have mine := inv.attended.lk (.proc p) (by rw [here]; trivial)
    refine inv.move enabled (before ▸ .take) (fun _ => rfl) (fun q _ theirs => ?_)
      (fun _ => .inl trivial) (by simp) fun q other there => ?_
    · rw [Free, inv.owner q theirs] at free
      cases free
    · obtain ⟨-, changed, there⟩ := inv.passed q there
      have theirs := inv.attended.lk (.proc q) (by rw [there]; trivial)
      rw [mine] at theirs
      simp [other.symm] at theirs
  | free =>
    have mine := inv.owner p (before ▸ trivial)
    refine inv.move enabled (before ▸ .free) False.elim (fun q other theirs => ?_)
      (absurd rfl) (by simp) fun _ _ _ => rfl
    have same := mine.symm.trans (inv.owner q theirs)
    exact absurd (distinct (congrArg Lock.pid same)).symm other
  | _ => exact kept rfl (by simp [Role.Owns]) (by simp)

end Steps

theorem Inv.next (distinct : Injective pid) (inv : Inv pid chan s)
    {action : Action Lock Chan n Cpu × Option (Fin n × Role)}
    (enabled : (sleepLockSystem pid chan).Enabled s action) :
    Inv pid chan ((sleepLockSystem pid chan).next s action) := by
  obtain ⟨action, mover⟩ := action
  obtain ⟨allowed, program⟩ := enabled
  cases mover with
  | some mover => exact inv.step_moves allowed program distinct
  | none =>
    have same : (Wakeup.next chan s.machine action).shared = _ := shared_of_neutral program
    refine ⟨inv.attended.next allowed, fun q => ?_, ?_, fun q there => ?_, fun q owing => ?_⟩
    · exact same ▸ inv.owner q
    · exact same ▸ inv.owned
    · obtain ⟨free, changed, here⟩ := inv.passed q there
      exact ⟨same.symm ▸ free, changed, critical_of_neutral program allowed here⟩
    · exact inv.called q (owing_of_neutral program owing)

omit [DecidableEq Chan] [DecidableEq Cpu] in
theorem Initial.inv (initial : Initial s) : Inv pid chan s := by
  refine ⟨initial.machine.attended, fun p owns => ?_, absurd initial.free, fun p there => ?_,
    fun p owing => ?_⟩
  · rw [initial.idle p] at owns
    exact owns.elim
  · rw [initial.idle p] at there
    cases there
  · rcases initial.machine.proc p with out | out <;> simp [out] at owing

/-- In every reachable state at most one process has the lock, `holdingsleep` says so to it and to
nobody else, and while `lk->lk` is free, who sleeps on the lock waits for a process that has it.
Who owes a `wakeup` is at its call, so the machine's rule that `release` comes after it excludes
nothing that `releasesleep` does. -/
theorem sleeplock_excludes {start : State Chan n Cpu} (distinct : Injective pid)
    (initial : Initial start) (run : (sleepLockSystem pid chan).Reaches start s) :
    (∀ p q, (s.role p).Owns → (s.role q).Owns → p = q) ∧
      (∀ p, holdingsleep s.machine.shared (pid p) = true ↔ (s.role p).Owns) ∧
      (s.machine.lk = none → (∃ p, SleepsOn chan s.machine p) →
        s.machine.shared.locked = true ∧ ∃ q, (s.role q).Owns) ∧
      ∀ p, s.machine.pc (.proc p) = .critical true → s.role p = .released := by
  have inv : Inv pid chan s :=
    run.invariant (fun _ _ inv enabled => inv.next distinct enabled) initial.inv
  refine ⟨fun p q mine theirs => ?_, fun p => ⟨fun held => ?_, fun owns => ?_⟩,
    fun free asleep => ?_, inv.called⟩
  · have same := (inv.owner p mine).symm.trans (inv.owner q theirs)
    exact distinct (congrArg Lock.pid same)
  · obtain ⟨locked, named⟩ : s.machine.shared.locked = true ∧ s.machine.shared.pid = pid p := by
      simpa [holdingsleep] using held
    obtain ⟨q, theirs⟩ := inv.owned (by simp [Free, locked])
    rw [inv.owner q theirs] at named
    exact distinct named ▸ theirs
  · simp [holdingsleep, inv.owner p owns]
  · obtain ⟨p, asleep⟩ := asleep
    have taken : ¬ Free s.machine.shared := inv.attended.unmet free asleep
    exact ⟨by simpa [Free] using taken, inv.owned taken⟩

def slotPid (p : Fin 2) : BitVec 32 := .ofNat 32 (p + 1)

/-- Two processes run on two CPUs. -/
def idleState : State Unit 2 (Fin 2) where
  machine :=
    { shared := ⟨false, 0⟩
      lk := none
      lock := fun _ => none
      state := fun _ => .running
      chan := fun _ => none
      killed := fun _ => false
      pc
        | .scheduler c => .switched c
        | _ => .outside }
  role _ := .idle

theorem idleState_initial : Initial idleState where
  machine := ⟨rfl, fun _ => rfl, fun _ => by simp [idleState], fun _ => .inl rfl, fun _ => rfl,
    fun c => .inr ⟨c, rfl⟩⟩
  free := rfl
  idle _ := rfl

/-- The first process takes the lock and the second one goes to sleep. -/
def contended : List (Action Lock Unit 2 (Fin 2) × Option (Fin 2 × Role)) :=
  [(.enter (.proc 0), some (0, .acquiring)), (.step (.proc 0), none),
    (.use (.proc 0) ⟨false, 0⟩, some (0, .passed)), (.use (.proc 0) ⟨true, 1⟩, some (0, .taken)),
    (.leave (.proc 0), some (0, .holding)), (.enter (.proc 1), some (1, .acquiring)),
    (.step (.proc 1), none), (.sleep 1, some (1, .acquiring))] ++
  List.replicate 4 (.step (.proc 1), none)

/-- The state behind these steps. -/
def contendedState : State Unit 2 (Fin 2) :=
  contended.foldl (sleepLockSystem slotPid ()).next idleState

/-- The second process switches away, the first one releases the lock and wakes it, and it takes
the lock. -/
def handedOver : List (Action Lock Unit 2 (Fin 2) × Option (Fin 2 × Role)) :=
  [(.swtch 1 1, none), (.step (.scheduler 1), none), (.enter (.proc 0), some (0, .releasing)),
    (.step (.proc 0), none), (.change (.proc 0) ⟨false, 0⟩, some (0, .released)),
    (.wakeup (.proc 0), some (0, .woken))] ++ List.replicate 7 (.step (.proc 0), none) ++
  [(.leave (.proc 0), some (0, .idle)), (.pick 1 1, none), (.look 1, none)] ++
  List.replicate 3 (.step (.proc 1), none) ++
  [(.use (.proc 1) ⟨false, 0⟩, some (1, .passed)),
    (.use (.proc 1) ⟨true, 2⟩, some (1, .taken)), (.leave (.proc 1), some (1, .holding))]

def handedState : State Unit 2 (Fin 2) :=
  handedOver.foldl (sleepLockSystem slotPid ()).next contendedState

theorem lock_runs : (sleepLockSystem slotPid ()).Schedules idleState contended ∧
    (sleepLockSystem slotPid ()).Schedules contendedState handedOver := by
  repeat' apply And.intro
  all_goals first
    | rfl
    | exact ⟨_, rfl⟩
    | exact ⟨0, rfl⟩
    | exact ⟨1, rfl⟩
    | exact .inr ⟨_, rfl⟩
    | exact fun _ => rfl
    | exact .pass rfl
    | exact Bool.noConfusion
    | constructor

/-- The second process sleeps on the lock that the first one has, and has it when the first one
has released it. -/
theorem sleeplock_excludes_contended :
    (SleepsOn () contendedState.machine 1 ∧ contendedState.machine.shared.locked = true ∧
      ∃ q, (contendedState.role q).Owns) ∧
    handedState.role 0 = .idle ∧ holdingsleep handedState.machine.shared (slotPid 1) = true := by
  have distinct : Injective slotPid := fun p q => by
    revert p q
    decide
  have waiting := sleeplock_excludes distinct idleState_initial lock_runs.1.reaches
  have handed := sleeplock_excludes distinct idleState_initial
    (lock_runs.1.reaches.trans lock_runs.2.reaches)
  exact ⟨⟨⟨rfl, rfl⟩, waiting.2.2.1 rfl ⟨1, rfl, rfl⟩⟩, rfl, (handed.2.1 1).mpr trivial⟩

end OsLab.SleepLock
