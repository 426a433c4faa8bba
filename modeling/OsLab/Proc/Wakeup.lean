import OsLab.Lib.Run
import OsLab.Proc.State

/-!
# Sleep and wakeup

`sleep(chan, lk)` and `wakeup(chan)` step by step, together with the scheduler, `yield` and `kill`.
A condition on some shared data is protected by the spinlock `lk`; whoever may have made it true
calls `wakeup(chan)` before it releases `lk`.

A sleeper holds its own `p->lock` from before it releases `lk` until the scheduler releases it
again, and `wakeup` takes the same lock for its test.  So whenever the condition holds, some thread
still has `lk` and its scan has not passed the sleeper.
-/

namespace OsLab.Wakeup

open Function

/-- The threads of the kernel: processes, interrupt handlers and the scheduler of each CPU. -/
inductive Thread (n : Nat) (Cpu : Type*) where
  | proc (p : Fin n)
  | interrupt (c : Cpu)
  | scheduler (c : Cpu)
deriving DecidableEq

/-- What a thread is about to do. -/
inductive Pc (n : Nat) (Chan : Type*) where
  /-- Anything that does not concern `lk`, `p->lock` or the state of a process. -/
  | outside
  | acquireLk
  /-- Holds `lk`; `changed` until `wakeup(chan)` has returned. -/
  | critical (changed : Bool)
  /-- In `wakeup`: `acquire(&p->lock)` for slot `i`, or the end of the loop. -/
  | wakeupAcquire (i : Nat)
  | wakeupTest (i : Fin n)
  | wakeupRelease (i : Fin n)
  /-- In `sleep(c, ..)` of process `p`: `acquire(&p->lock)`. -/
  | sleepAcquire (p : Fin n) (c : Chan)
  | sleepRelease (p : Fin n) (c : Chan)
  | sleepChan (p : Fin n) (c : Chan)
  | sleepState (p : Fin n) (c : Chan)
  | sleepSched (p : Fin n) (c : Chan)
  /-- Switched away inside `sched()`. -/
  | asleep (c : Chan)
  | sleepTidy (p : Fin n) (c : Chan)
  | sleepUnlock (p : Fin n) (c : Chan)
  | killAcquire (q : Fin n)
  | killTest (q : Fin n)
  | killRelease (q : Fin n)
  | yieldAcquire (p : Fin n)
  | yieldState (p : Fin n)
  | yieldSched (p : Fin n)
  /-- Switched away by `yield`, or never run yet. -/
  | yielded
  | yieldRelease (p : Fin n)
  /-- In the loop of `scheduler`, between two slots. -/
  | scheduling
  | schedulerTest (q : Fin n)
  | switched (q : Fin n)
  | schedulerRelease (q : Fin n)
deriving DecidableEq

namespace Pc

variable {n : Nat} {Chan : Type*}

/-- Where process `p` goes on when the scheduler switches to it. -/
def resume (p : Fin n) : Pc n Chan → Pc n Chan
  | .asleep c => .sleepTidy p c
  | .yielded => .yieldRelease p
  | pc => pc

/-- Where a process is after it has called `swtch`. -/
def away : Pc n Chan → Pc n Chan
  | .sleepSched _ c => .asleep c
  | .yieldSched _ => .yielded
  | pc => pc

/-- The slot whose lock is held there. -/
def slot : Pc n Chan → Option (Fin n)
  | .wakeupTest i | .wakeupRelease i => some i
  | .sleepRelease p _ | .sleepChan p _ | .sleepState p _ | .sleepSched p _ | .sleepTidy p _
  | .sleepUnlock p _ => some p
  | .killTest q | .killRelease q => some q
  | .yieldState p | .yieldSched p | .yieldRelease p => some p
  | .schedulerTest q | .schedulerRelease q => some q
  | _ => none

/-- `lk` is held there. -/
def HoldsLk (chan : Chan) : Pc n Chan → Prop
  | .critical _ | .wakeupAcquire _ | .wakeupTest _ | .wakeupRelease _ => True
  | .sleepAcquire _ c | .sleepRelease _ c => c = chan
  | _ => False

/-- The thread will still come to slot `p` with a wakeup before it releases `lk`. -/
def Due (p : Fin n) : Pc n Chan → Prop
  | .critical changed => changed = true
  | .wakeupAcquire i => i ≤ p
  | .wakeupTest i => i ≤ p
  | .wakeupRelease i => i < p
  | _ => False

end Pc

/-- The shared data, the locks (by holder), the process table and every thread. -/
structure State (σ Chan : Type*) (n : Nat) (Cpu : Type*) where
  shared : σ
  lk : Option (Thread n Cpu)
  lock : Fin n → Option (Thread n Cpu)
  state : Fin n → Procstate
  chan : Fin n → Option Chan
  killed : Fin n → Bool
  pc : Thread n Cpu → Pc n Chan

/-- One step of one thread; `swtch` is a step of a process and of a scheduler. -/
inductive Action (σ Chan : Type*) (n : Nat) (Cpu : Type*) where
  /-- The next statement of the thread, where there is only one. -/
  | step (t : Thread n Cpu)
  /-- Go for `lk`. -/
  | enter (t : Thread n Cpu)
  /-- Change the shared data; a call of `wakeup(chan)` must follow. -/
  | change (t : Thread n Cpu) (data : σ)
  /-- Change the shared data without making the condition true. -/
  | use (t : Thread n Cpu) (data : σ)
  | wakeup (t : Thread n Cpu)
  /-- Find the condition false and call `sleep(chan, lk)`. -/
  | sleep (p : Fin n)
  | leave (t : Thread n Cpu)
  /-- Call `sleep` on another channel, with another lock. -/
  | sleepOther (p : Fin n) (c : Chan)
  | kill (t : Thread n Cpu) (q : Fin n)
  | yield (p : Fin n)
  /-- `swtch` from process `p` to the scheduler of CPU `c`. -/
  | swtch (p : Fin n) (c : Cpu)
  /-- The scheduler of CPU `c` takes the lock of slot `q`. -/
  | pick (c : Cpu) (q : Fin n)
  /-- The scheduler of CPU `c` looks at the slot whose lock it has. -/
  | look (c : Cpu)

section Steps

variable {σ Chan Cpu : Type*} {n : Nat}

/-- A process takes steps only while some CPU runs it. -/
def Runs (s : State σ Chan n Cpu) : Thread n Cpu → Prop
  | .proc p => ∃ c, s.pc (.scheduler c) = .switched p
  | .interrupt _ | .scheduler _ => True

variable [DecidableEq Chan] [DecidableEq Cpu]

namespace State

def goto (s : State σ Chan n Cpu) (t : Thread n Cpu) (pc : Pc n Chan) : State σ Chan n Cpu :=
  { s with pc := update s.pc t pc }

def setLock (s : State σ Chan n Cpu) (q : Fin n) (holder : Option (Thread n Cpu)) :
    State σ Chan n Cpu :=
  { s with lock := update s.lock q holder }

def setState (s : State σ Chan n Cpu) (q : Fin n) (state : Procstate) : State σ Chan n Cpu :=
  { s with state := update s.state q state }

def setChan (s : State σ Chan n Cpu) (q : Fin n) (chan : Option Chan) : State σ Chan n Cpu :=
  { s with chan := update s.chan q chan }

end State

/-- `if(p->state == SLEEPING && p->chan == chan) p->state = RUNNABLE`. -/
def wakeSlot (chan : Chan) (s : State σ Chan n Cpu) (i : Fin n) : State σ Chan n Cpu :=
  if s.state i = .sleeping ∧ s.chan i = some chan then s.setState i .runnable else s

/-- What `kill` does to the slot it finds. -/
def killSlot (s : State σ Chan n Cpu) (q : Fin n) : State σ Chan n Cpu :=
  { s with
    killed := update s.killed q true
    state := if s.state q = .sleeping then update s.state q .runnable else s.state }

/-- The statement of `scheduler` under the lock of slot `q`: a runnable process takes the lock
over and goes on. -/
def schedule (s : State σ Chan n Cpu) (c : Cpu) (q : Fin n) : State σ Chan n Cpu :=
  if s.state q = .runnable then
    (((s.setState q .running).setLock q (some (.proc q))).goto (.scheduler c)
      (.switched q)).goto (.proc q) ((s.pc (.proc q)).resume q)
  else s.goto (.scheduler c) (.schedulerRelease q)

/-- The next statement of a thread. -/
def step (chan : Chan) (s : State σ Chan n Cpu) (t : Thread n Cpu) : State σ Chan n Cpu :=
  match s.pc t with
  | .acquireLk => { s with lk := some t }.goto t (.critical false)
  | .wakeupAcquire i =>
    if listed : i < n then (s.setLock ⟨i, listed⟩ (some t)).goto t (.wakeupTest ⟨i, listed⟩)
    else s.goto t (.critical false)
  | .wakeupTest i => (wakeSlot chan s i).goto t (.wakeupRelease i)
  | .wakeupRelease i => (s.setLock i none).goto t (.wakeupAcquire (i + 1))
  | .sleepAcquire p c => (s.setLock p (some t)).goto t (.sleepRelease p c)
  | .sleepRelease p c =>
    { s with lk := if c = chan then none else s.lk }.goto t (.sleepChan p c)
  | .sleepChan p c => (s.setChan p (some c)).goto t (.sleepState p c)
  | .sleepState p c => (s.setState p .sleeping).goto t (.sleepSched p c)
  | .sleepTidy p c => (s.setChan p none).goto t (.sleepUnlock p c)
  | .sleepUnlock p c =>
    (s.setLock p none).goto t (if c = chan then .acquireLk else .outside)
  | .killAcquire q => (s.setLock q (some t)).goto t (.killTest q)
  | .killTest q => (killSlot s q).goto t (.killRelease q)
  | .killRelease q => (s.setLock q none).goto t .outside
  | .yieldAcquire p => (s.setLock p (some t)).goto t (.yieldState p)
  | .yieldState p => (s.setState p .runnable).goto t (.yieldSched p)
  | .yieldRelease p => (s.setLock p none).goto t .outside
  | .schedulerRelease q => (s.setLock q none).goto t .scheduling
  | .outside | .critical _ | .sleepSched _ _ | .asleep _ | .yieldSched _ | .yielded
  | .scheduling | .schedulerTest _ | .switched _ => s

/-- The next statement of a thread can be executed: the lock it acquires is free. -/
def CanStep (s : State σ Chan n Cpu) : Pc n Chan → Prop
  | .acquireLk => s.lk = none
  | .wakeupAcquire i => ∀ listed : i < n, s.lock ⟨i, listed⟩ = none
  | .sleepAcquire p _ | .yieldAcquire p => s.lock p = none
  | .killAcquire q => s.lock q = none
  | .wakeupTest _ | .wakeupRelease _ | .sleepRelease _ _ | .sleepChan _ _ | .sleepState _ _
  | .sleepTidy _ _ | .sleepUnlock _ _ | .killTest _ | .killRelease _ | .yieldState _
  | .yieldRelease _ | .schedulerRelease _ => True
  | .outside | .critical _ | .sleepSched _ _ | .asleep _ | .yieldSched _ | .yielded
  | .scheduling | .schedulerTest _ | .switched _ => False

/-- When an action may be taken. -/
def Enabled (cond : σ → Prop) (chan : Chan) (s : State σ Chan n Cpu) :
    Action σ Chan n Cpu → Prop
  | .step t => Runs s t ∧ CanStep s (s.pc t)
  | .enter t => Runs s t ∧ s.pc t = .outside
  | .change t _ => Runs s t ∧ ∃ changed, s.pc t = .critical changed
  | .use t data => Runs s t ∧ (∃ changed, s.pc t = .critical changed) ∧ (cond data → cond s.shared)
  | .wakeup t => Runs s t ∧ ∃ changed, s.pc t = .critical changed
  | .sleep p => Runs s (.proc p) ∧ (∃ changed, s.pc (.proc p) = .critical changed) ∧ ¬ cond s.shared
  | .leave t => Runs s t ∧ s.pc t = .critical false
  | .sleepOther p c => Runs s (.proc p) ∧ s.pc (.proc p) = .outside ∧ c ≠ chan
  | .kill t _ => Runs s t ∧ s.pc t = .outside
  | .yield p => Runs s (.proc p) ∧ s.pc (.proc p) = .outside
  | .swtch p c => s.pc (.scheduler c) = .switched p ∧
      (s.pc (.proc p) = .yieldSched p ∨ ∃ chan, s.pc (.proc p) = .sleepSched p chan)
  | .pick c q => s.pc (.scheduler c) = .scheduling ∧ s.lock q = none
  | .look c => ∃ q, s.pc (.scheduler c) = .schedulerTest q

def next (chan : Chan) (s : State σ Chan n Cpu) : Action σ Chan n Cpu → State σ Chan n Cpu
  | .step t => step chan s t
  | .enter t => s.goto t .acquireLk
  | .change t data => { s with shared := data }.goto t (.critical true)
  | .use _ data => { s with shared := data }
  | .wakeup t => s.goto t (.wakeupAcquire 0)
  | .sleep p => s.goto (.proc p) (.sleepAcquire p chan)
  | .leave t => { s with lk := none }.goto t .outside
  | .sleepOther p c => s.goto (.proc p) (.sleepAcquire p c)
  | .kill t q => s.goto t (.killAcquire q)
  | .yield p => s.goto (.proc p) (.yieldAcquire p)
  | .swtch p c =>
    -- the lock of the slot passes to the scheduler
    (((s.setLock p (some (.scheduler c))).goto (.proc p)
      (s.pc (.proc p)).away)).goto (.scheduler c) (.schedulerRelease p)
  | .pick c q => (s.setLock q (some (.scheduler c))).goto (.scheduler c) (.schedulerTest q)
  | .look c =>
    match s.pc (.scheduler c) with
    | .schedulerTest q => schedule s c q
    | _ => s

/-- Every interleaving of the statements of `sleep`, `wakeup`, `kill`, `yield` and
`scheduler`. -/
def wakeupSystem (cond : σ → Prop) (chan : Chan) :
    System (State σ Chan n Cpu) (Action σ Chan n Cpu) where
  Enabled := Enabled cond chan
  next := next chan

/-- All locks are free, nobody sleeps, and every thread is outside. -/
structure Initial (s : State σ Chan n Cpu) : Prop where
  lk : s.lk = none
  lock : ∀ q, s.lock q = none
  awake : ∀ q, s.state q ≠ .sleeping
  proc : ∀ p, s.pc (.proc p) = .outside ∨ s.pc (.proc p) = .yielded
  interrupt : ∀ c, s.pc (.interrupt c) = .outside
  scheduler : ∀ c, s.pc (.scheduler c) = .scheduling ∨ ∃ p, s.pc (.scheduler c) = .switched p

end Steps

section Invariant

variable {σ Chan Cpu : Type*} {n : Nat} {t : Thread n Cpu} {p i : Fin n}

def SleepsOn (chan : Chan) (s : State σ Chan n Cpu) (p : Fin n) : Prop :=
  s.state p = .sleeping ∧ s.chan p = some chan

/-- Process `p` has released `lk` in order to sleep on the channel, or sleeps there. -/
def Drowsy (chan : Chan) (s : State σ Chan n Cpu) (p : Fin n) : Prop :=
  (∃ t, s.pc t = .sleepChan p chan ∨ s.pc t = .sleepState p chan) ∨ SleepsOn chan s p

/-- Locks are held where the code says so, and whoever is drowsy although the condition holds
will be met by a scan. -/
structure Attended (cond : σ → Prop) (chan : Chan) (s : State σ Chan n Cpu) : Prop where
  lk : ∀ t, (s.pc t).HoldsLk chan → s.lk = some t
  slot : ∀ t q, (s.pc t).slot = some q → s.lock q = some t
  tested : ∀ t p, s.pc t = .sleepAcquire p chan ∨ s.pc t = .sleepRelease p chan → ¬ cond s.shared
  posted : ∀ t p c, s.pc t = .sleepState p c → s.chan p = some c
  due : ∀ p, Drowsy chan s p → cond s.shared → ∃ t, (s.pc t).Due p

/-- A lock that another thread than `t` holds stays with it. -/
def Leaves (t : Thread n Cpu) (before after : Option (Thread n Cpu)) : Prop :=
  ∀ r, r ≠ t → before = some r → after = some r

theorem Leaves.refl (t : Thread n Cpu) (holder : Option (Thread n Cpu)) :
    Leaves t holder holder := fun _ _ holds => holds

variable {before : Option (Thread n Cpu)}

theorem Leaves.of_none (free : before = none) (after : Option (Thread n Cpu)) :
    Leaves t before after := by
  intro r _ holds
  simp [free] at holds

theorem Leaves.of_some (mine : before = some t) (after : Option (Thread n Cpu)) :
    Leaves t before after := by
  intro r other holds
  rw [mine] at holds
  exact absurd (Option.some.inj holds).symm other

variable {q : Fin n}

theorem leaves_update {lock : Fin n → Option (Thread n Cpu)} {holder : Option (Thread n Cpu)}
    (leaves : Leaves t (lock q) holder) (r : Fin n) :
    Leaves t (lock r) (update lock q holder r) := by
  rcases eq_or_ne r q with rfl | other
  · rwa [update_self]
  · rw [update_of_ne other]
    exact .refl t _

/-- What a step of thread `t` must respect to keep the invariant. -/
structure Kept (cond : σ → Prop) (chan : Chan) (t : Thread n Cpu) (s u : State σ Chan n Cpu) :
    Prop where
  others : ∀ r, r ≠ t → u.pc r = s.pc r
  lkSelf : (u.pc t).HoldsLk chan → u.lk = some t
  lkOthers : Leaves t s.lk u.lk
  slotSelf : ∀ q, (u.pc t).slot = some q → u.lock q = some t
  slotOthers : ∀ q, Leaves t (s.lock q) (u.lock q)
  shared : u.shared = s.shared ∨ s.lk = some t
  tested : ∀ p, u.pc t = .sleepAcquire p chan ∨ u.pc t = .sleepRelease p chan → ¬ cond u.shared
  channel : ∀ q, u.chan q = s.chan q ∨ s.lock q = some t
  posted : ∀ p c, u.pc t = .sleepState p c → u.chan p = some c
  due : ∀ p, Drowsy chan u p → cond u.shared →
    (u.pc t).Due p ∨ Drowsy chan s p ∧ cond s.shared ∧ ¬ (s.pc t).Due p

theorem Attended.of_kept {cond : σ → Prop} {chan : Chan} {s u : State σ Chan n Cpu}
    (inv : Attended cond chan s) (kept : Kept cond chan t s u) : Attended cond chan u := by
  have slotOf : ∀ r q, r ≠ t → (u.pc r).slot = some q → s.lock q = some r := by
    intro r q other holds
    rw [kept.others r other] at holds
    exact inv.slot r q holds
  refine ⟨fun r holds => ?_, fun r q holds => ?_, fun r p sleeps => ?_, fun r p c posts => ?_,
    fun p drowsy met => ?_⟩
  · rcases eq_or_ne r t with rfl | other
    · exact kept.lkSelf holds
    · rw [kept.others r other] at holds
      exact kept.lkOthers r other (inv.lk r holds)
  · rcases eq_or_ne r t with rfl | other
    · exact kept.slotSelf q holds
    · exact kept.slotOthers q r other (slotOf r q other holds)
  · rcases eq_or_ne r t with rfl | other
    · exact kept.tested p sleeps
    rw [kept.others r other] at sleeps
    rcases kept.shared with same | mine
    · rw [same]
      exact inv.tested r p sleeps
    · have holds : (s.pc r).HoldsLk chan := by
        rcases sleeps with sleeps | sleeps <;> rw [sleeps] <;> rfl
      have theirs := inv.lk r holds
      rw [mine] at theirs
      exact absurd (Option.some.inj theirs).symm other
  · rcases eq_or_ne r t with rfl | other
    · exact kept.posted p c posts
    have before := posts
    rw [kept.others r other] at before
    rcases kept.channel p with same | mine
    · rw [same]
      exact inv.posted r p c before
    · have theirs := slotOf r p other (by rw [posts]; rfl)
      rw [mine] at theirs
      exact absurd (Option.some.inj theirs).symm other
  · rcases kept.due p drowsy met with due | ⟨before, held, not_due⟩
    · exact ⟨t, due⟩
    · obtain ⟨r, due⟩ := inv.due p before held
      have other : r ≠ t := fun same => not_due (same ▸ due)
      exact ⟨r, by rwa [kept.others r other]⟩

variable [DecidableEq Cpu] {cond : σ → Prop} {chan : Chan} {s w : State σ Chan n Cpu}
  {pc : Pc n Chan}

@[simp] theorem goto_pc_self : (w.goto t pc).pc t = pc := update_self ..

theorem goto_pc_of_ne {r : Thread n Cpu} (other : r ≠ t) : (w.goto t pc).pc r = w.pc r :=
  update_of_ne other ..

/-- Who is drowsy after a move was so before, unless by the move. -/
theorem drowsy_goto (pcs : w.pc = s.pc) (drowsy : Drowsy chan (w.goto t pc) p) :
    (pc = .sleepChan p chan ∨ pc = .sleepState p chan) ∨ Drowsy chan s p ∨
      SleepsOn chan w p := by
  rcases drowsy with ⟨r, there⟩ | sleeps
  · rcases eq_or_ne r t with rfl | other
    · exact .inl (by simpa using there)
    · rw [goto_pc_of_ne other, pcs] at there
      exact .inr (.inl (.inl ⟨r, there⟩))
  · exact .inr (.inr sleeps)

/-- Places that say nothing about a sleep under way. -/
def Pc.Plain : Pc n Chan → Prop
  | .sleepAcquire _ _ | .sleepRelease _ _ | .sleepChan _ _ | .sleepState _ _ => False
  | _ => True

section

variable (inv : Attended cond chan s) (pcs : w.pc = s.pc) (shared : w.shared = s.shared)
include inv pcs shared

/-- A step that keeps, for everybody who is drowsy, the wakeup the thread has still to make. -/
theorem Attended.move
    (passes : ∀ p, Drowsy chan (w.goto t pc) p → cond s.shared → (s.pc t).Due p → pc.Due p)
    (lkSelf : pc.HoldsLk chan → w.lk = some t) (lkOthers : Leaves t s.lk w.lk)
    (slotSelf : ∀ q, pc.slot = some q → w.lock q = some t)
    (slotOthers : ∀ q, Leaves t (s.lock q) (w.lock q))
    (channel : ∀ q, w.chan q = s.chan q ∨ s.lock q = some t)
    (tested : ∀ p, pc = .sleepAcquire p chan ∨ pc = .sleepRelease p chan → ¬ cond s.shared)
    (posted : ∀ p c, pc = .sleepState p c → w.chan p = some c)
    (sleepers : ∀ p, (pc = .sleepChan p chan ∨ pc = .sleepState p chan) ∨ SleepsOn chan w p →
      cond s.shared → Drowsy chan s p) : Attended cond chan (w.goto t pc) := by
  refine inv.of_kept (t := t)
    { others := fun r other => by rw [goto_pc_of_ne other, pcs]
      lkSelf := fun holds => lkSelf (by simpa using holds)
      lkOthers := lkOthers
      slotSelf := fun q holds => slotSelf q (by simpa using holds)
      slotOthers := slotOthers
      shared := .inl shared
      tested := fun p sleeps => shared ▸ tested p (by simpa using sleeps)
      channel := channel
      posted := fun p c posts => posted p c (by simpa using posts)
      due := fun p drowsy met => ?_ }
  have met : cond s.shared := shared ▸ met
  rw [goto_pc_self]
  by_cases due : (s.pc t).Due p
  · exact .inl (passes p drowsy met due)
  refine .inr ⟨?_, met, due⟩
  rcases drowsy_goto pcs drowsy with moved | before | sleeps
  · exact sleepers p (.inl moved) met
  · exact before
  · exact sleepers p (.inr sleeps) met

theorem Attended.calm (plain : pc.Plain)
    (passes : ∀ p, Drowsy chan (w.goto t pc) p → (s.pc t).Due p → pc.Due p)
    (lkSelf : pc.HoldsLk chan → w.lk = some t) (lkOthers : Leaves t s.lk w.lk)
    (slotSelf : ∀ q, pc.slot = some q → w.lock q = some t)
    (slotOthers : ∀ q, Leaves t (s.lock q) (w.lock q))
    (channel : ∀ q, w.chan q = s.chan q ∨ s.lock q = some t)
    (sleepers : ∀ q, SleepsOn chan w q → SleepsOn chan s q) : Attended cond chan (w.goto t pc) := by
  refine inv.move pcs shared (fun p drowsy _ => passes p drowsy) lkSelf lkOthers slotSelf
    slotOthers channel (fun p sleeps => ?_) (fun p c posts => ?_)
    fun p drowsy _ => .inr (sleepers p (drowsy.resolve_left ?_))
  · rcases sleeps with rfl | rfl <;> exact absurd plain id
  · subst posts
    exact absurd plain id
  · rintro (rfl | rfl) <;> exact plain

end

section

omit [DecidableEq Cpu]

theorem sleepsOn_setState {state : Procstate} (awake : state ≠ .sleeping) (p : Fin n)
    (sleeps : SleepsOn chan (s.setState q state) p) : SleepsOn chan s p := by
  refine ⟨?_, sleeps.2⟩
  have asleep := sleeps.1
  rcases eq_or_ne p q with rfl | other
  · simp only [State.setState, update_self] at asleep
    exact absurd asleep awake
  · simpa [State.setState, other] using asleep

theorem sleepsOn_setChan_none (p : Fin n) (sleeps : SleepsOn chan (s.setChan q none) p) :
    SleepsOn chan s p := by
  refine ⟨sleeps.1, ?_⟩
  have posted := sleeps.2
  rcases eq_or_ne p q with rfl | other
  · simp [State.setChan] at posted
  · simpa [State.setChan, other] using posted

theorem setChan_of_lock {posted : Option Chan} (mine : s.lock q = some t) (p : Fin n) :
    (s.setChan q posted).chan p = s.chan p ∨ s.lock p = some t := by
  rcases eq_or_ne p q with rfl | other
  · exact .inr mine
  · exact .inl (by simp [State.setChan, other])

theorem setLock_lock_self (q : Fin n) (holder : Option (Thread n Cpu)) :
    (s.setLock q holder).lock q = holder := update_self ..

end

namespace Attended

variable (inv : Attended cond chan s)
include inv

theorem relock (pc : Pc n Chan) (plain : pc.Plain)
    (passes : ∀ p, Drowsy chan s p → (s.pc t).Due p → pc.Due p)
    (lk : pc.HoldsLk chan → (s.pc t).HoldsLk chan) {holder : Option (Thread n Cpu)}
    (leaves : Leaves t (s.lock q) holder) (slot : ∀ r, pc.slot = some r → r = q ∧ holder = some t) :
    Attended cond chan ((s.setLock q holder).goto t pc) := by
  refine inv.calm rfl rfl plain (fun p drowsy due => passes p ?_ due)
    (fun holds => inv.lk t (lk holds)) (.refl t _) (fun r holds => ?_)
    (leaves_update leaves) (fun _ => .inl rfl) fun _ sleeps => sleeps
  · rcases drowsy_goto (s := s) rfl drowsy with moved | before | sleeps
    · rcases moved with rfl | rfl <;> exact absurd plain id
    · exact before
    · exact .inr sleeps
  · obtain ⟨rfl, rfl⟩ := slot r holds
    exact setLock_lock_self ..

section

variable (pc) (plain : pc.Plain) (idle : ∀ p, ¬ (s.pc t).Due p) (outside : ¬ pc.HoldsLk chan)
include plain idle outside

theorem take (free : s.lock q = none) (slot : pc.slot = some q) :
    Attended cond chan ((s.setLock q (some t)).goto t pc) := by
  refine inv.relock pc plain (fun p _ due => absurd due (idle p))
    (absurd · outside) (.of_none free _) fun r same => ?_
  rw [slot] at same
  exact ⟨(Option.some.inj same).symm, rfl⟩

theorem give (held : (s.pc t).slot = some q) (slot : pc.slot = none) :
    Attended cond chan ((s.setLock q none).goto t pc) := by
  refine inv.relock pc plain (fun p _ due => absurd due (idle p))
    (absurd · outside) (.of_some (inv.slot t q held) _) fun r same => ?_
  rw [slot] at same
  simp at same

theorem keep (held : (s.pc t).slot = some q) (slot : pc.slot = some q) (pcs : w.pc = s.pc)
    (shared : w.shared = s.shared) (lk : w.lk = s.lk) (lock : w.lock = s.lock)
    (channel : ∀ r, w.chan r = s.chan r ∨ s.lock r = some t)
    (sleepers : ∀ r, SleepsOn chan w r → SleepsOn chan s r) : Attended cond chan (w.goto t pc) := by
  refine inv.calm pcs shared plain (fun p _ due => absurd due (idle p))
    (absurd · outside) (lk ▸ .refl t _) (fun r same => ?_)
    (fun r => lock ▸ .refl t _) channel sleepers
  rw [slot] at same
  cases same
  rw [lock]
  exact inv.slot t q held

end

theorem resume (handed : s.lock q = some (.proc q)) :
    Attended cond chan (s.goto (.proc q) ((s.pc (.proc q)).resume q)) := by
  have moves : ∀ pc : Pc n Chan, pc.Plain → (∀ r, pc.slot = some r → r = q) →
      ¬ pc.HoldsLk chan → (∀ p, ¬ (s.pc (.proc q)).Due p) →
      Attended cond chan (s.goto (.proc q) pc) := by
    intro pc plain slot free idle
    refine inv.calm rfl rfl plain (fun p _ due => absurd due (idle p))
      (absurd · free) (.refl _ _) (fun r holds => ?_) (fun _ => .refl _ _)
      (fun _ => .inl rfl) fun _ sleeps => sleeps
    rw [slot r holds]
    exact handed
  cases there : s.pc (.proc q) with
  | asleep c =>
    exact moves (.sleepTidy q c) trivial (fun r same => (Option.some.inj same).symm) id
      fun p => by rw [there]; exact id
  | yielded =>
    exact moves (.yieldRelease q) trivial (fun r same => (Option.some.inj same).symm) id
      fun p => by rw [there]; exact id
  | _ =>
    have same : s.goto (.proc q) (s.pc (.proc q)) = s := by simp [State.goto]
    rw [there] at same
    simpa only [Pc.resume, same] using inv

theorem schedule {c : Cpu} (there : s.pc (.scheduler c) = .schedulerTest q) :
    Attended cond chan (schedule s c q) := by
  have locked : s.lock q = some (.scheduler c) := inv.slot _ q (by rw [there]; rfl)
  have idle : ∀ p, ¬ (s.pc (.scheduler c)).Due p := by
    intro p
    rw [there]
    exact id
  unfold Wakeup.schedule
  split
  · have handed : Attended cond chan (((s.setState q .running).setLock q
        (some (.proc q))).goto (.scheduler c) (.switched q)) :=
      inv.calm rfl rfl trivial (fun p _ due => absurd due (idle p))
        (absurd · id) (.refl _ _) (fun _ same => by simp [Pc.slot] at same)
        (leaves_update (.of_some locked _)) (fun _ => .inl rfl) (sleepsOn_setState (by simp))
    have resumed := handed.resume (q := q) (setLock_lock_self ..)
    rwa [goto_pc_of_ne (by simp)] at resumed
  · refine inv.calm rfl rfl trivial (fun p _ due => absurd due (idle p))
      (absurd · id) (.refl _ _) (fun r same => ?_) (fun _ => .refl _ _)
      (fun _ => .inl rfl) fun _ sleeps => sleeps
    cases same
    exact locked

theorem within {changed : Bool} (there : s.pc t = .critical changed) (pc : Pc n Chan)
    (plain : pc.Plain) (passes : ∀ p, pc.Due p) (slot : pc.slot = none) (data : σ) :
    Attended cond chan ({ s with shared := data }.goto t pc) := by
  have mine : s.lk = some t := inv.lk t (by rw [there]; trivial)
  refine inv.of_kept (t := t)
    { others := fun r other => goto_pc_of_ne other
      lkSelf := fun _ => mine
      lkOthers := .refl t _
      slotSelf := fun q same => by rw [goto_pc_self, slot] at same; simp at same
      slotOthers := fun _ => .refl t _
      shared := .inr mine
      tested := fun p sleeps => ?_
      channel := fun _ => .inl rfl
      posted := fun p c posts => ?_
      due := fun p _ _ => .inl (by rw [goto_pc_self]; exact passes p) }
  · rw [goto_pc_self] at sleeps
    rcases sleeps with rfl | rfl <;> exact absurd plain id
  · rw [goto_pc_self] at posts
    subst posts
    exact absurd plain id

theorem callSleep {c : Chan} (lk : c = chan → s.lk = some t) (tested : c = chan → ¬ cond s.shared)
    (idle : c ≠ chan → ∀ q, ¬ (s.pc t).Due q) :
    Attended cond chan (s.goto t (.sleepAcquire p c)) := by
  refine inv.move rfl rfl (fun q _ met due => ?_) lk (.refl t _)
    (fun _ same => by simp [Pc.slot] at same) (fun _ => .refl t _) (fun _ => .inl rfl)
    (fun q sleeps => ?_) nofun fun q drowsy _ => .inr (drowsy.resolve_left (by simp))
  · exact absurd due (idle (fun same => tested same met) q)
  · simp only [Pc.sleepAcquire.injEq, reduceCtorEq, or_false] at sleeps
    exact tested sleeps.2

theorem begin (there : s.pc t = .outside) (pc : Pc n Chan) (plain : pc.Plain)
    (outside : ¬ pc.HoldsLk chan) (slot : pc.slot = none) : Attended cond chan (s.goto t pc) :=
  inv.calm rfl rfl plain (fun p _ due => by rw [there] at due; exact due.elim)
    (absurd · outside) (.refl t _) (fun _ same => by simp [slot] at same)
    (fun _ => .refl t _) (fun _ => .inl rfl) fun _ sleeps => sleeps

end Attended

variable [DecidableEq Chan]

namespace Attended

variable (inv : Attended cond chan s)
include inv

/-- Behind the end of its loop `wakeup` has met every slot. -/
theorem wakeupAcquire {i : Nat} (there : s.pc t = .wakeupAcquire i)
    (free : ∀ listed : i < n, s.lock ⟨i, listed⟩ = none) : Attended cond chan (step chan s t) := by
  have mine : s.lk = some t := inv.lk t (by rw [there]; trivial)
  simp only [step, there]
  split
  · rename_i listed
    refine inv.relock (.wakeupTest ⟨i, listed⟩) trivial (fun p _ due => ?_)
      (fun _ => by rw [there]; trivial) (.of_none (free listed) _)
      fun r same => ⟨(Option.some.inj same).symm, rfl⟩
    rw [there] at due
    exact due
  · rename_i past
    refine inv.calm rfl rfl trivial (fun p _ due => ?_) (fun _ => mine) (.refl t _)
      (fun _ same => by simp [Pc.slot] at same) (fun _ => .refl t _) (fun _ => .inl rfl)
      fun _ sleeps => sleeps
    rw [there] at due
    exact absurd (due.trans_lt p.isLt) past

/-- The slot is awake after the test of `wakeup`, and nobody is on the way to sleep there, because
that takes its lock. -/
theorem wakeupTest (there : s.pc t = .wakeupTest i) : Attended cond chan (step chan s t) := by
  have mine : s.lk = some t := inv.lk t (by rw [there]; trivial)
  have locked : s.lock i = some t := inv.slot t i (by rw [there]; rfl)
  have awake : ¬ SleepsOn chan (wakeSlot chan s i) i := by
    unfold wakeSlot
    split
    · rintro ⟨asleep, -⟩
      simp [State.setState] at asleep
    · rename_i other
      exact other
  have frame : (wakeSlot chan s i).pc = s.pc ∧ (wakeSlot chan s i).shared = s.shared ∧
      (wakeSlot chan s i).lk = s.lk ∧ (wakeSlot chan s i).lock = s.lock ∧
      (wakeSlot chan s i).chan = s.chan := by
    unfold wakeSlot
    split <;> exact ⟨rfl, rfl, rfl, rfl, rfl⟩
  obtain ⟨pcs, shared, lk, lock, channel⟩ := frame
  have sleepers : ∀ p, SleepsOn chan (wakeSlot chan s i) p → SleepsOn chan s p := by
    unfold wakeSlot
    split
    · exact sleepsOn_setState (by simp)
    · exact fun _ sleeps => sleeps
  simp only [step, there]
  refine inv.calm pcs shared trivial (fun p drowsy due => ?_) (fun _ => lk.trans mine)
    (lk ▸ .refl t _) (fun q same => ?_) (fun q => lock ▸ .refl t _)
    (fun q => .inl (congrFun channel q)) sleepers
  · rw [there] at due
    rcases due.lt_or_eq with before | same
    · exact before
    obtain rfl : i = p := Fin.ext (congrArg Fin.val same)
    rcases drowsy with ⟨r, sleeps⟩ | asleep
    · have other : r ≠ t := by
        rintro rfl
        simp at sleeps
      rw [goto_pc_of_ne other, pcs] at sleeps
      have theirs : s.lock i = some r :=
        inv.slot r i (by rcases sleeps with sleeps | sleeps <;> rw [sleeps] <;> rfl)
      rw [locked] at theirs
      exact absurd (Option.some.inj theirs).symm other
    · exact absurd asleep awake
  · rw [lock]
    cases same
    exact locked

theorem wakeupRelease (there : s.pc t = .wakeupRelease i) : Attended cond chan (step chan s t) := by
  have locked : s.lock i = some t := inv.slot t i (by rw [there]; rfl)
  simp only [step, there]
  refine inv.relock (.wakeupAcquire (i + 1)) trivial (fun p _ due => ?_)
    (fun _ => by rw [there]; trivial) (.of_some locked _) fun _ same => by simp [Pc.slot] at same
  rw [there] at due
  exact due

variable {c : Chan}

theorem sleepAcquire (there : s.pc t = .sleepAcquire p c) (free : s.lock p = none) :
    Attended cond chan (step chan s t) := by
  simp only [step, there]
  refine inv.move rfl rfl (fun q _ _ due => by rw [there] at due; exact due.elim)
    (fun holds => inv.lk t (by rw [there]; exact holds)) (.refl t _) (fun q same => ?_)
    (leaves_update (.of_none free _)) (fun _ => .inl rfl) (fun q sleeps => ?_) nofun
    fun q drowsy _ => .inr (drowsy.resolve_left (by simp))
  · cases same
    exact setLock_lock_self ..
  · simp only [reduceCtorEq, Pc.sleepRelease.injEq, false_or] at sleeps
    exact inv.tested t p (.inl (by rw [there, sleeps.2]))

/-- `release(lk)` in `sleep`: the condition is still false. -/
theorem sleepRelease (there : s.pc t = .sleepRelease p c) : Attended cond chan (step chan s t) := by
  simp only [step, there]
  refine inv.move rfl rfl (fun q _ _ due => by rw [there] at due; exact due.elim)
    (absurd · id) ?_ (fun q same => inv.slot t q (by rw [there]; exact same))
    (fun _ => .refl t _) (fun _ => .inl rfl) (fun q sleeps => by simp at sleeps) nofun
    fun q drowsy met => ?_
  · change Leaves t s.lk (if c = chan then none else s.lk)
    split
    · rename_i same
      exact .of_some (inv.lk t (by rw [there]; exact same)) _
    · exact .refl t _
  · rcases drowsy with moved | sleeps
    · simp only [Pc.sleepChan.injEq, reduceCtorEq, or_false] at moved
      exact absurd met (inv.tested t p (.inr (by rw [there, moved.2])))
    · exact .inr sleeps

theorem sleepChan (there : s.pc t = .sleepChan p c) : Attended cond chan (step chan s t) := by
  have locked : s.lock p = some t := inv.slot t p (by rw [there]; rfl)
  simp only [step, there]
  refine inv.move rfl rfl (fun q _ _ due => by rw [there] at due; exact due.elim)
    (absurd · id) (.refl t _)
    (fun q same => inv.slot t q (by rw [there]; exact same)) (fun _ => .refl t _)
    (setChan_of_lock locked) (fun q sleeps => by simp at sleeps) (fun q d posts => ?_)
    fun q drowsy _ => ?_
  · simp only [Pc.sleepState.injEq] at posts
    obtain ⟨rfl, rfl⟩ := posts
    exact update_self ..
  rcases drowsy with moved | sleeps
  · simp only [reduceCtorEq, Pc.sleepState.injEq, false_or] at moved
    exact .inl ⟨t, .inl (by rw [there, moved.1, moved.2])⟩
  · have posted := sleeps.2
    rcases eq_or_ne q p with rfl | other
    · simp only [State.setChan, update_self, Option.some.injEq] at posted
      exact .inl ⟨t, .inl (by rw [there, posted])⟩
    · exact .inr ⟨sleeps.1, by simpa [State.setChan, other] using posted⟩

theorem sleepState (there : s.pc t = .sleepState p c) : Attended cond chan (step chan s t) := by
  have posted : s.chan p = some c := inv.posted t p c there
  simp only [step, there]
  refine inv.move rfl rfl (fun q _ _ due => by rw [there] at due; exact due.elim)
    (absurd · id) (.refl t _)
    (fun q same => inv.slot t q (by rw [there]; exact same)) (fun _ => .refl t _)
    (fun _ => .inl rfl) (fun q sleeps => by simp at sleeps) nofun fun q drowsy _ => ?_
  have sleeps := drowsy.resolve_left (by simp)
  rcases eq_or_ne q p with rfl | other
  · have same : some c = some chan := posted ▸ sleeps.2
    exact .inl ⟨t, .inr (by rw [there, Option.some.inj same])⟩
  · have asleep := sleeps.1
    exact .inr ⟨by simpa [State.setState, other] using asleep, sleeps.2⟩

theorem swtch {c : Cpu} (runs : s.pc (.scheduler c) = .switched p)
    (there : s.pc (.proc p) = .yieldSched p ∨ ∃ c, s.pc (.proc p) = .sleepSched p c) :
    Attended cond chan (next chan s (.swtch p c)) := by
  have locked : s.lock p = some (.proc p) := by
    refine inv.slot _ p ?_
    rcases there with there | ⟨c, there⟩ <;> rw [there] <;> rfl
  have idle : ∀ q, ¬ (s.pc (.proc p)).Due q := by
    intro q
    rcases there with there | ⟨c, there⟩ <;> rw [there] <;> exact id
  have places : (s.pc (.proc p)).away.Plain ∧ ¬ (s.pc (.proc p)).away.HoldsLk chan ∧
      (s.pc (.proc p)).away.slot = none := by
    rcases there with there | ⟨c, there⟩ <;> rw [there] <;> exact ⟨trivial, id, rfl⟩
  obtain ⟨plain, free, bare⟩ := places
  have left : Attended cond chan
      ((s.setLock p (some (.scheduler c))).goto (.proc p) (s.pc (.proc p)).away) :=
    inv.calm rfl rfl plain (fun q _ due => absurd due (idle q))
      (absurd · free) (.refl _ _) (fun _ same => by simp [bare] at same)
      (leaves_update (.of_some locked _)) (fun _ => .inl rfl) fun _ sleeps => sleeps
  refine left.calm rfl rfl trivial (fun q _ due => ?_) (absurd · id)
    (.refl _ _) (fun q same => ?_) (fun _ => .refl _ _) (fun _ => .inl rfl)
    fun _ sleeps => sleeps
  · rw [goto_pc_of_ne (by simp)] at due
    exact absurd (runs ▸ due : Pc.Due q (.switched p : Pc n Chan)) id
  · cases same
    exact setLock_lock_self ..

end Attended

omit [DecidableEq Chan] [DecidableEq Cpu] in
theorem sleepsOn_killSlot (p : Fin n) (sleeps : SleepsOn chan (killSlot s q) p) :
    SleepsOn chan s p := by
  refine ⟨?_, sleeps.2⟩
  have asleep := sleeps.1
  unfold killSlot at asleep
  dsimp only at asleep
  split at asleep
  · rcases eq_or_ne p q with rfl | other
    · simp at asleep
    · simpa [other] using asleep
  · exact asleep

theorem Attended.step (inv : Attended cond chan s) (can : CanStep s (s.pc t)) :
    Attended cond chan (step chan s t) := by
  cases there : s.pc t with
  | wakeupAcquire i => exact inv.wakeupAcquire there (by rw [there] at can; exact can)
  | wakeupTest i => exact inv.wakeupTest there
  | wakeupRelease i => exact inv.wakeupRelease there
  | sleepAcquire p c => exact inv.sleepAcquire there (by rw [there] at can; exact can)
  | sleepRelease p c => exact inv.sleepRelease there
  | sleepChan p c => exact inv.sleepChan there
  | sleepState p c => exact inv.sleepState there
  | acquireLk =>
    rw [there] at can
    simp only [Wakeup.step, there]
    exact inv.calm rfl rfl trivial (fun p _ due => by rw [there] at due; exact due.elim)
      (fun _ => rfl) (.of_none can _) (fun _ same => by simp [Pc.slot] at same)
      (fun _ => .refl t _) (fun _ => .inl rfl) fun _ sleeps => sleeps
  | sleepTidy p c =>
    have held : (s.pc t).slot = some p := by rw [there]; rfl
    simp only [Wakeup.step, there]
    exact inv.keep (.sleepUnlock p c) trivial (fun q => by rw [there]; exact id) id held
      rfl rfl rfl rfl rfl (setChan_of_lock (inv.slot t p held)) sleepsOn_setChan_none
  | sleepUnlock p c =>
    simp only [Wakeup.step, there]
    refine inv.give _ ?_ (fun q => by rw [there]; exact id) ?_ (by rw [there]; rfl) ?_
    · split <;> trivial
    · split <;> exact id
    · split <;> rfl
  | killAcquire q =>
    simp only [Wakeup.step, there]
    exact inv.take (.killTest q) trivial (fun p => by rw [there]; exact id) id
      (by rw [there] at can; exact can) rfl
  | killTest q =>
    simp only [Wakeup.step, there]
    exact inv.keep (.killRelease q) trivial (fun p => by rw [there]; exact id) id
      (by rw [there]; rfl) rfl rfl rfl rfl rfl (fun _ => .inl rfl) sleepsOn_killSlot
  | killRelease q =>
    simp only [Wakeup.step, there]
    exact inv.give .outside trivial (fun p => by rw [there]; exact id) id
      (by rw [there]; rfl) rfl
  | yieldAcquire p =>
    simp only [Wakeup.step, there]
    exact inv.take (.yieldState p) trivial (fun q => by rw [there]; exact id) id
      (by rw [there] at can; exact can) rfl
  | yieldState p =>
    simp only [Wakeup.step, there]
    exact inv.keep (.yieldSched p) trivial (fun q => by rw [there]; exact id) id
      (by rw [there]; rfl) rfl rfl rfl rfl rfl (fun _ => .inl rfl)
      (sleepsOn_setState (by simp))
  | yieldRelease p =>
    simp only [Wakeup.step, there]
    exact inv.give .outside trivial (fun q => by rw [there]; exact id) id
      (by rw [there]; rfl) rfl
  | schedulerRelease q =>
    simp only [Wakeup.step, there]
    exact inv.give .scheduling trivial (fun p => by rw [there]; exact id) id
      (by rw [there]; rfl) rfl
  | _ =>
    rw [there] at can
    exact absurd can id

theorem Attended.next (inv : Attended cond chan s) {action : Action σ Chan n Cpu}
    (enabled : Enabled cond chan s action) : Attended cond chan (next chan s action) := by
  cases action with
  | step t => exact inv.step enabled.2
  | enter t => exact inv.begin enabled.2 .acquireLk trivial id rfl
  | change t data =>
    obtain ⟨-, changed, there⟩ := enabled
    exact inv.within there (.critical true) trivial (fun _ => rfl) rfl data
  | use t data =>
    obtain ⟨-, ⟨changed, there⟩, harmless⟩ := enabled
    have mine : s.lk = some t := inv.lk t (by rw [there]; trivial)
    refine inv.of_kept (t := t)
      { others := fun _ _ => rfl
        lkSelf := inv.lk t
        lkOthers := .refl t _
        slotSelf := inv.slot t
        slotOthers := fun _ => .refl t _
        shared := .inr mine
        tested := fun p sleeps => ?_
        channel := fun _ => .inl rfl
        posted := inv.posted t
        due := fun p drowsy met => ?_ }
    · rcases sleeps with sleeps | sleeps <;>
        exact absurd (there.symm.trans sleeps) (by simp)
    · by_cases due : (s.pc t).Due p
      · exact .inl due
      · exact .inr ⟨drowsy, harmless met, due⟩
  | wakeup t =>
    obtain ⟨-, changed, there⟩ := enabled
    exact inv.within there (.wakeupAcquire 0) trivial (fun p => Nat.zero_le p) rfl s.shared
  | sleep p =>
    obtain ⟨-, ⟨changed, there⟩, unmet⟩ := enabled
    exact inv.callSleep (fun _ => inv.lk _ (by rw [there]; trivial)) (fun _ => unmet)
      (absurd rfl ·)
  | leave t =>
    obtain ⟨-, there⟩ := enabled
    have mine : s.lk = some t := inv.lk t (by rw [there]; trivial)
    exact inv.calm rfl rfl trivial
      (fun p _ due => by rw [there] at due; exact absurd due Bool.false_ne_true)
      (absurd · id) (.of_some mine _) (fun _ same => by simp [Pc.slot] at same)
      (fun _ => .refl t _) (fun _ => .inl rfl) fun _ sleeps => sleeps
  | sleepOther p c =>
    obtain ⟨-, there, other⟩ := enabled
    exact inv.callSleep (absurd · other) (absurd · other)
      fun _ q => by rw [there]; exact id
  | kill t q => exact inv.begin enabled.2 (.killAcquire q) trivial id rfl
  | yield p => exact inv.begin enabled.2 (.yieldAcquire p) trivial id rfl
  | swtch p c => exact inv.swtch enabled.1 enabled.2
  | pick c q =>
    obtain ⟨there, free⟩ := enabled
    exact inv.take (.schedulerTest q) trivial (fun p => by rw [there]; exact id) id free rfl
  | look c =>
    obtain ⟨q, there⟩ := enabled
    simp only [Wakeup.next, there]
    exact inv.schedule there

omit [DecidableEq Cpu] [DecidableEq Chan] in
theorem Initial.attended (initial : Initial s) : Attended cond chan s := by
  have places : ∀ t, s.pc t = .outside ∨ s.pc t = .yielded ∨ s.pc t = .scheduling ∨
      ∃ p, s.pc t = .switched p := by
    intro t
    cases t with
    | proc p => exact (initial.proc p).imp_right .inl
    | interrupt c => exact .inl (initial.interrupt c)
    | scheduler c => exact .inr (.inr (initial.scheduler c))
  refine ⟨fun t holds => ?_, fun t q holds => ?_, fun t p sleeps => ?_, fun t p c posts => ?_,
    fun p drowsy => ?_⟩
  · rcases places t with there | there | there | ⟨q, there⟩ <;> rw [there] at holds <;>
      exact absurd holds id
  · rcases places t with there | there | there | ⟨q, there⟩ <;> rw [there] at holds <;>
      simp [Pc.slot] at holds
  · rcases places t with there | there | there | ⟨q, there⟩ <;> rw [there] at sleeps <;>
      simp at sleeps
  · rcases places t with there | there | there | ⟨q, there⟩ <;> rw [there] at posts <;>
      simp at posts
  · rcases drowsy with ⟨t, sleeps⟩ | sleeps
    · rcases places t with there | there | there | ⟨q, there⟩ <;> rw [there] at sleeps <;>
        simp at sleeps
    · exact absurd sleeps.1 (initial.awake p)

omit [DecidableEq Cpu] [DecidableEq Chan] in
theorem Attended.unmet (inv : Attended cond chan s) (free : s.lk = none)
    (asleep : SleepsOn chan s p) : ¬ cond s.shared := by
  intro met
  obtain ⟨t, due⟩ := inv.due p (.inr asleep) met
  have holds : (s.pc t).HoldsLk chan := by
    cases there : s.pc t <;> rw [there] at due <;> trivial
  have held := inv.lk t holds
  rw [free] at held
  simp at held

/-- While `lk` is free, nobody sleeps on the channel although the condition holds, whether or
not the lock of the slot is free. -/
theorem no_lost_wakeup {start : State σ Chan n Cpu} (initial : Initial start)
    (run : (wakeupSystem cond chan).Reaches start s) (free : s.lk = none) (p : Fin n) :
    ¬ (s.state p = .sleeping ∧ s.chan p = some chan ∧ cond s.shared) := by
  rintro ⟨asleep, posted, met⟩
  have inv : Attended cond chan s :=
    run.invariant (fun _ _ inv enabled => inv.next enabled) initial.attended
  exact inv.unmet free ⟨asleep, posted⟩ met

end Invariant

section Users

variable {σ Chan Cpu : Type*} {n : Nat}

/-- The thread has `lk`, for its own code or for a scan of the table. -/
def Pc.Scans : Pc n Chan → Prop
  | .critical _ | .wakeupAcquire _ | .wakeupTest _ | .wakeupRelease _ => True
  | _ => False

/-- Actions outside the code that works on the shared data. -/
def Neutral : Action σ Chan n Cpu → Prop
  | .step _ | .sleepOther _ _ | .kill _ _ | .yield _ | .swtch _ _ | .pick _ _ | .look _ => True
  | _ => False

variable [DecidableEq Chan] [DecidableEq Cpu] {cond : σ → Prop} {chan : Chan}
  {m : State σ Chan n Cpu} {action : Action σ Chan n Cpu}

omit [DecidableEq Cpu] in
theorem wakeSlot_kept (i : Fin n) :
    (wakeSlot chan m i).pc = m.pc ∧ (wakeSlot chan m i).shared = m.shared := by
  unfold wakeSlot
  split <;> exact ⟨rfl, rfl⟩

theorem step_kept (t : Thread n Cpu) : (step chan m t).shared = m.shared ∧
    ∀ r, r ≠ t → (step chan m t).pc r = m.pc r := by
  unfold step
  split <;> try split
  all_goals
    refine ⟨?_, fun r other => ?_⟩ <;>
      simp [State.goto, State.setLock, State.setChan, State.setState, killSlot, wakeSlot_kept, *]

theorem shared_of_neutral (neutral : Neutral action) :
    (next chan m action).shared = m.shared := by
  cases action with
  | step t => exact (step_kept t).1
  | look c =>
    simp only [next]
    split
    · unfold schedule
      split <;> rfl
    · rfl
  | enter _ | change _ _ | use _ _ | wakeup _ | sleep _ | leave _ => exact neutral.elim
  | sleepOther _ _ | kill _ _ | yield _ | swtch _ _ | pick _ _ => rfl

variable {t : Thread n Cpu}

section

variable (neutral : Neutral action) (enabled : Enabled cond chan m action) (here : (m.pc t).Scans)
include neutral enabled here

/-- A thread that has `lk` stays where it is while the others work. -/
theorem pc_of_neutral : (next chan m action).pc t = m.pc t ∨ action = .step t := by
  have away : ∀ {r : Thread n Cpu} {pc}, m.pc r = pc → ¬ pc.Scans → t ≠ r := by
    rintro r pc there other rfl
    exact other (there ▸ here)
  cases action with
  | step r =>
    by_cases same : t = r
    · exact .inr (by rw [same])
    · exact .inl ((step_kept r).2 t same)
  | look c =>
    obtain ⟨q, there⟩ := enabled
    have other := away there id
    simp only [next, there, schedule]
    split
    · rcases eq_or_ne t (.proc q) with rfl | apart
      · have stays : (m.pc (.proc q)).resume q = m.pc (.proc q) := by
          cases place : m.pc (.proc q) <;> rw [place] at here <;> first | rfl | exact here.elim
        simp [State.goto, stays]
      · simp [State.goto, State.setLock, State.setState, apart, other]
    · simp [State.goto, other]
  | swtch q c =>
    have other : t ≠ .proc q := by
      rcases enabled.2 with there | ⟨_, there⟩ <;> exact away there id
    simp [next, State.goto, State.setLock, other, away enabled.1 id]
  | pick c q => simp [next, State.goto, State.setLock, away enabled.1 id]
  | sleepOther q c => simp [next, State.goto, away enabled.2.1 id]
  | kill r q => simp [next, State.goto, away enabled.2 id]
  | yield q => simp [next, State.goto, away enabled.2 id]
  | enter _ | change _ _ | use _ _ | wakeup _ | sleep _ | leave _ => exact neutral.elim

/-- A scan goes on until the thread is back in its own code. -/
theorem scans_of_neutral : ((next chan m action).pc t).Scans := by
  rcases pc_of_neutral neutral enabled here with same | rfl
  · rwa [same]
  have can := enabled.2
  cases place : m.pc t <;> rw [place] at here can <;> try exact here.elim
  case critical => exact can.elim
  case wakeupAcquire i =>
    simp only [next, step, place]
    split <;> simp [State.goto, Pc.Scans]
  all_goals simp [next, step, place, State.goto, Pc.Scans]

end

end Users

/-- One process runs on the only CPU; the condition is the value of a flag. -/
def oneSleeper : State Bool Unit 1 Unit where
  shared := false
  lk := none
  lock _ := none
  state _ := .running
  chan _ := none
  killed _ := false
  pc
    | .scheduler _ => .switched 0
    | _ => .outside

theorem oneSleeper_initial : Initial oneSleeper where
  lk := rfl
  lock _ := rfl
  awake _ := by simp [oneSleeper]
  proc _ := .inl rfl
  interrupt _ := rfl
  scheduler _ := .inr ⟨0, rfl⟩

/-- The process falls asleep and an interrupt sets the flag and calls `wakeup`. -/
def setByInterrupt : List (Action Bool Unit 1 Unit) :=
  [.enter (.proc 0), .step (.proc 0), .sleep 0, .step (.proc 0), .step (.proc 0),
    .step (.proc 0), .enter (.interrupt ()), .step (.interrupt ()), .step (.proc 0), .swtch 0 (),
    .step (.scheduler ()), .change (.interrupt ()) true, .wakeup (.interrupt ()),
    .step (.interrupt ()), .step (.interrupt ()), .step (.interrupt ()), .step (.interrupt ()),
    .leave (.interrupt ())]

theorem setByInterrupt_run :
    (wakeupSystem (· = true) ()).Reaches oneSleeper
      (setByInterrupt.foldl (next ()) oneSleeper) := by
  apply System.Schedules.reaches
  repeat' apply And.intro
  all_goals first
    | rfl
    | exact ⟨_, rfl⟩
    | exact ⟨(), rfl⟩
    | exact .inr ⟨_, rfl⟩
    | exact fun _ => rfl
    | exact Bool.noConfusion
    | trivial

/-- The flag is set, `lk` is free, and the process, still posted on the channel, is awake. -/
theorem no_lost_wakeup_setByInterrupt :
    (setByInterrupt.foldl (next ()) oneSleeper).chan 0 = some () ∧
      (setByInterrupt.foldl (next ()) oneSleeper).shared = true ∧
      (setByInterrupt.foldl (next ()) oneSleeper).state 0 ≠ .sleeping := by
  refine ⟨rfl, rfl, fun asleep => ?_⟩
  exact no_lost_wakeup oneSleeper_initial setByInterrupt_run rfl 0 ⟨asleep, rfl, rfl⟩

end OsLab.Wakeup
