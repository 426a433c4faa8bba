import OsLab.Lib.Prog
import OsLab.Lib.Run
import OsLab.Proc.State

/-!
# The process table

The processes of `proc.c` on any number of CPUs.  A CPU runs the thread of a process or its own
scheduler, and a step is one operation of the thread that runs: taking or giving back a lock, an
access to the table, or a switch.  A thread that holds no lock can be made to yield by the timer at
any point.
-/

namespace OsLab.Sched

open Function

/-- The panics of `proc.c` and `spinlock.c`. -/
inductive Panic where
  | acquire
  | release
  | initExiting
  | zombieExit
  | wakeup1
  | schedLock
  | schedLocks
  | schedRunning
  /-- A null `p->parent` or `myproc()` is used as a pointer. -/
  | null
deriving DecidableEq

/-- What a kernel thread does in one step. -/
inductive Op where
  | acquire (l : Spinlock)
  | release (l : Spinlock)
  | holding (l : Spinlock)
  | myproc
  /-- Read `p->parent` without the lock. -/
  | parentOf (p : Pslot)
  /-- `original_parent = p->parent` in `exit`. -/
  | ownParent (p : Pslot)
  /-- Whether an allocation of memory or a copy to the user succeeds. -/
  | succeeds
  /-- `p->state == UNUSED`, and then `p->pid = allocpid()`. -/
  | claim (p : Pslot)
  | trapframe (p : Pslot)
  | initContext (p : Pslot)
  | freeproc (p : Pslot)
  | adopt (np p : Pslot)
  | giveToInit (pp : Pslot)
  | ready (p : Pslot)
  /-- `if (p->state == SLEEPING && p->chan == chan) p->state = RUNNABLE`. -/
  | wakeup (p : Pslot) (chan : Chan)
  /-- `if (p->pid == pid)`: set `killed`, and make a sleeping process runnable. -/
  | kill (p : Pslot) (pid : BitVec 32)
  | isKilled (p : Pslot)
  | isRunnable (p : Pslot)
  /-- `np->state == ZOMBIE`, with its pid and its exit status. -/
  | zombie (np : Pslot)
  /-- `freeproc(np)` in `wait`, which then returns this pid with this status. -/
  | reap (np p : Pslot) (pid xstate : BitVec 32)
  /-- `p->chan = chan; p->state = SLEEPING`. -/
  | sleep (p : Pslot) (chan : Chan)
  | clearChan (p : Pslot)
  /-- `p->xstate = status; p->state = ZOMBIE`. -/
  | die (p : Pslot) (status : BitVec 32)
  /-- The checks of `sched` and its `swtch`. -/
  | sched
  /-- `p->state == RUNNABLE`, and then `p->state = RUNNING; c->proc = p; swtch`. -/
  | dispatch (p : Pslot)
  | idle
  | panic (reason : Panic)

/-- The results of the operations. -/
abbrev Op.Res : Op → Type
  | .holding _ | .succeeds | .claim _ | .trapframe _ | .kill _ _ | .isKilled _ | .isRunnable _
  | .dispatch _ => Bool
  | .myproc | .parentOf _ | .ownParent _ => Option Pslot
  | .zombie _ => Option (BitVec 32 × BitVec 32)
  | _ => Unit

/-- What a thread goes on with when a program ends: the user program, or the loop of `wait` with
whether `addr` and `flags` are nonzero. -/
inductive Next where
  | user
  | waitLoop (p : Pslot) (addr flags : Bool)
deriving DecidableEq

abbrev Code := Prog Op Op.Res

open Prog

section Code

def op (operation : Op) : Code operation.Res := .call operation .ret

def acquire (l : Spinlock) : Code Unit := op (.acquire l)

def release (l : Spinlock) : Code Unit := op (.release l)

def panic (reason : Panic) : Code Unit := op (.panic reason)

/-- A function that starts with `p = myproc()`. -/
def withMyproc (body : Pslot → Code Next) : Code Next := do
  match ← op .myproc with
  | some p => body p
  | none =>
    panic .null
    return .user

/-- The loop of `allocproc`. -/
def allocFrom : List Pslot → Code (Option Pslot)
  | [] => return none
  | p :: rest => do
    acquire (.proc p)
    if ← op (.claim p) then
      if ← op (.trapframe p) then
        -- the page table
        if ← op .succeeds then
          op (.initContext p)
          return some p
        else
          op (.freeproc p)
          release (.proc p)
          return none
      else
        release (.proc p)
        return none
    else
      release (.proc p)
      allocFrom rest

/-- `allocproc`: the new entry, with its lock held. -/
def allocproc : Code (Option Pslot) := allocFrom (List.finRange nproc)

def fork : Code Next := withMyproc fun p => do
  match ← allocproc with
  | none => return .user
  | some np =>
    -- `uvmcopy`
    if ← op .succeeds then
      op (.adopt np p)
      op (.ready np)
      release (.proc np)
      return .user
    else
      op (.freeproc np)
      release (.proc np)
      return .user

def forkret : Code Next := withMyproc fun p => do
  release (.proc p)
  return .user

def reparentFrom (p : Pslot) : List Pslot → Code Unit
  | [] => return
  | pp :: rest => do
    if (← op (.parentOf pp)) = some p then
      acquire (.proc pp)
      op (.giveToInit pp)
      release (.proc pp)
      reparentFrom p rest
    else
      reparentFrom p rest

def reparent (p : Pslot) : Code Unit := reparentFrom p (List.finRange nproc)

def wakeup1 (p : Pslot) : Code Unit := do
  if ← op (.holding (.proc p)) then
    op (.wakeup p (.proc p))
  else
    panic .wakeup1

/-- `exit` from the second `acquire(&p->lock)` on. -/
def exitLocked (p parent : Pslot) (status : BitVec 32) : Code Next := do
  reparent p
  wakeup1 parent
  op (.die p status)
  release (.proc parent)
  op .sched
  panic .zombieExit
  return .user

/-- `exit`, after it has closed the files. -/
def exit (status : BitVec 32) : Code Next := withMyproc fun p => do
  if p = initproc then
    panic .initExiting
    return .user
  else
    acquire (.proc initproc)
    wakeup1 initproc
    release (.proc initproc)
    acquire (.proc p)
    let parent ← op (.ownParent p)
    release (.proc p)
    match parent with
    | none =>
      panic .null
      return .user
    | some parent =>
      acquire (.proc parent)
      acquire (.proc p)
      exitLocked p parent status

/-- What the scan of `wait` ends with. -/
inductive Scan where
  /-- `wait` has returned and released its locks. -/
  | returned
  | scanned (havekids : Bool)

/-- The rest of `wait` for a child that is a zombie. -/
def waitFound (p np : Pslot) (addr : Bool) (pid xstate : BitVec 32) : Code Scan := do
  if ← (if addr then op .succeeds else pure true) then
    op (.reap np p pid xstate)
    release (.proc np)
    release (.proc p)
    return .returned
  else
    release (.proc np)
    release (.proc p)
    return .returned

/-- The scan of `wait` over the table. -/
def waitFrom (p : Pslot) (addr : Bool) : (havekids : Bool) → List Pslot → Code Scan
  | havekids, [] => return .scanned havekids
  | havekids, np :: rest => do
    if (← op (.parentOf np)) = some p then
      acquire (.proc np)
      match ← op (.zombie np) with
      | some (pid, xstate) => waitFound p np addr pid xstate
      | none =>
        release (.proc np)
        waitFrom p addr true rest
    else
      waitFrom p addr havekids rest

/-- One round of the loop of `wait`. -/
def waitRound (p : Pslot) (addr flags : Bool) : Code Next := do
  match ← waitFrom p addr false (List.finRange nproc) with
  | .returned => return .user
  | .scanned havekids =>
    let killed ← op (.isKilled p)
    if !havekids || killed then
      release (.proc p)
      return .user
    else if flags then
      release (.proc p)
      return .user
    else
      -- `sleep(p, &p->lock)`
      op (.sleep p (.proc p))
      op .sched
      op (.clearChan p)
      return .waitLoop p addr flags

def wait (addr flags : Bool) : Code Next := withMyproc fun p => do
  acquire (.proc p)
  waitRound p addr flags

def yield : Code Unit := do
  match ← op .myproc with
  | some p =>
    acquire (.proc p)
    op (.ready p)
    op .sched
    release (.proc p)
  | none => panic .null

/-- The loop of `sys_yield` that looks for a runnable process. -/
def sysYieldFrom : List Pslot → Code Unit
  | [] => return
  | pp :: rest => do
    acquire (.proc pp)
    let found ← op (.isRunnable pp)
    release (.proc pp)
    if found then return else sysYieldFrom rest

def sysYield : Code Next := withMyproc fun p => do
  sysYieldFrom (List.finRange nproc)
  acquire (.proc p)
  op (.ready p)
  op .sched
  release (.proc p)
  return .user

/-- `sleep` on a channel other than those of `wait`, between `acquire(lk)` and `release(lk)`. -/
def sleep (chan lk : Nat) : Code Next := withMyproc fun p => do
  acquire (.other lk)
  acquire (.proc p)
  release (.other lk)
  op (.sleep p (.other chan))
  op .sched
  op (.clearChan p)
  release (.proc p)
  acquire (.other lk)
  release (.other lk)
  return .user

def wakeupFrom (chan : Nat) : List Pslot → Code Next
  | [] => return .user
  | p :: rest => do
    acquire (.proc p)
    op (.wakeup p (.other chan))
    release (.proc p)
    wakeupFrom chan rest

def wakeup (chan : Nat) : Code Next := wakeupFrom chan (List.finRange nproc)

def killFrom (pid : BitVec 32) : List Pslot → Code Next
  | [] => return .user
  | p :: rest => do
    acquire (.proc p)
    if ← op (.kill p pid) then
      release (.proc p)
      return .user
    else
      release (.proc p)
      killFrom pid rest

def kill (pid : BitVec 32) : Code Next := killFrom pid (List.finRange nproc)

/-- One pass of `scheduler` over the table. -/
def schedulerFrom : List Pslot → Code Unit
  | [] => return
  | p :: rest => do
    acquire (.proc p)
    if ← op (.dispatch p) then
      op .idle
      release (.proc p)
      schedulerFrom rest
    else
      release (.proc p)
      schedulerFrom rest

def scheduler : Code Unit := schedulerFrom (List.finRange nproc)

end Code

inductive Call where
  | fork
  | exit (status : BitVec 32)
  | wait (addr flags : Bool)
  | kill (pid : BitVec 32)
  | yield
  | sysYield
  | sleep (chan lk : Nat)
  | wakeup (chan : Nat)

def Call.code : Call → Code Next
  | .fork => Sched.fork
  | .exit status => Sched.exit status
  | .wait addr flags => Sched.wait addr flags
  | .kill pid => Sched.kill pid
  | .yield => do
    Sched.yield
    return .user
  | .sysYield => Sched.sysYield
  | .sleep chan lk => Sched.sleep chan lk
  | .wakeup chan => Sched.wakeup chan

/-- The code that a thread goes on with. -/
def Next.code (next : Next) : Code Next :=
  match next with
  | .user => return .user
  | .waitLoop p addr flags => waitRound p addr flags

/-- What a run has seen: a process is created, calls `exit`, becomes a zombie, and is returned by
`wait` of another. -/
inductive Event where
  | forked (child creator : Nat)
  | called (child : Nat) (status : BitVec 32)
  | exited (child : Nat) (pid status : BitVec 32)
  | reported (child : Nat) (pid status : BitVec 32) (waiter : Nat)
deriving DecidableEq

/-- `struct cpu`, the thread that the CPU runs, and the code its scheduler has left. -/
structure CpuState where
  proc : Option Pslot
  noff : Nat
  current : Option Pslot
  loop : Code Unit

/-- Three fields only follow the run: the `original_parent` of every `exit`, the unused entries that
`allocproc` or `kill` has spoilt, and what has happened. -/
structure State (Cpu : Type*) where
  proc : Pslot → Proc
  lock : Spinlock → Option Cpu
  nextpid : Nat
  cpu : Cpu → CpuState
  todo : Pslot → Code Next
  panic : Option Panic
  original : Pslot → Option Pslot
  stale : Pslot → Bool
  history : List Event

/-- What a run records of a call. -/
def Call.events (birth : Nat) : Call → List Event
  | .exit status => [.called birth status]
  | _ => []

/-- The next step of a CPU, with the outcome of what may fail; a call of the process that a CPU
runs; a timer interrupt. -/
inductive Action (Cpu : Type*) where
  | step (c : Cpu) (outcome : Bool)
  | call (c : Cpu) (request : Call)
  | timer (c : Cpu)

/-- `freeproc`. -/
def Proc.free (p : Proc) : Proc :=
  { p with
    state := .unused, parent := none, chan := none, killed := false, xstate := 0, pid := 0
    birth := 0 }

section Steps

variable {Cpu : Type*} [DecidableEq Cpu]

variable (s : State Cpu)

namespace State

/-- Change an entry of the table. -/
def modify (p : Pslot) (change : Proc → Proc) : State Cpu :=
  { s with proc := update s.proc p (change (s.proc p)) }

def setCpu (c : Cpu) (change : CpuState → CpuState) : State Cpu :=
  { s with cpu := update s.cpu c (change (s.cpu c)) }

def setLock (l : Spinlock) (holder : Option Cpu) : State Cpu :=
  { s with lock := update s.lock l holder }

/-- Record whether an unused entry is stale. -/
def setStale (p : Pslot) (stale : Bool) : State Cpu :=
  { s with stale := update s.stale p stale }

/-- Give a process other code to run. -/
def setTodo (p : Pslot) (code : Code Next) : State Cpu :=
  { s with todo := update s.todo p code }

end State

/-- An operation of the thread that runs on a CPU; a panic has no result. -/
def effect (c : Cpu) (outcome : Bool) : (op : Op) → State Cpu × Option op.Res
  | .acquire l =>
    if s.lock l = some c then ({ s with panic := some .acquire }, none)
    else ((s.setLock l (some c)).setCpu c fun u => { u with noff := u.noff + 1 }, some ())
  | .release l =>
    if s.lock l = some c then
      ((s.setLock l none).setCpu c fun u => { u with noff := u.noff - 1 }, some ())
    else ({ s with panic := some .release }, none)
  | .holding l => (s, some (decide (s.lock l = some c)))
  | .myproc => (s, some (s.cpu c).proc)
  | .parentOf p => (s, some (s.proc p).parent)
  | .ownParent p =>
    ({ s with original := update s.original p (s.proc p).parent }, some (s.proc p).parent)
  | .succeeds => (s, some outcome)
  | .claim p =>
    if (s.proc p).state = .unused then
      ({ s.modify p fun e => { e with pid := .ofNat 32 s.nextpid, birth := s.nextpid } with
          nextpid := s.nextpid + 1
          original := update s.original p none }, some true)
    else (s, some false)
  | .trapframe p => (if outcome then s else s.setStale p true, some outcome)
  | .initContext p => (s.setTodo p forkret, some ())
  | .freeproc p => ((s.modify p Proc.free).setStale p false, some ())
  | .adopt np p =>
    ({ s.modify np fun e => { e with parent := some p, creator := (s.proc p).birth } with
        history := .forked (s.proc np).birth (s.proc p).birth :: s.history }, some ())
  | .giveToInit pp => (s.modify pp fun e => { e with parent := some initproc }, some ())
  | .ready p => (s.modify p fun e => { e with state := .runnable }, some ())
  | .wakeup p chan =>
    if (s.proc p).state = .sleeping ∧ (s.proc p).chan = some chan then
      (s.modify p fun e => { e with state := .runnable }, some ())
    else (s, some ())
  | .kill p pid =>
    if (s.proc p).pid = pid then
      ((s.modify p fun e =>
        { e with
          killed := true
          state := if e.state = .sleeping then .runnable else e.state }).setStale p
        (s.stale p || decide ((s.proc p).state = .unused)), some true)
    else (s, some false)
  | .isKilled p => (s, some (s.proc p).killed)
  | .isRunnable p => (s, some (decide ((s.proc p).state = .runnable)))
  | .zombie np =>
    (s, some (if (s.proc np).state = .zombie then some ((s.proc np).pid, (s.proc np).xstate)
      else none))
  | .reap np p pid xstate =>
    ({ (s.modify np Proc.free).setStale np false with
        history := .reported (s.proc np).birth pid xstate (s.proc p).birth :: s.history },
      some ())
  | .sleep p chan =>
    (s.modify p fun e => { e with state := .sleeping, chan := some chan }, some ())
  | .clearChan p => (s.modify p fun e => { e with chan := none }, some ())
  | .die p status =>
    ({ s.modify p fun e => { e with state := .zombie, xstate := status } with
        history := .exited (s.proc p).birth (s.proc p).pid status :: s.history }, some ())
  | .sched =>
    match (s.cpu c).proc with
    | none => ({ s with panic := some .null }, none)
    | some p =>
      if s.lock (.proc p) ≠ some c then ({ s with panic := some .schedLock }, none)
      else if (s.cpu c).noff ≠ 1 then ({ s with panic := some .schedLocks }, none)
      else if (s.proc p).state = .running then
        ({ s with panic := some .schedRunning }, none)
      else (s.setCpu c fun u => { u with current := none }, some ())
  | .dispatch p =>
    if (s.proc p).state = .runnable then
      ((s.modify p fun e => { e with state := .running }).setCpu c fun u =>
        { u with proc := some p, current := some p }, some true)
    else (s, some false)
  | .idle => (s.setCpu c fun u => { u with proc := none }, some ())
  | .panic reason => ({ s with panic := some reason }, none)

/-- The operation has to wait for a lock that another CPU holds. -/
def Blocked (c : Cpu) : Op → Prop
  | .acquire l => s.lock l ≠ none ∧ s.lock l ≠ some c
  | _ => False

/-- The code in front of which a CPU stands lets it take a step. -/
def Ready {α : Type} (c : Cpu) : Code α → Prop
  | .ret _ => True
  | .call op _ => ¬ Blocked s c op

/-- The next step of the process that runs on a CPU. -/
def stepProc (c : Cpu) (p : Pslot) (outcome : Bool) : State Cpu :=
  match s.todo p with
  | .ret next => s.setTodo p next.code
  | .call op rest =>
    match effect s c outcome op with
    | (t, some result) => t.setTodo p (rest result)
    | (t, none) => t

/-- The next step of the scheduler of a CPU. -/
def stepLoop (c : Cpu) (outcome : Bool) : State Cpu :=
  match (s.cpu c).loop with
  | .ret _ => s.setCpu c fun u => { u with loop := scheduler }
  | .call op rest =>
    match effect s c outcome op with
    | (t, some result) => t.setCpu c fun u => { u with loop := rest result }
    | (t, none) => t

def Allowed : Action Cpu → Prop
  | .step c _ =>
    match (s.cpu c).current with
    | some p => s.todo p ≠ .ret .user ∧ Ready s c (s.todo p)
    | none => Ready s c (s.cpu c).loop
  | .call c _ => ∃ p, (s.cpu c).current = some p ∧ s.todo p = .ret .user
  | .timer c => ∃ p, (s.cpu c).current = some p ∧ (s.cpu c).noff = 0 ∧ (s.proc p).state = .running

def next : Action Cpu → State Cpu
  | .step c outcome =>
    match (s.cpu c).current with
    | some p => stepProc s c p outcome
    | none => stepLoop s c outcome
  | .call c request =>
    match (s.cpu c).current with
    | some p =>
      { s.setTodo p request.code with
        history := request.events (s.proc p).birth ++ s.history }
    | none => s
  | .timer c =>
    match (s.cpu c).current with
    | some p => s.setTodo p (yield >>= fun _ => s.todo p)
    | none => s

/-- The system of all CPUs. -/
def schedSystem (Cpu : Type*) [DecidableEq Cpu] : System (State Cpu) (Action Cpu) where
  Enabled s action := s.panic = none ∧ Allowed s action
  next := Sched.next

instance (code : Code Next) (last : Next) : Decidable (code = .ret last) :=
  match code with
  | .ret next => decidable_of_iff (next = last) (by simp)
  | .call _ _ => .isFalse (by simp)

instance (s : State Cpu) (c : Cpu) : (op : Op) → Decidable (Blocked s c op)
  | .acquire _ => inferInstanceAs (Decidable (_ ∧ _))
  | .release _ | .holding _ | .myproc | .parentOf _ | .ownParent _ | .succeeds | .claim _
  | .trapframe _ | .initContext _ | .freeproc _ | .adopt _ _ | .giveToInit _ | .ready _
  | .wakeup _ _ | .kill _ _ | .isKilled _ | .isRunnable _ | .zombie _ | .reap _ _ _ _ | .sleep _ _
  | .clearChan _ | .die _ _ | .sched | .dispatch _ | .idle | .panic _ =>
    inferInstanceAs (Decidable False)

instance {α : Type} (s : State Cpu) (c : Cpu) : (code : Code α) → Decidable (Ready s c code)
  | .ret _ => inferInstanceAs (Decidable True)
  | .call _ _ => inferInstanceAs (Decidable (¬ _))

instance (s : State Cpu) : (action : Action Cpu) → Decidable (Allowed s action)
  | .step c _ =>
    match current : (s.cpu c).current with
    | some p => decidable_of_iff (s.todo p ≠ .ret .user ∧ Ready s c (s.todo p))
        (by simp [Allowed, current])
    | none => decidable_of_iff (Ready s c (s.cpu c).loop) (by simp [Allowed, current])
  | .call c _ =>
    match current : (s.cpu c).current with
    | some p => decidable_of_iff (s.todo p = .ret .user) (by simp [Allowed, current])
    | none => .isFalse (by simp [Allowed, current])
  | .timer c =>
    match current : (s.cpu c).current with
    | some p => decidable_of_iff ((s.cpu c).noff = 0 ∧ (s.proc p).state = .running)
        (by simp [Allowed, current])
    | none => .isFalse (by simp [Allowed, current])

instance (s : State Cpu) (action : Action Cpu) : Decidable ((schedSystem Cpu).Enabled s action) :=
  inferInstanceAs (Decidable (_ ∧ _))

/-- An entry that was never used. -/
def Proc.unused : Proc := ⟨.unused, none, none, false, 0, 0, 0, 0⟩

/-- The first process, as `userinit` leaves it. -/
def Proc.init : Proc := ⟨.runnable, none, none, false, 0, 1, 1, 0⟩

/-- The state in which the CPUs enter `scheduler`. -/
def boot (Cpu : Type*) : State Cpu where
  proc p := if p = initproc then Proc.init else Proc.unused
  lock _ := none
  nextpid := 2
  cpu _ := ⟨none, 0, none, scheduler⟩
  todo _ := forkret
  panic := none
  original _ := none
  stale _ := false
  history := []

end Steps

end OsLab.Sched
