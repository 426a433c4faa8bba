import OsLab.Lib.Bytes
import OsLab.Lib.Run
import OsLab.Proc.State

/-!
# Pipes

One pipe and the processes that share it: a step of the system is one whole tenure of `pi->lock`,
from `acquire` (or from the return of `sleep`) to `release` (or to the next `sleep`).  User copies
may fail at any byte.  The descriptors of a process are kept, because `fileclose` calls `pipeclose`
only for the last of them.
-/

namespace OsLab

def pipeSize : Nat := 512

/-- `struct pipe` without its lock. -/
structure Pipe where
  data : Fin pipeSize → Byte
  nread : BitVec 32
  nwrite : BitVec 32
  readopen : Bool
  writeopen : Bool

namespace Pipe

/-- The slot `count % PIPESIZE` of the buffer. -/
def slot (count : BitVec 32) : Fin pipeSize :=
  ⟨count.toNat % pipeSize, Nat.mod_lt _ (by decide)⟩

/-- `pi->nread == pi->nwrite`. -/
def Empty (pi : Pipe) : Prop := pi.nread = pi.nwrite

/-- `pi->nwrite == pi->nread + PIPESIZE`. -/
def Full (pi : Pipe) : Prop := pi.nwrite = pi.nread + .ofNat 32 pipeSize

instance (pi : Pipe) : Decidable pi.Empty := inferInstanceAs (Decidable (_ = _))

instance (pi : Pipe) : Decidable pi.Full := inferInstanceAs (Decidable (_ = _))

/-- `pi->data[pi->nwrite++ % PIPESIZE] = ch`. -/
def put (pi : Pipe) (ch : Byte) : Pipe :=
  { pi with
    data := Function.update pi.data (slot pi.nwrite) ch
    nwrite := pi.nwrite + 1 }

/-- `pi->data[pi->nread++ % PIPESIZE]`, the byte and the pipe without it. -/
def take (pi : Pipe) : Byte × Pipe :=
  (pi.data (slot pi.nread), { pi with nread := pi.nread + 1 })

/-- The sleep channels `&pi->nread` and `&pi->nwrite`. -/
inductive Chan where
  | nread
  | nwrite
deriving DecidableEq, Repr

/-- Where a process stands with respect to the pipe. -/
inductive Call where
  | user
  /-- In `pipewrite`, about to take the lock (again) with loop index `i` of `n`. -/
  | pipewrite (i : Nat) (n : Int)
  | piperead (n : Int)
deriving DecidableEq, Repr

/-- What the pipe code reads and writes of one process. -/
structure Proc where
  state : Procstate
  chan : Option Chan
  killed : Bool
  call : Call
  /-- Some descriptor of the process is the pipe's read end. -/
  readFd : Bool
  /-- Some descriptor of the process is the pipe's write end. -/
  writeFd : Bool
deriving DecidableEq, Repr

namespace Proc

variable (proc : Proc)

/-- The process sleeps on the given channel. -/
def SleepsOn (chan : Chan) : Prop :=
  proc.state = .sleeping ∧ proc.chan = some chan

instance (proc : Proc) (chan : Chan) : Decidable (proc.SleepsOn chan) :=
  inferInstanceAs (Decidable (_ ∧ _))

/-- `sleep(chan, lk)` up to the switch to the scheduler. -/
def sleep (chan : Chan) (call : Call) : Proc :=
  { proc with state := .sleeping, chan := some chan, call := call }

/-- The tail of `sleep` after the scheduler has chosen the process again. -/
def resume : Proc := { proc with state := .running, chan := none }

/-- Return from `pipewrite` or `piperead`. -/
def leave : Proc := { proc with call := .user }

/-- The test and assignment that `wakeup(chan)` makes for one slot. -/
def wakeup (chan : Chan) (proc : Proc) : Proc :=
  if proc.SleepsOn chan then { proc with state := .runnable } else proc

/-- What `kill` does to the process it finds. -/
def kill : Proc :=
  { proc with
    killed := true
    state := if proc.state = .sleeping then .runnable else proc.state }

end Proc

/-- The pipe and every process, with the pipe lock free. -/
structure State (Pid : Type*) where
  pipe : Pipe
  procs : Pid → Proc
  /-- The page of the pipe has been given back by `kfree`. -/
  freed : Bool

section Operations

variable {Pid : Type*} [DecidableEq Pid]

variable (s : State Pid)

namespace State

/-- Change the record of one process. -/
def modify (p : Pid) (change : Proc → Proc) : State Pid :=
  { s with procs := Function.update s.procs p (change (s.procs p)) }

/-- `wakeup(chan)`: the loop over the process table. -/
def wakeup (chan : Chan) : State Pid :=
  { s with procs := fun q => (s.procs q).wakeup chan }

end State

/-- The loop of `pipewrite` from byte `i` on, with `remaining = n - i`, and the returned value, or
`none` if the process went to sleep. -/
def pipewriteLoop (p : Pid) (n : Int) (copyin : Memory) :
    (remaining i : Nat) → State Pid → State Pid × Option Int
  | 0, i, s => ((s.wakeup .nread).modify p Proc.leave, some i)
  | remaining + 1, i, s =>
    if s.pipe.Full then
      if s.pipe.readopen = false ∨ (s.procs p).killed then
        -- no wakeup on this path, although bytes may have been stored
        (s.modify p Proc.leave, some (-1))
      else
        ((s.wakeup .nread).modify p (·.sleep .nwrite (.pipewrite i n)), none)
    else
      match copyin i with
      | none => ((s.wakeup .nread).modify p Proc.leave, some i)
      | some ch => pipewriteLoop p n copyin remaining (i + 1) { s with pipe := s.pipe.put ch }

/-- One tenure of the lock by `pipewrite`, entered or resumed at byte `i`. -/
def pipewrite (p : Pid) (i : Nat) (n : Int) (copyin : Memory) (s : State Pid) :
    State Pid × Option Int :=
  pipewriteLoop p n copyin (n - i).toNat i (s.modify p Proc.resume)

/-- The copying loop of `piperead`: the pipe afterwards and the bytes stored in user memory. -/
def pipereadLoop (copyout : Nat → Bool) : (remaining i : Nat) → Pipe → Pipe × List Byte
  | 0, _, pi => (pi, [])
  | remaining + 1, i, pi =>
    if pi.Empty then (pi, [])
    else if copyout i then
      let (rest, stored) := pipereadLoop copyout remaining (i + 1) pi.take.2
      (rest, pi.take.1 :: stored)
    else
      -- the byte is already gone from the pipe
      (pi.take.2, [])

/-- One tenure of the lock by `piperead`, entered or resumed. -/
def piperead (p : Pid) (n : Int) (copyout : Nat → Bool) (s : State Pid) : State Pid × Option Int :=
  let s := s.modify p Proc.resume
  if s.pipe.Empty ∧ s.pipe.writeopen then
    if (s.procs p).killed then (s.modify p Proc.leave, some (-1))
    else (s.modify p (·.sleep .nread (.piperead n)), none)
  else
    let (pi, stored) := pipereadLoop copyout n.toNat 0 s.pipe
    ((({ s with pipe := pi } : State Pid).wakeup .nwrite).modify p Proc.leave,
      some stored.length)

def pipeclose (writable : Bool) (s : State Pid) : State Pid :=
  let s : State Pid :=
    if writable then
      ({ s with pipe := { s.pipe with writeopen := false } } : State Pid).wakeup .nread
    else
      ({ s with pipe := { s.pipe with readopen := false } } : State Pid).wakeup .nwrite
  if s.pipe.readopen = false ∧ s.pipe.writeopen = false then { s with freed := true } else s

/-- Drop the descriptors of one end. -/
def Proc.dropFd (writable : Bool) (proc : Proc) : Proc :=
  if writable then { proc with writeFd := false } else { proc with readFd := false }

/-- The process holds a descriptor of the given end. -/
def Proc.HasFd (writable : Bool) (proc : Proc) : Prop :=
  if writable then proc.writeFd = true else proc.readFd = true

/-- What one step of the system may be. -/
inductive Action (Pid : Type*) where
  | enterWrite (p : Pid) (n : Int)
  | enterRead (p : Pid) (n : Int)
  | runWrite (p : Pid) (copyin : Memory)
  | runRead (p : Pid) (copyout : Nat → Bool)
  /-- Close the process's last descriptor of one end; `last` if nobody else holds one. -/
  | close (p : Pid) (writable last : Bool)
  | fork (p q : Pid)
  | kill (q : Pid)

/-- When an action may be taken. -/
def Enabled : Action Pid → Prop
  | .enterWrite p _ => (s.procs p).call = .user ∧ (s.procs p).writeFd = true
  | .enterRead p _ => (s.procs p).call = .user ∧ (s.procs p).readFd = true
  | .runWrite p _ => (∃ i n, (s.procs p).call = .pipewrite i n) ∧ (s.procs p).state ≠ .sleeping
  | .runRead p _ => (∃ n, (s.procs p).call = .piperead n) ∧ (s.procs p).state ≠ .sleeping
  | .close p writable last =>
    (s.procs p).call = .user ∧ (s.procs p).HasFd writable ∧
      (last = true ↔ ∀ q, q ≠ p → ¬ (s.procs q).HasFd writable)
  | .fork p q =>
    (s.procs p).call = .user ∧ (s.procs q).call = .user ∧
      (s.procs q).readFd = false ∧ (s.procs q).writeFd = false
  | .kill _ => True

def next : Action Pid → State Pid
  | .enterWrite p n => s.modify p fun proc => { proc with call := .pipewrite 0 n }
  | .enterRead p n => s.modify p fun proc => { proc with call := .piperead n }
  | .runWrite p copyin =>
    match (s.procs p).call with
    | .pipewrite i n => (pipewrite p i n copyin s).1
    | _ => s
  | .runRead p copyout =>
    match (s.procs p).call with
    | .piperead n => (piperead p n copyout s).1
    | _ => s
  | .close p writable last =>
    let s := s.modify p (Proc.dropFd writable)
    if last then pipeclose writable s else s
  | .fork p q =>
    s.modify q fun _ =>
      { state := .runnable, chan := none, killed := false, call := .user
        readFd := (s.procs p).readFd, writeFd := (s.procs p).writeFd }
  | .kill q => s.modify q Proc.kill

variable (Pid) in
/-- Every interleaving of `pipewrite`, `piperead`, `pipeclose`, `fork` and `kill`. -/
def pipeSystem : System (State Pid) (Action Pid) where
  Enabled := Enabled
  next := next

/-- The state right after process `creator` has returned from `pipealloc` and `sys_pipe`. -/
structure Created (creator : Pid) (s : State Pid) : Prop where
  nread : s.pipe.nread = 0
  nwrite : s.pipe.nwrite = 0
  readopen : s.pipe.readopen = true
  writeopen : s.pipe.writeopen = true
  user : ∀ q, (s.procs q).call = .user
  awake : ∀ q chan, ¬ (s.procs q).SleepsOn chan
  readFd : ∀ q, (s.procs q).readFd = true ↔ q = creator
  writeFd : ∀ q, (s.procs q).writeFd = true ↔ q = creator
  freed : s.freed = false

end Operations

end Pipe

end OsLab
