import OsLab.Lib.Prog
import OsLab.Lib.Run
import OsLab.Log.Recovery

/-!
# The buffer cache under the log

The buffers of `bio.c`, the disk below them and the log above them, with any number of processes.  A
process is between two kernel calls or has a program left to run.  `bread` and `brelse` take several
steps, at the granularity of `bcache.lock` and of the sleep lock of a buffer.
-/

namespace OsLab

open Function

def nbuf : Nat := maxOpBlocks * 3

/-- `ROOTDEV`, the only disk. -/
def rootDev : Nat := 1

/-- `struct buf`; the sleep lock is its holder. -/
structure Buf (Pid : Type*) where
  valid : Bool
  dev : Nat
  blockno : Nat
  lock : Option Pid
  refcnt : BitVec 32
  data : Block

/-- `bcache`: the buffers and the list through them, the most recently used first. -/
structure Bcache (Pid : Type*) where
  buf : Fin nbuf → Buf Pid
  lru : List (Fin nbuf)

namespace Bcache

variable {Pid : Type*}

/-- `binit`: every buffer is put in front of the list in turn. -/
def binit : Bcache Pid where
  buf _ := ⟨false, 0, 0, none, 0, fun _ => 0⟩
  lru := (List.finRange nbuf).reverse

variable (cache : Bcache Pid) (i : Fin nbuf)

def modify (change : Buf Pid → Buf Pid) : Bcache Pid :=
  { cache with buf := update cache.buf i (change (cache.buf i)) }

/-- The search of `bget` for the block, from the most recently used buffer on. -/
def find (dev b : Nat) : Option (Fin nbuf) :=
  cache.lru.find? fun i => (cache.buf i).dev == dev && (cache.buf i).blockno == b

/-- The search of `bget` for an unused buffer, from the least recently used one on. -/
def unused : Option (Fin nbuf) :=
  cache.lru.reverse.find? fun i => (cache.buf i).refcnt == 0

/-- `b->refcnt++`. -/
def bpin : Bcache Pid :=
  cache.modify i fun b => { b with refcnt := b.refcnt + 1 }

def bunpin : Bcache Pid :=
  cache.modify i fun b => { b with refcnt := b.refcnt - 1 }

/-- Hand an unused buffer to another block. -/
def recycle (dev b : Nat) : Bcache Pid :=
  cache.modify i fun old => { old with dev := dev, blockno := b, valid := false, refcnt := 1 }

/-- `bget` up to the sleep lock; without an unused buffer it panics. -/
def bget (dev b : Nat) : Option (Fin nbuf × Bcache Pid) :=
  match cache.find dev b with
  | some i => some (i, cache.bpin i)
  | none => cache.unused.map fun i => (i, cache.recycle i dev b)

/-- `acquiresleep` of a free lock. -/
def acquiresleep (p : Pid) : Bcache Pid :=
  cache.modify i fun b => { b with lock := some p }

def releasesleep : Bcache Pid :=
  cache.modify i fun b => { b with lock := none }

/-- The end of `bread`: read the block if the buffer is not valid. -/
def fill (disk : Log.Disk) : Bcache Pid :=
  cache.modify i fun b =>
    if b.valid then b else { b with data := disk b.blockno, valid := true }

/-- Overwrite the contents of a buffer. -/
def write (data : Block) : Bcache Pid :=
  cache.modify i fun b => { b with data := data }

/-- `brelse` under `bcache.lock`. -/
def put : Bcache Pid :=
  if (cache.buf i).refcnt - 1 = 0 then
    { cache.bunpin i with lru := i :: cache.lru.erase i }
  else cache.bunpin i

end Bcache

namespace Bio

/-- What a kernel thread does, each up to its return. -/
inductive Op where
  | bread (b : Nat)
  | brelse (i : Fin nbuf)
  | bwrite (i : Fin nbuf)
  | bunpin (i : Fin nbuf)
  | memmove (dst src : Fin nbuf)
  | logWrite (i : Fin nbuf)
  | beginOp
  /-- `end_op` up to the call of `commit`. -/
  | endOp
  | getLog
  | readHeader (i : Fin nbuf)
  | writeHeader (i : Fin nbuf)
  /-- `log.lh.n = 0` in `recover_from_log`. -/
  | resetHeader
  /-- The return of `fsinit`: user processes start. -/
  | booted
  | commitStart
  | commitHead
  /-- `log.lh.n = 0` in `commit`. -/
  | commitClear
  /-- The end of `end_op` after `commit`. -/
  | commitDone

/-- `bread` returns a buffer and `end_op` says whether to commit. -/
abbrev Op.Res : Op → Type
  | .bread _ => Fin nbuf
  | .endOp => Bool
  | .getLog => Log
  | _ => Unit

/-- What a kernel thread has left to do. -/
abbrev Thread := Prog Op Op.Res

open Prog

section Threads

/-- Read `struct log`. -/
def getLog : Thread Log := .call .getLog .ret

/-- `bread` of a block of the log's device. -/
def bread (b : Nat) : Thread (Fin nbuf) := .call (.bread b) .ret

def brelse (i : Fin nbuf) : Thread Unit := .call (.brelse i) .ret

def bwrite (i : Fin nbuf) : Thread Unit := .call (.bwrite i) .ret

def bunpin (i : Fin nbuf) : Thread Unit := .call (.bunpin i) .ret

/-- `memmove` of the contents of one buffer to another. -/
def memmove (dst src : Fin nbuf) : Thread Unit := .call (.memmove dst src) .ret

def installTrans : Thread Unit := do
  let log ← getLog
  forRange log.lh.n fun tail => do
    let lbuf ← bread (log.start + tail + 1)
    let dbuf ← bread (log.lh.block tail)
    memmove dbuf lbuf
    bwrite dbuf
    bunpin dbuf
    brelse lbuf
    brelse dbuf

def readHead : Thread Unit := do
  let log ← getLog
  let buf ← bread log.start
  .call (.readHeader buf) .ret
  brelse buf

def writeHead : Thread Unit := do
  let log ← getLog
  let buf ← bread log.start
  .call (.writeHeader buf) .ret
  bwrite buf
  brelse buf

def recoverFromLog : Thread Unit := do
  readHead
  installTrans
  .call .resetHeader .ret
  writeHead

/-- `initlog` after its assignments, and the return to the first process. -/
def initlog : Thread Unit := do
  recoverFromLog
  .call .booted .ret

def writeLog : Thread Unit := do
  let log ← getLog
  forRange log.lh.n fun tail => do
    let dst ← bread (log.start + tail + 1)
    let src ← bread (log.lh.block tail)
    memmove dst src
    bwrite dst
    brelse src
    brelse dst

def commit : Thread Unit := do
  let log ← getLog
  .call .commitStart .ret
  if log.lh.n > 0 then do
    writeLog
    writeHead
    .call .commitHead .ret
    installTrans
    .call .commitClear .ret
    writeHead
  else pure ()

def endOp : Thread Unit := .call .endOp fun doCommit =>
  if doCommit then do
    commit
    .call .commitDone .ret
  else pure ()

end Threads

/-- The calls of the file system. -/
inductive Call where
  | bread (b : Nat)
  | brelse (i : Fin nbuf)
  | logWrite (i : Fin nbuf)
  | beginOp
  | endOp

def Call.thread : Call → Thread Unit
  | .bread b => do
    let _ ← Bio.bread b
    pure ()
  | .brelse i => Bio.brelse i
  | .logWrite i => .call (.logWrite i) .ret
  | .beginOp => .call .beginOp .ret
  | .endOp => Bio.endOp

/-- Where a process stands inside `bread` or `brelse`. -/
inductive Pc where
  | ready
  | locking (i : Fin nbuf)
  | filling (i : Fin nbuf)
  | dropping (i : Fin nbuf)
deriving DecidableEq

/-- The panics of `bio.c`. -/
inductive Panic where
  | noBuffers
  | bwrite
  | brelse
deriving DecidableEq

/-- Two fields only follow the run: how many entries the running commit has unpinned, and the
contents last logged for every block. -/
structure State (Pid : Type*) where
  log : Log.State Pid
  cache : Bcache Pid
  disk : Log.Disk
  pc : Pid → Pc
  todo : Pid → Thread Unit
  booted : Bool
  panic : Option Panic
  unpinned : Nat
  latest : Log.Disk

/-- A call, a change of the contents of a buffer, or the next step of a thread. -/
inductive Action (Pid : Type*) where
  | call (p : Pid) (request : Call)
  | modify (p : Pid) (i : Fin nbuf) (data : Block)
  | step (p : Pid)

section Steps

variable {Pid : Type*} [DecidableEq Pid]

variable (s : State Pid)

namespace State

/-- Put a process at another place. -/
def goto (p : Pid) (pc : Pc) : State Pid :=
  { s with pc := update s.pc p pc }

/-- Give a process another thread to run. -/
def setThread (p : Pid) (thread : Thread Unit) : State Pid :=
  { s with todo := update s.todo p thread }

/-- A buffer. -/
abbrev buf (i : Fin nbuf) : Buf Pid := s.cache.buf i

end State

def stepBread (p : Pid) (b : Nat) : State Pid × Option (Fin nbuf) :=
  match s.pc p with
  | .locking i => ({ s with cache := s.cache.acquiresleep i p }.goto p (.filling i), none)
  | .filling i => ({ s with cache := s.cache.fill i s.disk }.goto p .ready, some i)
  | _ =>
    match s.cache.bget s.log.log.dev b with
    | some (i, cache) => ({ s with cache := cache }.goto p (.locking i), none)
    | none => ({ s with panic := some .noBuffers }, none)

def stepBrelse (p : Pid) (i : Fin nbuf) : State Pid × Option Unit :=
  match s.pc p with
  | .dropping _ => ({ s with cache := s.cache.put i }.goto p .ready, some ())
  | _ =>
    if (s.buf i).lock = some p then
      ({ s with cache := s.cache.releasesleep i }.goto p (.dropping i), none)
    else ({ s with panic := some .brelse }, none)

def stepBwrite (p : Pid) (i : Fin nbuf) : State Pid × Option Unit :=
  if (s.buf i).lock = some p then
    ({ s with disk := update s.disk (s.buf i).blockno (s.buf i).data }, some ())
  else ({ s with panic := some .bwrite }, none)

/-- The checks of `log_write`, or its locked part with the `bpin` of a new block. -/
def stepLogWrite (p : Pid) (i : Fin nbuf) : State Pid × Option Unit :=
  match s.log.phase p with
  | .logging b _ =>
    let log := Log.next s.log (.logLocked p)
    if log.fault = none then
      ({ s with
          log := log
          cache := if s.log.log.lh.find b = s.log.log.lh.n then s.cache.bpin i else s.cache
          latest := update s.latest b (s.buf i).data }, some ())
    else ({ s with log := log }, none)
  | _ => ({ s with log := Log.next s.log (.logCall p (s.buf i).blockno) }, none)

/-- A step that only concerns the log. -/
def stepLog (action : Log.Action Pid) : State Pid :=
  { s with log := Log.next s.log action }

/-- Replace the header in memory. -/
def setHeader (lh : LogHeader) : State Pid :=
  { s with log := { s.log with log := { s.log.log with lh := lh } } }

/-- The next step of an operation, and its result once it returns. -/
def advance (p : Pid) : (op : Op) → State Pid × Option op.Res
  | .bread b => stepBread s p b
  | .brelse i => stepBrelse s p i
  | .bwrite i => stepBwrite s p i
  | .bunpin i =>
    ({ s with cache := s.cache.bunpin i, unpinned := s.unpinned + 1 }, some ())
  | .memmove dst src => ({ s with cache := s.cache.write dst (s.buf src).data }, some ())
  | .logWrite i => stepLogWrite s p i
  -- the loop of `begin_op` sleeps until the log has room
  | .beginOp => (stepLog (stepLog s (.beginCall p)) (.beginTry p), some ())
  | .endOp =>
    let t := stepLog s (.endOp p)
    (t, some (decide (t.log.phase p = .committing)))
  | .getLog => (s, some s.log.log)
  | .readHeader i => (setHeader s (s.log.log.lh.load (s.buf i).data), some ())
  | .writeHeader i =>
    ({ s with cache := s.cache.write i (s.log.log.lh.store (s.buf i).data) }, some ())
  | .resetHeader => ({ setHeader s { s.log.log.lh with n := 0 } with unpinned := 0 }, some ())
  | .booted => ({ s with booted := true }, some ())
  | .commitStart => (stepLog s (.commitStart p), some ())
  | .commitHead => (stepLog s (.commitHead p), some ())
  | .commitClear => ({ stepLog s (.commitClear p) with unpinned := 0 }, some ())
  | .commitDone => (stepLog s (.commitDone p), some ())

/-- The operation has to wait. -/
def Blocked (p : Pid) : Op → Prop
  | .bread _ => ∃ i, s.pc p = .locking i ∧ (s.buf i).lock ≠ none
  | .beginOp => s.log.log.committing = true ∨ s.log.log.Crowded
  | _ => False

/-- When a process may make a call: `log_write` is called inside an operation, with a buffer that
`bread` has returned. -/
def Call.Allowed (p : Pid) : Call → Prop
  | .bread _ => True
  | .brelse _ => True
  | .logWrite i => (s.buf i).lock = some p ∧ ∃ logged, s.log.phase p = .inside logged
  | .beginOp => s.log.phase p = .outside
  | .endOp => ∃ logged, s.log.phase p = .inside logged

/-- When an action may be taken. -/
def Enabled (action : Action Pid) : Prop :=
  s.panic = none ∧ s.log.fault = none ∧
    match action with
    | .call p request => s.booted = true ∧ (s.todo p).Done ∧ request.Allowed s p
    | .modify p i _ => s.booted = true ∧ (s.todo p).Done ∧ (s.buf i).lock = some p
    | .step p => ∃ op rest, s.todo p = .call op rest ∧ ¬ Blocked s p op

instance decidableBlocked (s : State Pid) (p : Pid) : (op : Op) → Decidable (Blocked s p op)
  | .bread _ =>
    match pc : s.pc p with
    | .locking i => decidable_of_iff ((s.buf i).lock ≠ none) (by simp [Blocked, pc])
    | .ready | .filling _ | .dropping _ => .isFalse (by simp [Blocked, pc])
  | .beginOp => inferInstanceAs (Decidable (_ ∨ _))
  | .brelse _ | .bwrite _ | .bunpin _ | .memmove _ _ | .logWrite _ | .endOp | .getLog
  | .readHeader _ | .writeHeader _ | .resetHeader | .booted | .commitStart | .commitHead
  | .commitClear | .commitDone => .isFalse id

instance decidableAllowed (s : State Pid) (p : Pid) :
    (request : Call) → Decidable (request.Allowed s p)
  | .bread _ | .brelse _ => .isTrue trivial
  | .logWrite _ => inferInstanceAs (Decidable (_ ∧ ∃ logged, _ = Log.Phase.inside logged))
  | .beginOp => inferInstanceAs (Decidable (_ = Log.Phase.outside))
  | .endOp => inferInstanceAs (Decidable (∃ logged, _ = Log.Phase.inside logged))

instance decidableEnabled (s : State Pid) : (action : Action Pid) → Decidable (Enabled s action)
  | .call p request => inferInstanceAs (Decidable (_ ∧ _ ∧ _ ∧ _ ∧ request.Allowed s p))
  | .modify _ _ _ => inferInstanceAs (Decidable (_ ∧ _ ∧ _ ∧ _ ∧ _ = _))
  | .step p =>
    match todo : s.todo p with
    | .ret _ => .isFalse (by simp [Enabled, todo])
    | .call op rest =>
      decidable_of_iff (s.panic = none ∧ s.log.fault = none ∧ ¬ Blocked s p op)
        (by simp [Enabled, todo])

/-- Go on with the rest of the thread once the operation has returned. -/
def resume {op : Op} (p : Pid) (rest : op.Res → Thread Unit) :
    State Pid × Option op.Res → State Pid
  | (s, none) => s
  | (s, some result) => s.setThread p (rest result)

def next : Action Pid → State Pid
  | .call p request => s.setThread p request.thread
  | .modify _ i data => { s with cache := s.cache.write i data }
  | .step p =>
    match s.todo p with
    | .ret _ => s
    | .call op rest => resume p rest (advance s p op)

variable (Pid) in
/-- Every interleaving of the calls. -/
def bioSystem : System (State Pid) (Action Pid) where
  Enabled := Enabled
  next := next

instance (s : State Pid) (action : Action Pid) : Decidable ((bioSystem Pid).Enabled s action) :=
  inferInstanceAs (Decidable (Enabled s action))

/-- The first process is about to run `initlog`; the cache holds at most clean copies. -/
structure Boot (p : Pid) (s : State Pid) : Prop where
  outstanding : s.log.log.outstanding = 0
  committing : s.log.log.committing = false
  header : s.log.log.lh = Log.bootHeader
  dev : s.log.log.dev = rootDev
  outside : ∀ q, s.log.phase q = .outside
  history : s.log.history = []
  fault : s.log.fault = none
  unused : ∀ i, (s.buf i).refcnt = 0
  unlocked : ∀ i, (s.buf i).lock = none
  clean : ∀ i, (s.buf i).dev = rootDev → (s.buf i).valid = true →
    (s.buf i).data = s.disk (s.buf i).blockno
  unique : ∀ i j, (s.buf i).dev = rootDev → (s.buf j).dev = rootDev →
    (s.buf i).blockno = (s.buf j).blockno → i = j
  listed : ∀ i, i ∈ s.cache.lru
  pc : ∀ q, s.pc q = .ready
  todo : s.todo = update (fun _ => .ret ()) p initlog
  booted : s.booted = false
  panic : s.panic = none
  unpinned : s.unpinned = 0
  latest : s.latest = s.disk

/-- The state at the call of `initlog` right after `binit`. -/
def bootState (p : Pid) (start size : Nat) (disk : Log.Disk) : State Pid where
  log := ⟨⟨start, size, 0, false, rootDev, Log.bootHeader⟩, fun _ => .outside, [], none⟩
  cache := .binit
  disk := disk
  pc _ := .ready
  todo := update (fun _ => .ret ()) p initlog
  booted := false
  panic := none
  unpinned := 0
  latest := disk

theorem bootState_boot (p : Pid) (start size : Nat) (disk : Log.Disk) :
    Boot p (bootState p start size disk) := by
  constructor <;> simp [bootState, Bcache.binit, rootDev]

end Steps

end Bio

end OsLab
