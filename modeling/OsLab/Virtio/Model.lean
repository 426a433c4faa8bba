import OsLab.Lib.Run
import OsLab.Lib.Ring

/-!
# The virtio disk driver

`virtio_disk_rw` and `virtio_disk_intr` with the device on the other side of the queue.  The device
runs also while `vdisk_lock` is held, so each statement that it can see is a step of its own: the
entry in the ring of `avail`, the increment of its index, and each pass through the loop of the
interrupt handler.  A caller holds the sleep lock of its buffer.  `sleep` and `wakeup` act
atomically on the processes.

Beside the state stand the heads of chains on their way (`posted` in `avail` and not yet taken,
`inflight` in the device, `pending` in `used` and not yet consumed), a number for each request, and
how often each request was completed and cleared.
-/

namespace OsLab.Virtio

open Function

def num : Nat := 8

instance : NeZero num := ⟨by decide⟩

/-- An index into the descriptor table. -/
abbrev Index := Fin num

def descNext : BitVec 16 := 1

def descWrite : BitVec 16 := 2

/-- What a descriptor points to. -/
inductive Address (Pid Buf : Type*) where
  | null
  /-- `buf0` on the kernel stack of a process: the type and sector of the request. -/
  | header (p : Pid) (write : Bool) (b : Buf)
  | data (b : Buf)
  /-- `&disk.info[i].status`. -/
  | status (i : Index)
deriving DecidableEq

/-- `struct VRingDesc`. -/
structure Desc (Pid Buf : Type*) where
  addr : Address Pid Buf
  len : Nat
  flags : BitVec 16
  next : BitVec 16

/-- An entry of `disk.info`. -/
structure Info (Buf : Type*) where
  b : Option Buf
  status : BitVec 8

/-- `idx`: the three descriptors of a request. -/
structure Chain where
  head : Index
  data : Index
  status : Index
deriving DecidableEq

def Chain.indices (chain : Chain) : List Index := [chain.head, chain.data, chain.status]

/-- What a process is about to do in `virtio_disk_rw` for buffer `b`. -/
inductive Pc (Buf : Type*) where
  | idle
  /-- Holds the sleep lock of `b`, outside `virtio_disk_rw`. -/
  | holding (b : Buf)
  | acquire (b : Buf) (write : Bool)
  /-- At the head of the loop around `alloc3_desc`. -/
  | alloc (b : Buf) (write : Bool)
  /-- In `sleep(&disk.free[0], ..)`. -/
  | waitFree (b : Buf) (write asleep : Bool)
  | format (b : Buf) (write : Bool) (chain : Chain) (r : Nat)
  /-- `disk.avail[2 + (disk.avail[1] % NUM)] = idx[0]`. -/
  | ring (b : Buf) (chain : Chain) (r : Nat)
  /-- `disk.avail[1] = disk.avail[1] + 1`. -/
  | publish (b : Buf) (chain : Chain) (r : Nat)
  /-- At the head of the loop on `b->disk`. -/
  | test (b : Buf) (chain : Chain) (r : Nat)
  /-- In `sleep(b, ..)`. -/
  | waitDisk (b : Buf) (chain : Chain) (r : Nat) (asleep : Bool)
  | finish (b : Buf) (chain : Chain) (r : Nat)
deriving DecidableEq

/-- What a CPU does in `virtio_disk_intr`. -/
inductive Handler where
  | idle
  | acquire
  | loop
deriving DecidableEq

/-- Who may hold `vdisk_lock`. -/
inductive Thread (Pid Cpu : Type*) where
  | proc (p : Pid)
  | cpu (c : Cpu)
deriving DecidableEq

/-- The panics of the driver and accesses through a bad index or pointer. -/
inductive Fault where
  | freeDesc1
  | freeDesc2
  | intrStatus
  | badId
  | nullBuf
deriving DecidableEq, Repr

/-- `struct disk`, the device, the buffers and every process and CPU. -/
structure State (Pid Cpu Buf : Type*) where
  desc : Index → Desc Pid Buf
  /-- `avail[2 ..]`. -/
  ring : Index → BitVec 16
  /-- `avail[1]`. -/
  availIdx : BitVec 16
  /-- `used->elems[i].id`. -/
  elems : Index → BitVec 32
  /-- `used->id`. -/
  usedId : BitVec 16
  free : Index → Bool
  usedIdx : BitVec 16
  info : Index → Info Buf
  vdiskLock : Option (Thread Pid Cpu)
  disk : Buf → Bool
  bufLock : Buf → Option Pid
  pc : Pid → Pc Buf
  handler : Cpu → Handler
  /-- How far the device has looked in `avail`. -/
  seen : BitVec 16
  /-- The chains that the device has taken and not completed. -/
  inflight : List Index
  fault : Option Fault
  posted : List Index
  pending : List Index
  serial : Nat
  /-- The last request with the given head. -/
  request : Index → Nat
  completions : Nat → Nat
  clears : Nat → Nat
  returned : Nat → Bool

section Functions

variable {Pid Cpu Buf : Type*} [DecidableEq Pid] [DecidableEq Buf]

variable (s : State Pid Cpu Buf)

namespace State

/-- A descriptor, also for an index out of range. -/
def descAt (i : Nat) : Desc Pid Buf :=
  if inside : i < num then s.desc ⟨i, inside⟩ else ⟨.null, 0, 0, 0⟩

/-- Move a process. -/
def goto (p : Pid) (pc : Pc Buf) : State Pid Cpu Buf :=
  { s with pc := update s.pc p pc }

/-- `panic`. -/
def fail (fault : Fault) : State Pid Cpu Buf :=
  { s with fault := some fault }

end State

/-- What `wakeup(&disk.free[0])` does to one process. -/
def Pc.wakeFree : Pc Buf → Pc Buf
  | .waitFree b write _ => .waitFree b write false
  | pc => pc

/-- What `wakeup(b)` does to one process. -/
def Pc.wakeDisk (b : Buf) : Pc Buf → Pc Buf
  | .waitDisk b' chain r asleep => .waitDisk b' chain r (if b' = b then false else asleep)
  | pc => pc

/-- What `kill` does to a sleeping process. -/
def Pc.wake : Pc Buf → Pc Buf
  | .waitFree b write _ => .waitFree b write false
  | .waitDisk b chain r _ => .waitDisk b chain r false
  | pc => pc

/-- `wakeup(&disk.free[0])`. -/
def wakeupFree : State Pid Cpu Buf :=
  { s with pc := fun p => (s.pc p).wakeFree }

/-- `wakeup(b)`. -/
def wakeupDisk (b : Buf) (s : State Pid Cpu Buf) : State Pid Cpu Buf :=
  { s with pc := fun p => (s.pc p).wakeDisk b }

/-- `alloc_desc`: the first free descriptor. -/
def allocDesc (free : Index → Bool) : Option Index := (List.finRange num).find? free

def freeDesc (i : Nat) (s : State Pid Cpu Buf) : State Pid Cpu Buf :=
  if inside : i < num then
    if s.free ⟨i, inside⟩ then s.fail .freeDesc2
    else
      wakeupFree { s with
          desc := update s.desc ⟨i, inside⟩ { s.desc ⟨i, inside⟩ with addr := .null }
          free := update s.free ⟨i, inside⟩ true }
  else s.fail .freeDesc1

/-- `free_chain`; a chain of more than `NUM` descriptors would free one of them twice. -/
def freeChain : (fuel i : Nat) → State Pid Cpu Buf → State Pid Cpu Buf
  | 0, _, s => s
  | fuel + 1, i, s =>
    let s := freeDesc i s
    if s.fault = none then
      if (s.descAt i).flags &&& descNext = 0 then s
      else freeChain fuel (s.descAt i).next.toNat s
    else s

/-- The loop of `alloc3_desc`; on failure the descriptors in `got` are freed again. -/
def alloc3From : (remaining : Nat) → (got : List Index) → State Pid Cpu Buf →
    Option (List Index) × State Pid Cpu Buf
  | 0, got, s => (some got, s)
  | remaining + 1, got, s =>
    match allocDesc s.free with
    | some i =>
      alloc3From remaining (got ++ [i]) { s with free := update s.free i false }
    | none => (none, got.foldl (fun s i => freeDesc i s) s)

def alloc3Desc : Option Chain × State Pid Cpu Buf :=
  match alloc3From 3 [] s with
  | (some [head, data, status], s) => (some ⟨head, data, status⟩, s)
  | (_, s) => (none, s)

/-- The pass of `virtio_disk_rw` through its allocation loop. -/
def rwAlloc (p : Pid) (b : Buf) (write : Bool) : State Pid Cpu Buf :=
  match alloc3Desc s with
  | (some chain, s) => { s with serial := s.serial + 1 }.goto p (.format b write chain s.serial)
  | (none, s) => { s with vdiskLock := none }.goto p (.waitFree b write true)

/-- The descriptors of a request and its entry in `info`. -/
def rwFormat (p : Pid) (b : Buf) (write : Bool) (chain : Chain) (r : Nat) : State Pid Cpu Buf :=
  let desc := update s.desc chain.head ⟨.header p write b, 16, descNext, .ofNat 16 chain.data⟩
  let desc := update desc chain.data
    ⟨.data b, 1024, (if write then 0 else descWrite) ||| descNext, .ofNat 16 chain.status⟩
  let desc := update desc chain.status ⟨.status chain.head, 1, descWrite, 0⟩
  { s with
    desc := desc
    info := update s.info chain.head ⟨some b, 0⟩
    disk := update s.disk b true
    request := update s.request chain.head r }.goto p (.ring b chain r)

/-- The entry in the ring of `avail`. -/
def rwRing (p : Pid) (b : Buf) (chain : Chain) (r : Nat) :
    State Pid Cpu Buf :=
  { s with
    ring := update s.ring (ringCell num s.availIdx.toNat) (.ofNat 16 chain.head)
  }.goto p (.publish b chain r)

/-- The increment of the index of `avail`, which the device looks at. -/
def rwPublish (p : Pid) (b : Buf) (chain : Chain) (r : Nat) :
    State Pid Cpu Buf :=
  { s with
    availIdx := s.availIdx + 1
    posted := s.posted ++ [chain.head] }.goto p (.test b chain r)

/-- The pass of `virtio_disk_rw` through its loop on `b->disk`. -/
def rwTest (p : Pid) (b : Buf) (chain : Chain) (r : Nat) :
    State Pid Cpu Buf :=
  if s.disk b then { s with vdiskLock := none }.goto p (.waitDisk b chain r true)
  else s.goto p (.finish b chain r)

/-- The end of `virtio_disk_rw`. -/
def rwFinish (p : Pid) (b : Buf) (chain : Chain) (r : Nat) :
    State Pid Cpu Buf :=
  let s : State Pid Cpu Buf :=
    { s with info := update s.info chain.head { s.info chain.head with b := none } }
  let s := freeChain (num + 1) chain.head s
  if s.fault = none then
    { s with
      vdiskLock := none
      returned := update s.returned r true }.goto p (.holding b)
  else s

/-- The statement of a process in `virtio_disk_rw`. -/
def rwStep (p : Pid) : State Pid Cpu Buf :=
  match s.pc p with
  | .idle | .holding _ => s
  | .acquire b write | .waitFree b write _ =>
    { s with vdiskLock := some (.proc p) }.goto p (.alloc b write)
  | .alloc b write => rwAlloc s p b write
  | .format b write chain r => rwFormat s p b write chain r
  | .ring b chain r => rwRing s p b chain r
  | .publish b chain r => rwPublish s p b chain r
  | .test b chain r => rwTest s p b chain r
  | .waitDisk b chain r _ => { s with vdiskLock := some (.proc p) }.goto p (.test b chain r)
  | .finish b chain r => rwFinish s p b chain r

/-- `used->elems[i].id`, also for an index out of range. -/
def State.elemAt (i : Nat) : Nat :=
  if inside : i < num then (s.elems ⟨i, inside⟩).toNat else 0

/-- The body of the loop of `virtio_disk_intr` for the completed chain `id`. -/
def intrBody (id : Nat) : State Pid Cpu Buf :=
  if inside : id < num then
    if (s.info ⟨id, inside⟩).status ≠ 0 then s.fail .intrStatus
    else
      match (s.info ⟨id, inside⟩).b with
      | none => s.fail .nullBuf
      | some b =>
        let s : State Pid Cpu Buf := { s with disk := update s.disk b false }
        let s := wakeupDisk b s
        { s with
          usedIdx := (s.usedIdx + 1) % .ofNat 16 num
          pending := s.pending.tail
          clears := update s.clears (s.request ⟨id, inside⟩)
            (s.clears (s.request ⟨id, inside⟩) + 1) }
  else s.fail .badId

variable [DecidableEq Cpu]

/-- The statement of a CPU in `virtio_disk_intr`. -/
def intrStep (s : State Pid Cpu Buf) (c : Cpu) : State Pid Cpu Buf :=
  match s.handler c with
  | .idle => s
  | .acquire =>
    { s with
      vdiskLock := some (.cpu c)
      handler := update s.handler c .loop }
  | .loop =>
    if s.usedIdx % .ofNat 16 num ≠ s.usedId % .ofNat 16 num then
      intrBody s (s.elemAt s.usedIdx.toNat)
    else
      { s with
        vdiskLock := none
        handler := update s.handler c .idle }

/-- The device takes the next chain that `avail` offers. -/
def deviceTake (s : State Pid Cpu Buf) : State Pid Cpu Buf :=
  let head := s.ring (ringCell num s.seen.toNat)
  if inside : head.toNat < num then
    { s with
      seen := s.seen + 1
      inflight := ⟨head.toNat, inside⟩ :: s.inflight
      posted := s.posted.tail }
  else s

/-- The status byte of the chain with this head, as the device finds it. -/
def State.statusOf (s : State Pid Cpu Buf) (head : Index) : Address Pid Buf :=
  (s.descAt (s.descAt (s.desc head).next.toNat).next.toNat).addr

/-- The device completes a chain: status 0, an entry in `used`, and its index. -/
def deviceComplete (s : State Pid Cpu Buf) (head : Index) : State Pid Cpu Buf :=
  { s with
    info :=
      match s.statusOf head with
      | .status i => update s.info i { s.info i with status := 0 }
      | _ => s.info
    elems := update s.elems (ringCell num s.usedId.toNat) (.ofNat 32 head)
    usedId := s.usedId + 1
    inflight := s.inflight.erase head
    pending := s.pending ++ [head]
    completions := update s.completions (s.request head) (s.completions (s.request head) + 1) }

/-- What can happen. -/
inductive Action (Pid Cpu Buf : Type*) where
  /-- `acquiresleep(&b->lock)` by a caller. -/
  | lock (p : Pid) (b : Buf)
  /-- `releasesleep(&b->lock)` by a caller. -/
  | unlock (p : Pid)
  | call (p : Pid) (write : Bool)
  | rw (p : Pid)
  | kill (p : Pid)
  /-- An interrupt arrives at a CPU. -/
  | interrupt (c : Cpu)
  | intr (c : Cpu)
  | take
  | complete (head : Index)

/-- The statement of a process can be executed. -/
def CanStep (s : State Pid Cpu Buf) : Pc Buf → Prop
  | .idle | .holding _ => False
  | .acquire _ _ => s.vdiskLock = none
  | .waitFree _ _ asleep | .waitDisk _ _ _ asleep => asleep = false ∧ s.vdiskLock = none
  | .alloc _ _ | .format _ _ _ _ | .ring _ _ _ | .publish _ _ _ | .test _ _ _ | .finish _ _ _ =>
    True

/-- When an action may be taken: no panic has stopped the machine. -/
def Enabled (s : State Pid Cpu Buf) (action : Action Pid Cpu Buf) : Prop :=
  s.fault = none ∧
    match action with
    | .lock p b => s.pc p = .idle ∧ s.bufLock b = none
    | .unlock p => ∃ b, s.pc p = .holding b
    | .call p _ => ∃ b, s.pc p = .holding b
    | .rw p => CanStep s (s.pc p)
    | .kill _ => True
    | .interrupt c => s.handler c = .idle
    | .intr c => s.handler c = .acquire ∧ s.vdiskLock = none ∨ s.handler c = .loop
    | .take => s.seen ≠ s.availIdx
    | .complete head => head ∈ s.inflight

def next (s : State Pid Cpu Buf) : Action Pid Cpu Buf → State Pid Cpu Buf
  | .lock p b => { s with bufLock := update s.bufLock b (some p) }.goto p (.holding b)
  | .unlock p =>
    match s.pc p with
    | .holding b => { s with bufLock := update s.bufLock b none }.goto p .idle
    | _ => s
  | .call p write =>
    match s.pc p with
    | .holding b => s.goto p (.acquire b write)
    | _ => s
  | .rw p => rwStep s p
  | .kill p => s.goto p (s.pc p).wake
  | .interrupt c => { s with handler := update s.handler c .acquire }
  | .intr c => intrStep s c
  | .take => deviceTake s
  | .complete head => deviceComplete s head

variable (Pid Cpu Buf) in
/-- Every interleaving of `virtio_disk_rw`, `virtio_disk_intr` and the device. -/
def virtioSystem : System (State Pid Cpu Buf) (Action Pid Cpu Buf) where
  Enabled := Enabled
  next := next

omit [DecidableEq Pid] [DecidableEq Cpu] [DecidableEq Buf] in
/-- The state after `virtio_disk_init`, before any request. -/
structure Initial (s : State Pid Cpu Buf) : Prop where
  availIdx : s.availIdx = 0
  usedId : s.usedId = 0
  free : ∀ i, s.free i = true
  usedIdx : s.usedIdx = 0
  vdiskLock : s.vdiskLock = none
  bufLock : ∀ b, s.bufLock b = none
  pc : ∀ p, s.pc p = .idle
  handler : ∀ c, s.handler c = .idle
  seen : s.seen = 0
  inflight : s.inflight = []
  fault : s.fault = none
  posted : s.posted = []
  pending : s.pending = []
  serial : s.serial = 0
  completions : ∀ r, s.completions r = 0
  clears : ∀ r, s.clears r = 0
  returned : ∀ r, s.returned r = false

end Functions

end OsLab.Virtio
