import OsLab.Lib.Ring
import OsLab.Pipe.Model

/-!
# Pipes are queues

The pipe again, one byte at a time: each pass through a loop of `pipewrite` or `piperead` is a step.
Beside the pipe stand all bytes ever stored and all bytes ever removed.  Whole tenures of the lock
are runs of this finer system.
-/

namespace OsLab.Pipe

open List

instance : NeZero pipeSize := ⟨by decide⟩

/-- The bytes between the counters, oldest first. -/
def buffered (pi : Pipe) : List Byte :=
  (List.range (pi.nwrite - pi.nread).toNat).map fun k =>
    pi.data (slot (pi.nread + .ofNat 32 k))

/-- Where the holder of `pi->lock` stands. -/
inductive Place where
  /-- At the head of the loop of `pipewrite` with index `i`. -/
  | write (i : Nat) (n : Int)
  /-- At the head of the waiting loop of `piperead`. -/
  | wait (n : Int)
  /-- At the head of the copying loop of `piperead` with index `i`. -/
  | read (i : Nat) (n : Int)
deriving DecidableEq, Repr

/-- The pipe, the holder of its lock, and the bytes stored and removed since its creation. -/
structure Traced (Pid : Type*) where
  state : State Pid
  holder : Option (Pid × Place)
  stored : List Byte
  removed : List Byte

section Steps

variable {Pid : Type*} [DecidableEq Pid]

variable (t : Traced Pid)

namespace Traced

/-- Give the lock up in the given state. -/
def release (state : State Pid) : Traced Pid :=
  { t with state := state, holder := none }

/-- `pi->data[pi->nwrite++ % PIPESIZE] = ch`. -/
def put (ch : Byte) : Traced Pid :=
  { t with
    state := { t.state with pipe := t.state.pipe.put ch }
    stored := t.stored ++ [ch] }

/-- `ch = pi->data[pi->nread++ % PIPESIZE]`. -/
def take : Traced Pid :=
  { t with
    state := { t.state with pipe := t.state.pipe.take.2 }
    removed := t.removed ++ [t.state.pipe.take.1] }

/-- The end of `pipewrite` after its loop. -/
def endWrite (p : Pid) : Traced Pid :=
  t.release ((t.state.wakeup .nread).modify p Proc.leave)

/-- The end of `piperead` after its loops. -/
def endRead (p : Pid) : Traced Pid :=
  t.release ((t.state.wakeup .nwrite).modify p Proc.leave)

/-- One pass through the loop of `pipewrite`; `byte` is what `copyin` gives. -/
def writeStep (p : Pid) (i : Nat) (n : Int) (byte : Option Byte) :
    Traced Pid :=
  if (i : Int) < n then
    if t.state.pipe.Full then
      if t.state.pipe.readopen = false ∨ (t.state.procs p).killed then
        t.release (t.state.modify p Proc.leave)
      else
        t.release ((t.state.wakeup .nread).modify p (·.sleep .nwrite (.pipewrite i n)))
    else
      match byte with
      | none => t.endWrite p
      | some ch => { t.put ch with holder := some (p, .write (i + 1) n) }
  else t.endWrite p

/-- One pass through the waiting loop of `piperead`. -/
def waitStep (p : Pid) (n : Int) : Traced Pid :=
  if t.state.pipe.Empty ∧ t.state.pipe.writeopen then
    if (t.state.procs p).killed then t.release (t.state.modify p Proc.leave)
    else t.release (t.state.modify p (·.sleep .nread (.piperead n)))
  else { t with holder := some (p, .read 0 n) }

/-- One pass through the copying loop of `piperead`; `copied` is whether `copyout` succeeds. -/
def readStep (p : Pid) (i : Nat) (n : Int) (copied : Bool) : Traced Pid :=
  if (i : Int) < n then
    if t.state.pipe.Empty then t.endRead p
    else if copied then { t.take with holder := some (p, .read (i + 1) n) }
    else t.take.endRead p
  else t.endRead p

end Traced

/-- One step of one process. -/
inductive ByteAction (Pid : Type*) where
  /-- `acquire(&pi->lock)`, at the entry of a call or on the return from `sleep`. -/
  | acquire (p : Pid)
  | write (byte : Option Byte)
  | wait
  | read (copied : Bool)
  /-- Anything outside `pipewrite` and `piperead`. -/
  | other (action : Action Pid)

/-- The place at which a call takes the lock. -/
def Call.place : Call → Option Place
  | .user => none
  | .pipewrite i n => some (.write i n)
  | .piperead n => some (.wait n)

/-- Actions outside `pipewrite` and `piperead`; `pipeclose` needs the lock to be free. -/
def Apart (holder : Option (Pid × Place)) : Action Pid → Prop
  | .runWrite _ _ | .runRead _ _ => False
  | .close _ _ last => last = true → holder = none
  | .enterWrite _ _ | .enterRead _ _ | .fork _ _ | .kill _ => True

/-- When a step may be taken. -/
def ByteEnabled : ByteAction Pid → Prop
  | .acquire p =>
    t.holder = none ∧ (t.state.procs p).call ≠ .user ∧ (t.state.procs p).state ≠ .sleeping
  | .write _ => ∃ p i n, t.holder = some (p, .write i n)
  | .wait => ∃ p n, t.holder = some (p, .wait n)
  | .read _ => ∃ p i n, t.holder = some (p, .read i n)
  | .other action => Apart t.holder action ∧ Enabled t.state action

/-- The state a step leads to. -/
def byteNext : ByteAction Pid → Traced Pid
  | .acquire p =>
    { t with
      state := t.state.modify p Proc.resume
      holder := (t.state.procs p).call.place.map (Prod.mk p) }
  | .write byte =>
    match t.holder with
    | some (p, .write i n) => t.writeStep p i n byte
    | _ => t
  | .wait =>
    match t.holder with
    | some (p, .wait n) => t.waitStep p n
    | _ => t
  | .read copied =>
    match t.holder with
    | some (p, .read i n) => t.readStep p i n copied
    | _ => t
  | .other action => { t with state := next t.state action }

variable (Pid) in
/-- Every interleaving of passes through the loops, and of `pipeclose`, `fork` and `kill`. -/
def byteSystem : System (Traced Pid) (ByteAction Pid) where
  Enabled := ByteEnabled
  next := byteNext

/-- A pipe that nobody has used yet. -/
def fresh (s : State Pid) : Traced Pid := ⟨s, none, [], []⟩

end Steps

/-- The pipe holds what was stored and not removed, and the counters count the two sequences. -/
structure Queued (pi : Pipe) (stored removed : List Byte) (items : List Byte) :
    Prop where
  history : stored = removed ++ items
  nread : pi.nread = .ofNat 32 removed.length
  nwrite : pi.nwrite = .ofNat 32 stored.length
  ring : RingHolds pi.data removed.length items

theorem slot_ofNat (count : Nat) : slot (.ofNat 32 count) = ringCell pipeSize count := by
  have multiple : pipeSize ∣ 2 ^ 32 := by decide
  rw [← ringCell_mod_of_dvd multiple]
  simp [slot, ringCell]

namespace Queued

variable {pi : Pipe} {stored removed items : List Byte}

section

variable (queued : Queued pi stored removed items)
include queued

theorem length_lt : items.length < 2 ^ 32 :=
  queued.ring.fits.trans_lt (by decide)

theorem length_stored : stored.length = removed.length + items.length := by
  rw [queued.history, length_append]

/-- The distance of the counters, however often they have wrapped. -/
theorem toNat_sub : (pi.nwrite - pi.nread).toNat = items.length := by
  have bound := queued.length_lt
  rw [queued.nwrite, queued.nread, queued.length_stored, BitVec.toNat_sub, BitVec.toNat_ofNat,
    BitVec.toNat_ofNat]
  omega

theorem empty_iff : pi.Empty ↔ items = [] := by
  have distance := queued.toNat_sub
  unfold Empty
  rw [← length_eq_zero_iff, ← distance]
  constructor
  · intro same
    simp [same]
  · intro zero
    bv_omega

theorem length_lt_of_not_full (room : ¬ pi.Full) : items.length < pipeSize := by
  rcases queued.ring.fits.lt_or_eq with short | full
  · exact short
  · refine absurd ?_ room
    unfold Full
    rw [queued.nwrite, queued.nread, queued.length_stored, full, BitVec.ofNat_add]

theorem put (room : ¬ pi.Full) (ch : Byte) :
    Queued (pi.put ch) (stored ++ [ch]) removed (items ++ [ch]) where
  history := by rw [queued.history, append_assoc]
  nread := queued.nread
  nwrite := by
    rw [length_append, length_singleton, BitVec.ofNat_add, ← queued.nwrite]
    rfl
  ring := by
    have pushed := queued.ring.push (queued.length_lt_of_not_full room) ch
    rw [← queued.length_stored, ← slot_ofNat, ← queued.nwrite] at pushed
    exact pushed

end

theorem take {ch : Byte} (queued : Queued pi stored removed (ch :: items)) :
    pi.take.1 = ch ∧ Queued pi.take.2 stored (removed ++ [ch]) items := by
  obtain ⟨first, rest⟩ := queued.ring.pop
  refine ⟨?_, ?_, ?_, queued.nwrite, ?_⟩
  · rw [← first, ← slot_ofNat, ← queued.nread]
    rfl
  · rw [queued.history, append_assoc, singleton_append]
  · rw [length_append, length_singleton, BitVec.ofNat_add, ← queued.nread]
    rfl
  · rw [length_append, length_singleton]
    exact rest

theorem buffered_eq (queued : Queued pi stored removed items) : pi.buffered = items := by
  unfold buffered
  rw [queued.toNat_sub]
  apply ext_getElem
  · simp
  · intro k _ listed
    rw [getElem_map, getElem_range, queued.nread, ← BitVec.ofNat_add, slot_ofNat]
    exact queued.ring.cell k listed

end Queued

section Runs

variable {Pid : Type*} [DecidableEq Pid]

/-- What every moment of a run satisfies. -/
def Fifo (t : Traced Pid) : Prop := ∃ items, Queued t.state.pipe t.stored t.removed items

omit [DecidableEq Pid] in
theorem Fifo.of_eq {t u : Traced Pid} (fifo : Fifo t) (data : u.state.pipe.data = t.state.pipe.data)
    (nread : u.state.pipe.nread = t.state.pipe.nread)
    (nwrite : u.state.pipe.nwrite = t.state.pipe.nwrite) (stored : u.stored = t.stored)
    (removed : u.removed = t.removed) : Fifo u := by
  obtain ⟨items, queued⟩ := fifo
  refine ⟨items, ?_, ?_, ?_, ?_⟩
  · rw [stored, removed, queued.history]
  · rw [nread, removed, queued.nread]
  · rw [nwrite, stored, queued.nwrite]
  · rw [data, removed]
    exact queued.ring

variable {t : Traced Pid}

theorem Fifo.writeStep (fifo : Fifo t) (p : Pid) (i : Nat) (n : Int) (byte : Option Byte) :
    Fifo (t.writeStep p i n byte) := by
  unfold Traced.writeStep
  split
  · split
    · split <;> exact fifo.of_eq rfl rfl rfl rfl rfl
    rename_i room
    cases byte with
    | none => exact fifo.of_eq rfl rfl rfl rfl rfl
    | some ch =>
      obtain ⟨items, queued⟩ := fifo
      exact ⟨items ++ [ch], queued.put room ch⟩
  · exact fifo.of_eq rfl rfl rfl rfl rfl

omit [DecidableEq Pid] in
theorem Fifo.take (fifo : Fifo t) (full : ¬ t.state.pipe.Empty) : Fifo t.take := by
  obtain ⟨items, queued⟩ := fifo
  cases items with
  | nil => exact absurd (queued.empty_iff.mpr rfl) full
  | cons ch rest =>
    obtain ⟨first, taken⟩ := queued.take
    exact ⟨rest, by simpa [Traced.take, first] using taken⟩

theorem Fifo.readStep (fifo : Fifo t) (p : Pid) (i : Nat) (n : Int) (copied : Bool) :
    Fifo (t.readStep p i n copied) := by
  unfold Traced.readStep
  split
  · split
    · exact fifo.of_eq rfl rfl rfl rfl rfl
    · rename_i full
      split <;> exact (fifo.take full).of_eq rfl rfl rfl rfl rfl
  · exact fifo.of_eq rfl rfl rfl rfl rfl

theorem Fifo.waitStep (fifo : Fifo t) (p : Pid) (n : Int) : Fifo (t.waitStep p n) := by
  unfold Traced.waitStep
  split
  · split <;> exact fifo.of_eq rfl rfl rfl rfl rfl
  · exact fifo.of_eq rfl rfl rfl rfl rfl

omit [DecidableEq Pid] in
theorem pipeclose_bytes (writable : Bool) (s : State Pid) :
    (pipeclose writable s).pipe.data = s.pipe.data ∧
      (pipeclose writable s).pipe.nread = s.pipe.nread ∧
      (pipeclose writable s).pipe.nwrite = s.pipe.nwrite := by
  unfold pipeclose
  cases writable with
  | false =>
    simp only [Bool.false_eq_true, if_false]
    split <;> exact ⟨rfl, rfl, rfl⟩
  | true =>
    simp only [if_true]
    split <;> exact ⟨rfl, rfl, rfl⟩

theorem Fifo.other (fifo : Fifo t) {action : Action Pid} (apart : Apart t.holder action) :
    Fifo (byteNext t (.other action)) := by
  cases action with
  | runWrite p copyin => exact absurd apart id
  | runRead p copyout => exact absurd apart id
  | enterWrite p n | enterRead p n | fork p q | kill p => exact fifo.of_eq rfl rfl rfl rfl rfl
  | close p writable last =>
    simp only [byteNext, next]
    cases last with
    | false => exact fifo.of_eq rfl rfl rfl rfl rfl
    | true =>
      obtain ⟨data, nread, nwrite⟩ :=
        pipeclose_bytes writable (t.state.modify p (Proc.dropFd writable))
      exact fifo.of_eq data nread nwrite rfl rfl

theorem Fifo.step (fifo : Fifo t) {action : ByteAction Pid} (enabled : ByteEnabled t action) :
    Fifo (byteNext t action) := by
  cases action with
  | acquire p => exact fifo.of_eq rfl rfl rfl rfl rfl
  | write byte =>
    obtain ⟨p, i, n, holds⟩ := enabled
    simp only [byteNext, holds]
    exact fifo.writeStep p i n byte
  | wait =>
    obtain ⟨p, n, holds⟩ := enabled
    simp only [byteNext, holds]
    exact fifo.waitStep p n
  | read copied =>
    obtain ⟨p, i, n, holds⟩ := enabled
    simp only [byteNext, holds]
    exact fifo.readStep p i n copied
  | other action => exact fifo.other enabled.1

omit [DecidableEq Pid] in
theorem Created.fifo {creator : Pid} {s : State Pid} (created : Created creator s) :
    Fifo (fresh s) :=
  ⟨[], rfl, created.nread, created.nwrite, RingHolds.nil _ _⟩

/-- The bytes removed are at every moment a prefix of the bytes stored, the buffer holds exactly
the rest in order, and the counters are never more than `PIPESIZE` apart. -/
theorem pipe_fifo {creator : Pid} {start : State Pid} {t : Traced Pid}
    (created : Created creator start) (run : (byteSystem Pid).Reaches (fresh start) t) :
    t.removed <+: t.stored ∧ t.stored = t.removed ++ t.state.pipe.buffered ∧
      (t.state.pipe.nwrite - t.state.pipe.nread).toNat ≤ pipeSize := by
  have fifo : Fifo t :=
    run.invariant (fun _ _ fifo enabled => fifo.step enabled) created.fifo
  obtain ⟨items, queued⟩ := fifo
  refine ⟨⟨items, queued.history.symm⟩, ?_, ?_⟩
  · rw [queued.buffered_eq]
    exact queued.history
  · rw [queued.toNat_sub]
    exact queued.ring.fits

end Runs

/-- A pipe of process 0 in a table of two slots. -/
def twoProcs : State (Fin 2) where
  pipe := ⟨fun _ => 5, 0, 0, true, true⟩
  procs p :=
    { state := .running, chan := none, killed := false, call := .user
      readFd := p = 0, writeFd := p = 0 }
  freed := false

theorem twoProcs_created : Created 0 twoProcs := by
  constructor <;> simp [twoProcs, Proc.SleepsOn]

/-- Process 0 writes three bytes, its child reads one. -/
def threeStoredOneRemoved : List (ByteAction (Fin 2)) :=
  [.other (.enterWrite 0 3), .acquire 0, .write (some 7), .write (some 8), .write (some 9),
    .write none, .other (.fork 0 1), .other (.enterRead 1 1), .acquire 1, .wait, .read true]

theorem threeStoredOneRemoved_run :
    (byteSystem (Fin 2)).Reaches (fresh twoProcs)
      (threeStoredOneRemoved.foldl byteNext (fresh twoProcs)) := by
  apply System.Schedules.reaches
  repeat' apply And.intro
  all_goals first
    | rfl
    | decide
    | exact ⟨_, _, rfl⟩
    | exact ⟨_, _, _, rfl⟩
    | trivial

/-- The child has the first byte and the buffer the other two. -/
theorem pipe_fifo_threeStoredOneRemoved :
    (threeStoredOneRemoved.foldl byteNext (fresh twoProcs)).removed = [7] ∧
      (threeStoredOneRemoved.foldl byteNext (fresh twoProcs)).state.pipe.buffered = [8, 9] := by
  have stored : (threeStoredOneRemoved.foldl byteNext (fresh twoProcs)).stored = [7, 8, 9] := by
    decide
  have removed : (threeStoredOneRemoved.foldl byteNext (fresh twoProcs)).removed = [7] := by
    decide
  have split := (pipe_fifo twoProcs_created threeStoredOneRemoved_run).2.1
  rw [stored, removed] at split
  exact ⟨removed, (List.cons.inj split).2.symm⟩

section Tenures

variable {Pid : Type*} [DecidableEq Pid] {p : Pid} {t : Traced Pid}

theorem reaches_acquire (free : t.holder = none) (called : (t.state.procs p).call ≠ .user)
    (awake : (t.state.procs p).state ≠ .sleeping) : (byteSystem Pid).Reaches t { t with
        state := t.state.modify p Proc.resume
        holder := (t.state.procs p).call.place.map (Prod.mk p) } :=
  Relation.ReflTransGen.single ⟨.acquire p, ⟨free, called, awake⟩, rfl⟩

variable {n : Int}

theorem reaches_writeStep {i : Nat} (holds : t.holder = some (p, .write i n))
    (byte : Option Byte) : (byteSystem Pid).Reaches t (t.writeStep p i n byte) := by
  have step : (byteSystem Pid).Reaches t (byteNext t (.write byte)) :=
    Relation.ReflTransGen.single ⟨.write byte, ⟨p, i, n, holds⟩, rfl⟩
  simpa only [byteNext, holds] using step

theorem reaches_waitStep (holds : t.holder = some (p, .wait n)) :
    (byteSystem Pid).Reaches t (t.waitStep p n) := by
  have step : (byteSystem Pid).Reaches t (byteNext t .wait) :=
    Relation.ReflTransGen.single ⟨.wait, ⟨p, n, holds⟩, rfl⟩
  simpa only [byteNext, holds] using step

theorem reaches_readStep {i : Nat} (holds : t.holder = some (p, .read i n)) (copied : Bool) :
    (byteSystem Pid).Reaches t (t.readStep p i n copied) := by
  have step : (byteSystem Pid).Reaches t (byteNext t (.read copied)) :=
    Relation.ReflTransGen.single ⟨.read copied, ⟨p, i, n, holds⟩, rfl⟩
  simpa only [byteNext, holds] using step

theorem reaches_pipewriteLoop (p : Pid) (n : Int) (copyin : Memory)
    (remaining : Nat) : ∀ (i : Nat) (t : Traced Pid), t.holder = some (p, .write i n) →
      remaining = (n - i).toNat →
      ∃ stored, (byteSystem Pid).Reaches t
        ⟨(pipewriteLoop p n copyin remaining i t.state).1, none, stored, t.removed⟩ := by
  induction remaining with
  | zero =>
    intro i t holds count
    have past : ¬ (i : Int) < n := by omega
    have step := reaches_writeStep holds none
    rw [Traced.writeStep.eq_def, if_neg past] at step
    exact ⟨t.stored, step⟩
  | succ remaining ih =>
    intro i t holds count
    have more : (i : Int) < n := by omega
    have step := reaches_writeStep holds (copyin i)
    rw [Traced.writeStep.eq_def, if_pos more] at step
    unfold pipewriteLoop
    split
    · rename_i full
      rw [if_pos full] at step
      split
      · rename_i gone
        rw [if_pos gone] at step
        exact ⟨t.stored, step⟩
      · rename_i stays
        rw [if_neg stays] at step
        exact ⟨t.stored, step⟩
    · rename_i room
      rw [if_neg room] at step
      cases byte : copyin i with
      | none =>
        simp only [byte] at step
        exact ⟨t.stored, step⟩
      | some ch =>
        simp only [byte] at step
        obtain ⟨stored, rest⟩ :=
          ih (i + 1) { t.put ch with holder := some (p, .write (i + 1) n) } rfl (by omega)
        exact ⟨stored, step.trans rest⟩

theorem reaches_pipereadLoop (p : Pid) (n : Int) (copyout : Nat → Bool) (remaining : Nat) :
    ∀ (i : Nat) (t : Traced Pid), t.holder = some (p, .read i n) → remaining = (n - i).toNat →
      ∃ removed, (byteSystem Pid).Reaches t
        ⟨(({ t.state with pipe := (pipereadLoop copyout remaining i t.state.pipe).1 } :
          State Pid).wakeup .nwrite).modify p Proc.leave, none, t.stored, removed⟩ := by
  induction remaining with
  | zero =>
    intro i t holds count
    have past : ¬ (i : Int) < n := by omega
    have step := reaches_readStep holds true
    rw [Traced.readStep, if_neg past] at step
    exact ⟨t.removed, step⟩
  | succ remaining ih =>
    intro i t holds count
    have more : (i : Int) < n := by omega
    have step := reaches_readStep holds (copyout i)
    rw [Traced.readStep, if_pos more] at step
    unfold pipereadLoop
    split
    · rename_i empty
      rw [if_pos empty] at step
      exact ⟨t.removed, step⟩
    rename_i full
    rw [if_neg full] at step
    split
    · rename_i copied
      rw [if_pos copied] at step
      obtain ⟨removed, rest⟩ :=
        ih (i + 1) { t.take with holder := some (p, .read (i + 1) n) } rfl (by omega)
      exact ⟨removed, step.trans rest⟩
    · rename_i failed
      rw [if_neg failed] at step
      exact ⟨_, step⟩

/-- A run of whole tenures is a run of single passes, so the queue is a queue there too. -/
theorem reaches_of_tenures {start s : State Pid} (run : (pipeSystem Pid).Reaches start s) :
    ∃ stored removed, (byteSystem Pid).Reaches (fresh start) ⟨s, none, stored, removed⟩ := by
  refine run.invariant (P := fun s => ∃ stored removed,
    (byteSystem Pid).Reaches (fresh start) ⟨s, none, stored, removed⟩)
    (fun s action reached enabled => ?_) ⟨[], [], .refl _⟩
  obtain ⟨stored, removed, reached⟩ := reached
  cases action with
  | runWrite p copyin =>
    obtain ⟨⟨i, n, call⟩, awake⟩ := enabled
    have acquired : (byteSystem Pid).Reaches ⟨s, none, stored, removed⟩
        ⟨s.modify p Proc.resume, some (p, .write i n), stored, removed⟩ := by
      have step := reaches_acquire (t := ⟨s, none, stored, removed⟩) rfl (by simp [call]) awake
      simpa only [call, Call.place, Option.map_some] using step
    obtain ⟨longer, rest⟩ := reaches_pipewriteLoop p n copyin (n - i).toNat i
      ⟨s.modify p Proc.resume, some (p, .write i n), stored, removed⟩ rfl rfl
    refine ⟨longer, removed, ?_⟩
    simp only [pipeSystem, next, call]
    exact (reached.trans acquired).trans rest
  | runRead p copyout =>
    obtain ⟨⟨n, call⟩, awake⟩ := enabled
    have acquired : (byteSystem Pid).Reaches ⟨s, none, stored, removed⟩
        ⟨s.modify p Proc.resume, some (p, .wait n), stored, removed⟩ := by
      have step := reaches_acquire (t := ⟨s, none, stored, removed⟩) rfl (by simp [call]) awake
      simpa only [call, Call.place, Option.map_some] using step
    have tested := (reached.trans acquired).trans (reaches_waitStep rfl)
    rw [Traced.waitStep] at tested
    simp only [pipeSystem, next, call, piperead]
    split
    · rename_i waits
      rw [if_pos waits] at tested
      split
      · rename_i killed
        rw [if_pos killed] at tested
        exact ⟨stored, removed, tested⟩
      · rename_i alive
        rw [if_neg alive] at tested
        exact ⟨stored, removed, tested⟩
    · rename_i ready
      rw [if_neg ready] at tested
      obtain ⟨longer, rest⟩ := reaches_pipereadLoop p n copyout n.toNat 0
        ⟨s.modify p Proc.resume, some (p, .read 0 n), stored, removed⟩ rfl (by simp)
      exact ⟨stored, longer, tested.trans rest⟩
  | enterWrite p n =>
    exact ⟨stored, removed, reached.snoc (.other (.enterWrite p n)) ⟨trivial, enabled⟩⟩
  | enterRead p n =>
    exact ⟨stored, removed, reached.snoc (.other (.enterRead p n)) ⟨trivial, enabled⟩⟩
  | fork p q => exact ⟨stored, removed, reached.snoc (.other (.fork p q)) ⟨trivial, enabled⟩⟩
  | kill q => exact ⟨stored, removed, reached.snoc (.other (.kill q)) ⟨trivial, enabled⟩⟩
  | close p writable last =>
    exact ⟨stored, removed, reached.snoc (.other (.close p writable last)) ⟨fun _ => rfl, enabled⟩⟩

end Tenures

theorem reaches_of_tenures_written : ∃ stored removed,
    (byteSystem (Fin 2)).Reaches (fresh twoProcs) ⟨next (next twoProcs (.enterWrite 0 2))
      (.runWrite 0 fun _ => some 7), none, stored, removed⟩ := by
  have start : (pipeSystem (Fin 2)).Reaches twoProcs twoProcs := .refl _
  have entered := start.snoc (.enterWrite 0 2) ⟨by decide, by decide⟩
  exact reaches_of_tenures (entered.snoc (.runWrite 0 fun _ => some 7) ⟨⟨0, 2, rfl⟩, by decide⟩)

end OsLab.Pipe
