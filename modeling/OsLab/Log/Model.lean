import OsLab.Lib.Run

/-!
# Operations and group commit

The in-memory log of `log.c` and the processes that run file system operations, at the granularity
of `log.lock`.  `log_write` makes its checks before it takes the lock, and `commit` runs without it,
so their stages are steps of their own.  A history of the completed stages is kept beside the state.
-/

namespace OsLab

def maxOpBlocks : Nat := 10

def logSize : Nat := maxOpBlocks * 3

/-- `struct logheader`; entries from `n` on are stale. -/
structure LogHeader where
  n : Nat
  block : Nat → Nat

namespace LogHeader

/-- The block numbers the header lists. -/
def entries (lh : LogHeader) : List Nat := (List.range lh.n).map lh.block

/-- The loop of `log_write`: the first index whose entry is `b`, or `n`. -/
def find (lh : LogHeader) (b : Nat) : Nat := lh.entries.idxOf b

/-- `lh.block[i] = b` at the index found, and `lh.n++` for a new block. -/
def record (lh : LogHeader) (b : Nat) : LogHeader where
  n := if lh.find b = lh.n then lh.n + 1 else lh.n
  block := Function.update lh.block (lh.find b) b

theorem entries_of_n_eq_zero {lh : LogHeader} (empty : lh.n = 0) : lh.entries = [] := by
  simp [entries, empty]

theorem block_mem_entries (lh : LogHeader) {i : Nat} (listed : i < lh.n) :
    lh.block i ∈ lh.entries :=
  List.mem_map.mpr ⟨i, List.mem_range.mpr listed, rfl⟩

end LogHeader

/-- `struct log` without its lock. -/
structure Log where
  start : Nat
  size : Nat
  outstanding : Int
  committing : Bool
  dev : Nat
  lh : LogHeader

namespace Log

/-- The test of `begin_op` for too little log space. -/
def Crowded (log : Log) : Prop :=
  (log.lh.n : Int) + (log.outstanding + 1) * maxOpBlocks > logSize

instance (log : Log) : Decidable log.Crowded := inferInstanceAs (Decidable (_ > _))

/-- The test of `log_write` for a transaction that is too big. -/
def TooBig (log : Log) : Prop :=
  log.lh.n ≥ logSize ∨ (log.lh.n : Int) ≥ (log.size : Int) - 1

instance (log : Log) : Decidable log.TooBig := inferInstanceAs (Decidable (_ ∨ _))

/-- Where a process stands with respect to the log. -/
inductive Phase where
  | outside
  /-- In `begin_op`, about to test the log under the lock. -/
  | starting
  /-- Asleep in `begin_op` on `&log`. -/
  | waiting
  /-- Between `begin_op` and `end_op`, having logged the given blocks. -/
  | inside (logged : Finset Nat)
  /-- In `log_write` of a block, past the checks made without the lock. -/
  | logging (b : Nat) (logged : Finset Nat)
  /-- In `commit`, before the test of `lh.n`. -/
  | committing
  /-- In `commit` with `lh.n > 0`, before the first `write_head`. -/
  | writing
  /-- In `commit` after the first `write_head`. -/
  | installing
  /-- At the end of `commit`, the header being empty. -/
  | cleared
deriving DecidableEq

namespace Phase

/-- Between the return of `begin_op` and the call of `end_op`. -/
def Active : Phase → Prop
  | .inside _ | .logging _ _ => True
  | _ => False

instance : DecidablePred Active := fun phase => by
  cases phase <;> first | exact .isTrue trivial | exact .isFalse id

instance decidableInside : (phase : Phase) → Decidable (∃ logged, phase = .inside logged)
  | .inside logged => .isTrue ⟨logged, rfl⟩
  | .outside | .starting | .waiting | .logging _ _ | .committing | .writing | .installing
  | .cleared => .isFalse (by simp)

instance decidableLogging : (phase : Phase) → Decidable (∃ b logged, phase = .logging b logged)
  | .logging b logged => .isTrue ⟨b, logged, rfl⟩
  | .outside | .starting | .waiting | .inside _ | .committing | .writing | .installing
  | .cleared => .isFalse (by simp)

/-- Inside `commit`. -/
def Commits : Phase → Prop
  | .committing | .writing | .installing | .cleared => True
  | _ => False

instance : DecidablePred Commits := fun phase => by
  cases phase <;> first | exact .isTrue trivial | exact .isFalse id

/-- What `wakeup(&log)` does to one process. -/
def wakeup : Phase → Phase
  | .waiting => .starting
  | phase => phase

end Phase

/-- The panics of `log_write` and `end_op`, and a write past the end of `lh.block`. -/
inductive Fault where
  | tooBig
  | outsideOfTrans
  | logCommitting
  | outOfBounds
deriving DecidableEq, Repr

/-- What the history records. -/
inductive Event (Pid : Type*) where
  | begun (p : Pid)
  | logged (p : Pid) (b : Nat)
  | ended (p : Pid)
  /-- A commit with the given header contents. -/
  | committed (header : List Nat)

/-- The log, every process, the history (newest first) and the first fault. -/
structure State (Pid : Type*) where
  log : Log
  phase : Pid → Phase
  history : List (Event Pid)
  fault : Option Fault

/-- One step of one process. -/
inductive Action (Pid : Type*) where
  | beginCall (p : Pid)
  | beginTry (p : Pid)
  | kill (p : Pid)
  | logCall (p : Pid) (b : Nat)
  | logLocked (p : Pid)
  | endOp (p : Pid)
  | commitStart (p : Pid)
  | commitHead (p : Pid)
  | commitClear (p : Pid)
  | commitDone (p : Pid)

section Steps

variable {Pid : Type*} [DecidableEq Pid]

variable (s : State Pid)

namespace State

def move (p : Pid) (phase : Phase) : State Pid :=
  { s with phase := Function.update s.phase p phase }

/-- Append an event to the history. -/
def record (event : Event Pid) : State Pid :=
  { s with history := event :: s.history }

/-- `wakeup(&log)`. -/
def wakeup : State Pid := { s with phase := fun q => (s.phase q).wakeup }

/-- `panic`, or a write out of bounds. -/
def fail (fault : Fault) : State Pid := { s with fault := some fault }

end State

/-- One pass of the loop of `begin_op`. -/
def beginOp (p : Pid) : State Pid :=
  if s.log.committing then s.move p .waiting
  else if s.log.Crowded then s.move p .waiting
  else
    ({ s with log := { s.log with outstanding := s.log.outstanding + 1 } }.move p
      (.inside ∅)).record (.begun p)

/-- The checks at the head of `log_write`. -/
def logWriteChecks (p : Pid) (b : Nat) (logged : Finset Nat) : State Pid :=
  if s.log.TooBig then s.fail .tooBig
  else if s.log.outstanding < 1 then s.fail .outsideOfTrans
  else s.move p (.logging b logged)

/-- The assignments of `log_write`. -/
def logRecord (p : Pid) (b : Nat) (logged : Finset Nat) : State Pid :=
  ({ s with log := { s.log with lh := s.log.lh.record b } }.move p
    (.inside (insert b logged))).record (.logged p b)

/-- The locked part of `log_write`. -/
def logWriteLocked (p : Pid) (b : Nat) (logged : Finset Nat) : State Pid :=
  if s.log.lh.find b ≥ logSize then s.fail .outOfBounds else logRecord s p b logged

/-- `end_op` up to the call of `commit`. -/
def endOp (p : Pid) : State Pid :=
  let s : State Pid := { s with log := { s.log with outstanding := s.log.outstanding - 1 } }
  if s.log.committing then s.fail .logCommitting
  else if s.log.outstanding = 0 then
    ({ s with log := { s.log with committing := true } }.move p .committing).record (.ended p)
  else (s.wakeup.move p .outside).record (.ended p)

/-- The test at the head of `commit`. -/
def commitStart (p : Pid) : State Pid :=
  if s.log.lh.n > 0 then s.move p .writing
  else (s.move p .cleared).record (.committed [])

/-- The first `write_head` of `commit`. -/
def commitHead (p : Pid) : State Pid :=
  (s.move p .installing).record (.committed s.log.lh.entries)

/-- `log.lh.n = 0`. -/
def commitClear (p : Pid) : State Pid :=
  { s with log := { s.log with lh := { s.log.lh with n := 0 } } }.move p .cleared

/-- The end of `end_op` after `commit`. -/
def commitDone (p : Pid) : State Pid :=
  ({ s with log := { s.log with committing := false } } : State Pid).wakeup.move p .outside

/-- When an action may be taken: no fault has stopped the machine and the process is there. -/
def Enabled (action : Action Pid) : Prop :=
  s.fault = none ∧
    match action with
    | .beginCall p => s.phase p = .outside
    | .beginTry p => s.phase p = .starting
    | .kill _ => True
    | .logCall p _ => ∃ logged, s.phase p = .inside logged
    | .logLocked p => ∃ b logged, s.phase p = .logging b logged
    | .endOp p => ∃ logged, s.phase p = .inside logged
    | .commitStart p => s.phase p = .committing
    | .commitHead p => s.phase p = .writing
    | .commitClear p => s.phase p = .installing
    | .commitDone p => s.phase p = .cleared

instance decidableEnabled (s : State Pid) : (action : Action Pid) → Decidable (Enabled s action)
  | .kill _ => inferInstanceAs (Decidable (_ ∧ True))
  | .logCall _ _ | .endOp _ => inferInstanceAs (Decidable (_ ∧ ∃ logged, _ = Phase.inside logged))
  | .logLocked _ => inferInstanceAs (Decidable (_ ∧ ∃ b logged, _ = Phase.logging b logged))
  | .beginCall _ | .beginTry _ | .commitStart _ | .commitHead _ | .commitClear _ | .commitDone _ =>
    inferInstanceAs (Decidable (_ ∧ _ = _))

def next : Action Pid → State Pid
  | .beginCall p => s.move p .starting
  | .beginTry p => beginOp s p
  -- a kill only ends a sleep; `begin_op` does not look at `killed`
  | .kill p => s.move p (s.phase p).wakeup
  | .logCall p b =>
    match s.phase p with
    | .inside logged => logWriteChecks s p b logged
    | _ => s
  | .logLocked p =>
    match s.phase p with
    | .logging b logged => logWriteLocked s p b logged
    | _ => s
  | .endOp p => endOp s p
  | .commitStart p => commitStart s p
  | .commitHead p => commitHead s p
  | .commitClear p => commitClear s p
  | .commitDone p => commitDone s p

/-- The process that takes the action. -/
def Action.actor : Action Pid → Pid
  | .beginCall p | .beginTry p | .kill p | .logCall p _ | .logLocked p | .endOp p
  | .commitStart p | .commitHead p | .commitClear p | .commitDone p => p

theorem lh_beginOp (p : Pid) : (beginOp s p).log.lh = s.log.lh := by
  unfold beginOp
  split
  · rfl
  · split <;> rfl

theorem lh_endOp (p : Pid) : (endOp s p).log.lh = s.log.lh := by
  unfold endOp
  dsimp only
  split
  · rfl
  · split <;> rfl

/-- The place of the log on the disk never changes. -/
theorem geometry_next (action : Action Pid) :
    (next s action).log.start = s.log.start ∧ (next s action).log.size = s.log.size ∧
      (next s action).log.dev = s.log.dev := by
  cases action with
  | beginTry p =>
    simp only [next, beginOp]
    split
    · exact ⟨rfl, rfl, rfl⟩
    · split <;> exact ⟨rfl, rfl, rfl⟩
  | logCall p b =>
    simp only [next]
    split
    · simp only [logWriteChecks]
      split
      · exact ⟨rfl, rfl, rfl⟩
      · split <;> exact ⟨rfl, rfl, rfl⟩
    · exact ⟨rfl, rfl, rfl⟩
  | logLocked p =>
    simp only [next]
    split
    · simp only [logWriteLocked]
      split <;> exact ⟨rfl, rfl, rfl⟩
    · exact ⟨rfl, rfl, rfl⟩
  | endOp p =>
    simp only [next, endOp]
    split
    · exact ⟨rfl, rfl, rfl⟩
    · split <;> exact ⟨rfl, rfl, rfl⟩
  | commitStart p =>
    simp only [next, commitStart]
    split <;> exact ⟨rfl, rfl, rfl⟩
  | _ => exact ⟨rfl, rfl, rfl⟩

/-- An action of another process may only end a sleep. -/
theorem phase_next_of_ne {action : Action Pid} {q : Pid}
    (other : q ≠ action.actor) :
    (next s action).phase q = s.phase q ∨ (next s action).phase q = (s.phase q).wakeup := by
  cases action with
  | beginTry p =>
    simp only [Action.actor] at other
    left
    simp only [next, beginOp]
    split
    · simp [State.move, other]
    · split <;> simp [State.move, State.record, other]
  | logCall p b =>
    simp only [Action.actor] at other
    left
    simp only [next]
    split
    · simp only [logWriteChecks]
      split
      · rfl
      · split
        · rfl
        · simp [State.move, other]
    · rfl
  | logLocked p =>
    simp only [Action.actor] at other
    left
    simp only [next]
    split
    · simp only [logWriteLocked]
      split
      · rfl
      · simp [logRecord, State.move, State.record, other]
    · rfl
  | endOp p =>
    simp only [Action.actor] at other
    simp only [next, endOp]
    split
    · exact .inl rfl
    split
    · left
      simp [State.move, State.record, other]
    · right
      simp [State.move, State.record, State.wakeup, other]
  | commitStart p =>
    simp only [Action.actor] at other
    left
    simp only [next, commitStart]
    split <;> simp [State.move, State.record, other]
  | commitDone p =>
    simp only [Action.actor] at other
    right
    simp [next, commitDone, State.move, State.wakeup, other]
  | beginCall p | kill p | commitHead p | commitClear p =>
    simp only [Action.actor] at other
    left
    simp [next, commitHead, commitClear, State.move, State.record, other]

variable (Pid) in
/-- Every interleaving of `begin_op`, `log_write`, `end_op` and `commit`. -/
def logSystem : System (State Pid) (Action Pid) where
  Enabled := Enabled
  next := next

instance (s : State Pid) (action : Action Pid) : Decidable ((logSystem Pid).Enabled s action) :=
  inferInstanceAs (Decidable (Enabled s action))

/-- The state after `initlog`: an empty header, no operation and no commit. -/
structure Ready (s : State Pid) : Prop where
  outstanding : s.log.outstanding = 0
  committing : s.log.committing = false
  empty : s.log.lh.n = 0
  outside : ∀ p, s.phase p = .outside
  history : s.history = []
  fault : s.fault = none

end Steps

end Log

end OsLab
