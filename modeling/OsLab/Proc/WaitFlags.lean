import OsLab.Proc.Model

/-!
# `wait` with flags

One call of `wait` by a process that runs undisturbed, with the locks of its CPU, what `copyout`
does to the user memory, and the value it returns.  The scan of the table does not look at the
flags: they only decide between returning and sleeping once it has found no zombie.
-/

namespace OsLab.WaitFlags

open Function

/-- The process table, the entries whose lock this CPU holds, and the memory of the caller. -/
structure Kernel (Memory : Type*) where
  proc : Pslot → Proc
  held : Pslot → Bool
  memory : Memory

/-- How a call of `wait` goes on: it returns, or it reaches `sleep(p, &p->lock)`. -/
inductive Outcome where
  | returns (value : Int)
  | sleeps
deriving DecidableEq

/-- What the scan ends with: the value that `wait` returns, or whether there are children. -/
inductive Scanned where
  | returns (value : Int)
  | none (havekids : Bool)

section Code

variable {Memory : Type*}

def acquire (k : Kernel Memory) (p : Pslot) : Except Sched.Panic (Kernel Memory) :=
  if k.held p then .error .acquire else .ok { k with held := update k.held p true }

def release (k : Kernel Memory) (p : Pslot) : Except Sched.Panic (Kernel Memory) :=
  if k.held p then .ok { k with held := update k.held p false } else .error .release

/-- What `copyout` to the caller returns and leaves in its memory, by the address and the word. -/
abbrev Copyout (Memory : Type*) := BitVec 64 → BitVec 32 → Memory → Bool × Memory

variable (copyout : Copyout Memory) (p : Pslot) (addr : BitVec 64)

/-- `wait` releases the two locks and returns. -/
def leave (np : Pslot) (value : Int) (k : Kernel Memory) :
    Except Sched.Panic (Kernel Memory × Scanned) := do
  let k ← release (← release k np) p
  return (k, .returns value)

/-- The rest of `wait` for a child that is a zombie. -/
def found (np : Pslot) (k : Kernel Memory) : Except Sched.Panic (Kernel Memory × Scanned) :=
  let pid := (k.proc np).pid
  let copied := if addr ≠ 0 then copyout addr (k.proc np).xstate k.memory else (true, k.memory)
  let k := { k with memory := copied.2 }
  if copied.1 then
    leave p np pid.toInt { k with proc := update k.proc np (Sched.Proc.free (k.proc np)) }
  else leave p np (-1) k

/-- The scan of `wait` over the table. -/
def scan : List Pslot → (havekids : Bool) → Kernel Memory →
    Except Sched.Panic (Kernel Memory × Scanned)
  | [], havekids, k => .ok (k, .none havekids)
  | np :: rest, havekids, k =>
    if (k.proc np).parent = some p then do
      let k ← acquire k np
      if (k.proc np).state = .zombie then found copyout p addr np k
      else scan rest true (← release k np)
    else scan rest havekids k

/-- What `wait` does after the scan. -/
def rest (flags : BitVec 32) : Kernel Memory × Scanned →
    Except Sched.Panic (Kernel Memory × Outcome)
  | (k, .returns value) => .ok (k, .returns value)
  | (k, .none havekids) =>
    if !havekids || (k.proc p).killed then do return (← release k p, .returns (-1))
    else if flags ≠ 0 then do return (← release k p, .returns (-1))
    else .ok (k, .sleeps)

/-- The first round of `wait(addr, flags)`. -/
def wait (flags : BitVec 32) (k : Kernel Memory) :
    Except Sched.Panic (Kernel Memory × Outcome) := do
  let k ← acquire k p
  rest p flags (← scan copyout p addr (List.finRange nproc) false k)

end Code

variable {Memory : Type*} {copyout : Copyout Memory} {p : Pslot} {addr : BitVec 64}
  {k : Kernel Memory}

/-- A child of the caller that is a zombie. -/
def ZombieChild (k : Kernel Memory) (p np : Pslot) : Prop :=
  (k.proc np).parent = some p ∧ (k.proc np).state = .zombie

variable {np : Pslot}

theorem acquire_eq (free : k.held np = false) :
    acquire k np = .ok { k with held := update k.held np true } :=
  if_neg (by simp [free])

theorem release_eq (held : k.held np = true) :
    release k np = .ok { k with held := update k.held np false } :=
  if_pos held

theorem release_acquired (free : k.held np = false) :
    release { k with held := update k.held np true } np = .ok k := by
  rw [release_eq (update_self ..), update_idem, ← free, update_eq_self]

/-- The kernel in which the CPU holds only the lock of the caller. -/
def Locked (k : Kernel Memory) (p : Pslot) : Prop := k.held = update (fun _ => false) p true

theorem Locked.other (locked : Locked k p) (other : np ≠ p) : k.held np = false := by
  rw [locked, update_of_ne other]

theorem leave_eq (locked : Locked k p) (other : np ≠ p) (value : Int)
    (proc : Pslot → Proc) (memory : Memory) :
    leave p np value ⟨proc, update k.held np true, memory⟩ =
      .ok (⟨proc, fun _ => false, memory⟩, .returns value) := by
  have first : release ⟨proc, update k.held np true, memory⟩ np = .ok ⟨proc, k.held, memory⟩ := by
    rw [release_eq (update_self ..), update_idem, ← locked.other other, update_eq_self]
  have second : release ⟨proc, k.held, memory⟩ p = .ok ⟨proc, fun _ => false, memory⟩ := by
    have none : update k.held p false = fun _ => false := by
      rw [locked, update_idem]
      exact update_eq_self p _
    rw [release_eq (by rw [locked, update_self]), none]
  rw [leave, first]
  change (release ⟨proc, k.held, memory⟩ p >>= _) = _
  rw [second]
  rfl

theorem found_eq (locked : Locked k p) (other : np ≠ p) :
    ∃ t value, found copyout p addr np { k with held := update k.held np true } =
      .ok (t, .returns value) ∧ ∀ q, t.held q = false := by
  unfold found
  generalize (if addr ≠ 0 then _ else _ : Bool × Memory) = copied
  dsimp only
  split
  all_goals exact ⟨_, _, leave_eq locked other .., fun _ => rfl⟩

/-- The scan looks at the state of a child while it holds the lock of the child. -/
theorem scan_child (child : (k.proc np).parent = some p) (free : k.held np = false)
    (rest : List Pslot) (havekids : Bool) :
    scan copyout p addr (np :: rest) havekids k =
      if (k.proc np).state = .zombie then
        found copyout p addr np { k with held := update k.held np true }
      else scan copyout p addr rest true k := by
  rw [scan, if_pos child, acquire_eq free]
  change (if (k.proc np).state = .zombie then _ else _) = _
  rw [release_acquired free]
  rfl

/-- The scan stops at a zombie child, and without one it leaves everything as it is. -/
theorem scan_spec (copyout : Copyout Memory) (addr : BitVec 64) (locked : Locked k p)
    (proper : (k.proc p).parent ≠ some p) (entries : List Pslot) : ∀ havekids,
      (∃ np ∈ entries, ZombieChild k p np) ∧
        (∃ t value, scan copyout p addr entries havekids k = .ok (t, .returns value) ∧
          ∀ q, t.held q = false) ∨
      (∀ np ∈ entries, ¬ ZombieChild k p np) ∧
        ∃ kids, scan copyout p addr entries havekids k = .ok (k, .none kids) := by
  induction entries with
  | nil => exact fun havekids => .inr ⟨by simp, havekids, rfl⟩
  | cons np rest ih =>
    intro havekids
    have other : (k.proc np).parent = some p → np ≠ p := by
      rintro child rfl
      exact proper child
    by_cases zombie : ZombieChild k p np
    · have apart := other zombie.1
      rw [scan_child zombie.1 (locked.other apart), if_pos zombie.2]
      exact .inl ⟨⟨np, List.mem_cons_self, zombie⟩, found_eq locked apart⟩
    obtain ⟨kids, same⟩ : ∃ kids,
        scan copyout p addr (np :: rest) havekids k = scan copyout p addr rest kids k := by
      by_cases child : (k.proc np).parent = some p
      · exact ⟨true, (scan_child child (locked.other (other child)) ..).trans
          (if_neg fun dead => zombie ⟨child, dead⟩)⟩
      · exact ⟨havekids, if_neg child⟩
    rw [same]
    simpa [zombie] using ih kids

theorem wait_eq (copyout : Copyout Memory) (p : Pslot) (addr : BitVec 64) (flags : BitVec 32)
    (unlocked : k.held p = false) :
    wait copyout p addr flags k =
      (scan copyout p addr (List.finRange nproc) false { k with held := update k.held p true } >>=
        fun scanned => rest p flags scanned) := by
  rw [wait, acquire_eq unlocked]
  rfl

/-- With flags `wait` never sleeps.  A zombie child makes it do what it does without flags, and
without one it returns -1 and changes nothing. -/
theorem wait_flags_agrees (copyout : Copyout Memory) (p : Pslot) (addr : BitVec 64)
    (flags : BitVec 32) (nonzero : flags ≠ 0) (k : Kernel Memory)
    (unlocked : ∀ q, k.held q = false) (proper : (k.proc p).parent ≠ some p) :
    (∀ t, wait copyout p addr flags k ≠ .ok (t, .sleeps)) ∧
    ((∃ np, ZombieChild k p np) → ∃ t value, wait copyout p addr flags k = .ok (t, .returns value) ∧
        wait copyout p addr 0 k = .ok (t, .returns value) ∧ ∀ q, t.held q = false) ∧
    ((∀ np, ¬ ZombieChild k p np) → wait copyout p addr flags k = .ok (k, .returns (-1))) := by
  have locked : Locked { k with held := update k.held p true } p := by
    rw [Locked, show k.held = fun _ => false from funext unlocked]
  have start := fun flags => wait_eq copyout p addr flags (unlocked p)
  rcases scan_spec copyout addr locked proper (List.finRange nproc) false with
    ⟨⟨np, -, zombie⟩, t, value, scanned, free⟩ | ⟨absent, kids, scanned⟩
  · rw [scanned] at start
    refine ⟨fun u sleeps => ?_, fun _ => ⟨t, value, start flags, start 0, free⟩, fun absent => ?_⟩
    · cases (start flags).symm.trans sleeps
    · exact absurd zombie (absent np)
  · rw [scanned] at start
    have ends : wait copyout p addr flags k = .ok (k, .returns (-1)) := by
      rw [start flags]
      change (if _ then _ else if _ then _ else _) = _
      rw [if_pos nonzero, ite_self, release_acquired (unlocked p)]
      rfl
    refine ⟨fun u sleeps => ?_, fun some => ?_, fun _ => ends⟩
    · cases ends.symm.trans sleeps
    · obtain ⟨np, zombie⟩ := some
      exact absurd zombie (absent np (List.mem_finRange np))

/-- `initproc` with a zombie child in entry 1; its memory is the word at the address. -/
def sampleKernel : Kernel (BitVec 32) where
  proc q :=
    if q = initproc then { Sched.Proc.init with state := .running }
    else if q.val = 1 then
      { Sched.Proc.unused with state := .zombie, parent := some initproc, xstate := 7, pid := 2 }
    else Sched.Proc.unused
  held _ := false
  memory := 0

theorem wait_flags_agrees_zombie :
    ∃ t value, wait (fun _ word _ => (true, word)) initproc 4096 1 sampleKernel =
        .ok (t, .returns value) ∧
      wait (fun _ word _ => (true, word)) initproc 4096 0 sampleKernel =
        .ok (t, .returns value) ∧ ∀ q, t.held q = false :=
  (wait_flags_agrees (fun _ word _ => (true, word)) initproc 4096 1 (by decide) sampleKernel
    (fun _ => rfl) (by decide)).2.1 ⟨⟨1, by decide⟩, by decide, by decide⟩

end OsLab.WaitFlags
