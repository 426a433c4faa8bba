import Mathlib

/-!
# Processes

The process table of `proc.h`, shared by every model in which processes sleep, are woken or are
reaped.
-/

namespace OsLab

inductive Procstate where
  | unused
  | sleeping
  | runnable
  | running
  | zombie
deriving DecidableEq, Repr

/-- `NPROC`, the number of slots of the process table. -/
def nproc : Nat := 64

theorem nproc_pos : 0 < nproc := by decide

/-- An entry of the process table. -/
abbrev Pslot := Fin nproc

/-- `initproc`, the entry that `userinit` takes. -/
def initproc : Pslot := ⟨0, nproc_pos⟩

/-- What a process can sleep on: an entry of the process table in `wait`, or something else. -/
inductive Chan where
  | proc (p : Pslot)
  | other (n : Nat)
deriving DecidableEq

/-- The spin locks: those of the process table and others. -/
inductive Spinlock where
  | proc (p : Pslot)
  | other (n : Nat)
deriving DecidableEq

/-- The fields of `struct proc` that its lock protects.  Two fields only follow the run: the number
of the process, and that of the process that created it. -/
structure Proc where
  state : Procstate
  parent : Option Pslot
  chan : Option Chan
  killed : Bool
  xstate : BitVec 32
  pid : BitVec 32
  birth : Nat
  creator : Nat
deriving DecidableEq

end OsLab
