import OsLab.Lib.Prog

/-!
# Programs over a disk that may lose power

A program reads and writes single blocks.  Each write is atomic and writes reach the disk in
program order, so a crash leaves the disk as it was after some number of the program's writes.
-/

namespace OsLab

open Function

/-- Reading and writing one block. -/
inductive DiskOp (Addr Block : Type) where
  | read (addr : Addr)
  | write (addr : Addr) (block : Block)

/-- A read returns the block. -/
abbrev DiskOp.Res {Addr Block : Type} : DiskOp Addr Block → Type
  | .read _ => Block
  | .write _ _ => Unit

/-- Programs that read and write blocks. -/
abbrev DiskProgram (Addr Block : Type) := Prog (DiskOp Addr Block) DiskOp.Res

variable {Addr Block α β : Type}

namespace DiskProgram

def bread (addr : Addr) : DiskProgram Addr Block Block := .call (.read addr) .ret

def bwrite (addr : Addr) (block : Block) : DiskProgram Addr Block Unit :=
  .call (.write addr block) .ret

end DiskProgram

namespace Prog

open DiskProgram

variable [DecidableEq Addr]

def run : DiskProgram Addr Block α → (Addr → Block) → α × (Addr → Block)
  | .ret result, disk => (result, disk)
  | .call (.read addr) rest, disk => (rest (disk addr)).run disk
  | .call (.write addr block) rest, disk => (rest ()).run (update disk addr block)

/-- The number of writes of a complete run. -/
def writes : DiskProgram Addr Block α → (Addr → Block) → Nat
  | .ret _, _ => 0
  | .call (.read addr) rest, disk => (rest (disk addr)).writes disk
  | .call (.write addr block) rest, disk =>
    (rest ()).writes (update disk addr block) + 1

/-- The disk when power is lost after `count` writes. -/
def cut : Nat → DiskProgram Addr Block α → (Addr → Block) → (Addr → Block)
  | _, .ret _, disk => disk
  | count, .call (.read addr) rest, disk => cut count (rest (disk addr)) disk
  | 0, .call (.write _ _) _, disk => disk
  | count + 1, .call (.write addr block) rest, disk =>
    cut count (rest ()) (update disk addr block)

@[simp] theorem run_pure (result : α) (disk : Addr → Block) :
    (pure result : DiskProgram Addr Block α).run disk = (result, disk) := rfl

@[simp] theorem run_bind (program : DiskProgram Addr Block α)
    (rest : α → DiskProgram Addr Block β) (disk : Addr → Block) :
    (program >>= rest).run disk = (rest (program.run disk).1).run (program.run disk).2 := by
  induction program generalizing disk with
  | ret result => rfl
  | call op continuation ih =>
    cases op with
    | read addr => exact ih (disk addr) disk
    | write addr block => exact ih () (update disk addr block)

@[simp] theorem writes_bread (addr : Addr) (disk : Addr → Block) :
    (bread addr : DiskProgram Addr Block Block).writes disk = 0 := rfl

@[simp] theorem writes_pure (result : α) (disk : Addr → Block) :
    (pure result : DiskProgram Addr Block α).writes disk = 0 := rfl

section

variable (program : DiskProgram Addr Block α)

@[simp] theorem writes_bind (rest : α → DiskProgram Addr Block β) (disk : Addr → Block) :
    (program >>= rest).writes disk =
      program.writes disk + (rest (program.run disk).1).writes (program.run disk).2 := by
  induction program generalizing disk with
  | ret result => exact (zero_add _).symm
  | call op continuation ih =>
    cases op with
    | read addr => exact ih (disk addr) disk
    | write addr block =>
      have later := ih () (update disk addr block)
      change (((continuation ()).bind rest).writes _) + 1 = _
      change ((continuation ()).bind rest).writes _ = _ at later
      rw [later, writes, run]
      omega

@[simp] theorem cut_zero (disk : Addr → Block) : cut 0 program disk = disk := by
  induction program with
  | ret result => rfl
  | call op rest ih =>
    cases op with
    | read addr => exact ih (disk addr)
    | write addr block => rfl

theorem cut_of_le (disk : Addr → Block) {count : Nat} (complete : program.writes disk ≤ count) :
    cut count program disk = (program.run disk).2 := by
  induction program generalizing disk count with
  | ret result => cases count <;> rfl
  | call op rest ih =>
    cases op with
    | read addr =>
      have later := ih (disk addr) disk complete
      cases count <;> exact later
    | write addr block =>
      cases count with
      | zero => simp [writes] at complete
      | succ count => exact ih () _ (Nat.le_of_succ_le_succ complete)

/-- A cut falls into the first part or into the second. -/
theorem cut_bind (rest : α → DiskProgram Addr Block β) (disk : Addr → Block) (count : Nat) :
    cut count (program >>= rest) disk =
      if count < program.writes disk then cut count program disk
      else cut (count - program.writes disk) (rest (program.run disk).1) (program.run disk).2 := by
  induction program generalizing disk count with
  | ret result => simp [writes, run]; rfl
  | call op continuation ih =>
    cases op with
    | read addr =>
      have later := ih (disk addr) disk count
      cases count <;> exact later
    | write addr block =>
      cases count with
      | zero =>
        rw [if_pos (by simp [writes])]
        simp
      | succ count =>
        have later := ih () (update disk addr block) count
        simp only [writes, Nat.add_lt_add_iff_right, Nat.add_sub_add_right]
        exact later

end

variable {body : Nat → DiskProgram Addr Block Unit}

/-- A loop whose body always makes one write makes as many writes as it has rounds. -/
theorem writes_forRange (single : ∀ i disk, (body i).writes disk = 1) (count : Nat)
    (disk : Addr → Block) : (forRange count body).writes disk = count := by
  induction count with
  | zero => rfl
  | succ count ih =>
    change ((forRange count body >>= fun _ => body count).writes disk) = _
    rw [writes_bind, ih, single]

/-- Power lost in such a loop leaves the disk as after some number of rounds. -/
theorem cut_forRange (single : ∀ i disk, (body i).writes disk = 1) {count cutoff : Nat}
    (disk : Addr → Block) (inside : cutoff ≤ count) :
    cut cutoff (forRange count body) disk = ((forRange cutoff body).run disk).2 := by
  induction count with
  | zero =>
    obtain rfl : cutoff = 0 := by omega
    rfl
  | succ count ih =>
    rcases lt_or_ge cutoff (count + 1) with short | long
    · change cut cutoff (forRange count body >>= fun _ => body count) disk = _
      rw [cut_bind, writes_forRange single]
      split
      · exact ih (by omega)
      · obtain rfl : cutoff = count := by omega
        simp
    · obtain rfl : cutoff = count + 1 := by omega
      exact cut_of_le _ _ (Nat.le_of_eq (writes_forRange single _ _))

@[simp] theorem run_forRange_succ (body : Nat → DiskProgram Addr Block Unit) (count : Nat)
    (disk : Addr → Block) :
    ((forRange (count + 1) body).run disk).2 =
      ((body count).run ((forRange count body).run disk).2).2 := by
  change ((forRange count body >>= fun _ => body count).run disk).2 = _
  rw [run_bind]

@[simp] theorem run_forRange_zero (body : Nat → DiskProgram Addr Block Unit)
    (disk : Addr → Block) : ((forRange 0 body).run disk).2 = disk := rfl

end Prog

end OsLab
