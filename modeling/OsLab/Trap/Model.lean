import OsLab.Lib.Machine

/-!
# Traps and context switches

`trampoline.S`, `kernelvec.S` and `swtch.S`, with `struct trapframe` and `struct context` of
`proc.h` and what `trap.c`, `syscall.c` and `exec.c` do to a trapframe.  The tables of offsets are
those of the assembly files; the fields of the structs are all of type `uint64`.
-/

namespace OsLab.Trap

open Machine

/-- The integer registers but `zero`. -/
inductive Reg where
  | ra | sp | gp | tp
  | t0 | t1 | t2
  | s0 | s1
  | a0 | a1 | a2 | a3 | a4 | a5 | a6 | a7
  | s2 | s3 | s4 | s5 | s6 | s7 | s8 | s9 | s10 | s11
  | t3 | t4 | t5 | t6
deriving DecidableEq

/-- The control registers of supervisor mode that are used here. -/
inductive Csr where
  | sscratch
  | sepc
  | satp
  | stvec
  | sstatus
  | scause
deriving DecidableEq

abbrev Cpu := Machine Reg Csr

abbrev Code := List (Instr Reg Csr)

/-- The fields of `struct trapframe`. -/
inductive Field where
  | kernelSatp
  | kernelSp
  | kernelTrap
  | epc
  | kernelHartid
  | user (r : Reg)
deriving DecidableEq

def trapframe : List Field :=
  [.kernelSatp, .kernelSp, .kernelTrap, .epc, .kernelHartid,
    .user .ra, .user .sp, .user .gp, .user .tp, .user .t0, .user .t1, .user .t2,
    .user .s0, .user .s1, .user .a0, .user .a1, .user .a2, .user .a3, .user .a4, .user .a5,
    .user .a6, .user .a7, .user .s2, .user .s3, .user .s4, .user .s5, .user .s6, .user .s7,
    .user .s8, .user .s9, .user .s10, .user .s11, .user .t3, .user .t4, .user .t5, .user .t6]

def Field.offset (f : Field) : Nat := 8 * trapframe.idxOf f

/-- `sizeof(struct trapframe)`. -/
def trapframeSize : Nat := 8 * trapframe.length

def context : List Reg :=
  [.ra, .sp, .s0, .s1, .s2, .s3, .s4, .s5, .s6, .s7, .s8, .s9, .s10, .s11]

/-- `sizeof(struct context)`. -/
def contextSize : Nat := 8 * context.length

def pgsize : Nat := 4096

def maxva : Nat := 2 ^ 38

def trampoline : BitVec 64 := .ofNat 64 (maxva - pgsize)

def trapframeAddress : BitVec 64 := .ofNat 64 (maxva - 2 * pgsize)

def makeSatp (pagetable : BitVec 64) : BitVec 64 := (8#64 <<< 60) ||| (pagetable >>> 12)

def uservecSaves : List (Reg × Nat) :=
  [(.ra, 40), (.sp, 48), (.gp, 56), (.tp, 64), (.t0, 72), (.t1, 80), (.t2, 88), (.s0, 96),
    (.s1, 104), (.a1, 120), (.a2, 128), (.a3, 136), (.a4, 144), (.a5, 152), (.a6, 160), (.a7, 168),
    (.s2, 176), (.s3, 184), (.s4, 192), (.s5, 200), (.s6, 208), (.s7, 216), (.s8, 224), (.s9, 232),
    (.s10, 240), (.s11, 248), (.t3, 256), (.t4, 264), (.t5, 272), (.t6, 280)]

def uservec : Code :=
  [.csrrw .a0 .sscratch .a0] ++ saves .a0 uservecSaves ++
    [.csrr .t0 .sscratch, .sd .t0 .a0 112,
      .ld .sp .a0 8, .ld .tp .a0 32, .ld .t0 .a0 16, .ld .t1 .a0 0,
      .csrw .satp .t1, .fence, .jr .t0]

def userretLoads : List (Reg × Nat) :=
  [(.ra, 40), (.sp, 48), (.gp, 56), (.tp, 64), (.t0, 72), (.t1, 80), (.t2, 88), (.s0, 96),
    (.s1, 104), (.a1, 120), (.a2, 128), (.a3, 136), (.a4, 144), (.a5, 152), (.a6, 160), (.a7, 168),
    (.s2, 176), (.s3, 184), (.s4, 192), (.s5, 200), (.s6, 208), (.s7, 216), (.s8, 224), (.s9, 232),
    (.s10, 240), (.s11, 248), (.t3, 256), (.t4, 264), (.t5, 272), (.t6, 280)]

/-- `userret` up to `sret`. -/
def userret : Code :=
  [.csrw .satp .a1, .fence, .ld .t0 .a0 112, .csrw .sscratch .t0] ++ loads .a0 userretLoads ++
    [.csrrw .a0 .sscratch .a0]

def kernelvecSaves : List (Reg × Nat) :=
  [(.ra, 0), (.sp, 8), (.gp, 16), (.tp, 24), (.t0, 32), (.t1, 40), (.t2, 48), (.s0, 56), (.s1, 64),
    (.a0, 72), (.a1, 80), (.a2, 88), (.a3, 96), (.a4, 104), (.a5, 112), (.a6, 120), (.a7, 128),
    (.s2, 136), (.s3, 144), (.s4, 152), (.s5, 160), (.s6, 168), (.s7, 176), (.s8, 184), (.s9, 192),
    (.s10, 200), (.s11, 208), (.t3, 216), (.t4, 224), (.t5, 232), (.t6, 240)]

/-- `kernelvec` up to `call kerneltrap`. -/
def kernelvec : Code := [.addi .sp .sp (-256)] ++ saves .sp kernelvecSaves

def kernelvecLoads : List (Reg × Nat) :=
  [(.ra, 0), (.sp, 8), (.gp, 16), (.t0, 32), (.t1, 40), (.t2, 48), (.s0, 56), (.s1, 64),
    (.a0, 72), (.a1, 80), (.a2, 88), (.a3, 96), (.a4, 104), (.a5, 112), (.a6, 120), (.a7, 128),
    (.s2, 136), (.s3, 144), (.s4, 152), (.s5, 160), (.s6, 168), (.s7, 176), (.s8, 184), (.s9, 192),
    (.s10, 200), (.s11, 208), (.t3, 216), (.t4, 224), (.t5, 232), (.t6, 240)]

/-- `kernelvec` from the return of `kerneltrap` up to `sret`. -/
def kernelvecReturn : Code := loads .sp kernelvecLoads ++ [.addi .sp .sp 256]

def swtchSaves : List (Reg × Nat) :=
  [(.ra, 0), (.sp, 8), (.s0, 16), (.s1, 24), (.s2, 32), (.s3, 40), (.s4, 48), (.s5, 56), (.s6, 64),
    (.s7, 72), (.s8, 80), (.s9, 88), (.s10, 96), (.s11, 104)]

def swtchLoads : List (Reg × Nat) :=
  [(.ra, 0), (.sp, 8), (.s0, 16), (.s1, 24), (.s2, 32), (.s3, 40), (.s4, 48), (.s5, 56), (.s6, 64),
    (.s7, 72), (.s8, 80), (.s9, 88), (.s10, 96), (.s11, 104)]

def swtch : Code := saves .a0 swtchSaves ++ loads .a1 swtchLoads ++ [.jr .ra]

/-- A trap: the program counter is kept in `sepc` and the handler entered. -/
def trap (m : Cpu) (cause : BitVec 64) : Cpu :=
  { (m.setCsr .sepc m.pc).setCsr .scause cause with pc := m.csr .stvec }

def sret (m : Cpu) : Cpu := { m with pc := m.csr .sepc }

/-- What a process has for its traps: the address of its trapframe, its kernel stack and its page
table. -/
structure Proc where
  frame : Nat
  kstack : BitVec 64
  pagetable : BitVec 64

/-- `p->trapframe->f`. -/
def Proc.field (p : Proc) (m : Cpu) (f : Field) : BitVec 64 := m.mem (word p.frame f.offset)

def Proc.setField (p : Proc) (m : Cpu) (f : Field) (value : BitVec 64) : Cpu :=
  m.setMem (word p.frame f.offset) value

/-- The addresses of the kernel's code. -/
structure Text where
  kernelvec : BitVec 64
  usertrap : BitVec 64
  /-- `uservec - trampoline`. -/
  uservec : BitVec 64
  /-- `userret - trampoline`. -/
  userret : BitVec 64

/-- The beginning of `usertrap`. -/
def usertrapStart (text : Text) (p : Proc) (m : Cpu) : Cpu :=
  let m := m.setCsr .stvec text.kernelvec
  p.setField m .epc (m.csr .sepc)

def sstatusSpp : BitVec 64 := 1 <<< 8

def sstatusSpie : BitVec 64 := 1 <<< 5

/-- `usertrapret`, up to the call of `userret`. -/
def usertrapret (text : Text) (p : Proc) (m : Cpu) : Cpu :=
  let m := m.setCsr .stvec (trampoline + text.uservec)
  let m := p.setField m .kernelSatp (m.csr .satp)
  let m := p.setField m .kernelSp (p.kstack + .ofNat 64 pgsize)
  let m := p.setField m .kernelTrap text.usertrap
  let m := p.setField m .kernelHartid (m.reg .tp)
  let m := m.setCsr .sstatus ((m.csr .sstatus &&& ~~~sstatusSpp) ||| sstatusSpie)
  let m := m.setCsr .sepc (p.field m .epc)
  let m := m.setReg .a0 trapframeAddress
  let m := m.setReg .a1 (makeSatp p.pagetable)
  { m with pc := trampoline + text.userret }

/-- How a system call ends: a handler has returned a value, or `exec` has committed to a new image
and returned the number of its arguments. -/
inductive Outcome where
  | returned (result : BitVec 64)
  | execed (argc entry sp : BitVec 64)

/-- The part of `usertrap` for system calls, as far as the trapframe is concerned: `epc` goes to the
next instruction, `exec` assigns `a1`, `epc` and `sp`, and `syscall` the result to `a0`. -/
def usertrapSyscall (p : Proc) (m : Cpu) (outcome : Outcome) : Cpu :=
  let m := p.setField m .epc (p.field m .epc + 4)
  match outcome with
  | .returned result => p.setField m (.user .a0) result
  | .execed argc entry sp =>
    let m := p.setField m (.user .a1) sp
    let m := p.setField m .epc entry
    let m := p.setField m (.user .sp) sp
    p.setField m (.user .a0) argc

end OsLab.Trap
