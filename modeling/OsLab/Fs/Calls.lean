import OsLab.Fs.Model
import OsLab.Lib.Prog
import OsLab.Lib.Run

/-!
# Open files and the calls on files

`sysfile.c` and `file.c`, and of `proc.c`, `pipe.c` and `exec.c` what holds references to open files
and to inodes.  The code of a call is a program over operations, each of which runs to its end
between two operations on inode locks, on `icache.lock` or on `ftable.lock`.  What goes on in pipes,
devices and user memory is left out but for whether it succeeds.
-/

namespace OsLab.Fs

open Function

def nofile : Nat := 16

def nfile : Nat := 100

def ndev : Nat := 10

/-- A file descriptor. -/
abbrev Fd := Fin nofile

/-- An entry of `ftable`. -/
abbrev Fslot := Fin nfile

inductive FileType where
  | none
  | pipe
  | inode
  | device
deriving DecidableEq

/-- `struct file`; the pipe is left out. -/
structure File where
  type : FileType
  ref : Nat
  readable : Bool
  writable : Bool
  ip : Option Slot
  off : Nat
  major : BitVec 16

/-- The bytes of a path, without the terminating 0. -/
abbrev Path := List Byte

def oWronly : BitVec 32 := 0x001

def oRdwr : BitVec 32 := 0x002

def oCreate : BitVec 32 := 0x200

def oTrunc : BitVec 32 := 0x400

/-- The assignments of `sys_open` to a new file. -/
def File.opened (f : File) (ip : Slot) (node : Dinode) (omode : BitVec 32) : File :=
  { f with
    type := if node.type = tDevice then .device else .inode
    major := if node.type = tDevice then node.major else f.major
    off := if node.type = tDevice then f.off else 0
    ip := some ip
    readable := omode &&& oWronly = 0
    writable := omode &&& oWronly ≠ 0 ∨ omode &&& oRdwr ≠ 0 }

/-- The ways in which a call does not return: a stop of `fs.c`, a `panic` elsewhere, or a null
pointer that is followed. -/
inductive Halt
  | fs (stop : Stop)
  | filedup
  | fileclose
  | fileread
  | filewrite
  | shortFilewrite
  | initExiting
  | null
deriving DecidableEq

/-- The operations of the code. -/
inductive Op where
  /-- Something left out here succeeds or fails. -/
  | choose
  | panic (halt : Halt)
  | beginOp
  | endOp
  | iget (inum : Nat)
  | dupCwd
  | ilock (ip : Slot)
  | iunlock (ip : Slot)
  | iputStart (ip : Slot)
  | iputEnd (ip : Slot)
  | inode (ip : Slot)
  | ialloc (type : BitVec 16)
  | dirlookup (dp : Slot) (name : Name)
  | raiseLink (ip : Slot)
  | lowerLink (ip : Slot)
  | dirlink (dp : Slot) (name : Name) (ip : Slot)
  | createEntry (dp ip : Slot) (name : Name) (type major minor : BitVec 16)
  | unlinkEntry (dp ip : Slot) (off : Nat)
  | itrunc (ip : Slot)
  | readi (ip : Slot) (writable : Nat → Bool) (off n : Nat)
  | writei (ip : Slot) (src : Source) (off n : Nat)
  | filealloc
  | filedup (f : Fslot)
  /-- `fileclose` up to its `release`, with the descriptor that still refers to the file. -/
  | fileclose (f : Fslot) (fd : Option Fd)
  | file (f : Fslot)
  | openFile (f : Fslot) (ip : Slot) (omode : BitVec 32)
  | openPipe (f0 f1 : Fslot)
  | advance (f : Fslot) (r : Nat)
  | ofile (fd : Fd)
  | clearOfile (fd : Fd)
  | fdalloc (f : Fslot)
  | takeCwd
  | setCwd (ip : Option Slot)
  | forkProc
  | forkFd (child : Pslot) (fd : Fd)
  | forkCwd (child : Pslot)
  | forkStart (child : Pslot)
  | exitProc

/-- The result of an operation. -/
abbrev Op.Res : Op → Type
  | .choose | .iputStart _ | .raiseLink _ | .dirlink _ _ _ | .unlinkEntry _ _ _ => Bool
  | .iget _ | .dupCwd | .ialloc _ | .takeCwd => Slot
  | .inode _ => Inode
  | .dirlookup _ _ => Option (Slot × Nat)
  | .readi _ _ _ _ => List Byte
  | .writei _ _ _ _ => Option Nat
  | .filealloc | .ofile _ => Option Fslot
  | .fileclose _ _ => Option File
  | .file _ => File
  | .fdalloc _ => Option Fd
  | .forkProc => Option Pslot
  | _ => Unit

abbrev Code := Prog Op Op.Res

section Code

def op (operation : Op) : Code operation.Res := .call operation .ret

/-- `iput`. -/
def putInode (ip : Slot) : Code Unit := do
  if ← op (.iputStart ip) then
    op (.iputEnd ip)
  else
    return

def iunlockput (ip : Slot) : Code Unit := do
  op (.iunlock ip)
  putInode ip

/-- `namex` after its loop. -/
def namexEnd (parent : Bool) (ip : Slot) : Code (Option (Slot × Name)) :=
  if parent then do
    putInode ip
    return none
  else
    return some (ip, [])

/-- The loop of `namex`; every round takes an element off the path. -/
def namexLoop (parent : Bool) : (fuel : Nat) → Path → Slot → Code (Option (Slot × Name))
  | 0, _, ip => namexEnd parent ip
  | fuel + 1, path, ip =>
    match skipelem path with
    | none => namexEnd parent ip
    | some (name, path) => do
      op (.ilock ip)
      let i ← op (.inode ip)
      if i.node.type ≠ tDir then
        iunlockput ip
        return none
      else if parent = true ∧ path = [] then
        op (.iunlock ip)
        return some (ip, name)
      else
        match ← op (.dirlookup ip name) with
        | none =>
          iunlockput ip
          return none
        | some (next, _) =>
          iunlockput ip
          namexLoop parent fuel path next

def namex (path : Path) (parent : Bool) : Code (Option (Slot × Name)) := do
  let ip ← if path.head? = some slash then op (.iget rootino) else op .dupCwd
  namexLoop parent path.length path ip

def namei (path : Path) : Code (Option Slot) := do
  let found ← namex path false
  return found.map Prod.fst

/-- `nameiparent`: the directory and the last element of the path. -/
def nameiparent (path : Path) : Code (Option (Slot × Name)) := namex path true

/-- `fileclose`, of a file that descriptor `fd` still refers to or none does. -/
def fileclose (f : Fslot) (fd : Option Fd) : Code Unit := do
  match ← op (.fileclose f fd) with
  | none => return
  | some ff =>
    match ff.type, ff.ip with
    | .inode, some ip | .device, some ip =>
      op .beginOp
      putInode ip
      op .endOp
    -- `pipeclose` touches neither files nor inodes
    | _, _ => return

def argfd (fd : Int) : Code (Option (Fd × Fslot)) :=
  if inside : 0 ≤ fd ∧ fd < nofile then do
    let fd : Fd := ⟨fd.toNat, by omega⟩
    match ← op (.ofile fd) with
    | some f => return some (fd, f)
    | none => return none
  else
    return none

def sysDup (fd : Int) : Code Int := do
  match ← argfd fd with
  | none => return -1
  | some (_, f) =>
    match ← op (.fdalloc f) with
    | none => return -1
    | some fd =>
      op (.filedup f)
      return fd.val

def fileread (f : Fslot) (file : File) (writable : Nat → Bool) (n : Nat) : Code Int :=
  match file.type, file.ip with
  -- `piperead`, or `devsw[f->major].read` if there is one
  | .pipe, _ | .device, _ => return 0
  | .inode, some ip => do
    op (.ilock ip)
    let bytes ← op (.readi ip writable (← op (.file f)).off n)
    if 0 < bytes.length then
      op (.advance f bytes.length)
    op (.iunlock ip)
    return bytes.length
  | _, _ => do
    op (.panic .fileread)
    return -1

/-- `sys_read`; `writable` says where the user's buffer is mapped, and `n` is the count as
`readi` takes it. -/
def sysRead (fd : Int) (writable : Nat → Bool) (n : Nat) : Code Int := do
  match ← argfd fd with
  | none => return -1
  | some (_, f) =>
    let file ← op (.file f)
    if file.readable then
      fileread f file writable n
    else
      return -1

/-- The most that `filewrite` writes in one transaction. -/
def writeMax : Nat := ((10 - 1 - 1 - 2) / 2) * bsize

/-- The loop of `filewrite` with `i` bytes written. -/
def filewriteFrom (f : Fslot) (ip : Slot) (memory : Memory) (n : Int) :
    (fuel i : Nat) → Code Int
  | 0, i => return if i = n then n else -1
  | fuel + 1, i =>
    if i < n then do
      let n1 := min (n.toNat - i) writeMax
      op .beginOp
      op (.ilock ip)
      let file ← op (.file f)
      let cached ← op .choose
      let r ← op (.writei ip (.user (fun j => memory (i + j)) cached) file.off n1)
      op (.advance f (r.getD 0))
      op (.iunlock ip)
      op .endOp
      match r with
      | none => return -1
      | some r =>
        if r ≠ n1 then
          op (.panic .shortFilewrite)
          return -1
        else
          filewriteFrom f ip memory n fuel (i + r)
    else
      return if i = n then n else -1

def filewrite (f : Fslot) (file : File) (memory : Memory) (n : Int) : Code Int :=
  match file.type, file.ip with
  -- `pipewrite`, or `devsw[f->major].write` if there is one
  | .pipe, _ | .device, _ => return 0
  | .inode, some ip => filewriteFrom f ip memory n n.toNat 0
  | _, _ => do
    op (.panic .filewrite)
    return -1

/-- `sys_write`; `memory` is the user's buffer where it is mapped. -/
def sysWrite (fd : Int) (memory : Memory) (n : Int) : Code Int := do
  match ← argfd fd with
  | none => return -1
  | some (_, f) =>
    let file ← op (.file f)
    if file.writable then
      filewrite f file memory n
    else
      return -1

def sysClose (fd : Int) : Code Int := do
  match ← argfd fd with
  | none => return -1
  | some (fd, f) =>
    op (.clearOfile fd)
    fileclose f none
    return 0

def filestat (file : File) : Code Int :=
  match file.type, file.ip with
  | .inode, some ip | .device, some ip => do
    op (.ilock ip)
    let _ ← op (.inode ip)
    op (.iunlock ip)
    -- `copyout` of the `struct stat`
    if ← op .choose then return 0 else return -1
  | _, _ => return -1

def sysFstat (fd : Int) : Code Int := do
  match ← argfd fd with
  | none => return -1
  | some (_, f) => filestat (← op (.file f))

def linkBad (ip : Slot) : Code Int := do
  op (.ilock ip)
  op (.lowerLink ip)
  iunlockput ip
  op .endOp
  return -1

/-- `sys_link` after the link count was raised. -/
def linkEntry (new : Path) (ip : Slot) : Code Int := do
  match ← nameiparent new with
  | none => linkBad ip
  | some (dp, name) =>
    op (.ilock dp)
    if ← op (.dirlink dp name ip) then
      iunlockput dp
      putInode ip
      op .endOp
      return 0
    else
      iunlockput dp
      linkBad ip

/-- `sys_link` with the paths it has fetched. -/
def sysLink (old new : Path) : Code Int := do
  op .beginOp
  match ← namei old with
  | none =>
    op .endOp
    return -1
  | some ip =>
    op (.ilock ip)
    if ← op (.raiseLink ip) then
      op (.iunlock ip)
      linkEntry new ip
    else
      iunlockput ip
      op .endOp
      return -1

def unlinkBad (dp : Slot) : Code Int := do
  iunlockput dp
  op .endOp
  return -1

/-- `sys_unlink` with the path it has fetched. -/
def sysUnlink (path : Path) : Code Int := do
  op .beginOp
  match ← nameiparent path with
  | none =>
    op .endOp
    return -1
  | some (dp, name) =>
    op (.ilock dp)
    if name = [dot] ∨ name = [dot, dot] then
      unlinkBad dp
    else
      match ← op (.dirlookup dp name) with
      | none => unlinkBad dp
      | some (ip, off) =>
        op (.ilock ip)
        if ← op (.unlinkEntry dp ip off) then
          iunlockput dp
          op (.lowerLink ip)
          iunlockput ip
          op .endOp
          return 0
        else
          iunlockput ip
          unlinkBad dp

/-- `create`: the inode, locked. -/
def create (path : Path) (type major minor : BitVec 16) : Code (Option Slot) := do
  match ← nameiparent path with
  | none => return none
  | some (dp, name) =>
    op (.ilock dp)
    match ← op (.dirlookup dp name) with
    | some (ip, _) =>
      iunlockput dp
      op (.ilock ip)
      let i ← op (.inode ip)
      if type = tFile ∧ (i.node.type = tFile ∨ i.node.type = tDevice) then
        return some ip
      else
        iunlockput ip
        return none
    | none =>
      let ip ← op (.ialloc type)
      op (.ilock ip)
      op (.createEntry dp ip name type major minor)
      iunlockput dp
      return some ip

/-- The inode that `sys_open` without `O_CREATE` opens, locked. -/
def openExisting (path : Path) (omode : BitVec 32) : Code (Option Slot) := do
  match ← namei path with
  | none => return none
  | some ip =>
    op (.ilock ip)
    let i ← op (.inode ip)
    if i.node.type = tDir ∧ omode ≠ 0 then
      iunlockput ip
      return none
    else
      return some ip

/-- A failure of `sys_open` with its inode locked. -/
def openFail (ip : Slot) : Code Int := do
  iunlockput ip
  op .endOp
  return -1

/-- `sys_open` from `filealloc` on. -/
def openAlloc (ip : Slot) (type : BitVec 16) (omode : BitVec 32) : Code Int := do
  match ← op .filealloc with
  | none => openFail ip
  | some f =>
    match ← op (.fdalloc f) with
    | none =>
      fileclose f none
      openFail ip
    | some fd =>
      op (.openFile f ip omode)
      if omode &&& oTrunc ≠ 0 ∧ type = tFile then
        op (.itrunc ip)
      op (.iunlock ip)
      op .endOp
      return fd.val

/-- `sys_open` with the path it has fetched. -/
def sysOpen (path : Path) (omode : BitVec 32) : Code Int := do
  op .beginOp
  match ← (if omode &&& oCreate ≠ 0 then create path tFile 0 0 else openExisting path omode) with
  | none =>
    op .endOp
    return -1
  | some ip =>
    let i ← op (.inode ip)
    -- `major` is a `short`
    if i.node.type = tDevice ∧ (i.node.major.toInt < 0 ∨ (ndev : Int) ≤ i.node.major.toInt) then
      openFail ip
    else
      openAlloc ip i.node.type omode

/-- `sys_mkdir` and `sys_mknod`; their arguments are fetched inside the transaction. -/
def sysMknod (path : Option Path) (type major minor : BitVec 16) : Code Int := do
  op .beginOp
  match path with
  | none =>
    op .endOp
    return -1
  | some path =>
    match ← create path type major minor with
    | none =>
      op .endOp
      return -1
    | some ip =>
      iunlockput ip
      op .endOp
      return 0

def sysChdir (path : Option Path) : Code Int := do
  op .beginOp
  match path with
  | none =>
    op .endOp
    return -1
  | some path =>
    match ← namei path with
    | none =>
      op .endOp
      return -1
    | some ip =>
      op (.ilock ip)
      let i ← op (.inode ip)
      if i.node.type ≠ tDir then
        iunlockput ip
        op .endOp
        return -1
      else
        op (.iunlock ip)
        putInode (← op .takeCwd)
        op .endOp
        op (.setCwd (some ip))
        return 0

/-- `sys_pipe` when it gives up after `pipealloc`. -/
def pipeFail (f0 f1 : Fslot) : Code Int := do
  fileclose f0 none
  fileclose f1 none
  return -1

/-- `sys_pipe` after `pipealloc`. -/
def pipeFds (f0 f1 : Fslot) : Code Int := do
  match ← op (.fdalloc f0) with
  | none => pipeFail f0 f1
  | some fd0 =>
    match ← op (.fdalloc f1) with
    | none =>
      op (.clearOfile fd0)
      pipeFail f0 f1
    | some fd1 =>
      -- `copyout` of the two descriptors
      if ← op .choose then
        return 0
      else
        op (.clearOfile fd0)
        op (.clearOfile fd1)
        pipeFail f0 f1

/-- `sys_pipe`, with `pipealloc`. -/
def sysPipe : Code Int := do
  match ← op .filealloc with
  | none => return -1
  | some f0 =>
    match ← op .filealloc with
    | none =>
      fileclose f0 none
      return -1
    | some f1 =>
      -- `kalloc` of the pipe
      if ← op .choose then
        op (.openPipe f0 f1)
        pipeFds f0 f1
      else
        pipeFail f0 f1

/-- The loop of `fork` over the descriptors. -/
def forkFds (child : Pslot) : List Fd → Code Unit
  | [] => return
  | fd :: rest => do
    op (.forkFd child fd)
    forkFds child rest

/-- `fork`; it returns the number of the child. -/
def fork : Code Int := do
  match ← op .forkProc with
  | none => return -1
  | some child =>
    forkFds child (List.finRange nofile)
    op (.forkCwd child)
    op (.forkStart child)
    return child.val

/-- The loop of `exit` over the descriptors. -/
def exitFds : List Fd → Code Unit
  | [] => return
  | fd :: rest => do
    match ← op (.ofile fd) with
    | some f =>
      fileclose f (some fd)
      op (.clearOfile fd)
      exitFds rest
    | none => exitFds rest

/-- The number of the first process. -/
def initSlot : Pslot := ⟨0, nproc_pos⟩

/-- `exit`, up to where it gives up its files. -/
def exit (me : Pslot) : Code Int := do
  if me = initSlot then
    op (.panic .initExiting)
    return -1
  else
    exitFds (List.finRange nofile)
    op .beginOp
    putInode (← op .takeCwd)
    op .endOp
    op (.setCwd none)
    op .exitProc
    return 0

/-- The little-endian number in some of these bytes. -/
def number (bytes : List Byte) (offset width : Nat) : Nat :=
  ((bytes.drop offset).take width).foldr (fun byte rest => byte.toNat + 256 * rest) 0

/-- A failure of `exec` with its inode locked. -/
def execFail (ip : Slot) : Code Int := do
  iunlockput ip
  op .endOp
  return -1

/-- The loop of `loadseg` from page `i` on: whether it succeeds. -/
def loadseg (ip : Slot) (offset sz : Nat) : (fuel i : Nat) → Code Bool
  | 0, _ => return true
  | fuel + 1, i =>
    if i < sz then do
      let n := if sz - i < 4096 then sz - i else 4096
      let bytes ← op (.readi ip (fun _ => true) ((offset + i) % 2 ^ 32) n)
      if bytes.length ≠ n then
        return false
      else
        loadseg ip offset sz fuel (i + 4096)
    else
      return true

/-- The loop of `exec` over the program headers, and the rest of `exec`. -/
def execLoad (ip : Slot) : (count off : Nat) → Code Int
  | 0, _ => do
    iunlockput ip
    op .endOp
    -- the stack and the arguments
    if ← op .choose then return 0 else return -1
  | count + 1, off => do
    let ph ← op (.readi ip (fun _ => true) (off % 2 ^ 32) 56)
    if ph.length ≠ 56 then
      execFail ip
    else if number ph 0 4 ≠ 1 then
      execLoad ip count (off + 56)
    else if number ph 40 8 < number ph 32 8 ∨
        (number ph 16 8 + number ph 40 8) % 2 ^ 64 < number ph 16 8 then
      execFail ip
    else if ← op .choose then
      -- `uvmalloc` has succeeded
      if number ph 16 8 % 4096 ≠ 0 then
        execFail ip
      else if ← loadseg ip (number ph 8 8 % 2 ^ 32) (number ph 32 8 % 2 ^ 32)
          (number ph 32 8 % 2 ^ 32) 0 then
        execLoad ip count (off + 56)
      else
        execFail ip
    else
      execFail ip

def exec (path : Path) : Code Int := do
  op .beginOp
  match ← namei path with
  | none =>
    op .endOp
    return -1
  | some ip =>
    op (.ilock ip)
    let elf ← op (.readi ip (fun _ => true) 0 64)
    if elf.length ≠ 64 ∨ number elf 0 4 ≠ 0x464C457F then
      execFail ip
    else if ← op .choose then
      -- `proc_pagetable` has succeeded
      execLoad ip (number elf 56 2) (number elf 32 8)
    else
      execFail ip

end Code

/-- Paths that cannot be fetched fail before a transaction begins, unless the call fetches them
inside one. -/
inductive Call where
  | dup (fd : Int)
  | read (fd : Int) (writable : Nat → Bool) (n : Nat)
  | write (fd : Int) (memory : Memory) (n : Int)
  | close (fd : Int)
  | fstat (fd : Int)
  | link (old new : Path)
  | unlink (path : Path)
  | openAt (path : Path) (omode : BitVec 32)
  | mkdir (path : Option Path)
  | mknod (path : Option Path) (major minor : BitVec 16)
  | chdir (path : Option Path)
  | pipe
  | fork
  | exit
  | exec (path : Path)

def Call.code (me : Pslot) : Call → Code Int
  | .dup fd => sysDup fd
  | .read fd writable n => sysRead fd writable n
  | .write fd memory n => sysWrite fd memory n
  | .close fd => sysClose fd
  | .fstat fd => sysFstat fd
  | .link old new => sysLink old new
  | .unlink path => sysUnlink path
  | .openAt path omode => sysOpen path omode
  | .mkdir path => sysMknod path tDir 0 0
  | .mknod path major minor => sysMknod path tDevice major minor
  | .chdir path => sysChdir path
  | .pipe => sysPipe
  | .fork => Fs.fork
  | .exit => Fs.exit me
  | .exec path => Fs.exec path

/-- Whether an entry of the process table is used: not at all, by a `fork` that fills it, or by a
process. -/
inductive Life where
  | unused
  | forming
  | live
deriving DecidableEq

/-- What a process holds, and the code it has left; a process in user code has none. -/
structure Process where
  life : Life
  ofile : Fd → Option Fslot
  cwd : Option Slot
  todo : Code Int

/-- The file system, `ftable` and the processes. -/
structure Kernel where
  fs : State
  file : Fslot → File
  proc : Pslot → Process
  stop : Option Halt

namespace Kernel

/-- Run code of `fs.c`. -/
def onFs {α : Type} (k : Kernel) (code : FsM α) : Except Halt (α × Kernel) :=
  match code k.fs with
  | .ok (result, fs) => .ok (result, { k with fs })
  | .error stop => .error (.fs stop)

def setProc (k : Kernel) (p : Pslot) (change : Process → Process) : Kernel :=
  { k with proc := update k.proc p (change (k.proc p)) }

def setFile (k : Kernel) (f : Fslot) (change : File → File) : Kernel :=
  { k with file := update k.file f (change (k.file f)) }

/-- Change a descriptor of a process. -/
def setOfile (k : Kernel) (p : Pslot) (fd : Fd) (f : Option Fslot) : Kernel :=
  k.setProc p fun q => { q with ofile := update q.ofile fd f }

end Kernel

/-- What an operation does and returns, or why it stops; `outcome` is for what is left out. -/
def perform (sb : Superblock) (k : Kernel) (me : Pslot) (outcome : Option Pslot) :
    (op : Op) → Except Halt (op.Res × Kernel)
  | .choose => .ok (outcome.isSome, k)
  | .panic halt => .error halt
  | .beginOp => k.onFs Fs.beginOp
  | .endOp => k.onFs Fs.endOp
  | .iget inum => k.onFs (Fs.iget inum)
  | .dupCwd =>
    match (k.proc me).cwd with
    | some ip => k.onFs (Fs.idup ip)
    | none => .error .null
  | .ilock ip => k.onFs (Fs.ilock sb me ip)
  | .iunlock ip => k.onFs (Fs.iunlock me ip)
  | .iputStart ip => k.onFs (Fs.iputStart sb me ip)
  | .iputEnd ip => k.onFs (Fs.iputEnd ip)
  | .inode ip => .ok (k.fs.inode ip, k)
  | .ialloc type => k.onFs (Fs.ialloc sb type)
  | .dirlookup dp name => k.onFs (Fs.dirlookup sb dp name)
  | .raiseLink ip => k.onFs (Fs.raiseLink sb ip)
  | .lowerLink ip => k.onFs (Fs.lowerLink sb ip)
  | .dirlink dp name ip => k.onFs (Fs.dirlink sb me dp name (k.fs.inode ip).inum)
  | .createEntry dp ip name type major minor =>
    k.onFs (Fs.createEntry sb me dp ip name type major minor)
  | .unlinkEntry dp ip off => k.onFs (Fs.unlinkEntry sb dp ip off)
  | .itrunc ip => k.onFs (Fs.itrunc sb ip)
  | .readi ip writable off n => k.onFs (Fs.readi sb ip writable off n)
  | .writei ip src off n => k.onFs (Fs.writei sb ip src off n)
  | .filealloc =>
    match (List.finRange nfile).find? fun f => (k.file f).ref == 0 with
    | some f => .ok (some f, k.setFile f fun file => { file with ref := 1 })
    | none => .ok (none, k)
  | .filedup f =>
    if (k.file f).ref < 1 then .error .filedup
    else .ok ((), k.setFile f fun file => { file with ref := file.ref + 1 })
  | .fileclose f _ =>
    if (k.file f).ref < 1 then .error .fileclose
    else if (k.file f).ref - 1 > 0 then
      .ok (none, k.setFile f fun file => { file with ref := file.ref - 1 })
    else
      .ok (some (k.file f), k.setFile f fun file => { file with ref := 0, type := .none })
  | .file f => .ok (k.file f, k)
  | .openFile f ip omode =>
    .ok ((), k.setFile f fun file => file.opened ip (k.fs.inode ip).node omode)
  | .openPipe f0 f1 =>
    .ok ((), (k.setFile f0 fun file =>
      { file with type := .pipe, readable := true, writable := false }).setFile f1 fun file =>
        { file with type := .pipe, readable := false, writable := true })
  | .advance f r => .ok ((), k.setFile f fun file => { file with off := (file.off + r) % 2 ^ 32 })
  | .ofile fd => .ok ((k.proc me).ofile fd, k)
  | .clearOfile fd => .ok ((), k.setOfile me fd none)
  | .fdalloc f =>
    match (List.finRange nofile).find? fun fd => ((k.proc me).ofile fd).isNone with
    | some fd => .ok (some fd, k.setOfile me fd (some f))
    | none => .ok (none, k)
  | .takeCwd =>
    match (k.proc me).cwd with
    | some ip => .ok (ip, k)
    | none => .error .null
  | .setCwd ip => .ok ((), k.setProc me fun p => { p with cwd := ip })
  | .forkProc =>
    match outcome with
    | some child =>
      if (k.proc child).life = .unused then
        .ok (some child, k.setProc child fun p => { p with life := .forming })
      else .ok (none, k)
    | none => .ok (none, k)
  | .forkFd child fd =>
    match (k.proc me).ofile fd with
    | some f =>
      if (k.file f).ref < 1 then .error .filedup
      else
        .ok ((), (k.setFile f fun file =>
          { file with ref := file.ref + 1 }).setOfile child fd (some f))
    | none => .ok ((), k)
  | .forkCwd child =>
    match (k.proc me).cwd with
    | some ip =>
      match k.onFs (Fs.idup ip) with
      | .ok (_, k) => .ok ((), k.setProc child fun p => { p with cwd := some ip })
      | .error stop => .error stop
    | none => .error .null
  | .forkStart child => .ok ((), k.setProc child fun p => { p with life := .live, todo := .ret 0 })
  | .exitProc => .ok ((), k.setProc me fun p => { p with life := .unused })

/-- The next operation of a process has to wait for a lock. -/
def blocked {α : Type} : Except Halt α → Bool
  | .error (.fs .blocked) => true
  | _ => false

/-- The next step of a process, and a call of one. -/
inductive Action where
  | step (p : Pslot) (outcome : Option Pslot)
  | call (p : Pslot) (request : Call)

/-- The code continues with an operation that need not wait. -/
def Ready (sb : Superblock) (k : Kernel) (p : Pslot) (outcome : Option Pslot) : Code Int → Prop
  | .ret _ => False
  | .call op _ => blocked (perform sb k p outcome op) = false

def Allowed (sb : Superblock) (k : Kernel) : Action → Prop
  | .step p outcome => (k.proc p).life = .live ∧ Ready sb k p outcome (k.proc p).todo
  | .call p _ => (k.proc p).life = .live ∧ (k.proc p).todo.Done

/-- The state after an action. -/
def next (sb : Superblock) (k : Kernel) : Action → Kernel
  | .step p outcome =>
    match (k.proc p).todo with
    | .ret _ => k
    | .call op rest =>
      match perform sb k p outcome op with
      | .ok (result, later) => later.setProc p fun q => { q with todo := rest result }
      | .error stop => { k with stop := some stop }
  | .call p request => k.setProc p fun q => { q with todo := request.code p }

/-- The file system with its processes. -/
def fileSystem (sb : Superblock) : System Kernel Action where
  Enabled k action := k.stop = none ∧ Allowed sb k action
  next := next sb

instance (sb : Superblock) (k : Kernel) (p : Pslot) (outcome : Option Pslot) :
    (code : Code Int) → Decidable (Ready sb k p outcome code)
  | .ret _ => inferInstanceAs (Decidable False)
  | .call _ _ => inferInstanceAs (Decidable (_ = _))

instance (sb : Superblock) (k : Kernel) : (action : Action) → Decidable (Allowed sb k action)
  | .step _ _ => inferInstanceAs (Decidable (_ ∧ _))
  | .call _ _ => inferInstanceAs (Decidable (_ ∧ _))

instance (sb : Superblock) (k : Kernel) (action : Action) :
    Decidable ((fileSystem sb).Enabled k action) :=
  inferInstanceAs (Decidable (_ ∧ _))

/-- The state in which the first process starts, on a given disk: its current directory is the
root. -/
def boot (disk : Nat → Block) : Kernel where
  fs :=
    { disk, held := [], outstanding := 0, logged := [], durable := disk
      inode := fun ip =>
        if ip.val = 0 then ⟨rootino, 1, none, false, .fresh 0⟩ else ⟨0, 0, none, false, .fresh 0⟩ }
  file _ := ⟨.none, 0, false, false, none, 0, 0⟩
  proc p :=
    if p = initSlot then ⟨.live, fun _ => none, some ⟨0, ninode_pos⟩, .ret 0⟩
    else ⟨.unused, fun _ => none, none, .ret 0⟩
  stop := none

end OsLab.Fs
