import OsLab.Lib.Act
import OsLab.Log.Header
import OsLab.Proc.State

/-!
# The file system over a block map

The blocks, inodes and directories of `fs.c`, and the parts of `sysfile.c` that run between two
operations on inode locks.  The log and the buffer cache act as one map from block numbers to
contents, of which a commit makes the logged blocks durable.  There is one disk, so `dev` is left
out.
-/

namespace OsLab.Fs

open Function

def ndirect : Nat := 12

def nindirect : Nat := bsize / 4

def maxfile : Nat := ndirect + nindirect

/-- `IPB`, with 64 bytes to a `struct dinode`. -/
def ipb : Nat := bsize / 64

def bpb : Nat := bsize * 8

def dirsiz : Nat := 14

/-- `sizeof(struct dirent)`. -/
def direntSize : Nat := 16

def rootino : Nat := 1

def ninode : Nat := 50

theorem ninode_pos : 0 < ninode := by decide

def tDir : BitVec 16 := 1

def tFile : BitVec 16 := 2

def tDevice : BitVec 16 := 3

/-- The fields of `struct superblock` that lay out inodes, free map and data. -/
structure Superblock where
  size : Nat
  nblocks : Nat
  ninodes : Nat
  inodestart : Nat
  bmapstart : Nat

def Superblock.iblock (sb : Superblock) (inum : Nat) : Nat := inum / ipb + sb.inodestart

def Superblock.bblock (sb : Superblock) (b : Nat) : Nat := b / bpb + sb.bmapstart

/-- `struct dinode`, also the part of `struct inode` that is a copy of it. -/
@[ext]
structure Dinode where
  type : BitVec 16
  major : BitVec 16
  minor : BitVec 16
  nlink : BitVec 16
  size : BitVec 32
  addrs : Fin (ndirect + 1) → BitVec 32
deriving DecidableEq

variable (block : Block)

namespace Dinode

/-- An inode with every field 0 but its type, as after `memset` in `ialloc`. -/
def fresh (type : BitVec 16) : Dinode := ⟨type, 0, 0, 0, 0, fun _ => 0⟩

/-- The byte offset of `addrs[i]` of the inode in a slot of its block. -/
def addrOffset (slot i : Nat) : Nat := 64 * slot + 12 + 4 * i

/-- Read the inode in a slot of its block. -/
def load (slot : Nat) : Dinode where
  type := .ofNat 16 (block.getLE (64 * slot) 2)
  major := .ofNat 16 (block.getLE (64 * slot + 2) 2)
  minor := .ofNat 16 (block.getLE (64 * slot + 4) 2)
  nlink := .ofNat 16 (block.getLE (64 * slot + 6) 2)
  size := .ofNat 32 (block.getLE (64 * slot + 8) 4)
  addrs i := .ofNat 32 (block.getLE (addrOffset slot i) 4)

def bytes (node : Dinode) (j : Nat) : Byte :=
  if j < 2 then Bytes.leByte node.type.toNat j
  else if j < 4 then Bytes.leByte node.major.toNat (j - 2)
  else if j < 6 then Bytes.leByte node.minor.toNat (j - 4)
  else if j < 8 then Bytes.leByte node.nlink.toNat (j - 6)
  else if j < 12 then Bytes.leByte node.size.toNat (j - 8)
  else if inside : (j - 12) / 4 < ndirect + 1 then
    Bytes.leByte (node.addrs ⟨(j - 12) / 4, inside⟩).toNat ((j - 12) % 4)
  else 0

/-- Store an inode into a slot of its block. -/
def store (node : Dinode) (block : Block) (slot : Nat) : Block :=
  block.splice (64 * slot) 64 node.bytes

end Dinode

/-- An entry of the inode cache. -/
abbrev Slot := Fin ninode

/-- `struct inode`, with the process that holds its sleep lock. -/
structure Inode where
  inum : Nat
  ref : Nat
  lock : Option Pslot
  valid : Bool
  node : Dinode

/-- The blocks as `bread` returns them, the buffers whose locks are held, `log.outstanding`, the
blocks logged since the last commit, the disk as recovery would find it, and `icache`. -/
structure State where
  disk : Nat → Block
  held : List Nat
  outstanding : Nat
  logged : List Nat
  durable : Nat → Block
  inode : Slot → Inode

/-- The panics of the file system and of what it is made of, and a wait for a sleep lock that is
held. -/
inductive Stop
  | brelse
  | tooBig
  | outsideTrans
  | outOfBlocks
  | freeingFreeBlock
  | noInodes
  | igetNoInodes
  | ilock
  | ilockNoType
  | iunlock
  | bmapOutOfRange
  | dirlookupNotDir
  | dirlookupRead
  | dirlinkRead
  | dirlink
  | isdiremptyReadi
  | unlinkNlink
  | unlinkWritei
  | createDots
  | createDirlink
  | blocked
deriving DecidableEq

/-- Code of the file system. -/
abbrev FsM := Act State Stop

/-- Change the contents of one block. -/
def State.setBlock (s : State) (b : Nat) (block : Block) : State :=
  { s with disk := update s.disk b block }

def State.setInode (s : State) (ip : Slot) (change : Inode → Inode) : State :=
  { s with inode := update s.inode ip (change (s.inode ip)) }

/-- `bread`: lock the buffer of a block and return its contents. -/
def bread (b : Nat) : FsM Block := do
  let s ← get
  if b ∈ s.held then
    throw .blocked
  else
    set { s with held := b :: s.held }
    return s.disk b

def brelse (b : Nat) : FsM Unit := do
  let s ← get
  if b ∈ s.held then
    set { s with held := s.held.erase b }
  else
    throw .brelse

/-- `log.lh.n`: a block that is logged again is absorbed. -/
def State.lhN (s : State) : Nat := s.logged.toFinset.card

/-- `log_write` of a buffer with new contents, with the `log.size` of `mkfs`. -/
def logWrite (b : Nat) (block : Block) : FsM Unit := do
  let s ← get
  if s.lhN ≥ logSize ∨ s.lhN ≥ logSize - 1 then
    throw .tooBig
  else if s.outstanding < 1 then
    throw .outsideTrans
  else
    set { s.setBlock b block with logged := b :: s.logged }

/-- The fields of an entry of the inode cache. -/
def inode (ip : Slot) : FsM Inode := do return (← get).inode ip

/-- Assign fields of an entry of the inode cache. -/
def setInode (ip : Slot) (change : Inode → Inode) : FsM Unit :=
  modify fun s => s.setInode ip change

variable (sb : Superblock)

/-- `m = 1 << (bi % 8)`. -/
def mask (bi : Nat) : Byte := 1#8 <<< (bi % 8)

/-- `bp->data[bi/8] & m` is 0. -/
def isFree (bi : Nat) : Bool := (block.byteAt (bi / 8) &&& mask bi) == 0

/-- `bp->data[bi/8] |= m`. -/
def markUsed (bi : Nat) : Block :=
  block.setByte (bi / 8) (block.byteAt (bi / 8) ||| mask bi)

/-- `bp->data[bi/8] &= ~m`. -/
def markFree (bi : Nat) : Block :=
  block.setByte (bi / 8) (block.byteAt (bi / 8) &&& ~~~mask bi)

def bzero (b : Nat) : FsM Unit := do
  let _ ← bread b
  logWrite b fun _ => 0
  brelse b

/-- The inner loop of `balloc` over the bits of one block of the free map. -/
@[irreducible]
def firstFree (bp : Block) (b : Nat) : Option Nat :=
  (List.range bpb).find? fun bi => decide (b + bi < sb.size) && isFree bp bi

/-- The outer loop of `balloc` over the blocks of the free map that start at these bits. -/
def ballocFrom : List Nat → FsM Nat
  | [] => throw .outOfBlocks
  | b :: rest => do
    let bp ← bread (sb.bblock b)
    match firstFree sb bp b with
    | some bi =>
      logWrite (sb.bblock b) (markUsed bp bi)
      brelse (sb.bblock b)
      bzero (b + bi)
      return b + bi
    | none =>
      brelse (sb.bblock b)
      ballocFrom rest

def balloc : FsM Nat :=
  ballocFrom sb ((List.range ((sb.size + bpb - 1) / bpb)).map (· * bpb))

def bfree (b : Nat) : FsM Unit := do
  let bp ← bread (sb.bblock b)
  if isFree bp (b % bpb) then
    throw .freeingFreeBlock
  else
    logWrite (sb.bblock b) (markFree bp (b % bpb))
    brelse (sb.bblock b)

/-- `iget`: the entry that caches the inode, or the first unused one. -/
def iget (inum : Nat) : FsM Slot := do
  let s ← get
  match (List.finRange ninode).find? fun ip =>
      decide (0 < (s.inode ip).ref) && (s.inode ip).inum == inum with
  | some ip =>
    setInode ip fun i => { i with ref := i.ref + 1 }
    return ip
  | none =>
    match (List.finRange ninode).find? fun ip => (s.inode ip).ref == 0 with
    | some ip =>
      setInode ip fun i => { i with inum := inum, ref := 1, valid := false }
      return ip
    | none => throw .igetNoInodes

/-- The loop of `ialloc` over these inode numbers. -/
def iallocFrom (type : BitVec 16) : List Nat → FsM Slot
  | [] => throw .noInodes
  | inum :: rest => do
    let bp ← bread (sb.iblock inum)
    if (Dinode.load bp (inum % ipb)).type = 0 then
      logWrite (sb.iblock inum) ((Dinode.fresh type).store bp (inum % ipb))
      brelse (sb.iblock inum)
      iget inum
    else
      brelse (sb.iblock inum)
      iallocFrom type rest

def ialloc (type : BitVec 16) : FsM Slot :=
  iallocFrom sb type ((List.range sb.ninodes).drop 1)

def iupdate (ip : Slot) : FsM Unit := do
  let i ← inode ip
  let bp ← bread (sb.iblock i.inum)
  logWrite (sb.iblock i.inum) (i.node.store bp (i.inum % ipb))
  brelse (sb.iblock i.inum)

def idup (ip : Slot) : FsM Slot := do
  setInode ip fun i => { i with ref := i.ref + 1 }
  return ip

/-- `acquiresleep` of the lock of an inode. -/
def acquiresleep (me : Pslot) (ip : Slot) : FsM Unit := do
  let i ← inode ip
  if i.lock = none then
    setInode ip fun i => { i with lock := some me }
  else
    throw .blocked

def releasesleep (ip : Slot) : FsM Unit := setInode ip fun i => { i with lock := none }

def ilock (me : Pslot) (ip : Slot) : FsM Unit := do
  let i ← inode ip
  if i.ref < 1 then
    throw .ilock
  else
    acquiresleep me ip
    if i.valid then
      return
    else
      let bp ← bread (sb.iblock i.inum)
      let node := Dinode.load bp (i.inum % ipb)
      brelse (sb.iblock i.inum)
      setInode ip fun i => { i with node := node, valid := true }
      if node.type = 0 then
        throw .ilockNoType
      else
        return

def iunlock (me : Pslot) (ip : Slot) : FsM Unit := do
  let i ← inode ip
  if i.lock ≠ some me ∨ i.ref < 1 then
    throw .iunlock
  else
    releasesleep ip

/-- Assign to the fields of an inode that live on disk. -/
def setNode (ip : Slot) (change : Dinode → Dinode) : FsM Unit :=
  setInode ip fun i => { i with node := change i.node }

/-- The loop of `itrunc` over these direct blocks. -/
def truncDirect (ip : Slot) : List (Fin (ndirect + 1)) → FsM Unit
  | [] => return
  | k :: rest => do
    let i ← inode ip
    if i.node.addrs k ≠ 0 then
      bfree sb (i.node.addrs k).toNat
      setNode ip fun node => { node with addrs := update node.addrs k 0 }
      truncDirect ip rest
    else
      truncDirect ip rest

/-- `a[j]` of an indirect block. -/
def entryAt (j : Nat) : Nat := block.getLE (4 * j) 4

/-- The loop of `itrunc` over these entries of the indirect block. -/
def truncEntries (a : Block) : List Nat → FsM Unit
  | [] => return
  | j :: rest => do
    if entryAt a j ≠ 0 then
      bfree sb (entryAt a j)
      truncEntries a rest
    else
      truncEntries a rest

/-- `addrs[NDIRECT]`. -/
def indirect : Fin (ndirect + 1) := Fin.last ndirect

/-- The part of `itrunc` that frees the indirect block and what it lists. -/
def truncIndirect (ip : Slot) : FsM Unit := do
  let i ← inode ip
  if i.node.addrs indirect ≠ 0 then
    let a ← bread (i.node.addrs indirect).toNat
    truncEntries sb a (List.range nindirect)
    brelse (i.node.addrs indirect).toNat
    bfree sb (i.node.addrs indirect).toNat
    setNode ip fun node => { node with addrs := update node.addrs indirect 0 }
  else
    return

def itrunc (ip : Slot) : FsM Unit := do
  truncDirect sb ip ((List.finRange ndirect).map Fin.castSucc)
  truncIndirect sb ip
  setNode ip fun node => { node with size := 0 }
  iupdate sb ip

/-- The part of `iput` that truncates and frees an inode without links. -/
def ifree (me : Pslot) (ip : Slot) : FsM Unit := do
  acquiresleep me ip
  itrunc sb ip
  setNode ip fun node => { node with type := 0 }
  iupdate sb ip
  setInode ip fun i => { i with valid := false }
  releasesleep ip

/-- `iput` up to where it releases `icache.lock`, or up to its second `acquire` if it frees the
inode; `ref--` is then still to come. -/
def iputStart (me : Pslot) (ip : Slot) : FsM Bool := do
  let i ← inode ip
  if i.ref = 1 ∧ i.valid = true ∧ i.node.nlink = 0 then
    ifree sb me ip
    return true
  else
    setInode ip fun i => { i with ref := i.ref - 1 }
    return false

/-- The `ref--` of an `iput` that has freed the inode. -/
def iputEnd (ip : Slot) : FsM Unit := setInode ip fun i => { i with ref := i.ref - 1 }

def iput (me : Pslot) (ip : Slot) : FsM Unit := do
  if ← iputStart sb me ip then
    iputEnd ip
  else
    return

/-- The block address in `addrs[k]`, allocated if there is none. -/
def bmapAddr (ip : Slot) (k : Fin (ndirect + 1)) : FsM Nat := do
  let i ← inode ip
  if i.node.addrs k = 0 then
    let addr ← balloc sb
    setNode ip fun node => { node with addrs := update node.addrs k (.ofNat 32 addr) }
    return addr
  else
    return (i.node.addrs k).toNat

/-- The block address in `a[j]` of an indirect block, allocated if there is none. -/
def bmapEntry (b j : Nat) : FsM Nat := do
  let bp ← bread b
  if entryAt bp j = 0 then
    let addr ← balloc sb
    logWrite b (bp.putLE (4 * j) 4 addr)
    brelse b
    return addr
  else
    brelse b
    return entryAt bp j

def bmap (ip : Slot) (bn : Nat) : FsM Nat :=
  if direct : bn < ndirect then
    bmapAddr sb ip ⟨bn, Nat.lt_succ_of_lt direct⟩
  else if bn - ndirect < nindirect then do
    let addr ← bmapAddr sb ip indirect
    bmapEntry sb addr (bn - ndirect)
  else
    throw .bmapOutOfRange

/-- The loop of `readi`, given the bytes copied so far; a copy to the user fails when one of its
bytes is not `writable`. -/
def readLoop (ip : Slot) (writable : Nat → Bool) (n : Nat) :
    (fuel off : Nat) → List Byte → FsM (List Byte)
  | 0, _, bytes => return bytes
  | fuel + 1, off, bytes =>
    if bytes.length < n then do
      let addr ← bmap sb ip (off / bsize)
      let bp ← bread addr
      let m := min (n - bytes.length) (bsize - off % bsize)
      brelse addr
      if (List.range m).all fun j => writable (bytes.length + j) then
        readLoop ip writable n fuel (off + m)
          (bytes ++ (List.range m).map fun j => bp.byteAt (off % bsize + j))
      else
        return bytes
    else
      return bytes

/-- `readi`; its result is the bytes copied.  `off` and `n` are of type `uint`. -/
def readi (ip : Slot) (writable : Nat → Bool) (off n : Nat) : FsM (List Byte) := do
  let i ← inode ip
  let size := i.node.size.toNat
  if size < off ∨ (off + n) % 2 ^ 32 < off then
    return []
  else
    let n := if size < (off + n) % 2 ^ 32 then size - off else n
    readLoop sb ip writable n n off []

/-- Where `writei` copies from: kernel memory, or user memory whose pages may not all be mapped.  A
copy that fails leaves the bytes before the fault in a buffer that is not logged; `cached` says
whether it is still in the cache at the next read of the block. -/
inductive Source
  | kernel (bytes : Nat → Byte)
  | user (memory : Memory) (cached : Bool)

/-- The number of bytes from `tot` on that can be read before the first fault. -/
def readable (memory : Memory) (tot m : Nat) : Nat :=
  ((List.range m).takeWhile fun j => (memory (tot + j)).isSome).length

/-- `either_copyin` of `m` bytes into a buffer: whether it succeeds, and the contents after it. -/
def eitherCopyin (src : Source) (bp : Block) (start tot m : Nat) : Bool × Block :=
  match src with
  | .kernel bytes => (true, bp.splice start m fun j => bytes (tot + j))
  | .user memory cached =>
    let copied := readable memory tot m
    if copied = m then
      (true, bp.splice start m fun j => (memory (tot + j)).getD 0)
    else if cached then
      (false, bp.splice start copied fun j => (memory (tot + j)).getD 0)
    else
      (false, bp)

/-- Change the contents of a buffer without `log_write`. -/
def leaveBuffer (b : Nat) (block : Block) : FsM Unit := modify fun s => s.setBlock b block

/-- The loop of `writei`; its result is the value of `off` after it. -/
def writeLoop (ip : Slot) (src : Source) (n : Nat) : (fuel off tot : Nat) → FsM Nat
  | 0, off, _ => return off
  | fuel + 1, off, tot =>
    if tot < n then do
      let addr ← bmap sb ip (off / bsize)
      let bp ← bread addr
      let m := min (n - tot) (bsize - off % bsize)
      let copy := eitherCopyin src bp (off % bsize) tot m
      if copy.1 then
        logWrite addr copy.2
        brelse addr
        writeLoop ip src n fuel (off + m) (tot + m)
      else
        leaveBuffer addr copy.2
        brelse addr
        return off
    else
      return off

/-- `writei`, with `none` for -1.  `off` and `n` are of type `uint`. -/
def writei (ip : Slot) (src : Source) (off n : Nat) : FsM (Option Nat) := do
  let i ← inode ip
  if i.node.size.toNat < off ∨ (off + n) % 2 ^ 32 < off then
    return none
  else if maxfile * bsize < (off + n) % 2 ^ 32 then
    return none
  else
    let off ← writeLoop sb ip src n n off 0
    if 0 < n then
      setNode ip fun node =>
        if node.size.toNat < off then { node with size := .ofNat 32 off } else node
      iupdate sb ip
      return some n
    else
      return some n

/-- A name without its terminating 0. -/
abbrev Name := List Byte

/-- `struct dirent`, the name up to its first 0. -/
structure Dirent where
  inum : BitVec 16
  name : Name

/-- The entry in 16 bytes of a directory. -/
def Dirent.ofBytes (bytes : List Byte) : Dirent where
  inum := .ofNat 16 ((bytes.getD 0 0).toNat + 256 * (bytes.getD 1 0).toNat)
  name := (bytes.drop 2).takeWhile (· != 0)

/-- The bytes of an entry; `strncpy` fills up the name with 0. -/
def Dirent.bytes (de : Dirent) (j : Nat) : Byte :=
  if j = 0 then .ofNat 8 de.inum.toNat
  else if j = 1 then .ofNat 8 (de.inum.toNat / 256)
  else (de.name.take dirsiz).getD (j - 2) 0

/-- Read the entry at an offset. -/
def readDirent (dp : Slot) (off : Nat) (stop : Stop) : FsM Dirent := do
  let bytes ← readi sb dp (fun _ => true) off direntSize
  if bytes.length = direntSize then
    return .ofBytes bytes
  else
    throw stop

/-- The offsets that a loop over the entries of a directory of this size visits. -/
def offsets (start size : Nat) : List Nat :=
  (List.range ((size - start + (direntSize - 1)) / direntSize)).map (start + direntSize * ·)

def dirlookupFrom (dp : Slot) (name : Name) : List Nat → FsM (Option (Slot × Nat))
  | [] => return none
  | off :: rest => do
    let de ← readDirent sb dp off .dirlookupRead
    if de.inum = 0 then
      dirlookupFrom dp name rest
    else if name.take dirsiz = de.name then do
      let ip ← iget de.inum.toNat
      return some (ip, off)
    else
      dirlookupFrom dp name rest

/-- `dirlookup`: the inode with the offset of its entry. -/
def dirlookup (dp : Slot) (name : Name) : FsM (Option (Slot × Nat)) := do
  let d ← inode dp
  if d.node.type ≠ tDir then
    throw .dirlookupNotDir
  else
    dirlookupFrom sb dp name (offsets 0 d.node.size.toNat)

/-- The loop of `dirlink` for an empty entry; `last` is where it ends without one. -/
def emptyFrom (dp : Slot) (last : Nat) : List Nat → FsM Nat
  | [] => return last
  | off :: rest => do
    let de ← readDirent sb dp off .dirlinkRead
    if de.inum = 0 then
      return off
    else
      emptyFrom dp last rest

/-- Write an entry at an offset. -/
def writeDirent (dp : Slot) (de : Dirent) (off : Nat) (stop : Stop) : FsM Unit := do
  let written ← writei sb dp (.kernel de.bytes) off direntSize
  if written = some direntSize then
    return
  else
    throw stop

/-- `dirlink`: whether the entry was made. -/
def dirlink (me : Pslot) (dp : Slot) (name : Name) (inum : Nat) : FsM Bool := do
  match ← dirlookup sb dp name with
  | some (ip, _) =>
    iput sb me ip
    return false
  | none =>
    let d ← inode dp
    let size := d.node.size.toNat
    let last := direntSize * ((size + (direntSize - 1)) / direntSize)
    let off ← emptyFrom sb dp last (offsets 0 size)
    writeDirent sb dp ⟨.ofNat 16 inum, name⟩ off .dirlink
    return true

/-- The byte `/`. -/
def slash : Byte := 47

/-- The byte `.`. -/
def dot : Byte := 46

/-- `skipelem`: the next element of a path and the path after it. -/
def skipelem (path : List Byte) : Option (Name × List Byte) :=
  let start := path.dropWhile (· == slash)
  if start = [] then
    none
  else
    some ((start.takeWhile (· != slash)).take dirsiz,
      (start.dropWhile (· != slash)).dropWhile (· == slash))

/-- The part of `sys_link` that raises the link count; `false` for a directory. -/
def raiseLink (ip : Slot) : FsM Bool := do
  let i ← inode ip
  if i.node.type = tDir then
    return false
  else
    setNode ip fun node => { node with nlink := node.nlink + 1 }
    iupdate sb ip
    return true

/-- `ip->nlink--` and `iupdate(ip)`, in `sys_link` at `bad` and in `sys_unlink`. -/
def lowerLink (ip : Slot) : FsM Unit := do
  setNode ip fun node => { node with nlink := node.nlink - 1 }
  iupdate sb ip

def isdiremptyFrom (dp : Slot) : List Nat → FsM Bool
  | [] => return true
  | off :: rest => do
    let de ← readDirent sb dp off .isdiremptyReadi
    if de.inum ≠ 0 then
      return false
    else
      isdiremptyFrom dp rest

def isdirempty (dp : Slot) : FsM Bool := do
  let d ← inode dp
  isdiremptyFrom sb dp (offsets (2 * direntSize) d.node.size.toNat)

/-- The part of `sys_unlink` with both inodes locked: whether the entry was removed. -/
def unlinkEntry (dp ip : Slot) (off : Nat) : FsM Bool := do
  let i ← inode ip
  -- `nlink` is a `short`
  if i.node.nlink.toInt < 1 then
    throw .unlinkNlink
  else if i.node.type = tDir then
    if ← isdirempty sb ip then
      writeDirent sb dp ⟨0, []⟩ off .unlinkWritei
      setNode dp fun node => { node with nlink := node.nlink - 1 }
      iupdate sb dp
      return true
    else
      return false
  else
    writeDirent sb dp ⟨0, []⟩ off .unlinkWritei
    return true

/-- The entries `.` and `..` of a new directory. -/
def createDots (me : Pslot) (dp ip : Slot) : FsM Unit := do
  let i ← inode ip
  let d ← inode dp
  setNode dp fun node => { node with nlink := node.nlink + 1 }
  iupdate sb dp
  if ← dirlink sb me ip [dot] i.inum then
    if ← dirlink sb me ip [dot, dot] d.inum then
      return
    else
      throw .createDots
  else
    throw .createDots

/-- The part of `create` that sets up a new inode and its entry, with both inodes locked. -/
def createEntry (me : Pslot) (dp ip : Slot) (name : Name) (type major minor : BitVec 16) :
    FsM Unit := do
  setNode ip fun node => { node with major := major, minor := minor, nlink := 1 }
  iupdate sb ip
  let i ← inode ip
  if type = tDir then
    createDots sb me dp ip
  if ← dirlink sb me dp name i.inum then
    return
  else
    throw .createDirlink

/-- `begin_op`, when it has found room. -/
def beginOp : FsM Unit := modify fun s => { s with outstanding := s.outstanding + 1 }

/-- `commit`: the logged blocks become durable. -/
def State.commit (s : State) : State :=
  { s with
    logged := []
    durable := fun b => if b ∈ s.logged then s.disk b else s.durable b }

def endOp : FsM Unit := modify fun s =>
  if s.outstanding - 1 = 0 then State.commit { s with outstanding := 0 }
  else { s with outstanding := s.outstanding - 1 }

end OsLab.Fs
