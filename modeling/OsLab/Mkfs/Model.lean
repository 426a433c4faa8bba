import OsLab.Fs.Model
import OsLab.Log.Model

/-!
# `mkfs`

The program that writes the image of a new file system, with the image file as its state.  An input
file comes with the pieces in which `read` returns its contents.  `rsect` past the end of the image
ends the program, which is all that keeps `freeblock` within it; a failing `lseek` or `write` would
end it in the same way and is left out.  Beside the state stand the numbers that `ialloc` has
returned and the sectors that `winode` has written.
-/

namespace OsLab.Mkfs

open Fs

def ninodes : Nat := 200

def fssize : Nat := 1000

def nbitmap : Nat := fssize / (bsize * 8) + 1

def ninodeblocks : Nat := ninodes / ipb + 1

def nlog : Nat := logSize

def nmeta : Nat := 2 + nlog + ninodeblocks + nbitmap

def nblocks : Nat := fssize - nmeta

def sb : Superblock where
  size := fssize
  nblocks := nblocks
  ninodes := ninodes
  inodestart := 2 + nlog
  bmapstart := 2 + nlog + ninodeblocks

def fsmagic : Nat := 0x10203040

/-- The block that holds `sb`. -/
def superblock : Block :=
  let block : Block := fun _ => 0
  let block := block.putLE 0 4 fsmagic
  let block := block.putLE 4 4 sb.size
  let block := block.putLE 8 4 sb.nblocks
  let block := block.putLE 12 4 sb.ninodes
  let block := block.putLE 16 4 nlog
  let block := block.putLE 20 4 2
  let block := block.putLE 24 4 sb.inodestart
  block.putLE 28 4 sb.bmapstart

/-- The image file as sectors of which it has `count`, and the program's variables. -/
structure Image where
  sector : Nat → Block
  count : Nat
  freeinode : Nat
  freeblock : Nat
  /-- What `ialloc` has returned. -/
  inums : List Nat
  /-- Where `winode` has written. -/
  inodeBlocks : List Nat

/-- The ways in which `mkfs` ends other than by `exit(0)`. -/
inductive Exit
  | failure
  | assertion
deriving DecidableEq

/-- Code of `mkfs`. -/
abbrev MkfsM := Act Image Exit

/-- The state when the image file has been opened and `freeblock` set. -/
def start : Image := ⟨fun _ _ => 0, 0, 1, nmeta, [], []⟩

/-- The position of a sector: `sec * BSIZE` is computed in 32 bits. -/
def seek (sec : Nat) : Nat := sec % 2 ^ 22

def wsect (sec : Nat) (buf : Block) : MkfsM Unit := modify fun t =>
  { t with
    sector := Function.update t.sector (seek sec) buf
    count := max t.count (seek sec + 1) }

def rsect (sec : Nat) : MkfsM Block := do
  let t ← get
  if seek sec < t.count then
    return t.sector (seek sec)
  else
    throw .failure

def winode (inum : Nat) (ip : Dinode) : MkfsM Unit := do
  let bn := sb.iblock inum
  let buf ← rsect bn
  wsect bn (ip.store buf (inum % ipb))
  modify fun t => { t with inodeBlocks := bn :: t.inodeBlocks }

def rinode (inum : Nat) : MkfsM Dinode := do
  let buf ← rsect (sb.iblock inum)
  return Dinode.load buf (inum % ipb)

def ialloc (type : BitVec 16) : MkfsM Nat := do
  let inum := (← get).freeinode
  modify fun t => { t with freeinode := t.freeinode + 1 }
  winode inum { Dinode.fresh type with nlink := 1 }
  modify fun t => { t with inums := inum :: t.inums }
  return inum

/-- The bitmap with the first `used` blocks marked. -/
def bitmap (used : Nat) : Block := (List.range used).foldl markUsed fun _ => 0

def balloc (used : Nat) : MkfsM Unit :=
  if used < bsize * 8 then
    wsect sb.bmapstart (bitmap used)
  else
    throw .assertion

/-- `freeblock++`. -/
def newBlock : MkfsM Nat := do
  let b := (← get).freeblock
  modify fun t => { t with freeblock := t.freeblock + 1 }
  return b

/-- `din.addrs[k]`, a new block if it is 0. -/
def addrFor (din : Dinode) (k : Fin (ndirect + 1)) : MkfsM Dinode :=
  if din.addrs k = 0 then do
    let b ← newBlock
    return { din with addrs := Function.update din.addrs k (.ofNat 32 b) }
  else
    return din

/-- `indirect[j]` of the indirect block `b`, a new block if it is 0. -/
def entryFor (b j : Nat) : MkfsM Nat := do
  let indirect ← rsect b
  if entryAt indirect j = 0 then
    let new ← newBlock
    wsect b (indirect.putLE (4 * j) 4 new)
    return entryAt (indirect.putLE (4 * j) 4 new) j
  else
    return entryAt indirect j

/-- The part of `iappend` that finds the sector `x` of block `fbn`, with the inode after it. -/
def blockFor (din : Dinode) (fbn : Nat) : MkfsM (Dinode × Nat) :=
  if direct : fbn < ndirect then do
    let din ← addrFor din ⟨fbn, Nat.lt_succ_of_lt direct⟩
    return (din, (din.addrs ⟨fbn, Nat.lt_succ_of_lt direct⟩).toNat)
  else do
    let din ← addrFor din indirect
    let x ← entryFor (din.addrs indirect).toNat (fbn - ndirect)
    return (din, x)

/-- The loop of `iappend`; `p` is what is still to be written. -/
def appendLoop : (fuel : Nat) → Dinode → (off : Nat) → (p : List Byte) →
    MkfsM (Dinode × Nat)
  | 0, din, off, _ => return (din, off)
  | fuel + 1, din, off, p =>
    if p = [] then
      return (din, off)
    else if maxfile ≤ off / bsize then
      throw .assertion
    else do
      let found ← blockFor din (off / bsize)
      let n1 := min p.length ((off / bsize + 1) * bsize - off)
      let buf ← rsect found.2
      wsect found.2 (buf.splice (off - off / bsize * bsize) n1 fun j => p.getD j 0)
      appendLoop fuel found.1 (off + n1) (p.drop n1)

def iappend (inum : Nat) (p : List Byte) : MkfsM Unit := do
  let din ← rinode inum
  let last ← appendLoop p.length din din.size.toNat p
  winode inum { last.1 with size := .ofNat 32 last.2 }

/-- What one call of `read` returns. -/
abbrev Chunk := { bytes : List Byte // 0 < bytes.length ∧ bytes.length ≤ bsize }

/-- An argument of `mkfs`, without its terminating 0, and the pieces that `read` returns of the
file, or `none` if `open` fails. -/
structure Input where
  argv : List Byte
  proper : 0 ∉ argv
  chunks : Option (List Chunk)

theorem proper_a : (0 : Byte) ∉ [97] := by decide

/-- The bytes of `user/`. -/
def user : List Byte := [117, 115, 101, 114, 47]

/-- The name without `user/`. -/
def Input.shortname (file : Input) : Name :=
  if file.argv.take 5 = user then file.argv.drop 5 else file.argv

/-- The byte `_`. -/
def underscore : Byte := 95

/-- The name without a leading `_`. -/
def Input.name (file : Input) : Name :=
  if file.shortname.head? = some underscore then file.shortname.drop 1 else file.shortname

def direntBytes (inum : Nat) (name : Name) : List Byte :=
  (List.range direntSize).map (Dirent.bytes ⟨.ofNat 16 inum, name⟩)

/-- The loop of `main` over the pieces of a file. -/
def appendAll (inum : Nat) : List Chunk → MkfsM Unit
  | [] => return
  | chunk :: rest => do
    iappend inum chunk.val
    appendAll inum rest

/-- The loop of `main` over the files. -/
def addFiles (root : Nat) : List Input → MkfsM Unit
  | [] => return
  | file :: rest =>
    if slash ∈ file.shortname then
      throw .assertion
    else
      match file.chunks with
      | none => throw .failure
      | some chunks => do
        let inum ← ialloc tFile
        iappend root (direntBytes inum file.name)
        appendAll inum chunks
        addFiles root rest

/-- The first sectors of the image are written with zeroes. -/
def wipe : (count : Nat) → MkfsM Unit
  | 0 => return
  | count + 1 => do
    wipe count
    wsect count fun _ => 0

/-- The size of the root directory, rounded up past its last entry. -/
def fixSize (root : Nat) : MkfsM Unit := do
  let din ← rinode root
  winode root { din with size := .ofNat 32 ((din.size.toNat / bsize + 1) * bsize) }

/-- `main`, from where the image file is open. -/
def main (files : List Input) : MkfsM Unit := do
  wipe fssize
  wsect 1 superblock
  let root ← ialloc tDir
  if root = rootino then
    iappend root (direntBytes root [dot])
    iappend root (direntBytes root [dot, dot])
    addFiles root files
    fixSize root
    balloc (← get).freeblock
  else
    throw .assertion

end OsLab.Mkfs
