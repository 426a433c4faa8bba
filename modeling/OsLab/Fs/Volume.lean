import OsLab.Fs.Layout
import OsLab.Lib.Owned

/-!
# Volumes

What a disk and the cached inodes amount to.  A place is a slot for a block address: one of the
`addrs` of an inode or an entry of its indirect block.  A sound volume owns its blocks, has the
blocks before the data area marked, and has files without holes and directories of proper inode
numbers.
-/

namespace OsLab.Fs

open Function

/-- Inodes, free map and contents of the blocks. -/
structure Volume where
  node : Nat → Dinode
  used : Nat → Bool
  block : Nat → Block

def volumeOf (sb : Superblock) (disk : Nat → Block) : Volume where
  node n := Dinode.load (disk (sb.iblock n)) (n % ipb)
  used b := !isFree (disk (sb.bblock b)) (b % bpb)
  block := disk

/-- The address in slot `k` of an inode: those of `addrs` and then those of its indirect block. -/
def Dinode.pointer (node : Dinode) (block : Nat → Block) (k : Nat) : Nat :=
  if inside : k < ndirect + 1 then (node.addrs ⟨k, inside⟩).toNat
  else if node.addrs indirect ≠ 0 ∧ k < ndirect + 1 + nindirect then
    entryAt (block (node.addrs indirect).toNat) (k - (ndirect + 1))
  else 0

/-- The slot for block `bn` of a file. -/
def place (bn : Nat) : Nat := if bn < ndirect then bn else bn + 1

theorem place_ne_ndirect (bn : Nat) : place bn ≠ ndirect := by
  unfold place
  split <;> omega

theorem place_injective {bn other : Nat} (same : place bn = place other) : bn = other := by
  unfold place at same
  split at same <;> split at same <;> omega

theorem div_mod_bsize {off j : Nat} (within : off % bsize + j < bsize) :
    (off + j) / bsize = off / bsize ∧ (off + j) % bsize = off % bsize + j := by
  simp only [bsize] at *
  omega

namespace Volume

variable {sb : Superblock}

/-- The address that a place of an allocated inode holds. -/
def held (sb : Superblock) (v : Volume) (p : Nat × Nat) : Nat :=
  if p.1 < sb.ninodes ∧ (v.node p.1).type ≠ 0 then (v.node p.1).pointer v.block p.2 else 0

variable (v : Volume)

/-- Change the mark of a block. -/
def mark (b : Nat) (flag : Bool) : Volume :=
  { v with used := update v.used b flag }

/-- Change the contents of a block. -/
def setBlock (b : Nat) (block : Block) : Volume :=
  { v with block := update v.block b block }

/-- Change an inode. -/
def setNode (n : Nat) (node : Dinode) : Volume :=
  { v with node := update v.node n node }

/-- Byte `j` of the contents of an inode. -/
def byte (sb : Superblock) (v : Volume) (n j : Nat) : Byte :=
  (v.block (v.held sb (n, place (j / bsize)))).byteAt (j % bsize)

/-- Entry `k` of a directory. -/
def dirent (sb : Superblock) (v : Volume) (n k : Nat) : Dirent :=
  .ofBytes ((List.range direntSize).map fun j => v.byte sb n (direntSize * k + j))

theorem dirent_congr {v w : Volume} {n m k : Nat}
    (same : ∀ j, j < direntSize → w.byte sb m (direntSize * k + j) =
      v.byte sb n (direntSize * k + j)) : w.dirent sb m k = v.dirent sb n k := by
  unfold dirent
  congr 1
  exact List.map_congr_left fun j listed => same j (List.mem_range.1 listed)

variable {n : Nat}

theorem held_of_allocated (inside : n < sb.ninodes) (allocated : (v.node n).type ≠ 0)
    (k : Nat) : v.held sb (n, k) = (v.node n).pointer v.block k :=
  if_pos ⟨inside, allocated⟩

theorem held_addr (inside : n < sb.ninodes) (allocated : (v.node n).type ≠ 0)
    (k : Fin (ndirect + 1)) : v.held sb (n, k) = ((v.node n).addrs k).toNat := by
  rw [held_of_allocated v inside allocated, Dinode.pointer, dif_pos k.isLt]

/-- No inode has the block as its indirect block. -/
def NotIndirect (sb : Superblock) (v : Volume) (b : Nat) : Prop :=
  ∀ n, v.held sb (n, ndirect) ≠ 0 → v.held sb (n, ndirect) ≠ b

variable {v : Volume}

theorem held_setBlock {b : Nat} (plain : v.NotIndirect sb b) (block : Block) :
    (v.setBlock b block).held sb = v.held sb := by
  funext p
  simp only [held, setBlock]
  refine if_ctx_congr .rfl (fun allocated => ?_) fun _ => rfl
  simp only [Dinode.pointer]
  split
  · rfl
  refine if_ctx_congr .rfl (fun inside => ?_) fun _ => rfl
  have pointer := held_addr v allocated.1 allocated.2 indirect
  have holds : v.held sb (p.1, ndirect) ≠ 0 := by
    rw [show ndirect = (indirect : Fin (ndirect + 1)).val from rfl, pointer]
    intro zero
    exact inside.1 (BitVec.eq_of_toNat_eq zero)
  have distinct := plain p.1 holds
  rw [show ndirect = (indirect : Fin (ndirect + 1)).val from rfl, pointer] at distinct
  rw [update_of_ne distinct]

/-- Fields other than the type and the addresses hold no addresses. -/
theorem held_setNode_same {node : Dinode} (addrs : node.addrs = (v.node n).addrs)
    (type : node.type = 0 ↔ (v.node n).type = 0) : (v.setNode n node).held sb = v.held sb := by
  funext p
  obtain ⟨m, k⟩ := p
  by_cases same : m = n
  · subst same
    simp only [held, setNode, update_self, Dinode.pointer, addrs, ne_eq, type]
  · simp only [held, setNode, update_of_ne same]

/-- An inode without addresses can be allocated or freed. -/
theorem held_setNode_empty {node : Dinode} (none : ∀ k, node.addrs k = 0)
    (before : ∀ k, v.held sb (n, k) = 0) : (v.setNode n node).held sb = v.held sb := by
  funext p
  obtain ⟨m, k⟩ := p
  by_cases same : m = n
  · subst same
    rw [before k]
    simp only [held, setNode, update_self, Dinode.pointer, none]
    simp
  · simp only [held, setNode, update_of_ne same]

theorem held_setNode_direct (inside : n < sb.ninodes) (allocated : (v.node n).type ≠ 0)
    {k : Fin (ndirect + 1)} (direct : k ≠ indirect) (addr : BitVec 32) :
    (v.setNode n { v.node n with addrs := update (v.node n).addrs k addr }).held sb =
      update (v.held sb) (n, k.val) addr.toNat := by
  funext p
  obtain ⟨m, j⟩ := p
  by_cases same : m = n
  · subst same
    by_cases slot : j = k.val
    · subst slot
      rw [update_self, held_addr]
      · simp [setNode]
      · exact inside
      · simpa [setNode] using allocated
    · rw [update_of_ne (by simpa using slot)]
      simp only [held, setNode, update_self, Dinode.pointer, update_of_ne direct.symm]
      refine if_congr .rfl ?_ rfl
      split
      · rename_i low
        rw [update_of_ne]
        rintro rfl
        exact slot rfl
      · rfl
  · rw [update_of_ne (by simp [same])]
    simp only [held, setNode, update_of_ne same]

theorem held_setNode_indirect (inside : n < sb.ninodes) (allocated : (v.node n).type ≠ 0)
    (none : (v.node n).addrs indirect = 0) {addr : BitVec 32}
    (zeroed : v.block addr.toNat = fun _ => 0) :
    (v.setNode n { v.node n with addrs := update (v.node n).addrs indirect addr }).held sb =
      update (v.held sb) (n, ndirect) addr.toNat := by
  funext p
  obtain ⟨m, j⟩ := p
  by_cases same : m = n
  · subst same
    by_cases slot : j = ndirect
    · subst slot
      rw [update_self]
      refine (held_addr _ inside ?_ indirect).trans ?_
      · simpa [setNode] using allocated
      · simp [setNode]
    · rw [update_of_ne (by simpa using slot)]
      simp only [held, setNode, update_self, Dinode.pointer]
      refine if_congr .rfl ?_ rfl
      split
      · rw [update_of_ne]
        exact fun last => slot (congrArg Fin.val last)
      · simp only [none, zeroed, entryAt_zero, ne_eq, not_true_eq_false,
          false_and, if_false, ite_self]
  · rw [update_of_ne (by simp [same])]
    simp only [held, setNode, update_of_ne same]

theorem held_setBlock_entry {n j : Nat}
    (once : ∀ p q, v.held sb p ≠ 0 → v.held sb p = v.held sb q → p = q) (inside : n < sb.ninodes)
    (allocated : (v.node n).type ≠ 0) (has : (v.node n).addrs indirect ≠ 0)
    (bounded : j < nindirect) {addr : Nat} (word : addr < 2 ^ 32) :
    (v.setBlock ((v.node n).addrs indirect).toNat
      ((v.block ((v.node n).addrs indirect).toNat).putLE (4 * j) 4 addr)).held sb =
      update (v.held sb) (n, ndirect + 1 + j) addr := by
  have pointer : v.held sb (n, ndirect) = ((v.node n).addrs indirect).toNat :=
    held_addr v inside allocated indirect
  have nonzero : ((v.node n).addrs indirect).toNat ≠ 0 := fun zero =>
    has (BitVec.eq_of_toNat_eq zero)
  funext p
  obtain ⟨m, k⟩ := p
  by_cases same : m = n
  · subst same
    by_cases low : k < ndirect + 1
    · rw [update_of_ne (by simp; omega)]
      simp only [held, setBlock, Dinode.pointer, dif_pos low]
    simp only [held, setBlock, Dinode.pointer, dif_neg low, if_pos (And.intro inside allocated),
      update_self]
    by_cases slot : k = ndirect + 1 + j
    · subst slot
      rw [update_self, if_pos ⟨has, by omega⟩, entryAt_putLE _ bounded word, if_pos (by omega)]
    · rw [update_of_ne (by simpa using slot)]
      refine Eq.trans ?_ (if_pos ⟨inside, allocated⟩).symm
      have distinct : k - (ndirect + 1) ≠ j := by omega
      simp only [Dinode.pointer, dif_neg low, entryAt_putLE _ bounded word, if_neg distinct]
  · rw [update_of_ne (by simp [same])]
    simp only [held, setBlock]
    refine if_ctx_congr .rfl (fun other => ?_) fun _ => rfl
    simp only [Dinode.pointer]
    split
    · rfl
    refine if_ctx_congr .rfl (fun high => ?_) fun _ => rfl
    have otherPointer : v.held sb (m, ndirect) = ((v.node m).addrs indirect).toNat :=
      held_addr v other.1 other.2 indirect
    rw [update_of_ne]
    intro equal
    have one := once (m, ndirect) (n, ndirect) (by rw [otherPointer, equal]; exact nonzero)
      (by rw [otherPointer, equal, pointer])
    exact same (congrArg Prod.fst one)

end Volume

/-- The first `len` bytes of a file: no more than the format allows and without holes; the entries
of a directory name inodes of the disk. -/
structure FileOk (sb : Superblock) (v : Volume) (n len : Nat) : Prop where
  bounded : len ≤ maxfile * bsize
  mapped : ∀ bn, bn * bsize < len → v.held sb (n, place bn) ≠ 0
  entries : (v.node n).type = tDir → ∀ k, direntSize * (k + 1) ≤ len →
    (v.dirent sb n k).inum.toNat < sb.ninodes

/-- The volume owns its blocks, keeps those before the data area, and its files are in order but for
the torn ones. -/
structure Sound (sb : Superblock) (v : Volume) (torn : Set Nat) : Prop where
  owned : Owned sb.InData (v.held sb) v.used
  reserved : ∀ b, b < sb.dataStart → v.used b = true
  files : ∀ n, n < sb.ninodes → n ∉ torn → (v.node n).type ≠ 0 → FileOk sb v n (v.node n).size.toNat

namespace Sound

variable {sb : Superblock} {v : Volume} {torn : Set Nat}

theorem notIndirect_of_unmarked (sound : Sound sb v torn) {b : Nat} (unmarked : v.used b = false) :
    v.NotIndirect sb b :=
  fun _ holds => sound.owned.ne_of_unmarked unmarked holds

theorem notIndirect_place (sound : Sound sb v torn) (n bn : Nat) :
    v.NotIndirect sb (v.held sb (n, place bn)) := by
  intro m holds same
  have once := sound.owned.once _ _ holds same
  exact place_ne_ndirect bn (congrArg Prod.snd once).symm

theorem relax (sound : Sound sb v torn) {more : Set Nat} (le : torn ⊆ more) : Sound sb v more :=
  ⟨sound.owned, sound.reserved,
    fun n inside whole => sound.files n inside fun old => whole (le old)⟩

end Sound

/-- The volume has gained blocks: nothing that was held moves or changes. -/
structure Grown (sb : Superblock) (v w : Volume) : Prop where
  node : ∀ m, w.node m = { v.node m with addrs := (w.node m).addrs }
  held : ∀ p, v.held sb p ≠ 0 → w.held sb p = v.held sb p
  block : ∀ m bn, v.held sb (m, place bn) ≠ 0 →
    w.block (v.held sb (m, place bn)) = v.block (v.held sb (m, place bn))

namespace Grown

variable {sb : Superblock} {v w x : Volume}

section

variable (grown : Grown sb v w)
include grown

theorem type (m : Nat) : (w.node m).type = (v.node m).type := by
  rw [grown.node m]

theorem size (m : Nat) : (w.node m).size = (v.node m).size := by
  rw [grown.node m]

theorem byte {n len j : Nat} (file : FileOk sb v n len) (below : j < len) :
    w.byte sb n j = v.byte sb n j := by
  have holds := file.mapped (j / bsize) (lt_of_le_of_lt (Nat.div_mul_le_self j bsize) below)
  rw [Volume.byte, grown.held _ holds, grown.block n _ holds, Volume.byte]

theorem dirent {n len k : Nat} (file : FileOk sb v n len) (below : direntSize * (k + 1) ≤ len) :
    w.dirent sb n k = v.dirent sb n k :=
  Volume.dirent_congr fun j inside => grown.byte file (by rw [mul_add] at below; omega)

theorem fileOk {n len : Nat} (file : FileOk sb v n len) : FileOk sb w n len where
  bounded := file.bounded
  mapped bn below := by
    have holds := file.mapped bn below
    rwa [grown.held _ holds]
  entries dir k below := by
    rw [grown.type n] at dir
    rw [grown.dirent file below]
    exact file.entries dir k below

end

end Grown

/-- An unmarked block is taken into an empty place. -/
theorem Sound.take {sb : Superblock} {v w : Volume} {torn : Set Nat} (sound : Sound sb v torn)
    {b : Nat} {p : Nat × Nat} (area : sb.InData b) (unmarked : v.used b = false)
    (empty : v.held sb p = 0) (used : w.used = update v.used b true)
    (held : w.held sb = update (v.held sb) p b)
    (node : ∀ m, w.node m = { v.node m with addrs := (w.node m).addrs })
    (block : ∀ m bn, v.held sb (m, place bn) ≠ 0 →
      w.block (v.held sb (m, place bn)) = v.block (v.held sb (m, place bn))) :
    Sound sb w torn ∧ Grown sb v w := by
  have grown : Grown sb v w := by
    refine ⟨node, fun q holds => ?_, block⟩
    rw [held, update_of_ne]
    rintro rfl
    exact holds empty
  refine ⟨⟨?_, fun c below => ?_, fun n inside whole allocated => ?_⟩, grown⟩
  · rw [held, used]
    exact sound.owned.take area unmarked empty
  · rw [used, update_apply]
    split
    · rfl
    · exact sound.reserved c below
  · rw [grown.type n] at allocated
    rw [grown.size n]
    exact grown.fileOk (sound.files n inside whole allocated)

end OsLab.Fs
