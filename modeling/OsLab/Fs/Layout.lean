import OsLab.Fs.Model

/-!
# Reading back what is stored

Inodes, bits of the free map and entries of indirect blocks as fields of disk blocks: a store is
read back and disturbs no other field.  In a valid layout the inode blocks, the free map and the
data area are disjoint.
-/

namespace OsLab.Fs

open BitVec Nat

namespace Dinode

section

variable (node : Dinode)

theorem byteAt_store (block : Block) {slot j : Nat} (inside : slot < ipb) (low : j < 64) :
    (node.store block slot).byteAt (64 * slot + j) = node.bytes j := by
  have room : 64 * slot + j < bsize := by
    simp only [ipb, bsize] at *
    omega
  rw [store, Bytes.byteAt_splice _ _ _ _ room, if_pos (by omega), Nat.add_sub_cancel_left]

theorem getLE_store_outside {slot offset width : Nat} (block : Block)
    (outside : offset + width ≤ 64 * slot ∨ 64 * slot + 64 ≤ offset) :
    (node.store block slot).getLE offset width = block.getLE offset width :=
  Bytes.getLE_congr fun i lower upper => Bytes.byteAt_splice_outside _ _ (by omega)

/-- A word is read back from the bytes that it is stored in. -/
theorem ofNat_getLE_store (block : Block) {slot width bits : Nat} (start : Nat) (word : BitVec bits)
    (inside : slot < ipb) (low : start + width ≤ 64) (whole : 2 ^ bits = 256 ^ width)
    (stored : ∀ r < width, node.bytes (start + r) = Bytes.leByte word.toNat r) :
    .ofNat bits ((node.store block slot).getLE (64 * slot + start) width) = word := by
  have read : (node.store block slot).getLE (64 * slot + start) width =
      word.toNat % 256 ^ width := by
    refine Bytes.getLE_of_leByte fun r below => ?_
    rw [add_assoc, byteAt_store node block inside (by omega), stored r below]
  rw [read, ← whole, mod_eq_of_lt word.isLt, ofNat_toNat, setWidth_eq]

theorem bytes_addrs (i : Fin (ndirect + 1)) {r : Nat} (below : r < 4) :
    node.bytes (12 + 4 * i + r) = Bytes.leByte (node.addrs i).toNat r := by
  have quotient : (12 + 4 * i.val + r - 12) / 4 = i := by omega
  have remainder : (12 + 4 * i.val + r - 12) % 4 = r := by omega
  unfold bytes
  iterate 5 rw [if_neg (by omega)]
  rw [dif_pos (by rw [quotient]; exact i.isLt), remainder]
  simp only [quotient]

/-- An inode is read back from where it was stored. -/
theorem load_store_same (block : Block) {slot : Nat} (inside : slot < ipb) :
    load (node.store block slot) slot = node := by
  ext1
  case type =>
    refine ofNat_getLE_store node block 0 _ inside (by omega) (by norm_num) fun r below => ?_
    unfold bytes
    rw [if_pos (by omega), zero_add]
  case major =>
    refine ofNat_getLE_store node block 2 _ inside (by omega) (by norm_num) fun r below => ?_
    unfold bytes
    rw [if_neg (by omega), if_pos (by omega), Nat.add_sub_cancel_left]
  case minor =>
    refine ofNat_getLE_store node block 4 _ inside (by omega) (by norm_num) fun r below => ?_
    unfold bytes
    iterate 2 rw [if_neg (by omega)]
    rw [if_pos (by omega), Nat.add_sub_cancel_left]
  case nlink =>
    refine ofNat_getLE_store node block 6 _ inside (by omega) (by norm_num) fun r below => ?_
    unfold bytes
    iterate 3 rw [if_neg (by omega)]
    rw [if_pos (by omega), Nat.add_sub_cancel_left]
  case size =>
    refine ofNat_getLE_store node block 8 _ inside (by omega) (by norm_num) fun r below => ?_
    unfold bytes
    iterate 4 rw [if_neg (by omega)]
    rw [if_pos (by omega), Nat.add_sub_cancel_left]
  case addrs =>
    funext i
    have last := i.isLt
    simp only [ndirect] at last
    simp only [load, addrOffset, add_assoc]
    exact ofNat_getLE_store node block (12 + 4 * i) _ inside (by omega) (by norm_num)
      fun r below => bytes_addrs node i below

theorem load_store_other (block : Block) {slot other : Nat} (distinct : other ≠ slot) :
    load (node.store block slot) other = load block other := by
  have same : ∀ offset width, 64 * other ≤ offset → offset + width ≤ 64 * other + 64 →
      (node.store block slot).getLE offset width = block.getLE offset width :=
    fun offset width lower upper => getLE_store_outside _ _ (by omega)
  ext1
  case addrs =>
    funext i
    have index := i.isLt
    simp only [ndirect] at index
    simp only [load]
    rw [same _ _ (by simp only [addrOffset]; omega) (by simp only [addrOffset]; omega)]
  all_goals
    simp only [load]
    rw [same _ _ (by omega) (by omega)]

end

end Dinode

theorem mask_getLsbD (bi j : Nat) : (mask bi).getLsbD j = decide (j = bi % 8) := by
  have small : bi % 8 < 8 := mod_lt _ (by omega)
  simp only [mask, getLsbD_shiftLeft, getLsbD_one]
  by_cases same : j = bi % 8
  · simp [same, small]
  by_cases below : j < bi % 8
  · simp [below, same]
  · have : j - bi % 8 ≠ 0 := by omega
    simp [this, same]

theorem isFree_eq (block : Block) (bi : Nat) :
    isFree block bi = !(block.byteAt (bi / 8)).getLsbD (bi % 8) := by
  have small : bi % 8 < 8 := mod_lt _ (by omega)
  rw [isFree, Bool.eq_iff_iff, beq_iff_eq, Bool.not_eq_true']
  constructor
  · intro zero
    have bit := congrArg (fun byte => byte.getLsbD (bi % 8)) zero
    simpa [mask_getLsbD] using bit
  · intro clear
    refine eq_of_getLsbD_eq fun j _ => ?_
    by_cases same : j = bi % 8
    · subst same
      simp [clear]
    · simp [mask_getLsbD, same]

variable {bi other : Nat}

section

variable (block : Block) (inside : bi < bpb)
include block inside

/-- Writing a byte that differs in one bit changes that bit alone. -/
theorem isFree_setByte (byte : Byte)
    (rest : ∀ j < 8, j ≠ bi % 8 → byte.getLsbD j = (block.byteAt (bi / 8)).getLsbD j) :
    isFree (block.setByte (bi / 8) byte) other =
      if other = bi then !byte.getLsbD (bi % 8) else isFree block other := by
  by_cases here : other / 8 = bi / 8
  · have room : bi / 8 < bsize := by
      simp only [bpb, bsize] at *
      omega
    rw [isFree_eq, isFree_eq, here, Bytes.byteAt_setByte_same _ _ room]
    by_cases same : other = bi
    · simp [same]
    · rw [rest _ (mod_lt _ (by decide)) (by omega), if_neg same]
  · rw [isFree_eq, isFree_eq, Bytes.byteAt_setByte_ne _ _ here, if_neg]
    rintro rfl
    exact here rfl

theorem isFree_markUsed :
    isFree (markUsed block bi) other = if other = bi then false else isFree block other := by
  rw [markUsed, isFree_setByte block inside]
  · simp [mask_getLsbD]
  · intro j _ different
    simp [mask_getLsbD, different]

theorem isFree_markFree :
    isFree (markFree block bi) other = if other = bi then true else isFree block other := by
  rw [markFree, isFree_setByte block inside]
  · simp [mask_getLsbD]
  · intro j small different
    rw [getLsbD_and, getLsbD_not, mask_getLsbD]
    simp [different, small]

end

/-- Storing an entry of an indirect block changes that entry alone. -/
theorem entryAt_putLE (block : Block) {j other : Nat} {addr : Nat} (inside : j < nindirect)
    (word : addr < 2 ^ 32) :
    entryAt (block.putLE (4 * j) 4 addr) other =
      if other = j then addr else entryAt block other := by
  by_cases same : other = j
  · subst same
    have room : 4 * other + 4 ≤ bsize := by
      simp only [nindirect, bsize] at *
      omega
    rw [if_pos rfl, entryAt, Bytes.getLE_putLE _ _ room]
    exact mod_eq_of_lt (by simpa using word)
  · rw [if_neg same, entryAt, entryAt, Bytes.getLE_putLE_disjoint]
    omega

theorem entryAt_zero (j : Nat) : entryAt (fun _ => 0) j = 0 :=
  Bytes.getLE_zero _ _

namespace Superblock

/-- The first block of the data area. -/
def dataStart (sb : Superblock) : Nat := sb.size - sb.nblocks

/-- The block lies in the data area. -/
def InData (sb : Superblock) (b : Nat) : Prop := sb.dataStart ≤ b ∧ b < sb.size

/-- The areas lie one after another, as `mkfs` lays them out. -/
structure Valid (sb : Superblock) : Prop where
  root : rootino < sb.ninodes
  inodes : (sb.ninodes - 1) / ipb + sb.inodestart < sb.bmapstart
  bitmap : (sb.size - 1) / bpb + sb.bmapstart < sb.dataStart
  word : sb.size < 2 ^ 32
  inums : sb.ninodes ≤ 2 ^ 16

/-- The inodes on the disk after one of them is stored. -/
theorem load_store (sb : Superblock) (disk : Nat → Block) (node : Dinode) (m n : Nat) :
    Dinode.load (Function.update disk (sb.iblock n) (node.store (disk (sb.iblock n)) (n % ipb))
      (sb.iblock m)) (m % ipb) = if m = n then node else .load (disk (sb.iblock m)) (m % ipb) := by
  by_cases equal : m = n
  · rw [if_pos equal, equal, Function.update_self,
      Dinode.load_store_same _ _ (mod_lt _ (by decide))]
  rw [if_neg equal]
  by_cases same : sb.iblock m = sb.iblock n
  · rw [same, Function.update_self, Dinode.load_store_other]
    intro offset
    have quotients : m / ipb = n / ipb := add_right_cancel same
    exact equal (by rw [← div_add_mod m ipb, quotients, offset, div_add_mod])
  · rw [Function.update_of_ne same]

variable {sb : Superblock}

theorem Valid.bmapstart_lt (valid : sb.Valid) : sb.bmapstart < sb.dataStart :=
  lt_of_le_of_lt (le_add_left _ _) valid.bitmap

theorem Valid.iblock_lt (valid : sb.Valid) {n : Nat} (inside : n < sb.ninodes) :
    sb.iblock n < sb.bmapstart :=
  lt_of_le_of_lt (Nat.add_le_add_right (Nat.div_le_div_right (by omega)) _) valid.inodes

theorem Valid.bblock_lt (valid : sb.Valid) {b : Nat} (inside : b < sb.size) :
    sb.bblock b < sb.dataStart :=
  lt_of_le_of_lt (Nat.add_le_add_right (Nat.div_le_div_right (by omega)) _) valid.bitmap

theorem bmapstart_le_bblock (sb : Superblock) (b : Nat) : sb.bmapstart ≤ sb.bblock b :=
  le_add_left _ _

section

variable (valid : sb.Valid)
include valid

theorem Valid.iblock_ne_bblock {n b : Nat} (inside : n < sb.ninodes) : sb.iblock n ≠ sb.bblock b :=
  ((valid.iblock_lt inside).trans_le (sb.bmapstart_le_bblock b)).ne

theorem Valid.bblock_ne_data {b data : Nat} (inside : b < sb.size) (area : sb.InData data) :
    sb.bblock b ≠ data :=
  ((valid.bblock_lt inside).trans_le area.1).ne

theorem Valid.iblock_ne_data {n data : Nat} (inside : n < sb.ninodes) (area : sb.InData data) :
    sb.iblock n ≠ data :=
  ((valid.iblock_lt inside).trans (valid.bmapstart_lt.trans_le area.1)).ne

theorem Valid.not_inData_zero : ¬ sb.InData 0 := by
  rintro ⟨lower, -⟩
  have := valid.bmapstart_lt
  omega

end

end Superblock

end OsLab.Fs
