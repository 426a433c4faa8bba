import OsLab.Lib.Bytes
import OsLab.Log.Model

/-!
# The header block of the log

`struct logheader` overlaid on a disk block: the count in the first word and the block numbers
in the words after it.  Writing a header leaves the stale words behind its entries in place.
-/

namespace OsLab

def bsize : Nat := 1024

/-- The contents of one disk block. -/
abbrev Block := Bytes bsize

namespace LogHeader

/-- The byte offset of `block[i]` in `struct logheader`. -/
def entryOffset (i : Nat) : Nat := 4 + 4 * i

/-- `hb->block[i] = lh.block[i]` for the first `count` entries. -/
def putEntries (lh : LogHeader) : (count : Nat) → Block → Block
  | 0, buf => buf
  | count + 1, buf => (lh.putEntries count buf).putLE (entryOffset count) 4 (lh.block count)

/-- The stores of `write_head` into the header block. -/
def store (lh : LogHeader) (buf : Block) : Block := lh.putEntries lh.n (buf.putLE 0 4 lh.n)

/-- The loads of `read_head` from the header block over the header in memory. -/
def load (old : LogHeader) (buf : Block) : LogHeader where
  n := buf.getLE 0 4
  block i := if i < buf.getLE 0 4 then buf.getLE (entryOffset i) 4 else old.block i

theorem getLE_putEntries_count (lh : LogHeader) (count : Nat) (buf : Block) :
    (lh.putEntries count buf).getLE 0 4 = buf.getLE 0 4 := by
  induction count with
  | zero => rfl
  | succ count ih =>
    rw [putEntries, Bytes.getLE_putLE_disjoint _ _ (by simp [entryOffset]), ih]

theorem getLE_putEntries (lh : LogHeader) {count i : Nat} (buf : Block) (listed : i < count)
    (fits : count ≤ logSize) (word : lh.block i < 2 ^ 32) :
    (lh.putEntries count buf).getLE (entryOffset i) 4 = lh.block i := by
  induction count with
  | zero => omega
  | succ count ih =>
    rw [putEntries]
    rcases Nat.lt_succ_iff_lt_or_eq.mp listed with earlier | rfl
    · rw [Bytes.getLE_putLE_disjoint _ _ (by simp only [entryOffset]; omega)]
      exact ih earlier (by omega)
    · rw [Bytes.getLE_putLE _ _
        (by simp only [entryOffset, bsize, logSize, maxOpBlocks] at *; omega)]
      exact Nat.mod_eq_of_lt word

/-- The header that is read back from a written header block. -/
theorem load_store {lh : LogHeader} (fits : lh.n ≤ logSize)
    (words : ∀ b ∈ lh.entries, b < 2 ^ 32) (old : LogHeader) (buf : Block) :
    (old.load (lh.store buf)).n = lh.n ∧ (old.load (lh.store buf)).entries = lh.entries := by
  have count : (lh.store buf).getLE 0 4 = lh.n := by
    rw [store, getLE_putEntries_count, Bytes.getLE_putLE _ _ (by decide)]
    exact Nat.mod_eq_of_lt (by simp only [logSize, maxOpBlocks] at fits; omega)
  refine ⟨count, ?_⟩
  simp only [entries, load, count]
  refine List.map_congr_left fun i listed => ?_
  have i_lt := List.mem_range.mp listed
  rw [if_pos i_lt]
  exact getLE_putEntries lh _ i_lt fits
    (words _ (List.mem_map.mpr ⟨i, listed, rfl⟩))

theorem load_store_zero (lh old : LogHeader) (buf : Block) :
    (old.load (({ lh with n := 0 } : LogHeader).store buf)).n = 0 := by
  change (buf.putLE 0 4 0).getLE 0 4 = 0
  rw [Bytes.getLE_putLE _ _ (by decide)]
  rfl

end LogHeader

end OsLab
