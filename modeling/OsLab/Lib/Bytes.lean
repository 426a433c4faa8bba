import Mathlib

/-!
# Little-endian fields of byte arrays

Arrays of bytes of a fixed size, with the numbers that are stored in them at byte offsets, low
byte first.  Fields at disjoint offsets do not disturb each other.
-/

namespace OsLab

abbrev Byte := BitVec 8

/-- The byte at each address of a user that can be read. -/
abbrev Memory := Nat → Option Byte

/-- An array of `size` bytes. -/
abbrev Bytes (size : Nat) := Fin size → Byte

namespace Bytes

variable {size : Nat} {offset : Nat}

/-- The byte at an offset, and 0 outside the array. -/
def byteAt (bytes : Bytes size) (offset : Nat) : Byte :=
  if inside : offset < size then bytes ⟨offset, inside⟩ else 0

/-- Store one byte; outside the array nothing happens. -/
def setByte (bytes : Bytes size) (offset : Nat) (byte : Byte) : Bytes size :=
  fun i => if i.val = offset then byte else bytes i

/-- The number in the `width` bytes from `offset` on. -/
def getLE (bytes : Bytes size) (offset : Nat) : (width : Nat) → Nat
  | 0 => 0
  | width + 1 => (bytes.byteAt offset).toNat + 256 * bytes.getLE (offset + 1) width

/-- Store the low `width` bytes of a number from `offset` on. -/
def putLE (bytes : Bytes size) (offset : Nat) : (width value : Nat) → Bytes size
  | 0, _ => bytes
  | width + 1, value =>
    (bytes.setByte offset (.ofNat 8 value)).putLE (offset + 1) width (value / 256)

/-- Byte `r` of a number. -/
def leByte (value r : Nat) : Byte := .ofNat 8 (value / 256 ^ r)

/-- Overwrite `count` bytes from `start` on. -/
def splice (bytes : Bytes size) (start count : Nat) (source : Nat → Byte) : Bytes size :=
  fun i => if start ≤ i.val ∧ i.val < start + count then source (i.val - start) else bytes i

theorem byteAt_setByte_same (bytes : Bytes size) (byte : Byte) (inside : offset < size) :
    (bytes.setByte offset byte).byteAt offset = byte := by
  simp [byteAt, setByte, inside]

theorem byteAt_setByte_ne (bytes : Bytes size) {other : Nat} (byte : Byte)
    (distinct : other ≠ offset) :
    (bytes.setByte offset byte).byteAt other = bytes.byteAt other := by
  simp [byteAt, setByte, distinct]

theorem byteAt_putLE_outside (bytes : Bytes size) {width other : Nat} (value : Nat)
    (outside : other < offset ∨ offset + width ≤ other) :
    (bytes.putLE offset width value).byteAt other = bytes.byteAt other := by
  induction width generalizing bytes offset value with
  | zero => rfl
  | succ width ih =>
    rw [putLE, ih _ _ (by omega), byteAt_setByte_ne _ _ (by omega)]

variable {width : Nat}

theorem getLE_congr {bytes others : Bytes size}
    (same : ∀ i, offset ≤ i → i < offset + width → bytes.byteAt i = others.byteAt i) :
    bytes.getLE offset width = others.getLE offset width := by
  induction width generalizing offset with
  | zero => rfl
  | succ width ih =>
    rw [getLE, getLE, same offset le_rfl (by omega),
      ih fun i lower upper => same i (by omega) (by omega)]

/-- A field is not disturbed by a store elsewhere. -/
theorem getLE_putLE_disjoint (bytes : Bytes size) {width other otherWidth : Nat} (value : Nat)
    (disjoint : other + otherWidth ≤ offset ∨ offset + width ≤ other) :
    (bytes.putLE offset width value).getLE other otherWidth = bytes.getLE other otherWidth :=
  getLE_congr fun i lower upper => byteAt_putLE_outside bytes value (by omega)

/-- A stored number is read back, cut to the width of its field. -/
theorem getLE_putLE (bytes : Bytes size) (value : Nat) (inside : offset + width ≤ size) :
    (bytes.putLE offset width value).getLE offset width = value % 256 ^ width := by
  induction width generalizing bytes offset value with
  | zero => simp [getLE, Nat.mod_one]
  | succ width ih =>
    rw [putLE, getLE, ih _ _ (by omega), byteAt_putLE_outside _ _ (.inl (Nat.lt_succ_self _)),
      byteAt_setByte_same _ _ (by omega), BitVec.toNat_ofNat,
      show (2 : Nat) ^ 8 = 256 from rfl, pow_succ', Nat.mod_mul]

theorem getLE_zero (offset width : Nat) : getLE (fun _ => 0 : Bytes size) offset width = 0 := by
  induction width generalizing offset with
  | zero => rfl
  | succ width ih => rw [getLE, ih, byteAt, dite_eq_ite, ite_self]; rfl

theorem byteAt_splice (bytes : Bytes size) (start count : Nat) (source : Nat → Byte)
    (inside : offset < size) : (bytes.splice start count source).byteAt offset =
      if start ≤ offset ∧ offset < start + count then source (offset - start)
      else bytes.byteAt offset := by
  simp [byteAt, splice, inside]

theorem byteAt_splice_outside (bytes : Bytes size) {start count : Nat} (source : Nat → Byte)
    (outside : offset < start ∨ start + count ≤ offset) :
    (bytes.splice start count source).byteAt offset = bytes.byteAt offset := by
  unfold byteAt splice
  split
  · rw [if_neg (by simp only; omega)]
  · rfl

theorem getLE_of_leByte {bytes : Bytes size} {width value : Nat}
    (same : ∀ r < width, bytes.byteAt (offset + r) = leByte value r) :
    bytes.getLE offset width = value % 256 ^ width := by
  induction width generalizing offset value with
  | zero => simp [getLE, Nat.mod_one]
  | succ width ih =>
    have first := same 0 (Nat.succ_pos width)
    have rest : bytes.getLE (offset + 1) width = value / 256 % 256 ^ width := by
      refine ih fun r inside => ?_
      rw [add_assoc, add_comm 1 r, same (r + 1) (by omega), leByte, leByte, pow_succ',
        Nat.div_div_eq_div_mul]
    rw [add_zero, leByte, pow_zero, Nat.div_one] at first
    rw [getLE, first, rest, BitVec.toNat_ofNat, show (2 : Nat) ^ 8 = 256 from rfl, pow_succ',
      Nat.mod_mul]

end Bytes

end OsLab
