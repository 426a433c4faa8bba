import Mathlib

/-!
# Ring buffers

A queue kept in a fixed number of cells: the item at distance `k` from the front lies in cell
`(front + k) % size`.  The front is counted without bound; only its residue matters, so a
counter of any width whose modulus is a multiple of the size may stand for it.  Cells outside
the queue are unrestricted.
-/

namespace OsLab

open Nat

/-- The cell of position `count`. -/
def ringCell (size : Nat) [NeZero size] (count : Nat) : Fin size :=
  ⟨count % size, mod_lt _ (pos_of_neZero size)⟩

/-- The cells hold the given items in order from position `front` on. -/
structure RingHolds {α : Type*} {size : Nat} [NeZero size] (cells : Fin size → α) (front : Nat)
    (items : List α) : Prop where
  fits : items.length ≤ size
  cell : ∀ k (listed : k < items.length), cells (ringCell size (front + k)) = items[k]

section Ring

variable {α : Type*} {size : Nat} [NeZero size]

theorem ringCell_mod_of_dvd {width count : Nat} (multiple : size ∣ width) :
    ringCell size (count % width) = ringCell size count :=
  Fin.ext (mod_mod_of_dvd count multiple)

/-- Two positions less than one revolution apart have different cells. -/
theorem ringCell_ne {front k l : Nat} (before : k < l) (near : l < size + k) :
    ringCell size (front + k) ≠ ringCell size (front + l) := by
  intro same
  have residues : (front + k) % size = (front + l) % size := congrArg Fin.val same
  have divides : size ∣ (front + l) - (front + k) :=
    (modEq_iff_dvd' (by omega)).mp residues
  have bound : size ≤ (front + l) - (front + k) := le_of_dvd (by omega) divides
  omega

theorem RingHolds.nil (cells : Fin size → α) (front : Nat) : RingHolds cells front [] where
  fits := zero_le _
  cell _ listed := absurd listed (not_lt_zero _)

variable {cells : Fin size → α} {front : Nat} {items : List α}

theorem RingHolds.push (holds : RingHolds cells front items) (room : items.length < size)
    (item : α) :
    RingHolds (Function.update cells (ringCell size (front + items.length)) item) front
      (items ++ [item]) := by
  refine ⟨by simpa using succ_le_of_lt room, fun k listed => ?_⟩
  rw [List.length_append, List.length_singleton] at listed
  rcases Nat.lt_succ_iff_lt_or_eq.mp listed with old | rfl
  · rw [Function.update_of_ne (ringCell_ne old (by omega)), List.getElem_append_left old]
    exact holds.cell k old
  · simp

theorem RingHolds.left {items more : List α} (holds : RingHolds cells front (items ++ more)) :
    RingHolds cells front items := by
  refine ⟨(by simp : items.length ≤ (items ++ more).length).trans holds.fits, fun k listed => ?_⟩
  rw [holds.cell k (by rw [List.length_append]; omega), List.getElem_append_left listed]

theorem RingHolds.pop {item : α} (holds : RingHolds cells front (item :: items)) :
    cells (ringCell size front) = item ∧ RingHolds cells (front + 1) items := by
  refine ⟨holds.cell 0 (by simp), ?_, fun k listed => ?_⟩
  · exact (le_succ _).trans holds.fits
  · have shifted := holds.cell (k + 1) (by simpa using listed)
    rw [show front + 1 + k = front + (k + 1) by omega]
    simpa using shifted

end Ring

end OsLab
