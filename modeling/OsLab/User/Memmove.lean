import Mathlib

/-!
# `memmove` of the kernel and of the user library

Both copy one byte after the other, upwards or downwards, and choose the direction by different
tests.  An object of C does not wrap around the end of the address space, so positions are natural
numbers.
-/

namespace OsLab.Memmove

open Function

/-- The bytes of a memory by their positions. -/
abbrev Memory := Nat → BitVec 8

/-- `while (n-- > 0) *d++ = *s++`. -/
def copyUp : Nat → Memory → Nat → Nat → Memory
  | 0, m, _, _ => m
  | n + 1, m, d, s => copyUp n (update m d (m s)) (d + 1) (s + 1)

/-- `while (n-- > 0) *--d = *--s`. -/
def copyDown : Nat → Memory → Nat → Nat → Memory
  | 0, m, _, _ => m
  | n + 1, m, d, s => copyDown n (update m (d - 1) (m (s - 1))) (d - 1) (s - 1)

/-- `memmove` of `kernel/string.c`, with the pointer it returns. -/
def memmove (m : Memory) (dst src n : Nat) : Memory × Nat :=
  if src < dst ∧ src + n > dst then (copyDown n m (dst + n) (src + n), dst)
  else (copyUp n m dst src, dst)

/-- `memmove` of `user/ulib.c`, whose length is an `int`. -/
def userMemmove (m : Memory) (dst src : Nat) (n : Int) : Memory × Nat :=
  if src > dst then (copyUp n.toNat m dst src, dst)
  else (copyDown n.toNat m (dst + n).toNat (src + n).toNat, dst)

/-- The memory after all bytes of a range are copied at once. -/
def moved (m : Memory) (dst src n : Nat) : Memory :=
  fun a => if dst ≤ a ∧ a < dst + n then m (src + (a - dst)) else m a

variable {dst src n : Nat}

/-- Copying upwards reads no byte that it has written. -/
theorem copyUp_eq_moved (m : Memory) (apart : dst ≤ src ∨ src + n ≤ dst) :
    copyUp n m dst src = moved m dst src n := by
  induction n generalizing m dst src with
  | zero =>
    funext a
    have outside : ¬ (dst ≤ a ∧ a < dst + 0) := by omega
    simp only [copyUp, moved, if_neg outside]
  | succ n ih =>
    rw [copyUp, ih _ (by omega)]
    funext a
    simp only [moved, update_apply]
    grind

/-- Copying downwards reads no byte that it has written. -/
theorem copyDown_eq_moved (m : Memory) (apart : src ≤ dst ∨ dst + n ≤ src) :
    copyDown n m (dst + n) (src + n) = moved m dst src n := by
  induction n generalizing m with
  | zero =>
    funext a
    have outside : ¬ (dst ≤ a ∧ a < dst + 0) := by omega
    simp only [copyDown, moved, if_neg outside]
  | succ n ih =>
    rw [copyDown]
    simp only [← add_assoc, Nat.add_sub_cancel]
    rw [ih _ (by omega)]
    funext a
    simp only [moved, update_apply]
    grind

theorem memmove_eq_moved (m : Memory) (dst src n : Nat) :
    memmove m dst src n = (moved m dst src n, dst) := by
  unfold memmove
  split
  · rw [copyDown_eq_moved m (by omega)]
  · rw [copyUp_eq_moved m (by omega)]

theorem userMemmove_eq_moved (m : Memory) (dst src : Nat) (n : Int) :
    userMemmove m dst src n = (moved m dst src n.toNat, dst) := by
  unfold userMemmove
  split
  · rw [copyUp_eq_moved m (by omega)]
  · obtain positive | none := le_or_gt 0 n
    · lift n to Nat using positive
      rw [← copyDown_eq_moved m (by omega), ← Nat.cast_add, ← Nat.cast_add]
      simp only [Int.toNat_natCast]
    · -- no byte is copied
      rw [Int.toNat_of_nonpos none.le, copyDown, ← copyUp_eq_moved m (by omega), copyUp]

/-- Both functions copy a range at once, for every overlap and length, and so they agree. -/
theorem memmove_is_simultaneous (m : Memory) (dst src : Nat) :
    (∀ n, memmove m dst src n = (moved m dst src n, dst)) ∧
      (∀ n, userMemmove m dst src n = (moved m dst src n.toNat, dst)) ∧
      ∀ n : Nat, userMemmove m dst src n = memmove m dst src n := by
  refine ⟨memmove_eq_moved m dst src, userMemmove_eq_moved m dst src, fun n => ?_⟩
  rw [userMemmove_eq_moved, memmove_eq_moved, Int.toNat_natCast]

end OsLab.Memmove
