import OsLab.Mkfs.ReadBack

/-!
# Blocks of the files in the image

`iappend` allocates the blocks of a file as bytes are appended, but `main` rounds the size of the
root directory up on its own.  Entries that end exactly at the end of a block are followed by a
block that the size covers and that was never allocated.
-/

namespace OsLab.Mkfs

open Fs

variable {t : Image} {v : Volume} {files : List Input}

/-- Inode `n` as `ilock` reads it from the image. -/
def Image.node (t : Image) (n : Nat) : Dinode :=
  Dinode.load (t.sector (sb.iblock n)) (n % ipb)

/-- Every block of an allocated inode below its size has an address. -/
def NoHoles (t : Image) : Prop :=
  ∀ n, n < ninodes → (t.node n).type ≠ 0 → ∀ bn, bn * bsize < (t.node n).size.toNat →
    (t.node n).pointer t.sector (place bn) ≠ 0

/-- The kernel reads every inode of the image without a change to its state. -/
def ReadsOnly (t : Image) : Prop :=
  ∀ n, n < ninodes → (t.node n).type ≠ 0 → ∀ (s : State) (ip : Slot), s.disk = t.sector →
    s.held = [] → (s.inode ip).node = t.node n → ∀ (writable : Nat → Bool) (off count : Nat),
      count < 2 ^ 32 → ∃ bytes, readi sb ip writable off count s = .ok (bytes, s)

section

variable (finished : Finished t v files)
include finished

variable {n : Nat}

theorem Finished.node (inside : n < ninodes) : t.node n = v.node n :=
  finished.shows.node n (inside.trans (by decide)) (Set.notMem_empty n)

/-- A block has an address if bytes were appended to it. -/
theorem Finished.pointer_ne_zero_iff (inside : n < ninodes) (allocated : (t.node n).type ≠ 0)
    (bn : Nat) :
    (t.node n).pointer t.sector (place bn) ≠ 0 ↔
      bn * bsize < (contentsOf files n).length := by
  have wide : n < area.ninodes := inside.trans (by decide)
  rw [finished.node inside] at allocated ⊢
  rw [finished.pointer wide allocated, finished.placed.shape, Spans, occupies_place]

theorem Finished.size_le (inside : n < ninodes) (few : files.length + 2 ≤ ninodes) :
    (t.node n).size.toNat ≤ maxfile * bsize := by
  rw [finished.node inside]
  by_cases root : n = rootino
  · rw [root, finished.rootSize, length_contentsOf_root]
    simp only [direntSize, bsize, maxfile, ndirect, nindirect, ninodes] at few ⊢
    omega
  · rw [finished.sizes n (inside.trans (by decide)) root]
    exact finished.bounded n

/-- Only the root directory has a hole, if its entries fill their last block. -/
theorem Finished.noHoles_iff : NoHoles t ↔ ¬ bsize ∣ direntSize * (files.length + 2) := by
  have root : rootino < ninodes := by decide
  have directory : (t.node rootino).type ≠ 0 := by
    rw [finished.node root, finished.type _ (by decide), typeOf_root]
    decide
  have size : (t.node rootino).size.toNat =
      (direntSize * (files.length + 2) / bsize + 1) * bsize := by
    rw [finished.node root, finished.rootSize, length_contentsOf_root]
  constructor
  · intro whole full
    have missing := whole rootino root directory (direntSize * (files.length + 2) / bsize) (by
      rw [size]
      exact Nat.mul_lt_mul_of_pos_right (Nat.lt_succ_self _) (by decide))
    rw [finished.pointer_ne_zero_iff root directory, length_contentsOf_root,
      Nat.div_mul_cancel full] at missing
    exact missing.false
  · intro short n inside allocated bn below
    rw [finished.pointer_ne_zero_iff inside allocated]
    by_cases same : n = rootino
    · subst same
      rw [size] at below
      rw [length_contentsOf_root]
      have le := Nat.le_of_lt_succ (Nat.lt_of_mul_lt_mul_right below)
      refine lt_of_le_of_ne ((Nat.mul_le_mul_right bsize le).trans (Nat.div_mul_le_self ..)) ?_
      intro exact
      exact short ⟨bn, by rw [← exact, mul_comm]⟩
    · rw [finished.node inside, finished.sizes n (inside.trans (by decide)) same] at below
      exact below

theorem Finished.readsOnly (few : files.length + 2 ≤ ninodes) (whole : NoHoles t) :
    ReadsOnly t := by
  intro n inside allocated s ip disk unheld node writable off count word
  refine readi_unchanged ⟨unheld, ?_, fun bn below => ?_⟩ writable word
  · rw [node]
    exact finished.size_le inside few
  · rw [node] at below ⊢
    rw [disk]
    exact whole n inside allocated bn below

end

/-- The image has no holes, and is only read by `readi`, unless the entries of the root directory
fill their last block. -/
theorem image_noHoles_iff (files : List Input) (few : files.length + 2 ≤ ninodes) (t : Image)
    (written : main files start = .ok ((), t)) :
    NoHoles t ∧ ReadsOnly t ↔ ¬ bsize ∣ direntSize * (files.length + 2) := by
  obtain ⟨v, finished⟩ := (main_spec (few.trans (by decide))).returns _ _ written
  constructor
  · intro whole
    exact finished.noHoles_iff.mp whole.1
  · intro short
    have whole := finished.noHoles_iff.mpr short
    exact ⟨whole, finished.readsOnly few whole⟩

theorem twoBytes_noHoles :
    ∃ t, main [twoBytes] start = .ok ((), t) ∧ NoHoles t ∧ ReadsOnly t := by
  obtain ⟨t, v, written, _⟩ := twoBytes_fits.main_ok
  exact ⟨t, written, (image_noHoles_iff [twoBytes] (by decide) t written).mpr (by decide)⟩

/-- With 62 empty files block 1 of the root directory is below its size and has no address. -/
theorem hole_after_full_block :
    ∃ t, main (List.replicate 62 emptyInput) start = .ok ((), t) ∧ (t.node rootino).type = tDir ∧
      1 * bsize < (t.node rootino).size.toNat ∧
      (t.node rootino).pointer t.sector (place 1) = 0 := by
  obtain ⟨t, v, written, finished⟩ := (emptyInput_fits 62 (by decide)).main_ok
  have root : rootino < ninodes := by decide
  have directory : (t.node rootino).type = tDir := by
    rw [finished.node root, finished.type _ (by decide), typeOf_root]
  refine ⟨t, written, directory, ?_, ?_⟩
  · rw [finished.node root, finished.rootSize, length_contentsOf_root]
    decide
  · by_contra holds
    rw [← Ne, finished.pointer_ne_zero_iff root (by rw [directory]; decide),
      length_contentsOf_root] at holds
    exact absurd holds (by decide)

end OsLab.Mkfs
