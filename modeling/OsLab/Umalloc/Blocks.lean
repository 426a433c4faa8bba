import Mathlib

/-!
# Blocks in obtained memory

Blocks of whole units that tile the obtained regions, away from one object of the program, the
head of the free list.  A region is a new block, a block is split in two, and two blocks that
touch are one.
-/

namespace OsLab.Umalloc

open Function Finset

/-- The blocks with these addresses and sizes tile the obtained regions; none touches `base` from
below. -/
structure Tiling (base : Nat) (obtained : List (Nat × Nat)) (blocks : Finset Nat)
    (size : Nat → Nat) : Prop where
  pos : ∀ p ∈ blocks, 0 < p ∧ 0 < size p
  apart : ∀ p ∈ blocks, ∀ q ∈ blocks, p < q → p + 16 * size p ≤ q
  clear : ∀ p ∈ blocks, p + 16 * size p < base ∨ base + 16 ≤ p
  inside : ∀ p ∈ blocks, ∀ x, p ≤ x → x < p + 16 * size p →
    ∃ r ∈ obtained, r.1 ≤ x ∧ x < r.1 + 16 * r.2
  total : ∑ p ∈ blocks, size p = (obtained.map Prod.snd).sum

namespace Tiling

variable {base : Nat} {obtained : List (Nat × Nat)} {blocks : Finset Nat} {size other : Nat → Nat}
  {p q k : Nat}

section

variable (tiling : Tiling base obtained blocks size)
include tiling

theorem base_notMem : base ∉ blocks := by
  intro listed
  rcases tiling.clear base listed with below | above <;> omega

theorem size_add_le (left : p ∈ blocks) (right : q ∈ blocks) (differ : p ≠ q) :
    size p + size q ≤ (obtained.map Prod.snd).sum := by
  have pair := sum_le_sum_of_subset (f := size)
    (insert_subset left (singleton_subset_iff.mpr right))
  rwa [sum_pair differ, tiling.total] at pair

theorem region {hp units : Nat} (nonnull : 0 < hp) (some_ : 0 < units)
    (clear : hp + 16 * units < base ∨ base + 16 ≤ hp)
    (fresh : ∀ r ∈ obtained, hp + 16 * units ≤ r.1 ∨ r.1 + 16 * r.2 ≤ hp) :
    hp ∉ blocks ∧
      Tiling base ((hp, units) :: obtained) (insert hp blocks) (update size hp units) := by
  -- no address of a block is in the region
  have outside : ∀ p ∈ blocks, ∀ x, p ≤ x → x < p + 16 * size p →
      x < hp ∨ hp + 16 * units ≤ x := by
    intro p listed x low high
    obtain ⟨r, known, above, below⟩ := tiling.inside p listed x low high
    rcases fresh r known with left | right <;> omega
  have starts : ∀ p ∈ blocks, p < hp ∨ hp + 16 * units ≤ p := by
    intro p listed
    have := (tiling.pos p listed).2
    exact outside p listed p le_rfl (by omega)
  have new : hp ∉ blocks := by
    intro listed
    rcases starts hp listed with less | more <;> omega
  have kept : ∀ p ∈ blocks, update size hp units p = size p := fun p listed =>
    update_of_ne (fun same : p = hp => new (same ▸ listed)) ..
  refine ⟨new, ?_, ?_, ?_, ?_, ?_⟩
  · intro p listed
    rcases mem_insert.mp listed with rfl | old
    · rw [update_self]
      exact ⟨nonnull, some_⟩
    · rw [kept p old]
      exact tiling.pos p old
  · intro p left q right less
    rcases mem_insert.mp left with rfl | oldP <;>
      rcases mem_insert.mp right with rfl | oldQ
    · omega
    · rw [update_self]
      rcases starts q oldQ with before | behind <;> omega
    · rw [kept p oldP]
      by_contra more
      rcases outside p oldP q less.le (by omega) with before | behind <;> omega
    · rw [kept p oldP]
      exact tiling.apart p oldP q oldQ less
  · intro p listed
    rcases mem_insert.mp listed with rfl | old
    · rw [update_self]
      exact clear
    · rw [kept p old]
      exact tiling.clear p old
  · intro p listed x low high
    rcases mem_insert.mp listed with rfl | old
    · rw [update_self] at high
      exact ⟨_, List.mem_cons_self, low, high⟩
    · rw [kept p old] at high
      obtain ⟨r, known, bounds⟩ := tiling.inside p old x low high
      exact ⟨r, List.mem_cons_of_mem _ known, bounds⟩
  · rw [sum_insert new, update_self, sum_congr rfl kept, tiling.total]
    rfl

theorem merge (left : p ∈ blocks) (right : q ∈ blocks) (touch : p + 16 * size p = q) :
    Tiling base obtained (blocks.erase q) (update size p (size p + size q)) := by
  have sizes := tiling.pos p left
  have differ : p ≠ q := by omega
  have kept : ∀ r, r ≠ p → update size p (size p + size q) r = size r :=
    fun r other => update_of_ne other ..
  refine ⟨fun r listed => ?_, fun r first s second less => ?_, fun r listed => ?_,
    fun r listed x low high => ?_, ?_⟩
  · have old := tiling.pos r (mem_of_mem_erase listed)
    by_cases same : r = p
    · rw [same, update_self]
      omega
    · rwa [kept r same]
  · obtain ⟨differR, oldR⟩ := mem_erase.mp first
    obtain ⟨differS, oldS⟩ := mem_erase.mp second
    by_cases same : r = p
    · subst same
      rw [update_self]
      have behind := tiling.apart r oldR s oldS less
      have next := tiling.apart q right s oldS (by omega)
      omega
    · rw [kept r same]
      exact tiling.apart r oldR s oldS less
  · have old := tiling.clear r (mem_of_mem_erase listed)
    by_cases same : r = p
    · subst same
      rw [update_self]
      have second := tiling.clear q right
      omega
    · rwa [kept r same]
  · by_cases same : r = p
    · subst same
      rw [update_self] at high
      rcases lt_or_ge x q with before | behind
      · exact tiling.inside r left x low (by omega)
      · exact tiling.inside q right x behind (by omega)
    · rw [kept r same] at high
      exact tiling.inside r (mem_of_mem_erase listed) x low high
  · rw [sum_update_of_mem (mem_erase.mpr ⟨differ, left⟩), ← tiling.total,
      ← add_sum_erase blocks size right,
      ← add_sum_erase (blocks.erase q) size (mem_erase.mpr ⟨differ, left⟩),
      sdiff_singleton_eq_erase]
    omega

theorem split (listed : p ∈ blocks) (some_ : 0 < k) (less : k < size p)
    (tail : p + 16 * (size p - k) = q) :
    q ∉ blocks ∧ Tiling base obtained (insert q blocks)
      (update (update size p (size p - k)) q k) := by
  have first := tiling.pos p listed
  have new : q ∉ blocks := by
    intro old
    have := tiling.apart p listed q old (by omega)
    omega
  have sizeQ : update (update size p (size p - k)) q k q = k :=
    update_self ..
  have sizeP : update (update size p (size p - k)) q k p = size p - k := by
    rw [update_of_ne (by omega), update_self]
  have kept : ∀ r ∈ blocks, r ≠ p → update (update size p (size p - k)) q k r = size r := by
    intro r old other
    rw [update_of_ne (fun same : r = q => new (same ▸ old)), update_of_ne other]
  generalize update (update size p (size p - k)) q k = after at *
  refine ⟨new, fun r here => ?_, fun r left s right order => ?_, fun r here => ?_,
    fun r here x low high => ?_, ?_⟩
  · rcases mem_insert.mp here with rfl | old
    · omega
    by_cases same : r = p
    · subst same
      omega
    · rw [kept r old same]
      exact tiling.pos r old
  · rcases mem_insert.mp left with rfl | oldR <;>
      rcases mem_insert.mp right with rfl | oldS
    · omega
    · have behind := tiling.apart p listed s oldS (by omega)
      omega
    · by_cases same : r = p
      · subst same
        omega
      · rw [kept r oldR same]
        rcases lt_or_ge r p with before | behind
        · have := tiling.apart r oldR p listed before
          omega
        · have := tiling.apart p listed r oldR (by omega)
          omega
    · by_cases same : r = p
      · subst same
        have := tiling.apart r oldR s oldS order
        omega
      · rw [kept r oldR same]
        exact tiling.apart r oldR s oldS order
  · have whole := tiling.clear p listed
    rcases mem_insert.mp here with rfl | old
    · omega
    by_cases same : r = p
    · subst same
      omega
    · rw [kept r old same]
      exact tiling.clear r old
  · rcases mem_insert.mp here with rfl | old
    · exact tiling.inside p listed x (by omega) (by omega)
    by_cases same : r = p
    · subst same
      exact tiling.inside r listed x low (by omega)
    · rw [kept r old same] at high
      exact tiling.inside r old x low high
  · have rest : ∑ r ∈ blocks.erase p, after r = ∑ r ∈ blocks.erase p, size r :=
      sum_congr rfl fun r here =>
        kept r (mem_of_mem_erase here) (ne_of_mem_erase here)
    have before := add_sum_erase blocks size listed
    have behind := add_sum_erase blocks after listed
    rw [sum_insert new, ← tiling.total]
    omega

end

end Tiling

end OsLab.Umalloc
