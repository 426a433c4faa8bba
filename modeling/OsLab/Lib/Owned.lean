import Mathlib

/-!
# Ownership of pooled addresses

Places hold addresses of a pool or nothing, and a map marks the addresses in use.  The map is exact
when every held address is marked and held in one place only, and every marked address of the pool
is held.
-/

namespace OsLab

open Function

variable {Place Address : Type*} [Zero Address]

/-- The marks are exactly the addresses held, each in one place. -/
structure Owned (Pool : Address → Prop) (held : Place → Address) (used : Address → Bool) :
    Prop where
  null : ¬ Pool 0
  pooled : ∀ p, held p ≠ 0 → Pool (held p)
  marked : ∀ p, held p ≠ 0 → used (held p) = true
  once : ∀ p q, held p ≠ 0 → held p = held q → p = q
  kept : ∀ b, Pool b → used b = true → ∃ p, held p = b

namespace Owned

variable {Pool : Address → Prop} {held : Place → Address} {used : Address → Bool} {b : Address}
  {p : Place}

theorem ne_of_unmarked (owned : Owned Pool held used) (unmarked : used b = false)
    (holds : held p ≠ 0) : held p ≠ b := by
  rintro rfl
  simp [owned.marked p holds] at unmarked

variable [DecidableEq Place] [DecidableEq Address]

/-- An unmarked address is marked and put into an empty place. -/
theorem take (owned : Owned Pool held used) (pool : Pool b) (unmarked : used b = false)
    (empty : held p = 0) : Owned Pool (update held p b) (update used b true) where
  null := owned.null
  pooled q holds := by
    by_cases same : q = p
    · subst same
      simpa using pool
    · rw [update_of_ne same] at holds ⊢
      exact owned.pooled q holds
  marked q holds := by
    by_cases same : q = p
    · subst same
      simp
    · rw [update_of_ne same] at holds ⊢
      rw [update_of_ne (owned.ne_of_unmarked unmarked holds)]
      exact owned.marked q holds
  once q r holds agree := by
    by_cases left : q = p <;> by_cases right : r = p
    · rw [left, right]
    · subst left
      rw [update_self, update_of_ne right] at agree
      have nonzero : held r ≠ 0 := fun zero => owned.null (zero ▸ agree ▸ pool)
      exact absurd agree.symm (owned.ne_of_unmarked unmarked nonzero)
    · subst right
      rw [update_of_ne left] at holds agree
      rw [update_self] at agree
      exact absurd agree (owned.ne_of_unmarked unmarked holds)
    · rw [update_of_ne left] at holds agree
      rw [update_of_ne right] at agree
      exact owned.once q r holds agree
  kept c pool' marked := by
    by_cases same : c = b
    · subst same
      exact ⟨p, by simp⟩
    · rw [update_of_ne same] at marked
      obtain ⟨q, rfl⟩ := owned.kept c pool' marked
      have place : q ≠ p := by
        rintro rfl
        exact owned.null (empty ▸ pool')
      exact ⟨q, by rw [update_of_ne place]⟩

end Owned

end OsLab
