import Mathlib

/-!
# Relations without cycles

No element is above itself.  Removing links keeps this, and so does a new link unless its target
already leads back to its source.  A relation each of whose steps from `a` to an element with a
further step is matched by links back to `a` has no cycle either.
-/

namespace OsLab

open Relation

variable {α : Type*} {R R' : α → α → Prop}

/-- No element leads back to itself. -/
def Acyclic (R : α → α → Prop) : Prop := ∀ a, ¬ TransGen R a a

theorem Acyclic.mono (acyclic : Acyclic R) (fewer : ∀ a b, R' a b → R a b) : Acyclic R' :=
  fun a cycle => acyclic a (TransGen.mono fewer a a cycle)

/-- A path with one new link is an old path or leads through the link once. -/
theorem transGen_link {a b : α} (link : ∀ x y, R' x y → R x y ∨ (x = a ∧ y = b))
    (apart : ¬ ReflTransGen R b a) {x y : α} (path : TransGen R' x y) :
    TransGen R x y ∨ (ReflTransGen R x a ∧ ReflTransGen R b y) := by
  induction path with
  | single step =>
    rcases link _ _ step with old | ⟨rfl, rfl⟩
    · exact .inl (.single old)
    · exact .inr ⟨.refl, .refl⟩
  | tail _ step ih =>
    rcases ih, link _ _ step with ⟨before | ⟨before, after⟩, old | ⟨rfl, rfl⟩⟩
    · exact .inl (before.tail old)
    · exact .inr ⟨before.to_reflTransGen, .refl⟩
    · exact .inr ⟨before, after.tail old⟩
    · exact absurd after apart

/-- A new link makes no cycle if its target does not lead to its source. -/
theorem Acyclic.link (acyclic : Acyclic R) {a b : α}
    (link : ∀ x y, R' x y → R x y ∨ (x = a ∧ y = b)) (apart : ¬ ReflTransGen R b a) :
    Acyclic R' := by
  intro x cycle
  rcases transGen_link link apart cycle with old | ⟨before, after⟩
  · exact acyclic x old
  · exact apart (after.trans before)

variable {W : α → α → Prop}

/-- The links back along a path whose elements all have a further step. -/
theorem transGen_back (back : ∀ a b c, W a b → W b c → TransGen R b a) {a b c : α}
    (path : TransGen W a b) (further : W b c) : TransGen R b a := by
  induction path generalizing c with
  | single step => exact back _ _ _ step further
  | tail _ step ih => exact (back _ _ _ step further).trans (ih step)

/-- A relation whose steps are matched by links back has no cycle. -/
theorem Acyclic.back (acyclic : Acyclic R) (back : ∀ a b c, W a b → W b c → TransGen R b a) :
    Acyclic W := by
  intro a cycle
  obtain ⟨b, further⟩ : ∃ b, W a b := by
    rcases TransGen.head'_iff.mp cycle with ⟨b, step, -⟩
    exact ⟨b, step⟩
  exact acyclic a (transGen_back back cycle further)

end OsLab
