import Mathlib

/-!
# Circular lists in order

A finite set of nodes of a linear order, each with a link to the next larger one and the largest
with a link to the smallest.  Nodes are linked in behind the one they belong to, and the node
behind another one is taken out.  From every node the links lead to every other.
-/

namespace OsLab

open Function Finset

variable {α : Type} [LinearOrder α]

/-- `q` comes next behind `p`: it is the next larger node, or the smallest behind the largest. -/
def Next (nodes : Finset α) (p q : α) : Prop :=
  q ∈ nodes ∧ (p < q ∧ (∀ r ∈ nodes, r ≤ p ∨ q ≤ r) ∨ q ≤ p ∧ ∀ r ∈ nodes, q ≤ r ∧ r ≤ p)

/-- The links go around the nodes. -/
def Circle (nodes : Finset α) (link : α → α) : Prop := ∀ p ∈ nodes, Next nodes p (link p)

/-- `b` lies between `p` and the node behind it, which is smaller than `p` only at the wrap. -/
def Between (p b q : α) : Prop := p < b ∧ b < q ∨ q ≤ p ∧ (p < b ∨ b < q)

instance (p b q : α) : Decidable (Between p b q) := inferInstanceAs (Decidable (_ ∨ _))

section Circle

variable {nodes : Finset α} {link : α → α} {p q b r : α}

section

variable (circle : Circle nodes link)
include circle

section

variable (here : p ∈ nodes)
include here

theorem Circle.link_mem : link p ∈ nodes :=
  (circle p here).1

/-- All nodes are on one side of `b` or the other, up to `p` and from its link on. -/
theorem Circle.splits (between : Between p b (link p)) (other : r ∈ nodes) :
    (r < b → p < b ∧ r ≤ p) ∧ (b < r → b < link p ∧ link p ≤ r) := by
  unfold Between at between
  obtain ⟨_, ⟨up, gap⟩ | ⟨down, all⟩⟩ := circle p here
  · have := gap r other
    grind
  · have := all r other
    grind

theorem Circle.insert (new : b ∉ nodes) (between : Between p b (link p)) :
    Circle (insert b nodes) (update (update link b (link p)) p b) := by
  intro r listed
  have splits : ∀ s ∈ nodes, (s < b → p < b ∧ s ≤ p) ∧ (b < s → b < link p ∧ link p ≤ s) :=
    fun s other => circle.splits here between other
  have first := circle p here
  unfold Between at between
  unfold Next at first
  rcases mem_insert.mp listed with rfl | old
  · have differ : r ≠ p := fun same => new (same ▸ here)
    rw [update_of_ne differ, update_self]
    refine ⟨mem_insert_of_mem first.1, ?_⟩
    simp only [forall_mem_insert]
    grind
  by_cases same : r = p
  · subst same
    rw [update_self]
    refine ⟨mem_insert_self .., ?_⟩
    simp only [forall_mem_insert]
    grind
  · have differ : r ≠ b := fun same' => new (same' ▸ old)
    rw [update_of_ne same, update_of_ne differ]
    have second := circle r old
    have ends := splits _ second.1
    have starts := splits r old
    unfold Next at second
    refine ⟨mem_insert_of_mem second.1, ?_⟩
    simp only [forall_mem_insert]
    grind

theorem Circle.erase (differ : link p ≠ p) :
    Circle (nodes.erase (link p)) (update link p (link (link p))) := by
  intro r listed
  obtain ⟨other, old⟩ := mem_erase.mp listed
  have first := circle p here
  have second := circle _ first.1
  unfold Next at first second
  by_cases same : r = p
  · subst same
    rw [update_self]
    unfold Next
    simp only [mem_erase]
    grind
  · rw [update_of_ne same]
    have third := circle r old
    unfold Next at third ⊢
    simp only [mem_erase]
    grind

/-- Among several nodes none is its own link. -/
theorem Circle.link_ne (there : q ∈ nodes) (differ : q ≠ p) : link p ≠ p := by
  intro same
  obtain ⟨_, ⟨up, _⟩ | ⟨_, all⟩⟩ := circle p here
  · rw [same] at up
    exact lt_irrefl _ up
  · have bounds := all q there
    rw [same] at bounds
    exact differ (le_antisymm bounds.2 bounds.1)

end

/-- Whatever is not a node has its place behind a node. -/
theorem Circle.exists_between (nonempty : nodes.Nonempty) (new : b ∉ nodes) :
    ∃ p ∈ nodes, Between p b (link p) := by
  by_cases below : (nodes.filter (· < b)).Nonempty
  · -- the largest node below `b`
    have greatest := isGreatest_max' _ below
    set p := (nodes.filter (· < b)).max' below
    obtain ⟨here, less⟩ := Finset.mem_filter.mp greatest.1
    have most : ∀ r ∈ nodes, r < b → r ≤ p := fun r other smaller =>
      greatest.2 (mem_coe.mpr (Finset.mem_filter.mpr ⟨other, smaller⟩))
    refine ⟨p, here, ?_⟩
    obtain ⟨listed, order⟩ := circle p here
    have bound := most _ listed
    unfold Between
    grind
  · -- there is none, and `b` belongs behind the largest node
    have greatest := isGreatest_max' _ nonempty
    set p := nodes.max' nonempty
    have above : ∀ r ∈ nodes, b < r := fun r other => by
      by_contra less
      have differ : r ≠ b := fun same => new (same ▸ other)
      exact below ⟨r, Finset.mem_filter.mpr ⟨other, lt_of_le_of_ne (le_of_not_gt less) differ⟩⟩
    refine ⟨p, greatest.1, ?_⟩
    obtain ⟨listed, order⟩ := circle p greatest.1
    have bound := greatest.2 (mem_coe.mpr listed)
    have low := above _ listed
    unfold Between
    grind

/-- The links lead upwards to every larger node. -/
theorem Circle.reaches_up (there : q ∈ nodes) (here : p ∈ nodes) (order : p ≤ q) :
    ∃ k, link^[k] p = q := by
  induction above : (nodes.filter (p < ·)).card using Nat.strong_induction_on generalizing p with
  | _ count ih =>
    rcases order.eq_or_lt with rfl | less
    · exact ⟨0, rfl⟩
    obtain ⟨listed, ⟨up, gap⟩ | ⟨_, all⟩⟩ := circle p here
    · have fewer : nodes.filter (link p < ·) ⊂ nodes.filter (p < ·) := by
        refine Finset.ssubset_iff_subset_ne.mpr ⟨fun r => ?_, fun same => ?_⟩
        · simp only [Finset.mem_filter]
          exact fun ⟨other, larger⟩ => ⟨other, up.trans larger⟩
        · have member : link p ∈ nodes.filter (link p < ·) :=
            same ▸ Finset.mem_filter.mpr ⟨listed, up⟩
          exact lt_irrefl _ (Finset.mem_filter.mp member).2
      have next : link p ≤ q := (gap q there).resolve_left (not_le.mpr less)
      obtain ⟨k, reached⟩ := ih _ (above ▸ card_lt_card fewer) listed next rfl
      exact ⟨k + 1, reached⟩
    · exact absurd less (not_lt.mpr (all q there).2)

theorem Circle.reaches (here : p ∈ nodes) (there : q ∈ nodes) : ∃ k, link^[k] p = q := by
  have greatest := isGreatest_max' nodes ⟨p, here⟩
  set top := nodes.max' ⟨p, here⟩
  obtain ⟨k, first⟩ := circle.reaches_up greatest.1 here (greatest.2 here)
  obtain ⟨listed, ⟨up, _⟩ | ⟨_, all⟩⟩ := circle top greatest.1
  · exact absurd up (not_lt.mpr (greatest.2 listed))
  · obtain ⟨l, second⟩ := circle.reaches_up there listed (all q there).1
    refine ⟨l + 1 + k, ?_⟩
    rw [iterate_add_apply, first, iterate_succ_apply, second]

theorem Circle.iterate_mem (here : p ∈ nodes) (k : Nat) : link^[k] p ∈ nodes := by
  induction k with
  | zero => exact here
  | succ k ih =>
    rw [iterate_succ_apply']
    exact circle.link_mem ih

/-- In a strictly increasing list of the nodes each links to the next one, the last to the first. -/
theorem Circle.link_getElem {order : List α} (sorted : order.Pairwise (· < ·))
    (all : ∀ p, p ∈ order ↔ p ∈ nodes) {i : Nat} (inside : i < order.length) :
    order[(i + 1) % order.length]? = some (link order[i]) := by
  have ascending := List.pairwise_iff_getElem.mp sorted
  have weakly : ∀ j k (less : j ≤ k) (bound : k < order.length),
      order.get ⟨j, by omega⟩ ≤ order.get ⟨k, bound⟩ := by
    intro j k less bound
    rcases less.eq_or_lt with rfl | less
    · exact le_rfl
    · exact (ascending j k (by omega) bound less).le
  have member : ∀ j (bound : j < order.length), order[j] ∈ nodes := fun j bound =>
    (all _).mp (List.getElem_mem bound)
  obtain ⟨listed, place⟩ := circle _ (member i inside)
  obtain ⟨j, bound, found⟩ := List.mem_iff_getElem.mp ((all _).mpr listed)
  rw [← found] at place ⊢
  rcases lt_or_ge (i + 1) order.length with more | last
  · rw [Nat.mod_eq_of_lt more, List.getElem?_eq_getElem more]
    have next := ascending i (i + 1) inside more (Nat.lt_succ_self i)
    rcases place with ⟨up, gap⟩ | ⟨_, around⟩
    · have behind : i < j := by
        by_contra before
        exact absurd up (not_lt.mpr (weakly j i (by omega) inside))
      have least := (gap _ (member _ more)).resolve_left (not_le.mpr next)
      exact congrArg some (le_antisymm (weakly (i + 1) j behind bound) least)
    · exact absurd next (not_lt.mpr (around _ (member _ more)).2)
  · have wrap : (i + 1) % order.length = 0 := by
      rw [show i + 1 = order.length by omega, Nat.mod_self]
    rw [wrap, List.getElem?_eq_getElem (by omega)]
    rcases place with ⟨up, _⟩ | ⟨_, around⟩
    · exact absurd up (not_lt.mpr (weakly j i (by omega) inside))
    · exact congrArg some (le_antisymm (weakly 0 j (Nat.zero_le j) bound)
        (around _ (member 0 (by omega))).1)

end

end Circle

end OsLab
