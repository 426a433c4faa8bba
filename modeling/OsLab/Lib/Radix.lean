import Mathlib

/-!
# Trees of tables

Tables of entries, where an entry may lead to a further table.  A path is written with its last
index first, so that the table in which a path ends is the one of its tail.
-/

namespace OsLab

open List

variable {Page Index Entry : Type*}

namespace Radix

/-- The page that a path leads to. -/
def node (next : Entry → Option Page) (entry : Page → Index → Entry) (root : Page) :
    List Index → Option Page
  | [] => some root
  | i :: path => (node next entry root path).bind fun page => next (entry page i)

variable {next : Entry → Option Page} {entry other : Page → Index → Entry} {root : Page}
  {depth : Nat} {path : List Index}

/-- Nothing lies beyond a missing page. -/
theorem node_none_of_suffix {longer : List Index} (missing : node next entry root path = none)
    (suffix : path <:+ longer) : node next entry root longer = none := by
  induction longer with
  | nil => rwa [suffix_nil.mp suffix] at missing
  | cons i rest ih =>
    rcases suffix_cons_iff.mp suffix with same | shorter
    · rwa [← same]
    · rw [node, ih shorter]
      rfl

/-- Paths that avoid the changed entries lead where they did. -/
theorem node_agree {Touched : List Index → Prop} (up : ∀ i path, Touched path → Touched (i :: path))
    (same : ∀ i path page, path.length < depth → ¬ Touched (i :: path) →
      node next entry root path = some page → other page i = entry page i) (path : List Index) :
    path.length ≤ depth → ¬ Touched path →
      node next other root path = node next entry root path := by
  induction path with
  | nil => exact fun _ _ => rfl
  | cons i path ih =>
    intro short untouched
    rw [length_cons] at short
    rw [node, node, ih (by omega) fun touched => untouched (up i path touched)]
    cases found : node next entry root path with
    | none => rfl
    | some page =>
      change next (other page i) = next (entry page i)
      rw [same i path page (by omega) untouched found]

/-- Pages outside the tables do not matter. -/
theorem node_congr (same : ∀ path page i, path.length < depth →
      node next entry root path = some page → other page i = entry page i)
    (short : path.length ≤ depth) : node next other root path = node next entry root path :=
  node_agree (fun _ _ (touched : False) => touched)
    (fun i path page below _ found => same path page i below found) path short id

/-- The entry in which a path ends, and 0 if the table is missing. -/
def slot [Zero Entry] (next : Entry → Option Page) (entry : Page → Index → Entry) (root : Page) :
    List Index → Entry
  | [] => 0
  | i :: path => ((node next entry root path).map fun page => entry page i).getD 0

variable [Zero Entry]

theorem slot_of_node {page : Page} (found : node next entry root path = some page) (i : Index) :
    slot next entry root (i :: path) = entry page i := by
  rw [slot, found]
  rfl

theorem slot_of_missing (missing : node next entry root path = none) (i : Index) :
    slot next entry root (i :: path) = 0 := by
  rw [slot, missing]
  rfl

theorem node_cons (null : next 0 = none) (i : Index) (path : List Index) :
    node next entry root (i :: path) = next (slot next entry root (i :: path)) := by
  cases found : node next entry root path with
  | none => rw [slot_of_missing found, null, node, found]; rfl
  | some page => rw [slot_of_node found, node, found]; rfl

theorem slot_congr (same : ∀ path page i, path.length < depth →
      node next entry root path = some page → other page i = entry page i)
    (short : path.length ≤ depth) : slot next other root path = slot next entry root path := by
  cases path with
  | nil => rfl
  | cons i path =>
    rw [length_cons] at short
    have before := node_congr same (show path.length ≤ depth by omega)
    cases found : node next entry root path with
    | none => rw [slot_of_missing found, slot_of_missing (before.trans found)]
    | some page =>
      rw [slot_of_node found, slot_of_node (before.trans found), same path page i (by omega) found]

/-- No two of the tables are the same page. -/
def Distinct (next : Entry → Option Page) (entry : Page → Index → Entry) (root : Page)
    (depth : Nat) : Prop :=
  ∀ path path' page, path.length < depth → path'.length < depth →
    node next entry root path = some page → node next entry root path' = some page → path = path'

/-- A store to one entry.  When the entry links a further table, that table is empty and there was
none before. -/
structure Stores (next : Entry → Option Page) (entry other : Page → Index → Entry) (root : Page)
    (depth : Nat) (i : Index) (path : List Index) (page : Page) : Prop where
  found : node next entry root path = some page
  short : path.length < depth
  same : ∀ j path' page', path'.length < depth → node next entry root path' = some page' →
    j :: path' ≠ i :: path → other page' j = entry page' j
  vacant : path.length + 1 < depth → node next entry root (i :: path) = none
  empty : path.length + 1 < depth → ∀ page', next (other page i) = some page' →
    ∀ j, other page' j = 0

variable [DecidableEq Index] {i : Index} {page : Page}

/-- The store changes one entry of the tree. -/
theorem Stores.slot_eq (null : next 0 = none)
    (stores : Stores next entry other root depth i path page) {path' : List Index}
    (short : path'.length ≤ depth) :
    slot next other root path' =
      if path' = i :: path then other page i else slot next entry root path' := by
  have avoid : ∀ path' : List Index, path'.length ≤ depth → ¬ (i :: path) <:+ path' →
      node next other root path' = node next entry root path' := by
    refine node_agree (fun j path' suffix => suffix.trans (suffix_cons j path')) ?_
    intro j path' page' below untouched found
    refine stores.same j path' page' below found fun same => untouched ?_
    rw [same]
  have here : node next other root path = some page := by
    rw [avoid path stores.short.le fun suffix => ?_, stores.found]
    have length := suffix.length_le
    rw [length_cons] at length
    omega
  have beyond : path.length + 1 < depth → ∀ j, slot next other root (j :: i :: path) = 0 := by
    intro deeper j
    have link : node next other root (i :: path) = next (other page i) := by
      rw [node, here]
      rfl
    cases target : next (other page i) with
    | none => exact slot_of_missing (link.trans target) j
    | some page' => rw [slot_of_node (link.trans target), stores.empty deeper page' target]
  cases path' with
  | nil => rfl
  | cons j path' =>
    rw [length_cons] at short
    by_cases whole : j :: path' = i :: path
    · cases whole
      rw [if_pos rfl, slot_of_node here]
    rw [if_neg whole]
    by_cases within : (i :: path) <:+ path'
    · have deeper := within.length_le
      rw [length_cons] at deeper
      rw [slot_of_missing (node_none_of_suffix (stores.vacant (by omega)) within)]
      obtain ⟨first, rfl⟩ := within
      rcases eq_nil_or_concat first with rfl | ⟨init, k, rfl⟩
      · exact beyond (by omega) j
      · have missing : node next other root (k :: i :: path) = none := by
          rw [node_cons null, beyond (by omega), null]
        exact slot_of_missing (node_none_of_suffix missing ⟨init, by simp⟩) j
    · have before := avoid path' (by omega) within
      cases found : node next entry root path' with
      | none => rw [slot_of_missing found, slot_of_missing (before.trans found)]
      | some page' =>
        rw [slot_of_node found, slot_of_node (before.trans found),
          stores.same j path' page' (by omega) found whole]

end Radix

end OsLab
