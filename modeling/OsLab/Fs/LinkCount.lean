import OsLab.Fs.Model
import OsLab.Lib.Run

/-!
# The link count of a file

`sys_link` raises `nlink` and `sys_unlink` lowers it, with the entry that is made or removed.
The count is a `short` and is raised without a check: it is the number of names as long as there
are at most 32767 of them.
-/

namespace OsLab.Fs

open Finset BitVec

/-- An entry of a directory: the inode number of the directory and the name. -/
abbrev Entry := Nat × Name

/-- A file with the entries that hold its number; those in `taken` hold others. -/
structure Linked where
  node : Dinode
  names : Finset Entry
  taken : Finset Entry

namespace Linked

/-- The last `iput` of a call, when `others` references to the inode remain. -/
def iput (others : Nat) (f : Linked) : Linked :=
  if others = 0 ∧ f.node.nlink = 0 then
    { f with node := { f.node with type := 0, size := 0, addrs := fun _ => 0 } }
  else f

/-- `sys_link` after `namei(old)` has found the file; `new` is what `nameiparent` gives. -/
def sysLink (others : Nat) (new : Option Entry) (f : Linked) : Except Stop (Int × Linked) :=
  if f.node.type = 0 then
    .error .ilockNoType
  else if f.node.type = tDir then
    .ok (-1, f.iput others)
  else
    let raised := { f with node := { f.node with nlink := f.node.nlink + 1 } }
    let bad := { raised with node := { raised.node with nlink := raised.node.nlink - 1 } }
    match new with
    | none => .ok (-1, bad.iput others)
    | some entry =>
      -- `dirlink` refuses a name that the directory has
      if entry ∈ f.names ∪ f.taken then
        .ok (-1, bad.iput others)
      else
        .ok (0, iput others { raised with names := insert entry raised.names })

/-- `sys_unlink` of a file after `dirlookup` has found it by this name. -/
def sysUnlink (others : Nat) (name : Entry) (f : Linked) : Except Stop (Int × Linked) :=
  if f.node.type = 0 then
    .error .ilockNoType
  else if f.node.nlink.toInt < 1 then
    .error .unlinkNlink
  else
    .ok (0, iput others { f with
        node := { f.node with nlink := f.node.nlink - 1 }
        names := f.names.erase name })

end Linked

/-- A call on a name of the file, with the references that others hold when it returns. -/
inductive LinkCall
  | link (others : Nat) (old : Entry) (new : Option Entry)
  | unlink (others : Nat) (name : Entry)

namespace LinkCall

/-- The name that leads to the file. -/
def name : LinkCall → Entry
  | link _ old _ => old
  | unlink _ name => name

/-- What the call does to the file. -/
def perform : LinkCall → Linked → Except Stop (Int × Linked)
  | link others _ new => Linked.sysLink others new
  | unlink others name => Linked.sysUnlink others name

end LinkCall

/-- The file after a call; a panic leaves it as it was. -/
def Linked.after (f : Linked) (call : LinkCall) : Linked :=
  match call.perform f with
  | .ok (_, g) => g
  | .error _ => f

/-- The calls on names of a file that is no directory, as far as they return success. -/
def linking : System Linked LinkCall where
  Enabled f call := f.node.type ≠ tDir ∧ call.name ∈ f.names ∧ ∃ g, call.perform f = .ok (0, g)
  next := Linked.after

/-- The names that the count can tell apart. -/
def maxNames : Nat := 32767

namespace Linked

/-- The count is the number of names, in 16 bits. -/
def Counted (f : Linked) : Prop := f.node.nlink = .ofNat 16 f.names.card

variable {f g : Linked} {others : Nat} {entry : Entry} {call : LinkCall}

@[simp]
theorem iput_names : (f.iput others).names = f.names := by
  unfold iput
  split <;> rfl

@[simp]
theorem iput_nlink : (f.iput others).node.nlink = f.node.nlink := by
  unfold iput
  split <;> rfl

theorem nlink_of_iput_freed (used : f.node.type ≠ 0) (freed : (f.iput others).node.type = 0) :
    f.node.nlink = 0 := by
  unfold iput at freed
  split at freed
  · next last => exact last.2
  · exact absurd freed used

theorem Counted.iput (counted : f.Counted) (others : Nat) : (f.iput others).Counted := by
  rw [Counted, iput_nlink, iput_names]
  exact counted

/-- The signed count is the number of names as long as it can be. -/
theorem Counted.toInt_eq_iff (counted : f.Counted) :
    f.node.nlink.toInt = f.names.card ↔ f.names.card ≤ maxNames := by
  rw [counted, toInt_eq_toNat_bmod, toNat_ofNat, maxNames, Int.bmod_def]
  split <;> omega

theorem counted_of_toInt_eq (exact : f.node.nlink.toInt = f.names.card) : f.Counted := by
  rw [Counted, ← ofInt_natCast, ← exact, ofInt_toInt]

/-- A call that returns success makes one entry or removes one. -/
theorem after_of_enabled (enabled : linking.Enabled f call) : f.node.type ≠ 0 ∧
    ((∃ others, ∃ entry ∉ f.names, f.after call = iput others { f with
          node := { f.node with nlink := f.node.nlink + 1 }
          names := insert entry f.names }) ∨
      ∃ others, ∃ entry ∈ f.names, f.after call = iput others { f with
          node := { f.node with nlink := f.node.nlink - 1 }
          names := f.names.erase entry }) := by
  obtain ⟨file, named, g, returns⟩ := enabled
  have after : f.after call = g := by rw [Linked.after, returns]
  rw [after]
  cases call with
  | link others old new =>
    simp only [LinkCall.perform, sysLink, if_neg file] at returns
    split at returns
    · cases returns
    rename_i used
    refine ⟨used, .inl ⟨others, ?_⟩⟩
    cases new with
    | none => cases returns
    | some entry =>
      simp only at returns
      split at returns
      · cases returns
      · rename_i free
        cases returns
        exact ⟨entry, fun old => free (mem_union_left _ old), rfl⟩
  | unlink others name =>
    simp only [LinkCall.perform, sysUnlink] at returns
    split at returns
    · cases returns
    rename_i used
    split at returns
    · cases returns
    · cases returns
      exact ⟨used, .inr ⟨others, name, named, rfl⟩⟩

/-- Every call keeps the count in step with the names, in 16 bits. -/
theorem Counted.after (counted : f.Counted) (enabled : linking.Enabled f call) :
    (f.after call).Counted := by
  obtain ⟨_, ⟨others, entry, new, after⟩ | ⟨others, entry, old, after⟩⟩ := after_of_enabled enabled
  · rw [after]
    refine Counted.iput ?_ others
    rw [Counted, card_insert_of_notMem new, ofNat_add, ← counted]
    rfl
  · rw [after]
    refine Counted.iput ?_ others
    have count := card_erase_add_one old
    rw [Counted, ← count, ofNat_add] at counted
    rw [Counted, counted]
    exact add_sub_cancel _ _

/-- A call that frees the file leaves no name, if the count has not wrapped. -/
theorem names_of_after_freed (counted : f.Counted) (enabled : linking.Enabled f call)
    (few : (f.after call).names.card ≤ maxNames) (freed : (f.after call).node.type = 0) :
    (f.after call).names = ∅ := by
  have exact := (counted.after enabled).toInt_eq_iff.mpr few
  have zero : (f.after call).node.nlink = 0 := by
    obtain ⟨used, ⟨others, entry, new, after⟩ | ⟨others, entry, old, after⟩⟩ :=
      after_of_enabled enabled
    all_goals
      rw [after] at freed ⊢
      rw [iput_nlink]
      exact nlink_of_iput_freed used freed
  rw [zero] at exact
  exact card_eq_zero.mp (Int.natCast_eq_zero.mp exact.symm)

/-- With a name left and few names, `sys_unlink` finds a positive count. -/
theorem sysUnlink_ne_nlink (counted : f.Counted) (few : f.names.card ≤ maxNames)
    (named : entry ∈ f.names) : f.sysUnlink others entry ≠ .error .unlinkNlink := by
  have exact := counted.toInt_eq_iff.mpr few
  have some : 0 < f.names.card := card_pos.mpr ⟨entry, named⟩
  unfold sysUnlink
  split
  · simp
  · rw [if_neg (by omega)]
    simp

end Linked

/-- The `k`-th of many names: 16384 in each directory. -/
def manyName (k : Nat) : Entry :=
  (k / 16384 + 1, [.ofNat 8 (128 + k % 128), .ofNat 8 (128 + k / 128 % 128)])

theorem manyName_injective : Function.Injective manyName := by
  intro j k same
  simp only [manyName, Prod.mk.injEq, List.cons.injEq, ← toNat_inj, toNat_ofNat, and_true] at same
  omega

/-- A file with `k` names. -/
def manyNames (k : Nat) : Linked where
  node := { Dinode.fresh 2 with nlink := .ofNat 16 k }
  names := (Finset.range k).image manyName
  taken := ∅

theorem manyNames_used (k : Nat) : (manyNames k).node.type ≠ 0 :=
  show (2 : BitVec 16) ≠ 0 by decide

theorem manyNames_file (k : Nat) : (manyNames k).node.type ≠ tDir :=
  show (2 : BitVec 16) ≠ tDir by decide

theorem manyNames_card (k : Nat) : (manyNames k).names.card = k := by
  rw [manyNames, card_image_of_injective _ manyName_injective, card_range]

theorem manyName_mem_iff (j k : Nat) : manyName j ∈ (manyNames k).names ↔ j < k := by
  rw [manyNames, manyName_injective.mem_finset_image, mem_range]

/-- The call that makes the next name. -/
def linkNext (others k : Nat) : LinkCall := .link others (manyName 0) (some (manyName k))

theorem linkNext_perform (others k : Nat) : (linkNext others k).perform (manyNames k) =
    .ok (0, (manyNames (k + 1)).iput others) := by
  have new : manyName k ∉ (manyNames k).names ∪ (manyNames k).taken := by
    simp [manyNames, manyName_injective.eq_iff]
  have names : insert (manyName k) (manyNames k).names = (manyNames (k + 1)).names := by
    rw [manyNames, manyNames, range_add_one, image_insert]
  simp only [linkNext, LinkCall.perform, Linked.sysLink, if_neg new, names]
  rw [if_neg (manyNames_used k), if_neg (manyNames_file k)]
  simp [manyNames, ofNat_add]

theorem linkNext_enabled (others : Nat) {k : Nat} (some : 0 < k) :
    linking.Enabled (manyNames k) (linkNext others k) :=
  ⟨manyNames_file k, (manyName_mem_iff 0 k).mpr some, _, linkNext_perform others k⟩

theorem linkNext_after (others k : Nat) :
    linking.next (manyNames k) (linkNext others k) = (manyNames (k + 1)).iput others := by
  simp only [linking, Linked.after, linkNext_perform]

/-- The file gets any number of names, while someone has it open. -/
theorem manyNames_reaches (k : Nat) : linking.Reaches (manyNames 1) (manyNames (k + 1)) := by
  induction k with
  | zero => exact .refl _
  | succ k ih =>
    have next := ih.snoc _ (linkNext_enabled 1 k.succ_pos)
    rwa [linkNext_after] at next

/-- After every sequence of successful calls the count is the number of names exactly when there are
at most 32767.  While there are, no `sys_unlink` panics and the file is free only without a name. -/
theorem nlink_exact_iff_few_names (f : Linked) (used : f.node.type ≠ 0)
    (exact : f.node.nlink.toInt = f.names.card) :
    (∀ g, linking.Reaches f g → (g.node.nlink.toInt = g.names.card ↔ g.names.card ≤ maxNames)) ∧
    ∀ g, (linking.restrict fun h call => (h.after call).names.card ≤ maxNames).Reaches f g →
      (∀ others, ∀ name ∈ g.names, g.sysUnlink others name ≠ .error .unlinkNlink) ∧
        (g.node.type = 0 → g.names = ∅) := by
  have start := Linked.counted_of_toInt_eq exact
  refine ⟨fun g run => ?_, fun g run => ?_⟩
  · have counted : g.Counted := run.invariant (fun _ _ ih enabled => ih.after enabled) start
    exact counted.toInt_eq_iff
  obtain ⟨counted, few, freed⟩ :
      g.Counted ∧ g.names.card ≤ maxNames ∧ (g.node.type = 0 → g.names = ∅) := by
    refine run.invariant
      (P := fun g => g.Counted ∧ g.names.card ≤ maxNames ∧ (g.node.type = 0 → g.names = ∅))
      (fun h call ih enabled => ?_)
      ⟨start, start.toInt_eq_iff.mp exact, (absurd · used)⟩
    exact ⟨ih.1.after enabled.1, enabled.2, Linked.names_of_after_freed ih.1 enabled.1 enabled.2⟩
  exact ⟨fun others name named => Linked.sysUnlink_ne_nlink counted few named, freed⟩

/-- A file with one name and its link count of 1. -/
theorem one_name_nlink_exact : (manyNames 1).node.nlink.toInt = 1 ∧ ∀ g,
    linking.Reaches (manyNames 1) g →
      (g.node.nlink.toInt = g.names.card ↔ g.names.card ≤ maxNames) := by
  refine ⟨by decide, (nlink_exact_iff_few_names (manyNames 1) (manyNames_used 1) ?_).1⟩
  rw [manyNames_card]
  decide

/-- With 32768 names the count is negative and `sys_unlink` panics; the call that makes the
65536th name frees the file. -/
theorem nlink_wraps :
    (∃ g, linking.Reaches (manyNames 1) g ∧ g.names.card = 32768 ∧ g.node.nlink.toInt = -32768 ∧
      ∀ others, ∀ name ∈ g.names, g.sysUnlink others name = .error .unlinkNlink) ∧
    ∃ g, linking.Reaches (manyNames 1) g ∧ g.names.card = 65536 ∧ g.node.type = 0 := by
  refine ⟨⟨_, manyNames_reaches 32767, manyNames_card _, by decide, fun others name _ => ?_⟩, ?_⟩
  · rw [Linked.sysUnlink, if_neg (manyNames_used _), if_pos (by decide)]
  have run : linking.Reaches (manyNames 1) (manyNames 65535) := manyNames_reaches 65534
  have last := run.snoc _ (linkNext_enabled 0 (Nat.succ_pos 65534))
  rw [linkNext_after] at last
  refine ⟨_, last, ?_, ?_⟩
  · rw [Linked.iput_names, manyNames_card]
  · rw [Linked.iput, if_pos (by decide)]

end OsLab.Fs
