import OsLab.Lib.Radix
import OsLab.Vm.Model

/-!
# Page tables as trees of pages

The entries of a page table make a tree with three levels, and the translation of an address is
the entry at the end of its path.  `walk` may add tables to the tree; it leaves every entry at the
end of a path as it is.
-/

namespace OsLab.Vm

open Act Function Nat

section

variable (pte : Nat)

theorem valid_iff : valid pte = true ↔ pte % 2 = 1 := by
  rw [valid, pteV, bne_iff_ne, and_one_is_mod]
  omega

theorem user_iff : user pte = true ↔ pte / 16 % 2 = 1 := by
  have bit : pte &&& pteU = pte / 2 ^ 4 % 2 * 2 ^ 4 := by
    rw [← toNat_testBit]
    exact and_two_pow pte 4
  rw [user, bit, bne_iff_ne]
  omega

theorem pteFlags_eq : pteFlags pte = pte % 1024 :=
  and_two_pow_sub_one_eq_mod pte 10

theorem pte2pa_eq : pte2pa pte = pte / 1024 * 4096 % 2 ^ 64 := by
  rw [pte2pa, shiftRight_eq_div_pow, shiftLeft_eq]

theorem pgsize_dvd_pte2pa : pgsize ∣ pte2pa pte := by
  rw [pte2pa_eq, pgsize]
  omega

theorem valid_pteFlags : valid (pteFlags pte) = valid pte := by
  rw [Bool.eq_iff_iff, valid_iff, valid_iff, pteFlags_eq]
  omega

theorem user_pteFlags : user (pteFlags pte) = user pte := by
  rw [Bool.eq_iff_iff, user_iff, user_iff, pteFlags_eq]
  omega

end

/-- An entry of an address and flags is their sum. -/
theorem pa2pte_or {flags : Nat} (few : flags < 1024) (pa : Nat) :
    pa2pte pa ||| flags = pa / 4096 * 1024 + flags := by
  rw [pa2pte, ← shiftLeft_add_eq_or_of_lt few, shiftRight_eq_div_pow, shiftLeft_eq]

theorem or_pteV_lt {perm : Nat} (few : perm < 1024) : perm ||| pteV < 1024 :=
  or_lt_two_pow (n := 10) few (by decide)

theorem valid_or_pteV (perm : Nat) : valid (perm ||| pteV) = true := by
  rw [valid_iff, pteV, or_mod_two_eq_one]
  exact .inr rfl

section

variable {pa perm : Nat} (word : pa < 2 ^ 64) (few : perm < 1024)

include word few

theorem leaf_lt : pa2pte pa ||| perm ||| pteV < 2 ^ 64 := by
  have flags := or_pteV_lt few
  rw [Nat.or_assoc, pa2pte_or flags]
  omega

theorem pte2pa_leaf : pte2pa (pa2pte pa ||| perm ||| pteV) = pgrounddown pa := by
  have flags := or_pteV_lt few
  rw [Nat.or_assoc, pa2pte_or flags, pte2pa_eq, pgrounddown, pgsize]
  omega

omit word in
theorem pteFlags_leaf : pteFlags (pa2pte pa ||| perm ||| pteV) = perm ||| pteV := by
  have flags := or_pteV_lt few
  rw [Nat.or_assoc, pa2pte_or flags, pteFlags_eq]
  omega

omit word in
theorem valid_leaf : valid (pa2pte pa ||| perm ||| pteV) = true := by
  rw [← valid_pteFlags, pteFlags_leaf few, valid_or_pteV]

end

theorem px_lt (level va : Nat) : px level va < 512 := by
  rw [px, show 0x1ff = 2 ^ 9 - 1 from rfl, and_two_pow_sub_one_eq_mod]
  exact mod_lt _ (by decide)

/-- The indices of an address, the last one first. -/
def indices (va : Nat) : List Nat := [px 0 va, px 1 va, px 2 va]

theorem indices_eq (va : Nat) :
    indices va = [va / 2 ^ 12 % 512, va / 2 ^ 21 % 512, va / 2 ^ 30 % 512] := by
  simp only [indices, px, show 0x1ff = 2 ^ 9 - 1 from rfl, and_two_pow_sub_one_eq_mod,
    shiftRight_eq_div_pow]

/-- Addresses have one path if and only if they are of one page. -/
theorem indices_inj {va other : Nat} (inside : va < maxva) (inside' : other < maxva) :
    indices va = indices other ↔ va / pgsize = other / pgsize := by
  simp only [indices_eq, List.cons.injEq, and_true, maxva, pgsize] at *
  omega

def entry (mem : Nat → Page) (table i : Nat) : Nat := (mem (table / pgsize)).getLE (8 * i) 8

/-- The page to which an entry leads. -/
def target (pte : Nat) : Option Nat := if valid pte then some (pte2pa pte) else none

/-- The page at the end of a path of a page table. -/
def node (mem : Nat → Page) (root : Nat) (path : List Nat) : Option Nat :=
  Radix.node target (entry mem) root path

/-- The entry at the end of a path of a page table. -/
def slot (mem : Nat → Page) (root : Nat) (path : List Nat) : Nat :=
  Radix.slot target (entry mem) root path

theorem target_zero : target 0 = none := rfl

theorem target_eq_some {pte page : Nat} :
    target pte = some page ↔ valid pte = true ∧ pte2pa pte = page := by
  rw [target]
  split <;> simp [*]

section

variable {mem mem' : Nat → Page} {root i : Nat} {path : List Nat}

theorem node_nil : node mem root [] = some root := rfl

theorem node_cons : node mem root (i :: path) = target (slot mem root (i :: path)) :=
  Radix.node_cons target_zero i path

theorem slot_of_node {table : Nat} (found : node mem root path = some table) :
    slot mem root (i :: path) = entry mem table i := Radix.slot_of_node found i

theorem slot_of_missing (missing : node mem root path = none) : slot mem root (i :: path) = 0 :=
  Radix.slot_of_missing missing i

/-- The tables are determined by the entries that lead to them. -/
theorem node_of_slot (same : slot mem' root path = slot mem root path) :
    node mem' root path = node mem root path := by
  cases path with
  | nil => exact node_nil.trans node_nil.symm
  | cons i path => exact node_cons.trans ((congrArg target same).trans node_cons.symm)

end

/-- The physical page and the flags for a virtual address. -/
def translate (mem : Nat → Page) (root va : Nat) : Option (Nat × Nat) :=
  if valid (slot mem root (indices va)) then
    some (pte2pa (slot mem root (indices va)), pteFlags (slot mem root (indices va)))
  else none

/-- The tables of a page table are distinct pages. -/
structure Tree (mem : Nat → Page) (root : Nat) : Prop where
  aligned : pgsize ∣ root
  nonnull : ∀ path table, path.length < 3 → node mem root path = some table → table ≠ 0
  distinct : Radix.Distinct target (entry mem) root 3

/-- A page is a table of a page table. -/
def IsTable (mem : Nat → Page) (root page : Nat) : Prop :=
  ∃ path, path.length < 3 ∧ node mem root path = some page

variable {mem : Nat → Page} {root : Nat}

/-- The tables of a page table are pages. -/
structure Linked (mem : Nat → Page) (root : Nat) : Prop where
  aligned : pgsize ∣ root
  nonnull : ∀ path table, path.length < 3 → node mem root path = some table → table ≠ 0

theorem Tree.linked (tree : Tree mem root) : Linked mem root := ⟨tree.aligned, tree.nonnull⟩

variable {page : Nat}

theorem Linked.node_aligned (linked : Linked mem root) {path : List Nat}
    (found : node mem root path = some page) : pgsize ∣ page := by
  cases path with
  | nil =>
    cases found
    exact linked.aligned
  | cons i path =>
    rw [node_cons, target_eq_some] at found
    rw [← found.2]
    exact pgsize_dvd_pte2pa _

theorem Tree.node_aligned (tree : Tree mem root) {path : List Nat}
    (found : node mem root path = some page) : pgsize ∣ page :=
  tree.linked.node_aligned found

theorem entry_zero {table i : Nat} (zero : mem (table / pgsize) = fun _ => 0) :
    entry mem table i = 0 := by
  rw [entry, zero]
  exact Bytes.getLE_zero ..

variable {s u : State} {table i pte : Nat}

theorem entry_address (aligned : pgsize ∣ table) (low : i < 512) :
    (table + 8 * i) / pgsize = table / pgsize ∧ (table + 8 * i) % pgsize = 8 * i := by
  obtain ⟨n, rfl⟩ := aligned
  simp only [pgsize]
  omega

theorem load64_entry (aligned : pgsize ∣ table) (low : i < 512) (s : State) :
    load64 (table + 8 * i) s = .ok (entry s.page table i, s) := by
  obtain ⟨page, offset⟩ := entry_address aligned low
  change Except.ok ((s.page ((table + 8 * i) / pgsize)).getLE ((table + 8 * i) % pgsize) 8, s) = _
  rw [page, offset, entry]

/-- The state after a store to an entry. -/
def State.setEntry (s : State) (table i pte : Nat) : State :=
  s.setPage (table / pgsize) ((s.page (table / pgsize)).putLE (8 * i) 8 pte)

theorem store64_entry (aligned : pgsize ∣ table) (low : i < 512) (pte : Nat) (s : State) :
    store64 (table + 8 * i) pte s = .ok ((), s.setEntry table i pte) := by
  obtain ⟨page, offset⟩ := entry_address aligned low
  change Except.ok ((), s.setPage ((table + 8 * i) / pgsize)
    ((s.page ((table + 8 * i) / pgsize)).putLE ((table + 8 * i) % pgsize) 8 pte)) = _
  rw [page, offset, State.setEntry]

theorem entry_setEntry (low : i < 512) (word : pte < 2 ^ 64) :
    entry (s.setEntry table i pte).page table i = pte := by
  rw [entry, State.setEntry, State.setPage]
  dsimp only
  rw [update_self, Bytes.getLE_putLE]
  · exact mod_eq_of_lt word
  · simp only [pgsize]
    omega

theorem entry_setEntry_ne {table' j : Nat} (other : table' / pgsize ≠ table / pgsize ∨ j ≠ i) :
    entry (s.setEntry table i pte).page table' j = entry s.page table' j := by
  rw [entry, entry, State.setEntry, State.setPage]
  dsimp only
  by_cases same : table' / pgsize = table / pgsize
  · rw [same, update_self, Bytes.getLE_putLE_disjoint]
    have apart := other.resolve_left fun differ => differ same
    omega
  · rw [update_of_ne same]

theorem ne_of_aligned {a b : Nat} (left : pgsize ∣ a) (right : pgsize ∣ b) (ne : a ≠ b) :
    a / pgsize ≠ b / pgsize := fun same => ne (Nat.div_left_inj left right |>.mp same)

namespace Tree

variable (tree : Tree s.page root) {path : List Nat} (found : node s.page root path = some table)

include tree found

/-- The entry of another path is in another page or at another index. -/
theorem entry_ne (short : path.length < 3) {path' : List Nat} {table' j : Nat}
    (short' : path'.length < 3) (found' : node s.page root path' = some table')
    (other : j :: path' ≠ i :: path) : table' / pgsize ≠ table / pgsize ∨ j ≠ i := by
  by_cases same : table' = table
  · refine .inr fun index => other ?_
    rw [index, tree.distinct path' path table short' short (same ▸ found') found]
  · exact .inl (ne_of_aligned (tree.node_aligned found') (tree.node_aligned found) same)

/-- A store to the end of a path changes the entry there and nothing else. -/
theorem slot_setEntry (length : path.length = 2) (low : i < 512) (word : pte < 2 ^ 64)
    {path' : List Nat} (short : path'.length ≤ 3) :
    slot (s.setEntry table i pte).page root path' =
      if path' = i :: path then pte else slot s.page root path' := by
  have stores : Radix.Stores target (entry s.page) (entry (s.setEntry table i pte).page) root 3 i
      path table := by
    refine ⟨found, by omega, fun j path' table' below found' other => ?_, by omega, by omega⟩
    exact entry_setEntry_ne (tree.entry_ne found (by omega) below found' other)
  have stored := stores.slot_eq target_zero short
  rwa [entry_setEntry low word] at stored

end Tree

theorem Tree.congr {mem mem' : Nat → Page} (tree : Tree mem root)
    (same : ∀ path, path.length < 3 → node mem' root path = node mem root path) :
    Tree mem' root where
  aligned := tree.aligned
  nonnull path table short found :=
    tree.nonnull path table short ((same path short).symm.trans found)
  distinct path path' table short short' found found' :=
    tree.distinct path path' table short short' ((same path short).symm.trans found)
      ((same path' short').symm.trans found')

theorem isTable_congr {mem mem' : Nat → Page}
    (same : ∀ path, path.length < 3 → node mem' root path = node mem root path) (page : Nat) :
    IsTable mem' root page ↔ IsTable mem root page := by
  constructor
  · rintro ⟨path, short, found⟩
    exact ⟨path, short, (same path short).symm.trans found⟩
  · rintro ⟨path, short, found⟩
    exact ⟨path, short, (same path short).trans found⟩

variable {layout : Layout} {safe : Stop → Prop}

/-- An address that `kfree` accepts. -/
structure Managed (layout : Layout) (page : Nat) : Prop where
  aligned : pgsize ∣ page
  above : layout.kend ≤ page
  below : page < phystop

theorem Managed.pos (managed : Managed layout page) : 0 < page := by
  have text := layout.low
  have room := layout.below
  have above := managed.above
  simp only [kernbase, pgsize] at text room
  omega

theorem Managed.lt (managed : Managed layout page) : page < 2 ^ 64 :=
  managed.below.trans (by decide)

/-- The free pages are distinct pages that `kfree` accepts. -/
structure FreeList (layout : Layout) (freelist : List Nat) : Prop where
  nodup : freelist.Nodup
  managed : ∀ page ∈ freelist, Managed layout page

/-- `kalloc` returns nothing or the first free page. -/
theorem ensures_kalloc {post : Nat → State → Prop} (none : ∀ left, post 0 { s with left := left })
    (some : ∀ page rest left, s.freelist = page :: rest → post page
      { s with page := update s.page (page / pgsize) fun _ => 5, freelist := rest,
               left := left }) : Ensures safe kalloc s post := by
  cases given : s.left 0 with
  | false =>
    have outcome : kalloc s = .ok (0, { s with left := fun n => s.left (n + 1) }) := by
      rw [kalloc, bind_of_ok (show (get : VmM State) s = .ok (s, s) from rfl), given]
      rfl
    exact (ensures_of_ok outcome).mpr (none _)
  | true =>
    cases list : s.freelist with
    | nil =>
      have outcome : kalloc s = .ok (0, { s with left := fun n => s.left (n + 1) }) := by
        rw [kalloc, bind_of_ok (show (get : VmM State) s = .ok (s, s) from rfl), given, list]
        rfl
      exact (ensures_of_ok outcome).mpr (none _)
    | cons page rest =>
      have outcome : kalloc s = .ok (page,
          { s with page := update s.page (page / pgsize) fun _ => 5,
                   freelist := rest, left := fun n => s.left (n + 1) }) := by
        rw [kalloc, bind_of_ok (show (get : VmM State) s = .ok (s, s) from rfl), given, list]
        rfl
      exact (ensures_of_ok outcome).mpr (some page rest _ list)

end OsLab.Vm
