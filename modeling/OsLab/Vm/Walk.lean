import OsLab.Vm.Table

/-!
# `walk`

A lookup changes nothing.  With allocation, `walk` links free pages into the tree as empty tables;
the tree grows and every entry at the end of a path stays as it is.
-/

namespace OsLab.Vm

open Act Function List

variable {layout : Layout} {safe : Stop → Prop} {s t u : State} {root table i page : Nat}
  {path : List Nat}

section

variable (aligned : pgsize ∣ page) (word : page < 2 ^ 64)

include aligned word

theorem pte2pa_link : pte2pa (pa2pte page ||| pteV) = page := by
  have leaf := pte2pa_leaf word (show 0 < 1024 by decide)
  rwa [Nat.or_zero, pgrounddown, Nat.div_mul_cancel aligned] at leaf

omit aligned in
theorem link_lt : pa2pte page ||| pteV < 2 ^ 64 := by
  have leaf := leaf_lt word (show 0 < 1024 by decide)
  rwa [Nat.or_zero] at leaf

end

theorem pteFlags_link (page : Nat) : pteFlags (pa2pte page ||| pteV) = pteV := by
  have leaf : pteFlags (pa2pte page ||| 0 ||| pteV) = 0 ||| pteV := pteFlags_leaf (by decide)
  rwa [Nat.or_zero] at leaf

theorem target_link (aligned : pgsize ∣ page) (word : page < 2 ^ 64) :
    target (pa2pte page ||| pteV) = some page := by
  rw [target_eq_some, pte2pa_link aligned word, ← valid_pteFlags, pteFlags_link]
  exact ⟨rfl, rfl⟩

/-- The free pages are distinct pages of the allocator, and none is a table. -/
structure Spare (layout : Layout) (s : State) (root : Nat) : Prop where
  free : FreeList layout s.freelist
  apart : ∀ page ∈ s.freelist, ¬ IsTable s.page root page

/-- A page table with free pages outside it. -/
structure Table (layout : Layout) (s : State) (root : Nat) : Prop extends Spare layout s root where
  tree : Tree s.page root

/-- Free pages were linked as tables. -/
structure Grows (s u : State) (root : Nat) : Prop where
  tree : Tree u.page root
  taken : ∃ taken, s.freelist = taken ++ u.freelist ∧
    ∀ page, page ∈ taken ↔ IsTable u.page root page ∧ ¬ IsTable s.page root page
  leaf : ∀ path, path.length = 3 → slot u.page root path = slot s.page root path
  kept : ∀ path table, path.length < 3 → node s.page root path = some table →
    node u.page root path = some table

theorem Grows.refl (tree : Tree s.page root) : Grows s s root where
  tree := tree
  taken := ⟨[], rfl, fun _ => ⟨nofun, fun both => absurd both.1 both.2⟩⟩
  leaf _ _ := rfl
  kept _ _ _ found := found

theorem Grows.isTable (grows : Grows s u root) {page : Nat} (is : IsTable s.page root page) :
    IsTable u.page root page := by
  obtain ⟨path, short, found⟩ := is
  exact ⟨path, short, grows.kept path page short found⟩

theorem Grows.trans (first : Grows s t root) (second : Grows t u root) : Grows s u root where
  tree := second.tree
  taken := by
    obtain ⟨taken, list, new⟩ := first.taken
    obtain ⟨taken', list', new'⟩ := second.taken
    refine ⟨taken ++ taken', by rw [list, list', append_assoc], fun page => ?_⟩
    rw [mem_append, new, new']
    constructor
    · rintro (⟨is, fresh⟩ | ⟨is, fresh⟩)
      · exact ⟨second.isTable is, fresh⟩
      · exact ⟨is, fun old => fresh (first.isTable old)⟩
    · rintro ⟨is, fresh⟩
      by_cases mid : IsTable t.page root page
      · exact .inl ⟨mid, fresh⟩
      · exact .inr ⟨is, mid⟩
  leaf path length := (second.leaf path length).trans (first.leaf path length)
  kept path table short found := second.kept path table short (first.kept path table short found)

theorem Grows.rooted (grows : Grows s u root) (rooted : Table layout s root) :
    Table layout u root := by
  obtain ⟨taken, list, new⟩ := grows.taken
  have free := rooted.free
  rw [list] at free
  refine ⟨⟨⟨(nodup_append.mp free.nodup).2.1, fun page listed =>
    free.managed page (mem_append_right _ listed)⟩, fun page listed is => ?_⟩, grows.tree⟩
  have old : page ∈ s.freelist := list ▸ mem_append_right _ listed
  have fresh := (new page).mpr ⟨is, rooted.apart page old⟩
  exact (nodup_append.mp free.nodup).2.2 page fresh page listed rfl

/-- The first free page, cleared, is linked where a path had no table. -/
structure Links (s u : State) (root i : Nat) (path : List Nat) (page : Nat) : Prop where
  slot : ∀ path', path'.length ≤ 3 → slot u.page root path' =
    if path' = i :: path then pa2pte page ||| pteV else Vm.slot s.page root path'
  vacant : node s.page root (i :: path) = none
  short : path.length < 2
  list : s.freelist = page :: u.freelist

namespace Links

variable (links : Links s u root i path page)

include links

theorem node_of_ne {path' : List Nat} (short : path'.length < 3) (other : path' ≠ i :: path) :
    node u.page root path' = node s.page root path' :=
  node_of_slot (by rw [links.slot path' short.le, if_neg other])

theorem listed : page ∈ s.freelist := by
  rw [links.list]
  exact mem_cons_self

theorem length : (i :: path).length < 3 := Nat.succ_lt_succ links.short

variable (rooted : Table layout s root)

include rooted

theorem node_new : node u.page root (i :: path) = some page := by
  have managed := rooted.free.managed page links.listed
  rw [node_cons, links.slot _ links.length.le, if_pos rfl, target_link managed.aligned managed.lt]

/-- A table is the new one or has been there before. -/
theorem node_cases {path' : List Nat} (short : path'.length < 3)
    (found : node u.page root path' = some table) :
    path' = i :: path ∧ table = page ∨ node s.page root path' = some table ∧ table ≠ page := by
  by_cases same : path' = i :: path
  · rw [same, links.node_new rooted] at found
    exact .inl ⟨same, (Option.some.inj found).symm⟩
  · rw [links.node_of_ne short same] at found
    refine .inr ⟨found, ?_⟩
    rintro rfl
    exact rooted.apart table links.listed ⟨path', short, found⟩

theorem tree : Tree u.page root where
  aligned := rooted.tree.aligned
  nonnull path' table short found := by
    rcases links.node_cases rooted short found with ⟨_, rfl⟩ | ⟨old, _⟩
    · exact (rooted.free.managed table links.listed).pos.ne'
    · exact rooted.tree.nonnull path' table short old
  distinct path' path'' table short short' found found' := by
    rcases links.node_cases rooted short found with ⟨rfl, new⟩ | ⟨old, other⟩ <;>
      rcases links.node_cases rooted short' found' with ⟨rfl, new'⟩ | ⟨old', other'⟩
    · rfl
    · exact absurd new other'
    · exact absurd new' other
    · exact rooted.tree.distinct path' path'' table short short' old old'

theorem grows : Grows s u root where
  tree := links.tree rooted
  taken := by
    refine ⟨[page], links.list, fun page' => ?_⟩
    rw [mem_singleton]
    constructor
    · rintro rfl
      exact ⟨⟨i :: path, links.length, links.node_new rooted⟩, rooted.apart page' links.listed⟩
    · rintro ⟨⟨path', short, found⟩, fresh⟩
      rcases links.node_cases rooted short found with ⟨_, same⟩ | ⟨old, _⟩
      · exact same
      · exact absurd ⟨path', short, old⟩ fresh
  leaf path' length := by
    rw [links.slot path' length.le, if_neg]
    rintro rfl
    exact links.length.ne length
  kept path' table short found := by
    rw [links.node_of_ne short, found]
    rintro rfl
    exact nomatch links.vacant.symm.trans found

end Links

theorem Table.link (rooted : Table layout s root) (found : node s.page root path = some table)
    (short : path.length < 2) (low : i < 512) (vacant : node s.page root (i :: path) = none)
    {rest : List Nat} (list : s.freelist = page :: rest)
    (cleared : t.page = update s.page (page / pgsize) fun _ => 0) (popped : t.freelist = rest) :
    Links s (t.setEntry table i (pa2pte page ||| pteV)) root i path page := by
  have listed : page ∈ s.freelist := by simp [list]
  have managed := rooted.free.managed page listed
  -- The new page is none of the tables, so that clearing it leaves them as they are.
  have away : ∀ path' table', path'.length < 3 → node s.page root path' = some table' →
      table' / pgsize ≠ page / pgsize := by
    intro path' table' below found'
    refine ne_of_aligned (rooted.tree.node_aligned found') managed.aligned fun same => ?_
    exact rooted.apart page listed ⟨path', below, same ▸ found'⟩
  have before : ∀ path' table' j, path'.length < 3 → node s.page root path' = some table' →
      entry t.page table' j = entry s.page table' j := by
    intro path' table' j below found'
    rw [entry, entry, cleared, update_of_ne (away path' table' below found')]
  have stores : Radix.Stores target (entry s.page)
      (entry (t.setEntry table i (pa2pte page ||| pteV)).page) root 3 i path table := by
    refine ⟨found, by omega, fun j path' table' below found' other => ?_, fun _ => vacant,
      fun _ page' leads j => ?_⟩
    · rw [entry_setEntry_ne, before path' table' j below found']
      exact rooted.tree.entry_ne found (by omega) below found' other
    · rw [entry_setEntry low (link_lt managed.lt), target_link managed.aligned managed.lt] at leads
      cases leads
      rw [entry_setEntry_ne (.inl (away path table (by omega) found).symm)]
      refine entry_zero ?_
      rw [cleared, update_self]
  refine ⟨fun path' short' => ?_, vacant, short, list.trans (congrArg (page :: ·) popped.symm)⟩
  have stored := stores.slot_eq target_zero short'
  rwa [entry_setEntry low (link_lt managed.lt)] at stored

variable {va : Nat}

/-- Where `walk` stands at a level. -/
theorem indices_drop {level : Nat} (inside : level < 3) (va : Nat) :
    (indices va).drop level = px level va :: (indices va).drop (level + 1) := by
  interval_cases level <;> rfl

theorem length_indices_drop (level va : Nat) : ((indices va).drop level).length = 3 - level := by
  rw [length_drop]
  rfl

theorem node_of_valid (found : node s.page root path = some table)
    (present : valid (entry s.page table i) = true) :
    node s.page root (i :: path) = some (pte2pa (entry s.page table i)) := by
  rw [node_cons, slot_of_node found, target_eq_some]
  exact ⟨present, rfl⟩

theorem node_of_not_valid (found : node s.page root path = some table)
    (absent : ¬ valid (entry s.page table i) = true) : node s.page root (i :: path) = none := by
  rw [node_cons, slot_of_node found, target, if_neg absent]

theorem walkFrom_lookup (linked : Linked s.page root) (level : Nat) :
    ∀ {pagetable : Nat}, level < 3 →
    node s.page root ((indices va).drop (level + 1)) = some pagetable →
    walkFrom va false level pagetable s =
      .ok (((node s.page root ((indices va).drop 1)).map (· + 8 * px 0 va)).getD 0, s) := by
  induction level with
  | zero =>
    intro pagetable _ found
    rw [found]
    rfl
  | succ level ih =>
    intro pagetable below found
    have next := indices_drop below va
    rw [walkFrom, bind_of_ok (load64_entry (linked.node_aligned found) (px_lt ..) s)]
    by_cases present : valid (entry s.page pagetable (px (level + 1) va)) = true
    · rw [if_pos present]
      refine ih (by omega) ?_
      rw [next]
      exact node_of_valid found present
    · have suffix : (indices va).drop (level + 1) <:+ (indices va).drop 1 := by
        rw [show level + 1 = 1 + level by omega, ← drop_drop]
        exact drop_suffix ..
      have here : node s.page root ((indices va).drop (level + 1)) = none := by
        rw [next]
        exact node_of_not_valid found present
      have missing : node s.page root ((indices va).drop 1) = none :=
        Radix.node_none_of_suffix here suffix
      rw [if_neg present, if_neg (by decide), missing]
      rfl

theorem walk_lookup (linked : Linked s.page root) (inside : va < maxva) :
    walk root va false s =
      .ok (((node s.page root ((indices va).drop 1)).map (· + 8 * px 0 va)).getD 0, s) := by
  rw [walk, if_neg (by omega)]
  exact walkFrom_lookup linked 2 (by decide) node_nil

/-- The entry of an address was found. -/
def Found (u : State) (root va a : Nat) : Prop :=
  ∃ table, node u.page root ((indices va).drop 1) = some table ∧ a = table + 8 * px 0 va

theorem walkFrom_alloc (level : Nat) : ∀ {s : State} {pagetable : Nat}, Table layout s root →
    level < 3 → node s.page root ((indices va).drop (level + 1)) = some pagetable →
    Ensures safe (walkFrom va true level pagetable) s fun a u =>
      Grows s u root ∧ (a = 0 ∨ Found u root va a) := by
  induction level with
  | zero =>
    intro s pagetable rooted _ found
    rw [walkFrom, ensures_pure]
    exact ⟨.refl rooted.tree, .inr ⟨pagetable, found, rfl⟩⟩
  | succ level ih =>
    intro s pagetable rooted below found
    have next := indices_drop below va
    have aligned := rooted.tree.node_aligned found
    rw [walkFrom, ensures_bind, ensures_of_ok (load64_entry aligned (px_lt ..) s)]
    by_cases present : valid (entry s.page pagetable (px (level + 1) va)) = true
    · rw [if_pos present]
      refine ih rooted (by omega) ?_
      rw [next]
      exact node_of_valid found present
    · rw [if_neg present, if_pos rfl, ensures_bind]
      refine ensures_kalloc (fun left => ?_) fun page rest left list => ?_
      · rw [if_pos rfl, ensures_pure]
        exact ⟨⟨rooted.tree, (Grows.refl rooted.tree).taken, fun _ _ => rfl,
          fun _ _ _ found => found⟩, .inl rfl⟩
      have managed := rooted.free.managed page (by simp [list])
      rw [if_neg managed.pos.ne', ensures_bind, memset, ensures_modify, ensures_bind,
        ensures_of_ok (store64_entry aligned (px_lt ..) ..)]
      have links := rooted.link found (by rw [length_indices_drop]; omega) (px_lt (level + 1) va)
        (node_of_not_valid found present) list
        (t := (State.mk (update s.page (page / pgsize) fun _ => 5) rest left).setPage
          (page / pgsize) fun _ => 0)
        (by simp only [State.setPage, update_idem]) rfl
      have grows := links.grows rooted
      refine (ih (grows.rooted rooted) (by omega)
        (by rw [next]; exact links.node_new rooted)).mono fun a u more => ?_
      exact ⟨grows.trans more.1, more.2⟩

theorem walk_alloc (rooted : Table layout s root) (inside : va < maxva) :
    Ensures safe (walk root va true) s fun a u =>
      Grows s u root ∧ (a = 0 ∨ Found u root va a) := by
  rw [walk, if_neg (by omega)]
  exact walkFrom_alloc 2 rooted (by decide) node_nil

theorem indices_cons (va : Nat) : indices va = px 0 va :: (indices va).drop 1 := rfl

/-- One entry at the end of a path was written. -/
structure Puts (s u : State) (root va pte : Nat) : Prop where
  slot : ∀ path, path.length ≤ 3 → slot u.page root path =
    if path = indices va then pte else Vm.slot s.page root path
  freelist : u.freelist = s.freelist

namespace Found

variable {a : Nat} (found : Found s root va a) (linked : Linked s.page root)

include found linked

theorem ne_zero : a ≠ 0 := by
  obtain ⟨table, found, rfl⟩ := found
  have nonnull := linked.nonnull _ table (by rw [length_indices_drop]; decide) found
  omega

theorem load : load64 a s = .ok (Vm.slot s.page root (indices va), s) := by
  obtain ⟨table, found, rfl⟩ := found
  rw [load64_entry (linked.node_aligned found) (px_lt ..), indices_cons, slot_of_node found]

omit linked in
theorem store (tree : Tree s.page root) {pte : Nat} (word : pte < 2 ^ 64) :
    ∃ u, store64 a pte s = .ok ((), u) ∧ Puts s u root va pte := by
  obtain ⟨table, found, rfl⟩ := found
  have length := length_indices_drop 1 va
  exact ⟨_, store64_entry (tree.node_aligned found) (px_lt ..) pte s, fun path short =>
    tree.slot_setEntry found length (px_lt ..) word short, rfl⟩

end Found

namespace Puts

variable {pte : Nat} (puts : Puts s u root va pte)

include puts

theorem node (path : List Nat) (short : path.length < 3) :
    node u.page root path = Vm.node s.page root path := by
  refine node_of_slot ?_
  rw [puts.slot path short.le, if_neg]
  rintro rfl
  exact absurd short (lt_irrefl 3)

theorem isTable (page : Nat) : IsTable u.page root page ↔ IsTable s.page root page :=
  isTable_congr puts.node page

theorem rooted (rooted : Table layout s root) : Table layout u root where
  tree := rooted.tree.congr puts.node
  free := puts.freelist ▸ rooted.free
  apart page listed is :=
    rooted.apart page (puts.freelist ▸ listed) ((puts.isTable page).mp is)

end Puts

theorem walk_found (linked : Linked s.page root) (inside : va < maxva) :
    ∃ a, walk root va false s = .ok (a, s) ∧
      ((a = 0 ∧ slot s.page root (indices va) = 0) ∨ Found s root va a) := by
  refine ⟨_, walk_lookup linked inside, ?_⟩
  cases found : node s.page root ((indices va).drop 1) with
  | none => exact .inl ⟨rfl, by rw [indices_cons, slot_of_missing found]⟩
  | some table => exact .inr ⟨table, found, rfl⟩

/-- Changes outside the tables leave the entries as they are. -/
theorem slot_frame {mem mem' : Nat → Page}
    (same : ∀ page, IsTable mem root page → mem' (page / pgsize) = mem (page / pgsize))
    {path : List Nat} (short : path.length ≤ 3) : slot mem' root path = slot mem root path := by
  refine Radix.slot_congr (fun path' table i below found => ?_) short
  rw [entry, entry, same table ⟨path', below, found⟩]

theorem kfree_ok (managed : Managed layout page) (s : State) :
    ∃ u, kfree layout page s = .ok ((), u) ∧ u.freelist = page :: s.freelist ∧
      ∀ n, n ≠ page / pgsize → u.page n = s.page n := by
  have accepted : ¬ (page % pgsize ≠ 0 ∨ page < layout.kend ∨ phystop ≤ page) := by
    have aligned := Nat.mod_eq_zero_of_dvd managed.aligned
    have above := managed.above
    have below := managed.below
    omega
  let cleared := s.setPage (page / pgsize) fun _ => 1
  let linked := cleared.setPage (page / pgsize)
    ((cleared.page (page / pgsize)).putLE (page % pgsize) 8 (s.freelist.headD 0))
  refine ⟨{ linked with freelist := page :: s.freelist }, ?_, rfl, fun n other => ?_⟩
  · rw [kfree, if_neg accepted]
    rfl
  · simp [linked, cleared, State.setPage, other]

end OsLab.Vm
