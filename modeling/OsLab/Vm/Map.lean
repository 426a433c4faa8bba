import OsLab.Vm.Walk

/-!
# Page tables refine partial maps

What a page table is for is a partial map from virtual pages to physical pages and flags.  `walk`
keeps the map, `mappages` and `uvmunmap` change it, and `walkaddr` and `kvmpa` look it up.  If
`uvmunmap` frees a table of the page table itself, other translations are lost.
-/

namespace OsLab.Vm

open Act Function List Nat

variable {layout : Layout} {safe : Stop → Prop} {s u : State} {root va : Nat}

theorem translate_congr {mem mem' : Nat → Page}
    (same : slot mem' root (indices va) = slot mem root (indices va)) :
    translate mem' root va = translate mem root va := by
  rw [translate, translate, same]

theorem translate_eq_none : translate s.page root va = none ↔
    valid (slot s.page root (indices va)) = false := by
  rw [translate]
  split <;> simp [*]

theorem Grows.translate (grows : Grows s u root) (va : Nat) :
    translate u.page root va = Vm.translate s.page root va :=
  translate_congr (grows.leaf _ rfl)

/-- A written entry changes the translation of one page. -/
theorem Puts.translate {pte : Nat} (puts : Puts s u root va pte) (inside : va < maxva) {other : Nat}
    (inside' : other < maxva) :
    translate u.page root other =
      if other / pgsize = va / pgsize then
        if valid pte then some (pte2pa pte, pteFlags pte) else none
      else Vm.translate s.page root other := by
  have slot := puts.slot (indices other) le_rfl
  by_cases same : other / pgsize = va / pgsize
  · rw [if_pos ((indices_inj inside' inside).mpr same)] at slot
    rw [if_pos same, Vm.translate, slot]
  · rw [if_neg fun path => same ((indices_inj inside' inside).mp path)] at slot
    rw [if_neg same]
    exact translate_congr slot

/-- New tables have been free pages. -/
structure Draws (s u : State) (root : Nat) : Prop where
  freelist : u.freelist ⊆ s.freelist
  tables : ∀ page, IsTable u.page root page → IsTable s.page root page ∨ page ∈ s.freelist

theorem Draws.trans {t : State} (first : Draws s t root) (second : Draws t u root) :
    Draws s u root where
  freelist := List.Subset.trans second.freelist first.freelist
  tables page is := (second.tables page is).elim (first.tables page) fun free =>
    .inr (first.freelist free)

theorem Grows.draws (grows : Grows s u root) : Draws s u root := by
  obtain ⟨taken, list, new⟩ := grows.taken
  refine ⟨list ▸ subset_append_right .., fun page is => ?_⟩
  by_cases old : IsTable s.page root page
  · exact .inl old
  · rw [list]
    exact .inr (mem_append_left _ ((new page).mpr ⟨is, old⟩))

theorem Puts.draws {pte : Nat} (puts : Puts s u root va pte) : Draws s u root where
  freelist := puts.freelist ▸ List.Subset.refl _
  tables page is := .inl ((puts.isTable page).mp is)

/-- One page is mapped, if `walk` finds room for its tables. -/
theorem mapPage_spec (rooted : Table layout s root) (inside : va < maxva) {pa perm : Nat}
    (word : pa < 2 ^ 64) (few : perm < 1024) (vacant : translate s.page root va = none)
    {rest : VmM Bool} {post : Bool → State → Prop} (failed : ∀ t, Grows s t root → post false t)
    (mapped : ∀ t u, Grows s t root → Puts t u root va (pa2pte pa ||| perm ||| pteV) →
      Ensures safe rest u post) :
    Ensures safe (do
      let addr ← walk root va true
      if addr = 0 then
        return false
      else do
        let pte ← load64 addr
        if valid pte then
          throw .remap
        else do
          store64 addr (pa2pte pa ||| perm ||| pteV)
          rest) s post := by
  rw [ensures_bind]
  refine (walk_alloc rooted inside).mono fun a t ⟨grows, result⟩ => ?_
  rcases result with rfl | found
  · rw [if_pos rfl, ensures_pure]
    exact failed t grows
  have absent : ¬ valid (slot t.page root (indices va)) = true := by
    rw [← grows.translate, translate_eq_none] at vacant
    rw [vacant]
    decide
  obtain ⟨u, stored, puts⟩ := found.store grows.tree (leaf_lt word few)
  rw [if_neg (found.ne_zero grows.tree.linked), ensures_bind,
    ensures_of_ok (found.load grows.tree.linked), if_neg absent, ensures_bind,
    ensures_of_ok stored]
  exact mapped t u grows puts

/-- The translations after `count` pages from `a` on were mapped. -/
def Maps (s u : State) (root a count pa perm : Nat) : Prop :=
  ∀ va, va < maxva → translate u.page root va =
    if a ≤ va ∧ va < a + count * pgsize then
      some ((pgrounddown pa + (pgrounddown va - a)) % 2 ^ 64, perm ||| pteV)
    else translate s.page root va

/-- A mapped page and `count` pages after it. -/
theorem Maps.cons {t : State} {a pa perm count : Nat} (aligned : pgsize ∣ a)
    (first : Maps s t root a 1 pa perm)
    (rest : Maps t u root (a + pgsize) count ((pa + pgsize) % 2 ^ 64) perm) :
    Maps s u root a (count + 1) pa perm := by
  intro va inside
  rw [rest va inside, first va inside]
  by_cases later : a + pgsize ≤ va ∧ va < a + pgsize + count * pgsize
  · rw [if_pos later, if_pos (by simp only [pgsize] at later ⊢; omega)]
    refine congrArg (fun page => some (page, perm ||| pteV)) ?_
    simp only [pgrounddown, pgsize] at aligned later ⊢
    omega
  · rw [if_neg later]
    refine if_congr ?_ rfl rfl
    simp only [pgsize] at later ⊢
    omega

/-- Pages are mapped in order until all are or `walk` finds no room for a table. -/
theorem mapLoop_spec {perm last : Nat} (few : perm < 1024) (lastAligned : pgsize ∣ last)
    (lastInside : last < maxva) (fuel : Nat) : ∀ {s : State} {a pa : Nat}, Table layout s root →
    pgsize ∣ a → a ≤ last → last - a < fuel * pgsize → pa < 2 ^ 64 →
    (∀ va, va < maxva → a ≤ pgrounddown va → pgrounddown va ≤ last →
      translate s.page root va = none) →
    Ensures safe (mapLoop root perm last fuel a pa) s fun ok u =>
      Table layout u root ∧ Draws s u root ∧ ∃ count, Maps s u root a count pa perm ∧
        a + count * pgsize ≤ last + pgsize ∧ (ok = true → last < a + count * pgsize) := by
  induction fuel with
  | zero =>
    intro s a pa _ _ _ enough
    omega
  | succ fuel ih =>
    intro s a pa rooted aligned le enough word vacant
    have inside : a < maxva := by omega
    have down : pgrounddown a = a := Nat.div_mul_cancel aligned
    have positive : 0 < pgsize := by decide
    rw [mapLoop]
    refine mapPage_spec rooted inside word few (vacant a inside down.ge (down.trans_le le))
      (fun t grows => ⟨grows.rooted rooted, grows.draws, 0, fun va _ => ?_, by omega, nofun⟩)
      fun t u grows puts => ?_
    · rw [if_neg (by omega), grows.translate]
    have rooted' := puts.rooted (grows.rooted rooted)
    have draws := grows.draws.trans puts.draws
    -- After this round the translations differ from those before in one page.
    have first : Maps s u root a 1 pa perm := by
      intro va inside'
      rw [puts.translate inside inside', valid_leaf few, pte2pa_leaf word few,
        pteFlags_leaf few, grows.translate]
      by_cases same : va / pgsize = a / pgsize
      · rw [if_pos same, if_pos rfl, if_pos (by simp only [pgsize] at aligned same ⊢; omega)]
        refine congrArg (fun page => some (page, perm ||| pteV)) ?_
        simp only [pgrounddown, pgsize] at aligned same ⊢
        omega
      · rw [if_neg same, if_neg (by simp only [pgsize] at aligned same ⊢; omega)]
    split
    · rename_i done
      rw [ensures_pure]
      exact ⟨rooted', draws, 1, first, by omega, fun _ => by omega⟩
    rename_i more
    have whole : a + pgsize ≤ last := by
      simp only [pgsize] at aligned lastAligned ⊢
      omega
    refine (ih rooted' (dvd_add aligned dvd_rfl) whole
      (by rw [succ_mul] at enough; omega) (mod_lt _ (by decide))
      fun va inside' lower upper => ?_).mono ?_
    · rw [first va inside', if_neg (by simp only [pgrounddown, pgsize] at lower ⊢; omega)]
      exact vacant va inside' (by omega) upper
    rintro ok w ⟨rooted, draws', count, rest, most, all⟩
    refine ⟨rooted, draws.trans draws', count + 1, first.cons aligned rest, ?_, fun mapped => ?_⟩
    · rw [succ_mul]
      omega
    · have reached := all mapped
      rw [succ_mul]
      omega

/-- A page was freed, if it was to be. -/
structure Frees (s t : State) (doFree : Bool) (page : Nat) : Prop where
  freelist : t.freelist = if doFree then page :: s.freelist else s.freelist
  outside : ∀ n, (doFree = true → n ≠ page / pgsize) → t.page n = s.page n

/-- What `uvmunmap` needs of a page. -/
structure Removable (layout : Layout) (s : State) (root : Nat) (doFree : Bool) (va : Nat) :
    Prop where
  present : valid (slot s.page root (indices va)) = true
  leaf : pteFlags (slot s.page root (indices va)) ≠ pteV
  managed : doFree = true → Managed layout (pte2pa (slot s.page root (indices va)))
  apart : doFree = true → ¬ IsTable s.page root (pte2pa (slot s.page root (indices va)))

variable {doFree : Bool}

/-- Freeing a page that is no table leaves the entries as they are. -/
theorem Frees.slot {page : Nat} (frees : Frees s u doFree page) (tree : Tree s.page root)
    (aligned : pgsize ∣ page) (apart : doFree = true → ¬ IsTable s.page root page) {path : List Nat}
    (short : path.length ≤ 3) : slot u.page root path = Vm.slot s.page root path := by
  refine slot_frame (fun table is => ?_) short
  refine frees.outside _ fun free => ?_
  obtain ⟨path', _, found⟩ := id is
  refine ne_of_aligned (tree.node_aligned found) aligned fun same => apart free ?_
  rw [← same]
  exact is

theorem unmapPage_spec (tree : Tree s.page root) (inside : va < maxva)
    (removable : Removable layout s root doFree va) {rest : VmM Unit} {post : Unit → State → Prop}
    (next : ∀ t u, Frees s t doFree (pte2pa (slot s.page root (indices va))) →
      (∀ path, path.length ≤ 3 → slot t.page root path = slot s.page root path) →
      Puts t u root va 0 → Ensures safe rest u post) :
    Ensures safe (do
      let addr ← walk root va false
      if addr = 0 then
        throw .unmapWalk
      else do
        let pte ← load64 addr
        if ¬ valid pte then
          throw .unmapNotMapped
        else if pteFlags pte = pteV then
          throw .unmapNotLeaf
        else do
          (if doFree then kfree layout (pte2pa pte) else pure () : VmM Unit)
          store64 addr 0
          rest) s post := by
  obtain ⟨a, looked, result⟩ := walk_found tree.linked inside
  have present := removable.present
  rcases result with ⟨_, zero⟩ | found
  · rw [zero] at present
    exact absurd present (by decide)
  rw [ensures_bind, ensures_of_ok looked, if_neg (found.ne_zero tree.linked), ensures_bind,
    ensures_of_ok (found.load tree.linked), if_neg (not_not.mpr present), if_neg removable.leaf]
  have aligned := pgsize_dvd_pte2pa (slot s.page root (indices va))
  -- The page is freed first, then its entry cleared.
  obtain ⟨t, outcome, frees⟩ : ∃ t, (if doFree then
      kfree layout (pte2pa (slot s.page root (indices va))) else pure () : VmM Unit) s =
        .ok ((), t) ∧ Frees s t doFree (pte2pa (slot s.page root (indices va))) := by
    cases doFree with
    | false => exact ⟨s, rfl, rfl, fun n _ => rfl⟩
    | true =>
      obtain ⟨t, freed, list, same⟩ := kfree_ok (removable.managed rfl) s
      exact ⟨t, freed, list, fun n other => same n (other rfl)⟩
  have slots : ∀ path, path.length ≤ 3 → slot t.page root path = slot s.page root path :=
    fun path short => frees.slot tree aligned removable.apart short
  have tree' : Tree t.page root := tree.congr fun path short => node_of_slot (slots path short.le)
  have found' : Found t root va a := by
    obtain ⟨table, found, address⟩ := found
    refine ⟨table, (node_of_slot (slots _ ?_)).trans found, address⟩
    rw [length_indices_drop]
    decide
  obtain ⟨u, stored, puts⟩ := found'.store tree' (show 0 < 2 ^ 64 by decide)
  rw [ensures_bind, ensures_of_ok outcome, ensures_bind, ensures_of_ok stored]
  exact next t u frees slots puts

/-- The physical pages of `count` virtual pages. -/
def physical (mem : Nat → Page) (root a count : Nat) : List Nat :=
  (List.range count).map fun i => pte2pa (slot mem root (indices (a + pgsize * i)))

theorem physical_succ (mem : Nat → Page) (root a count : Nat) : physical mem root a (count + 1) =
    pte2pa (slot mem root (indices a)) :: physical mem root (a + pgsize) count := by
  rw [physical, range_succ_eq_map, map_cons, map_map, physical]
  refine congrArg (_ :: ·) (map_congr_left fun i _ => ?_)
  rw [comp_apply, mul_succ, add_assoc a pgsize, add_comm pgsize]

theorem mem_physical {mem : Nat → Page} {a count page : Nat}
    (listed : page ∈ physical mem root a count) :
    ∃ va, a ≤ va ∧ va < a + count * pgsize ∧ pte2pa (slot mem root (indices va)) = page := by
  obtain ⟨i, below, rfl⟩ := mem_map.mp listed
  have index := mem_range.mp below
  refine ⟨_, Nat.le_add_right .., ?_, rfl⟩
  simp only [pgsize]
  omega

/-- `count` pages were unmapped, and freed if they were to be. -/
structure Unmaps (s u : State) (root a count : Nat) (doFree : Bool) : Prop where
  cleared : ∀ va, a ≤ va → va < a + count * pgsize → slot u.page root (indices va) = 0
  kept : ∀ path, path.length ≤ 3 → (∀ va, a ≤ va → va < a + count * pgsize → path ≠ indices va) →
    slot u.page root path = slot s.page root path
  freelist : u.freelist =
    if doFree then (physical s.page root a count).reverse ++ s.freelist else s.freelist

namespace Unmaps

variable {a count : Nat} {doFree : Bool} (unmaps : Unmaps s u root a count doFree)

include unmaps

theorem node (path : List Nat) (short : path.length < 3) :
    node u.page root path = Vm.node s.page root path := by
  refine node_of_slot (unmaps.kept path short.le fun va _ _ same => ?_)
  rw [same] at short
  exact absurd short (lt_irrefl 3)

theorem translate (aligned : pgsize ∣ a) (within : a + count * pgsize ≤ maxva)
    (inside : va < maxva) : translate u.page root va =
      if a ≤ va ∧ va < a + count * pgsize then none else Vm.translate s.page root va := by
  by_cases range : a ≤ va ∧ va < a + count * pgsize
  · rw [if_pos range, Vm.translate, unmaps.cleared va range.1 range.2]
    rfl
  · rw [if_neg range]
    refine translate_congr (unmaps.kept _ le_rfl fun va' lower upper same => range ?_)
    have page := (indices_inj inside (by omega)).mp same
    simp only [pgsize] at aligned page upper ⊢
    omega

/-- Freed pages that are distinct, no tables and not free already are as good as the others. -/
theorem spare (spare : Spare layout s root)
    (removable : ∀ va, a ≤ va → va < a + count * pgsize → Removable layout s root doFree va)
    (distinct : doFree = true → ((physical s.page root a count).reverse ++ s.freelist).Nodup) :
    Spare layout u root := by
  have listed : ∀ page ∈ u.freelist, page ∈ s.freelist ∨ doFree = true ∧
      ∃ va, a ≤ va ∧ va < a + count * pgsize ∧ pte2pa (slot s.page root (indices va)) = page := by
    intro page listed
    rw [unmaps.freelist] at listed
    split at listed
    · rename_i free
      rcases mem_append.mp listed with freed | old
      · exact .inr ⟨free, mem_physical (mem_reverse.mp freed)⟩
      · exact .inl old
    · exact .inl listed
  refine ⟨⟨?_, fun page within => ?_⟩, fun page within is => ?_⟩
  · rw [unmaps.freelist]
    split
    · exact distinct ‹_›
    · exact spare.free.nodup
  · rcases listed page within with old | ⟨free, va, lower, upper, rfl⟩
    · exact spare.free.managed page old
    · exact (removable va lower upper).managed free
  · rw [isTable_congr unmaps.node] at is
    rcases listed page within with old | ⟨free, va, lower, upper, rfl⟩
    · exact spare.apart page old is
    · exact (removable va lower upper).apart free is

end Unmaps

theorem Unmaps.cons {t v : State} {a count : Nat} (aligned : pgsize ∣ a)
    (within : a + (count + 1) * pgsize ≤ maxva)
    (frees : Frees s t doFree (pte2pa (slot s.page root (indices a))))
    (same : ∀ path, path.length ≤ 3 → slot t.page root path = slot s.page root path)
    (puts : Puts t v root a 0) (unmaps : Unmaps v u root (a + pgsize) count doFree) :
    Unmaps s u root a (count + 1) doFree := by
  rw [succ_mul] at within
  have positive : 0 < pgsize := by decide
  have inside : a < maxva := by omega
  have other : ∀ path, path.length ≤ 3 → path ≠ indices a →
      slot v.page root path = slot s.page root path := by
    intro path short apart
    rw [puts.slot path short, if_neg apart, same path short]
  have later : ∀ va, a + pgsize ≤ va → va < a + pgsize + count * pgsize →
      indices va ≠ indices a := by
    intro va lower upper path
    have page := (indices_inj (by omega) inside).mp path
    simp only [pgsize] at aligned lower page
    omega
  have rest : ∀ va, a + pgsize ≤ va → va < a + pgsize + count * pgsize →
      slot v.page root (indices va) = slot s.page root (indices va) :=
    fun va lower upper => other _ le_rfl (later va lower upper)
  constructor
  · intro va lower upper
    rw [succ_mul] at upper
    by_cases first : va < a + pgsize
    · have path : indices va = indices a := by
        refine (indices_inj (by omega) inside).mpr ?_
        simp only [pgsize] at aligned first ⊢
        omega
      rw [unmaps.kept _ le_rfl, path, puts.slot _ le_rfl, if_pos rfl]
      intro va' lower' upper' same'
      exact later va' lower' upper' (same'.symm.trans path)
    · exact unmaps.cleared va (by omega) (by omega)
  · intro path short apart
    rw [succ_mul] at apart
    rw [unmaps.kept path short fun va lower upper => apart va (by omega) (by omega)]
    exact other path short (apart a le_rfl (by omega))
  · rw [unmaps.freelist, puts.freelist, frees.freelist]
    have pages : physical v.page root (a + pgsize) count =
        physical s.page root (a + pgsize) count := by
      refine map_congr_left fun i below => ?_
      have index := mem_range.mp below
      rw [rest _ (by omega)]
      simp only [pgsize]
      omega
    rw [pages, physical_succ, reverse_cons, append_assoc]
    split <;> simp only [cons_append, nil_append]

/-- The loop of `uvmunmap` over pages that can be removed. -/
theorem unmapLoop_spec (fuel : Nat) : ∀ {s : State} {a count : Nat},
    Tree s.page root → pgsize ∣ a → a + count * pgsize ≤ maxva → count < fuel →
    (∀ va, a ≤ va → va < a + count * pgsize → Removable layout s root doFree va) →
    Ensures safe (unmapLoop layout root (a + count * pgsize) doFree fuel a) s fun _ u =>
      Unmaps s u root a count doFree := by
  induction fuel with
  | zero =>
    intro s a count _ _ _ enough
    omega
  | succ fuel ih =>
    intro s a count tree aligned within enough removable
    rw [unmapLoop]
    cases count with
    | zero =>
      rw [if_neg (by omega), ensures_pure]
      refine ⟨fun va lower upper => by omega, fun _ _ _ => rfl, ?_⟩
      split <;> rfl
    | succ count =>
      have positive : 0 < pgsize := by decide
      have size : (count + 1) * pgsize = count * pgsize + pgsize := succ_mul ..
      have inside : a < maxva := by omega
      rw [if_pos (by omega)]
      refine unmapPage_spec tree inside (removable a le_rfl (by omega))
        fun t u frees same puts => ?_
      have nodes : ∀ path, path.length < 3 → node u.page root path = node s.page root path :=
        fun path short => (puts.node path short).trans (node_of_slot (same path short.le))
      rw [show a + (count + 1) * pgsize = a + pgsize + count * pgsize by omega]
      refine (ih (tree.congr nodes) (dvd_add aligned dvd_rfl) (by omega) (by omega)
        fun va lower upper => ?_).mono fun _ w unmaps =>
          .cons aligned within frees same puts unmaps
      obtain ⟨present, leaf, managed, apart⟩ := removable va (by omega) (by omega)
      have slots : slot u.page root (indices va) = slot s.page root (indices va) := by
        rw [puts.slot _ le_rfl, if_neg, same _ le_rfl]
        intro path
        have page := (indices_inj (by omega) inside).mp path
        simp only [pgsize] at aligned lower page
        omega
      constructor <;> rw [slots]
      · exact present
      · exact leaf
      · exact managed
      · rw [isTable_congr nodes]
        exact apart

theorem uvmunmap_spec {a count : Nat} (tree : Tree s.page root) (aligned : pgsize ∣ a)
    (within : a + count * pgsize ≤ maxva)
    (removable : ∀ va, a ≤ va → va < a + count * pgsize → Removable layout s root doFree va) :
    Ensures safe (uvmunmap layout root a count doFree) s fun _ u =>
      Unmaps s u root a count doFree := by
  have stop : (a + count * pgsize) % 2 ^ 64 = a + count * pgsize := by
    simp only [maxva] at within
    omega
  rw [uvmunmap, if_neg (not_not.mpr (mod_eq_zero_of_dvd aligned)), stop]
  refine unmapLoop_spec rounds tree aligned within ?_ removable
  have all : rounds * pgsize = maxva + pgsize := by decide
  refine Nat.lt_of_mul_lt_mul_right (a := pgsize) ?_
  rw [all]
  simp only [pgsize] at within ⊢
  omega

theorem walkaddr_eq (linked : Linked s.page root) (inside : va < maxva) :
    walkaddr root va s = .ok (match translate s.page root va with
      | some (pa, flags) => if user flags then pa else 0
      | none => 0, s) := by
  obtain ⟨a, looked, result⟩ := walk_found linked inside
  rw [walkaddr, if_neg (by omega), bind_of_ok looked, translate]
  rcases result with ⟨null, zero⟩ | found
  · rw [if_pos null, zero]
    rfl
  rw [if_neg (found.ne_zero linked), bind_of_ok (found.load linked)]
  by_cases present : valid (slot s.page root (indices va)) = true
  · rw [if_neg (not_not.mpr present), if_pos present]
    simp only [user_pteFlags]
    by_cases accessible : user (slot s.page root (indices va)) = true
    · rw [if_neg (not_not.mpr accessible), if_pos accessible]
      rfl
    · rw [if_pos accessible, if_neg accessible]
      rfl
  · rw [if_pos present, if_neg present]
    rfl

theorem kvmpa_eq (tree : Tree s.page root) (inside : va < maxva) :
    kvmpa root va s = match translate s.page root va with
      | some (pa, _) => .ok (pa + va % pgsize, s)
      | none => .error .kvmpa := by
  obtain ⟨a, looked, result⟩ := walk_found tree.linked inside
  rw [kvmpa, bind_of_ok looked, translate]
  rcases result with ⟨null, zero⟩ | found
  · rw [if_pos null, zero]
    rfl
  · rw [if_neg (found.ne_zero tree.linked), bind_of_ok (found.load tree.linked)]
    by_cases present : valid (slot s.page root (indices va)) = true
    · rw [if_neg (not_not.mpr present), if_pos present]
      rfl
    · rw [if_pos present, if_neg present]
      rfl

/-- Physical pages and flags by the number of a virtual page. -/
abbrev PageMap := Nat → Option (Nat × Nat)

/-- `npages` pages from `first` on translate to consecutive physical pages. -/
def PageMap.map (m : PageMap) (first npages pa flags : Nat) : PageMap := fun vpn =>
  if first ≤ vpn ∧ vpn < first + npages then
    some ((pgrounddown pa + (vpn - first) * pgsize) % 2 ^ 64, flags)
  else m vpn

/-- `npages` pages from `first` on have no translation. -/
def PageMap.unmap (m : PageMap) (first npages : Nat) : PageMap := fun vpn =>
  if first ≤ vpn ∧ vpn < first + npages then none else m vpn

/-- The physical pages of `npages` pages from `first` on. -/
def PageMap.pages (m : PageMap) (first npages : Nat) : List Nat :=
  (List.range npages).filterMap fun i => (m (first + i)).map Prod.fst

/-- A page table of distinct tables that translates as the map says. -/
structure Refines (mem : Nat → Page) (root : Nat) (m : PageMap) : Prop where
  tree : Tree mem root
  agree : ∀ va, va < maxva → translate mem root va = m (va / pgsize)
  domain : ∀ vpn, maxva ≤ vpn * pgsize → m vpn = none

/-- Results of a program that cannot stop. -/
theorem ok_of_ensures {α : Type} {program : VmM α} {post : α → State → Prop}
    (ensured : Ensures (fun _ => False) program s post) :
    ∃ result u, program s = .ok (result, u) ∧ post result u := by
  cases outcome : program s with
  | ok pair => exact ⟨pair.1, pair.2, rfl, ensured.returns _ _ outcome⟩
  | error stop => exact absurd (ensured.stops stop outcome) id

theorem mappages_refines {m : PageMap} (refines : Refines s.page root m)
    (spare : Spare layout s root) {size pa perm : Nat} (nonempty : 0 < size)
    (inside : va + size ≤ maxva) (word : pa < 2 ^ 64) (few : perm < 1024)
    (vacant : ∀ vpn, va / pgsize ≤ vpn → vpn ≤ (va + size - 1) / pgsize → m vpn = none) :
    Ensures safe (mappages root va size pa perm) s fun ok u =>
      Spare layout u root ∧ Draws s u root ∧ ∃ npages,
        Refines u.page root (m.map (va / pgsize) npages pa (perm ||| pteV)) ∧
        va / pgsize + npages ≤ (va + size - 1) / pgsize + 1 ∧
        (ok = true → va / pgsize + npages = (va + size - 1) / pgsize + 1) := by
  have last : (va + size + 2 ^ 64 - 1) % 2 ^ 64 = va + size - 1 := by
    simp only [maxva] at inside
    omega
  have page : ∀ a b, pgrounddown a ≤ pgrounddown b ↔ a / pgsize ≤ b / pgsize := fun a b =>
    Nat.mul_le_mul_right_iff (by decide)
  have aligned : ∀ a, pgsize ∣ pgrounddown a := fun a => Nat.dvd_mul_left ..
  have down := div_mul_le_self (va + size - 1) pgsize
  rw [mappages, last]
  refine (mapLoop_spec few (aligned _) (by rw [pgrounddown]; omega) rounds ⟨spare, refines.tree⟩
    (aligned _) ((page ..).mpr (Nat.div_le_div_right (by omega))) ?_ word
    fun va' inside' lower upper => ?_).mono fun ok u made => ?_
  · have rounded : rounds * pgsize = maxva + pgsize := by decide
    rw [pgrounddown, rounded]
    omega
  · rw [refines.agree va' inside']
    exact vacant _ ((page ..).mp lower) ((page ..).mp upper)
  obtain ⟨rooted, draws, npages, maps, most, all⟩ := made
  refine ⟨rooted.toSpare, draws, npages, ⟨rooted.tree, fun va' inside' => ?_, fun vpn out => ?_⟩,
    ?_, fun mapped => ?_⟩
  · rw [maps va' inside', PageMap.map, ← refines.agree va' inside']
    refine if_congr ?_ ?_ rfl
    · simp only [pgrounddown, pgsize]
      omega
    · rw [show pgrounddown va' - pgrounddown va = (va' / pgsize - va / pgsize) * pgsize from
        (Nat.sub_mul ..).symm]
  · rw [PageMap.map, if_neg, refines.domain vpn out]
    simp only [pgrounddown, maxva, pgsize] at out inside most ⊢
    omega
  · simp only [pgrounddown, pgsize] at most ⊢
    omega
  · have reached := all mapped
    simp only [pgrounddown, pgsize] at most reached ⊢
    omega

theorem uvmunmap_refines {m : PageMap} (refines : Refines s.page root m)
    (spare : Spare layout s root) {npages : Nat} (aligned : pgsize ∣ va)
    (mapped : ∀ vpn, va / pgsize ≤ vpn → vpn < va / pgsize + npages → ∃ pa flags,
      m vpn = some (pa, flags) ∧ flags ≠ pteV ∧
        (doFree = true → Managed layout pa ∧ ¬ IsTable s.page root pa)) :
    Ensures safe (uvmunmap layout root va npages doFree) s fun _ u =>
      Refines u.page root (m.unmap (va / pgsize) npages) ∧
      ((doFree = true → (m.pages (va / pgsize) npages ++ s.freelist).Nodup) →
        Spare layout u root) := by
  rcases Nat.eq_zero_or_pos npages with rfl | some
  · have stop : (va + 0 * pgsize) % 2 ^ 64 ≤ va := by
      rw [zero_mul, add_zero]
      exact mod_le ..
    rw [uvmunmap, if_neg (not_not.mpr (mod_eq_zero_of_dvd aligned)),
      show rounds = maxva / pgsize + 1 from rfl, unmapLoop, if_neg (by omega), ensures_pure]
    have same : m.unmap (va / pgsize) 0 = m := funext fun vpn => if_neg (by omega)
    rw [same]
    exact ⟨refines, fun _ => spare⟩
  -- The last of the pages has a translation, and so all are below `MAXVA`.
  have within : va + npages * pgsize ≤ maxva := by
    have quotient := zero_le (va / pgsize)
    obtain ⟨pa, flags, translation, _⟩ := mapped (va / pgsize + npages - 1) (by omega) (by omega)
    by_contra beyond
    have out : maxva ≤ (va / pgsize + npages - 1) * pgsize := by
      simp only [maxva, pgsize] at beyond aligned ⊢
      omega
    rw [refines.domain _ out] at translation
    cases translation
  have removable : ∀ va', va ≤ va' → va' < va + npages * pgsize →
      Removable layout s root doFree va' ∧ (m (va' / pgsize)).map Prod.fst =
        Option.some (pte2pa (slot s.page root (indices va'))) := by
    intro va' lower upper
    obtain ⟨pa, flags, translation, leaf, freed⟩ := mapped (va' / pgsize)
      (Nat.div_le_div_right lower) (by simp only [pgsize] at aligned upper ⊢; omega)
    rw [translation]
    rw [← refines.agree va' (by omega), translate] at translation
    split at translation
    · rename_i present
      cases translation
      exact ⟨⟨present, leaf, fun free => (freed free).1, fun free => (freed free).2⟩, rfl⟩
    · cases translation
  have pages : m.pages (va / pgsize) npages = physical s.page root va npages := by
    rw [PageMap.pages, physical, ← filterMap_eq_map]
    refine filterMap_congr fun i below => ?_
    have index := mem_range.mp below
    have number : (va + pgsize * i) / pgsize = va / pgsize + i :=
      add_mul_div_left _ _ (by decide)
    rw [← number]
    exact (removable _ (Nat.le_add_right ..) (by simp only [pgsize]; omega)).2
  refine (uvmunmap_spec refines.tree aligned within fun va' lower upper =>
    (removable va' lower upper).1).mono fun _ u unmaps =>
    ⟨⟨refines.tree.congr unmaps.node, fun va' inside' => ?_, fun vpn out => ?_⟩, fun distinct =>
      unmaps.spare spare (fun va' lower upper => (removable va' lower upper).1) fun free => ?_⟩
  · rw [unmaps.translate aligned within inside', PageMap.unmap, ← refines.agree va' inside']
    refine if_congr ?_ rfl rfl
    simp only [pgsize] at aligned ⊢
    omega
  · rw [PageMap.unmap, refines.domain vpn out, ite_self]
  · rw [← pages]
    exact ((reverse_perm _).append_right _).nodup_iff.mpr (distinct free)

/-- What a successful call of `mappages` has done. -/
theorem mappages_ok {m : PageMap} (refines : Refines s.page root m) (spare : Spare layout s root)
    {size pa perm : Nat} (nonempty : 0 < size) (inside : va + size ≤ maxva) (word : pa < 2 ^ 64)
    (few : perm < 1024)
    (vacant : ∀ vpn, va / pgsize ≤ vpn → vpn ≤ (va + size - 1) / pgsize → m vpn = none)
    (outcome : mappages root va size pa perm s = .ok (true, u)) :
    Spare layout u root ∧ Draws s u root ∧ Refines u.page root (m.map (va / pgsize)
      ((va + size - 1) / pgsize + 1 - va / pgsize) pa (perm ||| pteV)) := by
  have spec : Ensures (fun _ => False) _ s _ :=
    mappages_refines refines spare nonempty inside word few vacant
  obtain ⟨spare', draws, npages, refines', _, all⟩ := spec.returns _ _ outcome
  obtain rfl : npages = (va + size - 1) / pgsize + 1 - va / pgsize := by
    have exact := all rfl
    omega
  exact ⟨spare', draws, refines'⟩

variable {mem : Nat → Page}

theorem refines_of_zero (aligned : pgsize ∣ root) (nonnull : root ≠ 0)
    (zero : mem (root / pgsize) = fun _ => 0) : Refines mem root fun _ => none := by
  have slots : ∀ i, slot mem root [i] = 0 := fun i => by
    rw [slot_of_node node_nil, entry_zero zero]
  have nodes : ∀ path, path ≠ [] → node mem root path = none := by
    intro path some
    obtain ⟨init, i, rfl⟩ := path.eq_nil_or_concat.resolve_left some
    have missing : node mem root [i] = none := by rw [node_cons, slots, target_zero]
    exact Radix.node_none_of_suffix missing ⟨init, (concat_eq_append ..).symm⟩
  have only : ∀ path table, node mem root path = some table → path = [] := by
    intro path table found
    by_contra some
    rw [nodes path some] at found
    cases found
  refine ⟨⟨aligned, fun path table _ found => ?_, fun path path' table _ _ found found' => ?_⟩,
    fun va _ => ?_, fun _ _ => rfl⟩
  · rw [only path table found] at found
    rwa [← Option.some.inj found]
  · rw [only path table found, only path' table found']
  · have empty : slot mem root (indices va) = 0 := by
      rw [indices_cons, slot_of_missing (nodes _ (by simp [indices]))]
    rw [translate, empty]
    rfl

theorem isTable_of_zero (zero : mem (root / pgsize) = fun _ => 0) {page : Nat}
    (is : IsTable mem root page) : page = root := by
  obtain ⟨path, _, found⟩ := is
  rcases path.eq_nil_or_concat with rfl | ⟨init, i, rfl⟩
  · exact (Option.some.inj found).symm
  · have missing : node mem root [i] = none := by
      rw [node_cons, slot_of_node node_nil, entry_zero zero, target_zero]
    have nothing : node mem root (init.concat i) = none :=
      Radix.node_none_of_suffix missing ⟨init, (concat_eq_append ..).symm⟩
    rw [nothing] at found
    cases found

/-- A page table refines a partial map.  `uvmunmap` is told to free no page that is a table. -/
theorem page_table_refines_map {m : PageMap} (refines : Refines s.page root m)
    (spare : Spare layout s root) :
    (∀ va, va < maxva → ∃ a u, walk root va true s = .ok (a, u) ∧ Refines u.page root m ∧
      Spare layout u root) ∧
    (∀ va size pa perm, 0 < size → va + size ≤ maxva → pa < 2 ^ 64 → perm < 1024 →
      (∀ vpn, va / pgsize ≤ vpn → vpn ≤ (va + size - 1) / pgsize → m vpn = none) →
      ∃ ok u, mappages root va size pa perm s = .ok (ok, u) ∧ Spare layout u root ∧
        Draws s u root ∧ ∃ npages,
          Refines u.page root (m.map (va / pgsize) npages pa (perm ||| pteV)) ∧
          va / pgsize + npages ≤ (va + size - 1) / pgsize + 1 ∧
          (ok = true → va / pgsize + npages = (va + size - 1) / pgsize + 1)) ∧
    (∀ va npages doFree, pgsize ∣ va →
      (∀ vpn, va / pgsize ≤ vpn → vpn < va / pgsize + npages → ∃ pa flags,
        m vpn = some (pa, flags) ∧ flags ≠ pteV ∧
          (doFree = true → Managed layout pa ∧ ¬ IsTable s.page root pa)) →
      ∃ u, uvmunmap layout root va npages doFree s = .ok ((), u) ∧
        Refines u.page root (m.unmap (va / pgsize) npages) ∧
        ((doFree = true → (m.pages (va / pgsize) npages ++ s.freelist).Nodup) →
          Spare layout u root)) ∧
    (∀ va, va < maxva → walkaddr root va s = .ok (match m (va / pgsize) with
      | some (pa, flags) => if user flags then pa else 0
      | none => 0, s)) ∧
    (∀ va, va < maxva → kvmpa root va s = match m (va / pgsize) with
      | some (pa, _) => .ok (pa + va % pgsize, s)
      | none => .error .kvmpa) := by
  refine ⟨fun va inside => ?_, fun va size pa perm nonempty inside word few vacant => ?_,
    fun va npages doFree aligned mapped => ?_, fun va inside => ?_, fun va inside => ?_⟩
  · have rooted : Table layout s root := ⟨spare, refines.tree⟩
    obtain ⟨a, u, outcome, grows, _⟩ := ok_of_ensures (walk_alloc rooted inside)
    refine ⟨a, u, outcome, ⟨grows.tree, fun va' inside' => ?_, refines.domain⟩,
      (grows.rooted rooted).toSpare⟩
    rw [grows.translate]
    exact refines.agree va' inside'
  · exact ok_of_ensures (mappages_refines refines spare nonempty inside word few vacant)
  · obtain ⟨_, u, outcome, after⟩ := ok_of_ensures (uvmunmap_refines refines spare aligned mapped)
    exact ⟨u, outcome, after⟩
  · rw [walkaddr_eq refines.tree.linked inside, refines.agree va inside]
  · rw [kvmpa_eq refines.tree inside, refines.agree va inside]

def smallKernel : Layout where
  text := 0x80000000
  kend := 0x80001000
  aligned := by decide
  low := by decide
  below := by decide
  ram := by decide

def threePages : State := ⟨fun _ _ => 0, [0x80001000, 0x80002000, 0x80003000], fun _ => true⟩

/-- After `uvmcreate` the first of them is an empty page table. -/
def twoPages : State :=
  ⟨update (update (fun _ _ => 0) 0x80001 fun _ => 5) 0x80001 fun _ => 0,
    [0x80002000, 0x80003000], fun _ => true⟩

theorem uvmcreate_threePages : uvmcreate threePages = .ok (0x80001000, twoPages) := rfl

theorem twoPages_zero : twoPages.page (0x80001000 / pgsize) = fun _ => 0 := by
  change twoPages.page 0x80001 = _
  simp only [twoPages, update_self]

theorem twoPages_refines : Refines twoPages.page 0x80001000 fun _ => none :=
  refines_of_zero (by decide) (by decide) twoPages_zero

theorem twoPages_spare : Spare smallKernel twoPages 0x80001000 where
  free := by
    refine ⟨by decide, fun page listed => ?_⟩
    simp only [twoPages, mem_cons, not_mem_nil, or_false] at listed
    rcases listed with rfl | rfl <;> exact ⟨by decide, by decide, by decide⟩
  apart page listed is := by
    rw [isTable_of_zero twoPages_zero is] at listed
    exact absurd listed (by decide)

def succeeds : Except Stop (Bool × State) → Bool
  | .ok (ok, _) => ok
  | .error _ => false

theorem ok_of_succeeds {result : Except Stop (Bool × State)} (success : succeeds result = true) :
    ∃ u, result = .ok (true, u) := by
  match result, success with
  | .ok (true, u), _ => exact ⟨u, rfl⟩

/-- Map the first two virtual pages to pages that are not free. -/
def mapTwo : VmM Bool := mappages 0x80001000 0 (2 * pgsize) 0x80004000 (pteR ||| pteW ||| pteU)

/-- Two pages are mapped and looked up, then the first one is unmapped and freed. -/
theorem page_table_refines_map_twoPages : ∃ t u,
    mapTwo twoPages = .ok (true, t) ∧ walkaddr 0x80001000 0 t = .ok (0x80004000, t) ∧
    kvmpa 0x80001000 (pgsize + 5) t = .ok (0x80005005, t) ∧
    uvmunmap smallKernel 0x80001000 0 1 true t = .ok ((), u) ∧ Spare smallKernel u 0x80001000 ∧
    walkaddr 0x80001000 0 u = .ok (0, u) ∧ walkaddr 0x80001000 pgsize u = .ok (0x80005000, u) := by
  obtain ⟨ok, t, outcome, spare, draws, npages, refines, _, all⟩ :=
    (page_table_refines_map twoPages_refines twoPages_spare).2.1 0 (2 * pgsize) 0x80004000
      (pteR ||| pteW ||| pteU) (by decide) (by decide) (by decide) (by decide) fun _ _ _ => rfl
  have success : succeeds (mapTwo twoPages) = true := by decide +kernel
  obtain rfl : ok = true := by rwa [mapTwo, outcome] at success
  obtain rfl : npages = 2 := (zero_add npages).symm.trans (all rfl)
  have apart : ¬ IsTable t.page 0x80001000 0x80004000 := fun is =>
    (draws.tables _ is).elim
      (fun old => absurd (isTable_of_zero twoPages_zero old) (by decide)) (by decide)
  have mapped := page_table_refines_map refines spare
  obtain ⟨u, unmapped, refines', spare'⟩ := mapped.2.2.1 0 1 true (by decide)
    fun vpn _ upper => by
      obtain rfl : vpn = 0 := lt_one_iff.mp upper
      exact ⟨0x80004000, _, rfl, by decide, fun _ => ⟨⟨by decide, by decide, by decide⟩, apart⟩⟩
  have spare'' : Spare smallKernel u 0x80001000 := by
    refine spare' fun _ => nodup_cons.mpr ⟨fun free => ?_, spare.free.nodup⟩
    exact absurd (draws.freelist free) (by decide)
  have cleared := page_table_refines_map refines' spare''
  exact ⟨t, u, outcome, mapped.2.2.2.1 0 (by decide), mapped.2.2.2.2 (pgsize + 5) (by decide),
    unmapped, spare'', cleared.2.2.2.1 0 (by decide), cleared.2.2.2.1 pgsize (by decide)⟩

/-- Map the first virtual page to the root of the page table itself. -/
def mapFirst : VmM Bool := mappages 0x80001000 0 pgsize 0x80001000 (pteR ||| pteW)

def mapSecond : VmM Bool := mappages 0x80001000 pgsize pgsize 0x80001000 (pteR ||| pteW)

/-- The translation of the second page when the first one is unmapped and freed. -/
def freeFirst (s : State) : Option (Option (Nat × Nat)) :=
  match uvmunmap smallKernel 0x80001000 0 1 true s with
  | .ok (_, w) => some (translate w.page 0x80001000 pgsize)
  | .error _ => none

/-- Freeing a page that is a table of the page table loses another translation. -/
theorem unmap_loses_translation : ∃ s m w,
    (uvmcreate >>= fun _ => mapFirst >>= fun _ => mapSecond) threePages = .ok (true, s) ∧
    Refines s.page 0x80001000 m ∧ Spare smallKernel s 0x80001000 ∧
    m 0 = some (0x80001000, 7) ∧ m 1 = some (0x80001000, 7) ∧
    uvmunmap smallKernel 0x80001000 0 1 true s = .ok ((), w) ∧
    translate w.page 0x80001000 pgsize = none := by
  obtain ⟨t, outcome⟩ := ok_of_succeeds (show succeeds (mapFirst twoPages) = true by decide +kernel)
  obtain ⟨spare, _, refines⟩ := mappages_ok twoPages_refines twoPages_spare (by decide)
    (by decide) (by decide) (by decide) (fun _ _ _ => rfl) outcome
  have both : succeeds ((mapFirst >>= fun _ => mapSecond) twoPages) = true := by decide +kernel
  rw [bind_of_ok outcome] at both
  obtain ⟨u, outcome'⟩ := ok_of_succeeds both
  obtain ⟨spare', _, refines'⟩ := mappages_ok refines spare (by decide) (by decide) (by decide)
    (by decide) (fun vpn lower upper => by
      obtain rfl : vpn = 1 := le_antisymm upper lower
      rfl) outcome'
  have built : (uvmcreate >>= fun _ => mapFirst >>= fun _ => mapSecond) threePages =
      .ok (true, u) := by
    rw [bind_of_ok uvmcreate_threePages, bind_of_ok outcome, outcome']
  have lost : (match (mapFirst >>= fun _ => mapSecond) twoPages with
      | .ok (_, s) => freeFirst s
      | .error _ => none) = some none := by decide +kernel
  rw [bind_of_ok outcome, outcome'] at lost
  dsimp only [freeFirst] at lost
  cases unmapped : uvmunmap smallKernel 0x80001000 0 1 true u with
  | error stop =>
    rw [unmapped] at lost
    cases lost
  | ok pair =>
    rw [unmapped] at lost
    exact ⟨u, _, pair.2, built, refines', spare', by decide, by decide, unmapped,
      Option.some.inj lost⟩

end OsLab.Vm
