import OsLab.Umalloc.Freeing

/-!
# Allocating a block

`malloc` goes around the free list for a block that is large enough, takes it or its tail, and
asks for more memory when it has come around.
-/

namespace OsLab.Umalloc

open Function Finset

variable {base : Nat} {h after : Heap} {blocks live : Finset Nat}

/-- What `malloc` leaves: the same blocks handed out as before, or one more of the units asked
for. -/
structure Allocates (base : Nat) (h : Heap) (live : Finset Nat) (nunits : Nat) (after : Heap)
    (ap : Nat) : Prop where
  kept : Keeps h after live
  failed : ap = 0 → ∃ blocks, Inv base after blocks live
  block : ap ≠ 0 → 16 ≤ ap ∧ after.size (ap - 16) = nunits ∧ ap - 16 ∉ live ∧
    ∃ blocks, Inv base after blocks (insert (ap - 16) live)

section Taking

variable {prevp p nunits : Nat}

theorem Inv.block_of_size (inv : Inv base h blocks live) (node : p ∈ nodes base blocks live)
    (units : 0 < h.size p) : p ∈ blocks ∧ p ∉ live := by
  refine (mem_nodes.mp node).resolve_left fun same => ?_
  rw [same, inv.head] at units
  omega

section

variable (inv : Inv base h blocks live) (node : prevp ∈ nodes base blocks live)
include inv node

theorem Inv.take_whole (fits : h.size (h.ptr prevp) = nunits) (some_ : 0 < nunits) :
    Allocates base h live nunits
      { h.setPtr prevp (h.ptr (h.ptr prevp)) with freep := prevp } (h.ptr prevp + 16) := by
  have next := inv.circle.link_mem node
  obtain ⟨block, free⟩ := inv.block_of_size next (by omega)
  have notBase : h.ptr prevp ≠ base := fun same => inv.tiling.base_notMem (same ▸ block)
  have differ : h.ptr prevp ≠ prevp := by
    by_cases first : prevp = base
    · rwa [first] at notBase ⊢
    · exact inv.circle.link_ne node (mem_nodes.mpr (.inl rfl)) (Ne.symm first)
  have shrunk : nodes base blocks (insert (h.ptr prevp) live) =
      (nodes base blocks live).erase (h.ptr prevp) := by
    ext q
    simp only [mem_nodes, mem_erase, mem_insert]
    by_cases same : q = h.ptr prevp
    · rw [same]
      tauto
    · tauto
  have smaller : blocks \ insert (h.ptr prevp) live ⊆ blocks \ live :=
    sdiff_subset_sdiff subset_rfl (subset_insert ..)
  refine ⟨⟨fun _ _ => rfl⟩, by omega, fun _ => ⟨by omega, ?_, ?_, blocks, ?_⟩⟩
  · rw [Nat.add_sub_cancel]
    exact fits
  · rwa [Nat.add_sub_cancel]
  · rw [Nat.add_sub_cancel]
    refine ⟨inv.tiling, insert_subset block inv.live_subset, ?_, ?_, inv.head,
      fun r freeR q freeQ => inv.gaps r (smaller freeR) q (smaller freeQ), inv.small⟩
    · rw [shrunk]
      exact inv.circle.erase node differ
    · rw [shrunk]
      exact mem_erase.mpr ⟨differ.symm, node⟩

theorem Inv.take_tail (there : p ∈ nodes base blocks live) (some_ : 0 < nunits)
    (less : nunits < h.size p) :
    Allocates base h live nunits
      { h with
        size := update (update h.size p (h.size p - nunits))
          (p + 16 * (h.size p - nunits)) nunits
        freep := prevp }
      (p + 16 * (h.size p - nunits) + 16) := by
  obtain ⟨block, free⟩ := inv.block_of_size there (by omega)
  obtain ⟨new, tiling⟩ := inv.tiling.split block some_ less rfl
  have notP : p + 16 * (h.size p - nunits) ≠ p := by omega
  have notBase : p + 16 * (h.size p - nunits) ≠ base := by
    have := inv.tiling.clear p block
    omega
  have baseP : base ≠ p := fun same => inv.tiling.base_notMem (same ▸ block)
  generalize tail : p + 16 * (h.size p - nunits) = q at *
  have newLive : q ∉ live := fun handed => new (inv.live_subset handed)
  have kept : ∀ r, r ≠ q → r ≠ p →
      update (update h.size p (h.size p - nunits)) q nunits r = h.size r :=
    fun r first second => by rw [update_of_ne first, update_of_ne second]
  have same : insert q blocks \ insert q live = blocks \ live := by
    ext r
    simp only [mem_sdiff, mem_insert]
    by_cases here : r = q
    · subst here
      tauto
    · tauto
  refine ⟨⟨fun r handed => kept r (fun eq => newLive (eq ▸ handed)) fun eq => free (eq ▸ handed)⟩,
    by omega, fun _ => ⟨by omega, ?_, ?_, insert q blocks, ?_⟩⟩
  · rw [Nat.add_sub_cancel]
    exact update_self ..
  · rwa [Nat.add_sub_cancel]
  · rw [Nat.add_sub_cancel]
    refine ⟨tiling, insert_subset_insert q inv.live_subset, ?_, ?_, ?_,
      fun r freeR s freeS touch => ?_, inv.small⟩
    · rw [nodes, same]
      exact inv.circle
    · rw [nodes, same]
      exact node
    · exact (kept base notBase.symm baseP).trans inv.head
    · rw [same] at freeR freeS
      have otherR : r ≠ q := fun eq => new (eq ▸ (mem_sdiff.mp freeR).1)
      have otherS : s ≠ q := fun eq => new (eq ▸ (mem_sdiff.mp freeS).1)
      rw [Heap.after] at touch
      dsimp only at touch
      by_cases here : r = p
      · rw [here, update_of_ne notP.symm, update_self] at touch
        omega
      · rw [kept r otherR here] at touch
        exact inv.gaps r freeR s freeS touch

/-- A block that is large enough is handed out, or its tail is. -/
theorem Inv.take (some_ : 0 < nunits) (fits : nunits ≤ h.size (h.ptr prevp)) :
    Allocates base h live nunits (h.take nunits prevp (h.ptr prevp)).1
      (h.take nunits prevp (h.ptr prevp)).2 := by
  unfold Heap.take
  split
  · rename_i same
    exact inv.take_whole node same some_
  rename_i differ
  have taken := inv.take_tail node (inv.circle.link_mem node) some_ (by omega)
  have size : (h.setSize (h.ptr prevp) (h.size (h.ptr prevp) - nunits)).after (h.ptr prevp) =
      h.ptr prevp + 16 * (h.size (h.ptr prevp) - nunits) := by
    rw [Heap.after, Heap.setSize]
    dsimp only
    rw [update_self]
  dsimp only
  rw [size]
  exact taken

end

end Taking

/-- What is assumed of the memory that `sbrk` hands out: fresh, not right below `base`, and not
more altogether than a size can count. -/
structure Supplied (base : Nat) (obtained : List (Nat × Nat)) (hp units : Nat) : Prop where
  fresh : Fresh base obtained hp units
  clear : hp + 16 * units ≠ base
  small : units + (obtained.map Prod.snd).sum < 2 ^ 32

section More

variable {hp nu fuel : Nat}

/-- The new region as a block that is handed out. -/
theorem Inv.supply {units : Nat} (inv : Inv base h blocks live) (some_ : 0 < units)
    (supplied : Supplied base h.obtained hp units) :
    hp ∉ live ∧ Inv base { h.setSize hp units with obtained := (hp, units) :: h.obtained }
      (insert hp blocks) (insert hp live) := by
  obtain ⟨⟨nonnull, apart, fresh⟩, clear, small⟩ := supplied
  obtain ⟨new, tiling⟩ := inv.tiling.region nonnull some_ (by omega) fresh
  have newLive : hp ∉ live := fun handed => new (inv.live_subset handed)
  have notBase : base ≠ hp := by omega
  have same : insert hp blocks \ insert hp live = blocks \ live := by
    ext r
    simp only [mem_sdiff, mem_insert]
    by_cases here : r = hp
    · subst here
      tauto
    · tauto
  refine ⟨newLive, tiling, insert_subset_insert hp inv.live_subset, ?_, ?_, ?_,
    fun r freeR q freeQ touch => ?_, small⟩
  · rw [nodes, same]
    exact inv.circle
  · rw [nodes, same]
    exact inv.freep_mem
  · exact (update_of_ne notBase ..).trans inv.head
  · rw [same] at freeR freeQ
    have other : r ≠ hp := fun eq => new (eq ▸ (mem_sdiff.mp freeR).1)
    rw [Heap.after] at touch
    dsimp only [Heap.setSize] at touch
    rw [update_of_ne other] at touch
    exact inv.gaps r freeR q freeQ touch

theorem coreUnits_pos (nu : Nat) : 0 < Heap.coreUnits nu := by
  unfold Heap.coreUnits
  split <;> omega

section

variable (inv : Inv base h blocks live) (supplied : Supplied base h.obtained hp (Heap.coreUnits nu))
include inv supplied

theorem Inv.morecore (returned : h.morecore fuel nu hp = some after) :
    after.obtained = (hp, Heap.coreUnits nu) :: h.obtained ∧ Keeps h after live ∧
      ∃ blocks, Inv base after blocks live := by
  obtain ⟨new, more⟩ := inv.supply (coreUnits_pos nu) supplied
  obtain ⟨obtained, kept, freed⟩ := more.free (mem_insert_self ..) returned
  rw [erase_insert new] at kept freed
  refine ⟨obtained, ⟨fun q handed => (kept.size q handed).trans ?_⟩, freed⟩
  exact update_of_ne (fun same : q = hp => new (same ▸ handed)) ..

theorem Inv.morecore_terminates :
    ∃ after bound, ∀ fuel, bound < fuel → h.morecore fuel nu hp = some after :=
  (inv.supply (coreUnits_pos nu) supplied).2.free_terminates (mem_insert_self ..)

end

end More

section Loop

variable {nunits fuel prevp ap : Nat} {core : Option Nat}

theorem Allocates.trans {middle : Heap} (kept : Keeps h middle live)
    (allocates : Allocates base middle live nunits after ap) :
    Allocates base h live nunits after ap :=
  { allocates with
    kept := ⟨fun q handed => (allocates.kept.size q handed).trans (kept.size q handed)⟩ }

/-- What the loop does when it has come around. -/
def refill (nunits fuel : Nat) (h : Heap) : Option Nat → Option (Heap × Nat)
  | none => some (h, 0)
  | some hp => do
    let h ← h.morecore fuel nunits hp
    Heap.mallocLoop nunits fuel h h.freep (h.ptr h.freep) none

theorem mallocLoop_succ (p : Nat) :
    Heap.mallocLoop nunits (fuel + 1) h prevp p core =
      if nunits ≤ h.size p then some (h.take nunits prevp p)
      else if p = h.freep then refill nunits fuel h core
      else Heap.mallocLoop nunits fuel h p (h.ptr p) core := by
  cases core <;> rfl

/-- Whatever fuel the loop returns with, it hands out a block or fails. -/
theorem Inv.mallocLoop (inv : Inv base h blocks live) (node : prevp ∈ nodes base blocks live)
    (some_ : 0 < nunits)
    (supplied : ∀ hp ∈ core, Supplied base h.obtained hp (Heap.coreUnits nunits))
    (returned : Heap.mallocLoop nunits fuel h prevp (h.ptr prevp) core = some (after, ap)) :
    Allocates base h live nunits after ap := by
  induction fuel generalizing h prevp core blocks with
  | zero => contradiction
  | succ fuel ih =>
    rw [mallocLoop_succ] at returned
    split at returned
    · rename_i fits
      have taken := inv.take node some_ fits
      rw [Option.some.inj returned] at taken
      exact taken
    split at returned
    · cases core with
      | none =>
        cases returned
        exact ⟨⟨fun _ _ => rfl⟩, fun _ => ⟨blocks, inv⟩, (absurd rfl ·)⟩
      | some hp =>
        obtain ⟨middle, more, rest⟩ := Option.bind_eq_some_iff.mp returned
        obtain ⟨_, kept, blocks', inv'⟩ := inv.morecore (supplied hp rfl) more
        exact (ih inv' inv'.freep_mem (by simp) rest).trans kept
    · exact ih inv (inv.circle.link_mem node) supplied returned

/-- A round ends at the latest where it has come around. -/
theorem round_terminates {k bound : Nat} (reaches : h.ptr^[k] (h.ptr prevp) = h.freep)
    (ends : ∀ fuel, bound < fuel → (refill nunits fuel h core).isSome) :
    ∀ fuel, k + 1 + bound < fuel →
      (Heap.mallocLoop nunits fuel h prevp (h.ptr prevp) core).isSome := by
  induction k generalizing prevp with
  | zero =>
    intro fuel large
    obtain ⟨fuel, rfl⟩ := Nat.exists_eq_succ_of_ne_zero (by omega : fuel ≠ 0)
    rw [mallocLoop_succ]
    split
    · rfl
    rw [if_pos (show h.ptr prevp = h.freep from reaches)]
    exact ends fuel (by omega)
  | succ k ih =>
    intro fuel large
    obtain ⟨fuel, rfl⟩ := Nat.exists_eq_succ_of_ne_zero (by omega : fuel ≠ 0)
    rw [mallocLoop_succ]
    split
    · rfl
    split
    · exact ends fuel (by omega)
    · exact ih reaches fuel (by omega)

theorem Inv.round_terminates (inv : Inv base h blocks live) (nunits bound : Nat) (core : Option Nat)
    (ends : ∀ fuel, bound < fuel → (refill nunits fuel h core).isSome) :
    ∃ bound, ∀ fuel, bound < fuel →
      (Heap.mallocLoop nunits fuel h h.freep (h.ptr h.freep) core).isSome := by
  obtain ⟨k, reached⟩ := inv.circle.reaches (inv.circle.link_mem inv.freep_mem) inv.freep_mem
  exact ⟨_, Umalloc.round_terminates reached ends⟩

/-- The loop of `malloc` ends: it goes around at most twice. -/
theorem Inv.mallocLoop_terminates (inv : Inv base h blocks live)
    (supplied : ∀ hp ∈ core, Supplied base h.obtained hp (Heap.coreUnits nunits)) :
    ∃ bound, ∀ fuel, bound < fuel →
      (Heap.mallocLoop nunits fuel h h.freep (h.ptr h.freep) core).isSome := by
  cases core with
  | none => exact inv.round_terminates nunits 0 none fun _ _ => rfl
  | some hp =>
    obtain ⟨middle, first, returns⟩ := inv.morecore_terminates (supplied hp rfl)
    obtain ⟨_, _, blocks', inv'⟩ := inv.morecore (supplied hp rfl)
      (returns (first + 1) (Nat.lt_succ_self _))
    obtain ⟨second, ends⟩ := inv'.round_terminates nunits 0 none fun _ _ => rfl
    refine inv.round_terminates nunits (max first second) (some hp) fun fuel large => ?_
    change (h.morecore fuel nunits hp >>= _).isSome
    rw [returns fuel (lt_of_le_of_lt (le_max_left ..) large)]
    exact ends fuel (lt_of_le_of_lt (le_max_right ..) large)

end Loop

section Malloc

variable {nbytes fuel ap : Nat} {core : Option Nat}

theorem unitsFor_pos (nbytes : Nat) : 0 < Heap.unitsFor nbytes := Nat.succ_pos _

theorem unitsFor_enough (nbytes : Nat) : nbytes ≤ 16 * (Heap.unitsFor nbytes - 1) := by
  unfold Heap.unitsFor
  omega

theorem inv_start (empty : h.obtained = []) (first : h.freep = 0) :
    Inv base (h.start base) ∅ ∅ := by
  rw [Heap.start, if_pos first]
  have only : nodes base ∅ ∅ = {base} := rfl
  refine ⟨⟨nofun, nofun, nofun, nofun, ?_⟩, subset_rfl, ?_, ?_, ?_, nofun, ?_⟩
  · change 0 = (h.obtained.map Prod.snd).sum
    rw [empty]
    rfl
  · intro p listed
    rw [only, mem_singleton] at listed
    subst listed
    change Next _ p (update h.ptr p p p)
    rw [update_self, only]
    exact ⟨mem_singleton_self p, .inr ⟨le_rfl, fun r here => by
      rw [mem_singleton.mp here]
      exact ⟨le_rfl, le_rfl⟩⟩⟩
  · exact mem_singleton_self base
  · exact update_self ..
  · change (h.obtained.map Prod.snd).sum < _
    rw [empty]
    exact Nat.two_pow_pos 32

/-- Before the first call there is nothing, and since then there is a free list. -/
inductive Ready (base : Nat) (h : Heap) (live : Finset Nat) : Prop where
  | unused (none : live = ∅) (empty : h.obtained = []) (first : h.freep = 0)
  | used (blocks : Finset Nat) (inv : Inv base h blocks live) (listed : h.freep ≠ 0)

theorem obtained_start (h : Heap) (base : Nat) : (h.start base).obtained = h.obtained := by
  unfold Heap.start
  split <;> rfl

theorem Ready.start (ready : Ready base h live) :
    (∃ blocks, Inv base (h.start base) blocks live) ∧ Keeps h (h.start base) live := by
  cases ready with
  | unused none empty first =>
    subst none
    exact ⟨⟨∅, inv_start empty first⟩, ⟨nofun⟩⟩
  | used blocks inv listed =>
    have same : h.start base = h := if_neg listed
    rw [same]
    exact ⟨⟨blocks, inv⟩, ⟨fun _ _ => rfl⟩⟩

theorem Inv.freep_ne_zero (inv : Inv base h blocks live) (nonnull : 0 < base) : h.freep ≠ 0 := by
  rcases mem_nodes.mp inv.freep_mem with same | ⟨block, _⟩
  · omega
  · have := (inv.tiling.pos _ block).1
    omega

section

variable (ready : Ready base h live)
  (supplied : ∀ hp ∈ core, Supplied base h.obtained hp (Heap.coreUnits (Heap.unitsFor nbytes)))
include ready supplied

theorem Ready.malloc (returned : h.malloc base fuel nbytes core = some (after, ap)) :
    Allocates base h live (Heap.unitsFor nbytes) after ap := by
  obtain ⟨⟨blocks, inv⟩, kept⟩ := ready.start
  rw [← obtained_start h base] at supplied
  exact (inv.mallocLoop inv.freep_mem (unitsFor_pos nbytes) supplied returned).trans kept

theorem Ready.malloc_terminates :
    ∃ bound, ∀ fuel, bound < fuel → (h.malloc base fuel nbytes core).isSome := by
  obtain ⟨⟨blocks, inv⟩, _⟩ := ready.start
  rw [← obtained_start h base] at supplied
  exact inv.mallocLoop_terminates supplied

end

end Malloc

end OsLab.Umalloc
