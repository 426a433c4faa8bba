import OsLab.Lib.Circle
import OsLab.Umalloc.Blocks
import OsLab.Umalloc.Model

/-!
# Freeing a block

`free` finds the node behind which its block belongs, and joins the block with the one above and
the one below it if they touch.
-/

namespace OsLab.Umalloc

open Function Finset

/-- The nodes of the free list: `base` and the blocks that are not handed out. -/
def nodes (base : Nat) (blocks live : Finset Nat) : Finset Nat := insert base (blocks \ live)

/-- What holds of the heap between calls, with all blocks and those handed out. -/
structure Inv (base : Nat) (h : Heap) (blocks live : Finset Nat) : Prop where
  tiling : Tiling base h.obtained blocks h.size
  live_subset : live ⊆ blocks
  circle : Circle (nodes base blocks live) h.ptr
  freep_mem : h.freep ∈ nodes base blocks live
  head : h.size base = 0
  gaps : ∀ p ∈ blocks \ live, ∀ q ∈ blocks \ live, h.after p ≠ q
  small : (h.obtained.map Prod.snd).sum < 2 ^ 32

variable {base bp p : Nat} {h : Heap} {blocks live : Finset Nat}

theorem search_succ (fuel : Nat) :
    h.search bp (fuel + 1) p = if Between p bp (h.ptr p) then some p
      else h.search bp fuel (h.ptr p) := by
  rw [Heap.search]
  by_cases inner : p < bp ∧ bp < h.ptr p
  · rw [if_pos inner, if_pos (show Between p bp (h.ptr p) from .inl inner)]
  rw [if_neg inner]
  by_cases outer : h.ptr p ≤ p ∧ (p < bp ∨ bp < h.ptr p)
  · rw [if_pos outer, if_pos (show Between p bp (h.ptr p) from .inr outer)]
  · rw [if_neg outer, if_neg (show ¬ Between p bp (h.ptr p) from not_or.mpr ⟨inner, outer⟩)]

theorem search_sound {fuel q : Nat} (found : h.search bp fuel p = some q) :
    (∃ k, q = h.ptr^[k] p) ∧ Between q bp (h.ptr q) := by
  induction fuel generalizing p with
  | zero => contradiction
  | succ fuel ih =>
    rw [search_succ] at found
    split at found
    · rename_i here
      cases found
      exact ⟨⟨0, rfl⟩, here⟩
    · obtain ⟨⟨k, reached⟩, there⟩ := ih found
      exact ⟨⟨k + 1, reached⟩, there⟩

/-- With fuel for the way to the right node the search ends, and more fuel changes nothing. -/
theorem search_terminates {k : Nat} (there : Between (h.ptr^[k] p) bp (h.ptr (h.ptr^[k] p))) :
    ∃ q, ∀ fuel, k < fuel → h.search bp fuel p = some q := by
  induction k generalizing p with
  | zero =>
    refine ⟨p, fun fuel enough => ?_⟩
    obtain ⟨fuel, rfl⟩ := Nat.exists_eq_succ_of_ne_zero (by omega : fuel ≠ 0)
    rw [search_succ, if_pos (show Between p bp (h.ptr p) from there)]
  | succ k ih =>
    by_cases here : Between p bp (h.ptr p)
    · refine ⟨p, fun fuel enough => ?_⟩
      obtain ⟨fuel, rfl⟩ := Nat.exists_eq_succ_of_ne_zero (by omega : fuel ≠ 0)
      rw [search_succ, if_pos here]
    · obtain ⟨q, found⟩ := ih there
      refine ⟨q, fun fuel enough => ?_⟩
      obtain ⟨fuel, rfl⟩ := Nat.exists_eq_succ_of_ne_zero (by omega : fuel ≠ 0)
      rw [search_succ, if_neg here]
      exact found fuel (by omega)

section Joining

variable {n : Nat} {q : Nat}

theorem mem_nodes : q ∈ nodes base blocks live ↔ q = base ∨ q ∈ blocks ∧ q ∉ live := by
  simp [nodes]

theorem Inv.live_notMem (inv : Inv base h blocks live) (handed : bp ∈ live) :
    bp ∉ nodes base blocks live := by
  rw [mem_nodes]
  rintro (rfl | ⟨_, free⟩)
  · exact inv.tiling.base_notMem (inv.live_subset handed)
  · exact free handed

/-- A block that is handed out, and the node behind which it belongs. -/
structure Place (base : Nat) (h : Heap) (blocks live : Finset Nat) (bp p : Nat) : Prop where
  inv : Inv base h blocks live
  handed : bp ∈ live
  node : p ∈ nodes base blocks live
  between : Between p bp (h.ptr p)

namespace Place

section

variable (place : Place base h blocks live bp p)
include place

theorem block : bp ∈ blocks :=
  place.inv.live_subset place.handed

theorem ne : p ≠ bp := fun same =>
  place.inv.live_notMem place.handed (same ▸ place.node)

theorem next_mem : h.ptr p = base ∨ h.ptr p ∈ blocks ∧ h.ptr p ∉ live :=
  mem_nodes.mp (place.inv.circle.link_mem place.node)

/-- A free block that touches the block from below is the one it belongs behind. -/
theorem below_eq {r : Nat} (free : r ∈ blocks \ live) (touch : h.after r = bp) : r = p := by
  have tiling := place.inv.tiling
  obtain ⟨listed, _⟩ := mem_sdiff.mp free
  have sizes := tiling.pos r listed
  unfold Heap.after at touch
  obtain ⟨first, second⟩ := (place.inv.circle.splits place.node place.between
    (mem_nodes.mpr (.inr (mem_sdiff.mp free)))).1 (by omega)
  by_contra differ
  rcases mem_nodes.mp place.node with rfl | ⟨other, _⟩
  · have := tiling.clear r listed
    omega
  · have := tiling.apart r listed p other (by omega)
    omega

/-- A free block that the block touches from below is the next node. -/
theorem above_eq {q : Nat} (free : q ∈ blocks \ live) (touch : h.after bp = q) : h.ptr p = q := by
  have tiling := place.inv.tiling
  have sizes := tiling.pos bp place.block
  unfold Heap.after at touch
  obtain ⟨first, second⟩ := (place.inv.circle.splits place.node place.between
    (mem_nodes.mpr (.inr (mem_sdiff.mp free)))).2 (by omega)
  by_contra differ
  rcases place.next_mem with same | ⟨other, _⟩
  · have := tiling.clear bp place.block
    omega
  · have := tiling.apart bp place.block _ other first
    omega

end

end Place

/-- The heap between the two halves of `free`, with the block in its place behind `p` but perhaps
touching it. -/
structure Joined (base : Nat) (h : Heap) (blocks live : Finset Nat) (bp p : Nat) : Prop where
  tiling : Tiling base h.obtained blocks h.size
  live_subset : live ⊆ blocks
  circle : Circle (nodes base blocks live) (update h.ptr p bp)
  block : bp ∈ blocks \ live
  node : p ∈ nodes base blocks live
  ne : p ≠ bp
  head : h.size base = 0
  touch : ∀ r ∈ blocks \ live, ∀ q ∈ blocks \ live, h.after r = q → r = p ∧ q = bp
  small : (h.obtained.map Prod.snd).sum < 2 ^ 32

theorem Place.linked (place : Place base h blocks live bp p) :
    Circle (insert bp (nodes base blocks live)) (update (update h.ptr bp (h.ptr p)) p bp) :=
  place.inv.circle.insert place.node (place.inv.live_notMem place.handed) place.between

theorem nodes_release (handed : bp ∈ live) (block : bp ∈ blocks) :
    nodes base blocks (live.erase bp) = insert bp (nodes base blocks live) := by
  ext q
  simp only [mem_nodes, mem_insert, mem_erase]
  by_cases same : q = bp
  · subst same
    tauto
  · tauto

theorem nodes_erase {n : Nat} (notBase : n ≠ base) :
    nodes base (blocks.erase n) live = (nodes base blocks live).erase n := by
  ext q
  simp only [mem_nodes, mem_erase]
  by_cases same : q = n
  · subst same
    tauto
  · tauto

theorem Place.joinAbove_apart (place : Place base h blocks live bp p)
    (apart : h.after bp ≠ h.ptr p) :
    Joined base (h.joinAbove bp p) blocks (live.erase bp) bp p := by
  have inv := place.inv
  have joined : h.joinAbove bp p = h.setPtr bp (h.ptr p) := if_neg apart
  have freed : blocks \ live.erase bp = insert bp (blocks \ live) := by
    ext q
    simp only [mem_sdiff, mem_erase, mem_insert]
    by_cases same : q = bp
    · subst same
      simpa using place.block
    · tauto
  rw [joined]
  refine ⟨inv.tiling, (erase_subset ..).trans inv.live_subset, ?_, ?_, ?_, place.ne,
    inv.head, fun r free q free' touch => ?_, inv.small⟩
  · rw [nodes_release place.handed place.block]
    exact place.linked
  · rw [freed]
    exact mem_insert_self ..
  · rw [nodes_release place.handed place.block]
    exact mem_insert_of_mem place.node
  · change h.after r = q at touch
    rw [freed] at free free'
    rcases mem_insert.mp free with rfl | old <;>
      rcases mem_insert.mp free' with rfl | old'
    · have := (inv.tiling.pos _ place.block).2
      unfold Heap.after at touch
      omega
    · exact absurd (touch.trans (place.above_eq old' touch).symm) apart
    · exact ⟨place.below_eq old touch, rfl⟩
    · exact absurd touch (inv.gaps r old q old')

theorem Place.joinAbove_touching (place : Place base h blocks live bp p)
    (touch : h.after bp = h.ptr p) :
    Joined base (h.joinAbove bp p) (blocks.erase (h.ptr p)) (live.erase bp) bp p := by
  have inv := place.inv
  have sizes := inv.tiling.pos bp place.block
  -- the next node is a block, because no block touches `base` from below
  obtain ⟨above, free⟩ : h.ptr p ∈ blocks ∧ h.ptr p ∉ live := by
    refine place.next_mem.resolve_left fun same => ?_
    have := inv.tiling.clear bp place.block
    unfold Heap.after at touch
    omega
  have differ : bp ≠ h.ptr p := by
    unfold Heap.after at touch
    omega
  have notBase : h.ptr p ≠ base := fun same => inv.tiling.base_notMem (same ▸ above)
  have notNode : h.ptr p ≠ p := by
    by_cases first : p = base
    · rwa [first] at notBase ⊢
    · exact inv.circle.link_ne place.node (mem_nodes.mpr (.inl rfl)) (Ne.symm first)
  have sum : (h.size bp + h.size (h.ptr p)) % 2 ^ 32 = h.size bp + h.size (h.ptr p) :=
    Nat.mod_eq_of_lt ((inv.tiling.size_add_le place.block above differ).trans_lt inv.small)
  have joined : h.joinAbove bp p = { h with
      size := update h.size bp (h.size bp + h.size (h.ptr p))
      ptr := update h.ptr bp (h.ptr (h.ptr p)) } := by
    rw [Heap.joinAbove, if_pos touch, sum]
    rfl
  have freed : ∀ q, q ∈ blocks.erase (h.ptr p) \ live.erase bp →
      q = bp ∨ q ≠ bp ∧ q ∈ blocks \ live := by
    intro q listed
    simp only [mem_sdiff, mem_erase] at listed ⊢
    tauto
  have circle := place.linked.erase (p := bp) (mem_insert_self ..)
  rw [update_of_ne place.ne.symm, update_self,
    update_of_ne notNode, update_of_ne differ.symm] at circle
  rw [joined]
  refine ⟨inv.tiling.merge place.block above touch, ?_, ?_, ?_, ?_, place.ne, ?_,
    fun r free q free' touching => ?_, inv.small⟩
  · intro q listed
    obtain ⟨_, handed⟩ := mem_erase.mp listed
    exact mem_erase.mpr ⟨fun same => free (same ▸ handed), inv.live_subset handed⟩
  · rw [nodes_erase notBase, nodes_release place.handed place.block]
    rw [update_comm place.ne, update_idem] at circle
    exact circle differ.symm
  · simp only [mem_sdiff, mem_erase]
    exact ⟨⟨differ, place.block⟩, fun ⟨absurd_, _⟩ => absurd_ rfl⟩
  · rw [nodes_erase notBase, nodes_release place.handed place.block]
    exact mem_erase.mpr ⟨notNode.symm, mem_insert_of_mem place.node⟩
  · refine (update_of_ne (fun same => ?_) ..).trans inv.head
    exact inv.tiling.base_notMem (same ▸ place.block)
  · rcases freed r free with rfl | ⟨otherR, old⟩ <;>
      rcases freed q free' with rfl | ⟨otherQ, old'⟩
    · rw [Heap.after] at touching
      dsimp only at touching
      rw [update_self] at touching
      omega
    · rw [Heap.after] at touching
      dsimp only at touching
      rw [update_self] at touching
      refine absurd ?_ (inv.gaps _ (mem_sdiff.mpr ⟨above, ‹_›⟩) q old')
      unfold Heap.after at touch ⊢
      omega
    · rw [Heap.after] at touching
      dsimp only at touching
      rw [update_of_ne otherR] at touching
      exact ⟨place.below_eq old touching, rfl⟩
    · rw [Heap.after] at touching
      dsimp only at touching
      rw [update_of_ne otherR] at touching
      exact absurd touching (inv.gaps r old q old')

theorem Joined.joinBelow_apart (joined : Joined base h blocks live bp p) (apart : h.after p ≠ bp) :
    Inv base { h.joinBelow bp p with freep := p } blocks live := by
  have linked : h.joinBelow bp p = h.setPtr p bp := if_neg apart
  rw [linked]
  refine ⟨joined.tiling, joined.live_subset, joined.circle, joined.node, joined.head,
    fun r free q free' touch => ?_, joined.small⟩
  obtain ⟨rfl, rfl⟩ := joined.touch r free q free' touch
  exact apart touch

theorem Joined.joinBelow_touching (joined : Joined base h blocks live bp p)
    (touch : h.after p = bp) :
    Inv base { h.joinBelow bp p with freep := p } (blocks.erase bp) live := by
  have tiling := joined.tiling
  obtain ⟨block, free⟩ := mem_sdiff.mp joined.block
  have notBase : bp ≠ base := fun same => tiling.base_notMem (same ▸ block)
  obtain ⟨below, freeP⟩ : p ∈ blocks ∧ p ∉ live := by
    refine (mem_nodes.mp joined.node).resolve_left fun same => notBase ?_
    rw [Heap.after, same, joined.head] at touch
    omega
  have sum : (h.size p + h.size bp) % 2 ^ 32 = h.size p + h.size bp :=
    Nat.mod_eq_of_lt ((tiling.size_add_le below block joined.ne).trans_lt joined.small)
  have linked : h.joinBelow bp p = { h with
      size := update h.size p (h.size p + h.size bp)
      ptr := update h.ptr p (h.ptr bp) } := by
    rw [Heap.joinBelow, if_pos touch, sum]
    rfl
  have circle := joined.circle.erase joined.node
  rw [update_self, update_of_ne joined.ne.symm, update_idem] at circle
  have smaller : ∀ q, q ∈ blocks.erase bp \ live → q ≠ bp ∧ q ∈ blocks \ live := by
    intro q listed
    simp only [mem_sdiff, mem_erase] at listed ⊢
    tauto
  rw [linked]
  refine ⟨tiling.merge below block touch, fun q handed => ?_, ?_, ?_, ?_,
    fun r freeR q freeQ touching => ?_, joined.small⟩
  · exact mem_erase.mpr ⟨fun same => free (same ▸ handed), joined.live_subset handed⟩
  · rw [nodes_erase notBase]
    exact circle joined.ne.symm
  · rw [nodes_erase notBase]
    exact mem_erase.mpr ⟨joined.ne, joined.node⟩
  · refine (update_of_ne (fun same => ?_) ..).trans joined.head
    exact tiling.base_notMem (same ▸ below)
  · obtain ⟨otherR, oldR⟩ := smaller r freeR
    obtain ⟨otherQ, oldQ⟩ := smaller q freeQ
    rw [Heap.after] at touching
    dsimp only at touching
    by_cases same : r = p
    · rw [same, update_self] at touching
      refine otherQ (joined.touch bp joined.block q oldQ ?_).2
      unfold Heap.after at touch ⊢
      omega
    · rw [update_of_ne same] at touching
      exact same (joined.touch r oldR q oldQ touching).1

theorem size_joinAbove (other : q ≠ bp) : (h.joinAbove bp p).size q = h.size q := by
  unfold Heap.joinAbove
  split
  · exact update_of_ne other ..
  · rfl

theorem size_joinBelow (other : q ≠ p) : (h.joinBelow bp p).size q = h.size q := by
  unfold Heap.joinBelow
  split
  · exact update_of_ne other ..
  · rfl

theorem obtained_join : ((h.joinAbove bp p).joinBelow bp p).obtained = h.obtained := by
  unfold Heap.joinBelow Heap.joinAbove
  split <;> split <;> rfl

theorem Place.join (place : Place base h blocks live bp p) :
    ∃ after, Inv base { (h.joinAbove bp p).joinBelow bp p with freep := p } after
      (live.erase bp) := by
  have below : ∀ {blocks}, Joined base (h.joinAbove bp p) blocks (live.erase bp) bp p →
      ∃ after, Inv base { (h.joinAbove bp p).joinBelow bp p with freep := p } after
        (live.erase bp) := by
    intro blocks joined
    by_cases touch : (h.joinAbove bp p).after p = bp
    · exact ⟨_, joined.joinBelow_touching touch⟩
    · exact ⟨_, joined.joinBelow_apart touch⟩
  by_cases touch : h.after bp = h.ptr p
  · exact below (place.joinAbove_touching touch)
  · exact below (place.joinAbove_apart touch)

end Joining

/-- What a call leaves of the blocks that stay handed out. -/
structure Keeps (h after : Heap) (live : Finset Nat) : Prop where
  size : ∀ q ∈ live, after.size q = h.size q

theorem Inv.free {fuel : Nat} {after : Heap} (inv : Inv base h blocks live) (handed : bp ∈ live)
    (returned : h.free fuel (bp + 16) = some after) :
    after.obtained = h.obtained ∧ Keeps h after (live.erase bp) ∧
      ∃ blocks, Inv base after blocks (live.erase bp) := by
  obtain ⟨p, found, result⟩ := Option.bind_eq_some_iff.mp returned
  cases result
  obtain ⟨⟨k, reached⟩, between⟩ := search_sound found
  have node : p ∈ nodes base blocks live := reached ▸ inv.circle.iterate_mem inv.freep_mem k
  have place : Place base h blocks live bp p := ⟨inv, handed, node, between⟩
  refine ⟨obtained_join, ⟨fun q kept => ?_⟩, place.join⟩
  obtain ⟨other, listed⟩ := mem_erase.mp kept
  refine (size_joinBelow fun same => ?_).trans (size_joinAbove other)
  exact inv.live_notMem listed (same ▸ node)

/-- `free` returns, and more fuel changes nothing. -/
theorem Inv.free_terminates (inv : Inv base h blocks live) (handed : bp ∈ live) :
    ∃ after bound, ∀ fuel, bound < fuel → h.free fuel (bp + 16) = some after := by
  obtain ⟨p, node, between⟩ := inv.circle.exists_between ⟨_, inv.freep_mem⟩
    (inv.live_notMem handed)
  obtain ⟨k, rfl⟩ := inv.circle.reaches inv.freep_mem node
  obtain ⟨q, found⟩ := search_terminates between
  refine ⟨{ (h.joinAbove bp q).joinBelow bp q with freep := q }, k, fun fuel enough => ?_⟩
  rw [Heap.free, Nat.add_sub_cancel, found fuel enough]
  rfl

end OsLab.Umalloc
