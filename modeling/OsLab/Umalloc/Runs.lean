import OsLab.Umalloc.Allocating

/-!
# Sequences of calls

Along every sequence of `malloc` and `free` the blocks handed out stay apart and inside the memory
obtained, the free list stays a circle in order, and no unit is lost, if no region ends where
`base` begins and the sizes do not overflow.
-/

namespace OsLab.Umalloc

namespace Run

open Function Finset Option

variable {base : Nat} {s : Run}

/-- What is assumed of `sbrk` beyond fresh regions: none ends where `base` begins, and all of them
have less than `2 ^ 32` units. -/
def Supplies (base : Nat) (s : Run) : Call → Prop
  | .malloc nbytes core => ∀ hp ∈ core, hp + 16 * Heap.coreUnits (Heap.unitsFor nbytes) ≠ base ∧
        Heap.coreUnits (Heap.unitsFor nbytes) + (s.heap.obtained.map Prod.snd).sum < 2 ^ 32
  | .free _ => True

instance (base : Nat) (s : Run) : (call : Call) → Decidable (s.Supplies base call)
  | .malloc _ core => inferInstanceAs (Decidable (∀ hp ∈ core, _ ∧ _))
  | .free _ => inferInstanceAs (Decidable True)

structure Inv (base : Nat) (s : Run) : Prop where
  ready : Ready base s.heap s.live
  asked : ∀ p ∈ s.live, s.asked p ≤ 16 * (s.heap.size p - 1)

theorem supplied {nbytes : Nat} {core : Option Nat} (legal : s.Legal base (.malloc nbytes core))
    (supplies : s.Supplies base (.malloc nbytes core)) :
    ∀ hp ∈ core, Supplied base s.heap.obtained hp (Heap.coreUnits (Heap.unitsFor nbytes)) :=
  fun hp called => ⟨legal.2 hp called, (supplies hp called).1, (supplies hp called).2⟩

theorem Inv.step {after : Run} {fuel : Nat} {call : Call} (inv : Inv base s) (nonnull : 0 < base)
    (legal : s.Legal base call) (supplies : s.Supplies base call)
    (returned : s.run base fuel call = some after) : Inv base after := by
  cases call with
  | malloc nbytes core =>
    obtain ⟨⟨heap, ap⟩, result, rest⟩ := bind_eq_some_iff.mp returned
    have allocates := inv.ready.malloc (supplied legal supplies) result
    dsimp only at rest
    split at rest
    · rename_i failed
      cases rest
      obtain ⟨blocks, heapInv⟩ := allocates.failed failed
      refine ⟨.used blocks heapInv (heapInv.freep_ne_zero nonnull), fun p handed => ?_⟩
      rw [allocates.kept.size p handed]
      exact inv.asked p handed
    · rename_i block
      cases rest
      obtain ⟨_, size, new, blocks, heapInv⟩ := allocates.block block
      refine ⟨.used blocks heapInv (heapInv.freep_ne_zero nonnull), fun p handed => ?_⟩
      dsimp only at handed ⊢
      by_cases same : p = ap - 16
      · rw [same, update_self, size]
        exact unitsFor_enough nbytes
      · have old := (mem_insert.mp handed).resolve_left same
        rw [update_of_ne same, allocates.kept.size p old]
        exact inv.asked p old
  | free ap =>
    obtain ⟨handed, header⟩ := legal
    obtain ⟨heap, result, rest⟩ := bind_eq_some_iff.mp returned
    cases rest
    cases inv.ready with
    | unused none _ _ =>
      rw [none] at handed
      contradiction
    | used blocks heapInv _ =>
      rw [show ap = ap - 16 + 16 by omega] at result
      obtain ⟨_, kept, blocks', freed⟩ := heapInv.free handed result
      refine ⟨.used blocks' freed (freed.freep_ne_zero nonnull), fun p stays => ?_⟩
      dsimp only at stays ⊢
      rw [kept.size p stays]
      exact inv.asked p (mem_of_mem_erase stays)

theorem Inv.terminates (inv : Inv base s) (call : Call) (legal : s.Legal base call)
    (supplies : s.Supplies base call) :
    ∃ bound, ∀ fuel, bound < fuel → (s.run base fuel call).isSome := by
  cases call with
  | malloc nbytes core =>
    obtain ⟨bound, returns⟩ := inv.ready.malloc_terminates (supplied legal supplies)
    refine ⟨bound, fun fuel enough => ?_⟩
    obtain ⟨⟨heap, ap⟩, result⟩ := isSome_iff_exists.mp (returns fuel enough)
    rw [Run.run, result]
    change (if ap = 0 then _ else _ : Option Run).isSome
    split <;> rfl
  | free ap =>
    obtain ⟨handed, header⟩ := legal
    cases inv.ready with
    | unused none _ _ =>
      rw [none] at handed
      contradiction
    | used blocks heapInv _ =>
      obtain ⟨heap, bound, returns⟩ := heapInv.free_terminates handed
      rw [show ap - 16 + 16 = ap by omega] at returns
      refine ⟨bound, fun fuel enough => ?_⟩
      rw [Run.run, returns fuel enough]
      rfl

/-- The free list: a circle that contains `base`, in increasing order with one wrap, without free
blocks that touch. -/
structure FreeList (base : Nat) (h : Heap) (order : List Nat) : Prop where
  sorted : order.Pairwise (· < ·)
  base_mem : base ∈ order
  freep_mem : h.freep ∈ order
  links : ∀ i (inside : i < order.length),
    order[(i + 1) % order.length]? = some (h.ptr (order.get ⟨i, inside⟩))
  apart : ∀ p ∈ order, p ≠ base → ∀ q ∈ order, h.after p ≠ q

/-- The allocator is correct in this state. -/
structure Correct (base : Nat) (s : Run) : Prop where
  disjoint : ∀ p ∈ s.live, ∀ q ∈ s.live, p < q → s.heap.after p ≤ q
  inside : ∀ p ∈ s.live, ∀ x, p ≤ x → x < s.heap.after p →
    ∃ r ∈ s.heap.obtained, r.1 ≤ x ∧ x < r.1 + 16 * r.2
  usable : ∀ p ∈ s.live, p + 16 + s.asked p ≤ s.heap.after p
  unused : s.heap.freep = 0 → s.live = ∅ ∧ s.heap.obtained = []
  list : s.heap.freep ≠ 0 → ∃ order, FreeList base s.heap order ∧
    (order.map s.heap.size).sum + ∑ p ∈ s.live, s.heap.size p = (s.heap.obtained.map Prod.snd).sum
  returns : ∀ call, s.Legal base call → s.Supplies base call →
    ∃ bound, ∀ fuel, bound < fuel → (s.run base fuel call).isSome

theorem freeList_of_inv {h : Heap} {blocks live : Finset Nat}
    (inv : Umalloc.Inv base h blocks live) :
    ∃ order, FreeList base h order ∧
      (order.map h.size).sum + ∑ p ∈ live, h.size p = (h.obtained.map Prod.snd).sum := by
  set order := (nodes base blocks live).sort (· ≤ ·) with ordered
  have sorted : order.Pairwise (· < ·) := (sortedLT_sort _).pairwise
  have all : ∀ p, p ∈ order ↔ p ∈ nodes base blocks live := fun p => mem_sort _
  refine ⟨order, ⟨sorted, (all base).mpr (mem_nodes.mpr (.inl rfl)), (all _).mpr inv.freep_mem,
    fun i inside => inv.circle.link_getElem sorted all inside, fun p first notBase q second => ?_⟩,
    ?_⟩
  · have block := (mem_nodes.mp ((all p).mp first)).resolve_left notBase
    rcases mem_nodes.mp ((all q).mp second) with rfl | other
    · have := inv.tiling.clear p block.1
      unfold Heap.after
      omega
    · exact inv.gaps p (mem_sdiff.mpr block) q (mem_sdiff.mpr other)
  · have absent : base ∉ blocks \ live := fun listed =>
      inv.tiling.base_notMem (mem_sdiff.mp listed).1
    have free : (order.map h.size).sum = ∑ p ∈ blocks \ live, h.size p := by
      rw [← List.sum_toFinset _ (sorted.imp ne_of_lt), ordered, sort_toFinset, nodes,
        sum_insert absent, inv.head, zero_add]
    rw [free, sum_sdiff inv.live_subset, inv.tiling.total]

theorem Inv.correct (inv : Inv base s) : Correct base s := by
  have returns := inv.terminates
  cases inv.ready with
  | unused none empty first =>
    have nobody : ∀ p, p ∉ s.live := by
      rw [none]
      exact notMem_empty
    exact ⟨fun p handed => absurd handed (nobody p), fun p handed => absurd handed (nobody p),
      fun p handed => absurd handed (nobody p), fun _ => ⟨none, empty⟩,
      (absurd first ·), returns⟩
  | used blocks heapInv listed =>
    have within := heapInv.live_subset
    refine ⟨fun p left q right => ?_, fun p handed => ?_, fun p handed => ?_,
      (absurd · listed), fun _ => freeList_of_inv heapInv, returns⟩
    · exact heapInv.tiling.apart p (within left) q (within right)
    · exact heapInv.tiling.inside p (within handed)
    · have units := (heapInv.tiling.pos p (within handed)).2
      have asked := inv.asked p handed
      unfold Heap.after
      omega

/-- **The allocator is correct** after every sequence of calls. -/
theorem correct_of_reaches (nonnull : 0 < base)
    (run : ((system base).restrict fun s step => s.Supplies base step.call).Reaches initial s) :
    Correct base s := by
  have invariant : Inv base s := by
    refine run.invariant (P := Inv base) (fun s step inv enabled => ?_) ⟨.unused rfl rfl rfl, nofun⟩
    obtain ⟨⟨legal, returned⟩, supplies⟩ := enabled
    obtain ⟨after, result⟩ := isSome_iff_exists.mp returned
    change Inv base ((s.run base step.fuel step.call).getD s)
    rw [result]
    exact inv.step nonnull legal supplies result
  exact invariant.correct

/-- Two blocks are handed out and the first one is freed. -/
def sampleSteps : List Step :=
  [⟨.malloc 10 (some 65536), 10⟩, ⟨.malloc 100 none, 10⟩, ⟨.free 131056, 10⟩]

theorem sampleSteps_correct :
    ((system 4096).restrict fun s step => s.Supplies 4096 step.call).Schedules initial sampleSteps ∧
      Correct 4096 (sampleSteps.foldl (system 4096).next initial) := by
  have steps : ((system 4096).restrict fun s step => s.Supplies 4096 step.call).Schedules initial
      sampleSteps := by decide +kernel
  exact ⟨steps, correct_of_reaches (by decide) steps.reaches⟩

theorem iterate_pair {f : Nat → Nat} {a b : Nat} (there : f a = b) (back : f b = a) (k : Nat) :
    f^[k] a = a ∨ f^[k] a = b := by
  induction k with
  | zero => exact .inl rfl
  | succ k ih =>
    rw [iterate_succ_apply']
    rcases ih with low | high
    · exact .inr (low.symm ▸ there)
    · exact .inl (high.symm ▸ back)

/-- The second region ends where `base` begins, and a free block lies below it. -/
def droppingSteps : List Step :=
  [⟨.malloc 1 (some 100000), 10⟩, ⟨.malloc 65504 (some 334464), 10⟩]

/-- Sixteen adjacent blocks of `2 ^ 28` units are handed out and freed. -/
def wrappingSteps : List Step :=
  (List.range 16).map (fun k => ⟨.malloc (2 ^ 32 - 16) (some (65536 + 2 ^ 32 * k)), 20⟩) ++
    (List.range 16).map fun k => ⟨.free (65552 + 2 ^ 32 * k), 20⟩

/-- A region right below `base` takes `base` out of the free list, and with `2 ^ 32` units the size
of the block that is left is 0. -/
theorem supplies_needed :
    (∃ s, (system 400000).Reaches initial s ∧ s.heap.freep ≠ 0 ∧
      ∀ k, s.heap.ptr^[k] s.heap.freep ≠ 400000) ∧
    ∃ s, (system 4096).Reaches initial s ∧ s.live = ∅ ∧
      (s.heap.obtained.map Prod.snd).sum = 2 ^ 32 ∧
      ∀ k, s.heap.size (s.heap.ptr^[k] s.heap.freep) = 0 := by
  refine ⟨⟨droppingSteps.foldl (system 400000).next initial, ?_, by decide +kernel, fun k => ?_⟩,
    wrappingSteps.foldl (system 4096).next initial, ?_, by decide +kernel, by decide +kernel,
    fun k => ?_⟩
  · exact System.Schedules.reaches (by decide +kernel)
  · generalize reached : droppingSteps.foldl (system 400000).next initial = s
    have first : s.heap.freep = 100000 := reached ▸ by decide +kernel
    have second : s.heap.ptr 100000 = 334464 := reached ▸ by decide +kernel
    have third : s.heap.ptr 334464 = 100000 := reached ▸ by decide +kernel
    -- the links go back and forth between the two regions
    have pair := iterate_pair second third k
    rw [first]
    omega
  · exact System.Schedules.reaches (by decide +kernel)
  · generalize reached : wrappingSteps.foldl (system 4096).next initial = s
    have first : s.heap.freep = 65536 := reached ▸ by decide +kernel
    have second : s.heap.ptr 65536 = 4096 := reached ▸ by decide +kernel
    have third : s.heap.ptr 4096 = 65536 := reached ▸ by decide +kernel
    have base : s.heap.size 4096 = 0 := reached ▸ by decide +kernel
    have block : s.heap.size 65536 = 0 := reached ▸ by decide +kernel
    rw [first]
    rcases iterate_pair second third k with same | same <;> rw [same] <;> assumption

end Run

end OsLab.Umalloc
