import OsLab.Umalloc.Runs
import OsLab.Vm.Model

/-!
# `malloc` and the process break

`morecore` passes the bytes of a new block through the `int` parameter of `sbrk`, and `growproc`
computes the new size with 32 bits.  For blocks below `2 ^ 31` bytes the argument is the number that
`morecore` records, and then every block lies below the break.
-/

namespace OsLab.Umalloc

open Option

open Vm (pgsize pgroundup kernbase phystop viaInt)

/-- The loop of `uvmalloc` when `kalloc` and `mappages` succeed for this many more pages. -/
def allocPages (newsz : Nat) : (pages a : Nat) → Nat
  | 0, a => if a < newsz then 0 else newsz
  | pages + 1, a => if a < newsz then allocPages newsz pages (a + pgsize) else newsz

/-- The size that `uvmalloc` returns. -/
def uvmalloc (oldsz newsz pages : Nat) : Nat :=
  if newsz < oldsz then oldsz else allocPages newsz pages (pgroundup oldsz)

/-- The size that `uvmdealloc` returns. -/
def uvmdealloc (oldsz newsz : Nat) : Nat := if oldsz ≤ newsz then oldsz else newsz

/-- `growproc` for a process of size `sz`, with its new size. -/
def growproc (sz : Nat) (n : Int) (pages : Nat) : Option Nat :=
  let sz := sz % 2 ^ 32
  let newsz := ((sz + n) % 2 ^ 32).toNat
  if 0 < n then
    if uvmalloc sz newsz pages = 0 then none else some (uvmalloc sz newsz pages)
  else if n < 0 then some (uvmdealloc sz newsz)
  else some sz

/-- What `sbrk` returns, if it is not -1, and the size of the process after it. -/
def sbrk (sz : Nat) (n : Int) (pages : Nat) : Option Nat × Nat :=
  match growproc sz n pages with
  | none => (none, sz)
  | some newsz => (if viaInt sz = 2 ^ 64 - 1 then none else some (viaInt sz), newsz)

/-- The bytes that `morecore` records for the block it adds. -/
def coreBytes (nbytes : Nat) : Nat := Heap.coreUnits (Heap.unitsFor nbytes) * 16

/-- The argument of `sbrk` in `morecore`. -/
def sbrkArg (nbytes : Nat) : Int := (BitVec.ofNat 32 (coreBytes nbytes)).toInt

/-- A program with its break. -/
structure Program where
  run : Run
  sz : Nat

/-- A call of `malloc`, with the pages that the kernel has for it. -/
structure Request where
  nbytes : Nat
  fuel : Nat
  pages : Nat

namespace Program

/-- `malloc`; the break has moved if `morecore` has got a region. -/
def malloc (base : Nat) (s : Program) (request : Request) : Option Program := do
  let grown := sbrk s.sz (sbrkArg request.nbytes) request.pages
  let run ← s.run.run base request.fuel (.malloc request.nbytes grown.1)
  return ⟨run, if run.heap.obtained = s.run.heap.obtained then s.sz else grown.2⟩

/-- All sequences of calls that return; the pages of the process are in the memory of the machine.
-/
def system (base : Nat) : System Program Request where
  Enabled s request := request.nbytes < 2 ^ 32 ∧
    pgroundup s.sz + pgsize * request.pages ≤ phystop - kernbase ∧
    (s.malloc base request).isSome
  next s request := (s.malloc base request).getD s

instance (base : Nat) (s : Program) (request : Request) :
    Decidable ((system base).Enabled s request) :=
  inferInstanceAs (Decidable (_ ∧ _))

end Program

theorem allocPages_eq (newsz pages a : Nat) :
    allocPages newsz pages a = if newsz ≤ a + pgsize * pages then newsz else 0 := by
  induction pages generalizing a with
  | zero => grind [allocPages]
  | succ pages ih => grind [allocPages]

/-- The argument of `sbrk` is exact below `2 ^ 31`. -/
theorem sbrkArg_eq_iff (nbytes : Nat) (word : nbytes < 2 ^ 32) :
    sbrkArg nbytes = coreBytes nbytes ↔ nbytes ≤ 2 ^ 31 - 32 := by
  rw [sbrkArg, BitVec.toInt_eq_toNat_cond, BitVec.toNat_ofNat, coreBytes, Heap.coreUnits,
    Heap.unitsFor]
  split_ifs <;> omega

variable {base sz : Nat} {s : Program} {request : Request}

/-- `sbrk` of a positive number of bytes hands out the memory above the break. -/
theorem sbrk_spec {n pages : Nat} (positive : 0 < n) (small : n < 2 ^ 31)
    (ram : pgroundup sz + pgsize * pages ≤ phystop - kernbase) (low : sz ≤ phystop - kernbase)
    (used : 0 < sz) :
    sbrk sz n pages = (none, sz) ∨
      sbrk sz n pages = (some sz, sz + n) ∧ sz + n ≤ phystop - kernbase := by
  have memory : phystop - kernbase = 2 ^ 27 := rfl
  rw [memory] at ram low ⊢
  have here : sz % 2 ^ 32 = sz := by omega
  have there : (((sz : Int) + n) % 2 ^ 32).toNat = sz + n := by omega
  have addr : viaInt sz = sz := by rw [viaInt, here, if_pos (by omega)]
  have grown : uvmalloc sz (sz + n) pages =
      if sz + n ≤ pgroundup sz + pgsize * pages then sz + n else 0 := by
    rw [uvmalloc, if_neg (by omega), allocPages_eq]
  rw [sbrk, growproc]
  simp only [here, there, grown, addr, Int.natCast_pos, if_pos positive]
  by_cases fits : sz + n ≤ pgroundup sz + pgsize * pages
  · right
    rw [if_pos fits, if_neg (by omega), if_neg (by omega)]
    exact ⟨rfl, by omega⟩
  · left
    rw [if_neg fits, if_pos rfl]

/-- `malloc` obtains at most the region that `sbrk` hands out. -/
theorem obtained_mallocLoop {nunits fuel prevp p ap : Nat} {h after : Heap} {core : Option Nat}
    (returned : Heap.mallocLoop nunits fuel h prevp p core = some (after, ap)) :
    after.obtained = h.obtained ∨
      ∃ hp ∈ core, after.obtained = (hp, Heap.coreUnits nunits) :: h.obtained := by
  induction fuel generalizing h prevp p core with
  | zero => contradiction
  | succ fuel ih =>
    rw [mallocLoop_succ] at returned
    split at returned
    · left
      rw [Heap.take] at returned
      split at returned <;> cases returned <;> rfl
    split at returned
    · cases core with
      | none => exact .inl (congrArg (·.1.obtained) (Option.some.inj returned)).symm
      | some hp =>
        obtain ⟨middle, more, rest⟩ := bind_eq_some_iff.mp returned
        obtain ⟨_, _, freed⟩ := bind_eq_some_iff.mp more
        have region : middle.obtained = (hp, Heap.coreUnits nunits) :: h.obtained := by
          rw [← Option.some.inj freed]
          exact obtained_join
        refine .inr ⟨hp, rfl, ?_⟩
        rcases ih rest with same | ⟨_, none, _⟩
        · exact same.trans region
        · contradiction
    · exact ih returned

/-- The heap lies below the break, and the break in the memory of the machine. -/
structure Program.Inv (base : Nat) (s : Program) : Prop where
  run : Run.Inv base s.run
  base_lt : base + 16 ≤ s.sz
  ram : s.sz ≤ phystop - kernbase
  below : ∀ r ∈ s.run.heap.obtained, r.1 + 16 * r.2 ≤ s.sz
  total : 16 * (s.run.heap.obtained.map Prod.snd).sum ≤ s.sz

/-- A request of less than `2 ^ 31` bytes keeps the heap below the break and moves it up. -/
theorem Program.Inv.step (inv : s.Inv base) (nonnull : 0 < base)
    (small : request.nbytes ≤ 2 ^ 31 - 32) (enabled : (system base).Enabled s request) :
    ((system base).next s request).Inv base ∧ s.sz ≤ ((system base).next s request).sz := by
  obtain ⟨word, ram, returned⟩ := enabled
  obtain ⟨after, result⟩ := isSome_iff_exists.mp returned
  change Inv base ((s.malloc base request).getD s) ∧ s.sz ≤ ((s.malloc base request).getD s).sz
  rw [result, getD_some]
  obtain ⟨run, ran, rest⟩ := bind_eq_some_iff.mp result
  cases rest
  have above := inv.base_lt
  have arg := (sbrkArg_eq_iff request.nbytes word).mpr small
  have units : coreBytes request.nbytes =
      Heap.coreUnits (Heap.unitsFor request.nbytes) * 16 := rfl
  have fits : coreBytes request.nbytes < 2 ^ 31 := by
    rw [units, Heap.coreUnits, Heap.unitsFor]
    split <;> omega
  have positive := coreUnits_pos (Heap.unitsFor request.nbytes)
  have total := inv.total
  have top : s.sz ≤ 2 ^ 27 := inv.ram
  rw [arg] at ran ⊢
  obtain ⟨core, grown, spec⟩ : ∃ core grown,
      sbrk s.sz (coreBytes request.nbytes) request.pages = (core, grown) ∧
      ∀ hp ∈ core, hp = s.sz ∧ grown = s.sz + coreBytes request.nbytes ∧
        grown ≤ phystop - kernbase := by
    rcases sbrk_spec (by omega) fits ram inv.ram (by omega) with fails | ⟨grows, room⟩
    · exact ⟨_, _, fails, nofun⟩
    · exact ⟨_, _, grows, fun hp here => ⟨(Option.some.inj here).symm, rfl, room⟩⟩
  rw [spec.1] at ran ⊢
  have legal : s.run.Legal base (.malloc request.nbytes core) := by
    refine ⟨word, fun hp here => ?_⟩
    rw [(spec.2 hp here).1]
    exact ⟨by omega, .inr above, fun r listed => .inr (inv.below r listed)⟩
  have supplies : s.run.Supplies base (.malloc request.nbytes core) := by
    intro hp here
    rw [(spec.2 hp here).1]
    exact ⟨by omega, by omega⟩
  have kept := inv.run.step nonnull legal supplies ran
  obtain ⟨⟨heap, ap⟩, allocated, rest⟩ := bind_eq_some_iff.mp ran
  have heap_eq : run.heap = heap := by
    dsimp only at rest
    split at rest <;> rw [← Option.some.inj rest]
  have obtained := obtained_mallocLoop allocated
  rw [obtained_start, ← heap_eq] at obtained
  rcases obtained with same | ⟨hp, here, more⟩
  · rw [if_pos same]
    exact ⟨⟨kept, above, inv.ram, same ▸ inv.below, same ▸ total⟩, le_rfl⟩
  obtain ⟨rfl, rfl, room⟩ := spec.2 hp here
  rw [if_neg (by simp [more])]
  refine ⟨⟨kept, above.trans (Nat.le_add_right ..), room, fun r listed => ?_, ?_⟩,
    Nat.le_add_right ..⟩
  · rcases List.mem_cons.mp (more ▸ listed) with rfl | old
    · simp only [units, mul_comm, le_refl]
    · exact (inv.below r old).trans (Nat.le_add_right ..)
  · simp only [more, List.map_cons, List.sum_cons, units]
    omega

/-- **`malloc` claims what it gets**, for requests up to `2 ^ 31 - 32` bytes: these are the ones
whose argument of `sbrk` is exact.  Every block ends below the break, which never moves down. -/
theorem malloc_below_break (nonnull : 0 < base) (above : base + 16 ≤ sz)
    (ram : sz ≤ phystop - kernbase)
    (run : ((Program.system base).restrict fun _ request => request.nbytes ≤ 2 ^ 31 - 32).Reaches
      ⟨Run.initial, sz⟩ s) :
    (∀ nbytes < 2 ^ 32, sbrkArg nbytes = coreBytes nbytes ↔ nbytes ≤ 2 ^ 31 - 32) ∧
      (∀ p ∈ s.run.live, p + 16 + s.run.asked p ≤ s.sz) ∧
      ∀ request, (Program.system base).Enabled s request → request.nbytes ≤ 2 ^ 31 - 32 →
        s.sz ≤ ((Program.system base).next s request).sz := by
  have inv : s.Inv base := by
    refine run.invariant (P := Program.Inv base) (fun s request inv enabled => ?_)
      ⟨⟨.unused rfl rfl rfl, nofun⟩, above, ram, nofun, Nat.zero_le _⟩
    exact (inv.step nonnull enabled.2 enabled.1).1
  refine ⟨sbrkArg_eq_iff, fun p handed => ?_, fun request enabled small =>
    (inv.step nonnull small enabled).2⟩
  have correct := inv.run.correct
  have usable := correct.usable p handed
  obtain ⟨r, region, _, last⟩ := correct.inside p handed (s.run.heap.after p - 1) (by omega)
    (by omega)
  have := inv.below r region
  omega

/-- The break is at 8192 before a request of 10 bytes. -/
def tenBytes : Program := (Program.system 4096).next ⟨Run.initial, 8192⟩ ⟨10, 10, 16⟩

theorem malloc_below_break_ten : 73696 + 16 + tenBytes.run.asked 73696 ≤ tenBytes.sz := by
  have steps : ((Program.system 4096).restrict fun _ request =>
      request.nbytes ≤ 2 ^ 31 - 32).Schedules ⟨Run.initial, 8192⟩ [⟨10, 10, 16⟩] := by
    decide +kernel
  exact (malloc_below_break (by decide) (by decide) (by decide) steps.reaches).2.1 73696
    (by decide +kernel)

/-- `malloc` of `2 ^ 32 - 1` bytes asks for 16 bytes, records `2 ^ 32 + 16` and succeeds. -/
theorem malloc_overclaims :
    sbrkArg (2 ^ 32 - 1) = 16 ∧ coreBytes (2 ^ 32 - 1) = 2 ^ 32 + 16 ∧
      (Program.malloc 4096 ⟨Run.initial, 8192⟩ ⟨2 ^ 32 - 1, 10, 1⟩).map
        (fun s => (s.sz, decide (8192 ∈ s.run.live), s.run.asked 8192)) =
          some (8208, true, 2 ^ 32 - 1) := by
  decide +kernel

end OsLab.Umalloc
