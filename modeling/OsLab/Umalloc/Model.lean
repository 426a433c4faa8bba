import OsLab.Lib.Run

/-!
# The allocator of user programs

`malloc`, `free` and `morecore` of `user/umalloc.c`.  Addresses are in bytes, sizes in headers of
16 bytes, and the two fields of the headers are maps from addresses.  Loops have fuel.
-/

namespace OsLab.Umalloc

open Function

/-- The headers, `freep`, and the regions that `sbrk` has handed out, with their units. -/
structure Heap where
  ptr : Nat → Nat
  size : Nat → Nat
  freep : Nat
  obtained : List (Nat × Nat)

namespace Heap

/-- Assign `p->s.ptr`. -/
def setPtr (h : Heap) (p value : Nat) : Heap := { h with ptr := update h.ptr p value }

def setSize (h : Heap) (p value : Nat) : Heap := { h with size := update h.size p value }

/-- `p + p->s.size`. -/
def after (h : Heap) (p : Nat) : Nat := p + 16 * h.size p

/-- The loop of `free`. -/
def search (h : Heap) (bp : Nat) : Nat → Nat → Option Nat
  | 0, _ => none
  | fuel + 1, p =>
    if p < bp ∧ bp < h.ptr p then some p
    else if h.ptr p ≤ p ∧ (p < bp ∨ bp < h.ptr p) then some p
    else h.search bp fuel (h.ptr p)

/-- The first half of `free` behind its loop: join the block with the next node, or link to it. -/
def joinAbove (h : Heap) (bp p : Nat) : Heap :=
  if h.after bp = h.ptr p then
    let h := h.setSize bp ((h.size bp + h.size (h.ptr p)) % 2 ^ 32)
    h.setPtr bp (h.ptr (h.ptr p))
  else h.setPtr bp (h.ptr p)

/-- The second half: join the block with the node before it, or link to it from there. -/
def joinBelow (h : Heap) (bp p : Nat) : Heap :=
  if h.after p = bp then
    let h := h.setSize p ((h.size p + h.size bp) % 2 ^ 32)
    h.setPtr p (h.ptr bp)
  else h.setPtr p bp

def free (h : Heap) (fuel ap : Nat) : Option Heap := do
  let bp := ap - 16
  let p ← h.search bp fuel h.freep
  return { (h.joinAbove bp p).joinBelow bp p with freep := p }

/-- The units that `morecore` asks `sbrk` for. -/
def coreUnits (nu : Nat) : Nat := if nu < 4096 then 4096 else nu

/-- `morecore` when `sbrk` returns `hp`. -/
def morecore (h : Heap) (fuel nu hp : Nat) : Option Heap :=
  let nu := coreUnits nu
  { h.setSize hp nu with obtained := (hp, nu) :: h.obtained }.free fuel (hp + 16)

/-- `malloc` with a block that is large enough. -/
def take (h : Heap) (nunits prevp p : Nat) : Heap × Nat :=
  if h.size p = nunits then ({ h.setPtr prevp (h.ptr p) with freep := prevp }, p + 16)
  else
    let h := h.setSize p (h.size p - nunits)
    let p := h.after p
    ({ h.setSize p nunits with freep := prevp }, p + 16)

/-- The loop of `malloc`; `core` is what `sbrk` returns when it is called, if it succeeds. -/
def mallocLoop (nunits : Nat) : Nat → Heap → Nat → Nat → Option Nat → Option (Heap × Nat)
  | 0, _, _, _, _ => none
  | fuel + 1, h, prevp, p, core =>
    if nunits ≤ h.size p then some (h.take nunits prevp p)
    else if p = h.freep then
      match core with
      | none => some (h, 0)
      | some hp => do
        let h ← h.morecore fuel nunits hp
        mallocLoop nunits fuel h h.freep (h.ptr h.freep) none
    else mallocLoop nunits fuel h p (h.ptr p) core

/-- The units of a block for `nbytes`. -/
def unitsFor (nbytes : Nat) : Nat := (nbytes + 16 - 1) / 16 + 1

/-- The free list before the first call. -/
def start (h : Heap) (base : Nat) : Heap :=
  if h.freep = 0 then { (h.setPtr base base).setSize base 0 with freep := base } else h

def malloc (h : Heap) (base fuel nbytes : Nat) (core : Option Nat) : Option (Heap × Nat) :=
  let h := h.start base
  mallocLoop (unitsFor nbytes) fuel h h.freep (h.ptr h.freep) core

end Heap

/-- The heap with the headers of the blocks that are handed out and not freed, and what was asked
for them. -/
structure Run where
  heap : Heap
  live : Finset Nat
  asked : Nat → Nat

inductive Call where
  | malloc (nbytes : Nat) (core : Option Nat)
  | free (ap : Nat)

/-- A call with fuel. -/
structure Step where
  call : Call
  fuel : Nat

/-- The region of `units` at `hp` is fresh: it is disjoint from `base` and from the others. -/
def Fresh (base : Nat) (obtained : List (Nat × Nat)) (hp units : Nat) : Prop :=
  0 < hp ∧ (hp + 16 * units ≤ base ∨ base + 16 ≤ hp) ∧
    ∀ r ∈ obtained, hp + 16 * units ≤ r.1 ∨ r.1 + 16 * r.2 ≤ hp

instance (base : Nat) (obtained : List (Nat × Nat)) (hp units : Nat) :
    Decidable (Fresh base obtained hp units) :=
  inferInstanceAs (Decidable (_ ∧ _))

namespace Run

def run (base : Nat) (s : Run) (fuel : Nat) : Call → Option Run
  | .malloc nbytes core => do
    let (heap, ap) ← s.heap.malloc base fuel nbytes core
    if ap = 0 then return { s with heap }
    else
      return { heap, live := insert (ap - 16) s.live,
               asked := update s.asked (ap - 16) nbytes }
  | .free ap => do
    let heap ← s.heap.free fuel ap
    return { s with heap, live := s.live.erase (ap - 16) }

/-- The program frees blocks that are live, and `sbrk` hands out fresh regions. -/
def Legal (base : Nat) (s : Run) : Call → Prop
  | .malloc nbytes core => nbytes < 2 ^ 32 ∧
      ∀ hp ∈ core, Fresh base s.heap.obtained hp (Heap.coreUnits (Heap.unitsFor nbytes))
  | .free ap => ap - 16 ∈ s.live ∧ 16 ≤ ap

instance (base : Nat) (s : Run) (call : Call) : Decidable (s.Legal base call) := by
  cases call <;> exact inferInstanceAs (Decidable (_ ∧ _))

/-- All sequences of calls that return. -/
def system (base : Nat) : System Run Step where
  Enabled s step := s.Legal base step.call ∧ (s.run base step.fuel step.call).isSome
  next s step := (s.run base step.fuel step.call).getD s

instance (base : Nat) (s : Run) (step : Step) : Decidable ((system base).Enabled s step) :=
  inferInstanceAs (Decidable (_ ∧ _))

/-- Before the first call. -/
def initial : Run := ⟨⟨fun _ => 0, fun _ => 0, 0, []⟩, ∅, fun _ => 0⟩

end Run

end OsLab.Umalloc
