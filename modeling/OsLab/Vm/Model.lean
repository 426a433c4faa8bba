import OsLab.Lib.Act
import OsLab.Lib.Bytes

/-!
# Physical pages and page tables

The page allocator of `kalloc.c` and the page-table code of `vm.c`.  Addresses and entries are the
numbers that the source holds in a `uint64`, reduced where an operation can pass `2 ^ 64`.  Memory
is an array of physical pages; every access of the code lies within one of them.
-/

namespace OsLab.Vm

def pgsize : Nat := 4096

/-- One beyond the highest virtual address. -/
def maxva : Nat := 2 ^ 38

def kernbase : Nat := 0x80000000

def phystop : Nat := 0x80000000 + 128 * 1024 * 1024

def pgroundup (sz : Nat) : Nat := (sz + pgsize - 1) % 2 ^ 64 / pgsize * pgsize

def pgrounddown (a : Nat) : Nat := a / pgsize * pgsize

def pteV : Nat := 1
def pteR : Nat := 2
def pteW : Nat := 4
def pteU : Nat := 16

def pa2pte (pa : Nat) : Nat := pa >>> 12 <<< 10

def pte2pa (pte : Nat) : Nat := pte >>> 10 <<< 12 % 2 ^ 64

def pteFlags (pte : Nat) : Nat := pte &&& 0x3ff

def px (level va : Nat) : Nat := va >>> (12 + 9 * level) &&& 0x1ff

/-- `*pte & PTE_V`. -/
def valid (pte : Nat) : Bool := pte &&& pteV != 0

/-- `*pte & PTE_U`. -/
def user (pte : Nat) : Bool := pte &&& pteU != 0

/-- A 64-bit number converted to `int` and back. -/
def viaInt (n : Nat) : Nat :=
  if n % 2 ^ 32 < 2 ^ 31 then n % 2 ^ 32 else n % 2 ^ 32 + (2 ^ 64 - 2 ^ 32)

/-- Where the linker has put the page of `trampoline.S` and the symbol `end`. -/
structure Layout where
  text : Nat
  kend : Nat
  aligned : pgsize ∣ text
  low : kernbase ≤ text
  below : text + pgsize ≤ kend
  ram : kend ≤ phystop

abbrev Page := Bytes pgsize

/-- The physical pages by number, the addresses of the pages on `kmem.freelist`, and for each of
the next calls of `kalloc` whether a page is left for it: other processors take pages as well. -/
structure State where
  page : Nat → Page
  freelist : List Nat
  left : Nat → Bool

/-- The panics, by their messages, and a loop that does not end. -/
inductive Stop
  | walk
  | kvmpa
  | remap
  | unmapNotAligned
  | unmapWalk
  | unmapNotMapped
  | unmapNotLeaf
  | kfree
  | endless
deriving DecidableEq

abbrev VmM := Act State Stop

def State.setPage (s : State) (n : Nat) (page : Page) : State :=
  { s with page := Function.update s.page n page }

/-- Read 8 bytes at a physical address. -/
def load64 (addr : Nat) : VmM Nat := do
  return ((← get).page (addr / pgsize)).getLE (addr % pgsize) 8

/-- Write 8 bytes at a physical address. -/
def store64 (addr value : Nat) : VmM Unit :=
  modify fun s =>
    s.setPage (addr / pgsize) ((s.page (addr / pgsize)).putLE (addr % pgsize) 8 value)

def memset (pa : Nat) (c : Byte) : VmM Unit :=
  modify fun s => s.setPage (pa / pgsize) fun _ => c

variable (layout : Layout)

def kfree (pa : Nat) : VmM Unit := do
  if pa % pgsize ≠ 0 ∨ pa < layout.kend ∨ phystop ≤ pa then
    throw .kfree
  else do
    memset pa 1
    let s ← get
    store64 pa (s.freelist.headD 0)
    modify fun s => { s with freelist := pa :: s.freelist }

/-- `kalloc`; the result is 0 if there is no page. -/
def kalloc : VmM Nat := do
  let s ← get
  match s.left 0, s.freelist with
  | true, r :: rest => do
    set { s with freelist := rest, left := fun n => s.left (n + 1) }
    memset r 5
    return r
  | _, _ => do
    set { s with left := fun n => s.left (n + 1) }
    return 0

/-- The loop of `walk` from a level on; 0 stands for the null pointer. -/
def walkFrom (va : Nat) (alloc : Bool) : (level pagetable : Nat) → VmM Nat
  | 0, pagetable => return pagetable + 8 * px 0 va
  | level + 1, pagetable => do
    let pte ← load64 (pagetable + 8 * px (level + 1) va)
    if valid pte then
      walkFrom va alloc level (pte2pa pte)
    else if alloc then do
      let page ← kalloc
      if page = 0 then
        return 0
      else do
        memset page 0
        store64 (pagetable + 8 * px (level + 1) va) (pa2pte page ||| pteV)
        walkFrom va alloc level page
    else
      return 0

/-- `walk`: the address of the entry. -/
def walk (pagetable va : Nat) (alloc : Bool) : VmM Nat :=
  if maxva ≤ va then throw .walk else walkFrom va alloc 2 pagetable

def walkaddr (pagetable va : Nat) : VmM Nat := do
  if maxva ≤ va then
    return 0
  else do
    let addr ← walk pagetable va false
    if addr = 0 then
      return 0
    else do
      let pte ← load64 addr
      if ¬ valid pte then
        return 0
      else if ¬ user pte then
        return 0
      else
        return pte2pa pte

def kvmpa (kernelPagetable va : Nat) : VmM Nat := do
  let addr ← walk kernelPagetable va false
  if addr = 0 then
    throw .kvmpa
  else do
    let pte ← load64 addr
    if ¬ valid pte then
      throw .kvmpa
    else
      return pte2pa pte + va % pgsize

/-- The number of rounds after which a loop over pages has reached an address at which `walk`
panics. -/
def rounds : Nat := maxva / pgsize + 1

def mapLoop (pagetable perm last : Nat) : (fuel a pa : Nat) → VmM Bool
  | 0, _, _ => throw .walk
  | fuel + 1, a, pa => do
    let addr ← walk pagetable a true
    if addr = 0 then
      return false
    else do
      let pte ← load64 addr
      if valid pte then
        throw .remap
      else do
        store64 addr (pa2pte pa ||| perm ||| pteV)
        if a = last then
          return true
        else
          mapLoop pagetable perm last fuel (a + pgsize) ((pa + pgsize) % 2 ^ 64)

/-- `mappages`: whether it returns 0. -/
def mappages (pagetable va size pa perm : Nat) : VmM Bool :=
  mapLoop pagetable perm (pgrounddown ((va + size + 2 ^ 64 - 1) % 2 ^ 64)) rounds (pgrounddown va)
    pa

def unmapLoop (pagetable stop : Nat) (doFree : Bool) : (fuel a : Nat) → VmM Unit
  | 0, _ => throw .walk
  | fuel + 1, a =>
    if a < stop then do
      let addr ← walk pagetable a false
      if addr = 0 then
        throw .unmapWalk
      else do
        let pte ← load64 addr
        if ¬ valid pte then
          throw .unmapNotMapped
        else if pteFlags pte = pteV then
          throw .unmapNotLeaf
        else do
          (if doFree then kfree layout (pte2pa pte) else pure () : VmM Unit)
          store64 addr 0
          unmapLoop pagetable stop doFree fuel (a + pgsize)
    else
      return

def uvmunmap (pagetable va npages : Nat) (doFree : Bool) : VmM Unit :=
  if va % pgsize ≠ 0 then
    throw .unmapNotAligned
  else
    unmapLoop layout pagetable ((va + npages * pgsize) % 2 ^ 64) doFree rounds va

def uvmcreate : VmM Nat := do
  let pagetable ← kalloc
  if pagetable = 0 then
    return 0
  else do
    memset pagetable 0
    return pagetable

end OsLab.Vm
