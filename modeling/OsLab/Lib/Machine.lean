import Mathlib

/-!
# Straight-line machine code

Code without branches over a register file, control registers and memory by doublewords.  Loads and
stores go through a translation of addresses, which may depend on the control registers.
-/

namespace OsLab

open Function List

/-- Instructions over some registers and control registers. -/
inductive Instr (Reg Csr : Type) where
  | sd (src base : Reg) (off : Nat)
  | ld (dst base : Reg) (off : Nat)
  | addi (dst src : Reg) (imm : Int)
  | csrrw (dst : Reg) (csr : Csr) (src : Reg)
  | csrr (dst : Reg) (csr : Csr)
  | csrw (csr : Csr) (src : Reg)
  | jr (target : Reg)
  /-- A fence, which orders accesses only. -/
  | fence

/-- Program counter, registers, control registers and the doublewords of physical memory. -/
structure Machine (Reg Csr : Type) where
  pc : BitVec 64
  reg : Reg → BitVec 64
  csr : Csr → BitVec 64
  mem : Nat → BitVec 64

namespace Machine

variable {Reg Csr : Type} [DecidableEq Reg] [DecidableEq Csr]

/-- The physical address of a virtual one. -/
abbrev Translation (Csr : Type) := (Csr → BitVec 64) → BitVec 64 → Option Nat

variable (m : Machine Reg Csr)

/-- Assign a register. -/
def setReg (r : Reg) (value : BitVec 64) : Machine Reg Csr :=
  { m with reg := update m.reg r value }

/-- Assign a control register. -/
def setCsr (c : Csr) (value : BitVec 64) : Machine Reg Csr :=
  { m with csr := update m.csr c value }

/-- Assign a doubleword of memory. -/
def setMem (i : Nat) (value : BitVec 64) : Machine Reg Csr :=
  { m with mem := update m.mem i value }

/-- The doubleword that an access at `base + off` goes to, if it is mapped and aligned. -/
def access (translate : Translation Csr) (m : Machine Reg Csr) (base : Reg) (off : Nat) :
    Option Nat := do
  let pa ← translate m.csr (m.reg base + .ofNat 64 off)
  if pa % 8 = 0 then some (pa / 8) else none

/-- Execute one instruction, unless an access faults. -/
def step (translate : Translation Csr) (m : Machine Reg Csr) :
    Instr Reg Csr → Option (Machine Reg Csr)
  | .sd src base off => do
    let i ← m.access translate base off
    return m.setMem i (m.reg src)
  | .ld dst base off => do
    let i ← m.access translate base off
    return m.setReg dst (m.mem i)
  | .addi dst src imm => some (m.setReg dst (m.reg src + .ofInt 64 imm))
  | .csrrw dst csr src => some ((m.setReg dst (m.csr csr)).setCsr csr (m.reg src))
  | .csrr dst csr => some (m.setReg dst (m.csr csr))
  | .csrw csr src => some (m.setCsr csr (m.reg src))
  | .jr target => some { m with pc := m.reg target }
  | .fence => some m

def run (translate : Translation Csr) (code : List (Instr Reg Csr)) (m : Machine Reg Csr) :
    Option (Machine Reg Csr) :=
  code.foldlM (step translate) m

variable {translate : Translation Csr} {m : Machine Reg Csr}

omit [DecidableEq Csr] in
@[simp]
theorem reg_setReg_same (r : Reg) (value : BitVec 64) : (m.setReg r value).reg r = value :=
  update_self ..

omit [DecidableEq Csr] in
theorem reg_setReg_other {r other : Reg} (apart : other ≠ r) (value : BitVec 64) :
    (m.setReg r value).reg other = m.reg other :=
  update_of_ne apart ..

theorem run_cons (i : Instr Reg Csr) (code : List (Instr Reg Csr)) :
    run translate (i :: code) m = m.step translate i >>= run translate code :=
  rfl

theorem run_append (first second : List (Instr Reg Csr)) :
    run translate (first ++ second) m = run translate first m >>= run translate second :=
  foldlM_append

/-- The addresses from `base` on are mapped to the physical ones from `pa` on. -/
structure Window (translate : Translation Csr) (csr : Csr → BitVec 64) (base : BitVec 64)
    (pa len : Nat) : Prop where
  aligned : pa % 8 = 0
  maps : ∀ off, off % 8 = 0 → off < len → translate csr (base + .ofNat 64 off) = some (pa + off)

/-- The doubleword at an offset of a window. -/
def word (pa off : Nat) : Nat := (pa + off) / 8

theorem word_injective {pa off other : Nat} (aligned : pa % 8 = 0) (left : off % 8 = 0)
    (right : other % 8 = 0) (same : word pa off = word pa other) : off = other := by
  unfold word at same
  omega

variable {base : Reg} {pa len : Nat}

section

variable (window : Window translate m.csr (m.reg base) pa len) {off : Nat} (aligned : off % 8 = 0)
  (inside : off < len)
include window aligned inside

omit [DecidableEq Reg] [DecidableEq Csr] in
theorem Window.access : m.access translate base off = some (word pa off) := by
  have even : (pa + off) % 8 = 0 := by
    have := window.aligned
    omega
  rw [Machine.access, window.maps off aligned inside]
  exact if_pos even

theorem Window.run_sd (src : Reg) (code : List (Instr Reg Csr)) :
    run translate (.sd src base off :: code) m =
      run translate code (m.setMem (word pa off) (m.reg src)) := by
  rw [run_cons, step, window.access aligned inside]
  rfl

theorem Window.run_ld (dst : Reg) (code : List (Instr Reg Csr)) :
    run translate (.ld dst base off :: code) m =
      run translate code (m.setReg dst (m.mem (word pa off))) := by
  rw [run_cons, step, window.access aligned inside]
  rfl

end

/-- Registers with the offsets they are kept at. -/
structure Slots (slots : List (Reg × Nat)) (len : Nat) : Prop where
  inside : ∀ p ∈ slots, p.2 % 8 = 0 ∧ p.2 < len
  regs : (slots.map Prod.fst).Nodup
  offsets : (slots.map Prod.snd).Nodup

variable {slots : List (Reg × Nat)}

omit [DecidableEq Reg] in
theorem Slots.tail {p : Reg × Nat} (fit : Slots (p :: slots) len) : Slots slots len :=
  ⟨fun q listed => fit.inside q (mem_cons_of_mem p listed),
    (nodup_cons.mp fit.regs).2, (nodup_cons.mp fit.offsets).2⟩

instance (slots : List (Reg × Nat)) (len : Nat) : Decidable (Slots slots len) :=
  decidable_of_iff ((∀ p ∈ slots, p.2 % 8 = 0 ∧ p.2 < len) ∧ (slots.map Prod.fst).Nodup ∧
    (slots.map Prod.snd).Nodup)
    ⟨fun all => ⟨all.1, all.2.1, all.2.2⟩, fun fit => ⟨fit.inside, fit.regs, fit.offsets⟩⟩

/-- Store registers into a window. -/
def saves (base : Reg) (slots : List (Reg × Nat)) : List (Instr Reg Csr) :=
  slots.map fun p => .sd p.1 base p.2

/-- Load registers from a window. -/
def loads (base : Reg) (slots : List (Reg × Nat)) : List (Instr Reg Csr) :=
  slots.map fun p => .ld p.1 base p.2

/-- A row of stores puts the registers into their slots and changes nothing else. -/
theorem run_saves (fit : Slots slots len) :
    ∀ {m : Machine Reg Csr}, Window translate m.csr (m.reg base) pa len →
      ∃ mem, run translate (saves base slots) m = some { m with mem := mem } ∧
        (∀ p ∈ slots, mem (word pa p.2) = m.reg p.1) ∧
        ∀ i, (∀ p ∈ slots, i ≠ word pa p.2) → mem i = m.mem i := by
  induction slots with
  | nil => exact fun _ => ⟨_, rfl, nofun, fun _ _ => rfl⟩
  | cons p slots ih =>
    intro m window
    obtain ⟨aligned, inside⟩ := fit.inside p mem_cons_self
    obtain ⟨mem, rest, stored, others⟩ := ih fit.tail
      (m := m.setMem (word pa p.2) (m.reg p.1)) window
    refine ⟨mem, ?_, fun q listed => ?_, fun i apart => ?_⟩
    · rw [saves, map_cons, window.run_sd aligned inside]
      exact rest
    · rcases mem_cons.mp listed with rfl | later
      · rw [others _ fun r member same => ?_]
        · exact update_self ..
        · have equal := word_injective window.aligned aligned
            (fit.inside r (mem_cons_of_mem q member)).1 same
          exact (nodup_cons.mp fit.offsets).1 (mem_map.mpr ⟨r, member, equal.symm⟩)
      · exact stored q later
    · rw [others i fun r member => apart r (mem_cons_of_mem p member)]
      exact update_of_ne (apart p mem_cons_self) ..

/-- A row of loads fills the registers and changes nothing else; it may load its own base with the
value it has. -/
theorem run_loads (fit : Slots slots len) :
    ∀ {m : Machine Reg Csr}, Window translate m.csr (m.reg base) pa len →
      (∀ p ∈ slots, p.1 = base → m.mem (word pa p.2) = m.reg base) →
      ∃ reg, run translate (loads base slots) m = some { m with reg := reg } ∧
        (∀ p ∈ slots, reg p.1 = m.mem (word pa p.2)) ∧
        ∀ r, r ∉ slots.map Prod.fst → reg r = m.reg r := by
  induction slots with
  | nil => exact fun _ _ => ⟨_, rfl, nofun, fun _ _ => rfl⟩
  | cons p slots ih =>
    intro m window stable
    obtain ⟨aligned, inside⟩ := fit.inside p mem_cons_self
    have kept : (m.setReg p.1 (m.mem (word pa p.2))).reg base = m.reg base := by
      by_cases same : p.1 = base
      · rw [← stable p mem_cons_self same, same]
        exact update_self ..
      · exact update_of_ne (Ne.symm same) ..
    obtain ⟨reg, rest, loaded, others⟩ := ih fit.tail
      (m := m.setReg p.1 (m.mem (word pa p.2))) (kept.symm ▸ window)
      fun q listed same => (stable q (mem_cons_of_mem p listed) same).trans kept.symm
    refine ⟨reg, ?_, fun q listed => ?_, fun r absent => ?_⟩
    · rw [loads, map_cons, window.run_ld aligned inside]
      exact rest
    · rcases mem_cons.mp listed with rfl | later
      · rw [others _ (nodup_cons.mp fit.regs).1]
        exact update_self ..
      · exact loaded q later
    · rw [map_cons, mem_cons, not_or] at absent
      rw [others r absent.2]
      exact update_of_ne absent.1 ..

end Machine

end OsLab
