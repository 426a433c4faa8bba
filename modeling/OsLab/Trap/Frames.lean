import OsLab.Trap.Model

/-!
# Saved registers come back

The tables of offsets agree with the structs and with each other, so each register is loaded from
where it was stored.  What the kernel does between entry and return is left open but for the
words that hold the registers.
-/

namespace OsLab.Trap

open Machine Function List

theorem mem_trapframe (f : Field) : f ∈ trapframe := by
  cases f with
  | user r => cases r <;> decide
  | _ => decide

theorem offset_injective {f g : Field} (same : f.offset = g.offset) : f = g :=
  (idxOf_inj (mem_trapframe f)).mp (Nat.eq_of_mul_eq_mul_left (by decide) same)

theorem offset_aligned (f : Field) : f.offset % 8 = 0 := Nat.mul_mod_right ..

/-- `uservec` stores and `userret` loads every register but `a0` at the offset of its field. -/
theorem uservecSaves_match (p : Reg × Nat) :
    p ∈ uservecSaves ↔ p.1 ≠ .a0 ∧ p.2 = (Field.user p.1).offset := by
  have listed : ∀ r, r ≠ .a0 → (r, (Field.user r).offset) ∈ uservecSaves := by
    intro r
    cases r <;> decide
  have fields : ∀ p ∈ uservecSaves, p.1 ≠ .a0 ∧ p.2 = (Field.user p.1).offset := by decide
  constructor
  · exact fields p
  · rintro ⟨other, offset⟩
    have member := listed p.1 other
    rwa [← offset] at member

theorem userretLoads_match (p : Reg × Nat) :
    p ∈ userretLoads ↔ p.1 ≠ .a0 ∧ p.2 = (Field.user p.1).offset :=
  uservecSaves_match p

theorem uservecSaves_slots : Slots uservecSaves trapframeSize := by decide

theorem kernelvecLoads_match (p : Reg × Nat) :
    p ∈ kernelvecLoads ↔ p.1 ≠ .tp ∧ p ∈ kernelvecSaves := by
  have loads : kernelvecLoads = kernelvecSaves.filter fun p => p.1 ≠ .tp := by decide
  rw [loads, mem_filter, decide_eq_true_eq, and_comm]

theorem kernelvecSaves_all (r : Reg) : ∃ off, (r, off) ∈ kernelvecSaves := by
  have listed : r ∈ kernelvecSaves.map Prod.fst := by cases r <;> decide
  obtain ⟨p, member, rfl⟩ := mem_map.mp listed
  exact ⟨p.2, member⟩

section Trapframe

variable {p : Proc} {m : Cpu}

/-- The trapframe of the process is mapped at `TRAPFRAME` by its page table. -/
structure Mapped (translate : Translation Csr) (p : Proc) : Prop where
  window : ∀ csr : Csr → BitVec 64, csr .satp = makeSatp p.pagetable →
    Window translate csr trapframeAddress p.frame trapframeSize

theorem Mapped.aligned {translate : Translation Csr} (mapped : Mapped translate p) :
    p.frame % 8 = 0 :=
  (mapped.window (fun _ => makeSatp p.pagetable) rfl).aligned

theorem word_offset_injective (aligned : p.frame % 8 = 0) {f g : Field}
    (same : word p.frame f.offset = word p.frame g.offset) : f = g :=
  offset_injective (word_injective aligned (offset_aligned f) (offset_aligned g) same)

@[simp]
theorem field_setField_same (f : Field) (value : BitVec 64) :
    p.field (p.setField m f value) f = value :=
  update_self ..

theorem field_setField_other (aligned : p.frame % 8 = 0) {f g : Field} (other : g ≠ f)
    (value : BitVec 64) : p.field (p.setField m f value) g = p.field m g :=
  update_of_ne (fun same => other (word_offset_injective aligned same)) ..

end Trapframe

section Trampoline

variable {translate : Translation Csr} {p : Proc} {m c : Cpu}

/-- What `uservec` leaves in the trapframe and in the registers of the kernel. -/
structure Entered (p : Proc) (m k : Cpu) : Prop where
  user : ∀ r, p.field k (.user r) = m.reg r
  others : ∀ f, (∀ r, f ≠ .user r) → p.field k f = p.field m f
  sp : k.reg .sp = p.field m .kernelSp
  tp : k.reg .tp = p.field m .kernelHartid
  satp : k.csr .satp = p.field m .kernelSatp
  pc : k.pc = p.field m .kernelTrap
  sepc : k.csr .sepc = m.csr .sepc

/-- `uservec` saves the registers of the user and takes those of the kernel. -/
theorem uservec_enters (mapped : Mapped translate p) (scratch : m.csr .sscratch = trapframeAddress)
    (satp : m.csr .satp = makeSatp p.pagetable) :
    ∃ k, run translate uservec m = some k ∧ Entered p m k := by
  have aligned := mapped.aligned
  let swapped : Cpu := (m.setReg .a0 (m.csr .sscratch)).setCsr .sscratch (m.reg .a0)
  have base : swapped.reg .a0 = trapframeAddress := scratch
  have window : Window translate swapped.csr (swapped.reg .a0) p.frame trapframeSize :=
    base ▸ mapped.window swapped.csr satp
  obtain ⟨mem, saving, saved, kept⟩ := run_saves uservecSaves_slots window
  let final : Nat → BitVec 64 :=
    update mem (word p.frame (Field.user .a0).offset) (m.reg .a0)
  have user : ∀ r, final (word p.frame (Field.user r).offset) = m.reg r := by
    intro r
    by_cases first : r = .a0
    · rw [first]
      exact update_self ..
    · have apart : word p.frame (Field.user r).offset ≠ word p.frame (Field.user .a0).offset :=
        fun same => first (Field.user.inj (word_offset_injective aligned same))
      refine (update_of_ne apart ..).trans ?_
      refine (saved (r, (Field.user r).offset) ((uservecSaves_match _).mpr ⟨first, rfl⟩)).trans ?_
      exact update_of_ne first ..
  have others : ∀ f, (∀ r, f ≠ .user r) → final (word p.frame f.offset) = p.field m f := by
    intro f kernel
    have apart : word p.frame f.offset ≠ word p.frame (Field.user .a0).offset :=
      fun same => kernel _ (word_offset_injective aligned same)
    refine (update_of_ne apart ..).trans (kept _ fun q listed same => ?_)
    obtain ⟨_, offset⟩ := (uservecSaves_match q).mp listed
    rw [offset] at same
    exact kernel _ (word_offset_injective aligned same)
  refine ⟨{ pc := final (word p.frame 16)
            reg := update (update (update (update
              (update swapped.reg .t0 (m.reg .a0)) .sp (final (word p.frame 8)))
              .tp (final (word p.frame 32))) .t0 (final (word p.frame 16)))
              .t1 (final (word p.frame 0))
            csr := update swapped.csr .satp (final (word p.frame 0))
            mem := final }, ?_, user, others, others .kernelSp nofun, others .kernelHartid nofun,
    others .kernelSatp nofun, others .kernelTrap nofun, rfl⟩
  rw [uservec, append_assoc, run_append]
  change run translate (saves .a0 uservecSaves ++ _) swapped = _
  rw [run_append, saving]
  change run translate (.sd .t0 .a0 112 :: _)
    (({ swapped with mem := mem } : Cpu).setReg .t0 (m.reg .a0)) = _
  rw [Window.run_sd (by exact window) (by decide) (by decide),
    Window.run_ld (by exact window) (by decide) (by decide),
    Window.run_ld (by exact window) (by decide) (by decide),
    Window.run_ld (by exact window) (by decide) (by decide),
    Window.run_ld (by exact window) (by decide) (by decide)]
  rfl

/-- What `userret` gives back to the user. -/
structure Left (p : Proc) (c u : Cpu) : Prop where
  user : ∀ r, u.reg r = p.field c (.user r)
  sscratch : u.csr .sscratch = trapframeAddress
  satp : u.csr .satp = makeSatp p.pagetable
  sepc : u.csr .sepc = c.csr .sepc

/-- `userret` loads the registers of the user. -/
theorem userret_leaves (mapped : Mapped translate p) (frame : c.reg .a0 = trapframeAddress)
    (satp : c.reg .a1 = makeSatp p.pagetable) :
    ∃ u, run translate userret c = some u ∧ Left p c u := by
  let space : Cpu := c.setCsr .satp (c.reg .a1)
  have entered : Window translate space.csr (space.reg .a0) p.frame trapframeSize :=
    frame ▸ mapped.window space.csr satp
  let ready : Cpu := (space.setReg .t0 (p.field c (.user .a0))).setCsr .sscratch
    (p.field c (.user .a0))
  have window : Window translate ready.csr (ready.reg .a0) p.frame trapframeSize :=
    frame ▸ mapped.window ready.csr satp
  obtain ⟨reg, loading, loaded, kept⟩ := run_loads (m := ready)
    (show Slots userretLoads trapframeSize from uservecSaves_slots) window
    fun q listed same => absurd same ((userretLoads_match q).mp listed).1
  have base : reg .a0 = trapframeAddress := by
    refine (kept .a0 (by decide)).trans ?_
    exact frame
  refine ⟨{ pc := c.pc, reg := update reg .a0 (p.field c (.user .a0)),
            csr := update ready.csr .sscratch (reg .a0), mem := c.mem }, ?_,
    fun r => ?_, base, satp, rfl⟩
  · rw [userret, append_assoc, run_append]
    change (run translate (.ld .t0 .a0 112 :: _) space >>= run translate _) = _
    rw [entered.run_ld (by decide) (by decide)]
    change run translate (loads .a0 userretLoads ++ _) ready = _
    rw [run_append, loading]
    rfl
  · by_cases first : r = .a0
    · rw [first]
      exact update_self Reg.a0 _ reg
    · refine (update_of_ne first ..).trans ?_
      exact loaded (r, (Field.user r).offset) ((userretLoads_match _).mpr ⟨first, rfl⟩)

/-- `usertrapret` keeps the fields of the user and passes on `epc`. -/
theorem usertrapret_keeps (aligned : p.frame % 8 = 0) (text : Text) :
    (∀ r, p.field (usertrapret text p c) (.user r) = p.field c (.user r)) ∧
      (usertrapret text p c).csr .sepc = p.field c .epc ∧
      (usertrapret text p c).reg .a0 = trapframeAddress ∧
      (usertrapret text p c).reg .a1 = makeSatp p.pagetable := by
  have kept : ∀ f, f ≠ .kernelSatp → f ≠ .kernelSp → f ≠ .kernelTrap → f ≠ .kernelHartid →
      ∀ a b d e, p.field (p.setField (p.setField (p.setField (p.setField c .kernelSatp a)
        .kernelSp b) .kernelTrap d) .kernelHartid e) f = p.field c f := by
    intro f satp sp trap hartid a b d e
    rw [field_setField_other aligned hartid, field_setField_other aligned trap,
      field_setField_other aligned sp, field_setField_other aligned satp]
  refine ⟨fun r => ?_, ?_, rfl, rfl⟩
  · exact kept (.user r) nofun nofun nofun nofun ..
  · exact kept .epc nofun nofun nofun nofun ..

/-- The trapframe of the process holds these registers and this program counter for the user. -/
structure Holds (p : Proc) (c : Cpu) (reg : Reg → BitVec 64) (pc : BitVec 64) : Prop where
  user : ∀ r, p.field c (.user r) = reg r
  epc : p.field c .epc = pc

variable {reg : Reg → BitVec 64}

/-- The user runs on with the registers and the program counter that the trapframe holds. -/
theorem returns_to_user (mapped : Mapped translate p) (text : Text) {pc : BitVec 64}
    (holds : Holds p c reg pc) :
    ∃ u, run translate userret (usertrapret text p c) = some u ∧ (sret u).reg = reg ∧
      (sret u).pc = pc ∧ (sret u).csr .sscratch = trapframeAddress := by
  obtain ⟨user, sepc, frame, satp⟩ := usertrapret_keeps (c := c) mapped.aligned text
  obtain ⟨u, run, left⟩ := userret_leaves mapped frame satp
  refine ⟨u, run, funext fun r => ?_, ?_, left.sscratch⟩
  · exact (left.user r).trans ((user r).trans (holds.user r))
  · exact left.sepc.trans (sepc.trans holds.epc)

/-- After the start of `usertrap` the trapframe holds the state of the user. -/
theorem Entered.holds {k : Cpu} (aligned : p.frame % 8 = 0) (text : Text)
    (entered : Entered p m k) : Holds p (usertrapStart text p k) m.reg (m.csr .sepc) where
  user r :=
    (field_setField_other (f := .epc) (g := .user r) aligned nofun _).trans (entered.user r)
  epc := (field_setField_same ..).trans entered.sepc

/-- A system call whose handler returns changes `a0` and moves to the next instruction. -/
theorem Holds.syscall {pc : BitVec 64} (aligned : p.frame % 8 = 0) (holds : Holds p c reg pc)
    (result : BitVec 64) :
    Holds p (usertrapSyscall p c (.returned result)) (update reg .a0 result) (pc + 4) where
  user r := by
    by_cases first : r = .a0
    · rw [first, update_self]
      exact field_setField_same ..
    · rw [update_of_ne first, ← holds.user r]
      refine (field_setField_other aligned (fun same => first (Field.user.inj same)) _).trans ?_
      exact field_setField_other (f := .epc) (g := .user r) aligned nofun _
  epc := by
    rw [← holds.epc]
    refine (field_setField_other (f := .user .a0) (g := .epc) aligned nofun _).trans ?_
    exact field_setField_same ..

end Trampoline

section Kernel

variable {translate : Translation Csr} {m c : Cpu} {pa : Nat}

theorem kernelvecSaves_slots : Slots kernelvecSaves 256 := by decide

theorem kernelvecLoads_slots : Slots kernelvecLoads 256 := by decide

/-- Between the two halves of `kernelvec` the stack pointer comes back and the words above it
stay. -/
structure Preserves (translate : Translation Csr) (pa : Nat) (k c : Cpu) : Prop where
  sp : c.reg .sp = k.reg .sp
  window : Window translate c.csr (c.reg .sp) pa 256
  mem : ∀ off, off < 256 → c.mem (word pa off) = k.mem (word pa off)

/-- `kernelvec` gives back every register but `tp`. -/
theorem kernelvec_restores (window : Window translate m.csr (m.reg .sp + .ofInt 64 (-256)) pa 256) :
    ∃ k, run translate kernelvec m = some k ∧ ∀ c, Preserves translate pa k c →
      ∃ u, run translate kernelvecReturn c = some u ∧ ∀ r, r ≠ .tp → u.reg r = m.reg r := by
  let down : Cpu := m.setReg .sp (m.reg .sp + .ofInt 64 (-256))
  have base : down.reg .sp = m.reg .sp + .ofInt 64 (-256) := reg_setReg_same ..
  obtain ⟨mem, saving, saved, _⟩ := run_saves (m := down) kernelvecSaves_slots (base.symm ▸ window)
  refine ⟨{ down with mem := mem }, ?_, fun c same => ?_⟩
  · rw [kernelvec, run_append]
    exact saving
  have words : ∀ q ∈ kernelvecSaves, c.mem (word pa q.2) = down.reg q.1 := fun q listed =>
    (same.mem q.2 (kernelvecSaves_slots.inside q listed).2).trans (saved q listed)
  obtain ⟨reg, loading, loaded, _⟩ := run_loads (m := c) kernelvecLoads_slots same.window
    fun q listed first => by
      rw [words q ((kernelvecLoads_match q).mp listed).2, first, same.sp]
  have values : ∀ r, r ≠ .tp → reg r = down.reg r := by
    intro r other
    obtain ⟨off, listed⟩ := kernelvecSaves_all r
    rw [loaded (r, off) ((kernelvecLoads_match _).mpr ⟨other, listed⟩)]
    exact words (r, off) listed
  refine ⟨({ c with reg := reg } : Cpu).setReg .sp (reg .sp + .ofInt 64 256), ?_, fun r other => ?_⟩
  · rw [kernelvecReturn, run_append, loading]
    rfl
  · by_cases first : r = .sp
    · have none : BitVec.ofInt 64 (-256) + BitVec.ofInt 64 256 = 0#64 := by decide
      rw [first, reg_setReg_same, values .sp (by decide), base, BitVec.add_assoc, none,
        BitVec.add_zero]
    · rw [reg_setReg_other first]
      exact (values r other).trans (reg_setReg_other first _)

theorem swtchSaves_slots : Slots swtchSaves contextSize := by decide

theorem swtchLoads_slots : Slots swtchLoads contextSize := by decide

theorem swtchLoads_context : swtchLoads = context.zipIdx.map fun q => (q.1, 8 * q.2) := rfl

theorem mem_swtchLoads {r : Reg} (listed : r ∈ context) : ∃ off, (r, off) ∈ swtchLoads := by
  obtain ⟨i, inside, rfl⟩ := mem_iff_getElem.mp listed
  have numbered : (context[i], i) ∈ context.zipIdx :=
    mk_mem_zipIdx_iff_getElem?.mpr (List.getElem?_eq_getElem inside)
  rw [swtchLoads_context]
  exact ⟨8 * i, mem_map.mpr ⟨_, numbered, rfl⟩⟩

theorem swtchLoads_base : ∀ q ∈ swtchLoads, q.1 ≠ .a1 := by decide

/-- `swtch` saves the registers of a context at `old` and loads those at `new`. -/
theorem swtch_switches {old new : Nat} (source : Window translate m.csr (m.reg .a0) old contextSize)
    (target : Window translate m.csr (m.reg .a1) new contextSize) :
    ∃ u, run translate swtch m = some u ∧ u.pc = u.reg .ra ∧
      (∀ q ∈ swtchSaves, u.mem (word old q.2) = m.reg q.1) ∧
      (∀ i, (∀ q ∈ swtchSaves, i ≠ word old q.2) → u.mem i = m.mem i) ∧
      ∀ q ∈ swtchLoads, u.reg q.1 = u.mem (word new q.2) := by
  obtain ⟨mem, saving, saved, kept⟩ := run_saves swtchSaves_slots source
  obtain ⟨reg, loading, loaded, _⟩ := run_loads (m := { m with mem := mem }) swtchLoads_slots
    target fun q listed same => absurd same (swtchLoads_base q listed)
  refine ⟨{ m with pc := reg .ra, reg := reg, mem := mem }, ?_, rfl, saved, kept, loaded⟩
  rw [swtch, append_assoc, run_append, saving]
  change run translate (loads .a1 swtchLoads ++ [.jr .ra]) _ = _
  rw [run_append, loading]
  rfl

/-- Contexts at different places: no doubleword belongs to both. -/
def Apart (x old : Nat) : Prop :=
  ∀ off < contextSize, ∀ other < contextSize, word x off ≠ word old other

/-- Between two calls of `swtch` the saved context is left alone, and it is the second argument of
the second call. -/
structure Resumes (translate : Translation Csr) (old x : Nat) (k c : Cpu) : Prop where
  saves : Window translate c.csr (c.reg .a0) x contextSize
  loads : Window translate c.csr (c.reg .a1) old contextSize
  apart : Apart x old
  mem : ∀ off, off < contextSize → c.mem (word old off) = k.mem (word old off)

/-- A context that is switched to again has its registers as it left them. -/
theorem swtch_resumes {old new : Nat} (source : Window translate m.csr (m.reg .a0) old contextSize)
    (target : Window translate m.csr (m.reg .a1) new contextSize) :
    ∃ k, run translate swtch m = some k ∧ ∀ x c, Resumes translate old x k c →
      ∃ u, run translate swtch c = some u ∧ u.pc = m.reg .ra ∧
        ∀ r ∈ context, u.reg r = m.reg r := by
  obtain ⟨k, first, _, saved, _⟩ := swtch_switches source target
  refine ⟨k, first, fun x c again => ?_⟩
  obtain ⟨u, second, pc, _, kept, loaded⟩ := swtch_switches again.saves again.loads
  have restored : ∀ q ∈ swtchLoads, u.reg q.1 = m.reg q.1 := by
    intro q listed
    have inside := (swtchLoads_slots.inside q listed).2
    rw [loaded q listed, kept _ fun r other => ?_, again.mem q.2 inside, saved q listed]
    exact (again.apart _ (swtchSaves_slots.inside r other).2 _ inside).symm
  refine ⟨u, second, pc.trans (restored (.ra, 0) (by decide)), fun r listed => ?_⟩
  obtain ⟨off, loading⟩ := mem_swtchLoads listed
  exact restored (r, off) loading

end Kernel

/-- The kernel has left the user's registers and program counter in the trapframe alone. -/
structure Agrees (p : Proc) (k c : Cpu) : Prop where
  user : ∀ r, p.field c (.user r) = p.field k (.user r)
  epc : p.field c .epc = p.field k .epc

theorem Holds.agrees {p : Proc} {k c : Cpu} {reg : Reg → BitVec 64} {pc : BitVec 64}
    (holds : Holds p k reg pc) (same : Agrees p k c) : Holds p c reg pc where
  user r := (same.user r).trans (holds.user r)
  epc := same.epc.trans holds.epc

variable (translate : Translation Csr)

/-- The user runs on with these registers and program counter. -/
def Continues (text : Text) (p : Proc) (c : Cpu) (reg : Reg → BitVec 64) (pc : BitVec 64) : Prop :=
  ∃ u, run translate userret (usertrapret text p c) = some u ∧ (sret u).reg = reg ∧
    (sret u).pc = pc ∧ (sret u).csr .sscratch = trapframeAddress

/-- A trap from user space: the entry keeps the fields of the kernel, and the state that was
interrupted comes back, for a system call but for `a0` and `pc`. -/
def UserTraps : Prop :=
  ∀ (p : Proc) (m : Cpu) (cause : BitVec 64) (text : Text), Mapped translate p →
    m.csr .sscratch = trapframeAddress → m.csr .satp = makeSatp p.pagetable →
    ∃ k, run translate uservec (trap m cause) = some k ∧
      (∀ f, (∀ r, f ≠ .user r) → p.field k f = p.field m f) ∧
      (∀ c, Agrees p (usertrapStart text p k) c → Continues translate text p c m.reg m.pc) ∧
      ∀ result c, Agrees p (usertrapSyscall p (usertrapStart text p k) (.returned result)) c →
        Continues translate text p c (update m.reg .a0 result) (m.pc + 4)

/-- A trap from the kernel gives back every register but `tp`. -/
def KernelTraps : Prop :=
  ∀ (m : Cpu) (pa : Nat), Window translate m.csr (m.reg .sp + .ofInt 64 (-256)) pa 256 →
    ∃ k, run translate kernelvec m = some k ∧ ∀ c, Preserves translate pa k c →
      ∃ u, run translate kernelvecReturn c = some u ∧ ∀ r, r ≠ .tp → u.reg r = m.reg r

/-- A context comes back with the registers it had when it was switched away from. -/
def Switches : Prop :=
  ∀ (m : Cpu) (old new : Nat), Window translate m.csr (m.reg .a0) old contextSize →
    Window translate m.csr (m.reg .a1) new contextSize →
    ∃ k, run translate swtch m = some k ∧ ∀ x c, Resumes translate old x k c →
      ∃ u, run translate swtch c = some u ∧ u.pc = m.reg .ra ∧ ∀ r ∈ context, u.reg r = m.reg r

theorem userTraps : UserTraps translate := by
  intro p m cause text mapped scratch satp
  obtain ⟨k, run, entered⟩ := uservec_enters (m := trap m cause) mapped scratch satp
  have holds := entered.holds mapped.aligned text
  refine ⟨k, run, entered.others, fun c same => ?_, fun result c same => ?_⟩
  · exact returns_to_user mapped text (holds.agrees same)
  · exact returns_to_user mapped text ((holds.syscall mapped.aligned result).agrees same)

/-- Memory without translation. -/
def flat : Translation Csr := fun _ va => some va.toNat

theorem flat_window {csr : Csr → BitVec 64} {base : BitVec 64} {len : Nat}
    (aligned : base.toNat % 8 = 0) (fits : base.toNat + len ≤ 2 ^ 64) :
    Window flat csr base base.toNat len where
  aligned := aligned
  maps off _ inside := by
    have small : (BitVec.ofNat 64 off).toNat = off := by
      rw [BitVec.toNat_ofNat, Nat.mod_eq_of_lt (by omega)]
    rw [flat, BitVec.toNat_add, small, Nat.mod_eq_of_lt (by omega)]

/-- A process whose trapframe lies at `TRAPFRAME`. -/
def flatProc : Proc := ⟨trapframeAddress.toNat, 4096, 0⟩

/-- Its user, with `1` in every register. -/
def flatUser : Cpu :=
  { pc := 64
    reg := fun _ => 1
    csr := fun c => if c = .sscratch then trapframeAddress else makeSatp 0
    mem := fun _ => 0 }

theorem flatProc_mapped : Mapped flat flatProc where
  window _ _ := flat_window (by decide) (by decide)

/-- **Traps and context switches preserve the registers**, and the assembly keeps to the structs. -/
theorem saved_state_restored :
    UserTraps translate ∧ KernelTraps translate ∧ Switches translate ∧
      (∀ q, q ∈ uservecSaves ↔ q.1 ≠ .a0 ∧ q.2 = (Field.user q.1).offset) ∧
      (∀ q, q ∈ userretLoads ↔ q.1 ≠ .a0 ∧ q.2 = (Field.user q.1).offset) ∧
      (∀ r (f : Field), (∀ s, f ≠ .user s) → (Field.user r).offset ≠ f.offset) := by
  refine ⟨userTraps translate, fun _ _ window => kernelvec_restores window,
    fun _ _ _ source target => swtch_resumes source target, uservecSaves_match,
    userretLoads_match, fun r f kernel same => ?_⟩
  exact kernel r (offset_injective same).symm

/-- The kernel with its stack at 8192, about to switch from the context there to another one. -/
def flatKernel : Cpu := { flatUser with reg := fun r => if r = .a1 then 4096 else 8192 }

/-- A system call of the sample user that returns `5`, a trap from the kernel that changes `a0`, and
a switch there and back. -/
theorem flat_call_returns : (Mapped flat flatProc ∧
    ∃ k, run flat uservec (trap flatUser 8) = some k ∧ ∀ text,
      Continues flat text flatProc (usertrapSyscall flatProc (usertrapStart text flatProc k)
        (.returned 5)) (update flatUser.reg .a0 5) 68) ∧
    (∃ k u, run flat kernelvec flatKernel = some k ∧
      run flat kernelvecReturn (k.setReg .a0 7) = some u ∧ u.reg .a0 = 8192) ∧
    ∃ k u, run flat swtch flatKernel = some k ∧
      run flat swtch ((k.setReg .a0 4096).setReg .a1 8192) = some u ∧ u.reg .sp = 8192 := by
  obtain ⟨user, kernel, switches, _⟩ := saved_state_restored flat
  refine ⟨⟨flatProc_mapped, ?_⟩, ?_, ?_⟩
  · obtain ⟨k, entered, _⟩ := uservec_enters (m := trap flatUser 8) flatProc_mapped rfl rfl
    refine ⟨k, entered, fun text => ?_⟩
    obtain ⟨k', entered', _, _, back⟩ := user flatProc flatUser 8 text flatProc_mapped rfl rfl
    obtain rfl : k = k' := Option.mem_unique entered entered'
    exact back 5 _ ⟨fun _ => rfl, rfl⟩
  · have stack : (run flat kernelvec flatKernel).map (·.reg .sp) = some 7936 := by decide +kernel
    obtain ⟨k, saved, restores⟩ := kernel flatKernel 7936 (flat_window (by decide) (by decide))
    rw [saved] at stack
    have sp : (k.setReg .a0 7).reg .sp = 7936 := Option.some.inj stack
    obtain ⟨u, back, same⟩ := restores (k.setReg .a0 7) ⟨rfl,
      sp ▸ flat_window (by decide) (by decide), fun _ _ => rfl⟩
    exact ⟨k, u, saved, back, same .a0 (by decide)⟩
  · have low : ∀ csr, Window flat csr 4096 4096 contextSize := fun _ =>
      flat_window (by decide) (by decide)
    have high : ∀ csr, Window flat csr 8192 8192 contextSize := fun _ =>
      flat_window (by decide) (by decide)
    obtain ⟨k, saved, resumes⟩ := switches flatKernel 8192 4096 (high _) (low _)
    obtain ⟨u, back, _, same⟩ := resumes 4096 ((k.setReg .a0 4096).setReg .a1 8192)
      ⟨low _, high _, by unfold Apart; decide +kernel, fun _ _ => rfl⟩
    exact ⟨k, u, saved, back, same .sp (by decide)⟩

end OsLab.Trap
