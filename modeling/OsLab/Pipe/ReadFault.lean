import OsLab.Pipe.Model

/-!
# Bytes that `piperead` loses

`piperead` with the user memory it copies to.  A byte is taken out of the pipe before it is copied,
so it is gone when its address is not mapped, and the returned count does not include it.
-/

namespace OsLab.Pipe

open Function BitVec Nat

/-- The bytes of the mapped pages of a process, by user address. -/
abbrev UserMemory := BitVec 64 → Option Byte

/-- `copyout` of one byte, with `none` for -1. -/
def UserMemory.copyout (memory : UserMemory) (va : BitVec 64) (ch : Byte) : Option UserMemory :=
  if (memory va).isSome then some (update memory va (some ch)) else none

/-- The copying loop of `piperead`: the final index, the pipe and the memory. -/
def copyLoop (addr : BitVec 64) : (remaining i : Nat) → Pipe → UserMemory → Nat × Pipe × UserMemory
  | 0, i, pi, memory => (i, pi, memory)
  | remaining + 1, i, pi, memory =>
    if pi.Empty then (i, pi, memory)
    else
      match memory.copyout (addr + .ofNat 64 i) pi.take.1 with
      | some memory => copyLoop addr remaining (i + 1) pi.take.2 memory
      | none => (i, pi.take.2, memory)

section Tenure

variable {Pid : Type*} [DecidableEq Pid]

/-- One tenure of the lock by `piperead(pi, addr, n)`: the value it returns unless it sleeps, the
state and the memory. -/
def pipereadTo (p : Pid) (addr : BitVec 64) (n : Int) (s : State Pid) (memory : UserMemory) :
    Option Int × State Pid × UserMemory :=
  let s := s.modify p Proc.resume
  if s.pipe.Empty ∧ s.pipe.writeopen then
    if (s.procs p).killed then (some (-1), s.modify p Proc.leave, memory)
    else (none, s.modify p (·.sleep .nread (.piperead n)), memory)
  else
    let copied := copyLoop addr n.toNat 0 s.pipe memory
    (some copied.1,
      (({ s with pipe := copied.2.1 } : State Pid).wakeup .nwrite).modify p Proc.leave, copied.2.2)

end Tenure

theorem copyLoop_eq (addr : BitVec 64) {copyout : Nat → Bool} (remaining : Nat) :
    ∀ (i : Nat) (pi : Pipe) (memory : UserMemory),
      (∀ k, (memory (addr + .ofNat 64 k)).isSome = copyout k) →
      (copyLoop addr remaining i pi memory).1 = i + (pipereadLoop copyout remaining i pi).2.length ∧
      (copyLoop addr remaining i pi memory).2.1 = (pipereadLoop copyout remaining i pi).1 := by
  induction remaining with
  | zero => exact fun i pi memory _ => ⟨rfl, rfl⟩
  | succ remaining ih =>
    intro i pi memory maps
    rw [copyLoop, pipereadLoop, UserMemory.copyout, maps]
    by_cases empty : pi.Empty
    · simp [empty]
    cases fine : copyout i with
    | false => simp [empty]
    | true =>
      obtain ⟨index, same⟩ := ih (i + 1) pi.take.2 (update memory (addr + .ofNat 64 i)
        (some pi.take.1)) fun k => by
        rw [← maps, update_apply]
        split
        · next here => rw [here, maps, fine, Option.isSome_some]
        · rfl
      simp only [empty, if_false, if_true, List.length_cons]
      exact ⟨index.trans (by omega), same⟩

theorem pipereadTo_eq {Pid : Type*} [DecidableEq Pid] (p : Pid) (addr : BitVec 64) (n : Int)
    (s : State Pid) (memory : UserMemory) :
    piperead p n (fun i => (memory (addr + .ofNat 64 i)).isSome) s =
      ((pipereadTo p addr n s memory).2.1, (pipereadTo p addr n s memory).1) := by
  obtain ⟨index, same⟩ :=
    copyLoop_eq addr n.toNat 0 (s.modify p Proc.resume).pipe memory fun _ => rfl
  unfold piperead pipereadTo
  dsimp only
  split
  · split <;> rfl
  · rw [index, same, zero_add]

/-- The first `k` bytes of the pipe have been stored from `addr` on. -/
structure Copied (addr : BitVec 64) (k : Nat) (pi : Pipe) (before after : UserMemory) : Prop where
  stored : ∀ j < k, after (addr + .ofNat 64 j) = some (pi.data (slot (pi.nread + .ofNat 32 j)))
  others : ∀ va, (∀ j < k, va ≠ addr + .ofNat 64 j) → after va = before va

/-- Byte `k` of the pipe is there and asked for, and its address is the first one not mapped. -/
structure Faults (addr : BitVec 64) (n k : Nat) (pi : Pipe) (memory : UserMemory) : Prop where
  asked : k < n
  has : ∀ j ≤ k, pi.nread + .ofNat 32 j ≠ pi.nwrite
  mapped : ∀ j < k, (memory (addr + .ofNat 64 j)).isSome
  unmapped : memory (addr + .ofNat 64 k) = none

/-- The pipe without its first bytes. -/
def drop (pi : Pipe) (count : Nat) : Pipe := { pi with nread := pi.nread + .ofNat 32 count }

theorem take_drop (pi : Pipe) (i : Nat) :
    (pi.drop i).take = (pi.data (slot (pi.nread + .ofNat 32 i)), pi.drop (i + 1)) := by
  simp [take, drop, ofNat_add, add_assoc]

variable {addr : BitVec 64}

theorem address_ne {i j : Nat} (less : j < i) (word : i < 2 ^ 64) :
    addr + .ofNat 64 i ≠ addr + .ofNat 64 j := by
  intro same
  have equal : BitVec.ofNat 64 i = BitVec.ofNat 64 j := by simpa using same
  replace equal := congrArg BitVec.toNat equal
  rw [toNat_ofNat, toNat_ofNat, mod_eq_of_lt word, mod_eq_of_lt (less.trans word)] at equal
  omega

theorem Copied.next {i : Nat} {pi : Pipe} {before memory : UserMemory}
    (copied : Copied addr i pi before memory) (word : i < 2 ^ 64) :
    Copied addr (i + 1) pi before (update memory (addr + .ofNat 64 i)
      (some (pi.data (slot (pi.nread + .ofNat 32 i))))) := by
  refine ⟨fun j below => ?_, fun va apart => ?_⟩
  · rcases Nat.lt_succ_iff_lt_or_eq.mp below with less | rfl
    · rw [update_of_ne (address_ne less word).symm]
      exact copied.stored j less
    · rw [update_self]
  · rw [update_of_ne (apart i (lt_succ_self i))]
    exact copied.others va fun j less => apart j (less.trans (lt_succ_self i))

/-- The loop takes one byte more than it stores exactly if an address faults. -/
theorem copyLoop_spec (addr : BitVec 64) (pi : Pipe) (before : UserMemory) {n : Nat}
    (word : n ≤ 2 ^ 64) (remaining : Nat) : ∀ (i : Nat) (memory : UserMemory), i + remaining = n →
      Copied addr i pi before memory →
      (∀ j < i, pi.nread + .ofNat 32 j ≠ pi.nwrite ∧ (before (addr + .ofNat 64 j)).isSome) →
      ∃ k lost after,
        copyLoop addr remaining i (pi.drop i) memory = (k, pi.drop (k + lost), after) ∧
        Copied addr k pi before after ∧
        (lost = 0 ∧ (∀ l, ¬ Faults addr n l pi before) ∨ lost = 1 ∧ Faults addr n k pi before) := by
  induction remaining with
  | zero =>
    intro i memory last copied passed
    refine ⟨i, 0, memory, rfl, copied, .inl ⟨rfl, fun l faults => ?_⟩⟩
    exact absurd (passed l (by have := faults.asked; omega)).2 (by simp [faults.unmapped])
  | succ remaining ih =>
    intro i memory more copied passed
    rw [copyLoop]
    by_cases empty : (pi.drop i).Empty
    · rw [if_pos empty]
      refine ⟨i, 0, memory, rfl, copied, .inl ⟨rfl, fun l faults => ?_⟩⟩
      rcases lt_or_ge l i with less | beyond
      · exact absurd (passed l less).2 (by simp [faults.unmapped])
      · exact faults.has i beyond empty
    · rw [if_neg empty, take_drop]
      have same : memory (addr + .ofNat 64 i) = before (addr + .ofNat 64 i) :=
        copied.others _ fun j less => address_ne less (by omega)
      cases here : before (addr + .ofNat 64 i) with
      | none =>
        rw [UserMemory.copyout, if_neg (by simp [same, here])]
        refine ⟨i, 1, memory, rfl, copied, .inr ⟨rfl, by omega, fun j below => ?_,
          fun j less => (passed j less).2, here⟩⟩
        rcases lt_or_eq_of_le below with less | rfl
        · exact (passed j less).1
        · exact empty
      | some old =>
        rw [UserMemory.copyout, if_pos (by simp [same, here])]
        refine ih (i + 1) _ (by omega) (copied.next (by omega)) fun j below => ?_
        rcases Nat.lt_succ_iff_lt_or_eq.mp below with less | rfl
        · exact passed j less
        · exact ⟨empty, by simp [here]⟩

section Call

variable {Pid : Type*} [DecidableEq Pid]

/-- What the caller learns is what has happened: a count of bytes that were taken out of the pipe
and stored, and no byte otherwise. -/
structure Lossless (addr : BitVec 64) (s : State Pid) (memory : UserMemory)
    (result : Option Int × State Pid × UserMemory) : Prop where
  counted : ∀ k : Nat, result.1 = some k →
    result.2.1.pipe = s.pipe.drop k ∧ Copied addr k s.pipe memory result.2.2
  untouched : result.1 = none ∨ result.1 = some (-1) →
    result.2.1.pipe = s.pipe ∧ result.2.2 = memory

/-- `piperead` loses no byte, unless it comes to a byte whose address is not mapped. -/
theorem piperead_lossless_iff (p : Pid) (addr : BitVec 64) {n : Int} (word : n < 2 ^ 31)
    (s : State Pid) (memory : UserMemory) :
    Lossless addr s memory (pipereadTo p addr n s memory) ↔
      ¬ ∃ k, Faults addr n.toNat k s.pipe memory := by
  rw [pipereadTo]
  simp only [show (s.modify p Proc.resume).pipe = s.pipe from rfl]
  by_cases waits : s.pipe.Empty ∧ s.pipe.writeopen = true
  · have none : ¬ ∃ k, Faults addr n.toNat k s.pipe memory := fun ⟨k, faults⟩ =>
      faults.has 0 (zero_le k) (by rw [BitVec.add_zero]; exact waits.1)
    rw [if_pos waits]
    refine ⟨fun _ => none, fun _ => ?_⟩
    split
    · exact ⟨fun k same => by simp at same, fun _ => ⟨rfl, rfl⟩⟩
    · exact ⟨nofun, fun _ => ⟨rfl, rfl⟩⟩
  · rw [if_neg waits]
    obtain ⟨k, lost, after, loop, copied, which⟩ := copyLoop_spec addr s.pipe memory
      (show n.toNat ≤ 2 ^ 64 by omega) n.toNat 0 memory (zero_add _)
      ⟨nofun, fun _ _ => rfl⟩ nofun
    rw [show s.pipe.drop 0 = s.pipe by simp [drop]] at loop
    rw [loop]
    constructor
    · rintro lossless ⟨l, faults⟩
      rcases which with ⟨_, none⟩ | ⟨rfl, _⟩
      · exact none l faults
      · have nread := congrArg Pipe.nread (lossless.counted k rfl).1
        simp [drop, State.modify, State.wakeup, ofNat_add, ← add_assoc] at nread
    · intro none
      rcases which with ⟨rfl, _⟩ | ⟨_, faults⟩
      · refine ⟨fun l same => ?_, fun fails => ?_⟩
        · obtain rfl : k = l := by simpa using same
          exact ⟨rfl, copied⟩
        · simp at fails
      · exact absurd ⟨k, faults⟩ none

/-- One byte in the pipe and a reader. -/
def oneByte : State Unit where
  pipe := ⟨fun _ => 7, 0, 1, true, true⟩
  procs _ := ⟨.running, none, false, .piperead 1, true, false⟩
  freed := false

theorem piperead_mapped_lossless :
    Lossless 0 oneByte (fun _ => some 0) (pipereadTo () 0 1 oneByte fun _ => some 0) :=
  (piperead_lossless_iff () 0 (by decide) oneByte fun _ => some 0).2
    fun ⟨_, faults⟩ => Option.some_ne_none _ faults.unmapped

/-- No address is mapped: `piperead` returns 0, and the byte is gone. -/
theorem piperead_loses_byte :
    (pipereadTo () 0 1 oneByte fun _ => none).1 = some 0 ∧
      (pipereadTo () 0 1 oneByte fun _ => none).2.1.pipe.nread = oneByte.pipe.nread + 1 :=
  ⟨rfl, rfl⟩

end Call

end OsLab.Pipe
