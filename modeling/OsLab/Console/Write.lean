import OsLab.Lib.Bytes
import OsLab.Proc.Model

/-!
# Console output

`consolewrite` with the transmit ring of the UART.  It keeps `cons.lock` while `uartputc` waits
for room in the ring, and `sched` does not allow that: the write completes exactly if the ring is
never found full.
-/

namespace OsLab.Console

open Function

def uartTxBufSize : Nat := 32

instance : NeZero uartTxBufSize := ⟨by decide⟩

/-- The transmit ring, what was written to `THR`, and how often `LSR` was read and the ring was
tested for room. -/
structure Uart where
  buf : Fin uartTxBufSize → Byte
  w : Fin uartTxBufSize
  r : Fin uartTxBufSize
  thr : List Byte
  reads : Nat
  tests : Nat

/-- When the UART is ready for a byte, by the number of the read of `LSR`, and how many transmit
interrupts other CPUs have handled before a test for room. -/
structure Device where
  ready : Nat → Bool
  interrupts : Nat → Nat

namespace Uart

/-- `((uart_tx_w + 1) % UART_TX_BUF_SIZE) == uart_tx_r`. -/
def Full (u : Uart) : Prop := u.w + 1 = u.r

instance (u : Uart) : Decidable u.Full := inferInstanceAs (Decidable (_ = _))

/-- The loop of `uartstart`, for the number of bytes in the ring. -/
def startFrom (ready : Nat → Bool) : (pending : Nat) → Uart → Uart
  | 0, u => u
  | pending + 1, u =>
    if u.w = u.r then u
    else if ready u.reads then
      startFrom ready pending
        { u with r := u.r + 1, thr := u.thr ++ [u.buf u.r], reads := u.reads + 1 }
    else { u with reads := u.reads + 1 }

def uartstart (ready : Nat → Bool) (u : Uart) : Uart := u.startFrom ready (u.w - u.r).val

/-- The ring when it is tested, after the interrupts that came while its lock was free. -/
def tested (device : Device) (u : Uart) : Uart :=
  { (uartstart device.ready)^[device.interrupts u.tests] u with tests := u.tests + 1 }

/-- The branch of `uartputc` that stores the byte. -/
def store (device : Device) (u : Uart) (c : Byte) : Uart :=
  uartstart device.ready { u with buf := update u.buf u.w c, w := u.w + 1 }

end Uart

/-- The UART and `mycpu()->noff`. -/
structure State where
  uart : Uart
  noff : Nat

/-- Why a call does not return. -/
inductive Halt where
  | panic (reason : Sched.Panic)
  /-- The process still sleeps after the number of rounds that is looked at. -/
  | asleep
deriving DecidableEq

/-- `acquire` of a free lock. -/
def acquire (s : State) : State := { s with noff := s.noff + 1 }

/-- `release` of a lock that is held. -/
def release (s : State) : State := { s with noff := s.noff - 1 }

/-- The check of `sched` on the number of locks; `sleep` passes the others. -/
def sched (s : State) : Except Halt State :=
  if s.noff ≠ 1 then .error (.panic .schedLocks) else .ok s

/-- `sleep(&uart_tx_r, &uart_tx_lock)`. -/
def sleep (s : State) : Except Halt State := do
  -- `p->lock` is taken before `uart_tx_lock` is released
  let s ← sched (release (acquire s))
  return acquire (release s)

variable (device : Device)

def putLoop (c : Byte) : (rounds : Nat) → State → Except Halt State
  | 0, _ => .error .asleep
  | rounds + 1, s =>
    let u := s.uart.tested device
    if u.Full then do putLoop c rounds (← sleep { s with uart := u })
    else .ok { s with uart := u.store device c }

def uartputc (rounds : Nat) (c : Byte) (s : State) : Except Halt State := do
  return release (← putLoop device c rounds (acquire s))

/-- The loop of `consolewrite`: the final index and the state. -/
def writeLoop (memory : BitVec 64 → Option Byte) (src : BitVec 64) (rounds : Nat) :
    (remaining i : Nat) → State → Except Halt (Nat × State)
  | 0, i, s => .ok (i, s)
  | remaining + 1, i, s =>
    match memory (src + .ofNat 64 i) with
    | none => .ok (i, s)
    | some c => do writeLoop memory src rounds remaining (i + 1) (← uartputc device rounds c s)

def consolewrite (memory : BitVec 64 → Option Byte) (src : BitVec 64) (n : Int)
    (rounds : Nat) (s : State) : Except Halt (Nat × State) := do
  let (i, s) ← writeLoop device memory src rounds n.toNat 0 (acquire s)
  return (i, release s)

/-- The bytes of the user up to the first that cannot be read. -/
def readable (memory : BitVec 64 → Option Byte) (src : BitVec 64) :
    (remaining i : Nat) → List Byte
  | 0, _ => []
  | remaining + 1, i =>
    match memory (src + .ofNat 64 i) with
    | none => []
    | some c => c :: readable memory src remaining (i + 1)

/-- The ring after some bytes, each of which has found room. -/
def stored (u : Uart) (bytes : List Byte) : Uart :=
  bytes.foldl (fun u c => (u.tested device).store device c) u

/-- A number of waiting bytes and of reads of `LSR` when the UART takes a byte for each read that
finds it ready, until one does not. -/
def drain (ready : Nat → Bool) : (waiting reads : Nat) → Nat × Nat
  | 0, reads => (0, reads)
  | waiting + 1, reads =>
    if ready reads then drain ready waiting (reads + 1) else (waiting + 1, reads + 1)

/-- Each of `count` bytes finds room, from the number of waiting bytes and of reads of `LSR`: before
it come the interrupts, and after it the UART is tried once. -/
def room : (count tests : Nat) → Nat × Nat → Bool
  | 0, _, _ => true
  | count + 1, tests, level =>
    let level := (fun level => drain device.ready level.1 level.2)^[device.interrupts tests] level
    decide (level.1 + 1 < uartTxBufSize) &&
      room count (tests + 1) (drain device.ready (level.1 + 1) level.2)

namespace Uart

/-- The number of bytes in the ring, and of reads of `LSR`. -/
def level (u : Uart) : Nat × Nat := ((u.w - u.r).val, u.reads)

theorem level_startFrom (ready : Nat → Bool) (pending : Nat) : ∀ u : Uart,
    (u.w - u.r).val = pending → (u.startFrom ready pending).level = drain ready pending u.reads ∧
      (u.startFrom ready pending).tests = u.tests := by
  induction pending with
  | zero => exact fun u none => ⟨Prod.ext none rfl, rfl⟩
  | succ pending ih =>
    intro u some
    have nonempty : u.w ≠ u.r := by
      rintro same
      simp [same] at some
    have next : ∀ w r : Fin uartTxBufSize, w ≠ r → (w - (r + 1)).val + 1 = (w - r).val := by
      decide +kernel
    rw [startFrom, if_neg nonempty, drain]
    split
    · exact ih _ (Nat.succ.inj ((next _ _ nonempty).trans some))
    · exact ⟨Prod.ext some rfl, rfl⟩

theorem level_tested (u : Uart) : (u.tested device).level =
    (fun level => drain device.ready level.1 level.2)^[device.interrupts u.tests] u.level := by
  have one : Semiconj level (uartstart device.ready) fun level =>
      drain device.ready level.1 level.2 := fun u => (level_startFrom device.ready _ u rfl).1
  exact one.iterate_right _ u

theorem full_iff (u : Uart) : u.Full ↔ ¬ u.level.1 + 1 < uartTxBufSize := by
  have last : ∀ w r : Fin uartTxBufSize, w + 1 = r ↔ ¬ (w - r).val + 1 < uartTxBufSize := by
    decide +kernel
  exact last u.w u.r

theorem level_store {u : Uart} (space : ¬ u.Full) (c : Byte) :
    (u.store device c).level = drain device.ready (u.level.1 + 1) u.level.2 ∧
      (u.store device c).tests = u.tests := by
  have more : ∀ w r : Fin uartTxBufSize, w + 1 ≠ r → (w + 1 - r).val = (w - r).val + 1 := by
    decide +kernel
  have start :=
    level_startFrom device.ready _ { u with buf := update u.buf u.w c, w := u.w + 1 } rfl
  exact ⟨start.1.trans (congrArg (drain device.ready · u.reads) (more _ _ space)), start.2⟩

end Uart

theorem room_succ (count : Nat) (u : Uart) (c : Byte) :
    room device (count + 1) u.tests u.level = true ↔ ¬ (u.tested device).Full ∧
      room device count ((u.tested device).store device c).tests
        ((u.tested device).store device c).level = true := by
  rw [room, Bool.and_eq_true, decide_eq_true_eq, ← Uart.level_tested, Uart.full_iff, not_not]
  refine and_congr_right fun space => ?_
  obtain ⟨level, tests⟩ := Uart.level_store device (by rwa [Uart.full_iff, not_not]) c
  rw [level, tests]
  rfl

/-- With `cons.lock` held there is no sleeping: a full ring is a panic. -/
theorem uartputc_eq (rounds : Nat) (c : Byte) {s : State} (held : s.noff = 1) :
    uartputc device (rounds + 1) c s =
      if (s.uart.tested device).Full then .error (.panic .schedLocks)
      else .ok { s with uart := (s.uart.tested device).store device c } := by
  by_cases full : (s.uart.tested device).Full
  · have loop : putLoop device c (rounds + 1) (acquire s) = .error (.panic .schedLocks) := by
      refine (if_pos full).trans ?_
      simp only [sleep, sched, acquire, release, held]
      rfl
    rw [if_pos full, uartputc, loop]
    rfl
  · have loop : putLoop device c (rounds + 1) (acquire s) =
        .ok { acquire s with uart := (s.uart.tested device).store device c } := if_neg full
    rw [if_neg full, uartputc, loop]
    rfl

/-- The loop stores all readable bytes, or panics at the first that finds no room. -/
theorem writeLoop_eq (memory : BitVec 64 → Option Byte) (src : BitVec 64) (rounds : Nat)
    (remaining : Nat) : ∀ (i : Nat) {s : State}, s.noff = 1 →
      writeLoop device memory src (rounds + 1) remaining i s =
        if room device (readable memory src remaining i).length s.uart.tests s.uart.level then
          .ok (i + (readable memory src remaining i).length,
            { s with uart := stored device s.uart (readable memory src remaining i) })
        else .error (.panic .schedLocks) := by
  induction remaining with
  | zero => exact fun i s _ => rfl
  | succ remaining ih =>
    intro i s held
    cases byte : memory (src + .ofNat 64 i) with
    | none => simp [writeLoop, readable, byte, room, stored]
    | some c =>
      simp only [writeLoop, readable, byte, uartputc_eq device rounds c held, List.length_cons,
        room_succ device _ s.uart c]
      by_cases full : (s.uart.tested device).Full
      · rw [if_pos full, if_neg fun room => room.1 full]
        rfl
      · rw [if_neg full]
        have rest := @ih (i + 1) { s with uart := (s.uart.tested device).store device c } held
        refine Eq.trans rest ?_
        simp only [full, not_false_eq_true, true_and, stored, List.foldl_cons, add_assoc,
          add_comm 1]

/-- `consolewrite` never reaches `sched` with a second lock exactly if there is room for as many
bytes as can be read; it then writes the bytes up to the first that cannot. -/
theorem consolewrite_completes_iff (memory : BitVec 64 → Option Byte) (src : BitVec 64)
    (n : Int) (rounds : Nat) (s : State) (unlocked : s.noff = 0) :
    (consolewrite device memory src n (rounds + 1) s ≠ .error (.panic .schedLocks) ↔
      room device (readable memory src n.toNat 0).length s.uart.tests s.uart.level) ∧
    (room device (readable memory src n.toNat 0).length s.uart.tests s.uart.level →
      consolewrite device memory src n (rounds + 1) s = .ok ((readable memory src n.toNat 0).length,
          ⟨stored device s.uart (readable memory src n.toNat 0), 0⟩)) := by
  have held : (acquire s).noff = 1 := by rw [acquire, unlocked]
  have loop := writeLoop_eq device memory src rounds n.toNat 0 held
  cases enough : room device (readable memory src n.toNat 0).length s.uart.tests s.uart.level
  · replace loop := loop.trans (if_neg (by simp [acquire, enough]))
    have halts : consolewrite device memory src n (rounds + 1) s = .error (.panic .schedLocks) := by
      rw [consolewrite, loop]
      rfl
    exact ⟨by simp [halts], nofun⟩
  · replace loop := loop.trans (if_pos enough)
    have done : consolewrite device memory src n (rounds + 1) s =
        .ok ((readable memory src n.toNat 0).length,
          ⟨stored device s.uart (readable memory src n.toNat 0), 0⟩) := by
      rw [consolewrite, loop, zero_add]
      simp only [acquire, unlocked]
      rfl
    exact ⟨by simp [done], fun _ => done⟩

/-- A UART with an empty ring. -/
def quiet : State := ⟨⟨fun _ => 0, 0, 0, [], 0, 0⟩, 0⟩

/-- A UART that takes no byte and gives no interrupt. -/
def busy : Device := ⟨fun _ => false, fun _ => 0⟩

theorem consolewrite_ring_completes :
    consolewrite busy (fun _ => some 65) 0 31 1 quiet =
      .ok (31, ⟨stored busy quiet.uart (List.replicate 31 65), 0⟩) :=
  (consolewrite_completes_iff busy (fun _ => some 65) 0 31 0 quiet rfl).2 (by decide +kernel)

/-- The 32nd byte finds the ring full. -/
theorem consolewrite_panics :
    consolewrite busy (fun _ => some 65) 0 32 1 quiet = .error (.panic .schedLocks) := by
  rfl

end OsLab.Console
