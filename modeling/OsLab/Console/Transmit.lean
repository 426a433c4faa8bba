import OsLab.Console.Write
import OsLab.Proc.Wakeup

/-!
# The transmit ring

`uartputc` in any number of processes and `uartstart` in the interrupt handler of each CPU, one
statement at a time, on the machine of `sleep` and `wakeup`.  What was stored is always what was
written to `THR`, then the byte that `uartstart` has in hand, then the contents of the ring.
-/

namespace OsLab.Transmit

open Function Wakeup Nat
open Console (uartTxBufSize)

/-- What `uart_tx_lock` protects, with what has gone in and come out. -/
structure Ring where
  buf : Nat → Byte
  w : Nat
  r : Nat
  /-- The byte that `uartstart` has taken out and not yet written. -/
  hand : List Byte
  /-- What calls of `uartputc` have stored. -/
  stored : List Byte
  /-- What `uartstart` has written to `THR`. -/
  thr : List Byte

namespace Ring

def Full (u : Ring) : Prop := (u.w + 1) % uartTxBufSize = u.r

/-- `uart_tx_buf[uart_tx_w] = c; uart_tx_w = (uart_tx_w + 1) % UART_TX_BUF_SIZE`. -/
def put (u : Ring) (c : Byte) : Ring :=
  { u with
    buf := update u.buf u.w c
    w := (u.w + 1) % uartTxBufSize
    stored := u.stored ++ [c] }

/-- `c = uart_tx_buf[uart_tx_r]; uart_tx_r = (uart_tx_r + 1) % UART_TX_BUF_SIZE`. -/
def take (u : Ring) : Ring :=
  { u with r := (u.r + 1) % uartTxBufSize, hand := [u.buf u.r] }

/-- `WriteReg(THR, c)`. -/
def send (u : Ring) : Ring := { u with hand := [], thr := u.thr ++ u.hand }

def count (u : Ring) : Nat := (u.w + uartTxBufSize - u.r) % uartTxBufSize

/-- The bytes from `uart_tx_r` up to `uart_tx_w`. -/
def contents (u : Ring) : List Byte :=
  (List.range u.count).map fun k => u.buf ((u.r + k) % uartTxBufSize)

/-- The indices are in range, and what was stored is written, in hand or in the ring. -/
structure Sound (u : Ring) : Prop where
  w_lt : u.w < uartTxBufSize
  r_lt : u.r < uartTxBufSize
  hand : u.hand.length ≤ 1
  stream : u.stored = u.thr ++ u.hand ++ u.contents

variable {u : Ring}

section

variable (w_lt : u.w < uartTxBufSize) (r_lt : u.r < uartTxBufSize)
include w_lt r_lt

theorem contents_put (room : ¬ u.Full) (c : Byte) : (u.put c).contents = u.contents ++ [c] := by
  simp only [Full, uartTxBufSize] at room w_lt r_lt
  have longer : (u.put c).count = u.count + 1 := by
    simp only [count, put, uartTxBufSize]
    omega
  rw [contents, longer, List.range_succ, List.map_append, List.map_singleton, contents]
  congr 1
  · refine List.map_congr_left fun k listed => ?_
    rw [List.mem_range] at listed
    simp only [count, uartTxBufSize] at listed
    simp only [put, uartTxBufSize]
    exact update_of_ne (by omega) ..
  · have last : (u.r + u.count) % uartTxBufSize = u.w := by
      simp only [count, uartTxBufSize]
      omega
    simp [put, last]

theorem contents_take (waits : u.w ≠ u.r) : u.contents = u.buf u.r :: u.take.contents := by
  simp only [uartTxBufSize] at w_lt r_lt
  have longer : u.count = u.take.count + 1 := by
    simp only [count, take, uartTxBufSize]
    omega
  rw [contents, longer, List.range_succ_eq_map, List.map_cons, List.map_map, contents]
  congr 1
  · rw [add_zero, uartTxBufSize, mod_eq_of_lt r_lt]
  refine List.map_congr_left fun k _ => ?_
  simp only [comp_apply, take, uartTxBufSize]
  congr 1
  omega

end

theorem Sound.put (sound : u.Sound) (room : ¬ u.Full) (c : Byte) : (u.put c).Sound where
  w_lt := mod_lt _ (by decide)
  r_lt := sound.r_lt
  hand := sound.hand
  stream := by
    rw [contents_put sound.w_lt sound.r_lt room]
    simp [Ring.put, sound.stream]

theorem Sound.take (sound : u.Sound) (waits : u.w ≠ u.r) (free : u.hand = []) :
    u.take.Sound where
  w_lt := sound.w_lt
  r_lt := mod_lt _ (by decide)
  hand := le_rfl
  stream := by
    have stream := sound.stream
    rw [contents_take sound.w_lt sound.r_lt waits, free] at stream
    simpa [Ring.take] using stream

theorem Sound.send (sound : u.Sound) : u.send.Sound where
  w_lt := sound.w_lt
  r_lt := sound.r_lt
  hand := zero_le _
  stream := by
    rw [Ring.send, List.append_nil]
    exact sound.stream

end Ring

/-- What a thread does in the driver. -/
inductive Code where
  | idle
  /-- In `uartputc(c)`, before it has found room. -/
  | putting (c : Byte)
  | starting
  /-- Before the call of `wakeup(&uart_tx_r)`. -/
  | taken
  /-- Before `WriteReg(THR, c)`. -/
  | sending
deriving DecidableEq

/-- `uartstart` has a byte in hand. -/
def Code.InHand : Code → Prop
  | .taken | .sending => True
  | _ => False

variable {Chan Cpu : Type*} {n : Nat}

/-- One statement of a thread in the driver, with where it is afterwards. -/
inductive Moves (u : Ring) : Thread n Cpu → Code → Action Ring Chan n Cpu → Code → Prop
  | uartputc (p : Fin n) (c : Byte) : Moves u (.proc p) .idle (.enter (.proc p)) (.putting c)
  | wait (p : Fin n) (c : Byte) : Moves u (.proc p) (.putting c) (.sleep p) (.putting c)
  | put (p : Fin n) (c : Byte) (room : ¬ u.Full) :
      Moves u (.proc p) (.putting c) (.use (.proc p) (u.put c)) .starting
  | uartintr (cpu : Cpu) : Moves u (.interrupt cpu) .idle (.enter (.interrupt cpu)) .starting
  /-- The ring is not empty and `LSR` says that the UART is idle. -/
  | take (t : Thread n Cpu) (waits : u.w ≠ u.r) :
      Moves u t .starting (.change t u.take) .taken
  | wakeup (t : Thread n Cpu) : Moves u t .taken (.wakeup t) .sending
  | send (t : Thread n Cpu) : Moves u t .sending (.use t u.send) .starting
  /-- The ring is empty, or `LSR` says that the UART is busy, which it may be at any time. -/
  | leave (t : Thread n Cpu) : Moves u t .starting (.leave t) .idle

/-- The machine and where each thread is in the driver. -/
structure State (Chan : Type*) (n : Nat) (Cpu : Type*) where
  machine : Wakeup.State Ring Chan n Cpu
  code : Thread n Cpu → Code

/-- What `uartputc` waits for. -/
def Room (u : Ring) : Prop := ¬ u.Full

/-- The ring is empty and nobody uses it. -/
structure Initial (s : State Chan n Cpu) : Prop where
  machine : Wakeup.Initial s.machine
  ring : ∃ buf, s.machine.shared = ⟨buf, 0, 0, [], [], []⟩
  idle : ∀ t, s.code t = .idle

/-- A byte in hand is in the hand of a thread that has `uart_tx_lock`. -/
structure Inv (chan : Chan) (s : State Chan n Cpu) : Prop where
  attended : Attended Room chan s.machine
  sound : s.machine.shared.Sound
  scans : ∀ t, (s.code t).InHand → (s.machine.pc t).Scans
  owner : s.machine.shared.hand ≠ [] → ∃ t, (s.code t).InHand

variable {chan : Chan} {s : State Chan n Cpu}

theorem Initial.inv (initial : Initial s) : Inv chan s := by
  obtain ⟨buf, ring⟩ := initial.ring
  refine ⟨initial.machine.attended, ?_, fun t theirs => ?_, fun full => ?_⟩
  · rw [ring]
    refine ⟨zero_lt_succ _, zero_lt_succ _, zero_le _, ?_⟩
    simp [Ring.contents, Ring.count]
  · rw [initial.idle t] at theirs
    exact theirs.elim
  · rw [ring] at full
    exact absurd rfl full

theorem Inv.held (inv : Inv chan s) (full : s.machine.shared.hand ≠ []) :
    ∃ t, (s.code t).InHand ∧ s.machine.lk = some t := by
  obtain ⟨t, mine⟩ := inv.owner full
  have scans := inv.scans t mine
  refine ⟨t, mine, inv.attended.lk t ?_⟩
  cases there : s.machine.pc t <;> rw [there] at scans <;> trivial

variable [DecidableEq Chan] [DecidableEq Cpu]

/-- Every interleaving: a statement of a thread in the driver, or something else. -/
def uartSystem (chan : Chan) :
    System (State Chan n Cpu) (Action Ring Chan n Cpu × Option (Thread n Cpu × Code)) where
  Enabled s action := Wakeup.Enabled Room chan s.machine action.1 ∧
    match action.2 with
    | some (t, code) => Moves s.machine.shared t (s.code t) action.1 code
    | none => Neutral action.1
  next s action :=
    { machine := Wakeup.next chan s.machine action.1
      code := match action.2 with
        | some (t, code) => update s.code t code
        | none => s.code }

variable {t : Thread n Cpu} {later : Code} {action : Action Ring Chan n Cpu}

theorem Moves.others {u : Ring} {m : Wakeup.State Ring Chan n Cpu} {code : Code}
    (moves : Moves u t code action later) {r : Thread n Cpu} (other : r ≠ t) :
    (next chan m action).pc r = m.pc r := by
  cases moves <;> simp [next, State.goto, other]

section Steps

variable (inv : Inv chan s) (enabled : Wakeup.Enabled Room chan s.machine action)
  (moves : Moves s.machine.shared t (s.code t) action later)
include inv enabled moves

/-- What a statement of the driver must respect. -/
theorem Inv.move (sound : (next chan s.machine action).shared.Sound)
    (scans : later.InHand → ((next chan s.machine action).pc t).Scans)
    (owner : (next chan s.machine action).shared.hand ≠ [] →
      later.InHand ∨ s.machine.shared.hand ≠ [] ∧ ¬ (s.code t).InHand) :
    Inv chan ⟨next chan s.machine action, update s.code t later⟩ := by
  refine ⟨inv.attended.next enabled, sound, fun r theirs => ?_, fun full => ?_⟩
  · rcases eq_or_ne r t with rfl | other
    · exact scans (by simpa using theirs)
    · rw [moves.others other]
      exact inv.scans r (by simpa [other] using theirs)
  · rcases owner full with mine | ⟨before, empty⟩
    · exact ⟨t, by simpa using mine⟩
    obtain ⟨r, theirs⟩ := inv.owner before
    have other : r ≠ t := by
      rintro rfl
      exact empty theirs
    exact ⟨r, by simpa [other] using theirs⟩

theorem Inv.step_moves : Inv chan ⟨next chan s.machine action, update s.code t later⟩ := by
  generalize before : s.code t = code at moves
  have moved := inv.move enabled (before ▸ moves)
  rw [before] at moved
  cases moves with
  | put p c room => exact moved (inv.sound.put room c) False.elim fun full => .inr ⟨full, id⟩
  | take t waits =>
    -- A byte in hand would be in the hand of another thread, but this one has the lock.
    have free : s.machine.shared.hand = [] := by
      by_contra full
      obtain ⟨r, theirs, held⟩ := inv.held full
      obtain ⟨changed, here⟩ := enabled.2
      have mine := inv.attended.lk t (by rw [here]; trivial)
      rw [Option.mem_unique held mine, before] at theirs
      exact theirs
    refine moved (inv.sound.take waits free) (fun _ => ?_) fun _ => .inl trivial
    simp [next, State.goto, Pc.Scans]
  | wakeup t =>
    refine moved inv.sound (fun _ => ?_) fun _ => .inl trivial
    simp [next, State.goto, Pc.Scans]
  | send t => exact moved inv.sound.send False.elim (absurd rfl)
  | _ => exact moved inv.sound False.elim fun full => .inr ⟨full, id⟩

end Steps

theorem Inv.next (inv : Inv chan s) {action : Action Ring Chan n Cpu × Option (Thread n Cpu × Code)}
    (enabled : (uartSystem chan).Enabled s action) :
    Inv chan ((uartSystem chan).next s action) := by
  obtain ⟨action, mover⟩ := action
  obtain ⟨allowed, program⟩ := enabled
  cases mover with
  | some mover => exact inv.step_moves allowed program
  | none =>
    have same : (Wakeup.next chan s.machine action).shared = _ := shared_of_neutral program
    refine ⟨inv.attended.next allowed, ?_, fun t theirs => ?_, ?_⟩
    · exact same ▸ inv.sound
    · exact scans_of_neutral program allowed (inv.scans t theirs)
    · exact same ▸ inv.owner

/-- The ring is a queue: what was written is the beginning of what was stored, and the rest is in
the ring, but for a byte that the holder of `uart_tx_lock` may have in hand. -/
structure Fifo (chan : Chan) (m : Wakeup.State Ring Chan n Cpu) : Prop where
  sound : m.shared.Sound
  written : m.shared.thr <+: m.shared.stored
  rest : m.lk = none → m.shared.stored = m.shared.thr ++ m.shared.contents
  few : m.shared.contents.length ≤ uartTxBufSize - 1
  asleep : m.lk = none → ∀ p, SleepsOn chan m p → m.shared.Full

theorem uart_fifo {start : State Chan n Cpu} (initial : Initial start)
    (run : (uartSystem chan).Reaches start s) : Fifo chan s.machine := by
  have inv : Inv chan s := run.invariant (fun _ _ inv enabled => inv.next enabled) initial.inv
  have stream := inv.sound.stream
  refine ⟨inv.sound, ?_, fun free => ?_, ?_, fun free p asleep => ?_⟩
  · rw [stream, List.append_assoc]
    exact List.prefix_append ..
  · suffices nobody : s.machine.shared.hand = [] by rw [stream, nobody, List.append_nil]
    by_contra full
    obtain ⟨t, -, held⟩ := inv.held full
    rw [free] at held
    cases held
  · rw [Ring.contents, List.length_map, List.length_range]
    exact le_pred_of_lt (mod_lt _ (by decide))
  · exact not_not.mp (inv.attended.unmet free asleep)

/-- One process runs, outside the driver. -/
def ringState (u : Ring) : State Unit 1 Unit where
  machine :=
    { shared := u
      lk := none
      lock := fun _ => none
      state := fun _ => .running
      chan := fun _ => none
      killed := fun _ => false
      pc
        | .scheduler _ => .switched 0
        | _ => .outside }
  code _ := .idle

/-- The ring after this many bytes, while the UART is busy. -/
def filled : Nat → Ring
  | 0 => ⟨fun _ => 0, 0, 0, [], [], []⟩
  | k + 1 => (filled k).put (.ofNat 8 k)

theorem filled_indices (k : Nat) : (filled k).w = k % uartTxBufSize ∧ (filled k).r = 0 := by
  induction k with
  | zero => exact ⟨rfl, rfl⟩
  | succ k ih => exact ⟨by simp [filled, Ring.put, ih.1], ih.2⟩

def writer : Thread 1 Unit := .proc 0

/-- The next call of `uartputc`. -/
def putNext (k : Nat) : List (Action Ring Unit 1 Unit × Option (Thread 1 Unit × Code)) :=
  [(.enter writer, some (writer, .putting (.ofNat 8 k))), (.step writer, none),
    (.use writer (filled (k + 1)), some (writer, .starting)),
    (.leave writer, some (writer, .idle))]

theorem filled_reaches (k : Nat) (few : k < uartTxBufSize) :
    (uartSystem ()).Reaches (ringState (filled 0)) (ringState (filled k)) := by
  induction k with
  | zero => exact .refl _
  | succ k ih =>
    obtain ⟨w, r⟩ := filled_indices k
    have room : ¬ (filled k).Full := by
      rw [Ring.Full, w, r, mod_add_mod, mod_eq_of_lt few]
      omega
    have runs : ∃ c, (ringState (filled k)).machine.pc (.scheduler c) = .switched 0 := ⟨(), rfl⟩
    have put : (uartSystem ()).Schedules (ringState (filled k)) (putNext k) :=
      ⟨⟨⟨runs, rfl⟩, .uartputc ..⟩, ⟨⟨runs, rfl⟩, trivial⟩,
        ⟨⟨runs, ⟨false, rfl⟩, fun _ => room⟩, .put 0 _ room⟩, ⟨⟨runs, rfl⟩, .leave _⟩, trivial⟩
    suffices same : (putNext k).foldl (uartSystem ()).next (ringState (filled k)) =
        ringState (filled (k + 1)) by
      rw [← same]
      exact (ih (by omega)).trans put.reaches
    -- the writer is back where it was
    refine congrArg₂ State.mk (congrArg (Wakeup.State.mk _ _ _ _ _ _) (funext fun t => ?_))
      (funext fun t => ?_) <;>
    · rcases t with p | c | c
      · rw [Subsingleton.elim p 0]
        rfl
      all_goals rfl

/-- It finds the ring full and sleeps until an interrupt has sent the first byte. -/
def woken : List (Action Ring Unit 1 Unit × Option (Thread 1 Unit × Code)) :=
  let i : Thread 1 Unit := .interrupt ()
  let u := filled 31
  List.flatten [[(.enter writer, some (writer, .putting 31)), (.step writer, none),
        (.sleep 0, some (writer, .putting 31))],
      List.replicate 4 (.step writer, none),
      [(.swtch 0 (), none), (.step (.scheduler ()), none), (.enter i, some (i, .starting)),
        (.step i, none), (.change i u.take, some (i, .taken)), (.wakeup i, some (i, .sending))],
      List.replicate 4 (.step i, none),
      [(.use i u.take.send, some (i, .starting)), (.leave i, some (i, .idle)),
        (.pick () 0, none), (.look (), none)],
      List.replicate 3 (.step writer, none),
      [(.use writer (u.take.send.put 31), some (writer, .starting)),
        (.leave writer, some (writer, .idle))]]

def sentState : State Unit 1 Unit := woken.foldl (uartSystem ()).next (ringState (filled 31))

theorem woken_run : (uartSystem ()).Reaches (ringState (filled 31)) sentState := by
  have room : ¬ (filled 31).take.send.Full := Nat.zero_ne_one
  apply System.Schedules.reaches
  repeat' apply And.intro
  all_goals first
    | rfl
    | trivial
    | exact ⟨_, rfl⟩
    | exact ⟨(), rfl⟩
    | exact .inr ⟨_, rfl⟩
    | exact fun _ => rfl
    | exact fun full => full rfl
    | exact id
    | exact fun _ => room
    | exact Moves.put _ _ room
    | exact Moves.take _ (by decide)
    | constructor

theorem uart_fifo_woken : Fifo () sentState.machine ∧ sentState.machine.shared.thr = [0] ∧
    sentState.machine.shared.stored = (List.range 32).map (.ofNat 8) := by
  have run := (filled_reaches 31 (by decide)).trans woken_run
  refine ⟨uart_fifo ⟨?_, ⟨_, rfl⟩, fun _ => rfl⟩ run, rfl, by decide⟩
  exact ⟨rfl, fun _ => rfl, fun _ => by simp [ringState], fun _ => .inl rfl, fun _ => rfl,
    fun _ => .inr ⟨0, rfl⟩⟩

end OsLab.Transmit
