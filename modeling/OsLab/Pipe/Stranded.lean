import OsLab.Pipe.Model

/-!
# Sleeping readers and writers of a pipe

A reader should sleep only while the pipe is empty and its write end open, a writer only while the
pipe is full and its read end open.  Every path through the two loops issues the matching wakeup
except one: a killed writer that fills the pipe returns at once.
-/

namespace OsLab.Pipe

section Updates

variable {Pid : Type*} [DecidableEq Pid]

@[simp] theorem modify_pipe (s : State Pid) (p : Pid) (change : Proc → Proc) :
    (s.modify p change).pipe = s.pipe := rfl

@[simp] theorem modify_procs_same (s : State Pid) (p : Pid) (change : Proc → Proc) :
    (s.modify p change).procs p = change (s.procs p) := by
  simp [State.modify]

theorem modify_procs_ne (s : State Pid) {p q : Pid} (change : Proc → Proc) (other : q ≠ p) :
    (s.modify p change).procs q = s.procs q := by
  simp [State.modify, other]

omit [DecidableEq Pid] in
@[simp] theorem wakeup_pipe (s : State Pid) (chan : Chan) : (s.wakeup chan).pipe = s.pipe := rfl

omit [DecidableEq Pid] in
@[simp] theorem wakeup_procs (s : State Pid) (chan : Chan) (q : Pid) :
    (s.wakeup chan).procs q = (s.procs q).wakeup chan := rfl

end Updates

namespace Proc

@[simp] theorem wakeup_sleepsOn (woken chan : Chan) (proc : Proc) :
    (proc.wakeup woken).SleepsOn chan ↔ proc.SleepsOn chan ∧ woken ≠ chan := by
  by_cases asleep : proc.SleepsOn woken
  · rw [Proc.wakeup, if_pos asleep]
    constructor
    · rintro ⟨awake, -⟩
      simp at awake
    · rintro ⟨sleeps, distinct⟩
      exact absurd (Option.mem_unique asleep.2 sleeps.2) distinct
  · rw [Proc.wakeup, if_neg asleep]
    refine ⟨fun sleeps => ⟨sleeps, ?_⟩, And.left⟩
    rintro rfl
    exact asleep sleeps

section

variable (chan : Chan) (proc : Proc)

@[simp] theorem wakeup_call : (proc.wakeup chan).call = proc.call := by
  unfold Proc.wakeup
  split <;> rfl

@[simp] theorem wakeup_readFd : (proc.wakeup chan).readFd = proc.readFd := by
  unfold Proc.wakeup
  split <;> rfl

@[simp] theorem wakeup_writeFd : (proc.wakeup chan).writeFd = proc.writeFd := by
  unfold Proc.wakeup
  split <;> rfl

@[simp] theorem leave_sleepsOn : proc.leave.SleepsOn chan ↔ proc.SleepsOn chan := .rfl

@[simp] theorem not_resume_sleepsOn : ¬ proc.resume.SleepsOn chan := by
  simp [resume, SleepsOn]

end

@[simp] theorem sleep_sleepsOn (proc : Proc) (chan other : Chan) (call : Call) :
    (proc.sleep chan call).SleepsOn other ↔ chan = other := by
  simp [Proc.sleep, SleepsOn]

@[simp] theorem not_kill_sleepsOn (chan : Chan) (proc : Proc) : ¬ proc.kill.SleepsOn chan := by
  unfold Proc.kill SleepsOn
  split <;> simp_all

end Proc

theorem not_full_of_empty {pi : Pipe} (empty : pi.Empty) : ¬ pi.Full := by
  unfold Empty at empty
  unfold Full pipeSize
  rw [empty]
  bv_omega

/-- `pi` is `before` with `stored` more bytes, none of which was stored into a full pipe. -/
structure Stored (before pi : Pipe) (stored : Nat) : Prop where
  nread : pi.nread = before.nread
  nwrite : pi.nwrite = before.nwrite + .ofNat 32 stored
  readopen : pi.readopen = before.readopen
  writeopen : pi.writeopen = before.writeopen
  room : ∀ k < stored, before.nwrite + .ofNat 32 k ≠ before.nread + .ofNat 32 pipeSize

theorem Stored.zero (pi : Pipe) : Stored pi pi 0 where
  nread := rfl
  nwrite := by simp
  readopen := rfl
  writeopen := rfl
  room := by simp

theorem Stored.succ {before pi : Pipe} {stored : Nat} {ch : Byte} (room : ¬ before.Full)
    (later : Stored (before.put ch) pi stored) : Stored before pi (stored + 1) where
  nread := later.nread
  nwrite := by
    rw [later.nwrite]
    simp only [put]
    bv_omega
  readopen := later.readopen
  writeopen := later.writeopen
  room := by
    intro k k_lt
    cases k with
    | zero => simpa [Full] using room
    | succ k =>
      have earlier := later.room k (by omega)
      simp only [put] at earlier
      intro equality
      apply earlier
      rw [← equality]
      bv_omega

section

variable {before pi : Pipe} {stored : Nat} (grown : Stored before pi stored) (empty : before.Empty)
include grown empty

/-- From an empty pipe the first full moment comes after exactly `PIPESIZE` bytes. -/
theorem Stored.eq_pipeSize (full : pi.Full) : stored = pipeSize := by
  have counts : BitVec.ofNat 32 stored = BitVec.ofNat 32 pipeSize := by
    have equality := full
    unfold Full at equality
    rw [grown.nwrite, grown.nread, empty] at equality
    exact add_left_cancel equality
  rcases Nat.lt_trichotomy stored pipeSize with short | same | long
  · exfalso
    unfold pipeSize at *
    have values := congrArg BitVec.toNat counts
    simp only [BitVec.toNat_ofNat] at values
    omega
  · exact same
  · exact absurd (by rw [empty]) (grown.room pipeSize long)

theorem Stored.le_pipeSize : stored ≤ pipeSize := by
  by_contra exceeds
  exact grown.room pipeSize (by omega) (by rw [empty])

end

theorem Stored.full_of_eq {before pi : Pipe} (grown : Stored before pi pipeSize)
    (empty : before.Empty) : pi.Full := by
  unfold Full
  rw [grown.nwrite, grown.nread, empty]

section Tenure

variable {Pid : Type*} [DecidableEq Pid]

/-- How the loop of `pipewrite` can end: with the final wakeup, asleep on a full pipe, or by the
early return that wakes nobody. -/
inductive WriteEnd (p : Pid) (n : Int) (copyin : Memory) (remaining i : Nat)
    (s : State Pid) : State Pid → Prop
  | finished (pi : Pipe) (stored : Nat) :
      Stored s.pipe pi stored →
      stored = remaining ∨ copyin (i + stored) = none ∧ ¬ pi.Full →
      WriteEnd p n copyin remaining i s
        ((({ s with pipe := pi } : State Pid).wakeup .nread).modify p Proc.leave)
  | slept (pi : Pipe) (stored : Nat) :
      Stored s.pipe pi stored → pi.Full → pi.readopen = true → (s.procs p).killed = false →
      WriteEnd p n copyin remaining i s
        ((({ s with pipe := pi } : State Pid).wakeup .nread).modify p
          (·.sleep .nwrite (.pipewrite (i + stored) n)))
  | abandoned (pi : Pipe) (stored : Nat) :
      Stored s.pipe pi stored → pi.Full → stored < remaining →
      (∀ k < stored, (copyin (i + k)).isSome) →
      pi.readopen = false ∨ (s.procs p).killed = true →
      WriteEnd p n copyin remaining i s (({ s with pipe := pi } : State Pid).modify p Proc.leave)

theorem pipewriteLoop_end (p : Pid) (n : Int) (copyin : Memory) (remaining i : Nat)
    (s : State Pid) :
    WriteEnd p n copyin remaining i s (pipewriteLoop p n copyin remaining i s).1 := by
  induction remaining generalizing i s with
  | zero => exact .finished s.pipe 0 (.zero _) (.inl rfl)
  | succ remaining ih =>
    unfold pipewriteLoop
    by_cases full : s.pipe.Full
    · by_cases early : s.pipe.readopen = false ∨ (s.procs p).killed = true
      · simp only [full, early, if_true]
        exact .abandoned s.pipe 0 (.zero _) full (by omega) (by simp) early
      · simp only [full, early, if_true, if_false]
        simp only [not_or, Bool.not_eq_false, Bool.not_eq_true] at early
        exact .slept s.pipe 0 (.zero _) full early.1 early.2
    · simp only [full, if_false]
      cases byte : copyin i with
      | none => exact .finished s.pipe 0 (.zero _) (.inr ⟨byte, full⟩)
      | some ch =>
        -- one byte is stored; the rest of the loop runs from the longer pipe
        have rest := ih (i + 1) { s with pipe := s.pipe.put ch }
        generalize (pipewriteLoop p n copyin remaining (i + 1)
          { s with pipe := s.pipe.put ch }).1 = result at rest
        have shift : ∀ k, i + 1 + k = i + (k + 1) := fun k => by omega
        cases rest with
        | finished pi stored grown why =>
          refine .finished pi (stored + 1) (.succ full grown) ?_
          rw [shift] at why
          exact why.imp (by omega) id
        | slept pi stored grown isFull isOpen alive =>
          rw [shift]
          exact .slept pi (stored + 1) (.succ full grown) isFull isOpen alive
        | abandoned pi stored grown isFull short copied why =>
          refine .abandoned pi (stored + 1) (.succ full grown) isFull (by omega) ?_ why
          intro k k_lt
          cases k with
          | zero => simp [byte]
          | succ k =>
            rw [← shift]
            exact copied k (by omega)

theorem pipereadLoop_open (copyout : Nat → Bool) (remaining i : Nat) (pi : Pipe) :
    (pipereadLoop copyout remaining i pi).1.readopen = pi.readopen ∧
      (pipereadLoop copyout remaining i pi).1.writeopen = pi.writeopen := by
  induction remaining generalizing i pi with
  | zero => exact ⟨rfl, rfl⟩
  | succ remaining ih =>
    unfold pipereadLoop
    split
    · exact ⟨rfl, rfl⟩
    · split
      · exact ih (i + 1) pi.take.2
      · exact ⟨rfl, rfl⟩

/-- How one tenure of `piperead` can end. -/
inductive ReadEnd (p : Pid) (n : Int) (s : State Pid) : State Pid → Prop
  | interrupted : s.pipe.Empty → s.pipe.writeopen = true →
      ReadEnd p n s ((s.modify p Proc.resume).modify p Proc.leave)
  | slept : s.pipe.Empty → s.pipe.writeopen = true →
      ReadEnd p n s ((s.modify p Proc.resume).modify p (·.sleep .nread (.piperead n)))
  | finished (pi : Pipe) : ¬ (s.pipe.Empty ∧ s.pipe.writeopen = true) →
      pi.readopen = s.pipe.readopen → pi.writeopen = s.pipe.writeopen →
      ReadEnd p n s
        ((({ s.modify p Proc.resume with pipe := pi } : State Pid).wakeup .nwrite).modify p
          Proc.leave)

theorem piperead_end (p : Pid) (n : Int) (copyout : Nat → Bool) (s : State Pid) :
    ReadEnd p n s (piperead p n copyout s).1 := by
  unfold piperead
  simp only [modify_pipe]
  by_cases waits : s.pipe.Empty ∧ s.pipe.writeopen = true
  · simp only [waits, and_self, if_true]
    split
    · exact .interrupted waits.1 waits.2
    · exact .slept waits.1 waits.2
  · simp only [waits, if_false]
    have kept := pipereadLoop_open copyout n.toNat 0 s.pipe
    exact .finished _ waits kept.1 kept.2

end Tenure

namespace Proc

/-- The process does not sleep on a channel whose condition to wait is over. -/
def Settled (pi : Pipe) (proc : Proc) : Prop :=
  (proc.SleepsOn .nread → pi.Empty ∧ pi.writeopen = true) ∧
    (proc.SleepsOn .nwrite → pi.Full ∧ pi.readopen = true)

/-- A process inside a call holds the descriptor it called through, and a held end is open. -/
structure Holds (pi : Pipe) (proc : Proc) : Prop where
  reading : ∀ n, proc.call = .piperead n → proc.readFd = true
  writing : ∀ i n, proc.call = .pipewrite i n → proc.writeFd = true
  readopen : proc.readFd = true → pi.readopen = true
  writeopen : proc.writeFd = true → pi.writeopen = true
  asleep : proc.SleepsOn .nread → ∃ n, proc.call = .piperead n

theorem Holds.congr {before after : Pipe} {proc : Proc} (holds : proc.Holds before)
    (readopen : after.readopen = before.readopen) (writeopen : after.writeopen = before.writeopen) :
    proc.Holds after where
  reading := holds.reading
  writing := holds.writing
  readopen held := readopen.trans (holds.readopen held)
  writeopen held := writeopen.trans (holds.writeopen held)
  asleep := holds.asleep

section

variable {pi : Pipe} {proc : Proc} (holds : proc.Holds pi)
include holds

theorem Holds.wakeup (chan : Chan) : (proc.wakeup chan).Holds pi where
  reading := by simpa using holds.reading
  writing := by simpa using holds.writing
  readopen := by simpa using holds.readopen
  writeopen := by simpa using holds.writeopen
  asleep sleeps := by
    rw [wakeup_call]
    exact holds.asleep ((wakeup_sleepsOn _ _ _).mp sleeps).1

theorem Holds.resume : proc.resume.Holds pi where
  reading := holds.reading
  writing := holds.writing
  readopen := holds.readopen
  writeopen := holds.writeopen
  asleep sleeps := absurd sleeps (not_resume_sleepsOn _ _)

theorem Holds.leave (awake : ¬ proc.SleepsOn .nread) : proc.leave.Holds pi where
  reading n reads := by simp [Proc.leave] at reads
  writing i n writes := by simp [Proc.leave] at writes
  readopen := holds.readopen
  writeopen := holds.writeopen
  asleep sleeps := absurd sleeps awake

end

@[simp] theorem wakeup_resume (chan : Chan) (proc : Proc) :
    proc.resume.wakeup chan = proc.resume := by
  rw [Proc.wakeup, if_neg (not_resume_sleepsOn _ _)]

end Proc

theorem Stored.full_of_full {before pi : Pipe} {stored : Nat} (grown : Stored before pi stored)
    (full : before.Full) : pi.Full := by
  cases stored with
  | zero =>
    have nwrite := grown.nwrite
    simp only [BitVec.add_zero] at nwrite
    rw [Full, nwrite, grown.nread]
    exact full
  | succ stored => exact absurd (by simpa [Full] using full) (grown.room 0 (by omega))

section Invariant

variable {Pid : Type*} [DecidableEq Pid]

/-- Nobody sleeps on a channel whose condition to wait is over. -/
def NoStranded (s : State Pid) : Prop := ∀ q, (s.procs q).Settled s.pipe

/-- What every step without a stranding keeps, process by process. -/
def Invariant (s : State Pid) : Prop :=
  ∀ q, (s.procs q).Settled s.pipe ∧ (s.procs q).Holds s.pipe

/-- The steps that strand a reader: a killed process fills the pipe in one tenure while some
process sleeps on `&pi->nread`. -/
def Abandons (s : State Pid) : Action Pid → Prop
  | .runWrite p copyin =>
    ∃ i n, (s.procs p).call = .pipewrite i n ∧ (s.procs p).killed = true ∧
      (pipeSize : Int) < n - i ∧ (∀ k < pipeSize, (copyin (i + k)).isSome) ∧
      ∃ q, (s.procs q).SleepsOn .nread
  | _ => False

variable {s : State Pid} {p : Pid} {action : Action Pid} {n : Int}

theorem invariant_modify {change : Proc → Proc}
    (self : (change (s.procs p)).Settled s.pipe ∧ (change (s.procs p)).Holds s.pipe)
    (others : ∀ q, q ≠ p → (s.procs q).Settled s.pipe ∧ (s.procs q).Holds s.pipe) :
    Invariant (s.modify p change) := by
  intro q
  by_cases same : q = p
  · subst same
    simpa using self
  · rw [modify_procs_ne s change same, modify_pipe]
    exact others q same

theorem Proc.Settled.of_awake {pi : Pipe} {proc : Proc} (awake : ∀ chan, ¬ proc.SleepsOn chan) :
    proc.Settled pi :=
  ⟨fun sleeps => absurd sleeps (awake _), fun sleeps => absurd sleeps (awake _)⟩

omit [DecidableEq Pid] in
theorem Invariant.readopen_of_sleeps (inv : Invariant s) {q : Pid}
    (sleeps : (s.procs q).SleepsOn .nread) : s.pipe.readopen = true := by
  obtain ⟨n, reads⟩ := (inv q).2.asleep sleeps
  exact (inv q).2.readopen ((inv q).2.reading n reads)

theorem next_runWrite {copyin : Memory} {i : Nat} (call : (s.procs p).call = .pipewrite i n) :
    next s (.runWrite p copyin) = (pipewrite p i n copyin s).1 := by
  simp [next, call]

section

variable {s : State Pid} (inv : Invariant s) {copyin : Memory}
  (enabled : Enabled s (.runWrite p copyin))
include inv enabled

/-- The step of a writer that does not abandon a reader keeps the invariant. -/
theorem Invariant.runWrite (wakes : ¬ Abandons s (.runWrite p copyin)) :
    Invariant (next s (.runWrite p copyin)) := by
  obtain ⟨⟨i, n, call⟩, -⟩ := enabled
  rw [next_runWrite call, pipewrite]
  have outcome := pipewriteLoop_end p n copyin (n - i).toNat i (s.modify p Proc.resume)
  have self : (s.modify p Proc.resume).procs p = (s.procs p).resume := modify_procs_same _ _ _
  have held : (s.procs p).resume.Holds s.pipe := (inv p).2.resume
  generalize (pipewriteLoop p n copyin (n - i).toNat i (s.modify p Proc.resume)).1 = t at outcome
  cases outcome with
  | finished pi stored grown why =>
    apply invariant_modify
    · simp only [wakeup_procs, self, Proc.wakeup_resume, wakeup_pipe]
      exact ⟨.of_awake (by simp), (held.leave (by simp)).congr grown.readopen grown.writeopen⟩
    intro q other
    simp only [wakeup_procs, modify_procs_ne s _ other, wakeup_pipe]
    refine ⟨⟨fun sleeps => ?_, fun sleeps => ?_⟩,
      ((inv q).2.wakeup _).congr grown.readopen grown.writeopen⟩
    · simp at sleeps
    · rw [Proc.wakeup_sleepsOn] at sleeps
      obtain ⟨full, isOpen⟩ := (inv q).1.2 sleeps.1
      exact ⟨grown.full_of_full full, grown.readopen.trans isOpen⟩
  | slept pi stored grown full isOpen alive =>
    apply invariant_modify
    · simp only [wakeup_procs, self, Proc.wakeup_resume, wakeup_pipe]
      have asleep : ((s.procs p).resume.sleep .nwrite (.pipewrite (i + stored) n)).Holds
          s.pipe :=
        { reading := by simp [Proc.sleep]
          writing := fun _ _ _ => (inv p).2.writing i n call
          readopen := held.readopen
          writeopen := held.writeopen
          asleep := by simp }
      exact ⟨⟨by simp, fun _ => ⟨full, isOpen⟩⟩, asleep.congr grown.readopen grown.writeopen⟩
    · intro q other
      simp only [wakeup_procs, modify_procs_ne s _ other, wakeup_pipe]
      exact ⟨⟨by simp, fun _ => ⟨full, isOpen⟩⟩,
        ((inv q).2.wakeup _).congr grown.readopen grown.writeopen⟩
  | abandoned pi stored grown full short copied why =>
    -- a sleeping reader would mean an empty pipe at the start, which was then filled
    have no_reader : ∀ q, ¬ (s.procs q).SleepsOn .nread := by
      intro q sleeps
      have empty : s.pipe.Empty := ((inv q).1.1 sleeps).1
      have count : stored = pipeSize := grown.eq_pipeSize empty full
      have killed : (s.procs p).killed = true := by
        rcases why with closed | killed
        · rw [grown.readopen, modify_pipe, inv.readopen_of_sleeps sleeps] at closed
          exact absurd closed (by simp)
        · simpa [self, Proc.resume] using killed
      subst count
      exact wakes ⟨i, n, call, killed, by omega, copied, q, sleeps⟩
    apply invariant_modify
    · simp only [self]
      exact ⟨.of_awake (by simp), (held.leave (by simp)).congr grown.readopen grown.writeopen⟩
    · intro q other
      simp only [modify_procs_ne s _ other]
      refine ⟨⟨fun sleeps => absurd sleeps (no_reader q), fun sleeps => ?_⟩,
        (inv q).2.congr grown.readopen grown.writeopen⟩
      exact ⟨full, grown.readopen.trans ((inv q).1.2 sleeps).2⟩

/-- An abandoning step leaves its sleeping reader behind a full pipe. -/
theorem Invariant.stranded_of_abandons (abandons : Abandons s (.runWrite p copyin)) :
    ¬ NoStranded (next s (.runWrite p copyin)) := by
  obtain ⟨i, n, call, killed, many, copied, q, sleeps⟩ := abandons
  have empty : s.pipe.Empty := ((inv q).1.1 sleeps).1
  have other : q ≠ p := by
    rintro rfl
    exact enabled.2 sleeps.1
  rw [next_runWrite call, pipewrite]
  have outcome := pipewriteLoop_end p n copyin (n - i).toNat i (s.modify p Proc.resume)
  generalize (pipewriteLoop p n copyin (n - i).toNat i (s.modify p Proc.resume)).1 = t at outcome
  cases outcome with
  | finished pi stored grown why =>
    exfalso
    have bound : stored ≤ pipeSize := grown.le_pipeSize empty
    rcases why with all | ⟨failed, notFull⟩
    · omega
    rcases lt_or_ge stored pipeSize with short | long
    · simpa [failed] using copied stored short
    · obtain rfl : stored = pipeSize := by omega
      exact notFull (grown.full_of_eq empty)
  | slept pi stored grown full isOpen alive =>
    simp [Proc.resume, killed] at alive
  | abandoned pi stored grown full short copied why =>
    intro settled
    have nread := (settled q).1
    rw [modify_procs_ne _ _ other, modify_procs_ne s _ other] at nread
    exact not_full_of_empty (nread sleeps).1 full

end

theorem Invariant.runRead (inv : Invariant s) {copyout : Nat → Bool}
    (enabled : Enabled s (.runRead p copyout)) : Invariant (next s (.runRead p copyout)) := by
  obtain ⟨⟨n, call⟩, -⟩ := enabled
  have step : next s (.runRead p copyout) = (piperead p n copyout s).1 := by
    simp [next, call]
  rw [step]
  have outcome := piperead_end p n copyout s
  have self : (s.modify p Proc.resume).procs p = (s.procs p).resume := modify_procs_same _ _ _
  have held : (s.procs p).resume.Holds s.pipe := (inv p).2.resume
  generalize (piperead p n copyout s).1 = t at outcome
  cases outcome with
  | interrupted empty isOpen =>
    apply invariant_modify
    · rw [self]
      exact ⟨.of_awake (by simp), held.leave (by simp)⟩
    · intro q other
      rw [modify_procs_ne s _ other]
      exact inv q
  | slept empty isOpen =>
    apply invariant_modify
    · rw [self]
      refine ⟨⟨fun _ => ⟨empty, isOpen⟩, by simp⟩, ?_⟩
      exact
        { reading := fun _ _ => (inv p).2.reading n call
          writing := by simp [Proc.sleep]
          readopen := held.readopen
          writeopen := held.writeopen
          asleep := fun _ => ⟨n, rfl⟩ }
    · intro q other
      rw [modify_procs_ne s _ other]
      exact inv q
  | finished pi proceeds readopen writeopen =>
    apply invariant_modify
    · simp only [wakeup_procs, self, Proc.wakeup_resume, wakeup_pipe]
      exact ⟨.of_awake (by simp), (held.leave (by simp)).congr readopen writeopen⟩
    · intro q other
      simp only [wakeup_procs, modify_procs_ne s _ other, wakeup_pipe]
      refine ⟨⟨fun sleeps => ?_, by simp⟩, ((inv q).2.wakeup _).congr readopen writeopen⟩
      rw [Proc.wakeup_sleepsOn] at sleeps
      exact absurd ((inv q).1.1 sleeps.1) proceeds

theorem Proc.Holds.awake_of_user {pi : Pipe} {proc : Proc} (holds : proc.Holds pi)
    (user : proc.call = .user) : ¬ proc.SleepsOn .nread := by
  intro sleeps
  obtain ⟨n, reads⟩ := holds.asleep sleeps
  simp [user] at reads

theorem Invariant.enterWrite (inv : Invariant s) (enabled : Enabled s (.enterWrite p n)) :
    Invariant (next s (.enterWrite p n)) := by
  obtain ⟨user, fd⟩ := enabled
  refine invariant_modify ⟨(inv p).1, ?_⟩ fun q _ => inv q
  exact
    { reading := by simp
      writing := fun _ _ _ => fd
      readopen := (inv p).2.readopen
      writeopen := (inv p).2.writeopen
      asleep := fun sleeps => absurd sleeps ((inv p).2.awake_of_user user) }

theorem Invariant.enterRead (inv : Invariant s) (enabled : Enabled s (.enterRead p n)) :
    Invariant (next s (.enterRead p n)) := by
  obtain ⟨user, fd⟩ := enabled
  refine invariant_modify ⟨(inv p).1, ?_⟩ fun q _ => inv q
  exact
    { reading := fun _ _ => fd
      writing := by simp
      readopen := (inv p).2.readopen
      writeopen := (inv p).2.writeopen
      asleep := fun sleeps => absurd sleeps ((inv p).2.awake_of_user user) }

theorem Proc.Holds.dropFd {pi : Pipe} {proc : Proc} (holds : proc.Holds pi)
    (user : proc.call = .user) (writable : Bool) : (proc.dropFd writable).Holds pi := by
  have awake := holds.awake_of_user user
  cases writable
  · exact
      { reading := by simp [Proc.dropFd, user]
        writing := by simp [Proc.dropFd, user]
        readopen := by simp [Proc.dropFd]
        writeopen := holds.writeopen
        asleep := fun sleeps => absurd sleeps awake }
  · exact
      { reading := by simp [Proc.dropFd, user]
        writing := by simp [Proc.dropFd, user]
        readopen := holds.readopen
        writeopen := by simp [Proc.dropFd]
        asleep := fun sleeps => absurd sleeps awake }

theorem Proc.dropFd_sleepsOn (writable : Bool) (proc : Proc) (chan : Chan) :
    (proc.dropFd writable).SleepsOn chan ↔ proc.SleepsOn chan := by
  cases writable <;> exact .rfl

theorem Proc.not_hasFd_dropFd (writable : Bool) (proc : Proc) :
    ¬ (proc.dropFd writable).HasFd writable := by
  cases writable <;> simp [Proc.dropFd, Proc.HasFd]

omit [DecidableEq Pid] in
theorem Invariant.free (inv : Invariant s) :
    Invariant (if s.pipe.readopen = false ∧ s.pipe.writeopen = false then
      { s with freed := true } else s) := by
  split <;> exact inv

section

variable {s : State Pid} (inv : Invariant s)
include inv

omit [DecidableEq Pid] in
/-- `pipeclose` of an end that no descriptor names any more. -/
theorem Invariant.pipeclose (writable : Bool) (unheld : ∀ q, ¬ (s.procs q).HasFd writable) :
    Invariant (pipeclose writable s) := by
  apply Invariant.free
  cases writable
  · intro q
    have noFd : (s.procs q).readFd = false := by
      simpa [Proc.HasFd] using unheld q
    simp only [Bool.false_eq_true, if_false, wakeup_pipe, wakeup_procs]
    refine ⟨⟨fun sleeps => ?_, by simp⟩, ?_⟩
    · rw [Proc.wakeup_sleepsOn] at sleeps
      exact (inv q).1.1 sleeps.1
    · exact { (inv q).2.wakeup .nwrite with readopen := by simp [noFd] }
  · intro q
    have noFd : (s.procs q).writeFd = false := by
      simpa [Proc.HasFd] using unheld q
    simp only [if_true, wakeup_pipe, wakeup_procs]
    refine ⟨⟨by simp, fun sleeps => ?_⟩, ?_⟩
    · rw [Proc.wakeup_sleepsOn] at sleeps
      exact (inv q).1.2 sleeps.1
    · exact { (inv q).2.wakeup .nread with writeopen := by simp [noFd] }

theorem Invariant.close {writable last : Bool} (enabled : Enabled s (.close p writable last)) :
    Invariant (next s (.close p writable last)) := by
  obtain ⟨user, -, isLast⟩ := enabled
  have dropped : Invariant (s.modify p (Proc.dropFd writable)) := by
    refine invariant_modify ⟨?_, (inv p).2.dropFd user writable⟩ fun q _ => inv q
    simpa [Proc.Settled, Proc.dropFd_sleepsOn] using (inv p).1
  simp only [next]
  split
  · refine dropped.pipeclose writable fun q => ?_
    by_cases same : q = p
    · subst same
      simpa using Proc.not_hasFd_dropFd writable (s.procs q)
    · rw [modify_procs_ne s _ same]
      exact isLast.mp ‹_› q same
  · exact dropped

theorem Invariant.fork (p q : Pid) : Invariant (next s (.fork p q)) := by
  refine invariant_modify ⟨.of_awake (by simp [Proc.SleepsOn]), ?_⟩ fun r _ => inv r
  exact
    { reading := by simp
      writing := by simp
      readopen := (inv p).2.readopen
      writeopen := (inv p).2.writeopen
      asleep := by simp [Proc.SleepsOn] }

theorem Invariant.kill (q : Pid) : Invariant (next s (.kill q)) := by
  refine invariant_modify ⟨.of_awake (by simp), ?_⟩ fun r _ => inv r
  exact
    { reading := (inv q).2.reading
      writing := (inv q).2.writing
      readopen := (inv q).2.readopen
      writeopen := (inv q).2.writeopen
      asleep := by simp }

theorem Invariant.step (enabled : Enabled s action) (wakes : ¬ Abandons s action) :
    Invariant (next s action) := by
  cases action with
  | enterWrite p n => exact inv.enterWrite enabled
  | enterRead p n => exact inv.enterRead enabled
  | runWrite p copyin => exact inv.runWrite enabled wakes
  | runRead p copyout => exact inv.runRead enabled
  | close p writable last => exact inv.close enabled
  | fork p q => exact inv.fork p q
  | kill q => exact inv.kill q

/-- From a state of the invariant, exactly the abandoning steps strand somebody. -/
theorem Invariant.noStranded_next_iff (enabled : Enabled s action) :
    NoStranded (next s action) ↔ ¬ Abandons s action := by
  refine ⟨fun settled abandons => ?_, fun wakes q => (inv.step enabled wakes q).1⟩
  cases action with
  | runWrite p copyin => exact inv.stranded_of_abandons enabled abandons settled
  | _ => exact abandons

end

omit [DecidableEq Pid] in
theorem Created.invariant {creator : Pid} (created : Created creator s) : Invariant s := by
  intro q
  refine ⟨.of_awake (created.awake q), ?_⟩
  exact
    { reading := by simp [created.user q]
      writing := by simp [created.user q]
      readopen := fun _ => created.readopen
      writeopen := fun _ => created.writeopen
      asleep := fun sleeps => absurd sleeps (created.awake q _) }

section

variable {creator : Pid} {start s : State Pid} (created : Created creator start)
  (run : ((pipeSystem Pid).restrict fun s action => ¬ Abandons s action).Reaches start s)
include created run

theorem Invariant.of_run : Invariant s :=
  run.invariant (fun _ _ inv enabled => inv.step enabled.1 enabled.2) created.invariant

/-- A run that comes to an abandoning step reaches a stranded process. -/
theorem reaches_stranded (enabled : Enabled s action) (abandons : Abandons s action) :
    ∃ t, (pipeSystem Pid).Reaches start t ∧ ¬ NoStranded t := by
  refine ⟨next s action, run.of_restrict.snoc action enabled, fun settled => ?_⟩
  exact ((Invariant.of_run created run).noStranded_next_iff enabled).mp settled abandons

end

/-- In every run in which no killed writer fills the pipe before a sleeping reader, nobody is
stranded, and the next step strands somebody exactly if it is such a step. -/
theorem noStranded_of_run {creator : Pid} {start s : State Pid} (created : Created creator start)
    (run : ((pipeSystem Pid).restrict fun s action => ¬ Abandons s action).Reaches start s) :
    NoStranded s ∧ ∀ action, Enabled s action →
      (NoStranded (next s action) ↔ ¬ Abandons s action) := by
  have inv : Invariant s := .of_run created run
  exact ⟨fun q => (inv q).1, fun _ enabled => inv.noStranded_next_iff enabled⟩

end Invariant

/-- Process 0 has created the pipe; the table has three slots. -/
def threeProcs : State (Fin 3) where
  pipe := ⟨fun _ => 5, 0, 0, true, true⟩
  procs p :=
    { state := .running, chan := none, killed := false, call := .user
      readFd := p = 0, writeFd := p = 0 }
  freed := false

theorem threeProcs_created : Created 0 threeProcs := by
  constructor <;> simp [threeProcs, Proc.SleepsOn]

/-- Process 1 sleeps in `read`, process 2 keeps the pipe open and process 0, killed, is about
to write 513 bytes. -/
def beforeStranding : List (Action (Fin 3)) :=
  [.fork 0 1, .fork 0 2, .enterRead 1 1, .runRead 1 fun _ => true, .enterWrite 0 513, .kill 0]

theorem beforeStranding_run :
    ((pipeSystem (Fin 3)).restrict fun s action => ¬ Abandons s action).Reaches
      threeProcs (beforeStranding.foldl next threeProcs) := by
  apply System.Schedules.reaches
  repeat' apply And.intro
  all_goals first
    | decide
    | exact id
    | exact ⟨1, by decide⟩
    | trivial

/-- With its reader asleep and its writer killed the pipe is still in order. -/
theorem noStranded_beforeStranding :
    ((beforeStranding.foldl next threeProcs).procs 1).SleepsOn .nread ∧
      NoStranded (beforeStranding.foldl next threeProcs) :=
  ⟨by decide, (noStranded_of_run threeProcs_created beforeStranding_run).1⟩

/-- The killed writer returns -1 from a full pipe and process 1 sleeps on. -/
theorem killed_writer_strands_reader :
    ¬ ∀ start s : State (Fin 3), Created 0 start → (pipeSystem (Fin 3)).Reaches start s →
      NoStranded s := by
  intro claim
  have enabled : Enabled (beforeStranding.foldl next threeProcs) (.runWrite 0 fun _ => some 7) :=
    ⟨⟨0, 513, by decide⟩, by decide⟩
  have abandons :
      Abandons (beforeStranding.foldl next threeProcs) (.runWrite 0 fun _ => some 7) :=
    ⟨0, 513, by decide, by decide, by simp [pipeSize], by simp, 1, by decide⟩
  obtain ⟨t, reached, stranded⟩ :=
    reaches_stranded threeProcs_created beforeStranding_run enabled abandons
  exact stranded (claim threeProcs t threeProcs_created reached)

end OsLab.Pipe
