import OsLab.Log.GroupCommit

/-!
# Waiting for the log

`begin_op` sleeps while a commit runs or while its reservation does not fit.  Log space comes
back in two places: an operation that ends gives up its reservation, and a commit empties the
header.  Both issue a wakeup before they release `log.lock`, so every sleeper has a reason.
-/

namespace OsLab

theorem LogHeader.n_le_record (lh : LogHeader) (b : Nat) : lh.n ≤ (lh.record b).n := by
  unfold LogHeader.record
  dsimp only
  split <;> omega

namespace Log

/-- More entries and more operations leave less room. -/
theorem Crowded.mono {before after : Log} (crowded : before.Crowded)
    (entries : before.lh.n ≤ after.lh.n) (operations : before.outstanding ≤ after.outstanding) :
    after.Crowded := by
  unfold Crowded maxOpBlocks at *
  omega

/-- One operation always fits into an empty log. -/
theorem not_crowded_of_empty {log : Log} (idle : log.outstanding = 0) (empty : log.lh.n = 0) :
    ¬ log.Crowded := by
  simp [Crowded, idle, empty, logSize, maxOpBlocks]

theorem Phase.wakeup_ne_waiting (phase : Phase) : phase.wakeup ≠ .waiting := by
  cases phase <;> simp [Phase.wakeup]

section Waiting

variable {Pid : Type*} [DecidableEq Pid] {s : State Pid}

/-- Every sleeper has a reason to sleep, and an idle log is empty. -/
structure Caused (s : State Pid) : Prop where
  asleep : ∀ q, s.phase q = .waiting → s.log.committing = true ∨ s.log.Crowded
  settled : s.log.outstanding = 0 → s.log.committing = false → s.log.lh.n = 0

omit [DecidableEq Pid] in
theorem Caused.of_le {t : State Pid} (caused : Caused s)
    (sleepers : ∀ q, t.phase q = .waiting → s.phase q = .waiting)
    (committing : t.log.committing = s.log.committing) (entries : s.log.lh.n ≤ t.log.lh.n)
    (operations : s.log.outstanding ≤ t.log.outstanding)
    (settled : t.log.outstanding = 0 → t.log.committing = false → t.log.lh.n = 0) : Caused t := by
  refine ⟨fun q waiting => ?_, settled⟩
  rcases caused.asleep q (sleepers q waiting) with running | crowded
  · exact .inl (committing.trans running)
  · exact .inr (crowded.mono entries operations)

section

variable (caused : Caused s) (p : Pid)
include caused p

theorem Caused.move (phase : Phase) (awake : phase ≠ .waiting) : Caused (s.move p phase) := by
  refine caused.of_le (fun q waiting => ?_) rfl le_rfl le_rfl caused.settled
  rcases eq_or_ne q p with rfl | other
  · simp [State.move] at waiting
    exact absurd waiting awake
  · simpa [State.move, other] using waiting

theorem Caused.sleep (reason : s.log.committing = true ∨ s.log.Crowded) :
    Caused (s.move p .waiting) := by
  refine ⟨fun q waiting => ?_, caused.settled⟩
  rcases eq_or_ne q p with rfl | other
  · exact reason
  · exact caused.asleep q (by simpa [State.move, other] using waiting)

theorem Caused.beginOp (started : 0 ≤ s.log.outstanding) : Caused (beginOp s p) := by
  unfold Log.beginOp
  split
  · rename_i running
    exact caused.sleep p (.inl running)
  split
  · rename_i crowded
    exact caused.sleep p (.inr crowded)
  have begun : Caused
      { s with log := { s.log with outstanding := s.log.outstanding + 1 } } := by
    refine caused.of_le (fun q waiting => waiting) rfl le_rfl (by simp) fun idle _ => ?_
    dsimp only at idle
    omega
  have moved := begun.move p (.inside ∅) (by simp)
  exact ⟨moved.asleep, moved.settled⟩

theorem Caused.logRecord (b : Nat) (logged : Finset Nat) (inside : 0 < s.log.outstanding) :
    Caused (logRecord s p b logged) := by
  have recorded : Caused { s with log := { s.log with lh := s.log.lh.record b } } := by
    refine caused.of_le (fun q waiting => waiting) rfl (s.log.lh.n_le_record b) le_rfl
      fun idle _ => ?_
    dsimp only at idle
    omega
  have moved := recorded.move p (.inside (insert b logged)) (by simp)
  exact ⟨moved.asleep, moved.settled⟩

end

/-- The last operation starts a commit; every other one wakes all sleepers. -/
theorem Caused.endOp (p : Pid) (free : s.log.committing = false) : Caused (endOp s p) := by
  unfold Log.endOp
  dsimp only
  rw [if_neg (by simp [free])]
  split
  · exact ⟨fun _ _ => .inl rfl, fun _ free => by simp [State.record, State.move] at free⟩
  rename_i others
  refine ⟨fun q waiting => ?_, (absurd · others)⟩
  rcases eq_or_ne q p with rfl | other
  · simp [State.record, State.move] at waiting
  · simp only [State.record, State.move, Function.update_of_ne other, State.wakeup] at waiting
    exact absurd waiting (Phase.wakeup_ne_waiting _)

theorem Caused.commitDone (p : Pid) (empty : s.log.lh.n = 0) : Caused (commitDone s p) := by
  refine ⟨fun q waiting => ?_, fun _ _ => empty⟩
  rcases eq_or_ne q p with rfl | other
  · simp [Log.commitDone, State.move] at waiting
  · simp only [Log.commitDone, State.move, Function.update_of_ne other, State.wakeup] at waiting
    exact absurd waiting (Phase.wakeup_ne_waiting _)

variable [Fintype Pid]

omit [DecidableEq Pid] in
theorem Sound.outstanding_nonneg (sound : Sound s) : 0 ≤ s.log.outstanding := by
  rw [sound.core.counted]
  exact Finset.sum_nonneg fun q _ => Role.weight_nonneg _

omit [DecidableEq Pid] in
theorem Sound.outstanding_pos (sound : Sound s) {p : Pid} (active : (s.phase p).Active) :
    0 < s.log.outstanding :=
  sound.core.outstanding_pos ((Phase.active_role _).mpr active)

theorem Caused.step (caused : Caused s) (sound : Sound s) {action : Action Pid}
    (enabled : Enabled s action) : Caused (next s action) := by
  obtain ⟨-, there⟩ := enabled
  cases action with
  | beginCall p => exact caused.move p _ (by simp)
  | beginTry p => exact caused.beginOp p sound.outstanding_nonneg
  | kill p => exact caused.move p _ (Phase.wakeup_ne_waiting _)
  | logCall p b =>
    obtain ⟨logged, inside⟩ := there
    simp only [next, inside, logWriteChecks]
    split
    · exact ⟨caused.asleep, caused.settled⟩
    · split
      · exact ⟨caused.asleep, caused.settled⟩
      · exact caused.move p _ (by simp)
  | logLocked p =>
    obtain ⟨b, logged, logging⟩ := there
    have active : (s.phase p).Active := by rw [logging]; trivial
    simp only [next, logging, logWriteLocked]
    split
    · exact ⟨caused.asleep, caused.settled⟩
    · exact caused.logRecord p b logged (sound.outstanding_pos active)
  | endOp p =>
    obtain ⟨logged, inside⟩ := there
    exact .endOp p (sound.not_committing (p := p) (by rw [inside]; trivial))
  | commitStart p =>
    simp only [next, Log.commitStart]
    split
    · exact caused.move p _ (by simp)
    · have moved := caused.move p .cleared (by simp)
      exact ⟨moved.asleep, moved.settled⟩
  | commitHead p =>
    have moved := caused.move p .installing (by simp)
    exact ⟨moved.asleep, moved.settled⟩
  | commitClear p =>
    -- the commit itself is the reason until `commitDone` wakes everybody
    have running : s.log.committing = true :=
      sound.committing (p := p) (by rw [there]; trivial)
    exact ⟨fun _ _ => .inl running, fun _ _ => rfl⟩
  | commitDone p =>
    exact .commitDone p (sound.core.cleared p (by rw [there]; rfl))

omit [DecidableEq Pid] [Fintype Pid] in
theorem Ready.caused (ready : Ready s) : Caused s where
  asleep q waiting := by simp [ready.outside q] at waiting
  settled _ _ := ready.empty

/-- Whoever sleeps in `begin_op` waits for a running commit or for log space, and in an idle log
the header is empty and nobody sleeps. -/
theorem begin_op_sleeps_for_cause {start s : State Pid} (ready : Ready start)
    (run : (logSystem Pid).Reaches start s) :
    (∀ p, s.phase p = .waiting → (∃ q, (s.phase q).Commits) ∨
      (s.log.lh.n : Int) + (s.log.outstanding + 1) * maxOpBlocks > logSize) ∧
      (s.log.outstanding = 0 → (∀ q, ¬ (s.phase q).Commits) →
        s.log.lh.n = 0 ∧ ∀ p, s.phase p ≠ .waiting) := by
  have both : Sound s ∧ Caused s :=
    run.invariant (P := fun s => Sound s ∧ Caused s)
      (fun _ _ holds enabled => ⟨holds.1.step enabled, holds.2.step holds.1 enabled⟩)
      ⟨ready.sound, ready.caused⟩
  obtain ⟨sound, caused⟩ := both
  have running : s.log.committing = true → ∃ q, (s.phase q).Commits := fun set =>
    (sound.core.committed set).imp fun q commits => (Phase.commits_role _).mp commits
  refine ⟨fun p waiting => (caused.asleep p waiting).imp_left running, fun idle nobody => ?_⟩
  have free : s.log.committing = false := by
    by_contra set
    obtain ⟨q, commits⟩ := running (by simpa using set)
    exact nobody q commits
  have empty := caused.settled idle free
  refine ⟨empty, fun p waiting => ?_⟩
  rcases caused.asleep p waiting with set | crowded
  · simp [free] at set
  · exact not_crowded_of_empty idle empty crowded

end Waiting

/-- Three operations are open and a fourth process goes to sleep. -/
def fourthWaits : List (Action (Fin 4)) :=
  [.beginCall 0, .beginTry 0, .beginCall 1, .beginTry 1, .beginCall 2, .beginTry 2,
    .beginCall 3, .beginTry 3]

/-- The fourth process sleeps for want of space, the only reason it can have there. -/
theorem begin_op_sleeps_for_cause_fourthWaits :
    (fourthWaits.foldl next (initlog (Fin 4) 1 2 30)).phase 3 = .waiting ∧
      (fourthWaits.foldl next (initlog (Fin 4) 1 2 30)).log.Crowded := by
  have run : (logSystem (Fin 4)).Reaches (initlog (Fin 4) 1 2 30)
      (fourthWaits.foldl next (initlog (Fin 4) 1 2 30)) := by
    apply System.Schedules.reaches
    decide
  have asleep : (fourthWaits.foldl next (initlog (Fin 4) 1 2 30)).phase 3 = .waiting := by
    decide
  refine ⟨asleep, ?_⟩
  have caused := (begin_op_sleeps_for_cause (initlog_ready (Fin 4) 1 2 30) run).1 3 asleep
  rcases caused with commits | crowded
  · exact absurd commits (by decide)
  · exact crowded

end Log

end OsLab
