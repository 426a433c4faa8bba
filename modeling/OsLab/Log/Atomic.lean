import OsLab.Log.GroupCommit
import OsLab.Log.Recovery

/-!
# Operations and crashes

No operation is split by a crash: what recovery leaves is what the disk was to hold at a moment of
the run at which no operation was open.
-/

namespace OsLab.Log

open Prog List

variable {Pid : Type*}

/-- The headers of the commits in a history, the oldest first. -/
def commits : List (Event Pid) → List (List Nat)
  | [] => []
  | .committed header :: past => commits past ++ [header]
  | _ :: past => commits past

/-- The moment after one of the commits, or before all of them. -/
theorem WellGrouped.exists_moment {history : List (Event Pid)} (grouped : WellGrouped history)
    {count : Nat} (within : count ≤ (commits history).length) :
    ∃ older, older <:+ history ∧ (commits older).length = count ∧ ∀ p, ¬ OpenIn p older := by
  induction history with
  | nil => exact ⟨[], suffix_refl _, (Nat.le_zero.mp within).symm, fun _ => id⟩
  | cons event past ih =>
    by_cases before : count ≤ (commits past).length
    · obtain ⟨older, suffix, counted, calm⟩ := ih grouped.tail before
      exact ⟨older, suffix.trans (suffix_cons ..), counted, calm⟩
    cases event with
    | committed header =>
      simp only [commits, length_append, length_singleton] at within
      refine ⟨_, suffix_refl _, ?_, grouped.1.2.2⟩
      simp only [commits, length_append, length_singleton]
      omega
    | _ => exact absurd within before

variable [DecidableEq Pid] [Fintype Pid]

/-- After a crash anywhere in the commits of a run, recovery leaves what the operations up to some
moment have logged, and no operation was open then. -/
theorem operations_atomic {start s : State Pid} (ready : Ready start)
    (run : (logSystem Pid).Reaches start s) (room : 1 ≤ s.log.size)
    (txs : List (Transaction s.log.start s.log.size))
    (listed : txs.map (fun tx => tx.lh.entries) = commits s.history) (disk : Disk)
    (empty : (onDisk s.log.start disk).n = 0) (count : Nat) (cuts : List Nat) :
    ∃ older, older <:+ s.history ∧ (∀ p, ¬ OpenIn p older) ∧
      Committed txs count (commits older).length ∧
      Clean s.log.start s.log.size ((recoverFromLog s.log.start).run
          (cutRecoveries s.log.start cuts (cut count (commitAll txs) disk))).2
        (applyAll (txs.take (commits older).length) disk) := by
  have clean : Clean s.log.start s.log.size disk disk := ⟨empty, fun _ _ => rfl⟩
  obtain ⟨applied, committed, recoverable⟩ := clean.cut_commitAll room txs count
  have within : applied ≤ (commits s.history).length := by
    rw [← listed, length_map]
    exact committed.within
  obtain ⟨older, suffix, rfl, calm⟩ := (Sound.of_run ready run).core.grouped.exists_moment within
  exact ⟨older, suffix, calm, committed, (recoverable.cut_recoveries cuts).run_recover⟩

/-- An operation that logs a block, up to the header of its commit. -/
def oneOperation : List (Action (Fin 1)) :=
  [.beginCall 0, .beginTry 0, .logCall 0 45, .logLocked 0, .endOp 0, .commitStart 0, .commitHead 0]

theorem operations_atomic_oneOperation :
    ∃ older, older <:+ (oneOperation.foldl next (initlog (Fin 1) 1 2 logSize)).history ∧
      (∀ p, ¬ OpenIn p older) ∧ Committed [oneBlock] 2 (commits older).length := by
  have run : (logSystem (Fin 1)).Schedules (initlog (Fin 1) 1 2 logSize) oneOperation := by decide
  obtain ⟨older, suffix, calm, committed, -⟩ := operations_atomic (initlog_ready ..) run.reaches
    (by decide) [oneBlock] (by decide) (fun _ _ => 0) (by decide) 2 [1]
  exact ⟨older, suffix, calm, committed⟩

end OsLab.Log
