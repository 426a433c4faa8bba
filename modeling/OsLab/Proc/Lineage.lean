import OsLab.Proc.Reports

/-!
# The process tree

The history of a run orders the processes by their creation, and the parent of a process is its
creator or `init`.  So the parents lead from every process to `init`.
-/

namespace OsLab.Sched

open List

variable {Cpu : Type*} [DecidableEq Cpu] {s t : State Cpu} {x : Pslot}

/-- Whoever has created a process is `init` or was created before it. -/
def Lineage (history : List Event) : Prop :=
  ∀ child creator earlier, .forked child creator :: earlier <:+ history →
    creator = Proc.init.birth ∨ ∃ elder, .forked creator elder ∈ earlier

theorem Lineage.cons {history : List Event} (lineage : Lineage history) {e : Event}
    (known : ∀ child creator, e = .forked child creator →
      creator = Proc.init.birth ∨ ∃ elder, .forked creator elder ∈ history) :
    Lineage (e :: history) := by
  intro child creator earlier suffix
  rcases suffix_cons_iff.mp suffix with same | older
  · cases same
    exact known child creator rfl
  · exact lineage child creator earlier older

theorem Lineage.effect (lineage : Lineage s.history) (recorded : Recorded s) {c : Cpu}
    {outcome : Bool} {op : Op} {result : Option op.Res}
    (done : effect s c outcome op = (t, result))
    (adopts : ∀ np q, op = .adopt np q → (s.proc q).state ≠ .unused) : Lineage t.history := by
  cases op with
  | adopt np q =>
    cases done
    refine lineage.cons fun child creator same => ?_
    rw [← (Event.forked.inj same).2]
    rcases eq_or_ne q initproc with rfl | notInit
    · exact .inl recorded.initBirth
    · exact .inr ⟨_, recorded.forked q (recorded.rooted q notInit (adopts np q rfl))⟩
  | reap | die =>
    cases done
    exact lineage.cons (by simp)
  | _ =>
    simp only [Sched.effect] at done
    repeat' split at done
    all_goals
      cases done
      exact lineage

theorem Tracked.lineage_next (tracked : Tracked s) (lineage : Lineage s.history)
    {action : Action Cpu} (enabled : (schedSystem Cpu).Enabled s action) :
    Lineage ((schedSystem Cpu).next s action).history := by
  obtain ⟨⟨⟨view, pass, good⟩, -⟩, recorded, -⟩ := tracked
  refine next_cases (P := (Lineage ·.history)) enabled (fun c p outcome _ here _ => ?_)
    (fun c outcome resting _ => ?_) (fun c p request _ _ => ?_) fun _ _ _ _ => lineage
  · have thread := good.machine.runs c p here
    have meets := thread.code
    simp only [stepProc]
    split
    · exact lineage
    rename_i op rest code
    rw [code] at meets
    have adopts : ∀ np q, op = .adopt np q → (s.proc q).state ≠ .unused := by
      rintro np q rfl
      rw [meets.1.1]
      exact thread.state ▸ thread.used
    split <;> exact (lineage.effect recorded ‹_› adopts :)
  · rcases good.stepLoop_table resting outcome with same | ⟨p, -, same⟩ <;> rw [same.history] <;>
      exact lineage
  · cases request with
    | exit status => exact lineage.cons (by simp)
    | _ => exact lineage

omit [DecidableEq Cpu] in
theorem Recorded.creator_eq (recorded : Recorded s) {creator : Nat}
    (known : .forked (s.proc x).birth creator ∈ s.history) (child : (s.proc x).parent ≠ none) :
    creator = (s.proc x).creator := by
  have created := recorded.forked x child
  have fresh := recorded.fresh
  obtain ⟨newer, older, split⟩ := append_of_mem known
  rw [split] at created fresh
  rcases mem_append.mp created with later | here
  · obtain ⟨last, middle, rfl⟩ := append_of_mem later
    have new := fresh (.forked (s.proc x).birth (s.proc x).creator)
      (middle ++ .forked (s.proc x).birth creator :: older) ⟨last, by simp⟩
    exact absurd (by simp) (new creator)
  · rcases mem_cons.mp here with same | before
    · exact (Event.forked.inj same).2.symm
    · exact absurd before (fresh _ older ⟨newer, rfl⟩ _)

/-- The parents of a process lead to `init`. -/
def Descends (s : State Cpu) (x : Pslot) : Prop :=
  Relation.ReflTransGen (fun child parent => (s.proc child).parent = some parent) x initproc

/-- The processes are a tree with `init` as its root. -/
theorem descends_from_init (run : (schedSystem Cpu).Reaches (boot Cpu) s)
    (used : (s.proc x).state ≠ .unused) : Descends s x := by
  obtain ⟨⟨⟨⟨view, pass, good⟩, -⟩, recorded, -⟩, lineage⟩ := run.invariant
    (P := fun s => Tracked s ∧ Lineage s.history)
    (fun _ _ both enabled => ⟨tracked_next both.1 enabled, both.1.lineage_next both.2 enabled⟩)
    ⟨tracked_boot, fun _ _ _ suffix => by simpa [boot] using suffix.length_le⟩
  -- by induction on the history up to the creation of the process
  have older : ∀ history, history <:+ s.history → ∀ x creator, (s.proc x).state ≠ .unused →
      .forked (s.proc x).birth creator ∈ history → Descends s x := by
    intro history
    induction history with
    | nil => simp
    | cons e earlier ih =>
      intro suffix x creator used created
      have shorter : earlier <:+ s.history := (suffix_cons ..).trans suffix
      rcases mem_cons.mp created with rfl | before
      · rcases eq_or_ne x initproc with rfl | notInit
        · exact .refl
        obtain ⟨q, parent⟩ := Option.ne_none_iff_exists'.mp (recorded.rooted x notInit used)
        have first := recorded.creator_eq (suffix.subset created) (by simp [parent])
        refine .head parent ?_
        rcases recorded.kin x q parent with own | ⟨rfl, -⟩
        · have live : (s.proc q).state ≠ .unused := fun unused =>
            good.table.childless q (.inl unused) x parent
          rcases lineage _ _ _ suffix with ofInit | ⟨elder, before⟩
          · rw [first, ← own, ← recorded.initBirth] at ofInit
            rw [(recorded.distinct q initproc ofInit).resolve_left (recorded.used q live)]
          · exact ih shorter q elder live (by rwa [own, ← first])
        · exact .refl
      · exact ih shorter x creator used before
  rcases eq_or_ne x initproc with rfl | notInit
  · exact .refl
  · exact older s.history (suffix_refl _) x _ used
      (recorded.forked x (recorded.rooted x notInit used))

theorem descends_from_init_grandchild :
    Descends (forkedAndWaiting.foldl (schedSystem (Fin 2)).next (boot (Fin 2))) ⟨2, by decide⟩ := by
  have run : (schedSystem (Fin 2)).Schedules (boot (Fin 2)) forkedAndWaiting := by decide +kernel
  exact descends_from_init run.reaches (by decide +kernel)

end OsLab.Sched
