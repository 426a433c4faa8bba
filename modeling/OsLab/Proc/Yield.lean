import OsLab.Proc.Model

/-!
# Who runs after `sys_yield`

`sys_yield` prints the first runnable process of the table and gives up the CPU.  The pass of
`scheduler` had stopped at the caller: it goes on behind the caller's entry and starts again at
the front of the table only after that.
-/

namespace OsLab.Sched

open Function List Option

variable {proc : Pslot → Proc} {p q : Pslot}

def Runnable (proc : Pslot → Proc) (p : Pslot) : Prop := (proc p).state = .runnable

instance : Decidable (Runnable proc p) := inferInstanceAs (Decidable (_ = _))

/-- The entry at which code that only looks at the table meets its first runnable process. -/
def stopsAt {α : Type} (proc : Pslot → Proc) : Code α → Option Pslot
  | .call (.isRunnable p) rest =>
    if Runnable proc p then some p else stopsAt proc (rest false)
  | .call (.dispatch p) rest =>
    if Runnable proc p then some p else stopsAt proc (rest false)
  | .call (.acquire _) rest => stopsAt proc (rest ())
  | .call (.release _) rest => stopsAt proc (rest ())
  | .call .idle rest => stopsAt proc (rest ())
  | _ => none

/-- The process that `sys_yield` prints as the next one. -/
def announced (proc : Pslot → Proc) : Option Pslot :=
  stopsAt proc (sysYieldFrom (List.finRange nproc))

/-- `p->state = RUNNABLE` in `sys_yield`. -/
def yielded (proc : Pslot → Proc) (p : Pslot) : Pslot → Proc :=
  update proc p { proc p with state := .runnable }

/-- The entries behind a process in the table. -/
def behind (p : Pslot) : List Pslot := (List.finRange nproc).drop (p + 1)

/-- What `scheduler` does when the process it has run comes back: the rest of its pass. -/
def resumed (p : Pslot) : Code Unit := do
  op .idle
  release (.proc p)
  schedulerFrom (behind p)

/-- The process that `scheduler` switches to in at most so many passes over the table. -/
def switched (proc : Pslot → Proc) : (passes : Nat) → Option Pslot
  | 0 => none
  | passes + 1 =>
    match stopsAt proc scheduler with
    | some q => some q
    | none => switched proc passes

/-- The process that runs after `sys_yield` of a process. -/
def runsNext (proc : Pslot → Proc) (p : Pslot) (passes : Nat) : Option Pslot :=
  match stopsAt (yielded proc p) (resumed p) with
  | some q => some q
  | none => switched (yielded proc p) passes

/-- A loop that looks at one entry after the other stops at the first runnable one. -/
theorem stopsAt_loop {α : Type} {loop : List Pslot → Code α} (proc : Pslot → Proc)
    (done : stopsAt proc (loop []) = none) (step : ∀ p rest, stopsAt proc (loop (p :: rest)) =
      if Runnable proc p then some p else stopsAt proc (loop rest)) (entries : List Pslot) :
    stopsAt proc (loop entries) = entries.find? (Runnable proc ·) := by
  induction entries with
  | nil => exact done
  | cons p rest ih =>
    by_cases runnable : Runnable proc p
    · rw [List.find?_cons_of_pos (by simpa using runnable), step, if_pos runnable]
    · rw [List.find?_cons_of_neg (by simpa using runnable), step, if_neg runnable, ih]

theorem stopsAt_sysYieldFrom (proc : Pslot → Proc) (entries : List Pslot) :
    stopsAt proc (sysYieldFrom entries) = entries.find? (Runnable proc ·) :=
  stopsAt_loop proc rfl (fun _ _ => rfl) entries

theorem stopsAt_schedulerFrom (proc : Pslot → Proc) (entries : List Pslot) :
    stopsAt proc (schedulerFrom entries) = entries.find? (Runnable proc ·) :=
  stopsAt_loop proc rfl (fun _ _ => rfl) entries

/-- The entries in front of a process in the table. -/
def ahead (p : Pslot) : List Pslot := (List.finRange nproc).take p

theorem finRange_eq (p : Pslot) : List.finRange nproc = ahead p ++ p :: behind p := by
  have inside : p.val < (List.finRange nproc).length := by simp
  have here := drop_eq_getElem_cons inside
  rw [getElem_finRange] at here
  exact (take_append_drop p.val _).symm.trans (congrArg (ahead p ++ ·) here)

theorem mem_ahead : q ∈ ahead p ↔ q < p := by
  rw [ahead, mem_take_iff_getElem, Fin.lt_def]
  constructor
  · rintro ⟨i, inside, rfl⟩
    simp only [getElem_finRange, Fin.val_cast]
    omega
  · exact fun before => ⟨q, by simp [before], by simp⟩

theorem mem_behind : q ∈ behind p ↔ p < q := by
  have sorted : (ahead p ++ p :: behind p).Pairwise (· < ·) := by
    rw [← finRange_eq]
    simp [pairwise_iff_getElem]
  obtain ⟨-, sorted, -⟩ := pairwise_append.mp sorted
  refine ⟨(pairwise_cons.mp sorted).1 q, fun after => ?_⟩
  have mem := mem_finRange q
  rw [finRange_eq p, mem_append, mem_cons, mem_ahead] at mem
  exact (mem.resolve_left after.not_gt).resolve_left after.ne'

/-- The announcement prefers the entries in front of the caller. -/
theorem announced_eq (running : (proc p).state = .running) :
    announced proc =
      ((ahead p).find? (Runnable proc ·)).or ((behind p).find? (Runnable proc ·)) := by
  have caller : ¬ Runnable proc p := by simp [Runnable, running]
  rw [announced, stopsAt_sysYieldFrom, finRange_eq p, List.find?_append,
    List.find?_cons_of_neg (by simpa using caller)]

theorem find?_yielded {entries : List Pslot} (apart : p ∉ entries) :
    entries.find? (Runnable (yielded proc p) ·) = entries.find? (Runnable proc ·) := by
  refine List.find?_congr fun q inside => ?_
  have other : q ≠ p := ne_of_mem_of_not_mem inside apart
  exact decide_eq_decide.mpr (by simp only [Runnable, yielded, update_of_ne other])

/-- The scheduler prefers those behind the caller, and the caller comes last. -/
theorem runsNext_eq (passes : Nat) :
    runsNext proc p (passes + 1) =
      ((behind p).find? (Runnable proc ·)).or
        (((ahead p).find? (Runnable proc ·)).or (some p)) := by
  have first : stopsAt (yielded proc p) (resumed p) = (behind p).find? (Runnable proc ·) :=
    (stopsAt_schedulerFrom _ _).trans (find?_yielded (by simp [mem_behind]))
  have second : stopsAt (yielded proc p) scheduler =
      ((ahead p).find? (Runnable proc ·)).or (some p) := by
    rw [scheduler, stopsAt_schedulerFrom, finRange_eq p, List.find?_append,
      find?_yielded (by simp [mem_ahead]), List.find?_cons_of_pos (by simp [Runnable, yielded])]
  rw [runsNext, first, switched, second]
  cases (behind p).find? (Runnable proc ·) with
  | some q => rfl
  | none => cases (ahead p).find? (Runnable proc ·) <;> rfl

/-- What `sys_yield` prints is what runs next exactly if the runnable processes are not on both
sides of the caller; if it prints none, the caller goes on. -/
theorem sysYield_announces_next_iff (proc : Pslot → Proc) (p : Pslot)
    (running : (proc p).state = .running) (passes : Nat) :
    ((∀ q, announced proc = some q → runsNext proc p (passes + 1) = some q) ↔
      ∀ q r, q < p → p < r → Runnable proc q → ¬ Runnable proc r) ∧
    (announced proc = none → runsNext proc p (passes + 1) = some p) := by
  rw [announced_eq running, runsNext_eq]
  cases front : (ahead p).find? (Runnable proc ·) with
  | none =>
    have idle : ∀ q < p, ¬ Runnable proc q := by simpa [mem_ahead] using front
    refine ⟨⟨fun _ q r before _ runnable => absurd runnable (idle q before), ?_⟩, ?_⟩
    · rintro - q announces
      rw [none_or] at announces
      rw [announces, some_or]
    · intro silent
      rw [none_or] at silent
      rw [silent, none_or, none_or]
  | some a =>
    have before : a < p := mem_ahead.mp (mem_of_find?_eq_some front)
    have runnable : Runnable proc a := by simpa using List.find?_some front
    refine ⟨?_, by simp⟩
    cases back : (behind p).find? (Runnable proc ·) with
    | none =>
      have idle : ∀ r, p < r → ¬ Runnable proc r := by simpa [mem_behind] using back
      exact ⟨fun _ q r _ after _ => idle r after, by simp⟩
    | some b =>
      have after : p < b := mem_behind.mp (mem_of_find?_eq_some back)
      have other : Runnable proc b := by simpa using List.find?_some back
      refine ⟨fun agrees => ?_, fun apart => absurd other (apart a b before after runnable)⟩
      have same := agrees a rfl
      rw [some_or, some_inj] at same
      exact absurd (before.trans after) same.not_gt

/-- A table whose entry 1 runs, with the given entries runnable and no others used. -/
def sampleTable (runnable : List Nat) (p : Pslot) : Proc :=
  { Proc.unused with
    state := if p.val = 1 then .running else if p.val ∈ runnable then .runnable else .unused
    pid := .ofNat 32 (p + 1) }

theorem sysYield_announces_next_behind :
    announced (sampleTable [5]) = some ⟨5, by decide⟩ ∧
    runsNext (sampleTable [5]) ⟨1, by decide⟩ 1 = some ⟨5, by decide⟩ :=
  ⟨by decide +kernel,
    (sysYield_announces_next_iff (sampleTable [5]) ⟨1, by decide⟩ (by decide) 0).1.mpr
      (by decide +kernel) _ (by decide +kernel)⟩

/-- With runnable processes in the entries 0 and 2, the first is printed and the second runs. -/
theorem sysYield_announces_other :
    (sampleTable [0, 2] ⟨1, by decide⟩).state = .running ∧
    announced (sampleTable [0, 2]) = some ⟨0, by decide⟩ ∧
    runsNext (sampleTable [0, 2]) ⟨1, by decide⟩ 1 = some ⟨2, by decide⟩ := by
  decide +kernel

end OsLab.Sched
