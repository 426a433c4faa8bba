import OsLab.Log.GroupCommit

/-!
# Log space

`begin_op` reserves `MAXOPBLOCKS` entries out of `LOGSIZE` for each operation, so the header array
never overflows.  The log that `mkfs` lays out has one block less than that for data, and
`log_write` refuses before it looks for an entry to share, so the panic is reachable.
-/

namespace OsLab.Log

open Function Finset

/-- The entries still reserved for an open operation. -/
def Role.reserve : Role → Nat
  | .active logged => maxOpBlocks - logged.card
  | _ => 0

@[simp] theorem Role.reserve_active (logged : Finset Nat) :
    (Role.active logged).reserve = maxOpBlocks - logged.card := rfl

theorem Role.reserve_le (role : Role) : (role.reserve : Int) ≤ role.weight * maxOpBlocks := by
  cases role <;> simp [reserve, weight]

section Reserved

variable {Pid : Type*} [Fintype Pid]

/-- What the header holds and what the open operations may still add fits in the array. -/
structure Reserved (s : State Pid) : Prop where
  fits : s.log.lh.n + ∑ q, (s.phase q).role.reserve ≤ logSize
  bounded : ∀ p b logged, s.phase p = .logging b logged → (insert b logged).card ≤ maxOpBlocks

/-- Each operation logs at most `MAXOPBLOCKS` distinct blocks. -/
def Bounded (s : State Pid) : Action Pid → Prop
  | .logCall p b => ∀ logged, s.phase p = .inside logged → (insert b logged).card ≤ maxOpBlocks
  | _ => True

/-- `log_write` is called while fewer than `log.size - 1` distinct blocks have been logged since
the last commit. -/
def Roomy (s : State Pid) : Action Pid → Prop
  | .logCall _ _ => (loggedSince s.history).toFinset.card + 1 < s.log.size
  | _ => True

variable {s : State Pid}

/-- The reservations never exceed what `begin_op` counts for the open operations. -/
theorem reserve_le_outstanding (sound : Sound s) :
    ((∑ q, (s.phase q).role.reserve : Nat) : Int) ≤ s.log.outstanding * maxOpBlocks := by
  rw [sound.core.counted, sum_mul]
  push_cast
  exact sum_le_sum fun q _ => (s.phase q).role.reserve_le

/-- In an open operation the header has as many entries as distinct blocks were logged. -/
theorem card_loggedSince (sound : Sound s) {p : Pid} (active : (s.phase p).role.Active) :
    (loggedSince s.history).toFinset.card = s.log.lh.n := by
  have calm : ∀ q, (s.phase q).role ≠ .installing := fun q installs =>
    sound.core.ne_commits active q (by simp [installs, Role.Commits])
  have same : (loggedSince s.history).toFinset = s.log.lh.entries.toFinset := by
    ext b
    rw [List.mem_toFinset, List.mem_toFinset, sound.core.gathered calm b]
  rw [same, List.toFinset_card_of_nodup sound.core.distinct, LogHeader.length_entries]

variable [DecidableEq Pid]

omit [Fintype Pid] in
theorem State.move_phase_cases (s : State Pid) (p q : Pid) (phase : Phase) :
    (s.move p phase).phase q = phase ∧ q = p ∨ (s.move p phase).phase q = s.phase q := by
  rcases eq_or_ne q p with rfl | other
  · exact .inl ⟨by simp [State.move], rfl⟩
  · exact .inr (by simp [State.move, other])

theorem reserve_move (s : State Pid) (p : Pid) (phase : Phase) :
    ∑ q, ((s.move p phase).phase q).role.reserve + (s.phase p).role.reserve =
      ∑ q, (s.phase q).role.reserve + phase.role.reserve := by
  have total := sum_update_add Role.reserve (fun q => (s.phase q).role) p phase.role
  rwa [← role_move] at total

theorem Reserved.of_move {s t : State Pid} (reserved : Reserved s) (p : Pid) (phase : Phase)
    (moved : t.phase = (s.move p phase).phase) (quiet : ∀ b logged, phase ≠ .logging b logged)
    (fits : t.log.lh.n + phase.role.reserve ≤ s.log.lh.n + (s.phase p).role.reserve) :
    Reserved t := by
  have total := reserve_move s p phase
  have old := reserved.fits
  refine ⟨?_, fun q b logged logging => ?_⟩
  · rw [moved]
    omega
  · rw [moved] at logging
    rcases s.move_phase_cases p q phase with ⟨here, -⟩ | there
    · exact absurd (here.symm.trans logging) (quiet b logged)
    · exact reserved.bounded q b logged (there.symm.trans logging)

section

variable {s : State Pid} (reserved : Reserved s)
include reserved

omit [DecidableEq Pid] in
theorem Reserved.wakeup : Reserved s.wakeup where
  fits := by simpa [State.wakeup] using reserved.fits
  bounded p b logged logging := by
    refine reserved.bounded p b logged ?_
    cases phase : s.phase p <;> simp_all [State.wakeup, Phase.wakeup]

variable {p : Pid}

theorem Reserved.beginOp (sound : Sound s) (starting : s.phase p = .starting) :
    Reserved (beginOp s p) := by
  have idle : (s.phase p).role.reserve = 0 := by rw [starting]; rfl
  unfold Log.beginOp
  split
  · exact reserved.of_move p .waiting rfl (by simp) (by rw [idle]; exact le_rfl)
  split
  · exact reserved.of_move p .waiting rfl (by simp) (by rw [idle]; exact le_rfl)
  rename_i crowded
  have total := reserve_move s p (.inside ∅)
  have counted := reserve_le_outstanding sound
  simp only [Crowded, not_lt, gt_iff_lt] at crowded
  have added : (Phase.inside ∅).role.reserve = maxOpBlocks := rfl
  refine ⟨?_, fun q b logged logging => ?_⟩
  · have same : ∑ q, ((s.move p (.inside ∅)).phase q).role.reserve =
        ∑ q, (s.phase q).role.reserve + maxOpBlocks := by omega
    change s.log.lh.n + ∑ q, ((s.move p (.inside ∅)).phase q).role.reserve ≤ logSize
    rw [same]
    have expand : (s.log.outstanding + 1) * (maxOpBlocks : Int) =
        s.log.outstanding * maxOpBlocks + maxOpBlocks := by ring
    rw [expand] at crowded
    omega
  · rcases s.move_phase_cases p q (.inside ∅) with ⟨here, -⟩ | there
    · exact absurd (here.symm.trans logging) (by simp)
    · exact reserved.bounded q b logged (there.symm.trans logging)

/-- `log_write` uses one reserved entry for a new block and none for an absorbed one. -/
theorem Reserved.logWriteLocked (sound : Sound s) {b : Nat} {logged : Finset Nat}
    (logging : s.phase p = .logging b logged) :
    s.log.lh.find b < logSize ∧ Reserved (logWriteLocked s p b logged) := by
  have active : (s.phase p).role = .active logged := by rw [logging]; rfl
  have bound := reserved.bounded p b logged logging
  have room : (s.phase p).role.reserve ≤ ∑ q, (s.phase q).role.reserve :=
    single_le_sum (f := fun q => (s.phase q).role.reserve) (fun _ _ => Nat.zero_le _) (mem_univ p)
  have fits := reserved.fits
  rw [active, Role.reserve_active] at room
  suffices fine : s.log.lh.find b < logSize ∧ (logRecord s p b logged).log.lh.n +
      (Phase.inside (insert b logged)).role.reserve ≤ s.log.lh.n + (s.phase p).role.reserve by
    rw [Log.logWriteLocked, if_neg fine.1.not_ge]
    exact ⟨fine.1, reserved.of_move p _ rfl (by simp) fine.2⟩
  by_cases member : b ∈ s.log.lh.entries
  · have found : s.log.lh.find b < s.log.lh.n := by
      rw [LogHeader.find, ← s.log.lh.length_entries]
      exact List.idxOf_lt_length_iff.mpr member
    refine ⟨by omega, ?_⟩
    have grows : logged.card ≤ (insert b logged).card :=
      card_le_card (subset_insert b logged)
    rw [active]
    simp only [logRecord, State.record, State.move, LogHeader.record_of_mem member, Phase.role,
      Role.reserve_active]
    omega
  · have fresh : b ∉ logged := fun old =>
      member (sound.core.own p b (by simpa [active, Role.blocks] using old))
    rw [card_insert_of_notMem fresh] at bound
    have found : s.log.lh.find b = s.log.lh.n := (s.log.lh.find_eq_iff b).mpr member
    refine ⟨by omega, ?_⟩
    rw [active]
    simp only [logRecord, State.record, State.move, LogHeader.record, found, if_true, Phase.role,
      Role.reserve_active, card_insert_of_notMem fresh]
    omega

theorem Reserved.endOp : Reserved (endOp s p) := by
  unfold Log.endOp
  dsimp only
  split
  · exact ⟨reserved.fits, reserved.bounded⟩
  · split
    · exact reserved.of_move p .committing rfl (by simp) (Nat.add_le_add_left (Nat.zero_le _) _)
    · exact reserved.wakeup.of_move p .outside rfl (by simp) (Nat.add_le_add_left (Nat.zero_le _) _)

/-- Every step of operations that keep to their bound keeps the reservations. -/
theorem Reserved.step (sound : Sound s) {action : Action Pid} (enabled : Enabled s action)
    (bounded : Bounded s action) : Reserved (next s action) := by
  obtain ⟨-, there⟩ := enabled
  cases action with
  | beginCall p =>
    exact reserved.of_move p .starting rfl (by simp) (Nat.add_le_add_left (Nat.zero_le _) _)
  | beginTry p => exact reserved.beginOp sound there
  | kill p =>
    refine ⟨?_, fun q b logged logging => ?_⟩
    · have total := reserve_move s p (s.phase p).wakeup
      rw [Phase.role_wakeup] at total
      have fits := reserved.fits
      change s.log.lh.n + ∑ q, ((s.move p (s.phase p).wakeup).phase q).role.reserve ≤ logSize
      omega
    · rcases s.move_phase_cases p q (s.phase p).wakeup with ⟨here, rfl⟩ | there
      · refine reserved.bounded q b logged ?_
        have woken := here.symm.trans logging
        cases phase : s.phase q <;> simp_all [Phase.wakeup]
      · exact reserved.bounded q b logged (there.symm.trans logging)
  | logCall p b =>
    obtain ⟨logged, inside⟩ := there
    simp only [next, inside, logWriteChecks]
    split
    · exact ⟨reserved.fits, reserved.bounded⟩
    split
    · exact ⟨reserved.fits, reserved.bounded⟩
    refine ⟨?_, fun q c old logging => ?_⟩
    · have total := reserve_move s p (.logging b logged)
      rw [inside] at total
      have fits := reserved.fits
      change s.log.lh.n + ∑ q, ((s.move p (.logging b logged)).phase q).role.reserve ≤ logSize
      simp only [Phase.role] at total fits ⊢
      omega
    · rcases s.move_phase_cases p q (.logging b logged) with ⟨here, -⟩ | there
      · obtain ⟨rfl, rfl⟩ : b = c ∧ logged = old := by
          simpa using here.symm.trans logging
        exact bounded logged inside
      · exact reserved.bounded q c old (there.symm.trans logging)
  | logLocked p =>
    obtain ⟨b, logged, logging⟩ := there
    simp only [next, logging]
    exact (reserved.logWriteLocked sound logging).2
  | endOp p => exact reserved.endOp
  | commitStart p =>
    simp only [next, commitStart]
    split
    · exact reserved.of_move p .writing rfl (by simp) (Nat.add_le_add_left (Nat.zero_le _) _)
    · exact reserved.of_move p .cleared rfl (by simp) (Nat.add_le_add_left (Nat.zero_le _) _)
  | commitHead p =>
    exact reserved.of_move p .installing rfl (by simp) (Nat.add_le_add_left (Nat.zero_le _) _)
  | commitClear p =>
    exact reserved.of_move p .cleared rfl (by simp) (Nat.zero_le _)
  | commitDone p =>
    exact reserved.wakeup.of_move p .outside rfl (by simp) (Nat.add_le_add_left (Nat.zero_le _) _)

end

omit [DecidableEq Pid] in
theorem Ready.reserved (ready : Ready s) : Reserved s where
  fits := by simp [ready.empty, ready.outside, Phase.role, Role.reserve]
  bounded p b logged logging := by simp [ready.outside p] at logging

variable {action : Action Pid}

/-- From an operation inside its bounds the only fault is the size check of `log_write`. -/
theorem fault_next (sound : Sound s) (reserved : Reserved s) (enabled : Enabled s action) :
    (next s action).fault = none ∨
      ∃ p b, action = .logCall p b ∧ s.log.TooBig ∧ (next s action).fault = some .tooBig := by
  obtain ⟨running, there⟩ := enabled
  cases action with
  | beginTry p =>
    left
    simp only [next, beginOp]
    split
    · exact running
    · split <;> exact running
  | logCall p b =>
    obtain ⟨logged, inside⟩ := there
    have active : (s.phase p).role.Active := by rw [inside]; trivial
    have counted := sound.core.outstanding_pos (p := p) active
    by_cases tooBig : s.log.TooBig
    · right
      exact ⟨p, b, rfl, tooBig, by simp [next, inside, logWriteChecks, tooBig, State.fail]⟩
    · left
      simp only [next, inside, logWriteChecks, tooBig, if_false]
      rw [if_neg (by omega)]
      exact running
  | logLocked p =>
    obtain ⟨b, logged, logging⟩ := there
    left
    have inBounds := (reserved.logWriteLocked sound logging).1
    simp only [next, logging, logWriteLocked]
    rw [if_neg (by omega)]
    exact running
  | endOp p =>
    obtain ⟨logged, inside⟩ := there
    left
    have active : (s.phase p).role.Active := by rw [inside]; trivial
    have free := sound.core.not_committing (p := p) active
    simp only [next, endOp]
    rw [if_neg (by simp [free])]
    split <;> exact running
  | commitStart p =>
    left
    simp only [next, commitStart]
    split <;> exact running
  | beginCall p => exact .inl running
  | kill p => exact .inl running
  | commitHead p => exact .inl running
  | commitClear p => exact .inl running
  | commitDone p => exact .inl running

/-- With the log of `mkfs`, a step faults exactly if it logs a block after `log.size - 1` distinct
ones. -/
theorem fault_next_iff (sound : Sound s) (reserved : Reserved s) (nlog : s.log.size = logSize)
    (enabled : Enabled s action) : (next s action).fault = none ↔ Roomy s action := by
  rcases fault_next sound reserved enabled with fine | ⟨p, b, rfl, tooBig, fault⟩
  · refine iff_of_true fine ?_
    cases action with
    | logCall p b =>
      obtain ⟨-, logged, inside⟩ := enabled
      have active : (s.phase p).role.Active := by rw [inside]; trivial
      have small : ¬ s.log.TooBig := by
        intro tooBig
        simp [next, inside, logWriteChecks, tooBig, State.fail] at fine
      rw [TooBig, not_or] at small
      rw [Roomy, card_loggedSince sound active]
      omega
    | _ => trivial
  · obtain ⟨-, logged, inside⟩ := enabled
    have active : (s.phase p).role.Active := by rw [inside]; trivial
    refine iff_of_false (by simp [fault]) ?_
    rw [Roomy, card_loggedSince sound active]
    rcases tooBig with full | full
    · omega
    · omega

/-- The invariants of a run whose operations keep to their bound. -/
structure Held (size : Nat) (s : State Pid) : Prop where
  sound : Sound s
  reserved : Reserved s
  size : s.log.size = size

theorem Held.step {size : Nat} (held : Held size s) (enabled : Enabled s action)
    (bounded : Bounded s action) : Held size (next s action) where
  sound := held.sound.step enabled
  reserved := held.reserved.step held.sound enabled bounded
  size := (geometry_next s action).2.1.trans held.size

omit [DecidableEq Pid] in
theorem Ready.held (ready : Ready s) : Held s.log.size s :=
  ⟨ready.sound, ready.reserved, rfl⟩

/-- A run of bounded operations never writes past the header array. -/
theorem not_outOfBounds {start s : State Pid} (ready : Ready start)
    (run : ((logSystem Pid).restrict Bounded).Reaches start s) : s.fault ≠ some .outOfBounds := by
  refine (run.invariant (P := fun s => Held start.log.size s ∧ s.fault ≠ some .outOfBounds) ?_
    ⟨ready.held, by simp [ready.fault]⟩).2
  rintro s action ⟨held, -⟩ ⟨enabled, bounded⟩
  refine ⟨held.step enabled bounded, ?_⟩
  rcases fault_next held.sound held.reserved enabled with fine | ⟨-, -, -, -, fault⟩
  · exact fun out => by simpa using fine.symm.trans out
  · exact fun out => by simpa using fault.symm.trans out

/-- A run of bounded operations with room at every `log_write` meets no fault. -/
theorem fault_of_roomy {start s : State Pid} (ready : Ready start) (nlog : start.log.size = logSize)
    (run : ((logSystem Pid).restrict fun s action => Bounded s action ∧ Roomy s action).Reaches
      start s) : Held logSize s ∧ s.fault = none := by
  refine run.invariant (P := fun s => Held logSize s ∧ s.fault = none) ?_
    ⟨nlog ▸ ready.held, ready.fault⟩
  rintro s action ⟨held, -⟩ ⟨enabled, bounded, roomy⟩
  exact ⟨held.step enabled bounded,
    (fault_next_iff held.sound held.reserved held.size enabled).mpr roomy⟩

/-- The header array never overflows; and `log_write` never panics in a run that calls it only
while fewer than `log.size - 1` distinct blocks have been logged since the last commit, and
panics at the first other call. -/
theorem reservation_suffices_iff {start : State Pid} (ready : Ready start)
    (nlog : start.log.size = logSize) :
    (∀ s, ((logSystem Pid).restrict Bounded).Reaches start s → s.fault ≠ some .outOfBounds) ∧
      ∀ s, ((logSystem Pid).restrict fun s action => Bounded s action ∧ Roomy s action).Reaches
          start s →
        s.fault = none ∧ ∀ action, Enabled s action →
          ((next s action).fault = none ↔ Roomy s action) := by
  refine ⟨fun s run => not_outOfBounds ready run, fun s run => ?_⟩
  obtain ⟨held, running⟩ := fault_of_roomy ready nlog run
  exact ⟨running, fun action enabled =>
    fault_next_iff held.sound held.reserved held.size enabled⟩

instance decidableBounded (s : State Pid) : (action : Action Pid) → Decidable (Bounded s action)
  | .logCall p b =>
    match inside : s.phase p with
    | .inside logged =>
      decidable_of_iff ((insert b logged).card ≤ maxOpBlocks) (by simp [Bounded, inside])
    | .outside | .starting | .waiting | .logging _ _ | .committing | .writing | .installing
    | .cleared => .isTrue (by simp [Bounded, inside])
  | .beginCall _ | .beginTry _ | .kill _ | .logLocked _ | .endOp _ | .commitStart _ | .commitHead _
  | .commitClear _ | .commitDone _ => .isTrue trivial

instance decidableRoomy (s : State Pid) : (action : Action Pid) → Decidable (Roomy s action)
  | .logCall _ _ => inferInstanceAs (Decidable (_ < _))
  | .beginCall _ | .beginTry _ | .kill _ | .logLocked _ | .endOp _ | .commitStart _ | .commitHead _
  | .commitClear _ | .commitDone _ => .isTrue trivial

end Reserved

/-- Three operations begun on the empty log that `mkfs` lays out. -/
def threeBegun : List (Action (Fin 3)) :=
  [.beginCall 0, .beginTry 0, .beginCall 1, .beginTry 1, .beginCall 2, .beginTry 2]

theorem threeBegun_run :
    ((logSystem (Fin 3)).restrict fun s action => Bounded s action ∧ Roomy s action).Reaches
      (initlog (Fin 3) 1 2 logSize) (threeBegun.foldl next (initlog (Fin 3) 1 2 logSize)) := by
  apply System.Schedules.reaches
  decide

/-- With three operations open and nothing logged, the next `log_write` goes through. -/
theorem reservation_suffices_threeBegun :
    (threeBegun.foldl next (initlog (Fin 3) 1 2 logSize)).log.outstanding = 3 ∧
      (next (threeBegun.foldl next (initlog (Fin 3) 1 2 logSize)) (.logCall 0 46)).fault =
        none := by
  refine ⟨by decide, ?_⟩
  refine ((reservation_suffices_iff (initlog_ready (Fin 3) 1 2 logSize) rfl).2 _
    threeBegun_run).2 (.logCall 0 46) ⟨rfl, ∅, by decide⟩ |>.mpr ?_
  rw [Roomy]
  decide

/-- The three operations log 29 blocks, and the third one calls `log_write` for its tenth. -/
def threeFilled : List (Action (Fin 3)) :=
  threeBegun ++ (List.range 29).flatMap (fun k =>
    [.logCall (.ofNat 3 (k / 10)) (46 + k), .logLocked (.ofNat 3 (k / 10))]) ++ [.logCall 2 75]

/-- Three operations of at most `MAXOPBLOCKS` blocks each reach the panic of `log_write`. -/
theorem three_operations_panic :
    ¬ ∀ start s : State (Fin 3), Ready start → start.log.size = logSize →
      ((logSystem (Fin 3)).restrict Bounded).Reaches start s →
        s.fault ≠ some .tooBig ∧ s.fault ≠ some .outOfBounds := by
  intro claim
  have run : ((logSystem (Fin 3)).restrict Bounded).Schedules (initlog (Fin 3) 1 2 logSize)
      threeFilled := by decide +kernel
  refine (claim _ _ (initlog_ready (Fin 3) 1 2 logSize) rfl run.reaches).1 ?_
  decide +kernel

end OsLab.Log
