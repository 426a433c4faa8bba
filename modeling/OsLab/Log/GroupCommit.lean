import OsLab.Log.Model

/-!
# Group commit

No operation is split over two commits.  A commit runs only while no operation is open, its
header lists exactly the blocks logged since the previous commit, each once, and the two
panics that guard this discipline are unreachable.
-/

namespace OsLab

open Function List

namespace LogHeader

@[simp] theorem length_entries (lh : LogHeader) : lh.entries.length = lh.n := by
  simp [entries]

theorem find_eq_iff (lh : LogHeader) (b : Nat) : lh.find b = lh.n ↔ b ∉ lh.entries := by
  rw [find, ← lh.length_entries, idxOf_eq_length_iff]

variable {lh : LogHeader}

/-- An absorbed block leaves the header as it is. -/
theorem record_of_mem {b : Nat} (member : b ∈ lh.entries) : lh.record b = lh := by
  have found : lh.find b < lh.n := by
    rw [find, ← lh.length_entries]
    exact idxOf_lt_length_iff.mpr member
  have entry : lh.block (lh.find b) = b := by
    have get : lh.entries[lh.find b]? = some b := List.getElem?_idxOf member
    simpa [entries, found] using get
  have differs : lh.find b ≠ lh.n := found.ne
  unfold record
  rw [if_neg differs]
  nth_rewrite 2 [← entry]
  rw [update_eq_self]

theorem entries_record_of_not_mem {b : Nat} (fresh : b ∉ lh.entries) :
    (lh.record b).entries = lh.entries ++ [b] := by
  have found : lh.find b = lh.n := (lh.find_eq_iff b).mpr fresh
  simp only [record, entries, found, if_true, range_succ, map_append, map_cons,
    map_nil, update_self]
  congr 1
  refine map_congr_left fun i member => ?_
  rw [update_of_ne (mem_range.mp member).ne]

theorem mem_entries_record (lh : LogHeader) (b c : Nat) :
    c ∈ (lh.record b).entries ↔ c = b ∨ c ∈ lh.entries := by
  by_cases member : b ∈ lh.entries
  · rw [record_of_mem member]
    constructor
    · exact .inr
    · rintro (rfl | old)
      · exact member
      · exact old
  · rw [entries_record_of_not_mem member, mem_append, mem_singleton]
    exact or_comm

theorem nodup_record (distinct : lh.entries.Nodup) (b : Nat) : (lh.record b).entries.Nodup := by
  by_cases member : b ∈ lh.entries
  · rwa [record_of_mem member]
  rw [entries_record_of_not_mem member]
  refine nodup_append.mpr ⟨distinct, by simp, ?_⟩
  rintro c inside d singleton rfl
  rw [mem_singleton] at singleton
  exact member (singleton ▸ inside)

end LogHeader

namespace Log

section History

variable {Pid : Type*}

/-- The blocks logged since the last commit of the history. -/
def loggedSince : List (Event Pid) → List Nat
  | [] => []
  | .committed _ :: _ => []
  | .logged _ b :: past => b :: loggedSince past
  | _ :: past => loggedSince past

/-- The last `begin_op` of the process has no `end_op` yet. -/
def OpenIn (p : Pid) : List (Event Pid) → Prop
  | [] => False
  | .begun q :: past => q = p ∨ OpenIn p past
  | .ended q :: past => q ≠ p ∧ OpenIn p past
  | _ :: past => OpenIn p past

/-- Every commit came while no operation was open and took exactly what was logged. -/
def WellGrouped : List (Event Pid) → Prop
  | [] => True
  | .committed header :: past =>
    (header.Nodup ∧ (∀ b, b ∈ header ↔ b ∈ loggedSince past) ∧ ∀ p, ¬ OpenIn p past) ∧
      WellGrouped past
  | _ :: past => WellGrouped past

theorem WellGrouped.tail {event : Event Pid} {past : List (Event Pid)}
    (grouped : WellGrouped (event :: past)) : WellGrouped past := by
  cases event with
  | committed header => exact grouped.2
  | _ => exact grouped

theorem WellGrouped.drop {newer older : List (Event Pid)} (grouped : WellGrouped (newer ++ older)) :
    WellGrouped older := by
  induction newer with
  | nil => exact grouped
  | cons event newer ih => exact ih grouped.tail

/-- An operation stays open until its `end_op`. -/
theorem openIn_append {p : Pid} {middle older : List (Event Pid)} (unended : Event.ended p ∉ middle)
    (opened : OpenIn p older) : OpenIn p (middle ++ older) := by
  induction middle with
  | nil => exact opened
  | cons event middle ih =>
    have later := ih fun member => unended (mem_cons_of_mem _ member)
    cases event with
    | begun q => exact .inr later
    | logged q b => exact later
    | ended q =>
      refine ⟨?_, later⟩
      rintro rfl
      exact unended mem_cons_self
    | committed header => exact later

/-- No commit falls between a `begin_op` and its `end_op`. -/
theorem WellGrouped.not_committed {p : Pid} {newer middle older : List (Event Pid)}
    {header : List Nat} (grouped : WellGrouped (newer ++ (middle ++ .begun p :: older)))
    (unended : Event.ended p ∉ middle) : Event.committed header ∉ middle := by
  intro member
  obtain ⟨after, before, rfl⟩ := append_of_mem member
  have split : newer ++ (after ++ .committed header :: before ++ .begun p :: older) =
      newer ++ after ++ (.committed header :: (before ++ .begun p :: older)) := by
    simp
  rw [split] at grouped
  refine grouped.drop.1.2.2 p (openIn_append ?_ (.inl rfl))
  intro ended
  exact unended (mem_append_right _ (mem_cons_of_mem _ ended))

end History

/-- What the invariant needs to know of a phase. -/
inductive Role where
  | idle
  | active (logged : Finset Nat)
  | early
  | installing
  | cleared

namespace Role

/-- One for an open operation. -/
@[simp]
def weight : Role → Int
  | .active _ => 1
  | _ => 0

/-- The role of a process inside `commit`. -/
@[simp]
def Commits : Role → Prop
  | .early | .installing | .cleared => True
  | .idle | .active _ => False

/-- The role of an open operation. -/
@[simp]
def Active : Role → Prop
  | .active _ => True
  | _ => False

/-- The blocks an open operation has logged. -/
@[simp]
def blocks : Role → Finset Nat
  | .active logged => logged
  | _ => ∅

theorem weight_of_commits {role : Role} (commits : role.Commits) : role.weight = 0 := by
  cases role <;> first | rfl | exact absurd commits id

theorem weight_nonneg (role : Role) : 0 ≤ role.weight := by
  cases role <;> simp

theorem active_iff_weight (role : Role) : role.Active ↔ role.weight ≠ 0 := by
  cases role <;> simp

end Role

def Phase.role : Phase → Role
  | .outside | .starting | .waiting => .idle
  | .inside logged | .logging _ logged => .active logged
  | .committing | .writing => .early
  | .installing => .installing
  | .cleared => .cleared

@[simp] theorem Phase.role_wakeup (phase : Phase) : phase.wakeup.role = phase.role := by
  cases phase <;> rfl

theorem Phase.active_role (phase : Phase) : phase.role.Active ↔ phase.Active := by
  cases phase <;> exact .rfl

theorem Phase.commits_role (phase : Phase) : phase.role.Commits ↔ phase.Commits := by
  cases phase <;> exact .rfl

section Core

variable {Pid : Type*} [Fintype Pid]

/-- The relation between the log, the roles of the processes and the history. -/
structure Core (log : Log) (role : Pid → Role) (history : List (Event Pid)) : Prop where
  counted : log.outstanding = ∑ q, (role q).weight
  committer : ∀ p, (role p).Commits → log.committing = true
  committed : log.committing = true → ∃ p, (role p).Commits
  exclusive : log.committing = true → log.outstanding = 0
  unique : ∀ p q, (role p).Commits → (role q).Commits → p = q
  distinct : log.lh.entries.Nodup
  gathered : (∀ p, role p ≠ .installing) → ∀ b, b ∈ log.lh.entries ↔ b ∈ loggedSince history
  flushed : ∀ p, role p = .installing → loggedSince history = []
  cleared : ∀ p, role p = .cleared → log.lh.n = 0
  opened : ∀ p, OpenIn p history ↔ (role p).Active
  grouped : WellGrouped history
  own : ∀ p, ∀ b ∈ (role p).blocks, b ∈ log.lh.entries

namespace Core

variable {log : Log} {role : Pid → Role} {history : List (Event Pid)}

theorem not_active (core : Core log role history) (committing : log.committing = true) (p : Pid) :
    ¬ (role p).Active := by
  rw [Role.active_iff_weight, not_not]
  have total : ∑ q, (role q).weight = 0 := core.counted.symm.trans (core.exclusive committing)
  exact (Finset.sum_eq_zero_iff_of_nonneg fun q _ => (role q).weight_nonneg).mp total p
    (Finset.mem_univ p)

variable {p : Pid}

section

variable (core : Core log role history) (active : (role p).Active)
include core active

theorem outstanding_pos : 0 < log.outstanding := by
  rw [core.counted]
  have member : (role p).weight ≤ ∑ q, (role q).weight :=
    Finset.single_le_sum (fun q _ => (role q).weight_nonneg) (Finset.mem_univ p)
  have one : (role p).weight ≠ 0 := (role p).active_iff_weight.mp active
  have nonneg := (role p).weight_nonneg
  omega

theorem not_committing : log.committing = false := by
  by_contra committing
  exact core.not_active (by simpa using committing) p active

theorem ne_commits (q : Pid) : ¬ (role q).Commits := by
  intro commits
  have committing := core.committer q commits
  simp [core.not_committing active] at committing

end

theorem of_quiet (none : ∀ q, ¬ (role q).Commits) (free : log.committing = false)
    (counted : log.outstanding = ∑ q, (role q).weight) (distinct : log.lh.entries.Nodup)
    (gathered : ∀ b, b ∈ log.lh.entries ↔ b ∈ loggedSince history)
    (opened : ∀ q, OpenIn q history ↔ (role q).Active) (grouped : WellGrouped history)
    (own : ∀ q, ∀ b ∈ (role q).blocks, b ∈ log.lh.entries) : Core log role history where
  counted := counted
  committer q commits := absurd commits (none q)
  committed committing := by simp [free] at committing
  exclusive committing := by simp [free] at committing
  unique q _ commits := absurd commits (none q)
  distinct := distinct
  gathered _ := gathered
  flushed q installs := absurd (by simp [installs]) (none q)
  cleared q clears := absurd (by simp [clears]) (none q)
  opened := opened
  grouped := grouped
  own := own

theorem gathered_of_quiet (core : Core log role history) (none : ∀ q, ¬ (role q).Commits)
    (b : Nat) : b ∈ log.lh.entries ↔ b ∈ loggedSince history :=
  core.gathered (fun q installs => none q (by simp [installs])) b

variable [DecidableEq Pid]

section

variable (core : Core log role history)
include core

theorem counted_update (p : Pid) (changed : Role) :
    ∑ q, (update role p changed q).weight = log.outstanding - (role p).weight + changed.weight := by
  have total := sum_update_add Role.weight role p changed
  rw [core.counted]
  omega

theorem begin (idle : role p = .idle) (free : log.committing = false) :
    Core { log with outstanding := log.outstanding + 1 }
      (update role p (.active ∅)) (.begun p :: history) := by
  have noCommit : ∀ q, ¬ (role q).Commits := fun q commits => by
    simpa [free] using core.committer q commits
  refine of_quiet (fun q => update_cases rfl q (by simp) fun q _ => noCommit q) free ?_
    core.distinct (core.gathered_of_quiet noCommit) (fun q => update_cases rfl q ?_ ?_)
    core.grouped fun q => update_cases rfl q (by simp) fun q _ => core.own q
  · rw [core.counted_update, idle]
    simp
  · simp [OpenIn]
  · intro q other
    simp [OpenIn, other.symm, core.opened q]

theorem log_write {logged : Finset Nat} (b : Nat) (active : role p = .active logged) :
    Core { log with lh := log.lh.record b }
      (update role p (.active (insert b logged))) (.logged p b :: history) := by
  have isActive : (role p).Active := by simp [active]
  have noCommit := core.ne_commits isActive
  refine of_quiet (fun q => update_cases rfl q (by simp) fun q _ => noCommit q)
    (core.not_committing isActive) ?_ (LogHeader.nodup_record core.distinct b) (fun c => ?_)
    (fun q => update_cases rfl q ?_ fun q _ => core.opened q) core.grouped
    fun q => update_cases rfl q (fun c member => ?_) fun q _ c member =>
      (log.lh.mem_entries_record b c).mpr (.inr (core.own q c member))
  · rw [core.counted_update, active]
    simp
  · simp only [LogHeader.mem_entries_record, loggedSince, mem_cons,
      core.gathered_of_quiet noCommit c]
  · simpa [OpenIn, active] using core.opened p
  · rw [LogHeader.mem_entries_record]
    rw [Role.blocks, Finset.mem_insert] at member
    exact member.imp id fun old => core.own p c (by simpa [active] using old)

theorem end_op (isActive : (role p).Active) :
    Core { log with outstanding := log.outstanding - 1 }
      (update role p .idle) (.ended p :: history) := by
  have noCommit := core.ne_commits isActive
  have weight : (role p).weight = 1 := by
    cases h : role p <;> simp [h, Role.weight] at isActive ⊢
  refine of_quiet (fun q => update_cases rfl q (by simp) fun q _ => noCommit q)
    (core.not_committing isActive) ?_ core.distinct (core.gathered_of_quiet noCommit)
    (fun q => update_cases rfl q ?_ ?_) core.grouped
    fun q => update_cases rfl q (by simp) fun q _ => core.own q
  · rw [core.counted_update, weight]
    simp
  · simp [OpenIn]
  · intro q other
    simp [OpenIn, other.symm, core.opened q]

/-- The last operation to end turns into the committer. -/
theorem start_commit (idle : role p = .idle) (last : log.outstanding = 0)
    (free : log.committing = false) :
    Core { log with committing := true } (update role p .early) history := by
  have noCommit : ∀ q, ¬ (role q).Commits := fun q commits => by
    simpa [free] using core.committer q commits
  have only : ∀ q, (update role p .early q).Commits → q = p :=
    fun q => update_cases rfl q (fun _ => rfl) fun q _ commits => absurd commits (noCommit q)
  exact
    { counted := by
        rw [core.counted_update, idle]
        simp
      committer := fun _ _ => rfl
      committed := fun _ => ⟨p, by simp⟩
      exclusive := fun _ => last
      unique := fun q r left right => (only q left).trans (only r right).symm
      distinct := core.distinct
      gathered := fun _ => core.gathered_of_quiet noCommit
      flushed := fun q => update_cases rfl q (by simp) fun q _ => core.flushed q
      cleared := fun q => update_cases rfl q (by simp) fun q _ => core.cleared q
      opened := fun q => update_cases rfl q
        (by simpa [idle] using core.opened p) fun q _ => core.opened q
      grouped := core.grouped
      own := fun q => update_cases rfl q (by simp) fun q _ => core.own q }

theorem commits_eq {changed : Role} (commits : (role p).Commits) (q : Pid)
    (other : (update role p changed q).Commits) : q = p := by
  revert other
  exact update_cases rfl q (fun _ => rfl) fun q _ also => core.unique q p also commits

end

section

variable (core : Core log role history)
include core

omit [DecidableEq Pid] in
/-- Nobody has logged a block while a commit runs. -/
theorem blocks_eq_empty (committing : log.committing = true) (p : Pid) : (role p).blocks = ∅ := by
  have inactive := core.not_active committing p
  cases phase : role p <;> simp [phase] at inactive ⊢

theorem commit_stage {changed : Role} {later : List (Event Pid)} (commits : (role p).Commits)
    (still : changed.Commits) (opened : ∀ q, OpenIn q later ↔ OpenIn q history)
    (grouped : WellGrouped later)
    (gathered : changed ≠ .installing → ∀ b, b ∈ log.lh.entries ↔ b ∈ loggedSince later)
    (flushed : changed = .installing → loggedSince later = [])
    (cleared : changed = .cleared → log.lh.n = 0) : Core log (update role p changed) later := by
  have committing : log.committing = true := core.committer p commits
  have noOther : ∀ q, q ≠ p → ¬ (role q).Commits := fun q other also =>
    other (core.unique q p also commits)
  exact
    { counted := by
        rw [core.counted_update, Role.weight_of_commits commits, Role.weight_of_commits still]
        simp
      committer := fun _ _ => committing
      committed := fun _ => ⟨p, by simpa using still⟩
      exclusive := core.exclusive
      unique := fun q r left right =>
        (core.commits_eq commits q left).trans (core.commits_eq commits r right).symm
      distinct := core.distinct
      gathered := fun calm => gathered (by simpa using calm p)
      flushed := fun q => update_cases rfl q flushed
        fun q other installs => absurd (by simp [installs]) (noOther q other)
      cleared := fun q => update_cases rfl q cleared
        fun q other clears => absurd (by simp [clears]) (noOther q other)
      opened := fun q => update_cases rfl q
        (by
          rw [opened, core.opened]
          have inactive := core.not_active committing p
          cases changed <;> simp_all [Role.Active, Role.Commits])
        fun q _ => (opened q).trans (core.opened q)
      grouped := grouped
      own := fun q => update_cases rfl q
        (by cases changed <;> simp_all [Role.blocks, Role.Commits]) fun q _ => core.own q }

omit [DecidableEq Pid] in
/-- Before the header is written it lists what has been logged. -/
theorem gathered_of_early (early : role p = .early) (b : Nat) :
    b ∈ log.lh.entries ↔ b ∈ loggedSince history := by
  refine core.gathered (fun q installs => ?_) b
  have same : q = p :=
    core.unique q p (by simp [installs]) (by simp [early])
  subst same
  simp [early] at installs

end

section

variable (core : Core log role history) {p : Pid}
include core

omit [DecidableEq Pid] in
/-- The header written by `commit` is complete and no operation is open. -/
theorem wellGrouped_committed (early : role p = .early) :
    WellGrouped (.committed log.lh.entries :: history) := by
  have committing : log.committing = true :=
    core.committer p (by simp [early])
  refine ⟨⟨core.distinct, core.gathered_of_early early, fun q opened => ?_⟩, core.grouped⟩
  exact core.not_active committing q ((core.opened q).mp opened)

theorem write_head (early : role p = .early) :
    Core log (update role p .installing) (.committed log.lh.entries :: history) :=
  core.commit_stage (by simp [early]) trivial (fun _ => .rfl)
    (core.wellGrouped_committed early) (by simp) (fun _ => rfl) (by simp)

theorem commit_empty (early : role p = .early) (empty : log.lh.n = 0) :
    Core log (update role p .cleared) (.committed [] :: history) := by
  have entries : log.lh.entries = [] := by
    rw [← length_eq_zero_iff, LogHeader.length_entries, empty]
  have grouped := core.wellGrouped_committed early
  rw [entries] at grouped
  exact core.commit_stage (by simp [early]) trivial (fun _ => .rfl) grouped
    (by simp [entries, loggedSince]) (by simp) fun _ => empty

theorem clear (installs : role p = .installing) :
    Core { log with lh := { log.lh with n := 0 } } (update role p .cleared) history := by
  have commits : (role p).Commits := by simp [installs]
  have committing : log.committing = true := core.committer p commits
  have flushed := core.flushed p installs
  have noOther : ∀ q, q ≠ p → ¬ (role q).Commits := fun q other also =>
    other (core.unique q p also commits)
  exact
    { counted := by
        rw [core.counted_update, installs]
        simp
      committer := fun _ _ => committing
      committed := fun _ => ⟨p, by simp⟩
      exclusive := core.exclusive
      unique := fun q r left right =>
        (core.commits_eq commits q left).trans (core.commits_eq commits r right).symm
      distinct := by simp [LogHeader.entries]
      gathered := by simp [LogHeader.entries, flushed]
      flushed := fun _ _ => flushed
      cleared := fun _ _ => rfl
      opened := fun q => update_cases rfl q
        (by simpa [installs] using core.opened p) fun q _ => core.opened q
      grouped := core.grouped
      own := fun q => update_cases rfl q (by simp)
        fun q _ => by rw [core.blocks_eq_empty committing q]; simp }

theorem finish (clears : role p = .cleared) :
    Core { log with committing := false } (update role p .idle) history := by
  have commits : (role p).Commits := by simp [clears]
  refine of_quiet (fun q => update_cases rfl q (by simp) fun q other also => ?_) rfl ?_
    core.distinct (core.gathered fun q installs => ?_)
    (fun q => update_cases rfl q ?_ fun q _ => core.opened q) core.grouped
    fun q => update_cases rfl q (by simp) fun q _ => core.own q
  · rw [core.counted_update, clears]
    simp
  · obtain rfl : q = p := core.unique q p (by simp [installs]) commits
    simp [clears] at installs
  · exact other (core.unique q p also commits)
  · simpa [clears] using core.opened p

end

end Core

end Core

section Runs

variable {Pid : Type*} [Fintype Pid] [DecidableEq Pid] {p : Pid} {s : State Pid}

/-- The invariant of the log and of the two panics that guard it. -/
structure Sound (s : State Pid) : Prop where
  core : Core s.log (fun q => (s.phase q).role) s.history
  fault : s.fault ≠ some .logCommitting ∧ s.fault ≠ some .outsideOfTrans

section

omit [DecidableEq Pid]

section

variable (sound : Sound s)
include sound

theorem Sound.not_commits {q : Pid} (commits : (s.phase p).Commits) (other : q ≠ p) :
    ¬ (s.phase q).Commits := fun also =>
  other (sound.core.unique q p ((Phase.commits_role _).mpr also)
    ((Phase.commits_role _).mpr commits))

theorem Sound.not_commits_of_active (active : (s.phase p).Active) (q : Pid) :
    ¬ (s.phase q).Commits := fun commits =>
  sound.core.ne_commits ((Phase.active_role _).mpr active) q ((Phase.commits_role _).mpr commits)

theorem Sound.committing (commits : (s.phase p).Commits) : s.log.committing = true :=
  sound.core.committer p ((Phase.commits_role _).mpr commits)

theorem Sound.not_committing (active : (s.phase p).Active) : s.log.committing = false :=
  sound.core.not_committing ((Phase.active_role _).mpr active)

end

end

omit [Fintype Pid] in
theorem role_move (s : State Pid) (p : Pid) (phase : Phase) :
    (fun q => ((s.move p phase).phase q).role) =
      update (fun q => (s.phase q).role) p phase.role := by
  funext q
  rcases eq_or_ne q p with rfl | other
  · simp [State.move]
  · simp [State.move, other]

section

variable (sound : Sound s)
include sound

theorem Sound.move {phase : Phase} (same : phase.role = (s.phase p).role) :
    Sound (s.move p phase) := by
  refine ⟨?_, sound.fault⟩
  rw [role_move, same]
  have unchanged : update (fun q => (s.phase q).role) p (s.phase p).role =
      fun q => (s.phase q).role := update_eq_self p (fun q => (s.phase q).role)
  rw [unchanged]
  exact sound.core

theorem Sound.beginOp (starting : s.phase p = .starting) : Sound (beginOp s p) := by
  have idle : (s.phase p).role = .idle := by rw [starting]; rfl
  unfold Log.beginOp
  split
  · exact sound.move idle.symm
  rename_i free
  split
  · exact sound.move idle.symm
  · refine ⟨?_, sound.fault⟩
    have core := sound.core.begin (p := p) idle (by simpa using free)
    simpa only [State.record, State.move, role_move] using role_move _ p (.inside ∅) ▸ core

variable {logged : Finset Nat}

theorem Sound.logWriteChecks (inside : s.phase p = .inside logged) (b : Nat) :
    Sound (logWriteChecks s p b logged) := by
  have active : (s.phase p).role = .active logged := by rw [inside]; rfl
  unfold Log.logWriteChecks
  split
  · exact ⟨sound.core, by simp [State.fail]⟩
  · have counted := sound.core.outstanding_pos (p := p) (by simp [active])
    rw [if_neg (by omega)]
    exact sound.move active.symm

theorem Sound.logWriteLocked {b : Nat} (logging : s.phase p = .logging b logged) :
    Sound (logWriteLocked s p b logged) := by
  have active : (s.phase p).role = .active logged := by rw [logging]; rfl
  unfold Log.logWriteLocked
  split
  · exact ⟨sound.core, by simp [State.fail]⟩
  · refine ⟨?_, sound.fault⟩
    exact role_move _ p (.inside (insert b logged)) ▸ sound.core.log_write b active

theorem Sound.endOp (inside : s.phase p = .inside logged) : Sound (endOp s p) := by
  have active : (s.phase p).role.Active := by rw [inside]; trivial
  have ended := sound.core.end_op (p := p) active
  have free := sound.core.not_committing (p := p) active
  unfold Log.endOp
  dsimp only
  rw [if_neg (by simp [free])]
  split
  · rename_i last
    refine ⟨?_, sound.fault⟩
    have started := ended.start_commit (p := p) (by simp) last free
    rw [update_idem] at started
    exact role_move _ p .committing ▸ started
  · refine ⟨?_, sound.fault⟩
    have roles := role_move
      { s with log := { s.log with outstanding := s.log.outstanding - 1 } }.wakeup p .outside
    simp only [State.wakeup, Phase.role_wakeup] at roles
    exact roles ▸ ended

theorem Sound.commitStart (committing : s.phase p = .committing) : Sound (commitStart s p) := by
  have early : (s.phase p).role = .early := by rw [committing]; rfl
  unfold Log.commitStart
  split
  · exact sound.move early.symm
  · refine ⟨?_, sound.fault⟩
    exact role_move _ p .cleared ▸ sound.core.commit_empty (p := p) early (by omega)

theorem Sound.commitHead (writing : s.phase p = .writing) : Sound (commitHead s p) := by
  have early : (s.phase p).role = .early := by rw [writing]; rfl
  refine ⟨?_, sound.fault⟩
  exact role_move _ p .installing ▸ sound.core.write_head (p := p) early

theorem Sound.commitClear (installing : s.phase p = .installing) : Sound (commitClear s p) := by
  have installs : (s.phase p).role = .installing := by rw [installing]; rfl
  refine ⟨?_, sound.fault⟩
  exact role_move { s with log := { s.log with lh := { s.log.lh with n := 0 } } } p .cleared ▸
    sound.core.clear (p := p) installs

theorem Sound.commitDone (cleared : s.phase p = .cleared) : Sound (commitDone s p) := by
  have clears : (s.phase p).role = .cleared := by rw [cleared]; rfl
  refine ⟨?_, sound.fault⟩
  have roles := role_move
    ({ s with log := { s.log with committing := false } } : State Pid).wakeup p .outside
  simp only [State.wakeup, Phase.role_wakeup] at roles
  exact roles ▸ sound.core.finish (p := p) clears

end

theorem Sound.step (sound : Sound s) {action : Action Pid} (enabled : Enabled s action) :
    Sound (next s action) := by
  obtain ⟨-, there⟩ := enabled
  cases action with
  | beginCall p => exact sound.move (by rw [there]; rfl)
  | beginTry p => exact sound.beginOp there
  | kill p => exact sound.move (Phase.role_wakeup _)
  | logCall p b =>
    obtain ⟨logged, inside⟩ := there
    simp only [next, inside]
    exact sound.logWriteChecks inside b
  | logLocked p =>
    obtain ⟨b, logged, logging⟩ := there
    simp only [next, logging]
    exact sound.logWriteLocked logging
  | endOp p =>
    obtain ⟨logged, inside⟩ := there
    exact sound.endOp inside
  | commitStart p => exact sound.commitStart there
  | commitHead p => exact sound.commitHead there
  | commitClear p => exact sound.commitClear there
  | commitDone p => exact sound.commitDone there

omit [DecidableEq Pid] in
theorem Ready.sound (ready : Ready s) : Sound s := by
  have idle : (fun q => (s.phase q).role) = fun _ => Role.idle := by
    funext q
    rw [ready.outside q]
    rfl
  have entries : s.log.lh.entries = [] := by
    rw [← length_eq_zero_iff, LogHeader.length_entries, ready.empty]
  refine ⟨?_, by simp [ready.fault]⟩
  rw [idle]
  exact
    { counted := by simp [ready.outstanding]
      committer := fun _ commits => absurd commits id
      committed := by simp [ready.committing]
      exclusive := by simp [ready.committing]
      unique := fun _ _ commits => absurd commits id
      distinct := by simp [entries]
      gathered := by simp [entries, ready.history, loggedSince]
      flushed := by simp
      cleared := by simp
      opened := by simp [ready.history, OpenIn]
      grouped := by simp [ready.history, WellGrouped]
      own := by simp }

theorem Sound.of_run {start : State Pid} (ready : Ready start)
    (run : (logSystem Pid).Reaches start s) : Sound s :=
  run.invariant (fun _ _ sound enabled => sound.step enabled) ready.sound

/-- Commits and open operations exclude each other, no commit falls inside an operation, each
commit writes exactly the blocks logged since the one before, and the two panics cannot
happen. -/
theorem group_commit {start s : State Pid} (ready : Ready start)
    (run : (logSystem Pid).Reaches start s) :
    (∀ p q, (s.phase p).Commits → ¬ (s.phase q).Active) ∧ (∀ newer middle older p header,
        s.history = newer ++ (middle ++ .begun p :: older) → Event.ended p ∉ middle →
          Event.committed header ∉ middle) ∧
      (∀ newer older header, s.history = newer ++ .committed header :: older →
        header.Nodup ∧ ∀ b, b ∈ header ↔ b ∈ loggedSince older) ∧
      s.fault ≠ some .logCommitting ∧ s.fault ≠ some .outsideOfTrans := by
  have sound : Sound s := .of_run ready run
  refine ⟨fun p q commits active => ?_, fun newer middle older p header split unended => ?_,
    fun newer older header split => ?_, sound.fault⟩
  · have committing := sound.core.committer p ((Phase.commits_role _).mpr commits)
    exact sound.core.not_active committing q ((Phase.active_role _).mpr active)
  · exact (split ▸ sound.core.grouped).not_committed unended
  · have grouped := (split ▸ sound.core.grouped : WellGrouped _).drop
    exact ⟨grouped.1.1, grouped.1.2.1⟩

end Runs

/-- The log right after `initlog` has found an empty header. -/
def initlog (Pid : Type*) (dev start size : Nat) : State Pid where
  log := ⟨start, size, 0, false, dev, ⟨0, fun _ => 0⟩⟩
  phase _ := .outside
  history := []
  fault := none

theorem initlog_ready (Pid : Type*) (dev start size : Nat) :
    Ready (initlog Pid dev start size) where
  outstanding := rfl
  committing := rfl
  empty := rfl
  outside _ := rfl
  history := rfl
  fault := rfl

/-- Two operations that share a block, up to the header of their common commit. -/
def twoOperations : List (Action (Fin 2)) :=
  [.beginCall 0, .beginTry 0, .beginCall 1, .beginTry 1, .logCall 0 45, .logLocked 0,
    .logCall 1 45, .logLocked 1, .logCall 1 32, .logLocked 1, .endOp 0, .endOp 1,
    .commitStart 1, .commitHead 1]

theorem twoOperations_run :
    (logSystem (Fin 2)).Reaches (initlog (Fin 2) 1 2 30)
      (twoOperations.foldl next (initlog (Fin 2) 1 2 30)) := by
  apply System.Schedules.reaches
  decide

/-- Their commit lists blocks 45 and 32, and nobody can be inside an operation. -/
theorem group_commit_twoOperations :
    (twoOperations.foldl next (initlog (Fin 2) 1 2 30)).log.lh.entries = [45, 32] ∧
      ∀ q, ¬ ((twoOperations.foldl next (initlog (Fin 2) 1 2 30)).phase q).Active := by
  refine ⟨by decide, fun q => ?_⟩
  exact (group_commit (initlog_ready (Fin 2) 1 2 30) twoOperations_run).1 1 q (by decide)

end Log

end OsLab
