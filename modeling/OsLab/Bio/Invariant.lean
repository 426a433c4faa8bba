import OsLab.Bio.Script
import OsLab.Log.GroupCommit
import OsLab.Proc.State

/-!
# The invariant of the buffer cache

Every reference count is the number of handles plus one for a pin, every block is cached at most
once, and the view of every thread agrees with the state.  The view of a thread survives the
steps of the others, which neither touch a buffer it has locked nor hand it to another block.
-/

namespace OsLab

open Finset

namespace Bcache

variable {Pid : Type*} {cache : Bcache Pid} {i j : Fin nbuf} {change : Buf Pid → Buf Pid}

@[simp] theorem modify_buf_same : (cache.modify i change).buf i = change (cache.buf i) := by
  simp [modify]

@[simp] theorem modify_buf_ne (other : j ≠ i) : (cache.modify i change).buf j = cache.buf j := by
  simp [modify, other]

theorem modify_read {α : Type*} (read : Buf Pid → α) (j : Fin nbuf)
    (same : ∀ b, read (change b) = read b) :
    read ((cache.modify i change).buf j) = read (cache.buf j) := by
  rcases eq_or_ne j i with rfl | other
  · rw [modify_buf_same, same]
  · rw [modify_buf_ne other]

attribute [simp] bpin bunpin acquiresleep releasesleep write

@[simp] theorem modify_valid (same : ∀ b, (change b).valid = b.valid) :
    ((cache.modify i change).buf j).valid = (cache.buf j).valid :=
  modify_read Buf.valid j same

@[simp] theorem modify_dev (same : ∀ b, (change b).dev = b.dev) :
    ((cache.modify i change).buf j).dev = (cache.buf j).dev :=
  modify_read Buf.dev j same

@[simp] theorem modify_blockno (same : ∀ b, (change b).blockno = b.blockno) :
    ((cache.modify i change).buf j).blockno = (cache.buf j).blockno :=
  modify_read Buf.blockno j same

@[simp] theorem modify_lock (same : ∀ b, (change b).lock = b.lock) :
    ((cache.modify i change).buf j).lock = (cache.buf j).lock :=
  modify_read Buf.lock j same

@[simp] theorem modify_refcnt (same : ∀ b, (change b).refcnt = b.refcnt) :
    ((cache.modify i change).buf j).refcnt = (cache.buf j).refcnt :=
  modify_read Buf.refcnt j same

@[simp] theorem modify_data (same : ∀ b, (change b).data = b.data) :
    ((cache.modify i change).buf j).data = (cache.buf j).data :=
  modify_read Buf.data j same

section Fields

variable {p : Pid} {data : Block} {disk : Log.Disk}

@[simp] theorem bpin_lock : ((cache.bpin i).buf j).lock = (cache.buf j).lock :=
  modify_read Buf.lock j (by intro; rfl)

@[simp] theorem bpin_data : ((cache.bpin i).buf j).data = (cache.buf j).data :=
  modify_read Buf.data j (by intro; rfl)

@[simp] theorem bunpin_lock : ((cache.bunpin i).buf j).lock = (cache.buf j).lock :=
  modify_read Buf.lock j (by intro; rfl)

@[simp] theorem fill_dev : ((cache.fill i disk).buf j).dev = (cache.buf j).dev :=
  modify_read Buf.dev j (by intro b; split <;> rfl)

@[simp] theorem fill_blockno : ((cache.fill i disk).buf j).blockno = (cache.buf j).blockno :=
  modify_read Buf.blockno j (by intro b; split <;> rfl)

@[simp] theorem fill_lock : ((cache.fill i disk).buf j).lock = (cache.buf j).lock :=
  modify_read Buf.lock j (by intro b; split <;> rfl)

@[simp] theorem fill_refcnt : ((cache.fill i disk).buf j).refcnt = (cache.buf j).refcnt :=
  modify_read Buf.refcnt j (by intro b; split <;> rfl)

@[simp] theorem bpin_refcnt_same : ((cache.bpin i).buf i).refcnt = (cache.buf i).refcnt + 1 := by
  simp [bpin]

@[simp] theorem bunpin_refcnt_same :
    ((cache.bunpin i).buf i).refcnt = (cache.buf i).refcnt - 1 := by
  simp [bunpin]

@[simp] theorem acquiresleep_lock_ne (other : j ≠ i) :
    ((cache.acquiresleep i p).buf j).lock = (cache.buf j).lock := by
  simp [acquiresleep, other]

@[simp] theorem releasesleep_lock_ne (other : j ≠ i) :
    ((cache.releasesleep i).buf j).lock = (cache.buf j).lock := by
  simp [releasesleep, other]

/-- After `bread` the buffer is valid, and so are those that were. -/
theorem fill_valid (valid : j = i ∨ (cache.buf j).valid = true) :
    ((cache.fill i disk).buf j).valid = true := by
  unfold fill
  rcases eq_or_ne j i with rfl | other
  · rw [modify_buf_same]
    split
    · assumption
    · rfl
  · rw [modify_buf_ne other]
    exact valid.resolve_left other

end Fields

theorem find_eq_some {dev b : Nat} (found : cache.find dev b = some i) :
    (cache.buf i).dev = dev ∧ (cache.buf i).blockno = b := by
  have matched := List.find?_some found
  simpa using matched

theorem find_eq_none (listed : ∀ i, i ∈ cache.lru) {dev b : Nat} (missing : cache.find dev b = none)
    (i : Fin nbuf) : ¬ ((cache.buf i).dev = dev ∧ (cache.buf i).blockno = b) := by
  have unmatched := List.find?_eq_none.mp missing i (listed i)
  simpa using unmatched

theorem unused_eq_some (found : cache.unused = some i) : (cache.buf i).refcnt = 0 := by
  have matched := List.find?_some found
  simpa using matched

theorem bget_eq_some {dev b : Nat} {after : Bcache Pid}
    (found : cache.bget dev b = some (i, after)) :
    cache.find dev b = some i ∧ cache.bpin i = after ∨
      cache.find dev b = none ∧ cache.unused = some i ∧ cache.recycle i dev b = after := by
  unfold bget at found
  split at found
  · rename_i hit
    cases found
    exact .inl ⟨hit, rfl⟩
  · rename_i missing
    obtain ⟨j, unused, equal⟩ := Option.map_eq_some_iff.mp found
    cases equal
    exact .inr ⟨missing, unused, rfl⟩

theorem put_buf (cache : Bcache Pid) (i : Fin nbuf) : (cache.put i).buf = (cache.bunpin i).buf := by
  unfold put
  split <;> rfl

theorem mem_put_lru (listed : j ∈ cache.lru) : j ∈ (cache.put i).lru := by
  unfold put
  split
  · rcases eq_or_ne j i with rfl | other
    · exact List.mem_cons_self
    · exact List.mem_cons_of_mem _ ((List.mem_erase_of_ne other).mpr listed)
  · exact listed

end Bcache

namespace Bio

section Counts

variable {Pid : Type*}

/-- One for a process inside `bread` or `brelse` that counts the buffer and does not hold it. -/
def Pc.uses (i : Fin nbuf) : Pc → Nat
  | .locking j | .dropping j => if j = i then 1 else 0
  | _ => 0

/-- One for a buffer that somebody holds. -/
def holders (b : Buf Pid) : Nat := b.lock.elim 0 fun _ => 1

variable (s : State Pid)

/-- The buffer holds the block. -/
def Caches (i : Fin nbuf) (b : Nat) : Prop :=
  (s.buf i).dev = s.log.log.dev ∧ (s.buf i).blockno = b

/-- The blocks of the header that `log_write` has put there and that the running commit has not
unpinned. -/
def pinnedBlocks : List Nat :=
  if s.booted then s.log.log.lh.entries.drop s.unpinned else []

/-- The block of the buffer is pinned. -/
def Pinned (i : Fin nbuf) : Prop :=
  (s.buf i).dev = s.log.log.dev ∧ (s.buf i).blockno ∈ pinnedBlocks s

instance (s : State Pid) (i : Fin nbuf) : Decidable (Pinned s i) :=
  inferInstanceAs (Decidable (_ ∧ _))

/-- One for a pinned buffer. -/
def pins (i : Fin nbuf) : Nat := if Pinned s i then 1 else 0

theorem Pc.uses_le (i : Fin nbuf) (pc : Pc) : pc.uses i ≤ 1 := by
  cases pc <;> simp only [uses] <;> first | omega | (split <;> omega)

theorem holders_le (b : Buf Pid) : holders b ≤ 1 := by
  cases lock : b.lock <;> simp [holders, lock]

theorem holders_eq_zero {b : Buf Pid} : holders b = 0 ↔ b.lock = none := by
  cases lock : b.lock <;> simp [holders, lock]

theorem pins_congr {s t : State Pid} {i : Fin nbuf} (same : Pinned t i ↔ Pinned s i) :
    pins t i = pins s i :=
  if_congr same rfl rfl

theorem pins_le (i : Fin nbuf) : pins s i ≤ 1 := by
  unfold pins
  split <;> omega

variable [Fintype Pid]

/-- The calls of `bread` that have taken the buffer and whose `brelse` has not given it back. -/
def handles (s : State Pid) (i : Fin nbuf) : Nat :=
  ∑ p, (s.pc p).uses i + holders (s.buf i)

/-- Every reference count is the number of handles plus one for a pin. -/
def Conserved (s : State Pid) : Prop :=
  ∀ i, (s.buf i).refcnt.toNat = handles s i + pins s i

theorem handles_le (s : State Pid) (i : Fin nbuf) : handles s i ≤ Fintype.card Pid + 1 := by
  have each : ∑ p, (s.pc p).uses i ≤ ∑ _p : Pid, 1 :=
    sum_le_sum fun p _ => (s.pc p).uses_le i
  have held := holders_le (s.buf i)
  simp only [sum_const, card_univ, smul_eq_mul, mul_one] at each
  unfold handles
  omega

variable {s t : State Pid}

section

variable (conserved : Conserved s) {i : Fin nbuf}
include conserved

/-- `bget` recycles no buffer that somebody uses or that is pinned. -/
theorem Conserved.idle (unused : (s.buf i).refcnt = 0) : handles s i = 0 ∧ pins s i = 0 := by
  have count := conserved i
  have zero : (s.buf i).refcnt.toNat = 0 := by rw [unused]; rfl
  omega

theorem Conserved.referenced_of_lock (locked : (s.buf i).lock ≠ none) : (s.buf i).refcnt ≠ 0 := by
  intro unused
  have none := (conserved.idle unused).1
  rw [handles] at none
  exact locked (holders_eq_zero.mp (by omega))

theorem Conserved.referenced_of_pinned (pinned : Pinned s i) : (s.buf i).refcnt ≠ 0 := by
  intro unused
  have none := (conserved.idle unused).2
  rw [pins, if_pos pinned] at none
  omega

theorem Conserved.referenced_of_uses {p : Pid} (uses : (s.pc p).uses i ≠ 0) :
    (s.buf i).refcnt ≠ 0 := by
  intro unused
  have none := (conserved.idle unused).1
  have single : (s.pc p).uses i ≤ ∑ q, (s.pc q).uses i :=
    single_le_sum (f := fun q => (s.pc q).uses i) (fun q _ => Nat.zero_le _)
      (mem_univ p)
  rw [handles] at none
  omega

end

variable [DecidableEq Pid]

/-- Whatever a step changes for one buffer, the two sides of the count change alike. -/
theorem Conserved.of_balance (conserved : Conserved s) {p : Pid} {pc : Pc}
    (moved : t.pc = Function.update s.pc p pc)
    (balance : ∀ i, (t.buf i).refcnt.toNat + (s.pc p).uses i + holders (s.buf i) + pins s i =
      (s.buf i).refcnt.toNat + pc.uses i + holders (t.buf i) + pins t i) : Conserved t := by
  intro i
  have before := conserved i
  have change := balance i
  have total := sum_update_add (Pc.uses i) s.pc p pc
  unfold handles at before ⊢
  rw [moved]
  omega

end Counts

section Invariant

variable {Pid : Type*} {s : State Pid} {p q : Pid} {stage : Stage}

/-- What a thread has checked before it makes its call. -/
def Ready (s : State Pid) (p : Pid) : Prop :=
  match s.todo p with
  | .call (.logWrite i) _ =>
    (s.buf i).lock = some p ∧ ∃ logged, s.log.phase p = .inside logged ∨
      s.log.phase p = .logging (s.buf i).blockno logged
  | .call .beginOp _ => s.log.phase p = .outside
  | .call .endOp _ => ∃ logged, s.log.phase p = .inside logged
  | _ => True

/-- Nothing has been changed since the boot and the log on the disk is empty. -/
structure Pristine (s : State Pid) : Prop where
  clean : ∀ i, (s.buf i).dev = s.log.log.dev → (s.buf i).valid = true →
    (s.buf i).data = s.disk (s.buf i).blockno
  empty : (Log.onDisk s.log.log.start s.disk).n = 0

/-- The stage of a thread agrees with the state. -/
def Fits (s : State Pid) (p : Pid) : Stage → Prop
  | .user => ¬ (s.log.phase p).Commits
  | .calling => s.booted = true ∧ ¬ (s.log.phase p).Commits ∧ Ready s p
  | .boot => s.booted = false ∧ ¬ (s.log.phase p).Commits ∧ Pristine s
  | .wiping => s.booted = false ∧ ¬ (s.log.phase p).Commits
  | .start => s.booted = true ∧ s.log.phase p = .committing
  | .writing => s.booted = true ∧ s.log.phase p = .writing
  | .installing => s.booted = true ∧ s.log.phase p = .installing
  | .cleared => s.booted = true ∧ s.log.phase p = .cleared

/-- A process inside `bread` or `brelse` has counted the buffer of its call. -/
def Doing (s : State Pid) (p : Pid) : Prop :=
  match s.pc p with
  | .ready => True
  | .locking i => ∃ b rest, s.todo p = .call (.bread b) rest ∧ Caches s i b
  | .filling i =>
    (∃ b rest, s.todo p = .call (.bread b) rest ∧ Caches s i b) ∧ (s.buf i).lock = some p
  | .dropping i => ∃ rest, s.todo p = .call (.brelse i) rest

/-- The process has the block in a buffer that it has locked. -/
structure Owns (s : State Pid) (p : Pid) (i : Fin nbuf) (b : Nat) : Prop where
  locked : (s.buf i).lock = some p
  caches : Caches s i b
  valid : (s.buf i).valid = true

/-- In `commit`. -/
def Stage.Commits (stage : Stage) : Prop :=
  stage.Inner ∧ stage ≠ .boot ∧ stage ≠ .wiping

instance : DecidablePred Stage.Commits := fun _ => inferInstanceAs (Decidable (_ ∧ _))

/-- The view of a thread agrees with the state. -/
structure Runs (s : State Pid) (p : Pid) (view : View) : Prop where
  meets : (s.todo p).Meets spec view fun _ later => later.stage = .user
  doing : Doing s p
  fits : Fits s p view.stage
  log : view.stage.Inner → s.log.log = view.log
  held : view.stage.Inner → ∀ h ∈ view.held, s.pc p ≠ .dropping h.1 → Owns s p h.1 h.2
  taking : view.stage.Inner → ∀ i, s.pc p = .filling i → ∀ h ∈ view.held, h.1 ≠ i
  unpinned : view.stage.Commits → s.unpinned = view.installed

variable {view : View}

theorem Runs.fits_of (runs : Runs s p view) (here : view.stage = stage) :
    Fits s p stage := here ▸ runs.fits

theorem Runs.done (runs : Runs s p view) (user : view.stage = .user) : (s.todo p).Done := by
  have meets := runs.meets
  cases todo : s.todo p with
  | ret result => trivial
  | call op rest =>
    rw [todo] at meets
    have before := meets.1
    cases op <;> simp [spec, pre, user, Stage.Inner] at before

/-- What a step of another process leaves alone. -/
structure Undisturbed (s t : State Pid) (q : Pid) : Prop where
  todo : t.todo q = s.todo q
  pc : t.pc q = s.pc q
  phase : t.log.phase q = s.log.phase q ∨ t.log.phase q = (s.log.phase q).wakeup
  booted : s.booted = true → t.booted = true
  locked : ∀ i, (s.buf i).lock = some q → (t.buf i).lock = some q
  block : ∀ i, (s.buf i).refcnt ≠ 0 →
    (t.buf i).dev = (s.buf i).dev ∧ (t.buf i).blockno = (s.buf i).blockno ∧
      ((s.buf i).valid = true → (t.buf i).valid = true)
  dev : t.log.log.dev = s.log.log.dev
  log : (s.log.phase q).Commits → t.log.log = s.log.log
  unpinned : (s.log.phase q).Commits → t.unpinned = s.unpinned

theorem Fits.commits (fits : Fits s p stage) (commits : stage.Commits) :
    s.booted = true ∧ (s.log.phase p).Commits := by
  obtain ⟨⟨notUser, notCalling⟩, notBoot, notWiping⟩ := commits
  cases stage <;> simp_all [Fits, Log.Phase.Commits]

theorem Undisturbed.phase_eq {t : State Pid} (calm : Undisturbed s t q)
    (awake : s.log.phase q ≠ .waiting) : t.log.phase q = s.log.phase q := by
  rcases calm.phase with same | woken
  · exact same
  · rw [woken]
    cases phase : s.log.phase q <;> simp_all [Log.Phase.wakeup]

theorem Undisturbed.commits_iff {t : State Pid} (calm : Undisturbed s t q) :
    (t.log.phase q).Commits ↔ (s.log.phase q).Commits := by
  rcases calm.phase with same | woken
  · rw [same]
  · rw [woken, ← Log.Phase.commits_role, Log.Phase.role_wakeup, Log.Phase.commits_role]

variable {t : State Pid}

theorem Undisturbed.caches (calm : Undisturbed s t q) {i : Fin nbuf} {b : Nat}
    (used : (s.buf i).refcnt ≠ 0) (caches : Caches s i b) : Caches t i b := by
  obtain ⟨dev, blockno, -⟩ := calm.block i used
  exact ⟨by rw [dev, calm.dev, caches.1], by rw [blockno, caches.2]⟩

variable [Fintype Pid]

section

variable (calm : Undisturbed s t q) (conserved : Conserved s)
include calm conserved

theorem Undisturbed.ready (ready : Ready s q) : Ready t q := by
  unfold Ready at ready ⊢
  rw [calm.todo]
  split
  · rename_i i rest todo
    rw [todo] at ready
    obtain ⟨locked, logged, phase⟩ := ready
    have used := conserved.referenced_of_lock (i := i) (by simp [locked])
    refine ⟨calm.locked i locked, logged, ?_⟩
    rw [(calm.block i used).2.1, calm.phase_eq
      (by rcases phase with phase | phase <;> simp [phase])]
    exact phase
  · rename_i rest todo
    rw [todo] at ready
    rw [calm.phase_eq (by simp [ready])]
    exact ready
  · rename_i rest todo
    rw [todo] at ready
    obtain ⟨logged, phase⟩ := ready
    exact ⟨logged, by rw [calm.phase_eq (by simp [phase])]; exact phase⟩
  · trivial

theorem Undisturbed.doing (doing : Doing s q) : Doing t q := by
  unfold Doing at doing ⊢
  rw [calm.pc, calm.todo]
  cases pc : s.pc q with
  | ready => trivial
  | locking i =>
    rw [pc] at doing
    obtain ⟨b, rest, todo, caches⟩ := doing
    have used := conserved.referenced_of_uses (i := i) (p := q) (by simp [pc, Pc.uses])
    exact ⟨b, rest, todo, calm.caches used caches⟩
  | filling i =>
    rw [pc] at doing
    obtain ⟨⟨b, rest, todo, caches⟩, locked⟩ := doing
    have used := conserved.referenced_of_lock (i := i) (by simp [locked])
    exact ⟨⟨b, rest, todo, calm.caches used caches⟩, calm.locked i locked⟩
  | dropping i =>
    rw [pc] at doing
    exact doing

/-- The view of a thread survives the steps of the others. -/
theorem Undisturbed.runs (runs : Runs s q view)
    (booted : view.stage ≠ .boot ∧ view.stage ≠ .wiping) : Runs t q view where
  meets := by
    rw [calm.todo]
    exact runs.meets
  doing := calm.doing conserved runs.doing
  fits := by
    have fits := runs.fits
    cases stage : view.stage with
    | user =>
      rw [stage] at fits
      exact fun commits => fits (calm.commits_iff.mp commits)
    | calling =>
      rw [stage] at fits
      exact ⟨calm.booted fits.1, fun commits => fits.2.1 (calm.commits_iff.mp commits),
        calm.ready conserved fits.2.2⟩
    | boot => exact absurd stage booted.1
    | wiping => exact absurd stage booted.2
    | start | writing | installing | cleared =>
      rw [stage] at fits
      exact ⟨calm.booted fits.1, (calm.phase_eq (by simp [fits.2])).trans fits.2⟩
  log inner :=
    (calm.log (runs.fits.commits ⟨inner, booted⟩).2).trans (runs.log inner)
  held inner h member still := by
    rw [calm.pc] at still
    obtain ⟨locked, caches, valid⟩ := runs.held inner h member still
    have used := conserved.referenced_of_lock (i := h.1) (by simp [locked])
    exact ⟨calm.locked h.1 locked, calm.caches used caches, (calm.block h.1 used).2.2 valid⟩
  taking inner i filling := by
    rw [calm.pc] at filling
    exact runs.taking inner i filling
  unpinned commits :=
    (calm.unpinned (runs.fits.commits commits).2).trans (runs.unpinned commits)

end

/-- The invariant of what the processes share. -/
structure Shared (s : State Pid) : Prop where
  sound : Log.Sound s.log
  conserved : Conserved s
  unique : ∀ i j b, Caches s i b → Caches s j b → i = j
  present : ∀ b ∈ pinnedBlocks s, ∃ i, Caches s i b
  listed : ∀ i, i ∈ s.cache.lru
  onDev : ∀ i, (s.buf i).lock ≠ none → (s.buf i).dev = s.log.log.dev
  calm : s.log.log.committing = false → s.unpinned = 0

/-- The invariant, with the process that boots. -/
structure Inv (first : Pid) (s : State Pid) : Prop where
  shared : Shared s
  runs : ∀ p, ∃ view, Runs s p view
  alone : s.booted = false → ∀ q, q ≠ first → (s.todo q).Done

/-- What has to be shown of a step of one process, with its view after it. -/
structure Good (s t : State Pid) (p : Pid) (later : View) : Prop where
  shared : Shared t
  others : ∀ q, q ≠ p → Undisturbed s t q
  self : Runs t p later

/-- Only the first process is at work before the boot is over. -/
theorem Inv.eq_first {first : Pid} (inv : Inv first s)
    (active : s.booted = true ∨ ¬ (s.todo p).Done) (booted : s.booted = false) : p = first := by
  by_contra notFirst
  exact active.elim (by simp [booted]) fun busy => busy (inv.alone booted p notFirst)

section

variable {first : Pid} (inv : Inv first s) {later : View} (good : Good s t p later)
  (active : s.booted = true ∨ ¬ (s.todo p).Done)
include inv good active

theorem Inv.others_run (other : q ≠ p) {view : View} (runs : Runs s q view) : Runs t q view := by
  refine (good.others q other).runs inv.shared.conserved runs ?_
  cases booted : s.booted with
  | true =>
    have fits := runs.fits
    constructor <;> intro stage <;> simp [stage, Fits, booted] at fits
  | false =>
    -- only the first process runs, so this one is between two calls
    have done := inv.alone booted q (inv.eq_first active booted ▸ other)
    have meets := runs.meets
    cases todo : s.todo q with
    | call op rest => simp [todo, Prog.Done] at done
    | ret result =>
      rw [todo] at meets
      have user : view.stage = .user := meets
      simp [user]

/-- A good step of a thread that is not finished keeps the invariant. -/
theorem Inv.of_good (kept : s.booted = true → t.booted = true) : Inv first t where
  shared := good.shared
  runs q := by
    rcases eq_or_ne q p with rfl | other
    · exact ⟨later, good.self⟩
    · obtain ⟨view, runs⟩ := inv.runs q
      exact ⟨view, inv.others_run good active other runs⟩
  alone booted q other := by
    have before : s.booted = false := by
      by_contra already
      simp [kept (by simpa using already)] at booted
    rcases eq_or_ne q p with rfl | third
    · exact absurd (inv.alone before q other) (active.resolve_left (by simp [before]))
    · rw [(good.others q third).todo]
      exact inv.alone before q other

end

end Invariant

end Bio

end OsLab
