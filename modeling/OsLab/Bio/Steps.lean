import OsLab.Bio.Invariant

/-!
# The steps of the buffer cache

Every action keeps the invariant of the buffer cache.  Each operation is shown to keep the shared
part, to leave the other threads undisturbed and to take the view of its own thread to the next
one.
-/

namespace OsLab.Bio

open Function List

variable {x : BitVec 32}

theorem toNat_add_one (small : x.toNat + 1 < 2 ^ 32) : (x + 1).toNat = x.toNat + 1 := by
  bv_omega

theorem toNat_sub_one (pos : 1 ≤ x.toNat) : (x - 1).toNat = x.toNat - 1 := by
  bv_omega

theorem one_le_toNat (nonzero : x ≠ 0) : 1 ≤ x.toNat := by
  bv_omega

section Steps

variable {Pid : Type*} {s t : State Pid} {p : Pid} {view : View} {i : Fin nbuf} {b : Nat} {op : Op}
  {rest : op.Res → Thread Unit}

attribute [local simp] State.buf State.goto State.setThread Log.State.move

variable {q : Pid}

/-- A step that keeps the buffers another process has locked and loaded. -/
theorem Undisturbed.of_cache (todo : t.todo q = s.todo q) (pc : t.pc q = s.pc q)
    (log : t.log = s.log) (booted : s.booted = true → t.booted = true)
    (unpinned : (s.log.phase q).Commits → t.unpinned = s.unpinned)
    (locked : ∀ i, (s.buf i).lock = some q → (t.buf i).lock = some q)
    (block : ∀ i, (s.buf i).refcnt ≠ 0 →
      (t.buf i).dev = (s.buf i).dev ∧ (t.buf i).blockno = (s.buf i).blockno ∧
      ((s.buf i).valid = true → (t.buf i).valid = true)) : Undisturbed s t q where
  todo := todo
  pc := pc
  phase := .inl (by rw [log])
  booted := booted
  locked := locked
  block := block
  dev := by rw [log]
  log _ := by rw [log]
  unpinned := unpinned

/-- The counts, locks and blocks of the buffers are the same. -/
structure SameKeys (s t : State Pid) : Prop where
  buf : ∀ i, (t.buf i).refcnt = (s.buf i).refcnt ∧ (t.buf i).lock = (s.buf i).lock ∧
    (t.buf i).dev = (s.buf i).dev ∧ (t.buf i).blockno = (s.buf i).blockno ∧
    (t.buf i).valid = (s.buf i).valid
  lru : t.cache.lru = s.cache.lru
  pc : t.pc = s.pc
  todo : t.todo = s.todo

theorem SameKeys.owns (same : SameKeys s t) (dev : t.log.log.dev = s.log.log.dev)
    (owns : Owns s p i b) : Owns t p i b := by
  obtain ⟨-, lock, device, blockno, valid⟩ := same.buf i
  exact ⟨lock.trans owns.locked,
    ⟨by rw [device, dev]; exact owns.caches.1, blockno.trans owns.caches.2⟩,
    valid.trans owns.valid⟩

theorem SameKeys.refl (s : State Pid) : SameKeys s s :=
  ⟨fun _ => ⟨rfl, rfl, rfl, rfl, rfl⟩, rfl, rfl, rfl⟩

theorem sameKeys_write (i : Fin nbuf) (data : Block) :
    SameKeys s { s with cache := s.cache.write i data } :=
  ⟨fun j => by simp, rfl, rfl, rfl⟩

theorem SameKeys.undisturbed (same : SameKeys s t)
    (phase : t.log.phase q = s.log.phase q ∨ t.log.phase q = (s.log.phase q).wakeup)
    (booted : s.booted = true → t.booted = true) (dev : t.log.log.dev = s.log.log.dev)
    (quiet : (s.log.phase q).Commits → t.log.log = s.log.log ∧ t.unpinned = s.unpinned) :
    Undisturbed s t q where
  todo := by rw [same.todo]
  pc := by rw [same.pc]
  phase := phase
  booted := booted
  locked i theirs := (same.buf i).2.1.trans theirs
  block i _ := by
    obtain ⟨-, -, device, blockno, valid⟩ := same.buf i
    exact ⟨device, blockno, valid.trans⟩
  dev := dev
  log commits := (quiet commits).1
  unpinned commits := (quiet commits).2

/-- Where a process in `bread` can be. -/
theorem Doing.bread {rest : Fin nbuf → Thread Unit} (doing : Doing s p)
    (todo : s.todo p = .call (.bread b) rest) :
    s.pc p = .ready ∨ (∃ i, s.pc p = .locking i ∧ Caches s i b) ∨
      ∃ i, s.pc p = .filling i ∧ Caches s i b ∧ (s.buf i).lock = some p := by
  cases pc : s.pc p with
  | ready => exact .inl rfl
  | locking i =>
    rw [Doing, pc] at doing
    obtain ⟨c, rest', todo', caches⟩ := doing
    cases todo.symm.trans todo'
    exact .inr (.inl ⟨i, rfl, caches⟩)
  | filling i =>
    rw [Doing, pc] at doing
    obtain ⟨⟨c, rest', todo', caches⟩, locked⟩ := doing
    cases todo.symm.trans todo'
    exact .inr (.inr ⟨i, rfl, caches, locked⟩)
  | dropping i => simp [Doing, pc, todo] at doing

/-- Where a process in `brelse` can be. -/
theorem Doing.brelse {rest : Unit → Thread Unit} (doing : Doing s p)
    (todo : s.todo p = .call (.brelse i) rest) : s.pc p = .ready ∨ s.pc p = .dropping i := by
  cases pc : s.pc p with
  | ready => exact .inl rfl
  | locking j | filling j => simp [Doing, pc, todo] at doing
  | dropping j =>
    rw [Doing, pc] at doing
    obtain ⟨rest', todo'⟩ := doing
    cases todo.symm.trans todo'
    exact .inr rfl

theorem Pristine.congr (pristine : Pristine s) (log : t.log = s.log) (disk : t.disk = s.disk)
    (same : ∀ i, (t.buf i).dev = (s.buf i).dev ∧ (t.buf i).valid = (s.buf i).valid ∧
      (t.buf i).data = (s.buf i).data ∧ (t.buf i).blockno = (s.buf i).blockno) : Pristine t where
  clean i := by
    obtain ⟨dev, valid, data, blockno⟩ := same i
    rw [dev, valid, data, blockno, log, disk]
    exact pristine.clean i
  empty := by
    rw [log, disk]
    exact pristine.empty

/-- A stage that fits the log keeps doing so while the log stays. -/
theorem Fits.congr {stage : Stage} (fits : Fits s p stage) (log : t.log = s.log)
    (booted : t.booted = s.booted) (ready : stage = .calling → Ready s p → Ready t p)
    (pristine : stage = .boot → Pristine s → Pristine t) : Fits t p stage := by
  cases stage with
  | calling =>
    simp only [Fits, log, booted] at fits ⊢
    exact ⟨fits.1, fits.2.1, ready rfl fits.2.2⟩
  | boot =>
    simp only [Fits, log, booted] at fits ⊢
    exact ⟨fits.1, fits.2.1, pristine rfl fits.2.2⟩
  | _ =>
    simp only [Fits, log, booted] at fits ⊢
    exact fits

/-- After a call, or inside `commit` or `initlog` with other buffers held. -/
def View.hold (view : View) (held : List (Fin nbuf × Nat)) : View :=
  if view.stage = .calling then outer .user else { view with held }

theorem ready_bread {rest : Fin nbuf → Thread Unit} (todo : t.todo p = .call (.bread b) rest) :
    Ready t p := by
  rw [Ready, todo]
  trivial

theorem ready_brelse {rest : Unit → Thread Unit} (todo : t.todo p = .call (.brelse i) rest) :
    Ready t p := by
  rw [Ready, todo]
  trivial

/-- Only `bread` and `brelse` take several steps. -/
def Op.single : Op → Bool
  | .bread _ | .brelse _ => false
  | _ => true

theorem setHeader_self (s : State Pid) {lh : LogHeader} (same : lh = s.log.log.lh) :
    setHeader s lh = s := by
  rw [same]
  rfl

/-- Reading an empty header over an empty header changes nothing. -/
theorem load_of_empty {old : LogHeader} {buf : Block} (empty : buf.getLE 0 4 = 0)
    (before : old.n = 0) : old.load buf = old := by
  cases old with
  | mk n block =>
    obtain rfl : n = 0 := before
    simp [LogHeader.load, empty]

theorem pinnedBlocks_of_whole (booted : s.booted = true) (whole : s.unpinned = 0) :
    pinnedBlocks s = s.log.log.lh.entries := by
  rw [pinnedBlocks, if_pos booted, whole, drop_zero]

/-- The buffer cache after the locked part of `log_write`. -/
def pinIfNew (s : State Pid) (i : Fin nbuf) : Bcache Pid :=
  if s.log.log.lh.find (s.buf i).blockno = s.log.log.lh.n then s.cache.bpin i else s.cache

theorem pinIfNew_keys (s : State Pid) (i j : Fin nbuf) :
    ((pinIfNew s i).buf j).lock = (s.buf j).lock ∧ ((pinIfNew s i).buf j).dev = (s.buf j).dev ∧
      ((pinIfNew s i).buf j).blockno = (s.buf j).blockno ∧
      ((pinIfNew s i).buf j).valid = (s.buf j).valid := by
  unfold pinIfNew
  split <;> simp

theorem pinIfNew_lru (s : State Pid) (i : Fin nbuf) : (pinIfNew s i).lru = s.cache.lru := by
  unfold pinIfNew
  split <;> rfl

section

variable (runs : Runs s p view)
include runs

theorem Runs.pre (todo : s.todo p = .call op rest) : pre op view := by
  have meets := runs.meets
  rw [todo] at meets
  exact meets.1

theorem Runs.logging {rest : Unit → Thread Unit} (todo : s.todo p = .call (.logWrite i) rest) :
    (s.buf i).lock = some p ∧ ∃ logged, s.log.phase p = .inside logged ∨
      s.log.phase p = .logging (s.buf i).blockno logged := by
  have stage : view.stage = .calling := runs.pre todo
  have ready := (runs.fits_of stage).2.2
  rw [Ready, todo] at ready
  exact ready

/-- A step within a call, after which the thread is where it was. -/
theorem Runs.progress (todo : t.todo p = s.todo p) (log : t.log = s.log)
    (booted : t.booted = s.booted) (unpinned : t.unpinned = s.unpinned) (doing : Doing t p)
    (ready : view.stage = .calling → Ready s p → Ready t p)
    (pristine : view.stage = .boot → Pristine s → Pristine t)
    (held : view.stage.Inner → ∀ h ∈ view.held, t.pc p ≠ .dropping h.1 → Owns t p h.1 h.2)
    (taking : view.stage.Inner → ∀ i, t.pc p = .filling i → ∀ h ∈ view.held, h.1 ≠ i) :
    Runs t p view where
  meets := todo ▸ runs.meets
  doing := doing
  fits := runs.fits.congr log booted ready pristine
  log inner := by rw [log]; exact runs.log inner
  held := held
  taking := taking
  unpinned commits := unpinned.trans (runs.unpinned commits)

/-- A call returns, and the thread goes on with what it then knows. -/
theorem Runs.return (todo : s.todo p = .call op rest) (result : op.Res)
    {later : View} (after : post op view result later) (next : t.todo p = rest result)
    (pc : t.pc p = .ready) (fits : Fits t p later.stage)
    (log : later.stage.Inner → t.log.log = later.log)
    (held : later.stage.Inner → ∀ h ∈ later.held, Owns t p h.1 h.2)
    (unpinned : later.stage.Commits → t.unpinned = later.installed) : Runs t p later where
  meets := by
    have meets := runs.meets
    rw [todo] at meets
    rw [next]
    exact meets.2 result later after
  doing := by
    rw [Doing, pc]
    trivial
  fits := fits
  log := log
  held inner h member _ := held inner h member
  taking inner i filling := by simp [pc] at filling
  unpinned := unpinned

theorem Runs.return_hold (todo : s.todo p = .call op rest) (result : op.Res)
    (held : List (Fin nbuf × Nat)) (after : post op view result (view.hold held))
    (next : t.todo p = rest result) (pc : t.pc p = .ready) (log : t.log = s.log)
    (booted : t.booted = s.booted) (unpinned : t.unpinned = s.unpinned)
    (pristine : view.stage = .boot → Pristine s → Pristine t)
    (owns : view.stage.Inner → ∀ h ∈ held, Owns t p h.1 h.2) : Runs t p (view.hold held) := by
  by_cases calling : view.stage = .calling
  · have outside := (runs.fits_of calling).2.1
    rw [View.hold, if_pos calling] at after ⊢
    exact runs.return todo result after next pc (by rwa [← log] at outside)
      (absurd rfl ·.1) (absurd rfl ·.1)
      (absurd rfl ·.1.1)
  · rw [View.hold, if_neg calling] at after ⊢
    exact runs.return todo result after next pc
      (runs.fits.congr log booted (absurd · calling) pristine)
      (fun inner => by rw [log]; exact runs.log inner) owns
      fun commits => unpinned.trans (runs.unpinned commits)

theorem Runs.held_congr (log : t.log = s.log)
    (keys : ∀ i, (t.buf i).lock = (s.buf i).lock ∧ (t.buf i).dev = (s.buf i).dev ∧
      (t.buf i).blockno = (s.buf i).blockno ∧ (t.buf i).valid = (s.buf i).valid)
    (inner : view.stage.Inner) (h : Fin nbuf × Nat) (member : h ∈ view.held)
    (still : s.pc p ≠ .dropping h.1) : Owns t p h.1 h.2 := by
  obtain ⟨lock, dev, blockno, valid⟩ := keys h.1
  have owns := runs.held inner h member still
  exact ⟨lock.trans owns.locked, ⟨by rw [dev, log]; exact owns.caches.1,
    blockno.trans owns.caches.2⟩, valid.trans owns.valid⟩

theorem Runs.pc_ready (todo : s.todo p = .call op rest)
    (single : op.single = true) : s.pc p = .ready := by
  have doing := runs.doing
  cases pc : s.pc p with
  | ready => rfl
  | locking i | filling i | dropping i =>
    rw [Doing, pc, todo] at doing
    cases op <;> simp_all [Op.single]

/-- `read_head` at boot finds the empty header it has. -/
theorem Runs.readHeader_eq {rest : Unit → Thread Unit}
    (todo : s.todo p = .call (.readHeader i) rest) :
    setHeader s (s.log.log.lh.load (s.buf i).data) = s := by
  obtain ⟨boot, empty, holds⟩ := runs.pre todo
  have inner : view.stage.Inner := by rw [boot]; decide
  have pc := runs.pc_ready todo rfl
  have owns := runs.held inner _ holds (by simp [pc])
  have fits := runs.fits_of boot
  have pristine : Pristine s := fits.2.2
  have log := runs.log inner
  have data : (s.buf i).data = s.disk s.log.log.start := by
    rw [pristine.clean i owns.caches.1 owns.valid, owns.caches.2, log]
  have blank : (s.buf i).data.getLE 0 4 = 0 := by
    rw [data]
    exact pristine.empty
  exact setHeader_self s (load_of_empty blank (by rw [log]; exact empty))

theorem Runs.during_call (stage : view.stage = .calling)
    (todo : t.todo p = s.todo p) (pc : t.pc p = .ready) (booted : t.booted = s.booted)
    (outside : ¬ (t.log.phase p).Commits) (ready : Ready t p) : Runs t p view where
  meets := todo ▸ runs.meets
  doing := by
    rw [Doing, pc]
    trivial
  fits := by
    have fits := runs.fits
    rw [stage] at fits ⊢
    exact ⟨booted.trans fits.1, outside, ready⟩
  log inner := absurd stage inner.2
  held inner := absurd stage inner.2
  taking inner := absurd stage inner.2
  unpinned commits := absurd stage commits.1.2

/-- `install_trans` has its next block in front of the pinned ones. -/
theorem Runs.pinnedBlocks_cons (stage : view.stage = .installing)
    (within : view.installed < view.log.lh.n) : pinnedBlocks s =
      view.log.lh.block view.installed :: s.log.log.lh.entries.drop (s.unpinned + 1) := by
  have log := runs.log (by rw [stage]; decide)
  have unpinned := runs.unpinned (by rw [stage]; decide)
  have listed : s.unpinned < s.log.log.lh.entries.length := by
    rw [LogHeader.length_entries, unpinned, log]
    exact within
  rw [pinnedBlocks, if_pos (runs.fits_of stage).1, drop_eq_getElem_cons listed]
  simp [LogHeader.entries, unpinned, log]

theorem Runs.user (done : (s.todo p).Done) :
    view.stage = .user ∧ s.pc p = .ready := by
  cases todo : s.todo p with
  | call op rest => simp [todo, Prog.Done] at done
  | ret result =>
    have meets := runs.meets
    rw [todo] at meets
    refine ⟨meets, ?_⟩
    have doing := runs.doing
    cases pc : s.pc p with
    | ready => rfl
    | locking i | filling i | dropping i => simp [Doing, pc, todo] at doing

end

section

variable [DecidableEq Pid]

theorem Undisturbed.goto {cache : Bcache Pid} {q : Pid} {pc : Pc} (other : q ≠ p)
    (locked : ∀ i, (s.buf i).lock = some q → (cache.buf i).lock = some q)
    (block : ∀ i, (s.buf i).refcnt ≠ 0 →
      (cache.buf i).dev = (s.buf i).dev ∧ (cache.buf i).blockno = (s.buf i).blockno ∧
      ((s.buf i).valid = true → (cache.buf i).valid = true)) :
    Undisturbed s ({ s with cache := cache }.goto p pc) q :=
  .of_cache rfl (by simp [other]) rfl id (fun _ => rfl) locked block

theorem Undisturbed.retire {q : Pid} (calm : Undisturbed s t q) (other : q ≠ p)
    (thread : Thread Unit) : Undisturbed s (t.setThread p thread) q :=
  { calm with todo := by simpa [other] using calm.todo }

theorem phase_stepLog (s : State Pid) (action : Log.Action Pid) (other : q ≠ action.actor) :
    (stepLog s action).log.phase q = s.log.phase q ∨
      (stepLog s action).log.phase q = (s.log.phase q).wakeup :=
  Log.phase_next_of_ne s.log other

theorem stepLog_keys (s : State Pid) (action : Log.Action Pid) : SameKeys s (stepLog s action) :=
  ⟨fun _ => ⟨rfl, rfl, rfl, rfl, rfl⟩, rfl, rfl, rfl⟩

variable {log : Log.State Pid} {logged : Finset Nat}

theorem logLocked_fails (running : log.fault = none) (logging : log.phase p = .logging b logged)
    (fault : (Log.next log (.logLocked p)).fault ≠ none) :
    Log.next log (.logLocked p) = log.fail .outOfBounds := by
  simp only [Log.next, logging, Log.logWriteLocked] at fault ⊢
  split at fault
  · rename_i full
    rw [if_pos full]
  · exact absurd running fault

/-- The locked part of `log_write` lists the block unless it faults. -/
theorem logLocked_records (logging : log.phase p = .logging b logged)
    (fine : (Log.next log (.logLocked p)).fault = none) :
    Log.next log (.logLocked p) = Log.logRecord log p b logged := by
  simp only [Log.next, logging, Log.logWriteLocked] at fine ⊢
  split at fine
  · simp [Log.State.fail] at fine
  · rename_i roomy
    rw [if_neg roomy]

theorem mem_pinnedBlocks_record (log : t.log = Log.logRecord s.log p b logged)
    (booted : s.booted = true) (same : t.booted = s.booted) (whole : s.unpinned = 0)
    (still : t.unpinned = s.unpinned) (c : Nat) :
    c ∈ pinnedBlocks t ↔ c = b ∨ c ∈ pinnedBlocks s := by
  rw [pinnedBlocks_of_whole (same.trans booted) (still.trans whole),
    pinnedBlocks_of_whole booted whole, log]
  exact LogHeader.mem_entries_record ..

theorem booted_advance (booted : s.booted = true) (op : Op) : (advance s p op).1.booted = true := by
  cases op with
  | bread b =>
    simp only [advance, stepBread]
    split
    · exact booted
    · exact booted
    · split <;> exact booted
  | brelse i =>
    simp only [advance, stepBrelse]
    split
    · exact booted
    · split <;> exact booted
  | bwrite i =>
    simp only [advance, stepBwrite]
    split <;> exact booted
  | logWrite i =>
    simp only [advance, stepLogWrite]
    split
    · split <;> exact booted
    · exact booted
  | booted => rfl
  | _ => exact booted

theorem booted_resume (booted : s.booted = true) :
    (resume p rest (advance s p op)).booted = true := by
  have kept := booted_advance (p := p) booted op
  unfold resume
  split
  · rename_i after
    rw [after] at kept
    exact kept
  · rename_i after
    rw [after] at kept
    exact kept

end

variable [Fintype Pid]

section

variable (shared : Shared s)
include shared

theorem Shared.rekey (sound : Log.Sound t.log) (conserved : Conserved t)
    (dev : t.log.log.dev = s.log.log.dev)
    (keys : ∀ i, (t.buf i).dev = (s.buf i).dev ∧ (t.buf i).blockno = (s.buf i).blockno)
    (present : ∀ b ∈ pinnedBlocks t, b ∈ pinnedBlocks s ∨ ∃ i, Caches s i b)
    (listed : ∀ i, i ∈ t.cache.lru)
    (onDev : ∀ i, (t.buf i).lock ≠ none → (s.buf i).dev = s.log.log.dev)
    (calm : t.log.log.committing = false → t.unpinned = 0) : Shared t := by
  have caches : ∀ i b, Caches t i b ↔ Caches s i b := by
    intro i b
    rw [Caches, Caches, (keys i).1, (keys i).2, dev]
  exact
    { sound, conserved, listed, calm
      unique := fun i j b first second =>
        shared.unique i j b ((caches i b).mp first) ((caches j b).mp second)
      present := fun b member => by
        obtain ⟨i, cached⟩ := (present b member).elim (shared.present b) id
        exact ⟨i, (caches i b).mpr cached⟩
      onDev := fun i locked => by
        rw [(keys i).1, dev]
        exact onDev i locked }

theorem Shared.congr (sound : Log.Sound t.log) (same : SameKeys s t)
    (dev : t.log.log.dev = s.log.log.dev) (blocks : pinnedBlocks t = pinnedBlocks s)
    (calm : t.log.log.committing = false → t.unpinned = 0) : Shared t := by
  have keys : ∀ i, (t.buf i).dev = (s.buf i).dev ∧ (t.buf i).blockno = (s.buf i).blockno :=
    fun i => ⟨(same.buf i).2.2.1, (same.buf i).2.2.2.1⟩
  refine shared.rekey sound (fun i => ?_) dev keys (fun b member => .inl (blocks ▸ member))
    (by rw [same.lru]; exact shared.listed) (fun i locked => ?_) calm
  · have pinned : pins t i = pins s i := by
      refine pins_congr ?_
      rw [Pinned, Pinned, (keys i).1, (keys i).2, dev, blocks]
    rw [(same.buf i).1, pinned, handles, same.pc, holders, (same.buf i).2.1]
    exact shared.conserved i
  · rw [(same.buf i).2.1] at locked
    exact shared.onDev i locked

/-- Reference counts stay far below the bound of their type. -/
theorem Shared.refcnt_small (small : Fintype.card Pid ≤ nproc) (i : Fin nbuf) :
    (s.buf i).refcnt.toNat + 1 < 2 ^ 32 := by
  have count := shared.conserved i
  have few := handles_le s i
  have one := pins_le s i
  simp only [nproc] at small
  omega

/-- At a boot with an empty log the header is empty already. -/
theorem Shared.resetHeader_eq (runs : Runs s p view) {rest : Unit → Thread Unit}
    (todo : s.todo p = .call .resetHeader rest) :
    { setHeader s { s.log.log.lh with n := 0 } with unpinned := 0 } = s := by
  obtain ⟨stage, empty, free⟩ := runs.pre todo
  have log := runs.log (by rw [stage]; decide)
  have unpinned : s.unpinned = 0 := shared.calm (by rw [log]; exact free)
  have lh : { s.log.log.lh with n := 0 } = s.log.log.lh := by
    rw [log, ← empty]
  rw [setHeader_self s lh, ← unpinned]

theorem good_panic (runs : Runs s p view) (panic : Option Panic) :
    Good s { s with panic := panic } p view := by
  refine ⟨{ shared with }, fun q _ => ?_, ?_⟩
  · exact .of_cache rfl rfl rfl id (fun _ => rfl) (fun _ => id) fun _ _ => ⟨rfl, rfl, id⟩
  · exact runs.progress rfl rfl rfl rfl runs.doing (fun _ => id) (fun _ before => { before with })
      (fun inner h member still => { runs.held inner h member still with }) runs.taking

/-- User code changes a buffer it has locked. -/
theorem good_modify (runs : Runs s p view) (done : (s.todo p).Done) (i : Fin nbuf) (data : Block) :
    Good s { s with cache := s.cache.write i data } p view := by
  obtain ⟨stage, pc⟩ := runs.user done
  have notInner : ¬ view.stage.Inner := fun inner => inner.1 stage
  have same := sameKeys_write (s := s) i data
  refine ⟨shared.congr shared.sound same rfl rfl shared.calm, fun q _ => ?_, ?_⟩
  · exact same.undisturbed (.inl rfl) id rfl fun _ => ⟨rfl, rfl⟩
  refine runs.progress rfl rfl rfl rfl ?_ (by simp [stage]) (by simp [stage])
    (absurd · notInner) (absurd · notInner)
  rw [Doing, show ({ s with cache := s.cache.write i data } : State Pid).pc p = .ready from pc]
  trivial

end

variable [DecidableEq Pid]

/-- One process moves and the references of the buffers move with it. -/
theorem Shared.recount (shared : Shared s) {cache : Bcache Pid} {pc : Pc}
    (keys : ∀ i, (cache.buf i).dev = (s.buf i).dev ∧ (cache.buf i).blockno = (s.buf i).blockno)
    (listed : ∀ i, i ∈ cache.lru)
    (balance : ∀ i, (cache.buf i).refcnt.toNat + (s.pc p).uses i + holders (s.buf i) =
      (s.buf i).refcnt.toNat + pc.uses i + holders (cache.buf i))
    (onDev : ∀ i, (cache.buf i).lock ≠ none → (s.buf i).dev = s.log.log.dev) :
    Shared ({ s with cache := cache }.goto p pc) := by
  refine shared.rekey shared.sound (shared.conserved.of_balance (p := p) rfl fun i => ?_) rfl keys
    (fun _ => .inl) listed onDev shared.calm
  have pinned : pins ({ s with cache := cache }.goto p pc) i = pins s i := by
    refine pins_congr ?_
    change (cache.buf i).dev = _ ∧ (cache.buf i).blockno ∈ _ ↔ _
    rw [(keys i).1, (keys i).2]
    exact .rfl
  rw [pinned]
  have change := balance i
  change (cache.buf i).refcnt.toNat + _ + _ + _ = _ + _ + holders (cache.buf i) + _
  omega

section Bread

variable {rest : Fin nbuf → Thread Unit}

section

variable (shared : Shared s)
include shared

/-- `bget` finds the block and takes a reference. -/
theorem Shared.bget_hit (small : Fintype.card Pid ≤ nproc) (pc : s.pc p = .ready) :
    Shared ({ s with cache := s.cache.bpin i }.goto p (.locking i)) := by
  refine shared.recount (fun j => by simp) shared.listed (fun j => ?_) fun j locked => ?_
  · have bound := shared.refcnt_small small j
    simp only [pc, Pc.uses]
    rcases eq_or_ne j i with rfl | other
    · simpa [holders] using bound
    · simp [holders, other, other.symm]
  · rw [Bcache.bpin_lock] at locked
    exact shared.onDev j locked

/-- `bget` gives an unused buffer to the block. -/
theorem Shared.bget_miss (pc : s.pc p = .ready) (missing : s.cache.find s.log.log.dev b = none)
    (found : s.cache.unused = some i) :
    Shared ({ s with cache := s.cache.recycle i s.log.log.dev b }.goto p (.locking i)) := by
  have unused : (s.buf i).refcnt = 0 := Bcache.unused_eq_some found
  have uncached : ∀ j, ¬ Caches s j b := Bcache.find_eq_none shared.listed missing
  have unlocked : (s.buf i).lock = none := by
    by_contra locked
    exact shared.conserved.referenced_of_lock locked unused
  have unpinned : pins s i = 0 := (shared.conserved.idle unused).2
  have unlisted : b ∉ pinnedBlocks s := fun member =>
    (shared.present b member).elim fun j caches => uncached j caches
  set t := { s with cache := s.cache.recycle i s.log.log.dev b }.goto p (.locking i) with ht
  have self : t.buf i = { s.buf i with
      dev := s.log.log.dev, blockno := b, valid := false, refcnt := 1 } := by
    simp [ht, Bcache.recycle]
  have others : ∀ j, j ≠ i → t.buf j = s.buf j := by
    intro j other
    simp [ht, Bcache.recycle, other]
  have caches_ne : ∀ j c, j ≠ i → (Caches t j c ↔ Caches s j c) := by
    intro j c other
    rw [Caches, Caches, others j other]
    exact .rfl
  have caches_self : ∀ c, Caches t i c ↔ c = b := by
    intro c
    rw [Caches, self]
    exact ⟨fun cached => cached.2.symm, fun same => ⟨rfl, same.symm⟩⟩
  exact
    { sound := shared.sound
      conserved := shared.conserved.of_balance (p := p) rfl fun j => by
        simp only [pc, Pc.uses]
        rcases eq_or_ne j i with rfl | other
        · have fresh : pins t j = 0 := by
            rw [pins, if_neg]
            rintro ⟨-, member⟩
            rw [self] at member
            exact unlisted member
          rw [fresh, unpinned, self, if_pos rfl, unused]
          simp [holders, unlocked]
        · have same : pins t j = pins s j := by
            refine pins_congr ?_
            rw [Pinned, Pinned, others j other]
            exact .rfl
          rw [others j other, same, if_neg other.symm]
      unique := fun j k c first second => by
        rcases eq_or_ne i j with rfl | jne <;> rcases eq_or_ne i k with rfl | kne
        · rfl
        · rw [caches_self] at first
          rw [caches_ne k c kne.symm, first] at second
          exact absurd second (uncached k)
        · rw [caches_self] at second
          rw [caches_ne j c jne.symm, second] at first
          exact absurd first (uncached j)
        · exact shared.unique j k c ((caches_ne j c jne.symm).mp first)
            ((caches_ne k c kne.symm).mp second)
      present := fun c member => by
        obtain ⟨j, caches⟩ := shared.present c member
        refine ⟨j, (caches_ne j c ?_).mpr caches⟩
        rintro rfl
        exact shared.conserved.referenced_of_pinned ⟨caches.1, caches.2.symm ▸ member⟩ unused
      listed := shared.listed
      onDev := fun j locked => by
        rcases eq_or_ne j i with rfl | other
        · rw [self]
          rfl
        · rw [others j other] at locked ⊢
          exact shared.onDev j locked
      calm := shared.calm }

theorem Shared.acquiresleep (pc : s.pc p = .locking i) (free : (s.buf i).lock = none)
    (caches : Caches s i b) :
    Shared ({ s with cache := s.cache.acquiresleep i p }.goto p (.filling i)) := by
  refine shared.recount (fun j => by simp) shared.listed (fun j => ?_) fun j locked => ?_
  · simp only [pc, Pc.uses]
    rcases eq_or_ne j i with rfl | other
    · simp only [State.buf] at free
      simp [holders, free]
    · simp [holders, other, other.symm]
  · rcases eq_or_ne j i with rfl | other
    · exact caches.1
    · rw [Bcache.acquiresleep_lock_ne other] at locked
      exact shared.onDev j locked

theorem Shared.fill (pc : s.pc p = .filling i) :
    Shared ({ s with cache := s.cache.fill i s.disk }.goto p .ready) := by
  refine shared.recount (fun j => by simp) shared.listed (fun j => ?_) fun j locked => ?_
  · simp [pc, Pc.uses, holders]
  · rw [Bcache.fill_lock] at locked
    exact shared.onDev j locked

theorem Shared.releasesleep (pc : s.pc p = .ready) (locked : (s.buf i).lock = some p) :
    Shared ({ s with cache := s.cache.releasesleep i }.goto p (.dropping i)) := by
  refine shared.recount (fun j => by simp) shared.listed (fun j => ?_) fun j still => ?_
  · simp only [pc, Pc.uses]
    rcases eq_or_ne j i with rfl | other
    · simp only [State.buf] at locked
      simp [holders, locked]
    · simp [holders, other, other.symm]
  · rcases eq_or_ne j i with rfl | other
    · simp at still
    · rw [Bcache.releasesleep_lock_ne other] at still
      exact shared.onDev j still

/-- `brelse` drops its reference under `bcache.lock`. -/
theorem Shared.put (pc : s.pc p = .dropping i) :
    Shared ({ s with cache := s.cache.put i }.goto p .ready) := by
  refine shared.recount (fun j => by simp [Bcache.put_buf])
    (fun j => Bcache.mem_put_lru (shared.listed j)) (fun j => ?_) fun j locked => ?_
  · have used : (s.buf i).refcnt ≠ 0 :=
      shared.conserved.referenced_of_uses (p := p) (by simp [pc, Pc.uses])
    simp only [pc, Pc.uses, Bcache.put_buf]
    rcases eq_or_ne j i with rfl | other
    · have pos : 1 ≤ (s.buf j).refcnt.toNat := one_le_toNat used
      simp only [State.buf] at pos
      simp only [State.buf, Bcache.bunpin_refcnt_same, toNat_sub_one pos, if_true, holders,
        Bcache.bunpin_lock]
      omega
    · simp [holders, other, other.symm]
  · simp only [Bcache.put_buf, Bcache.bunpin_lock] at locked
    exact shared.onDev j locked

end

theorem Shared.setThread (shared : Shared t) (thread : Thread Unit) :
    Shared (t.setThread p thread) :=
  { shared with }

/-- `bget` ends with a reference and without the sleep lock. -/
theorem good_bget (shared : Shared s) (small : Fintype.card Pid ≤ nproc) (runs : Runs s p view)
    (todo : s.todo p = .call (.bread b) rest) (pc : s.pc p = .ready)
    (found : s.cache.bget s.log.log.dev b = some (i, cache)) :
    Good s ({ s with cache := cache }.goto p (.locking i)) p view := by
  rcases Bcache.bget_eq_some found with ⟨hit, rfl⟩ | ⟨missing, unused, rfl⟩
  · have caches : Caches s i b := Bcache.find_eq_some hit
    refine ⟨shared.bget_hit small pc, fun q other => .goto other ?_ ?_, ?_⟩
    · intro k locked
      rw [Bcache.bpin_lock]
      exact locked
    · intro k _
      simp
    · refine runs.progress rfl rfl rfl rfl ?_ (fun _ _ => ready_bread todo) ?_ ?_ ?_
      · simp only [Doing, State.goto, update_self]
        exact ⟨b, rest, todo, by simpa [Caches] using caches⟩
      · exact fun _ pristine => pristine.congr rfl rfl fun k => by simp
      · intro inner h member _
        refine runs.held_congr ?_ (fun k => ?_) inner h member (by simp [pc])
        · rfl
        · simp
      · intro _ k filling
        simp at filling
  · have free : (s.buf i).refcnt = 0 := Bcache.unused_eq_some unused
    have others : ∀ k, (s.buf k).refcnt ≠ 0 →
        (s.cache.recycle i s.log.log.dev b).buf k = s.buf k := by
      intro k used
      have other : k ≠ i := by
        rintro rfl
        exact used free
      simp [Bcache.recycle, other]
    refine ⟨shared.bget_miss pc missing unused, fun q other => .goto other ?_ ?_, ?_⟩
    · intro k locked
      rw [others k (shared.conserved.referenced_of_lock (by simp [locked]))]
      exact locked
    · intro k used
      rw [others k used]
      exact ⟨rfl, rfl, id⟩
    · refine runs.progress rfl rfl rfl rfl ?_ (fun _ _ => ready_bread todo) ?_ ?_ ?_
      · simp only [Doing, State.goto, update_self]
        exact ⟨b, rest, todo, by simp [Caches, Bcache.recycle]⟩
      · rintro - ⟨clean, empty⟩
        refine ⟨fun k dev valid => ?_, empty⟩
        simp only [State.goto, State.buf] at dev valid ⊢
        rcases eq_or_ne k i with rfl | other
        · simp [Bcache.recycle] at valid
        · simp only [Bcache.recycle, Bcache.modify_buf_ne other] at dev valid ⊢
          exact clean k dev valid
      · intro inner h member _
        obtain ⟨locked, caches, valid⟩ := runs.held inner h member (by simp [pc])
        have same := others h.1 (shared.conserved.referenced_of_lock (by simp [locked]))
        refine ⟨?_, ?_, ?_⟩ <;> simp only [State.goto, State.buf, Caches, same]
        · exact locked
        · exact caches
        · exact valid
      · intro _ k filling
        simp at filling

section

variable (shared : Shared s) (runs : Runs s p view) (todo : s.todo p = .call (.bread b) rest)
include shared runs todo

/-- `bget` has waited for the sleep lock, on a buffer that still has its block. -/
theorem good_acquiresleep (pc : s.pc p = .locking i) (caches : Caches s i b)
    (free : (s.buf i).lock = none) :
    Good s ({ s with cache := s.cache.acquiresleep i p }.goto p (.filling i)) p view := by
  have held_ne : view.stage.Inner → ∀ h ∈ view.held, h.1 ≠ i := by
    rintro inner h member rfl
    have locked := (runs.held inner h member (by simp [pc])).locked
    simp [free] at locked
  refine ⟨shared.acquiresleep pc free caches, fun q other => .goto other ?_ ?_, ?_⟩
  · intro k locked
    have other : k ≠ i := by
      rintro rfl
      simp [free] at locked
    rw [Bcache.acquiresleep_lock_ne other]
    exact locked
  · intro k _
    simp
  · refine runs.progress rfl rfl rfl rfl ?_ (fun _ _ => ready_bread todo) ?_ ?_ ?_
    · simp only [Doing, State.goto, update_self]
      exact ⟨⟨b, rest, todo, by simpa [Caches] using caches⟩, by simp⟩
    · exact fun _ pristine => pristine.congr rfl rfl fun k => by simp
    · intro inner h member _
      obtain ⟨locked, cached, valid⟩ := runs.held inner h member (by simp [pc])
      have other := held_ne inner h member
      refine ⟨?_, by simpa [Caches] using cached, by simpa using valid⟩
      simp only [State.goto, State.buf, Bcache.acquiresleep_lock_ne other]
      exact locked
    · intro inner k filling
      obtain rfl : i = k := by simpa using filling
      exact held_ne inner

/-- `bread` returns with the buffer valid. -/
theorem good_fill (pc : s.pc p = .filling i) (caches : Caches s i b)
    (locked : (s.buf i).lock = some p) :
    Good s (({ s with cache := s.cache.fill i s.disk }.goto p .ready).setThread p (rest i))
      p (view.take i b) := by
  refine ⟨(shared.fill pc).setThread _, fun q other => ?_, ?_⟩
  · refine Undisturbed.retire (Undisturbed.goto other ?_ ?_) other _
    · intro k locked
      rw [Bcache.fill_lock]
      exact locked
    · intro k _
      exact ⟨by simp, by simp, fun valid => Bcache.fill_valid (.inr valid)⟩
  · refine runs.return_hold todo i ((i, b) :: view.held) ⟨rfl, fun inner => ?_⟩
      (by simp) (by simp) rfl rfl rfl
      ?_ ?_
    · exact runs.taking inner i pc
    · rintro - ⟨clean, empty⟩
      refine ⟨fun k dev valid => ?_, empty⟩
      simp only [State.setThread, State.goto, State.buf, Bcache.fill_dev,
        Bcache.fill_blockno] at dev valid ⊢
      rcases eq_or_ne k i with rfl | other
      · simp only [Bcache.fill, Bcache.modify_buf_same] at valid ⊢
        split
        · rename_i wasValid
          exact clean k dev wasValid
        · rfl
      · simp only [Bcache.fill, Bcache.modify_buf_ne other] at valid ⊢
        exact clean k dev valid
    · intro inner h member
      have keep : ∀ k c, (s.buf k).lock = some p → Caches s k c →
          (k = i ∨ (s.buf k).valid = true) → Owns (({ s with
            cache := s.cache.fill i s.disk }.goto p .ready).setThread p (rest i)) p k c := by
        intro k c mine cached valid
        refine ⟨?_, ?_, Bcache.fill_valid valid⟩
        · simpa using mine
        · simpa [Caches] using cached
      rcases mem_cons.mp member with rfl | old
      · exact keep i b locked caches (.inl rfl)
      · have owns := runs.held inner h old (by simp [pc])
        exact keep h.1 h.2 owns.locked owns.caches (.inr owns.valid)

end

end Bread

section Brelse

variable {rest : Unit → Thread Unit}

section

variable (shared : Shared s) (runs : Runs s p view) (todo : s.todo p = .call (.brelse i) rest)
include shared runs todo

/-- `brelse` has given the sleep lock back and has its reference. -/
theorem good_releasesleep (pc : s.pc p = .ready) (locked : (s.buf i).lock = some p) :
    Good s ({ s with cache := s.cache.releasesleep i }.goto p (.dropping i)) p view := by
  refine ⟨shared.releasesleep pc locked, fun q other => .goto other ?_ ?_, ?_⟩
  · intro k theirs
    have different : k ≠ i := by
      rintro rfl
      exact other (Option.mem_unique theirs locked)
    rw [Bcache.releasesleep_lock_ne different]
    exact theirs
  · intro k _
    simp
  · refine runs.progress rfl rfl rfl rfl ?_ (fun _ _ => ready_brelse todo) ?_ ?_ ?_
    · simp only [Doing, State.goto, update_self]
      exact ⟨rest, todo⟩
    · exact fun _ pristine => pristine.congr rfl rfl fun k => by simp
    · intro inner h member still
      have different : h.1 ≠ i := by
        rintro rfl
        simp at still
      obtain ⟨mine, cached, valid⟩ := runs.held inner h member (by simp [pc])
      refine ⟨?_, by simpa [Caches] using cached, by simpa using valid⟩
      simp only [State.goto, State.buf, Bcache.releasesleep_lock_ne different]
      exact mine
    · intro _ k filling
      simp at filling

theorem good_put (pc : s.pc p = .dropping i) :
    Good s (({ s with cache := s.cache.put i }.goto p .ready).setThread p (rest ())) p
      (view.release i) := by
  have keys : ∀ k, ((s.cache.put i).buf k).lock = (s.buf k).lock ∧
      ((s.cache.put i).buf k).dev = (s.buf k).dev ∧
      ((s.cache.put i).buf k).blockno = (s.buf k).blockno ∧
      ((s.cache.put i).buf k).valid = (s.buf k).valid := by
    intro k
    simp [Bcache.put_buf]
  refine ⟨(shared.put pc).setThread _, fun q other => ?_, ?_⟩
  · refine Undisturbed.retire (Undisturbed.goto other ?_ ?_) other _
    · intro k locked
      rw [(keys k).1]
      exact locked
    · intro k _
      obtain ⟨-, dev, blockno, valid⟩ := keys k
      exact ⟨dev, blockno, valid.trans⟩
  · refine runs.return_hold todo () (view.held.filter fun h => h.1 ≠ i) rfl
      (by simp) (by simp) rfl rfl rfl
      ?_ ?_
    · exact fun _ pristine => pristine.congr rfl rfl fun k => by simp [Bcache.put_buf]
    intro inner h member
    obtain ⟨old, different⟩ := mem_filter.mp member
    refine runs.held_congr ?_ (fun k => keys k) inner h old fun dropping => ?_
    · rfl
    · rw [pc] at dropping
      cases dropping
      simp at different

end

end Brelse

section

variable (shared : Shared s) (runs : Runs s p view) (todo : s.todo p = .call op rest)
  (single : op.single = true)
include shared runs todo single

/-- An operation of one step on the log. -/
theorem good_log (sound : Log.Sound t.log) (same : SameKeys s t) (booted : t.booted = s.booted)
    (dev : t.log.log.dev = s.log.log.dev)
    (phase : ∀ q, q ≠ p → t.log.phase q = s.log.phase q ∨ t.log.phase q = (s.log.phase q).wakeup)
    (quiet : ∀ q, q ≠ p → (s.log.phase q).Commits → t.log.log = s.log.log ∧ t.unpinned = s.unpinned)
    (blocks : pinnedBlocks t = pinnedBlocks s)
    (calm : t.log.log.committing = false → t.unpinned = 0) (result : op.Res) (later : View)
    (after : post op view result later) (fits : Fits t p later.stage)
    (outer : later.stage ≠ .calling) (log : later.stage.Inner → t.log.log = later.log)
    (held : later.stage.Inner → ∀ h ∈ later.held, view.stage.Inner ∧ h ∈ view.held)
    (unpinned : later.stage.Commits → t.unpinned = later.installed) :
    Good s (t.setThread p (rest result)) p later := by
  have pc := runs.pc_ready todo single
  refine ⟨Shared.setThread (shared.congr sound same dev blocks calm) _, fun q other => ?_, ?_⟩
  · exact (same.undisturbed (phase q other) (by rw [booted]; exact id) dev
      (quiet q other)).retire other _
  refine runs.return todo result after (by simp) ?_ ?_ log ?_ unpinned
  · simp only [State.setThread]
    rw [same.pc]
    exact pc
  · cases stage : later.stage with
    | calling => exact absurd stage outer
    | boot =>
      rw [stage] at fits
      exact ⟨fits.1, fits.2.1, ⟨fits.2.2.clean, fits.2.2.empty⟩⟩
    | _ =>
      rw [stage] at fits
      exact fits
  · intro inner h member
    obtain ⟨innerBefore, old⟩ := held inner h member
    obtain ⟨locked, caches, valid⟩ :=
      same.owns dev (runs.held innerBefore h old (by simp [pc]))
    exact ⟨locked, caches, valid⟩

/-- An operation of one step that leaves the log alone. -/
theorem good_same (same : SameKeys s t) (log : t.log = s.log) (booted : t.booted = s.booted)
    (unpinned : t.unpinned = s.unpinned) (result : op.Res) (later : View)
    (after : post op view result later) (inner : view.stage.Inner)
    (pristine : view.stage = .boot → Pristine s → Pristine t)
    (kept : later.stage = view.stage ∧ later.log = view.log ∧ later.held = view.held ∧
      later.installed = view.installed) : Good s (t.setThread p (rest result)) p later := by
  obtain ⟨stage, logged, held, installed⟩ := kept
  refine good_log shared runs todo single (by rw [log]; exact shared.sound) same booted
    (by rw [log]) (fun q _ => .inl (by rw [log])) (fun _ _ _ => ⟨by rw [log], unpinned⟩) ?_ ?_
    result later after ?_ (by rw [stage]; exact inner.2) (fun _ => ?_)
    (fun _ h member => ⟨inner, held ▸ member⟩) fun commits => ?_
  · rw [pinnedBlocks, pinnedBlocks, log, booted, unpinned]
  · rw [log, unpinned]
    exact shared.calm
  · rw [stage]
    exact runs.fits.congr log booted (absurd · inner.2) pristine
  · rw [log, logged]
    exact runs.log inner
  · rw [stage] at commits
    rw [installed]
    exact unpinned.trans (runs.unpinned commits)

end

theorem View.wrote_kept (view : View) :
    view.wrote.stage = view.stage ∧ view.wrote.log = view.log ∧ view.wrote.held = view.held ∧
      view.wrote.installed = view.installed := by
  unfold View.wrote
  split <;> exact ⟨rfl, rfl, rfl, rfl⟩

theorem View.copied_kept (view : View) (dst : Fin nbuf) :
    (view.copied dst).stage = view.stage ∧ (view.copied dst).log = view.log ∧
      (view.copied dst).held = view.held ∧ (view.copied dst).installed = view.installed := by
  unfold View.copied
  split <;> exact ⟨rfl, rfl, rfl, rfl⟩

/-- Only a thread in `commit` or at the end of `initlog` writes, to a block it holds. -/
theorem pre_bwrite (before : pre (.bwrite i) view) :
    view.stage.Inner ∧ view.stage ≠ .boot ∧ ∃ b, view.Holds i b := by
  cases stage : view.stage <;> simp only [pre, stage] at before
  case wiping | cleared => exact ⟨by decide, by decide, _, before.2⟩
  case installing => exact ⟨by decide, by decide, _, before.1⟩
  case writing =>
    refine ⟨by decide, by decide, ?_⟩
    rcases before with ⟨-, holds, -⟩ | ⟨-, holds⟩
    all_goals exact ⟨_, holds⟩

theorem pre_memmove {dst src : Fin nbuf} (before : pre (.memmove dst src) view) :
    view.stage.Commits ∧ ∃ b, view.Holds dst b := by
  cases stage : view.stage <;> simp only [pre, stage] at before
  case writing => exact ⟨⟨by decide, by decide, by decide⟩, _, before.1⟩
  case installing => exact ⟨⟨by decide, by decide, by decide⟩, _, before.1⟩

theorem Shared.sound_stepLog (shared : Shared s) {action : Log.Action Pid}
    (enabled : Log.Enabled s.log action) : Log.Sound (stepLog s action).log :=
  shared.sound.step enabled

variable {rest : Unit → Thread Unit} {logged : Finset Nat}

section

variable (shared : Shared s) (runs : Runs s p view)
include shared runs

theorem good_getLog {rest : Log → Thread Unit} (todo : s.todo p = .call .getLog rest) :
    Good s (s.setThread p (rest s.log.log)) p view := by
  have inner : view.stage.Inner := runs.pre todo
  have after : post .getLog view s.log.log view := ⟨rfl, (runs.log inner).symm⟩
  exact good_same shared runs todo rfl (.refl s) rfl rfl rfl
    s.log.log view after inner (fun _ => id) ⟨rfl, rfl, rfl, rfl⟩

theorem good_bwrite (todo : s.todo p = .call (.bwrite i) rest) : (s.buf i).lock = some p ∧
      Good s ({ s with disk := update s.disk (s.buf i).blockno (s.buf i).data }.setThread
        p (rest ())) p view.wrote := by
  obtain ⟨inner, notBoot, b, holds⟩ := pre_bwrite (runs.pre todo)
  have pc := runs.pc_ready todo rfl
  refine ⟨(runs.held inner _ holds (by simp [pc])).locked, ?_⟩
  refine good_same shared runs todo rfl ?_ ?_ ?_ ?_ () view.wrote rfl inner
    (absurd · notBoot) view.wrote_kept
  · exact ⟨fun _ => ⟨rfl, rfl, rfl, rfl, rfl⟩, rfl, rfl, rfl⟩
  all_goals rfl

theorem good_memmove {dst src : Fin nbuf} (todo : s.todo p = .call (.memmove dst src) rest) :
    Good s ({ s with cache := s.cache.write dst (s.buf src).data }.setThread p (rest ())) p
      (view.copied dst) := by
  obtain ⟨⟨inner, notBoot, -⟩, -⟩ := pre_memmove (runs.pre todo)
  refine good_same shared runs todo rfl
    (sameKeys_write dst _) ?_ ?_ ?_ () (view.copied dst) rfl inner
    (absurd · notBoot) (view.copied_kept dst)
  all_goals rfl

theorem good_writeHeader (todo : s.todo p = .call (.writeHeader i) rest) :
    Good s ({ s with cache := s.cache.write i (s.log.log.lh.store (s.buf i).data) }.setThread
      p (rest ())) p { view with draft := .headBlock i } := by
  obtain ⟨stage, -, -⟩ := runs.pre todo
  have inner : view.stage.Inner := by
    rcases stage with stage | stage | stage <;> rw [stage] <;> decide
  have notBoot : view.stage ≠ .boot := by
    rcases stage with stage | stage | stage <;> rw [stage] <;> decide
  refine good_same shared runs todo rfl
    (sameKeys_write i _) ?_ ?_ ?_ () { view with draft := .headBlock i } rfl inner
    (absurd · notBoot) ⟨rfl, rfl, rfl, rfl⟩
  all_goals rfl

theorem good_readHeader (todo : s.todo p = .call (.readHeader i) rest) :
    Good s ((setHeader s (s.log.log.lh.load (s.buf i).data)).setThread p (rest ())) p view := by
  obtain ⟨boot, -⟩ := runs.pre todo
  rw [runs.readHeader_eq todo]
  exact good_same shared runs todo rfl (.refl s) rfl rfl rfl
    () view rfl (by rw [boot]; decide) (fun _ => id) ⟨rfl, rfl, rfl, rfl⟩

/-- A step of the log protocol that keeps the header. -/
theorem good_stepLog {rest : op.Res → Thread Unit}
    (todo : s.todo p = .call op rest) (single : op.single = true) {action : Log.Action Pid}
    (enabled : Log.Enabled s.log action) (own : action.actor = p)
    (quiet : ∀ q, q ≠ p → ¬ (s.log.phase q).Commits)
    (lh : (Log.next s.log action).log.lh = s.log.log.lh)
    (calm : (Log.next s.log action).log.committing = false → s.unpinned = 0) (result : op.Res)
    (later : View) (after : post op view result later)
    (fits : Fits (stepLog s action) p later.stage) (outer : later.stage ≠ .calling)
    (log : later.stage.Inner → (Log.next s.log action).log = later.log)
    (held : later.stage.Inner → ∀ h ∈ later.held, view.stage.Inner ∧ h ∈ view.held)
    (unpinned : later.stage.Commits → s.unpinned = later.installed) :
    Good s ((stepLog s action).setThread p (rest result)) p later := by
  refine good_log shared runs todo single (shared.sound_stepLog enabled) (stepLog_keys s _) rfl
    (Log.geometry_next s.log _).2.2 (fun q other => phase_stepLog s _ (own ▸ other))
    (fun q other also => absurd also (quiet q other)) ?_ calm result later after fits outer log
    held unpinned
  simp only [pinnedBlocks, stepLog, lh]

section

variable (running : s.log.fault = none)
include running

/-- `commit` begins with every listed block pinned. -/
theorem good_commitStart (todo : s.todo p = .call .commitStart rest) :
    Good s ((stepLog s (.commitStart p)).setThread p (rest ())) p
      { view with stage := if view.log.lh.n > 0 then .writing else .cleared } := by
  have start : view.stage = .start := runs.pre todo
  obtain ⟨booted, committing⟩ := runs.fits_of start
  have inner : view.stage.Inner := by rw [start]; decide
  have commits : (s.log.phase p).Commits := by rw [committing]; trivial
  have log : (Log.next s.log (.commitStart p)).log = s.log.log := by
    simp only [Log.next, Log.commitStart]
    split <;> rfl
  refine good_stepLog shared runs todo rfl ⟨running, committing⟩ rfl
    (fun q => shared.sound.not_commits commits) (by rw [log]) ?_ ()
    { view with stage := if view.log.lh.n > 0 then .writing else .cleared } rfl ?_ ?_
    (fun _ => log.trans (runs.log inner)) (fun _ h member => ⟨inner, member⟩)
    fun _ => runs.unpinned (by rw [start]; decide)
  · simp [log, shared.sound.committing commits]
  · dsimp only
    rw [← runs.log inner]
    split
    · rename_i pos
      exact ⟨booted, by simp [stepLog, Log.next, Log.commitStart, pos]⟩
    · rename_i empty
      exact ⟨booted, by simp [stepLog, Log.next, Log.commitStart, empty, Log.State.record]⟩
  · dsimp only
    split <;> decide

theorem good_commitHead (todo : s.todo p = .call .commitHead rest) :
    Good s ((stepLog s (.commitHead p)).setThread p (rest ())) p
      { view with stage := .installing } := by
  obtain ⟨stage, -, -⟩ := runs.pre todo
  obtain ⟨booted, writing⟩ := runs.fits_of stage
  have inner : view.stage.Inner := by rw [stage]; decide
  have commits : (s.log.phase p).Commits := by rw [writing]; trivial
  refine good_stepLog shared runs todo rfl ⟨running, writing⟩ rfl
    (fun q => shared.sound.not_commits commits) rfl (fun free => ?_) ()
    { view with stage := .installing } rfl ?_ (by simp) (fun _ => runs.log inner)
    (fun _ h member => ⟨inner, member⟩) fun _ => runs.unpinned (by rw [stage]; decide)
  · exact absurd (free.symm.trans (shared.sound.committing commits)) (by decide)
  · exact ⟨booted, by simp [stepLog, Log.next, Log.commitHead, Log.State.record]⟩

/-- The empty header leaves no block pinned. -/
theorem good_commitClear (todo : s.todo p = .call .commitClear rest) :
    Good s ({ stepLog s (.commitClear p) with unpinned := 0 }.setThread p (rest ())) p
      (.idle .cleared { view.log with lh := { view.log.lh with n := 0 } } 0 0) := by
  obtain ⟨stage, installed, -⟩ := runs.pre todo
  obtain ⟨booted, installing⟩ := runs.fits_of stage
  have inner : view.stage.Inner := by rw [stage]; decide
  have commits : (s.log.phase p).Commits := by rw [installing]; trivial
  have log := runs.log inner
  have unpinned : s.unpinned = s.log.log.lh.n := by
    rw [runs.unpinned (by rw [stage]; decide), installed, log]
  refine good_log shared runs todo rfl (t := { stepLog s (.commitClear p) with unpinned := 0 })
    (show Log.Sound (stepLog s (.commitClear p)).log from
      shared.sound_stepLog ⟨running, installing⟩)
        ⟨(stepLog_keys s (.commitClear p)).buf, rfl, rfl, rfl⟩ rfl rfl
    ?_ ?_ ?_ (fun _ => rfl) ()
    (.idle .cleared { view.log with lh := { view.log.lh with n := 0 } } 0 0) rfl ?_
    (by simp [View.idle]) ?_ (by simp [View.idle]) (fun _ => rfl)
  · intro q other
    exact Log.phase_next_of_ne s.log (show q ≠ (Log.Action.commitClear p).actor from other)
  · exact fun q other also => absurd also (shared.sound.not_commits commits other)
  · simp [pinnedBlocks, stepLog, unpinned, Log.next, Log.commitClear, LogHeader.entries]
  · exact ⟨booted, by simp [stepLog, Log.next, Log.commitClear]⟩
  · intro _
    simp [stepLog, Log.next, Log.commitClear, View.idle, log]

theorem good_commitDone (todo : s.todo p = .call .commitDone rest) :
    Good s ((stepLog s (.commitDone p)).setThread p (rest ())) p (.outer .user) := by
  obtain ⟨stage, installed, -⟩ := runs.pre todo
  obtain ⟨booted, cleared⟩ := runs.fits_of stage
  have inner : view.stage.Inner := by rw [stage]; decide
  have commits : (s.log.phase p).Commits := by rw [cleared]; trivial
  have unpinned : s.unpinned = 0 := by
    rw [runs.unpinned (by rw [stage]; decide), installed]
  refine good_stepLog shared runs todo rfl ⟨running, cleared⟩ rfl
    (fun q => shared.sound.not_commits commits) rfl (fun _ => unpinned) () (.outer .user) rfl ?_
    (by simp [View.outer, View.idle]) (absurd rfl ·.1)
    (absurd rfl ·.1) (absurd rfl ·.1.1)
  simp [Fits, View.outer, View.idle, stepLog, Log.next, Log.commitDone, Log.State.wakeup,
    Log.Phase.Commits]

theorem good_beginOp (free : s.log.log.committing = false) (roomy : ¬ s.log.log.Crowded)
    (todo : s.todo p = .call .beginOp rest) :
    Good s ((stepLog (stepLog s (.beginCall p)) (.beginTry p)).setThread p (rest ())) p
      (.outer .user) := by
  have stage : view.stage = .calling := runs.pre todo
  obtain ⟨booted, -, ready⟩ := runs.fits_of stage
  have outside : s.log.phase p = .outside := by
    rw [Ready, todo] at ready
    exact ready
  have first : Log.Sound (stepLog s (.beginCall p)).log :=
    shared.sound_stepLog ⟨running, outside⟩
  have starting : (stepLog s (.beginCall p)).log.phase p = .starting := by
    simp [stepLog, Log.next]
  have second : Log.Sound (stepLog (stepLog s (.beginCall p)) (.beginTry p)).log := by
    change Log.Sound (Log.next (stepLog s (.beginCall p)).log (.beginTry p))
    exact first.step ⟨running, starting⟩
  have result : (stepLog (stepLog s (.beginCall p)) (.beginTry p)).log =
      (({ s.log.move p .starting with
        log := { s.log.log with outstanding := s.log.log.outstanding + 1 } } :
          Log.State Pid).move p (.inside ∅)).record (.begun p) := by
    change Log.beginOp (s.log.move p .starting) p = _
    unfold Log.beginOp
    rw [if_neg (by simp [free]), if_neg (by simpa using roomy)]
    rfl
  refine good_log shared runs todo rfl second
    ⟨fun _ => ⟨rfl, rfl, rfl, rfl, rfl⟩, rfl, rfl, rfl⟩ rfl ?_ ?_ ?_ ?_ ?_ () (.outer .user) rfl
    ?_ (by simp [View.outer, View.idle]) (absurd rfl ·.1)
    (absurd rfl ·.1) (absurd rfl ·.1.1)
  · rw [result]
    rfl
  · intro q other
    rw [result]
    simp [Log.State.record, other]
  · intro q _ commits
    simp [shared.sound.committing commits] at free
  · simp only [pinnedBlocks]
    rw [result]
    rfl
  · exact fun _ => shared.calm free
  · simp only [Fits, View.outer, View.idle]
    rw [result]
    simp [Log.State.record, Log.Phase.Commits]

/-- The last `end_op` goes on to `commit`. -/
theorem good_endOp {rest : Bool → Thread Unit} (todo : s.todo p = .call .endOp rest) :
    ∃ later, post .endOp view (decide ((stepLog s (.endOp p)).log.phase p = .committing)) later ∧
      Good s ((stepLog s (.endOp p)).setThread p
        (rest (decide ((stepLog s (.endOp p)).log.phase p = .committing)))) p later := by
  have stage : view.stage = .calling := runs.pre todo
  obtain ⟨booted, -, ready⟩ := runs.fits_of stage
  obtain ⟨logged, inside⟩ : ∃ logged, s.log.phase p = .inside logged := by
    rw [Ready, todo] at ready
    exact ready
  have active : (s.log.phase p).Active := by rw [inside]; trivial
  have free := shared.sound.not_committing active
  have lh : (Log.next s.log (.endOp p)).log.lh = s.log.log.lh := Log.lh_endOp s.log p
  have quiet : ∀ q, q ≠ p → ¬ (s.log.phase q).Commits := fun q _ =>
    shared.sound.not_commits_of_active active q
  have enabled : Log.Enabled s.log (.endOp p) := ⟨running, logged, inside⟩
  by_cases last : (stepLog s (.endOp p)).log.phase p = .committing
  · rw [decide_eq_true last]
    refine ⟨.idle .start (stepLog s (.endOp p)).log.log 0 0, ⟨_, rfl⟩, ?_⟩
    exact good_stepLog shared runs todo rfl enabled rfl quiet lh
      (fun _ => shared.calm free) true (.idle .start (stepLog s (.endOp p)).log.log 0 0) ⟨_, rfl⟩
      ⟨booted, last⟩ (by simp [View.idle]) (fun _ => rfl) (by simp [View.idle])
      fun _ => shared.calm free
  · rw [decide_eq_false last]
    refine ⟨.outer .user, rfl, ?_⟩
    refine good_stepLog shared runs todo rfl enabled rfl quiet lh
      (fun _ => shared.calm free) false (.outer .user) rfl ?_ (by simp [View.outer, View.idle])
      (absurd rfl ·.1) (absurd rfl ·.1)
      (absurd rfl ·.1.1)
    simp only [stepLog, Log.next, Log.endOp] at last
    simp only [Fits, View.outer, View.idle, stepLog, Log.next, Log.endOp]
    rw [if_neg (by simp [free])] at last ⊢
    split
    · rename_i zero
      simp [zero, Log.State.record] at last
    · simp [Log.State.record, Log.Phase.Commits]

end

theorem good_resetHeader (todo : s.todo p = .call .resetHeader rest) :
    Good s ({ setHeader s { s.log.log.lh with n := 0 } with unpinned := 0 }.setThread p
      (rest ())) p { view with stage := .wiping } := by
  obtain ⟨stage, -⟩ := runs.pre todo
  have inner : view.stage.Inner := by rw [stage]; decide
  have pc := runs.pc_ready todo rfl
  have fits := runs.fits_of stage
  rw [shared.resetHeader_eq runs todo]
  refine ⟨shared.setThread _, fun q other => ?_, ?_⟩
  · exact Undisturbed.retire (.of_cache rfl rfl rfl id (fun _ => rfl) (fun _ => id)
      fun _ _ => ⟨rfl, rfl, id⟩) other _
  · refine runs.return todo () rfl (by simp) pc ⟨fits.1, fits.2.1⟩
      (fun _ => runs.log inner) (fun _ h member => ?_) (absurd rfl ·.2.2)
    obtain ⟨locked, caches, valid⟩ := runs.held inner h member (by simp [pc])
    exact ⟨locked, caches, valid⟩

/-- Recovery is over and nothing is listed. -/
theorem good_booted (todo : s.todo p = .call .booted rest) :
    Good s ({ s with booted := true }.setThread p (rest ())) p (.outer .user) := by
  obtain ⟨stage, empty, -⟩ := runs.pre todo
  have inner : view.stage.Inner := by rw [stage]; decide
  have fits := runs.fits_of stage
  have log := runs.log inner
  have entries : s.log.log.lh.entries = [] :=
    LogHeader.entries_of_n_eq_zero (by rw [log]; exact empty)
  have sharedAfter : Shared ({ s with booted := true } : State Pid) := by
    refine shared.congr shared.sound ⟨fun _ => ⟨rfl, rfl, rfl, rfl, rfl⟩, rfl, rfl, rfl⟩ rfl ?_
      shared.calm
    simp [pinnedBlocks, entries]
  refine ⟨sharedAfter.setThread _, fun q other => ?_, ?_⟩
  · have undisturbed : Undisturbed s { s with booted := true } q :=
      .of_cache rfl rfl rfl (fun _ => rfl) (fun _ => rfl) (fun _ => id) fun _ _ => ⟨rfl, rfl, id⟩
    exact undisturbed.retire other _
  · exact runs.return todo () rfl (by simp) (runs.pc_ready todo rfl) fits.2 (absurd rfl ·.1)
      (absurd rfl ·.1) (absurd rfl ·.1.1)

/-- `bunpin` in `install_trans` takes back the pin of `log_write`. -/
theorem good_bunpin (todo : s.todo p = .call (.bunpin i) rest) :
    Good s ({ s with cache := s.cache.bunpin i, unpinned := s.unpinned + 1 }.setThread p
      (rest ())) p { view with installed := view.installed + 1, home := false } := by
  obtain ⟨stage, holds, within, -⟩ := runs.pre todo
  have inner : view.stage.Inner := by rw [stage]; decide
  have commits : view.stage.Commits := by rw [stage]; decide
  have pc := runs.pc_ready todo rfl
  have log := runs.log inner
  have unpinned := runs.unpinned commits
  have owns := runs.held inner _ holds (by simp [pc])
  obtain ⟨booted, installing⟩ := runs.fits_of stage
  have committing : (s.log.phase p).Commits := by rw [installing]; trivial
  have blockno : (s.buf i).blockno = view.log.lh.block view.installed := owns.caches.2
  have split := runs.pinnedBlocks_cons stage within
  rw [← blockno] at split
  have distinct : (pinnedBlocks s).Nodup := by
    rw [pinnedBlocks, if_pos booted]
    exact shared.sound.core.distinct.sublist (drop_sublist _ _)
  rw [split, nodup_cons] at distinct
  set t := ({ s with cache := s.cache.bunpin i, unpinned := s.unpinned + 1 } : State Pid) with ht
  have blocks : pinnedBlocks t = s.log.log.lh.entries.drop (s.unpinned + 1) := by
    simp [pinnedBlocks, ht, booted]
  have keys : ∀ j, (t.buf j).dev = (s.buf j).dev ∧ (t.buf j).blockno = (s.buf j).blockno ∧
      (t.buf j).lock = (s.buf j).lock ∧ (t.buf j).valid = (s.buf j).valid := by
    intro j
    simp [ht]
  have caches : ∀ j b, Caches t j b ↔ Caches s j b := by
    intro j b
    rw [Caches, Caches, (keys j).1, (keys j).2.1]
  have used : (s.buf i).refcnt ≠ 0 := shared.conserved.referenced_of_lock (by simp [owns.locked])
  have conserved : Conserved t := shared.conserved.of_balance
    (show t.pc = update s.pc p (s.pc p) by rw [update_eq_self]) fun j => by
      rcases eq_or_ne j i with rfl | other
      · have before : pins s j = 1 := by
          rw [pins, if_pos]
          exact ⟨owns.caches.1, by rw [split]; exact mem_cons_self⟩
        have after : pins t j = 0 := by
          rw [pins, if_neg]
          rintro ⟨-, member⟩
          rw [blocks, (keys j).2.1] at member
          exact distinct.1 member
        have pos : 1 ≤ (s.buf j).refcnt.toNat := one_le_toNat used
        have count : (t.buf j).refcnt.toNat = (s.buf j).refcnt.toNat - 1 := by
          simp only [ht, State.buf, Bcache.bunpin_refcnt_same]
          exact toNat_sub_one pos
        rw [before, after, count, holders, holders, (keys j).2.2.1]
        omega
      · have same : pins t j = pins s j := by
          refine pins_congr ?_
          rw [Pinned, Pinned, (keys j).1, (keys j).2.1, blocks, split, mem_cons]
          constructor
          · exact fun pinned => ⟨pinned.1, .inr pinned.2⟩
          · rintro ⟨dev, equal | member⟩
            · exact absurd (shared.unique j i _ ⟨dev, equal⟩ ⟨owns.caches.1, rfl⟩) other
            · exact ⟨dev, member⟩
        have count : (t.buf j).refcnt = (s.buf j).refcnt := by
          simp [ht, other]
        rw [same, count, holders, holders, (keys j).2.2.1]
  have sharedAfter : Shared t := by
    refine shared.rekey shared.sound conserved rfl (fun j => ⟨(keys j).1, (keys j).2.1⟩)
      (fun b member => .inl ?_) shared.listed (fun j locked => ?_) fun free => ?_
    · rw [split]
      exact mem_cons_of_mem _ (blocks ▸ member)
    · exact shared.onDev j fun none => locked ((keys j).2.2.1.trans none)
    · have busy : t.log.log.committing = true := shared.sound.committing committing
      simp [busy] at free
  refine ⟨sharedAfter.setThread _, fun q other => ?_, ?_⟩
  · have undisturbed : Undisturbed s t q := by
      refine .of_cache rfl rfl rfl id ?_ (fun j theirs => ?_) fun j _ => ?_
      · exact fun also => absurd also (shared.sound.not_commits committing other)
      · rw [(keys j).2.2.1]
        exact theirs
      · exact ⟨(keys j).1, (keys j).2.1, (keys j).2.2.2.trans⟩
    exact undisturbed.retire other _
  · refine runs.return todo () rfl (by simp) pc ?_ (fun _ => log) ?_ ?_
    · rw [stage]
      exact ⟨booted, installing⟩
    · intro _ h member
      obtain ⟨locked, cached, valid⟩ := runs.held inner h member (by simp [pc])
      exact ⟨(keys h.1).2.2.1.trans locked, (caches h.1 h.2).mpr cached,
        (keys h.1).2.2.2.trans valid⟩
    · intro _
      change s.unpinned + 1 = view.installed + 1
      rw [unpinned]

section

variable (running : s.log.fault = none) (todo : s.todo p = .call (.logWrite i) rest)
include running todo

theorem good_logCall (inside : s.log.phase p = .inside logged) :
    Good s (stepLog s (.logCall p (s.buf i).blockno)) p view := by
  have stage : view.stage = .calling := runs.pre todo
  have active : (s.log.phase p).Active := by rw [inside]; trivial
  have log : (Log.next s.log (.logCall p (s.buf i).blockno)).log = s.log.log := by
    simp only [Log.next, inside, Log.logWriteChecks]
    split
    · rfl
    · split <;> rfl
  have phase : (Log.next s.log (.logCall p (s.buf i).blockno)).phase p = .inside logged ∨
      (Log.next s.log (.logCall p (s.buf i).blockno)).phase p =
        .logging (s.buf i).blockno logged := by
    simp only [Log.next, inside, Log.logWriteChecks]
    split
    · exact .inl inside
    · split
      · exact .inl inside
      · exact .inr (by simp)
  refine ⟨shared.congr (shared.sound_stepLog ⟨running, logged, inside⟩) (stepLog_keys s _)
    (congrArg Log.dev log) ?_ ?_, fun q other => ?_, ?_⟩
  · simp only [pinnedBlocks, stepLog, log]
  · exact fun _ => shared.calm (shared.sound.not_committing active)
  · exact (stepLog_keys s _).undisturbed (phase_stepLog s _ other) id (congrArg Log.dev log)
      fun _ => ⟨log, rfl⟩
  · refine runs.during_call stage rfl (runs.pc_ready todo rfl) rfl ?_ ?_
    · rcases phase with phase | phase <;> simp [stepLog, phase, Log.Phase.Commits]
    have later : (stepLog s (.logCall p (s.buf i).blockno)).todo p =
        .call (.logWrite i) rest := todo
    rw [Ready, later]
    exact ⟨(runs.logging todo).1, logged, phase⟩

/-- A write past the end of the header array stops the machine. -/
theorem good_logLocked_fault (logging : s.log.phase p = .logging (s.buf i).blockno logged)
    (fault : (Log.next s.log (.logLocked p)).fault ≠ none) :
    Good s (stepLog s (.logLocked p)) p view := by
  have stage : view.stage = .calling := runs.pre todo
  obtain ⟨-, outside, ready⟩ := runs.fits_of stage
  have log : (stepLog s (.logLocked p)).log = s.log.fail .outOfBounds :=
    logLocked_fails running logging fault
  have same : (stepLog s (.logLocked p)).log.log = s.log.log := by rw [log]; rfl
  refine ⟨shared.congr (shared.sound_stepLog ⟨running, _, logged, logging⟩) (stepLog_keys s _)
    (congrArg Log.dev same) ?_ ?_, fun q other => ?_, ?_⟩
  · simp only [pinnedBlocks, same]
    rfl
  · rw [same]
    exact shared.calm
  · exact (stepLog_keys s _).undisturbed (phase_stepLog s _ other) id (congrArg Log.dev same)
      fun _ => ⟨same, rfl⟩
  · refine runs.during_call stage rfl (runs.pc_ready todo rfl) rfl ?_ ?_
    · rw [log]
      exact outside
    · have later : (stepLog s (.logLocked p)).todo p = .call (.logWrite i) rest := todo
      rw [Ready, todo] at ready
      rw [Ready, later, log]
      exact ready

end

end

/-- The locked part of `log_write` pins the buffer of a new block. -/
theorem good_logLocked (shared : Shared s) (small : Fintype.card Pid ≤ nproc) (runs : Runs s p view)
    (running : s.log.fault = none) (todo : s.todo p = .call (.logWrite i) rest)
    (logging : s.log.phase p = .logging (s.buf i).blockno logged)
    (fine : (Log.next s.log (.logLocked p)).fault = none) (latest : Log.Disk) :
    Good s ({ s with
      log := Log.next s.log (.logLocked p)
      cache := pinIfNew s i
      latest := latest }.setThread p (rest ())) p (.outer .user) := by
  have stage : view.stage = .calling := runs.pre todo
  have booted := (runs.fits_of stage).1
  have locked := (runs.logging todo).1
  have dev : (s.buf i).dev = s.log.log.dev := shared.onDev i (by simp [locked])
  have active : (s.log.phase p).Active := by rw [logging]; trivial
  have free := shared.sound.not_committing active
  have unpinned := shared.calm free
  set t : State Pid :=
    { s with log := Log.next s.log (.logLocked p), cache := pinIfNew s i, latest := latest } with ht
  have log : t.log = Log.logRecord s.log p (s.buf i).blockno logged :=
    logLocked_records logging fine
  have sameDev : t.log.log.dev = s.log.log.dev := by rw [log]; rfl
  have keys := pinIfNew_keys s i
  have before := pinnedBlocks_of_whole booted unpinned
  have blocks : ∀ b, b ∈ pinnedBlocks t ↔ b = (s.buf i).blockno ∨ b ∈ pinnedBlocks s :=
    mem_pinnedBlocks_record log booted rfl unpinned rfl
  have others : ∀ j, j ≠ i → pins t j = pins s j := by
    intro j other
    refine pins_congr ?_
    rw [Pinned, Pinned, sameDev, blocks]
    change ((pinIfNew s i).buf j).dev = _ ∧ (((pinIfNew s i).buf j).blockno = _ ∨ _) ↔ _
    rw [(keys j).2.1, (keys j).2.2.1]
    constructor
    · rintro ⟨device, equal | member⟩
      · exact absurd (shared.unique j i _ ⟨device, equal⟩ ⟨dev, rfl⟩) other
      · exact ⟨device, member⟩
    · exact fun pinned => ⟨pinned.1, .inr pinned.2⟩
  have self : pins t i = 1 := by
    rw [pins, if_pos]
    refine ⟨?_, (blocks _).mpr (.inl (keys i).2.2.1)⟩
    rw [sameDev, ← dev]
    exact (keys i).2.1
  have balance : ∀ j, (t.buf j).refcnt.toNat + pins s j = (s.buf j).refcnt.toNat + pins t j := by
    intro j
    rcases eq_or_ne j i with rfl | other
    · rw [self]
      by_cases fresh : s.log.log.lh.find (s.buf j).blockno = s.log.log.lh.n
      · have absent : pins s j = 0 := by
          rw [pins, if_neg]
          rintro ⟨-, member⟩
          rw [before] at member
          exact (s.log.log.lh.find_eq_iff _).mp fresh member
        have count : (t.buf j).refcnt = (s.buf j).refcnt + 1 := by
          simp only [ht, State.buf, pinIfNew]
          rw [if_pos fresh, Bcache.bpin_refcnt_same]
        rw [absent, count, toNat_add_one (shared.refcnt_small small j)]
      · have present : pins s j = 1 := by
          rw [pins, if_pos]
          refine ⟨dev, ?_⟩
          rw [before]
          by_contra absent
          exact fresh ((s.log.log.lh.find_eq_iff _).mpr absent)
        have count : (t.buf j).refcnt = (s.buf j).refcnt := by
          simp only [ht, State.buf, pinIfNew]
          rw [if_neg fresh]
        rw [present, count]
    · have count : (t.buf j).refcnt = (s.buf j).refcnt := by
        simp only [ht, State.buf, pinIfNew]
        split <;> simp [other]
      rw [count, others j other]
  have conserved : Conserved t := shared.conserved.of_balance
    (show t.pc = update s.pc p (s.pc p) by rw [update_eq_self]) fun j => by
      have change := balance j
      have same : holders (t.buf j) = holders (s.buf j) := by
        rw [holders, holders, show (t.buf j).lock = (s.buf j).lock from (keys j).1]
      omega
  have sharedAfter : Shared t := by
    have enabled : Log.Enabled s.log (.logLocked p) := ⟨running, _, logged, logging⟩
    refine shared.rekey (t := t) (shared.sound_stepLog enabled) conserved sameDev
      (fun j => ⟨(keys j).2.1, (keys j).2.2.1⟩) (fun b member => ?_) ?_ (fun j taken => ?_)
      fun _ => unpinned
    · rcases (blocks b).mp member with rfl | old
      · exact .inr ⟨i, dev, rfl⟩
      · exact .inl old
    · change ∀ j, j ∈ (pinIfNew s i).lru
      rw [pinIfNew_lru]
      exact shared.listed
    · exact shared.onDev j fun none => taken ((keys j).1.trans none)
  refine ⟨sharedAfter.setThread _, fun q other => ?_, ?_⟩
  · have undisturbed : Undisturbed s t q :=
      { todo := rfl
        pc := rfl
        phase := phase_stepLog s (.logLocked p) other
        booted := id
        locked := fun j theirs => (keys j).1.trans theirs
        block := fun j _ => ⟨(keys j).2.1, (keys j).2.2.1, (keys j).2.2.2.trans⟩
        dev := sameDev
        log := fun commits =>
          absurd commits (shared.sound.not_commits_of_active active q)
        unpinned := fun _ => rfl }
    exact undisturbed.retire other _
  · refine runs.return todo () rfl (by simp) (runs.pc_ready todo rfl) ?_ (absurd rfl ·.1)
      (absurd rfl ·.1) (absurd rfl ·.1.1)
    simp only [Fits, View.outer, View.idle, State.setThread]
    rw [log]
    simp [Log.logRecord, Log.State.record, Log.Phase.Commits]

/-- The view of a thread after a step, with the result of the operation if it has returned. -/
def Follows {op : Op} (view : View) : Option op.Res → View → Prop
  | none, later => later = view
  | some result, later => post op view result later

/-- Every step of every operation. -/
theorem good_step (shared : Shared s) (small : Fintype.card Pid ≤ nproc) (runs : Runs s p view)
    (running : s.log.fault = none) {rest : op.Res → Thread Unit}
    (todo : s.todo p = .call op rest) (free : ¬ Blocked s p op) :
    ∃ later, Follows view (advance s p op).2 later ∧
      Good s (resume p rest (advance s p op)) p later := by
  cases op with
  | bread b =>
    rcases runs.doing.bread todo with pc | ⟨i, pc, caches⟩ | ⟨i, pc, caches, locked⟩
    · simp only [advance, stepBread, pc]
      cases found : s.cache.bget s.log.log.dev b with
      | none => exact ⟨view, rfl, good_panic shared runs _⟩
      | some got => exact ⟨view, rfl, good_bget shared small runs todo pc found⟩
    · simp only [advance, stepBread, pc]
      refine ⟨view, rfl, good_acquiresleep shared runs todo pc caches ?_⟩
      by_contra locked
      exact free ⟨i, pc, locked⟩
    · simp only [advance, stepBread, pc]
      exact ⟨view.take i b, ⟨rfl, fun inner => runs.taking inner i pc⟩,
        good_fill shared runs todo pc caches locked⟩
  | brelse i =>
    rcases runs.doing.brelse todo with pc | pc
    · simp only [advance, stepBrelse, pc]
      split
      · rename_i locked
        exact ⟨view, rfl, good_releasesleep shared runs todo pc locked⟩
      · exact ⟨view, rfl, good_panic shared runs _⟩
    · simp only [advance, stepBrelse, pc]
      exact ⟨view.release i, rfl, good_put shared runs todo pc⟩
  | bwrite i =>
    obtain ⟨locked, good⟩ := good_bwrite shared runs todo
    simp only [advance, stepBwrite, locked, if_true]
    exact ⟨view.wrote, rfl, good⟩
  | bunpin i => exact ⟨_, rfl, good_bunpin shared runs todo⟩
  | memmove dst src => exact ⟨_, rfl, good_memmove shared runs todo⟩
  | logWrite i =>
    obtain ⟨-, logged, inside | logging⟩ := runs.logging todo
    · simp only [advance, stepLogWrite, inside]
      exact ⟨view, rfl, good_logCall shared runs running todo inside⟩
    · simp only [advance, stepLogWrite, logging]
      split
      · rename_i fine
        exact ⟨.outer .user, rfl, good_logLocked shared small runs running todo logging fine _⟩
      · rename_i fault
        exact ⟨view, rfl, good_logLocked_fault shared runs running todo logging fault⟩
  | beginOp =>
    have room : s.log.log.committing = false ∧ ¬ s.log.log.Crowded := by
      simpa [Blocked, not_or] using free
    exact ⟨.outer .user, rfl, good_beginOp shared runs running room.1 room.2 todo⟩
  | endOp => exact good_endOp shared runs running todo
  | getLog =>
    exact ⟨view, ⟨rfl, (runs.log (runs.pre todo)).symm⟩, good_getLog shared runs todo⟩
  | readHeader i => exact ⟨_, rfl, good_readHeader shared runs todo⟩
  | writeHeader i => exact ⟨_, rfl, good_writeHeader shared runs todo⟩
  | resetHeader => exact ⟨_, rfl, good_resetHeader shared runs todo⟩
  | booted => exact ⟨_, rfl, good_booted shared runs todo⟩
  | commitStart => exact ⟨_, rfl, good_commitStart shared runs running todo⟩
  | commitHead => exact ⟨_, rfl, good_commitHead shared runs running todo⟩
  | commitClear => exact ⟨_, rfl, good_commitClear shared runs running todo⟩
  | commitDone => exact ⟨_, rfl, good_commitDone shared runs running todo⟩

theorem good_call (shared : Shared s) (runs : Runs s p view) (booted : s.booted = true)
    (done : (s.todo p).Done) {request : Call} (allowed : request.Allowed s p) :
    Good s (s.setThread p request.thread) p (.outer .calling) := by
  obtain ⟨stage, pc⟩ := runs.user done
  have fits := runs.fits_of stage
  have todo : (s.setThread p request.thread).todo p = request.thread := by
    simp
  refine ⟨shared.setThread _, fun q other => ?_, ?_⟩
  · exact Undisturbed.retire (.of_cache rfl rfl rfl id (fun _ => rfl) (fun _ => id)
      fun _ _ => ⟨rfl, rfl, id⟩) other _
  exact
    { meets := by
        rw [todo]
        exact meets_thread request
      doing := by
        rw [Doing, show (s.setThread p request.thread).pc p = .ready from pc]
        trivial
      fits := by
        refine ⟨booted, fits, ?_⟩
        rw [Ready, todo]
        cases request with
        | logWrite i =>
          obtain ⟨locked, logged, inside⟩ := allowed
          exact ⟨locked, logged, .inl inside⟩
        | _ => exact allowed
      log := (absurd rfl ·.2)
      held := (absurd rfl ·.2)
      taking := (absurd rfl ·.2)
      unpinned := fun commits => absurd rfl commits.1.2 }

theorem Inv.step {first : Pid} (inv : Inv first s) (small : Fintype.card Pid ≤ nproc)
    {action : Action Pid} (enabled : Enabled s action) : Inv first (next s action) := by
  obtain ⟨-, running, there⟩ := enabled
  cases action with
  | call p request =>
    obtain ⟨booted, done, allowed⟩ := there
    obtain ⟨view, runs⟩ := inv.runs p
    exact inv.of_good (good_call inv.shared runs booted done allowed) (.inl booted) id
  | modify p i data =>
    obtain ⟨booted, done, -⟩ := there
    obtain ⟨view, runs⟩ := inv.runs p
    exact inv.of_good (good_modify inv.shared runs done i data) (.inl booted) id
  | step p =>
    obtain ⟨op, rest, todo, free⟩ := there
    obtain ⟨view, runs⟩ := inv.runs p
    simp only [next, todo]
    obtain ⟨later, -, good⟩ := good_step inv.shared small runs running todo free
    exact inv.of_good good (.inr (by simp [todo, Prog.Done])) fun booted => booted_resume booted

end Steps

end OsLab.Bio
