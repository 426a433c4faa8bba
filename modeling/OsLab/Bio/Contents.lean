import OsLab.Bio.Steps

/-!
# The contents of the cache and of the disk

A process changes a buffer only inside an operation, and logs it before it gives the buffer back.
So a buffer of a home block holds what was logged last unless its holder is inside an operation, a
home block on the disk does unless it is pinned, and the log blocks that `commit` has written hold
the blocks of the header.
-/

namespace OsLab.Bio

section Contents

variable {Pid : Type*}

/-- The block is outside the log. -/
def AtHome (s : State Pid) (b : Nat) : Prop := Log.Home s.log.log.start s.log.log.size b

instance (s : State Pid) (b : Nat) : Decidable (AtHome s b) :=
  inferInstanceAs (Decidable (Log.Home _ _ _))

/-- The buffer of a home block holds what was logged last for the block. -/
def Clean (s : State Pid) (i : Fin nbuf) : Prop :=
  (s.buf i).valid = true → AtHome s (s.buf i).blockno → (s.buf i).data = s.latest (s.buf i).blockno

/-- The buffer of a log block holds what is on the disk. -/
def Synced (s : State Pid) (i : Fin nbuf) : Prop :=
  (s.buf i).valid = true → ¬ AtHome s (s.buf i).blockno → (s.buf i).data = s.disk (s.buf i).blockno

/-- The process is in `commit` or in `initlog`. -/
def Privileged (s : State Pid) (p : Pid) : Prop :=
  s.booted = false ∧ ¬ (s.todo p).Done ∨ (s.log.phase p).Commits

/-- What the buffers and the disk hold. -/
structure Accurate (s : State Pid) : Prop where
  disk : ∀ b, AtHome s b → b ∉ pinnedBlocks s → s.disk b = s.latest b
  home : ∀ i, (s.buf i).dev = s.log.log.dev →
    Clean s i ∨ ∃ p, (s.buf i).lock = some p ∧ (s.log.phase p).Active
  area : ∀ i, (s.buf i).dev = s.log.log.dev →
    Synced s i ∨ ∃ p, (s.buf i).lock = some p ∧ Privileged s p
  pinned : ∀ i, Pinned s i → (s.buf i).valid = true
  locked : ∀ i p, (s.buf i).lock = some p → (s.buf i).valid = true ∨ s.pc p = .filling i
  listed : ∀ b ∈ s.log.log.lh.entries, AtHome s b
  room : logSize ≤ s.log.log.size

/-- A process keeps to the discipline during its calls. -/
structure Polite (s : State Pid) (p : Pid) (stage : Stage) : Prop where
  taking : ∀ i, s.pc p = .filling i → Clean s i
  releasing : stage = .calling → ∀ i rest, s.todo p = .call (.brelse i) rest →
    (s.buf i).lock = some p → Clean s i
  ending : ∀ rest, s.todo p = .call .endOp rest → ∀ i, (s.buf i).lock = some p → Clean s i
  logging : ∀ i rest, s.todo p = .call (.logWrite i) rest → AtHome s (s.buf i).blockno
  inactive : s.booted = false → ¬ (s.log.phase p).Active

/-- What `commit` has written so far. -/
structure Progress (s : State Pid) (p : Pid) (view : View) : Prop where
  synced : view.stage.Inner → ∀ i, (s.buf i).lock = some p →
    Synced s i ∨ view.draft = .logBlock i ∨ view.draft = .headBlock i
  copied : ∀ i, view.draft = .logBlock i → (s.buf i).lock = some p ∧
    (s.buf i).valid = true ∧ (s.buf i).data = s.latest (view.log.lh.block view.logged)
  logged : ∀ k < view.logged, s.disk (view.log.start + k + 1) = s.latest (view.log.lh.block k)
  home : view.home = true → view.stage = .installing ∧
    s.disk (view.log.lh.block view.installed) = s.latest (view.log.lh.block view.installed)
  bound : view.logged ≤ view.log.lh.n
  roomy : 0 < view.logged ∨ (∃ i, view.draft = .logBlock i) → view.log.lh.n < view.log.size
  fresh : view.stage = .start ∨ view.stage = .writing → view.installed = 0
  quiet : ¬ view.stage.Commits → view.logged = 0 ∧ ∀ i, view.draft ≠ .logBlock i

/-- All that is known of a thread. -/
structure Knows (s : State Pid) (p : Pid) (view : View) : Prop where
  runs : Runs s p view
  polite : Polite s p view.stage
  progress : Progress s p view

/-- What a step of another process leaves of the contents. -/
structure Steady (s t : State Pid) (q : Pid) : Prop where
  start : t.log.log.start = s.log.log.start
  size : t.log.log.size = s.log.log.size
  buf : ∀ i, (s.buf i).lock = some q → (t.buf i).valid = (s.buf i).valid ∧
    (t.buf i).blockno = (s.buf i).blockno ∧ (t.buf i).data = (s.buf i).data
  back : ∀ i, (t.buf i).lock = some q → (s.buf i).lock = some q
  latest : ∀ i, (s.buf i).lock = some q → t.latest (s.buf i).blockno = s.latest (s.buf i).blockno
  booting : t.booted = false → s.booted = false
  quiet : Privileged s q → t.disk = s.disk ∧ t.latest = s.latest

variable {s t : State Pid} {p q : Pid} {view : View} {i : Fin nbuf}

theorem Active.not_commits {phase : Log.Phase} (active : phase.Active) : ¬ phase.Commits := by
  cases phase <;> simp_all [Log.Phase.Active, Log.Phase.Commits]

/-- The stages of `commit` and `initlog` are those of a privileged process. -/
theorem Runs.privileged_iff (runs : Runs s p view) : Privileged s p ↔ view.stage.Inner := by
  have fits := runs.fits
  constructor
  · intro privileged
    refine ⟨fun user => ?_, fun calling => ?_⟩
    · rw [user] at fits
      exact privileged.elim (fun boot => boot.2 (runs.done user)) fits
    · rw [calling] at fits
      exact privileged.elim (fun boot => absurd fits.1 (by simp [boot.1])) fits.2.1
  · intro inner
    by_cases commits : view.stage.Commits
    · exact .inr (runs.fits.commits commits).2
    refine .inl ⟨?_, fun done => ?_⟩
    · have booting : view.stage = .boot ∨ view.stage = .wiping := by
        by_contra neither
        exact commits ⟨inner, fun boot => neither (.inl boot), fun wiping =>
          neither (.inr wiping)⟩
      rcases booting with stage | stage <;> rw [stage] at fits <;> exact fits.1
    · have meets := runs.meets
      cases todo : s.todo p with
      | call op rest => simp [todo, Prog.Done] at done
      | ret result =>
        rw [todo] at meets
        exact inner.1 meets

theorem Knows.inactive (knows : Knows s p view) (inner : view.stage.Inner) :
    ¬ (s.log.phase p).Active := by
  intro active
  rcases knows.runs.privileged_iff.mpr inner with boot | commits
  · exact knows.polite.inactive boot.1 active
  · exact Active.not_commits active commits

theorem Accurate.clean_of_inner (accurate : Accurate s) (knows : Knows s p view)
    (inner : view.stage.Inner) (dev : (s.buf i).dev = s.log.log.dev)
    (locked : (s.buf i).lock = some p) : Clean s i := by
  rcases accurate.home i dev with clean | ⟨q, other, active⟩
  · exact clean
  · obtain rfl : p = q := Option.mem_unique locked other
    exact absurd active (knows.inactive inner)

theorem Accurate.synced_of_outer (accurate : Accurate s) (runs : Runs s p view)
    (outer : ¬ view.stage.Inner) (dev : (s.buf i).dev = s.log.log.dev)
    (locked : (s.buf i).lock = some p) : Synced s i := by
  rcases accurate.area i dev with synced | ⟨q, other, privileged⟩
  · exact synced
  · obtain rfl : p = q := Option.mem_unique locked other
    exact absurd (runs.privileged_iff.mp privileged) outer

theorem Accurate.clean_of_free (accurate : Accurate s) (dev : (s.buf i).dev = s.log.log.dev)
    (free : (s.buf i).lock = none) : Clean s i ∧ Synced s i := by
  refine ⟨?_, ?_⟩
  · rcases accurate.home i dev with clean | ⟨q, locked, -⟩
    · exact clean
    · simp [free] at locked
  · rcases accurate.area i dev with synced | ⟨q, locked, -⟩
    · exact synced
    · simp [free] at locked

theorem AtHome.congr {b : Nat} (start : t.log.log.start = s.log.log.start)
    (size : t.log.log.size = s.log.log.size) : AtHome t b ↔ AtHome s b := by
  rw [AtHome, AtHome, start, size]

theorem Clean.steady (clean : Clean s i) (steady : Steady s t q)
    (locked : (s.buf i).lock = some q) : Clean t i := by
  obtain ⟨valid, blockno, data⟩ := steady.buf i locked
  intro here home
  rw [blockno] at home ⊢
  rw [data, steady.latest i locked]
  exact clean (valid ▸ here) ((AtHome.congr steady.start steady.size).mp home)

theorem Synced.steady (synced : Synced s i) (steady : Steady s t q)
    (locked : (s.buf i).lock = some q) (privileged : Privileged s q) : Synced t i := by
  obtain ⟨valid, blockno, data⟩ := steady.buf i locked
  intro here away
  rw [blockno] at away ⊢
  rw [data, (steady.quiet privileged).1]
  exact synced (valid ▸ here) fun home => away ((AtHome.congr steady.start steady.size).mpr home)

theorem Undisturbed.active_iff (calm : Undisturbed s t q) :
    (t.log.phase q).Active ↔ (s.log.phase q).Active := by
  rcases calm.phase with same | woken
  · rw [same]
  · rw [woken]
    cases s.log.phase q <;> exact .rfl

/-- What is known of a thread survives the steps of the others. -/
theorem Knows.steady (knows : Knows s q view) (calm : Undisturbed s t q) (steady : Steady s t q)
    (runs : Runs t q view) : Knows t q view := by
  obtain ⟨before, polite, progress⟩ := knows
  refine ⟨runs, ?_, ?_⟩
  · exact
      { taking := fun i filling => by
          rw [calm.pc] at filling
          have doing := before.doing
          rw [Doing, filling] at doing
          exact (polite.taking i filling).steady steady doing.2
        releasing := fun calling i rest todo locked => by
          rw [calm.todo] at todo
          have earlier := steady.back i locked
          exact (polite.releasing calling i rest todo earlier).steady steady earlier
        ending := fun rest todo i locked => by
          rw [calm.todo] at todo
          have earlier := steady.back i locked
          exact (polite.ending rest todo i earlier).steady steady earlier
        logging := fun i rest todo => by
          rw [calm.todo] at todo
          have calling : view.stage = .calling := before.pre todo
          have fits := before.fits_of calling
          have ready := fits.2.2
          rw [Ready, todo] at ready
          rw [(steady.buf i ready.1).2.1]
          exact (AtHome.congr steady.start steady.size).mpr (polite.logging i rest todo)
        inactive := fun booting active =>
          polite.inactive (steady.booting booting) (calm.active_iff.mp active) }
  · have privileged : view.stage.Commits → t.disk = s.disk ∧ t.latest = s.latest := fun commits =>
      steady.quiet (before.privileged_iff.mpr commits.1)
    have commits : ∀ {P : Prop}, (view.stage.Commits → P) →
        (¬ view.stage.Commits → P) → P := fun yes no => (em view.stage.Commits).elim yes no
    exact
      { synced := fun inner i locked => by
          have earlier := steady.back i locked
          refine (progress.synced inner i earlier).imp_left fun synced => ?_
          exact synced.steady steady earlier (before.privileged_iff.mpr inner)
        copied := fun i draft => by
          obtain ⟨locked, valid, data⟩ := progress.copied i draft
          refine ⟨calm.locked i locked, (steady.buf i locked).1.trans valid, ?_⟩
          refine commits (fun yes => ?_) fun no => absurd draft ((progress.quiet no).2 i)
          rw [(steady.buf i locked).2.2, (privileged yes).2]
          exact data
        logged := fun k earlier => by
          refine commits (fun yes => ?_) fun no => ?_
          · rw [(privileged yes).1, (privileged yes).2]
            exact progress.logged k earlier
          · rw [(progress.quiet no).1] at earlier
            omega
        home := fun written => by
          obtain ⟨stage, same⟩ := progress.home written
          have yes : view.stage.Commits := by rw [stage]; decide
          rw [(privileged yes).1, (privileged yes).2]
          exact ⟨stage, same⟩
        bound := progress.bound
        roomy := progress.roomy
        fresh := progress.fresh
        quiet := progress.quiet }

end Contents

end OsLab.Bio
