import OsLab.Bio.Contents

/-!
# Every step keeps the contents coherent

Each operation is shown to keep what the buffers and the disk hold, to leave the contents that the
other threads rely on and to bring its own thread to what its view says next.
-/

namespace OsLab.Bio

open Function List Finset

section Coherence

variable {Pid : Type*} {first p : Pid} {s t : State Pid} {view later : View} {i : Fin nbuf}
  {b : Nat} {q : Pid} {j : Fin nbuf}

attribute [local simp] State.setThread State.buf State.goto Prog.Done

/-- What has to be shown of the contents after a step of one process. -/
structure Kept (s t : State Pid) (p : Pid) (later : View) : Prop where
  accurate : Accurate t
  polite : Polite t p later.stage
  progress : Progress t p later
  others : ∀ q, q ≠ p → Steady s t q

/-- The blocks and contents of the buffers and of the disk are the same. -/
structure SameContents (s t : State Pid) : Prop where
  buf : ∀ i, (t.buf i).valid = (s.buf i).valid ∧ (t.buf i).dev = (s.buf i).dev ∧
    (t.buf i).blockno = (s.buf i).blockno ∧ (t.buf i).data = (s.buf i).data
  disk : t.disk = s.disk
  latest : t.latest = s.latest
  start : t.log.log.start = s.log.log.start
  size : t.log.log.size = s.log.log.size
  dev : t.log.log.dev = s.log.log.dev

theorem SameContents.clean_iff (same : SameContents s t) (i : Fin nbuf) :
    Clean t i ↔ Clean s i := by
  obtain ⟨valid, -, blockno, data⟩ := same.buf i
  rw [Clean, Clean, valid, blockno, data, same.latest, AtHome.congr same.start same.size]

theorem SameContents.synced_iff (same : SameContents s t) (i : Fin nbuf) :
    Synced t i ↔ Synced s i := by
  obtain ⟨valid, -, blockno, data⟩ := same.buf i
  rw [Synced, Synced, valid, blockno, data, same.disk, AtHome.congr same.start same.size]

theorem SameContents.steady (same : SameContents s t)
    (back : ∀ q, q ≠ p → ∀ i, (t.buf i).lock = some q → (s.buf i).lock = some q)
    (booting : t.booted = false → s.booted = false) (other : q ≠ p) : Steady s t q where
  start := same.start
  size := same.size
  buf i _ := ⟨(same.buf i).1, (same.buf i).2.2.1, (same.buf i).2.2.2⟩
  back := back q other
  latest i _ := by rw [same.latest]
  booting := booting
  quiet _ := ⟨same.disk, same.latest⟩

/-- Only one buffer changes, and neither its lock nor anything outside the cache. -/
structure OneBuffer (i : Fin nbuf) (s t : State Pid) : Prop where
  others : ∀ j, j ≠ i → t.buf j = s.buf j
  lock : (t.buf i).lock = (s.buf i).lock
  log : t.log = s.log
  disk : t.disk = s.disk
  latest : t.latest = s.latest
  booted : t.booted = s.booted
  unpinned : t.unpinned = s.unpinned

section

variable (one : OneBuffer i s t)
include one

theorem OneBuffer.locks (j : Fin nbuf) : (t.buf j).lock = (s.buf j).lock := by
  rcases eq_or_ne j i with rfl | other
  · exact one.lock
  · rw [one.others j other]

theorem OneBuffer.pinnedBlocks : pinnedBlocks t = pinnedBlocks s := by
  rw [Bio.pinnedBlocks, Bio.pinnedBlocks, one.log, one.booted, one.unpinned]

theorem OneBuffer.atHome (b : Nat) : AtHome t b ↔ AtHome s b := by
  rw [AtHome, AtHome, one.log]

theorem OneBuffer.clean_iff (other : j ≠ i) : Clean t j ↔ Clean s j := by
  rw [Clean, Clean, one.others j other, one.latest, one.atHome]

theorem OneBuffer.synced_iff (other : j ≠ i) : Synced t j ↔ Synced s j := by
  rw [Synced, Synced, one.others j other, one.disk, one.atHome]

theorem OneBuffer.steady (theirs : (s.buf i).lock ≠ some q) : Steady s t q where
  start := by rw [one.log]
  size := by rw [one.log]
  buf j locked := by
    have other : j ≠ i := by
      rintro rfl
      exact theirs locked
    rw [one.others j other]
    exact ⟨rfl, rfl, rfl⟩
  back j locked := (one.locks j).symm.trans locked
  latest j _ := by rw [one.latest]
  booting := by
    rw [one.booted]
    exact id
  quiet _ := ⟨one.disk, one.latest⟩

end

/-- A thread of `commit` or `initlog` makes no call of the discipline. -/
theorem Runs.polite_of_inner (runs : Runs t p later) (inner : later.stage.Inner)
    (pc : ∀ i, t.pc p ≠ .filling i) (inactive : ¬ (t.log.phase p).Active) :
    Polite t p later.stage where
  taking i filling := absurd filling (pc i)
  releasing calling := absurd calling inner.2
  ending _ todo := absurd (runs.pre todo) inner.2
  logging _ _ todo := absurd (runs.pre todo) inner.2
  inactive _ := inactive

theorem Runs.polite_of_user (runs : Runs t p later) (user : later.stage = .user)
    (booted : t.booted = true) : Polite t p later.stage := by
  have done := runs.done user
  have idle : ∀ op rest, t.todo p ≠ .call op rest := by
    intro op rest todo
    simp [todo] at done
  exact
    { taking := fun i filling => by
        simp [(runs.user done).2] at filling
      releasing := fun _ i rest todo => absurd todo (idle _ _)
      ending := fun rest todo => absurd todo (idle _ _)
      logging := fun i rest todo => absurd todo (idle _ _)
      inactive := fun booting => by simp [booted] at booting }

variable {stage : Stage}

theorem progress_idle {log : Log}
    (synced : stage.Inner → ∀ i, (t.buf i).lock = some p → Synced t i) :
    Progress t p (.idle stage log 0 0) where
  synced inner i locked := .inl (synced inner i locked)
  copied i draft := by simp [View.idle] at draft
  logged k earlier := by simp [View.idle] at earlier
  home written := by simp [View.idle] at written
  bound := Nat.zero_le _
  roomy some := by simp [View.idle] at some
  fresh _ := rfl
  quiet _ := ⟨rfl, by simp [View.idle]⟩

theorem progress_outer (outer : ¬ stage.Inner) : Progress t p (.outer stage) :=
  progress_idle (absurd · outer)

section

variable (progress : Progress s p view)
include progress

/-- What `commit` has written stays if the disk does, and the draft. -/
theorem Progress.carry (disk : t.disk = s.disk) (latest : t.latest = s.latest)
    (synced : view.stage.Inner → ∀ i, (t.buf i).lock = some p →
      Synced t i ∨ view.draft = .logBlock i ∨ view.draft = .headBlock i)
    (draft : ∀ i, view.draft = .logBlock i → (t.buf i).lock = some p ∧
      (t.buf i).valid = (s.buf i).valid ∧ (t.buf i).data = (s.buf i).data) : Progress t p view where
  synced := synced
  copied i isDraft := by
    obtain ⟨locked, valid, data⟩ := draft i isDraft
    rw [valid, data, latest]
    exact ⟨locked, (progress.copied i isDraft).2⟩
  logged k earlier := by
    rw [disk, latest]
    exact progress.logged k earlier
  home written := by
    rw [disk, latest]
    exact progress.home written
  bound := progress.bound
  roomy := progress.roomy
  fresh := progress.fresh
  quiet := progress.quiet

/-- What `commit` has written stays if the contents and the locks do. -/
theorem Progress.congr (same : SameContents s t)
    (locks : ∀ i, (t.buf i).lock = some p ↔ (s.buf i).lock = some p) : Progress t p view := by
  refine progress.carry same.disk same.latest (fun inner i locked => ?_) fun i draft => ?_
  · rw [same.synced_iff]
    exact progress.synced inner i ((locks i).mp locked)
  · exact ⟨(locks i).mpr (progress.copied i draft).1, (same.buf i).1, (same.buf i).2.2.2⟩

/-- What `commit` has written stays if a buffer changes that is not its draft. -/
theorem Progress.of_buffer (one : OneBuffer i s t)
    (synced : view.stage.Inner → (t.buf i).lock = some p →
      Synced t i ∨ view.draft = .logBlock i ∨ view.draft = .headBlock i)
    (draft : view.draft = .logBlock i →
      (t.buf i).valid = (s.buf i).valid ∧ (t.buf i).data = (s.buf i).data) : Progress t p view := by
  refine progress.carry one.disk one.latest (fun inner j locked => ?_) fun j isDraft => ?_
  · rcases eq_or_ne j i with rfl | other
    · exact synced inner locked
    · rw [one.synced_iff other]
      exact progress.synced inner j ((one.locks j).symm.trans locked)
  · refine ⟨(one.locks j).trans (progress.copied j isDraft).1, ?_⟩
    rcases eq_or_ne j i with rfl | other
    · exact draft isDraft
    · rw [one.others j other]
      exact ⟨rfl, rfl⟩

end

variable {rest : Fin nbuf → Thread Unit}

theorem Polite.of_bread (todo : t.todo p = .call (.bread b) rest)
    (taking : ∀ i, t.pc p = .filling i → Clean t i)
    (inactive : t.booted = false → ¬ (t.log.phase p).Active) : Polite t p stage where
  taking := taking
  releasing _ j rest' todo' := by simp [todo] at todo'
  ending rest' todo' := by simp [todo] at todo'
  logging j rest' todo' := by simp [todo] at todo'
  inactive := inactive

theorem progress_hold (progress : Progress t p view) (held : List (Fin nbuf × Nat)) :
    Progress t p (view.hold held) := by
  unfold View.hold
  split
  · exact progress_outer (by decide)
  · exact { progress with }

theorem Runs.polite_of_return (runs : Runs t p later) (before : Knows s p view)
    (stage : later.stage = if view.stage = .calling then .user else view.stage)
    (notUser : view.stage ≠ .user) (log : t.log = s.log) (booted : t.booted = s.booted)
    (pc : t.pc p = .ready) : Polite t p later.stage := by
  by_cases calling : view.stage = .calling
  · rw [if_pos calling] at stage
    have fits := before.runs.fits_of calling
    exact runs.polite_of_user stage (booted.trans fits.1)
  · rw [if_neg calling] at stage
    refine runs.polite_of_inner (by rw [stage]; exact ⟨notUser, calling⟩) (by simp [pc]) ?_
    rw [log]
    exact before.inactive ⟨notUser, calling⟩

theorem View.hold_stage (view : View) (held : List (Fin nbuf × Nat)) :
    (view.hold held).stage = if view.stage = .calling then .user else view.stage := by
  unfold View.hold
  split <;> rfl

theorem Runs.privileged_of_return (runs : Runs t p later) (before : Runs s p view)
    (stage : later.stage = if view.stage = .calling then .user else view.stage)
    (privileged : Privileged s p) : Privileged t p := by
  have inner := before.privileged_iff.mp privileged
  rw [if_neg inner.2] at stage
  exact runs.privileged_iff.mpr (by rw [stage]; exact inner)

theorem not_atHome_start (accurate : Accurate s) : ¬ AtHome s s.log.log.start := by
  have room := accurate.room
  simp only [logSize, maxOpBlocks] at room
  simp only [AtHome, Log.Home]
  omega

/-- The log blocks of a header that fits lie inside the log. -/
theorem not_atHome_log {k : Nat} (fits : k + 1 < s.log.log.size) :
    ¬ AtHome s (s.log.log.start + k + 1) := by
  simp only [AtHome, Log.Home]
  omega

theorem Knows.outer_of_calling (knows : Knows s p view) (stage : view.stage = .calling) :
    s.booted = true ∧ ¬ Privileged s p := by
  have fits := knows.runs.fits_of stage
  refine ⟨fits.1, ?_⟩
  rw [knows.runs.privileged_iff, stage]
  decide

section Actions

variable [DecidableEq Pid]

theorem oneBuffer_write (s : State Pid) (i : Fin nbuf) (data : Block) (thread : Thread Unit) :
    OneBuffer i s ({ s with cache := s.cache.write i data }.setThread p thread) := by
  refine ⟨fun j other => ?_, ?_, rfl, rfl, rfl, rfl, rfl⟩
  · simp [Bcache.write, other]
  · simp

theorem sameContents_stepLog (s : State Pid) (action : Log.Action Pid) (thread : Thread Unit) :
    SameContents s ((stepLog s action).setThread p thread) := by
  obtain ⟨start, size, dev⟩ := Log.geometry_next s.log action
  exact ⟨fun _ => ⟨rfl, rfl, rfl, rfl⟩, rfl, rfl, start, size, dev⟩

theorem Knows.polite_logWrite (knows : Knows s p view) {rest : Unit → Thread Unit}
    (todo : s.todo p = .call (.logWrite i) rest) (pc : s.pc p = .ready) (action : Log.Action Pid) :
    Polite (stepLog s action) p view.stage where
  taking j filling := by simp [stepLog, pc] at filling
  releasing _ j rest' todo' := by simp [stepLog, todo] at todo'
  ending rest' todo' := by simp [stepLog, todo] at todo'
  logging j rest' todo' := by
    obtain ⟨start, size, -⟩ := Log.geometry_next s.log action
    exact (AtHome.congr start size).mpr (knows.polite.logging j rest' todo')
  inactive booting := by
    have stage : view.stage = .calling := knows.runs.pre todo
    have booted := (knows.outer_of_calling stage).1
    simp [stepLog, booted] at booting

end Actions

variable [Fintype Pid]

/-- The invariant of the counts and that of the contents. -/
structure Coherent (first : Pid) (s : State Pid) : Prop where
  inv : Inv first s
  accurate : Accurate s
  knows : ∀ p, ∃ view, Knows s p view

/-- A good step that keeps the contents keeps both invariants. -/
theorem Coherent.of_kept (coherent : Coherent first s) (good : Good s t p later)
    (kept : Kept s t p later) (active : s.booted = true ∨ ¬ (s.todo p).Done)
    (booted : s.booted = true → t.booted = true) : Coherent first t where
  inv := coherent.inv.of_good good active booted
  accurate := kept.accurate
  knows q := by
    rcases eq_or_ne q p with rfl | other
    · exact ⟨later, good.self, kept.polite, kept.progress⟩
    · obtain ⟨view, knows⟩ := coherent.knows q
      exact ⟨view, knows.steady (good.others q other) (kept.others q other)
        (coherent.inv.others_run good active other knows.runs)⟩

omit [Fintype Pid] in
theorem active_of_call {op : Op} {rest : op.Res → Thread Unit} (todo : s.todo p = .call op rest) :
    s.booted = true ∨ ¬ (s.todo p).Done :=
  .inr (by simp [todo])

/-- Before the boot is over nobody but the process at work is privileged. -/
theorem Inv.commits_of_privileged (inv : Inv first s) (active : s.booted = true ∨ ¬ (s.todo p).Done)
    (other : q ≠ p) (privileged : Privileged s q) : (s.log.phase q).Commits := by
  rcases privileged with ⟨booting, busy⟩ | commits
  · have isFirst := inv.eq_first (p := q) (.inr busy) booting
    exact absurd (isFirst.trans (inv.eq_first active booting).symm) other
  · exact commits

namespace Coherent

section

variable (coherent : Coherent first s)
include coherent

theorem accurate_of_same (active : s.booted = true ∨ ¬ (s.todo p).Done)
    (same : SameContents s t) (good : Good s t p later)
    (unpinned : ∀ b, b ∈ pinnedBlocks s → b ∉ pinnedBlocks t → s.disk b = s.latest b)
    (pinned : ∀ b ∈ pinnedBlocks t, b ∈ pinnedBlocks s)
    (listed : ∀ b ∈ t.log.log.lh.entries, b ∈ s.log.log.lh.entries)
    (home : ∀ i, (s.buf i).lock = some p → (s.log.phase p).Active →
      Clean s i ∨ (t.buf i).lock = some p ∧ (t.log.phase p).Active)
    (area : ∀ i, (s.buf i).lock = some p → Privileged s p →
      Synced s i ∨ (t.buf i).lock = some p ∧ Privileged t p)
    (back : ∀ q, q ≠ p → ∀ i, (t.buf i).lock = some q → (s.buf i).lock = some q)
    (valid : ∀ i, (t.buf i).lock = some p → (s.buf i).valid = true ∨ t.pc p = .filling i) :
    Accurate t where
  disk b away unlisted := by
    rw [same.disk, same.latest]
    by_cases before : b ∈ pinnedBlocks s
    · exact unpinned b before unlisted
    · exact coherent.accurate.disk b ((AtHome.congr same.start same.size).mp away) before
  home i dev := by
    rw [(same.buf i).2.1, same.dev] at dev
    rw [same.clean_iff]
    rcases coherent.accurate.home i dev with clean | ⟨q, locked, open_⟩
    · exact .inl clean
    rcases eq_or_ne q p with rfl | other
    · exact (home i locked open_).imp_right fun after => ⟨q, after⟩
    · have calm := good.others q other
      exact .inr ⟨q, calm.locked i locked, calm.active_iff.mpr open_⟩
  area i dev := by
    rw [(same.buf i).2.1, same.dev] at dev
    rw [same.synced_iff]
    rcases coherent.accurate.area i dev with synced | ⟨q, locked, privileged⟩
    · exact .inl synced
    rcases eq_or_ne q p with rfl | other
    · exact (area i locked privileged).imp_right fun after => ⟨q, after⟩
    · have calm := good.others q other
      have commits := coherent.inv.commits_of_privileged active other privileged
      exact .inr ⟨q, calm.locked i locked, .inr (calm.commits_iff.mpr commits)⟩
  pinned i member := by
    rw [(same.buf i).1]
    refine coherent.accurate.pinned i ⟨?_, ?_⟩
    · rw [← (same.buf i).2.1, ← same.dev]
      exact member.1
    · rw [← (same.buf i).2.2.1]
      exact pinned _ member.2
  locked i q locked := by
    rw [(same.buf i).1]
    rcases eq_or_ne q p with rfl | other
    · exact valid i locked
    · rw [(good.others q other).pc]
      exact coherent.accurate.locked i q (back q other i locked)
  listed b member := (AtHome.congr same.start same.size).mpr
    (coherent.accurate.listed b (listed b member))
  room := by
    rw [same.size]
    exact coherent.accurate.room

theorem accurate_of_buffer (active : s.booted = true ∨ ¬ (s.todo p).Done)
    (one : OneBuffer i s t) (good : Good s t p later) (privileged : Privileged s p → Privileged t p)
    (filled : ∀ j, s.pc p = .filling j → t.pc p = .filling j ∨ (t.buf j).valid = true)
    (home : Clean t i ∨ (t.buf i).lock = some p ∧ (t.log.phase p).Active)
    (area : Synced t i ∨ (t.buf i).lock = some p ∧ Privileged t p)
    (pinned : Pinned t i → (t.buf i).valid = true)
    (kept : (s.buf i).valid = true → (t.buf i).lock ≠ none → (t.buf i).valid = true) :
    Accurate t where
  disk b away absent := by
    rw [one.disk, one.latest]
    exact coherent.accurate.disk b ((one.atHome b).mp away) (one.pinnedBlocks ▸ absent)
  home j dev := by
    rcases eq_or_ne j i with rfl | other
    · exact home.imp_right fun mine => ⟨p, mine⟩
    rw [one.clean_iff other]
    rw [one.others j other, one.log] at dev
    refine (coherent.accurate.home j dev).imp_right ?_
    rintro ⟨q, locked, open_⟩
    refine ⟨q, by rw [one.locks]; exact locked, by rw [one.log]; exact open_⟩
  area j dev := by
    rcases eq_or_ne j i with rfl | other
    · exact area.imp_right fun mine => ⟨p, mine⟩
    rw [one.synced_iff other]
    rw [one.others j other, one.log] at dev
    refine (coherent.accurate.area j dev).imp_right ?_
    rintro ⟨q, locked, before⟩
    refine ⟨q, by rw [one.locks]; exact locked, ?_⟩
    rcases eq_or_ne q p with rfl | another
    · exact privileged before
    · have commits := coherent.inv.commits_of_privileged active another before
      exact .inr ((good.others q another).commits_iff.mpr commits)
  pinned j member := by
    rcases eq_or_ne j i with rfl | other
    · exact pinned member
    rw [one.others j other]
    refine coherent.accurate.pinned j ?_
    rw [Pinned, ← one.log, ← one.pinnedBlocks, ← one.others j other]
    exact member
  locked j q locked := by
    have before := coherent.accurate.locked j q ((one.locks j).symm.trans locked)
    rcases before with valid | filling
    · rcases eq_or_ne j i with rfl | other
      · exact .inl (kept valid (by simp [locked]))
      · rw [one.others j other]
        exact .inl valid
    · rcases eq_or_ne q p with rfl | another
      · exact (filled j filling).symm
      · exact .inr ((good.others q another).pc.trans filling)
  listed b member := by
    rw [one.log] at member
    exact (one.atHome b).mpr (coherent.accurate.listed b member)
  room := by
    rw [one.log]
    exact coherent.accurate.room

/-- Every block of a header lies in a buffer of its own. -/
theorem entries_lt (booted : s.booted = true) (whole : s.unpinned = 0) {c : Nat}
    (cached : Caches s i c) (fresh : c ∉ s.log.log.lh.entries) : s.log.log.lh.n < nbuf := by
  have pinned := pinnedBlocks_of_whole booted whole
  have present : ∀ b ∈ insert c s.log.log.lh.entries.toFinset, ∃ j, Caches s j b := by
    intro b member
    rcases mem_insert.mp member with rfl | listed
    · exact ⟨i, cached⟩
    · exact coherent.inv.shared.present b (by rw [pinned]; exact mem_toFinset.mp listed)
  choose buffer caches using present
  have card : (insert c s.log.log.lh.entries.toFinset).card ≤
    (Finset.univ : Finset (Fin nbuf)).card :=
    card_le_card_of_injOn (fun b => if member : b ∈ insert c s.log.log.lh.entries.toFinset
      then buffer b member else i) (fun _ _ => mem_univ _) (by
        intro a first b second equal
        have firstMem := mem_coe.mp first
        have secondMem := mem_coe.mp second
        simp only [firstMem, secondMem, dif_pos] at equal
        have here := caches a firstMem
        rw [equal] at here
        exact here.2.symm.trans (caches b secondMem).2)
  rw [card_insert_of_notMem (by simpa using fresh),
    toFinset_card_of_nodup coherent.inv.shared.sound.core.distinct,
    LogHeader.length_entries, card_univ, Fintype.card_fin] at card
  omega

theorem kept_call (active : s.booted = true ∨ ¬ (s.todo p).Done)
    (notFilling : ∀ i, s.pc p = .filling i → t.pc p = .filling i) (good : Good s t p later)
    (same : SameContents s t) (locks : ∀ i, (t.buf i).lock = (s.buf i).lock)
    (blocks : pinnedBlocks t = pinnedBlocks s)
    (listed : t.log.log.lh.entries = s.log.log.lh.entries)
    (booting : t.booted = false → s.booted = false)
    (home : ∀ i, (s.buf i).lock = some p → (s.log.phase p).Active →
      Clean s i ∨ (t.log.phase p).Active)
    (area : ∀ i, (s.buf i).lock = some p → Privileged s p → Synced s i ∨ Privileged t p)
    (polite : Polite t p later.stage) (progress : Progress s p later) : Kept s t p later := by
  have back : ∀ q, q ≠ p → ∀ i, (t.buf i).lock = some q → (s.buf i).lock = some q :=
    fun q _ i locked => (locks i).symm.trans locked
  refine ⟨coherent.accurate_of_same active same good ?_ ?_ ?_ ?_ ?_ back ?_, polite,
    progress.congr same fun j => by rw [locks], fun q other => same.steady back booting other⟩
  · exact fun b member absent => absurd (blocks ▸ member) absent
  · rw [blocks]
    exact fun _ => id
  · rw [listed]
    exact fun _ => id
  · exact fun i locked open_ => (home i locked open_).imp_right fun after =>
      ⟨(locks i).trans locked, after⟩
  · exact fun i locked before => (area i locked before).imp_right fun after =>
      ⟨(locks i).trans locked, after⟩
  · intro i locked
    exact (coherent.accurate.locked i p ((locks i).symm.trans locked)).imp_right (notFilling i)

variable (knows : Knows s p view) {op : Op} {rest : op.Res → Thread Unit}
include knows

theorem kept_inner (inner : view.stage.Inner) (todo : s.todo p = .call op rest)
    (good : Good s t p later)
    (same : SameContents s t) (locks : ∀ i, (t.buf i).lock = (s.buf i).lock)
    (single : op.single = true) (samePc : t.pc = s.pc)
    (innerLater : later.stage.Inner) (inactive : ¬ (t.log.phase p).Active)
    (booting : t.booted = false → s.booted = false)
    (unpinned : ∀ b, b ∈ pinnedBlocks s → b ∉ pinnedBlocks t → s.disk b = s.latest b)
    (pinned : ∀ b ∈ pinnedBlocks t, b ∈ pinnedBlocks s)
    (listed : ∀ b ∈ t.log.log.lh.entries, b ∈ s.log.log.lh.entries)
    (progress : Progress t p later) : Kept s t p later := by
  have back : ∀ q, q ≠ p → ∀ i, (t.buf i).lock = some q → (s.buf i).lock = some q :=
    fun q _ i locked => (locks i).symm.trans locked
  have pc := knows.runs.pc_ready todo single
  refine ⟨coherent.accurate_of_same (active_of_call todo) same good unpinned pinned listed ?_ ?_
      back ?_,
    good.self.polite_of_inner innerLater (by simp [samePc, pc]) inactive, progress,
    fun q other => same.steady back booting other⟩
  · intro i _ active
    exact absurd active (knows.inactive inner)
  · intro i locked _
    exact .inr ⟨(locks i).trans locked, good.self.privileged_iff.mpr innerLater⟩
  · intro i locked
    exact (coherent.accurate.locked i p ((locks i).symm.trans locked)).imp_right fun filling =>
      by simp [pc] at filling

theorem kept_moving (todo : s.todo p = .call op rest)
    (good : Good s t p view) (same : SameContents s t) (log : t.log = s.log)
    (booted : t.booted = s.booted) (unpinned : t.unpinned = s.unpinned) (sameTodo : t.todo = s.todo)
    (back : ∀ q, q ≠ p → ∀ i, (t.buf i).lock = some q → (s.buf i).lock = some q)
    (gone : ∀ i, (s.buf i).lock = some p → (t.buf i).lock = some p ∨ Clean s i ∧ Synced s i)
    (new : ∀ i, (t.buf i).lock = some p → (s.buf i).lock = some p ∨ Synced s i)
    (valid : ∀ i, (t.buf i).lock = some p → (s.buf i).valid = true ∨ t.pc p = .filling i)
    (drafts : ∀ i, view.draft = .logBlock i → (t.buf i).lock = some p)
    (polite : Polite t p view.stage) : Kept s t p view := by
  have blocks : pinnedBlocks t = pinnedBlocks s := by
    rw [pinnedBlocks, pinnedBlocks, log, booted, unpinned]
  have privileged : Privileged t p ↔ Privileged s p := by
    rw [Privileged, Privileged, booted, sameTodo, log]
  refine ⟨coherent.accurate_of_same (active_of_call todo) same good ?_ ?_ ?_ ?_ ?_ back valid,
    polite, ?_, fun q other => same.steady back (by rw [booted]; exact id) other⟩
  · intro b member absent
    exact absurd (blocks ▸ member) absent
  · rw [blocks]
    exact fun _ => id
  · rw [log]
    exact fun _ => id
  · intro i locked active
    rcases gone i locked with still | ⟨clean, -⟩
    · exact .inr ⟨still, by rw [log]; exact active⟩
    · exact .inl clean
  · intro i locked before
    rcases gone i locked with still | ⟨-, synced⟩
    · exact .inr ⟨still, privileged.mpr before⟩
    · exact .inl synced
  · refine knows.progress.carry same.disk same.latest (fun inner i locked => ?_)
      fun i draft => ⟨drafts i draft, (same.buf i).1, (same.buf i).2.2.2⟩
    rw [same.synced_iff]
    rcases new i locked with before | synced
    · exact knows.progress.synced inner i before
    · exact .inl synced

/-- `bread` returns what was logged last for a home block. -/
theorem fill_data (pc : s.pc p = .filling i) (home : AtHome s (s.buf i).blockno) :
    ((s.cache.fill i s.disk).buf i).data = s.latest (s.buf i).blockno := by
  have doing := knows.runs.doing
  rw [Doing, pc] at doing
  obtain ⟨⟨c, rest', todo', caches⟩, -⟩ := doing
  simp only [Bcache.fill, Bcache.modify_buf_same]
  split
  · rename_i before
    exact knows.polite.taking i pc before home
  · -- a pinned block is valid, so this one is not pinned
    rename_i before
    refine coherent.accurate.disk _ home fun member => before ?_
    exact coherent.accurate.pinned i ⟨caches.1, member⟩

/-- Nobody else is in `commit` or `initlog`. -/
theorem not_privileged (inner : view.stage.Inner) (other : q ≠ p) : ¬ Privileged s q := by
  rcases knows.runs.privileged_iff.mpr inner with ⟨booting, busy⟩ | commits
  · have isFirst := coherent.inv.eq_first (p := p) (.inr busy) booting
    obtain ⟨theirs, known⟩ := coherent.knows q
    have idle := (known.runs.user (coherent.inv.alone booting q (isFirst ▸ other))).1
    rw [known.runs.privileged_iff, idle]
    decide
  · rintro (⟨booting, busy⟩ | also)
    · have isFirst := coherent.inv.eq_first (p := q) (.inr busy) booting
      have done := coherent.inv.alone booting p (isFirst ▸ other.symm)
      have user := (knows.runs.user done).1
      exact inner.1 user
    · exact coherent.inv.shared.sound.not_commits commits other also

theorem data_eq_latest (inner : view.stage.Inner)
    (owns : Owns s p i b) (home : AtHome s b) : (s.buf i).data = s.latest b := by
  have clean := coherent.accurate.clean_of_inner knows inner owns.caches.1 owns.locked
  rw [← owns.caches.2] at home ⊢
  exact clean owns.valid home

variable {thread : Thread Unit}

theorem kept_disk [DecidableEq Pid] (inner : view.stage.Inner) (pc : s.pc p = .ready)
    (owns : Owns s p i b) (innerLater : later.stage.Inner)
    (clean : AtHome s b → (s.buf i).data = s.latest b) :
    let t := { s with disk := update s.disk (s.buf i).blockno (s.buf i).data }.setThread p thread
    Good s t p later → Progress t p later → Kept s t p later := by
  intro t good progress
  obtain ⟨locked, ⟨onDev, rfl⟩, -⟩ := owns
  have elsewhere : ∀ c, c ≠ (s.buf i).blockno → t.disk c = s.disk c := fun c other =>
    update_of_ne other _ _
  refine ⟨?_, good.self.polite_of_inner innerLater (by simp [t, pc]) (knows.inactive inner),
    progress, fun q other => ?_⟩
  · exact
      { coherent.accurate with
        disk := fun c home absent => by
          rcases eq_or_ne c (s.buf i).blockno with rfl | other
          · exact (update_self _ _ s.disk).trans (clean home)
          · exact (elsewhere c other).trans (coherent.accurate.disk c home absent)
        area := fun j dev => by
          rcases eq_or_ne j i with rfl | other
          · exact .inr ⟨p, locked, good.self.privileged_iff.mpr innerLater⟩
          have different : (s.buf j).blockno ≠ (s.buf i).blockno := fun same =>
            other (coherent.inv.shared.unique j i _ ⟨dev, same⟩ ⟨onDev, rfl⟩)
          rcases coherent.accurate.area j dev with synced | ⟨q, theirs, privileged⟩
          · exact .inl fun valid away => (synced valid away).trans (elsewhere _ different).symm
          · rcases eq_or_ne q p with rfl | another
            · exact .inr ⟨q, theirs, good.self.privileged_iff.mpr innerLater⟩
            · exact absurd privileged (coherent.not_privileged knows inner another) }
  · exact
      { start := rfl
        size := rfl
        buf := fun _ _ => ⟨rfl, rfl, rfl⟩
        back := fun _ => id
        latest := fun _ _ => rfl
        booting := id
        quiet := fun privileged => absurd privileged (coherent.not_privileged knows inner other) }

theorem synced_of_bwrite [DecidableEq Pid] (inner : view.stage.Inner) (owns : Owns s p i b)
    (draft : view.draft = .logBlock i ∨ view.draft = .headBlock i)
    (locked : (s.buf j).lock = some p) : Synced
      ({ s with disk := update s.disk (s.buf i).blockno (s.buf i).data }.setThread p thread) j := by
  intro valid away
  rcases eq_or_ne j i with rfl | other
  · exact (update_self _ _ s.disk).symm
  have dev := coherent.inv.shared.onDev j (by simp [locked])
  have different : (s.buf j).blockno ≠ (s.buf i).blockno := fun equal =>
    other (coherent.inv.shared.unique j i _ ⟨dev, equal⟩ ⟨owns.caches.1, rfl⟩)
  have still := update_of_ne different (s.buf i).data s.disk
  rcases knows.progress.synced inner j locked with synced | mine | mine
  · exact (synced valid away).trans still.symm
  all_goals
    rcases draft with draft | draft
    all_goals
      simp only [draft, Draft.logBlock.injEq, Draft.headBlock.injEq, reduceCtorEq] at mine
      try exact absurd mine.symm other

theorem kept_stage
    (commits : view.stage.Commits) (todo : s.todo p = .call op rest) (single : op.single = true)
    (good : Good s t p later) (commitsLater : later.stage.Commits)
    (same : SameContents s t) (locks : ∀ i, (t.buf i).lock = (s.buf i).lock)
    (samePc : t.pc = s.pc) (booted : t.booted = s.booted) (blocks : pinnedBlocks t = pinnedBlocks s)
    (listed : ∀ b ∈ t.log.log.lh.entries, b ∈ s.log.log.lh.entries)
    (progress : Progress s p later) : Kept s t p later := by
  refine coherent.kept_inner knows commits.1 todo good same locks single samePc commitsLater.1 ?_
    (by rw [booted]; exact id) ?_ ?_ listed (progress.congr same fun j => by rw [locks])
  · intro active
    exact Active.not_commits active (good.self.fits.commits commitsLater).2
  · intro b member absent
    exact absurd (blocks ▸ member) absent
  · rw [blocks]
    exact fun _ => id

theorem kept_panic (todo : s.todo p = .call op rest)
    (panic : Option Panic) (good : Good s { s with panic := panic } p view) :
    Kept s { s with panic := panic } p view :=
  coherent.kept_call (active_of_call todo) (fun _ => id) good
    ⟨fun _ => ⟨rfl, rfl, rfl, rfl⟩, rfl, rfl, rfl, rfl, rfl⟩ (fun _ => rfl) rfl rfl id
    (fun _ _ active => .inr active) (fun _ _ privileged => .inr privileged)
    { knows.polite with } knows.progress

theorem kept_modify (booted : s.booted = true)
    (done : (s.todo p).Done) (locked : (s.buf i).lock = some p) {data : Block}
    (active : (s.log.phase p).Active) (home : AtHome s (s.buf i).blockno) :
    let t := { s with cache := s.cache.write i data }
    Good s t p view → Kept s t p view := by
  intro t good
  obtain ⟨stage, pc⟩ := knows.runs.user done
  have outer : ¬ view.stage.Inner := fun inner => inner.1 stage
  have one : OneBuffer i s t := by
    refine ⟨fun j other => ?_, ?_, rfl, rfl, rfl, rfl, rfl⟩
    · simp [t, Bcache.write, other]
    · simp [t]
  have valid : (s.buf i).valid = true :=
    (coherent.accurate.locked i p locked).resolve_right (by simp [pc])
  have after : (t.buf i).valid = true := by simpa [t] using valid
  refine ⟨coherent.accurate_of_buffer (.inl booted) one good id (fun _ => .inl)
    (.inr ⟨one.lock.trans locked, active⟩) (.inl ?_) (fun _ => after) (fun _ _ => after),
    good.self.polite_of_user stage booted, knows.progress.of_buffer one ?_ ?_,
    fun q other => one.steady ?_⟩
  · intro _ away
    refine absurd ((one.atHome _).mpr home) ?_
    simpa [t] using away
  · exact (absurd · outer)
  · exact fun draft => absurd draft ((knows.progress.quiet fun commits => outer commits.1).2 i)
  · rw [locked]
    exact fun same => other (Option.some.inj same).symm

end

variable [DecidableEq Pid]

section

variable (coherent : Coherent first s) (knows : Knows s p view)
include coherent knows

section

variable (todo : s.todo p = .call (.bread b) rest)
include todo

theorem kept_bget (pc : s.pc p = .ready) {cache : Bcache Pid}
    (found : s.cache.bget s.log.log.dev b = some (i, cache)) :
    let t := { s with cache := cache }.goto p (.locking i)
    Good s t p view → Kept s t p view := by
  intro t good
  have polite : Polite t p view.stage := by
    refine .of_bread todo (fun j filling => ?_) knows.polite.inactive
    simp [t] at filling
  rcases Bcache.bget_eq_some found with ⟨-, rfl⟩ | ⟨missing, unused, rfl⟩
  · have locks : ∀ k, ((s.cache.bpin i).buf k).lock = (s.buf k).lock := fun k =>
      Bcache.bpin_lock ..
    refine coherent.kept_moving knows todo good ?_ rfl rfl rfl rfl ?_ ?_ ?_ ?_ ?_ polite
    · exact ⟨fun k => by simp [t], rfl, rfl, rfl, rfl, rfl⟩
    · exact fun q _ k locked => (locks k).symm.trans locked
    · exact fun k locked => .inl ((locks k).trans locked)
    · exact fun k locked => .inl ((locks k).symm.trans locked)
    · intro k locked
      exact (coherent.accurate.locked k p ((locks k).symm.trans locked)).imp_right fun filling =>
        by simp [pc] at filling
    · exact fun k draft => (locks k).trans (knows.progress.copied k draft).1
  · have zero : (s.buf i).refcnt = 0 := Bcache.unused_eq_some unused
    have free : (s.buf i).lock = none := by
      by_contra locked
      exact coherent.inv.shared.conserved.referenced_of_lock locked zero
    have one : OneBuffer i s t := by
      refine ⟨fun k other => ?_, ?_, rfl, rfl, rfl, rfl, rfl⟩
      · simp [t, Bcache.recycle, other]
      · simp [t, Bcache.recycle]
    have invalid : ¬ (t.buf i).valid = true := by simp [t, Bcache.recycle]
    refine ⟨coherent.accurate_of_buffer (active_of_call todo) one good id ?_ (.inl ?_) (.inl ?_) ?_
      ?_, polite, knows.progress.of_buffer one ?_ ?_, fun q other => one.steady (by simp [free])⟩
    · intro k filling
      simp [pc] at filling
    · exact (absurd · invalid)
    · exact (absurd · invalid)
    · -- the block was not in the cache, so it is not pinned
      rintro ⟨-, member⟩
      rw [one.pinnedBlocks] at member
      obtain ⟨k, cached⟩ := coherent.inv.shared.present _ member
      refine absurd cached (Bcache.find_eq_none coherent.inv.shared.listed ?_ k)
      simpa [t, Bcache.recycle] using missing
    · intro _ locked
      rw [one.lock, free] at locked
      exact absurd rfl locked
    · exact fun _ _ => .inl (absurd · invalid)
    · intro draft
      have locked := (knows.progress.copied i draft).1
      simp [free] at locked

theorem kept_acquiresleep (pc : s.pc p = .locking i) (caches : Caches s i b)
    (free : (s.buf i).lock = none) :
    let t := { s with cache := s.cache.acquiresleep i p }.goto p (.filling i)
    Good s t p view → Kept s t p view := by
  intro t good
  obtain ⟨clean, synced⟩ := coherent.accurate.clean_of_free caches.1 free
  have same : SameContents s t := ⟨fun k => by simp [t], rfl, rfl, rfl, rfl, rfl⟩
  have locks : ∀ k, k ≠ i → (t.buf k).lock = (s.buf k).lock := by
    intro k other
    simp [t, other]
  have mine : (t.buf i).lock = some p := by simp [t]
  refine coherent.kept_moving knows todo good same rfl rfl rfl rfl ?_ ?_ ?_ ?_ ?_ ?_
  · intro q other k locked
    rcases eq_or_ne k i with rfl | different
    · exact absurd (Option.mem_unique mine locked).symm other
    · exact (locks k different).symm.trans locked
  · intro k locked
    rcases eq_or_ne k i with rfl | different
    · exact .inl mine
    · exact .inl ((locks k different).trans locked)
  · intro k locked
    rcases eq_or_ne k i with rfl | different
    · exact .inr synced
    · exact .inl ((locks k different).symm.trans locked)
  · intro k locked
    rcases eq_or_ne k i with rfl | different
    · exact .inr (by simp [t])
    · exact (coherent.accurate.locked k p ((locks k different).symm.trans locked)).imp_right
        fun filling => by simp [pc] at filling
  · intro k draft
    have locked := (knows.progress.copied k draft).1
    have different : k ≠ i := by
      rintro rfl
      simp [free] at locked
    exact (locks k different).trans locked
  · refine .of_bread todo (fun k filling => ?_) knows.polite.inactive
    obtain rfl : i = k := by simpa [t] using filling
    exact (same.clean_iff i).mpr clean

theorem kept_fill (pc : s.pc p = .filling i) (caches : Caches s i b)
    (locked : (s.buf i).lock = some p) :
    let t := ({ s with cache := s.cache.fill i s.disk }.goto p .ready).setThread p (rest i)
    Good s t p (view.take i b) → Kept s t p (view.take i b) := by
  intro t good
  have one : OneBuffer i s t := by
    refine ⟨fun k other => ?_, ?_, rfl, rfl, rfl, rfl, rfl⟩
    · simp [t, Bcache.fill, other]
    · simp [t]
  have valid : (t.buf i).valid = true := Bcache.fill_valid (.inl rfl)
  have blockno : (t.buf i).blockno = (s.buf i).blockno := by
    simp [t]
  have data : (t.buf i).data =
      if (s.buf i).valid = true then (s.buf i).data else s.disk (s.buf i).blockno := by
    simp only [t, State.setThread, State.goto, State.buf, Bcache.fill, Bcache.modify_buf_same]
    split <;> rfl
  have cleanAfter : Clean t i := by
    intro _ home
    rw [blockno, one.atHome] at home
    rw [blockno]
    exact coherent.fill_data knows pc home
  have syncedAfter : Synced s i → Synced t i := by
    intro synced _ away
    rw [blockno, one.atHome] at away
    rw [data, blockno, one.disk]
    split
    · rename_i before
      exact synced before away
    · rfl
  have stage := view.hold_stage ((i, b) :: view.held)
  have ready : t.pc p = .ready := by simp [t]
  have privileged := good.self.privileged_of_return knows.runs stage
  refine ⟨coherent.accurate_of_buffer (active_of_call todo) one good privileged ?_
      (.inl cleanAfter) ?_ ?_ ?_,
    good.self.polite_of_return knows stage (knows.runs.pre todo) rfl rfl ready,
    progress_hold (knows.progress.of_buffer one ?_ ?_) _, fun q other => one.steady ?_⟩
  · intro k filling
    obtain rfl : i = k := by simpa [pc] using filling
    exact .inr valid
  · rcases coherent.accurate.area i caches.1 with synced | ⟨q, theirs, before⟩
    · exact .inl (syncedAfter synced)
    · obtain rfl : p = q := Option.mem_unique locked theirs
      exact .inr ⟨one.lock.trans locked, privileged before⟩
  · exact fun _ => valid
  · exact fun _ _ => valid
  · intro inner _
    exact (knows.progress.synced inner i locked).imp_left syncedAfter
  · intro draft
    have before := (knows.progress.copied i draft).2.1
    rw [data, if_pos before, valid, before]
    exact ⟨rfl, rfl⟩
  · rw [locked]
    exact fun same => other (Option.some.inj same).symm

end

variable {rest : Unit → Thread Unit}

theorem kept_releasesleep (todo : s.todo p = .call (.brelse i) rest) (pc : s.pc p = .ready)
    (locked : (s.buf i).lock = some p) :
    let t := { s with cache := s.cache.releasesleep i }.goto p (.dropping i)
    Good s t p view → Kept s t p view := by
  intro t good
  have dev := coherent.inv.shared.onDev i (by simp [locked])
  have locks : ∀ k, k ≠ i → (t.buf k).lock = (s.buf k).lock := by
    intro k other
    simp [t, other]
  have freed : (t.buf i).lock = none := by simp [t]
  have same : SameContents s t := ⟨fun k => by simp [t], rfl, rfl, rfl, rfl, rfl⟩
  have released : Clean s i ∧ Synced s i := by
    rcases knows.runs.pre todo with calling | ⟨inner, -, none⟩
    · refine ⟨knows.polite.releasing calling i rest todo locked,
        coherent.accurate.synced_of_outer knows.runs (fun inner => inner.2 calling) dev locked⟩
    · refine ⟨coherent.accurate.clean_of_inner knows inner dev locked, ?_⟩
      simpa [none] using knows.progress.synced inner i locked
  have here : ∀ k q, (t.buf k).lock = some q → k ≠ i ∧ (s.buf k).lock = some q := by
    intro k q taken
    have different : k ≠ i := by
      rintro rfl
      simp [freed] at taken
    exact ⟨different, (locks k different).symm.trans taken⟩
  refine coherent.kept_moving knows todo good same rfl rfl rfl rfl ?_ ?_ ?_ ?_ ?_ ?_
  · exact fun q _ k taken => (here k q taken).2
  · intro k mine
    rcases eq_or_ne k i with rfl | different
    · exact .inr released
    · exact .inl ((locks k different).trans mine)
  · exact fun k taken => .inl (here k p taken).2
  · intro k taken
    exact (coherent.accurate.locked k p (here k p taken).2).imp_right fun filling => by
      simp [pc] at filling
  · intro k draft
    have mine := (knows.progress.copied k draft).1
    have different : k ≠ i := by
      rintro rfl
      rcases knows.runs.pre todo with calling | ⟨-, -, none⟩
      · exact (knows.progress.quiet fun commits => commits.1.2 calling).2 k draft
      · simp [none] at draft
    exact (locks k different).trans mine
  · exact
      { taking := fun k filling => by simp [t] at filling
        releasing := fun _ k rest' todo' taken => by
          have equal := (Prog.call.inj (todo.symm.trans todo')).1
          obtain rfl : i = k := by simpa using equal
          simp [freed] at taken
        ending := fun rest' todo' => by simp [t, todo] at todo'
        logging := fun k rest' todo' => by simp [t, todo] at todo'
        inactive := knows.polite.inactive }

theorem kept_put (todo : s.todo p = .call (.brelse i) rest) (pc : s.pc p = .dropping i) :
    let t := ({ s with cache := s.cache.put i }.goto p .ready).setThread p (rest ())
    Good s t p (view.release i) → Kept s t p (view.release i) := by
  intro t good
  have locks : ∀ k, (t.buf k).lock = (s.buf k).lock := by
    intro k
    simp [t, Bcache.put_buf]
  have same : SameContents s t :=
    ⟨fun k => by simp [t, Bcache.put_buf], rfl, rfl, rfl, rfl, rfl⟩
  have back : ∀ q, q ≠ p → ∀ k, (t.buf k).lock = some q → (s.buf k).lock = some q :=
    fun q _ k taken => (locks k).symm.trans taken
  have stage := view.hold_stage (view.held.filter fun h => h.1 ≠ i)
  have notUser : view.stage ≠ .user := by
    rcases knows.runs.pre todo with calling | ⟨inner, -⟩
    · simp [calling]
    · exact inner.1
  have privileged := good.self.privileged_of_return knows.runs stage
  refine ⟨coherent.accurate_of_same (active_of_call todo) same good ?_ (fun _ => id) (fun _ => id)
    ?_ ?_ back ?_, good.self.polite_of_return knows stage notUser rfl rfl
      (by simp [t]), ?_, fun q other => same.steady back id other⟩
  · exact fun b member absent => absurd member absent
  · exact fun k taken active => .inr ⟨(locks k).trans taken, active⟩
  · exact fun k taken before => .inr ⟨(locks k).trans taken, privileged before⟩
  · intro k taken
    exact (coherent.accurate.locked k p ((locks k).symm.trans taken)).imp_right fun filling => by
      simp [pc] at filling
  · exact progress_hold (knows.progress.congr same fun k => by rw [locks]) _

section

variable (inner : view.stage.Inner) {op : Op} {rest : op.Res → Thread Unit}
  (todo : s.todo p = .call op rest) {thread : Thread Unit}
include inner todo

theorem kept_read (single : op.single = true) (good : Good s (s.setThread p thread) p later)
    (innerLater : later.stage.Inner) (progress : Progress s p later) :
    Kept s (s.setThread p thread) p later := by
  have same : SameContents s (s.setThread p thread) :=
    ⟨fun _ => ⟨rfl, rfl, rfl, rfl⟩, rfl, rfl, rfl, rfl, rfl⟩
  exact coherent.kept_inner knows inner todo good same (fun _ => rfl) single rfl innerLater
    (knows.inactive inner) id (fun b member absent => absurd member absent) (fun _ => id)
    (fun _ => id) (progress.congr same fun _ => .rfl)

/-- `commit` or `initlog` writes to a buffer that it holds. -/
theorem kept_write (pc : s.pc p = .ready) {data : Block} (owns : Owns s p i b)
    (innerLater : later.stage.Inner) (clean : AtHome s b → data = s.latest b) :
    let t := { s with cache := s.cache.write i data }.setThread p thread
    Good s t p later → Progress t p later → Kept s t p later := by
  intro t good progress
  have one : OneBuffer i s t := oneBuffer_write s i data thread
  have valid : (t.buf i).valid = true := by
    simpa [t] using owns.valid
  refine ⟨coherent.accurate_of_buffer (active_of_call todo) one good ?_ (by simp [pc]) (.inl ?_)
    (.inr ?_) (fun _ => valid) (fun _ _ => valid),
    good.self.polite_of_inner innerLater (by simp [t, pc])
      (knows.inactive inner), progress, fun q other => one.steady ?_⟩
  · exact fun _ => good.self.privileged_iff.mpr innerLater
  · intro _ home
    have blockno : (t.buf i).blockno = b := by
      simpa [t] using owns.caches.2
    have contents : (t.buf i).data = data := by
      simp [t, Bcache.write]
    rw [blockno, one.atHome] at home
    rw [blockno, contents, one.latest]
    exact clean home
  · exact ⟨one.lock.trans owns.locked, good.self.privileged_iff.mpr innerLater⟩
  · rw [owns.locked]
    exact fun same => other (Option.some.inj same).symm

end

theorem kept_memmove {dst src : Fin nbuf} (todo : s.todo p = .call (.memmove dst src) rest) :
    let t := { s with cache := s.cache.write dst (s.buf src).data }.setThread p (rest ())
    Good s t p (view.copied dst) → Kept s t p (view.copied dst) := by
  intro t good
  have pc := knows.runs.pc_ready todo rfl
  have before := knows.runs.pre todo
  obtain ⟨⟨inner, -⟩, -⟩ := pre_memmove before
  have log := knows.runs.log inner
  have fits := knows.runs.fits
  have one := oneBuffer_write (p := p) s dst (s.buf src).data (rest ())
  have innerLater : (view.copied dst).stage.Inner := by
    rw [(view.copied_kept dst).1]
    exact inner
  have listed : ∀ k, k < view.log.lh.n → AtHome s (view.log.lh.block k) := fun k within =>
    coherent.accurate.listed _ (by rw [log]; exact LogHeader.block_mem_entries _ within)
  have holds : ∀ j c, view.Holds j c → Owns s p j c := fun j c held =>
    knows.runs.held inner _ held (by simp [pc])
  cases stage : view.stage <;> simp only [pre, stage] at before
  case writing =>
    obtain ⟨dstHeld, srcHeld, within, none⟩ := before
    rw [stage] at fits
    have commits : view.stage.Commits := by rw [stage]; decide
    have owns := holds dst _ dstHeld
    have data := coherent.data_eq_latest knows inner (holds src _ srcHeld) (listed _ within)
    have roomy : view.log.lh.n < view.log.size := by
      rcases Nat.eq_zero_or_pos view.logged with zero | pos
      · have away : ¬ AtHome s (view.log.start + view.logged + 1) := by
          rw [zero, ← log]
          refine not_atHome_log (k := 0) ?_
          have room := coherent.accurate.room
          simp only [logSize, maxOpBlocks] at room
          omega
        have fresh : view.log.start + view.logged + 1 ∉ s.log.log.lh.entries := fun member =>
          away (coherent.accurate.listed _ member)
        have whole : s.unpinned = 0 := by
          rw [knows.runs.unpinned commits, knows.progress.fresh (.inr stage)]
        have few := coherent.entries_lt fits.1 whole owns.caches fresh
        have room := coherent.accurate.room
        rw [log] at few room
        exact few.trans_le room
      · exact knows.progress.roomy (.inl pos)
    have away : ¬ AtHome s (view.log.start + view.logged + 1) := by
      rw [← log]
      exact not_atHome_log (by rw [log]; omega)
    refine coherent.kept_write knows inner todo pc owns innerLater (absurd · away) good ?_
    have copied : view.copied dst = { view with draft := .logBlock dst } := by
      rw [View.copied, if_pos stage]
    rw [copied]
    exact
      { knows.progress with
        synced := fun _ j locked => by
          rcases eq_or_ne j dst with rfl | other
          · exact .inr (.inl rfl)
          · rw [one.synced_iff other]
            refine .inl ?_
            simpa [none] using knows.progress.synced inner j ((one.locks j).symm.trans locked)
        copied := fun j draft => by
          obtain rfl : dst = j := by simpa using draft
          refine ⟨one.lock.trans owns.locked, ?_, ?_⟩
          · simpa using owns.valid
          · refine Eq.trans ?_ data
            simp [Bcache.write]
        roomy := fun _ => roomy
        quiet := fun outer => absurd commits outer }
  case installing =>
    obtain ⟨dstHeld, srcHeld, within, all, none⟩ := before
    have owns := holds dst _ dstHeld
    have source := holds src _ srcHeld
    have roomy := knows.progress.roomy (.inl (by omega))
    have away : ¬ AtHome s (view.log.start + view.installed + 1) := by
      rw [← log]
      exact not_atHome_log (by rw [log]; omega)
    have synced : Synced s src := by
      simpa [none] using knows.progress.synced inner src source.locked
    have data : (s.buf src).data = s.latest (view.log.lh.block view.installed) := by
      rw [synced source.valid (by rw [source.caches.2]; exact away), source.caches.2]
      exact knows.progress.logged _ (by omega)
    refine coherent.kept_write knows inner todo pc owns innerLater (fun _ => data) good ?_
    have copied : view.copied dst = view := by
      rw [View.copied, if_neg (by simp [stage])]
    rw [copied]
    refine knows.progress.of_buffer one (fun _ _ => .inl ?_) (by simp [none])
    intro _ notHome
    refine absurd ((one.atHome _).mpr (listed _ within)) ?_
    have blockno : (t.buf dst).blockno = view.log.lh.block view.installed := by
      simpa [t] using owns.caches.2
    rw [← blockno]
    exact notHome

theorem kept_writeHeader (todo : s.todo p = .call (.writeHeader i) rest) :
    let data := s.log.log.lh.store (s.buf i).data
    let t := { s with cache := s.cache.write i data }.setThread p (rest ())
    let later := { view with draft := .headBlock i }
    Good s t p later → Kept s t p later := by
  intro data t later good
  have pc := knows.runs.pc_ready todo rfl
  obtain ⟨stage, held, none⟩ := knows.runs.pre todo
  have inner : view.stage.Inner := by
    rcases stage with stage | stage | stage <;> rw [stage] <;> decide
  have owns := knows.runs.held inner _ held (by simp [pc])
  have one := oneBuffer_write (p := p) s i data (rest ())
  have away : ¬ AtHome s view.log.start := by
    rw [← knows.runs.log inner]
    exact not_atHome_start coherent.accurate
  refine coherent.kept_write knows inner todo pc owns inner (absurd · away) good ?_
  exact
    { knows.progress with
      synced := fun _ j locked => by
        rcases eq_or_ne j i with rfl | other
        · exact .inr (.inr rfl)
        · rw [one.synced_iff other]
          refine .inl ?_
          simpa [none] using knows.progress.synced inner j ((one.locks j).symm.trans locked)
      copied := fun j draft => by simp at draft
      roomy := fun some => knows.progress.roomy (.inl (by simpa using some))
      quiet := fun outer => ⟨(knows.progress.quiet outer).1, by simp⟩ }

theorem kept_bwrite (todo : s.todo p = .call (.bwrite i) rest) :
    let disk := update s.disk (s.buf i).blockno (s.buf i).data
    let t := { s with disk := disk }.setThread p (rest ())
    Good s t p view.wrote → Kept s t p view.wrote := by
  intro disk t good
  have pc := knows.runs.pc_ready todo rfl
  have before := knows.runs.pre todo
  obtain ⟨inner, -⟩ := pre_bwrite before
  have log := knows.runs.log inner
  have innerLater : view.wrote.stage.Inner := by
    rw [view.wrote_kept.1]
    exact inner
  have holds : ∀ c, view.Holds i c → Owns s p i c := fun c held =>
    knows.runs.held inner _ held (by simp [pc])
  have diskOf : ∀ c, Owns s p i c → t.disk = update s.disk c (s.buf i).data := by
    intro c owns
    rw [← owns.caches.2]
    rfl
  have progress := knows.progress
  have inLog : 0 < view.logged → ∀ k < view.logged, ¬ AtHome s (view.log.start + k + 1) := by
    intro pos k earlier
    have roomy := progress.roomy (.inl pos)
    have bound := progress.bound
    rw [← log]
    exact not_atHome_log (by rw [log]; omega)
  -- the header block: nothing else that `commit` has written changes
  have header : view.draft = .headBlock i → view.Holds i view.log.start →
      view.stage ≠ .installing → view.wrote = { view with draft := .none } →
      Kept s t p view.wrote := by
    intro draft held early wrote
    have owns := holds _ held
    have away : ¬ AtHome s view.log.start := by
      rw [← log]
      exact not_atHome_start coherent.accurate
    refine coherent.kept_disk knows inner pc owns innerLater (absurd · away) good ?_
    rw [wrote]
    exact
      { progress with
        synced := fun _ j locked => .inl
          (coherent.synced_of_bwrite knows inner owns (.inr draft) locked)
        copied := fun j draft => by simp at draft
        logged := fun k earlier => by
          rw [diskOf _ owns, update_of_ne (by simp; omega)]
          exact progress.logged k earlier
        home := fun written => absurd (progress.home written).1 early
        roomy := fun some => progress.roomy (.inl (by simpa using some))
        quiet := fun outer => ⟨(progress.quiet outer).1, by simp⟩ }
  cases stage : view.stage <;> simp only [pre, stage] at before
  case wiping =>
    exact header before.1 before.2 (by simp [stage]) (by simp [View.wrote, stage, before.1])
  case cleared =>
    exact header before.1 before.2 (by simp [stage]) (by simp [View.wrote, stage, before.1])
  case writing =>
    rcases before with ⟨draft, held, within⟩ | ⟨draft, held⟩
    · have owns := holds _ held
      have roomy := progress.roomy (.inr ⟨i, draft⟩)
      have commits : view.stage.Commits := by rw [stage]; decide
      have away : ¬ AtHome s (view.log.start + view.logged + 1) := by
        rw [← log]
        exact not_atHome_log (by rw [log]; omega)
      refine coherent.kept_disk knows inner pc owns innerLater (absurd · away) good
        ?_
      have wrote : view.wrote = { view with draft := .none, logged := view.logged + 1 } := by
        simp [View.wrote, stage, draft]
      rw [wrote]
      exact
        { progress with
          synced := fun _ j locked => .inl
            (coherent.synced_of_bwrite knows inner owns (.inl draft) locked)
          copied := fun j draft => by simp at draft
          logged := fun k earlier => by
            rw [diskOf _ owns]
            rcases Nat.lt_succ_iff_lt_or_eq.mp earlier with before | rfl
            · rw [update_of_ne (by simp; omega)]
              exact progress.logged k before
            · rw [update_self]
              exact (progress.copied i draft).2.2
          home := fun written => absurd (progress.home written).1 (by simp [stage])
          bound := within
          roomy := fun _ => roomy
          quiet := fun outer => absurd commits outer }
    · exact header draft held (by simp [stage]) (by simp [View.wrote, stage, draft])
  case installing =>
    obtain ⟨held, within⟩ := before
    have owns := holds _ held
    have commits : view.stage.Commits := by rw [stage]; decide
    have home : AtHome s (view.log.lh.block view.installed) :=
      coherent.accurate.listed _ (by rw [log]; exact LogHeader.block_mem_entries _ within)
    have data := coherent.data_eq_latest knows inner owns home
    refine coherent.kept_disk knows inner pc owns innerLater (fun _ => data) good ?_
    have wrote : view.wrote = { view with home := true } := by simp [View.wrote, stage]
    rw [wrote]
    have same : ∀ c, ¬ AtHome s c → t.disk c = s.disk c := by
      intro c away
      have other : c ≠ view.log.lh.block view.installed := by
        rintro rfl
        exact away home
      rw [diskOf _ owns, update_of_ne other]
    exact
      { progress with
        synced := fun _ j locked => by
          refine (progress.synced inner j locked).imp_left fun synced valid away => ?_
          rw [same _ away]
          exact synced valid away
        logged := fun k earlier => by
          rw [same _ (inLog (Nat.zero_lt_of_lt earlier) k earlier)]
          exact progress.logged k earlier
        home := fun _ => by
          refine ⟨stage, ?_⟩
          rw [diskOf _ owns, update_self]
          exact data }

theorem kept_bunpin (todo : s.todo p = .call (.bunpin i) rest) :
    let t := { s with cache := s.cache.bunpin i, unpinned := s.unpinned + 1 }.setThread p (rest ())
    let later := { view with installed := view.installed + 1, home := false }
    Good s t p later → Kept s t p later := by
  intro t later good
  have pc := knows.runs.pc_ready todo rfl
  obtain ⟨stage, -, within, home⟩ := knows.runs.pre todo
  have inner : view.stage.Inner := by rw [stage]; decide
  have same : SameContents s t := ⟨fun j => by simp [t], rfl, rfl, rfl, rfl, rfl⟩
  have locks : ∀ j, (t.buf j).lock = (s.buf j).lock := fun j => by simp [t]
  have before : pinnedBlocks s = view.log.lh.block view.installed :: pinnedBlocks t := by
    have booted : t.booted = true := (knows.runs.fits_of stage).1
    rw [knows.runs.pinnedBlocks_cons stage within, pinnedBlocks, if_pos booted]
    rfl
  refine coherent.kept_inner knows inner todo good same locks rfl rfl inner (knows.inactive inner)
    id ?_ ?_ (fun _ => id) ?_
  · intro b member absent
    rw [before] at member
    rcases mem_cons.mp member with rfl | old
    · exact (knows.progress.home home).2
    · exact absurd old absent
  · intro b member
    rw [before]
    exact mem_cons_of_mem _ member
  · have progress := knows.progress.congr same fun j => by rw [locks]
    exact
      { progress with
        home := fun written => by simp [later] at written
        fresh := fun early => by simp [later, stage] at early }

theorem kept_commitStart (todo : s.todo p = .call .commitStart rest) :
    let t := (stepLog s (.commitStart p)).setThread p (rest ())
    let later := { view with stage := if view.log.lh.n > 0 then .writing else .cleared }
    Good s t p later → Kept s t p later := by
  intro t later good
  have stage : view.stage = .start := knows.runs.pre todo
  have commits : view.stage.Commits := by rw [stage]; decide
  have log : (Log.next s.log (.commitStart p)).log = s.log.log := by
    simp only [Log.next, Log.commitStart]
    split <;> rfl
  have commitsLater : Stage.Commits (if view.log.lh.n > 0 then .writing else .cleared) := by
    split <;> decide
  refine coherent.kept_stage knows commits todo rfl good commitsLater (sameContents_stepLog s _ _)
    (fun _ => rfl) rfl rfl ?_ ?_ ?_
  · simp only [t, pinnedBlocks, stepLog, State.setThread, log]
  · simp only [t, stepLog, State.setThread, log]
    exact fun _ => id
  · exact
      { knows.progress with
        synced := fun _ => knows.progress.synced commits.1
        home := fun written => absurd (knows.progress.home written).1 (by simp [stage])
        fresh := fun _ => knows.progress.fresh (.inl stage)
        quiet := fun outer => absurd commitsLater outer }

theorem kept_commitHead (todo : s.todo p = .call .commitHead rest) :
    let t := (stepLog s (.commitHead p)).setThread p (rest ())
    let later := { view with stage := .installing }
    Good s t p later → Kept s t p later := by
  intro t later good
  obtain ⟨stage, -, -⟩ := knows.runs.pre todo
  have commits : view.stage.Commits := by rw [stage]; decide
  have commitsLater : Stage.Commits .installing := by decide
  refine coherent.kept_stage knows commits todo rfl good commitsLater (sameContents_stepLog s _ _)
    (fun _ => rfl) rfl rfl rfl (fun _ => id) ?_
  exact
    { knows.progress with
      synced := fun _ => knows.progress.synced commits.1
      home := fun written => ⟨rfl, (knows.progress.home written).2⟩
      fresh := fun early => by simp at early
      quiet := fun outer => absurd commitsLater outer }

theorem kept_commitClear (todo : s.todo p = .call .commitClear rest) :
    let t := { stepLog s (.commitClear p) with unpinned := 0 }.setThread p (rest ())
    let later := .idle .cleared { view.log with lh := { view.log.lh with n := 0 } } 0 0
    Good s t p later → Kept s t p later := by
  intro t later good
  obtain ⟨stage, all, none⟩ := knows.runs.pre todo
  have commits : view.stage.Commits := by rw [stage]; decide
  have log := knows.runs.log commits.1
  have commitsLater : Stage.Commits .cleared := by decide
  have unpinned : s.unpinned = s.log.log.lh.n := by
    rw [knows.runs.unpinned commits, all, log]
  have same : SameContents s t := ⟨fun _ => ⟨rfl, rfl, rfl, rfl⟩, rfl, rfl, rfl, rfl, rfl⟩
  refine coherent.kept_stage knows commits todo rfl good commitsLater same (fun _ => rfl) rfl rfl
    ?_ ?_ ?_
  · simp [t, pinnedBlocks, stepLog, unpinned, Log.next, Log.commitClear, Log.State.move,
      LogHeader.entries]
  · simp [t, stepLog, Log.next, Log.commitClear, Log.State.move, LogHeader.entries]
  · exact progress_idle fun _ j locked => by
      simpa [none] using knows.progress.synced commits.1 j locked

theorem kept_commitDone (todo : s.todo p = .call .commitDone rest) :
    let t := (stepLog s (.commitDone p)).setThread p (rest ())
    Good s t p (.outer .user) → Kept s t p (.outer .user) := by
  intro t good
  obtain ⟨stage, -, none⟩ := knows.runs.pre todo
  have inner : view.stage.Inner := by rw [stage]; decide
  have fits := knows.runs.fits_of stage
  refine coherent.kept_call (.inl fits.1) (fun _ => id) good (sameContents_stepLog s _ _)
    (fun _ => rfl) rfl rfl id ?_ ?_ (good.self.polite_of_user rfl fits.1)
    (progress_outer (by decide))
  · exact fun i _ active => absurd active (knows.inactive inner)
  · exact fun i locked _ => .inl (by simpa [none] using knows.progress.synced inner i locked)

theorem kept_booted (todo : s.todo p = .call .booted rest) :
    let t := { s with booted := true }.setThread p (rest ())
    Good s t p (.outer .user) → Kept s t p (.outer .user) := by
  intro t good
  obtain ⟨stage, empty, none⟩ := knows.runs.pre todo
  have inner : view.stage.Inner := by rw [stage]; decide
  have entries : s.log.log.lh.entries = [] :=
    LogHeader.entries_of_n_eq_zero (by rw [knows.runs.log inner]; exact empty)
  refine coherent.kept_call (active_of_call todo) (fun _ => id) good
    ⟨fun _ => ⟨rfl, rfl, rfl, rfl⟩, rfl, rfl, rfl, rfl, rfl⟩ (fun _ => rfl) ?_ rfl (by simp [t])
    ?_ ?_ (good.self.polite_of_user rfl rfl) (progress_outer (by decide))
  · simp [t, pinnedBlocks, entries]
  · exact fun i _ active => absurd active (knows.inactive inner)
  · exact fun i locked _ => .inl (by simpa [none] using knows.progress.synced inner i locked)

theorem kept_beginOp (todo : s.todo p = .call .beginOp rest) :
    let t := (stepLog (stepLog s (.beginCall p)) (.beginTry p)).setThread p (rest ())
    Good s t p (.outer .user) → Kept s t p (.outer .user) := by
  intro t good
  have stage : view.stage = .calling := knows.runs.pre todo
  obtain ⟨booted, outer⟩ := knows.outer_of_calling stage
  have fits := knows.runs.fits_of stage
  have outside : s.log.phase p = .outside := by
    have ready := fits.2.2
    rw [Ready, todo] at ready
    exact ready
  have lh : (Log.next (Log.next s.log (.beginCall p)) (.beginTry p)).log.lh = s.log.log.lh :=
    Log.lh_beginOp (s.log.move p .starting) p
  have first := sameContents_stepLog (p := p) s (.beginCall p) (rest ())
  have second := sameContents_stepLog (p := p) (stepLog s (.beginCall p)) (.beginTry p) (rest ())
  refine coherent.kept_call (.inl booted) (fun _ => id) good ?_ (fun _ => rfl) ?_ ?_ id ?_ ?_
    (good.self.polite_of_user rfl booted) (progress_outer (by decide))
  · exact ⟨fun _ => ⟨rfl, rfl, rfl, rfl⟩, rfl, rfl, second.start.trans first.start,
      second.size.trans first.size, second.dev.trans first.dev⟩
  · simp only [t, pinnedBlocks, stepLog, State.setThread, lh]
  · simp only [t, stepLog, State.setThread, lh]
  · intro i _ active
    simp [outside, Log.Phase.Active] at active
  · exact fun i _ privileged => absurd privileged outer

theorem kept_endOp {rest : Bool → Thread Unit} (todo : s.todo p = .call .endOp rest)
    {doCommit : Bool}
    (decided : doCommit = decide ((stepLog s (.endOp p)).log.phase p = .committing))
    (after : post .endOp view doCommit later) :
    let t := (stepLog s (.endOp p)).setThread p (rest doCommit)
    Good s t p later → Kept s t p later := by
  intro t good
  have stage : view.stage = .calling := knows.runs.pre todo
  obtain ⟨booted, outer⟩ := knows.outer_of_calling stage
  have pc := knows.runs.pc_ready todo rfl
  have lh : (Log.next s.log (.endOp p)).log.lh = s.log.log.lh := Log.lh_endOp s.log p
  have polite : Polite t p later.stage := by
    cases doCommit with
    | false =>
      obtain rfl : later = .outer .user := after
      exact good.self.polite_of_user rfl booted
    | true =>
      obtain ⟨log, rfl⟩ : ∃ log, later = .idle .start log 0 0 := after
      refine good.self.polite_of_inner (by simp [View.idle, Stage.Inner])
        (by simp [t, stepLog, pc]) ?_
      have phase : (stepLog s (.endOp p)).log.phase p = .committing := by
        simpa using decided.symm
      simp only [t, State.setThread, phase]
      exact id
  refine coherent.kept_call (.inl booted) (fun _ => id) good (sameContents_stepLog s _ _)
    (fun _ => rfl) ?_ ?_ id ?_ ?_ polite ?_
  · simp only [t, pinnedBlocks, stepLog, State.setThread, lh]
  · simp only [t, stepLog, State.setThread, lh]
  · exact fun i locked _ => .inl (knows.polite.ending rest todo i locked)
  · exact fun i _ privileged => absurd privileged outer
  · cases doCommit with
    | false =>
      obtain rfl : later = .outer .user := after
      exact progress_outer (by decide)
    | true =>
      obtain ⟨log, rfl⟩ : ∃ log, later = .idle .start log 0 0 := after
      exact progress_idle fun _ j locked => coherent.accurate.synced_of_outer knows.runs
        (fun inner => inner.2 stage) (coherent.inv.shared.onDev j (by simp [locked])) locked

theorem kept_logWrite (todo : s.todo p = .call (.logWrite i) rest)
    {action : Log.Action Pid} (lh : (Log.next s.log action).log.lh = s.log.log.lh)
    (active : (s.log.phase p).Active → ((Log.next s.log action).phase p).Active)
    (good : Good s (stepLog s action) p view) : Kept s (stepLog s action) p view := by
  have stage : view.stage = .calling := knows.runs.pre todo
  obtain ⟨booted, outer⟩ := knows.outer_of_calling stage
  have pc := knows.runs.pc_ready todo rfl
  obtain ⟨start, size, dev⟩ := Log.geometry_next s.log action
  refine coherent.kept_call (.inl booted) (fun _ => id) good
    ⟨fun _ => ⟨rfl, rfl, rfl, rfl⟩, rfl, rfl, start, size, dev⟩ (fun _ => rfl) ?_ ?_ id ?_ ?_
    (knows.polite_logWrite todo pc action) knows.progress
  · simp only [pinnedBlocks, stepLog, lh]
  · simp only [stepLog, lh]
  · exact fun i _ open_ => .inr (active open_)
  · exact fun i _ privileged => absurd privileged outer

/-- The locked part of `log_write`: the contents of the buffer are now the latest. -/
theorem kept_logLocked (todo : s.todo p = .call (.logWrite i) rest) {logged : Finset Nat}
    (logging : s.log.phase p = .logging (s.buf i).blockno logged)
    (fine : (Log.next s.log (.logLocked p)).fault = none) :
    let t := { s with
      log := Log.next s.log (.logLocked p)
      cache := pinIfNew s i
      latest := update s.latest (s.buf i).blockno (s.buf i).data }.setThread p (rest ())
    Good s t p (.outer .user) → Kept s t p (.outer .user) := by
  intro t good
  have stage : view.stage = .calling := knows.runs.pre todo
  obtain ⟨booted, outer⟩ := knows.outer_of_calling stage
  have pc := knows.runs.pc_ready todo rfl
  have fits := knows.runs.fits_of stage
  have locked := (knows.runs.logging todo).1
  have dev := coherent.inv.shared.onDev i (by simp [locked])
  have home := knows.polite.logging i rest todo
  obtain ⟨start, size, sameDev⟩ := Log.geometry_next s.log (.logLocked p)
  have atHome : ∀ c, AtHome t c ↔ AtHome s c := fun c => AtHome.congr start size
  have active : (s.log.phase p).Active := by rw [logging]; trivial
  have unpinned : s.unpinned = 0 :=
    coherent.inv.shared.calm (coherent.inv.shared.sound.not_committing active)
  have log : t.log = Log.logRecord s.log p (s.buf i).blockno logged :=
    logLocked_records logging fine
  have entries : ∀ c, c ∈ t.log.log.lh.entries ↔
      c = (s.buf i).blockno ∨ c ∈ s.log.log.lh.entries := by
    intro c
    rw [log]
    exact LogHeader.mem_entries_record ..
  have blocks : ∀ c, c ∈ pinnedBlocks t ↔ c = (s.buf i).blockno ∨ c ∈ pinnedBlocks s :=
    mem_pinnedBlocks_record log booted rfl unpinned rfl
  have keys : ∀ j, (t.buf j).lock = (s.buf j).lock ∧ (t.buf j).dev = (s.buf j).dev ∧
      (t.buf j).blockno = (s.buf j).blockno ∧ (t.buf j).valid = (s.buf j).valid :=
    pinIfNew_keys s i
  have data : ∀ j, (t.buf j).data = (s.buf j).data := by
    intro j
    simp only [t, State.setThread, State.buf, pinIfNew]
    split <;> simp
  have others : ∀ j, j ≠ i → (s.buf j).dev = s.log.log.dev →
      t.latest (s.buf j).blockno = s.latest (s.buf j).blockno := by
    intro j different onDev
    refine update_of_ne (fun same => different ?_) _ _
    exact coherent.inv.shared.unique j i _ ⟨onDev, same⟩ ⟨dev, rfl⟩
  have phases : ∀ q, (t.log.phase q).Active ↔ (s.log.phase q).Active := by
    intro q
    rcases eq_or_ne q p with rfl | other
    · rw [log, logging]
      simp [Log.logRecord, Log.State.move, Log.State.record, Log.Phase.Active]
    · exact (good.others q other).active_iff
  have nobody : ∀ q, ¬ Privileged s q := by
    rintro q (⟨booting, -⟩ | commits)
    · simp [booted] at booting
    · exact coherent.inv.shared.sound.not_commits_of_active active q commits
  refine ⟨?_, good.self.polite_of_user rfl booted, progress_outer (by decide), fun q other => ?_⟩
  · exact
      { disk := fun c away absent => by
          rw [atHome] at away
          rw [blocks, not_or] at absent
          refine (coherent.accurate.disk c away absent.2).trans ?_
          exact (update_of_ne absent.1 _ _).symm
        home := fun j onDev => by
          rw [(keys j).2.1, show t.log.log.dev = s.log.log.dev from sameDev] at onDev
          rcases eq_or_ne j i with rfl | different
          · refine .inl fun _ _ => ?_
            rw [data, (keys j).2.2.1]
            exact (update_self (f := s.latest) ..).symm
          · rw [Clean, (keys j).2.2.2, (keys j).2.2.1, data, others j different onDev, atHome,
              (keys j).1]
            refine (coherent.accurate.home j onDev).imp_right ?_
            rintro ⟨q, mine, open_⟩
            exact ⟨q, mine, (phases q).mpr open_⟩
        area := fun j onDev => by
          rw [(keys j).2.1, show t.log.log.dev = s.log.log.dev from sameDev] at onDev
          rw [Synced, (keys j).2.2.2, (keys j).2.2.1, data, atHome]
          rcases coherent.accurate.area j onDev with synced | ⟨q, -, privileged⟩
          · exact .inl synced
          · exact absurd privileged (nobody q)
        pinned := fun j member => by
          rw [(keys j).2.2.2]
          rw [Pinned, (keys j).2.1, (keys j).2.2.1, blocks,
            show t.log.log.dev = s.log.log.dev from sameDev] at member
          obtain ⟨onDev, new | old⟩ := member
          · obtain rfl := coherent.inv.shared.unique j i _ ⟨onDev, new⟩ ⟨dev, rfl⟩
            exact (coherent.accurate.locked j p locked).resolve_right (by simp [pc])
          · exact coherent.accurate.pinned j ⟨onDev, old⟩
        locked := fun j q mine => by
          rw [(keys j).1] at mine
          rw [(keys j).2.2.2]
          exact coherent.accurate.locked j q mine
        listed := fun c member => by
          rw [atHome]
          rcases (entries c).mp member with rfl | old
          · exact home
          · exact coherent.accurate.listed c old
        room := by
          rw [show t.log.log.size = s.log.log.size from size]
          exact coherent.accurate.room }
  · exact
      { start := start
        size := size
        buf := fun j _ => ⟨(keys j).2.2.2, (keys j).2.2.1, data j⟩
        back := fun j mine => (keys j).1.symm.trans mine
        latest := fun j theirs => by
          refine others j ?_ (coherent.inv.shared.onDev j (by simp [theirs]))
          rintro rfl
          exact other (Option.mem_unique theirs locked)
        booting := id
        quiet := fun privileged => absurd privileged (nobody q) }

end

/-- The step of a thread in operation `op` keeps the contents coherent. -/
def StepKept (s : State Pid) (p : Pid) (view : View) (op : Op) (rest : op.Res → Thread Unit) : Prop :=
  ∀ later, Follows view (advance s p op).2 later → Good s (resume p rest (advance s p op)) p later →
    Kept s (resume p rest (advance s p op)) p later

section

variable (coherent : Coherent first s) (knows : Knows s p view)
include coherent knows

theorem stepKept_bread (todo : s.todo p = .call (.bread b) rest)
    (free : ¬ Blocked s p (.bread b)) : StepKept s p view (.bread b) rest := by
  intro later follows good
  rcases knows.runs.doing.bread todo with pc | ⟨i, pc, caches⟩ | ⟨i, pc, caches, locked⟩
  · simp only [advance, stepBread, pc] at follows good ⊢
    cases found : s.cache.bget s.log.log.dev b with
    | none =>
      rw [found] at follows good
      obtain rfl : later = view := follows
      exact coherent.kept_panic knows todo _ good
    | some got =>
      rw [found] at follows good
      obtain rfl : later = view := follows
      exact coherent.kept_bget knows todo pc found good
  · simp only [advance, stepBread, pc] at follows good ⊢
    obtain rfl : later = view := follows
    refine coherent.kept_acquiresleep knows todo pc caches ?_ good
    by_contra locked
    exact free ⟨i, pc, locked⟩
  · simp only [advance, stepBread, pc] at follows good ⊢
    obtain ⟨rfl, -⟩ : later = view.take i b ∧ _ := follows
    exact coherent.kept_fill knows todo pc caches locked good

variable {rest : Unit → Thread Unit}

theorem stepKept_brelse (todo : s.todo p = .call (.brelse i) rest) :
    StepKept s p view (.brelse i) rest := by
  intro later follows good
  rcases knows.runs.doing.brelse todo with pc | pc
  · simp only [advance, stepBrelse, pc] at follows good ⊢
    split at good
    · rename_i locked
      rw [if_pos locked] at follows ⊢
      obtain rfl : later = view := follows
      exact coherent.kept_releasesleep knows todo pc locked good
    · rename_i locked
      rw [if_neg locked] at follows ⊢
      obtain rfl : later = view := follows
      exact coherent.kept_panic knows todo _ good
  · simp only [advance, stepBrelse, pc] at follows good ⊢
    obtain rfl : later = view.release i := follows
    exact coherent.kept_put knows todo pc good

theorem stepKept_logWrite (running : s.log.fault = none)
    (todo : s.todo p = .call (.logWrite i) rest) : StepKept s p view (.logWrite i) rest := by
  intro later follows good
  obtain ⟨-, logged, inside | logging⟩ := knows.runs.logging todo
  · simp only [advance, stepLogWrite, inside] at follows good ⊢
    obtain rfl : later = view := follows
    refine coherent.kept_logWrite knows todo ?_ (fun _ => ?_) good
    · simp only [Log.next, inside, Log.logWriteChecks]
      split
      · rfl
      · split <;> rfl
    · simp only [Log.next, inside, Log.logWriteChecks]
      split
      · simp [Log.State.fail, inside, Log.Phase.Active]
      · split <;> simp [Log.State.fail, Log.State.move, inside, Log.Phase.Active]
  · simp only [advance, stepLogWrite, logging] at follows good ⊢
    split at good
    · rename_i fine
      rw [if_pos fine] at follows ⊢
      obtain rfl : later = .outer .user := follows
      exact coherent.kept_logLocked knows todo logging fine good
    · rename_i fault
      rw [if_neg fault] at follows ⊢
      obtain rfl : later = view := follows
      have failed := logLocked_fails running logging fault
      refine coherent.kept_logWrite knows todo ?_ ?_ good
      · rw [failed]
        rfl
      · rw [failed]
        exact id

theorem stepKept_resetHeader (todo : s.todo p = .call .resetHeader rest) :
    StepKept s p view .resetHeader rest := by
  intro later follows good
  obtain ⟨stage, -⟩ := knows.runs.pre todo
  have inner : view.stage.Inner := by rw [stage]; decide
  obtain rfl : later = { view with stage := .wiping } := follows
  simp only [advance, resume, coherent.inv.shared.resetHeader_eq knows.runs todo] at good ⊢
  refine coherent.kept_read knows inner todo rfl good (show Stage.Inner .wiping by decide) ?_
  have early : ¬ view.stage.Commits := fun commits => commits.2.1 stage
  exact
    { knows.progress with
      synced := fun _ => knows.progress.synced inner
      home := fun written => absurd (knows.progress.home written).1 (by simp [stage])
      fresh := fun wrong => by simp at wrong
      quiet := fun _ => knows.progress.quiet early }

end

theorem kept_step (coherent : Coherent first s) (small : Fintype.card Pid ≤ nproc)
    (knows : Knows s p view) (running : s.log.fault = none) {op : Op} {rest : op.Res → Thread Unit}
    (todo : s.todo p = .call op rest) (free : ¬ Blocked s p op) :
    ∃ later, Good s (resume p rest (advance s p op)) p later ∧
      Kept s (resume p rest (advance s p op)) p later := by
  obtain ⟨later, follows, good⟩ :=
    good_step coherent.inv.shared small knows.runs running todo free
  refine ⟨later, good, ?_⟩
  cases op with
  | bread b => exact coherent.stepKept_bread knows todo free later follows good
  | brelse i => exact coherent.stepKept_brelse knows todo later follows good
  | bwrite i =>
    have locked := (good_bwrite coherent.inv.shared knows.runs todo).1
    simp only [advance, stepBwrite, locked, if_true] at follows good ⊢
    obtain rfl : later = view.wrote := follows
    exact coherent.kept_bwrite knows todo good
  | bunpin i =>
    obtain rfl : later = { view with installed := view.installed + 1, home := false } := follows
    exact coherent.kept_bunpin knows todo good
  | memmove dst src =>
    obtain rfl : later = view.copied dst := follows
    exact coherent.kept_memmove knows todo good
  | logWrite i => exact coherent.stepKept_logWrite knows running todo later follows good
  | beginOp =>
    obtain rfl : later = .outer .user := follows
    exact coherent.kept_beginOp knows todo good
  | endOp => exact coherent.kept_endOp knows todo rfl follows good
  | getLog =>
    have inner : view.stage.Inner := knows.runs.pre todo
    obtain ⟨rfl, -⟩ : later = view ∧ view.log = s.log.log := follows
    exact coherent.kept_read knows inner todo rfl good inner knows.progress
  | readHeader i =>
    obtain ⟨stage, -⟩ := knows.runs.pre todo
    have inner : view.stage.Inner := by rw [stage]; decide
    obtain rfl : later = view := follows
    simp only [advance, resume, knows.runs.readHeader_eq todo] at good ⊢
    exact coherent.kept_read knows inner todo rfl good inner knows.progress
  | writeHeader i =>
    obtain rfl : later = { view with draft := .headBlock i } := follows
    exact coherent.kept_writeHeader knows todo good
  | resetHeader => exact coherent.stepKept_resetHeader knows todo later follows good
  | booted =>
    obtain rfl : later = .outer .user := follows
    exact coherent.kept_booted knows todo good
  | commitStart =>
    obtain rfl : later = { view with
      stage := if view.log.lh.n > 0 then .writing else .cleared } := follows
    exact coherent.kept_commitStart knows todo good
  | commitHead =>
    obtain rfl : later = { view with stage := .installing } := follows
    exact coherent.kept_commitHead knows todo good
  | commitClear =>
    obtain rfl : later =
      .idle .cleared { view.log with lh := { view.log.lh with n := 0 } } 0 0 := follows
    exact coherent.kept_commitClear knows todo good
  | commitDone =>
    obtain rfl : later = .outer .user := follows
    exact coherent.kept_commitDone knows todo good

end Coherent

variable [DecidableEq Pid]

/-- A buffer is changed only inside an operation, and logged before it is given back and before the
operation ends. -/
def Disciplined (s : State Pid) : Action Pid → Prop
  | .call p (.brelse i) => (s.buf i).lock = some p → Clean s i
  | .call p .endOp => ∀ i, (s.buf i).lock = some p → Clean s i
  | .call _ (.logWrite i) => AtHome s (s.buf i).blockno
  | .call _ _ => True
  | .modify p i _ => (s.log.phase p).Active ∧ AtHome s (s.buf i).blockno
  | .step _ => True

theorem Coherent.kept_newCall (coherent : Coherent first s) (knows : Knows s p view)
    (booted : s.booted = true) (done : (s.todo p).Done) {request : Call}
    (disciplined : Disciplined s (.call p request))
    (good : Good s (s.setThread p request.thread) p (.outer .calling)) :
    Kept s (s.setThread p request.thread) p (.outer .calling) := by
  obtain ⟨stage, pc⟩ := knows.runs.user done
  have outer : ¬ Privileged s p := by
    rw [knows.runs.privileged_iff, stage]
    decide
  have todo : (s.setThread p request.thread).todo p = request.thread := by
    simp
  have same : SameContents s (s.setThread p request.thread) :=
    ⟨fun _ => ⟨rfl, rfl, rfl, rfl⟩, rfl, rfl, rfl, rfl, rfl⟩
  refine coherent.kept_call (.inl booted) (fun _ => id) good same (fun _ => rfl) rfl rfl id
    (fun _ _ active => .inr active) (fun _ _ privileged => absurd privileged outer) ?_
    (progress_outer (by decide))
  exact
    { taking := fun j filling => by simp [pc] at filling
      releasing := fun _ j rest todo' mine => by
        rw [todo] at todo'
        cases request with
        | brelse k =>
          have equal := (Prog.call.inj todo').1
          obtain rfl : k = j := by simpa using equal
          exact (same.clean_iff k).mpr (disciplined mine)
        | _ => cases todo'
      ending := fun rest todo' j mine => by
        rw [todo] at todo'
        cases request with
        | endOp => exact (same.clean_iff j).mpr (disciplined j mine)
        | _ => cases todo'
      logging := fun j rest todo' => by
        rw [todo] at todo'
        cases request with
        | logWrite k =>
          have equal := (Prog.call.inj todo').1
          obtain rfl : k = j := by simpa using equal
          exact disciplined
        | _ => cases todo'
      inactive := fun booting => by simp [booted] at booting }

/-- Every action of the discipline keeps the contents coherent. -/
theorem Coherent.step (coherent : Coherent first s) (small : Fintype.card Pid ≤ nproc)
    {action : Action Pid} (enabled : Enabled s action) (disciplined : Disciplined s action) :
    Coherent first (next s action) := by
  obtain ⟨-, running, there⟩ := enabled
  cases action with
  | call p request =>
    obtain ⟨booted, done, allowed⟩ := there
    obtain ⟨view, knows⟩ := coherent.knows p
    have good := good_call coherent.inv.shared knows.runs booted done allowed
    exact coherent.of_kept good (coherent.kept_newCall knows booted done disciplined good)
      (.inl booted) id
  | modify p i data =>
    obtain ⟨booted, done, locked⟩ := there
    obtain ⟨view, knows⟩ := coherent.knows p
    have good := good_modify coherent.inv.shared knows.runs done i data
    exact coherent.of_kept good
      (coherent.kept_modify knows booted done locked disciplined.1 disciplined.2 good)
      (.inl booted) id
  | step p =>
    obtain ⟨op, rest, todo, free⟩ := there
    obtain ⟨view, knows⟩ := coherent.knows p
    obtain ⟨later, good, kept⟩ := coherent.kept_step small knows running todo free
    simp only [next, todo]
    exact coherent.of_kept good kept (active_of_call todo) fun booted => booted_resume booted

end Coherence

end OsLab.Bio
