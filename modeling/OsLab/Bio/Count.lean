import OsLab.Bio.Steps

/-!
# Reference counts

The reference count of a buffer is the number of handles on it, plus one while the log pins it.
This holds in every run that starts with an empty log on the disk, and in no other: recovery
shares `install_trans` with `commit` and drops pins that were never taken.
-/

namespace OsLab.Bio

open Function

variable {Pid : Type*} [Fintype Pid] [DecidableEq Pid] {p : Pid} {start s t : State Pid} {b : Nat}
  {first : Pid} {i : Fin nbuf}

attribute [local simp] State.setThread State.buf

section

omit [Fintype Pid]

section

variable (boot : Boot p start)
include boot

theorem Boot.ready : Log.Ready start.log where
  outstanding := boot.outstanding
  committing := boot.committing
  empty := by rw [boot.header]; rfl
  outside := boot.outside
  history := boot.history
  fault := boot.fault

theorem Boot.doing (q : Pid) : Doing start q := by
  rw [Doing, boot.pc q]
  trivial

theorem Boot.not_commits (q : Pid) : ¬ (start.log.phase q).Commits := by
  simp [boot.outside q, Log.Phase.Commits]

/-- The first process is about to find an empty log. -/
theorem Boot.runs_first (empty : (Log.onDisk start.log.log.start start.disk).n = 0) :
    Runs start p (.idle .boot start.log.log 0 0) where
  meets := by
    rw [boot.todo, update_self]
    exact meets_initlog (by rw [boot.header]; rfl) boot.committing
  doing := boot.doing p
  fits := ⟨boot.booted, boot.not_commits p, ⟨fun i dev => boot.clean i (dev.trans boot.dev), empty⟩⟩
  log _ := rfl
  held := by simp [View.idle]
  taking := by simp [View.idle]
  unpinned commits := absurd rfl commits.2.1

theorem Boot.runs_other {q : Pid} (other : q ≠ p) : Runs start q (.outer .user) where
  meets := by
    rw [boot.todo, update_of_ne other]
    rfl
  doing := boot.doing q
  fits := boot.not_commits q
  log inner := absurd rfl inner.1
  held inner := absurd rfl inner.1
  taking inner := absurd rfl inner.1
  unpinned commits := absurd rfl commits.1.1

end

end

theorem Boot.inv (boot : Boot p start) (empty : (Log.onDisk start.log.log.start start.disk).n = 0) :
    Inv p start := by
  have blocks : pinnedBlocks start = [] := by simp [pinnedBlocks, boot.booted]
  exact
    { shared :=
        { sound := boot.ready.sound
          conserved := fun i => by
            have handles : handles start i = 0 := by
              simp [handles, boot.pc, Pc.uses, holders, boot.unlocked i]
            have pins : pins start i = 0 := by simp [pins, Pinned, blocks]
            rw [handles, pins, boot.unused i]
            rfl
          unique := fun i j b first second =>
            boot.unique i j (first.1.trans boot.dev) (second.1.trans boot.dev)
              (first.2.trans second.2.symm)
          present := by simp [blocks]
          listed := boot.listed
          onDev := fun i locked => absurd (boot.unlocked i) locked
          calm := fun _ => boot.unpinned }
      runs := fun q => by
        rcases eq_or_ne q p with rfl | other
        · exact ⟨_, boot.runs_first empty⟩
        · exact ⟨_, boot.runs_other other⟩
      alone := fun _ q other => by
        rw [boot.todo, update_of_ne other]
        trivial }

/-- The invariant holds in every run from a boot with an empty log. -/
theorem Inv.of_run (small : Fintype.card Pid ≤ nproc) (boot : Boot p start)
    (empty : (Log.onDisk start.log.log.start start.disk).n = 0)
    (run : (bioSystem Pid).Reaches start s) : Inv p s :=
  run.invariant (fun _ _ inv enabled => inv.step small enabled) (boot.inv empty)

omit [DecidableEq Pid] in
/-- Once the boot is over and while nobody commits, the pinned blocks are those of the header. -/
theorem Inv.pinnedBlocks_eq (inv : Inv first s) (booted : s.booted = true)
    (free : s.log.log.committing = false) : pinnedBlocks s = s.log.log.lh.entries := by
  have calm := inv.shared.calm free
  simp [pinnedBlocks, booted, calm]

omit [Fintype Pid] in
theorem lru_next (perm : s.cache.lru.Perm (List.finRange nbuf)) (action : Action Pid) :
    (next s action).cache.lru.Perm (List.finRange nbuf) := by
  cases action with
  | step p =>
    rw [next]
    split
    · exact perm
    rename_i op rest todo
    cases op with
    | bread b =>
      simp only [advance, stepBread]
      split
      · exact perm
      · exact perm
      · cases got : s.cache.bget s.log.log.dev b with
        | none => exact perm
        | some found =>
          obtain ⟨i, after⟩ := found
          rcases Bcache.bget_eq_some got with ⟨-, rfl⟩ | ⟨-, -, rfl⟩ <;> exact perm
    | brelse i =>
      simp only [advance, stepBrelse, Bcache.put]
      repeat' split
      case isTrue =>
        exact (List.perm_cons_erase (perm.mem_iff.mpr (List.mem_finRange i))).symm.trans perm
      all_goals exact perm
    | bwrite i =>
      simp only [advance, stepBwrite]
      split <;> exact perm
    | logWrite i =>
      simp only [advance, stepLogWrite]
      repeat' split
      all_goals exact perm
    | _ => exact perm
  | _ => exact perm

/-- In every run from a boot with an empty log the list holds each buffer once, no block has two
buffers, and a pinned block has one. -/
theorem cache_consistent (small : Fintype.card Pid ≤ nproc) (boot : Boot p start)
    (empty : (Log.onDisk start.log.log.start start.disk).n = 0)
    (fresh : start.cache.lru.Perm (List.finRange nbuf)) (run : (bioSystem Pid).Reaches start s) :
    s.cache.lru.Perm (List.finRange nbuf) ∧ (∀ i j b, Caches s i b → Caches s j b → i = j) ∧
      ∀ b ∈ pinnedBlocks s, ∃ i, Caches s i b := by
  have shared := (Inv.of_run small boot empty run).shared
  have listed := run.invariant (P := fun s => s.cache.lru.Perm (List.finRange nbuf))
    (fun _ action perm _ => lru_next perm action) fresh
  exact ⟨listed, shared.unique, shared.present⟩

/-- A process runs on by itself. -/
def steps (p : Pid) (count : Nat) : List (Action Pid) := List.replicate count (.step p)

/-- The buffer that is taken first after the boot. -/
def second : Fin nbuf := ⟨1, by decide⟩

/-- Process 0 logs block 40 and then reads as many blocks as there are other buffers. -/
def evicting : List (Action (Fin 2)) :=
  List.flatten [steps 0 18, [.call 0 .beginOp, .step 0, .call 0 (.bread 40)], steps 0 3,
      [.call 0 (.logWrite second)], steps 0 2, [.call 0 (.brelse second)], steps 0 2,
      (List.range 29).flatMap fun k => .call 0 (.bread (100 + k)) :: steps 0 3]

def evicted : State (Fin 2) :=
  evicting.foldl (bioSystem (Fin 2)).next (bootState 0 2 logSize fun _ _ => 0)

/-- The last of these reads takes the buffer of the log header; block 40 keeps its own. -/
theorem cache_consistent_evicted :
    (∀ i, (evicted.buf i).blockno ≠ 2) ∧ (∃ i, Caches evicted i 40) ∧
      (∀ i j b, Caches evicted i b → Caches evicted j b → i = j) ∧
      evicted.cache.lru.Perm (List.finRange nbuf) := by
  have run : (bioSystem (Fin 2)).Reaches (bootState 0 2 logSize fun _ _ => 0) evicted :=
    System.Schedules.reaches (by decide +kernel)
  obtain ⟨listed, unique, present⟩ := cache_consistent (by decide) (bootState_boot ..)
    (by decide) (List.reverse_perm _) run
  exact ⟨by decide +kernel, present 40 (by decide +kernel), unique, listed⟩

/-! Only the first process runs during the boot, so its thread can be followed step by step. -/

omit [Fintype Pid] in
theorem reaches_step {op : Op} {rest : op.Res → Thread Unit} (running : s.panic = none)
    (sane : s.log.fault = none) (todo : s.todo p = .call op rest) (free : ¬ Blocked s p op) :
    (bioSystem Pid).Reaches s (resume p rest (advance s p op)) := by
  have stays : (bioSystem Pid).Reaches s s := .refl s
  have step := stays.snoc (.step p) ⟨running, sane, op, rest, todo, free⟩
  simpa only [bioSystem, next, todo] using step

/-- The first process has locked the buffers of a set and everything else is as after a boot. -/
structure Solo (p : Pid) (mine : Finset (Fin nbuf)) (s : State Pid) : Prop where
  panic : s.panic = none
  fault : s.log.fault = none
  booted : s.booted = false
  pc : s.pc p = .ready
  listed : ∀ i, i ∈ s.cache.lru
  lock : ∀ i, (s.buf i).lock = if i ∈ mine then some p else none
  refcnt : ∀ i, (s.buf i).refcnt = if i ∈ mine then 1 else 0
  clean : ∀ i, (s.buf i).dev = s.log.log.dev → (s.buf i).valid = true →
    (s.buf i).data = s.disk (s.buf i).blockno

variable {mine : Finset (Fin nbuf)}

omit [Fintype Pid] [DecidableEq Pid] in
/-- A thread that is alone finds or recycles a buffer that it has not locked. -/
theorem Solo.bget (solo : Solo p mine s) (room : mine.card < nbuf)
    (fresh : ∀ i ∈ mine, ¬ Caches s i b) :
    ∃ i cache, s.cache.bget s.log.log.dev b = some (i, cache) ∧ i ∉ mine ∧
      cache.lru = s.cache.lru ∧ (∀ j, j ≠ i → cache.buf j = s.buf j) ∧
      (cache.buf i).dev = s.log.log.dev ∧ (cache.buf i).blockno = b ∧
      (cache.buf i).refcnt = 1 ∧ (cache.buf i).lock = none ∧
      ((cache.buf i).valid = true → (cache.buf i).data = s.disk b) := by
  cases found : s.cache.find s.log.log.dev b with
  | some i =>
    have caches : Caches s i b := Bcache.find_eq_some found
    have other : i ∉ mine := fun mem => fresh i mem caches
    have lock := solo.lock i
    have refcnt := solo.refcnt i
    have clean := solo.clean i caches.1
    rw [if_neg other] at lock refcnt
    refine ⟨i, s.cache.bpin i, by simp [Bcache.bget, found], other, rfl, ?_, ?_⟩
    · intro j different
      exact Bcache.modify_buf_ne different
    · refine ⟨by simpa using caches.1, by simpa using caches.2, ?_, by simpa using lock, ?_⟩
      · rw [Bcache.bpin_refcnt_same, refcnt]
        rfl
      · intro valid
        rw [Bcache.bpin_data, clean (by simpa using valid), caches.2]
  | none =>
    obtain ⟨i, -, other⟩ : ∃ i ∈ Finset.univ, i ∉ mine := by
      apply Finset.exists_mem_notMem_of_card_lt_card
      simpa using room
    cases unused : s.cache.unused with
    | none =>
      have used := List.find?_eq_none.mp unused i (by simpa using solo.listed i)
      have refcnt := solo.refcnt i
      rw [if_neg other] at refcnt
      simp [refcnt] at used
    | some j =>
      have zero := Bcache.unused_eq_some unused
      have other : j ∉ mine := by
        intro mem
        have one := solo.refcnt j
        rw [if_pos mem, State.buf, zero] at one
        exact absurd one (by decide)
      have lock := solo.lock j
      rw [if_neg other] at lock
      refine ⟨j, s.cache.recycle j s.log.log.dev b, by simp [Bcache.bget, found, unused],
        other, rfl, ?_, ?_⟩
      · intro k different
        exact Bcache.modify_buf_ne different
      · simp [Bcache.recycle, lock]

section

omit [Fintype Pid]

theorem Solo.bread (solo : Solo p mine s) {rest : Fin nbuf → Thread Unit}
    (todo : s.todo p = .call (.bread b) rest) (room : mine.card < nbuf)
    (fresh : ∀ i ∈ mine, ¬ Caches s i b) :
    ∃ i t, (bioSystem Pid).Reaches s t ∧ i ∉ mine ∧ Solo p (insert i mine) t ∧ Caches t i b ∧
      (t.buf i).valid = true ∧ (∀ j ∈ mine, t.buf j = s.buf j) ∧ t.todo p = rest i ∧
      t.log = s.log ∧ t.disk = s.disk := by
  obtain ⟨i, cache, got, new, lru, others, dev, blockno, refcnt, lock, clean⟩ :=
    solo.bget room fresh
  have taken := reaches_step solo.panic solo.fault todo (by simp [Blocked, solo.pc])
  have locked := reaches_step (p := p) (s := { s with cache := cache }.goto p (.locking i))
    solo.panic solo.fault todo (by simp [Blocked, State.goto, lock])
  have filled := reaches_step (p := p)
    (s := { s with cache := cache.acquiresleep i p, pc := update s.pc p (.filling i) })
    solo.panic solo.fault todo (by simp [Blocked])
  simp only [advance, stepBread, solo.pc, got, resume] at taken
  simp only [advance, stepBread, State.goto, update_self, resume, update_idem] at locked
  simp only [advance, stepBread, State.goto, update_self, resume, update_idem] at filled
  refine ⟨i, _, (taken.trans locked).trans filled, new, ?_, ?_⟩
  · exact
      { panic := solo.panic
        fault := solo.fault
        booted := solo.booted
        pc := by simp
        listed := fun j => by
          change j ∈ cache.lru
          rw [lru]
          exact solo.listed j
        lock := fun j => by
          rcases eq_or_ne j i with rfl | other
          · simp
          · simp [other, others j other, solo.lock j]
        refcnt := fun j => by
          rcases eq_or_ne j i with rfl | other
          · simp [refcnt]
          · simp [others j other, solo.refcnt j, other]
        clean := fun j => by
          rcases eq_or_ne j i with rfl | other
          · intro _ _
            by_cases valid : (cache.buf j).valid = true
            · simpa [Bcache.fill, Bcache.acquiresleep, valid, blockno] using clean valid
            · simp [Bcache.fill, Bcache.acquiresleep, valid]
          · simpa [Bcache.fill, Bcache.acquiresleep, other, others j other] using solo.clean j }
  · refine ⟨⟨by simpa using dev, by simpa using blockno⟩,
      Bcache.fill_valid (.inl rfl), ?_, by simp, rfl, rfl⟩
    intro j mem
    have other : j ≠ i := fun same => new (same ▸ mem)
    simp [Bcache.fill, Bcache.acquiresleep, other, others j other]

variable {rest : Unit → Thread Unit}

theorem Solo.brelse (solo : Solo p (insert i mine) s) (new : i ∉ mine)
    (todo : s.todo p = .call (.brelse i) rest) :
    ∃ t, (bioSystem Pid).Reaches s t ∧ Solo p mine t ∧ t.todo p = rest () ∧
      t.log = s.log ∧ t.disk = s.disk := by
  have lock : (s.buf i).lock = some p := by simpa using solo.lock i
  have one : (s.buf i).refcnt = 1 := by simpa using solo.refcnt i
  have unlocked := reaches_step solo.panic solo.fault todo (by simp [Blocked])
  have put := reaches_step (p := p) (s := { s with
      cache := s.cache.releasesleep i, pc := update s.pc p (.dropping i) })
    solo.panic solo.fault todo (by simp [Blocked])
  simp only [advance, stepBrelse, solo.pc, lock, if_true, resume] at unlocked
  simp only [advance, stepBrelse, State.goto, update_self, resume, update_idem] at put
  refine ⟨_, unlocked.trans put, ?_, by simp, rfl, rfl⟩
  exact
    { panic := solo.panic
      fault := solo.fault
      booted := solo.booted
      pc := by simp
      listed := fun j => Bcache.mem_put_lru (solo.listed j)
      lock := fun j => by
        have before := solo.lock j
        rcases eq_or_ne j i with rfl | other
        · simp [Bcache.put_buf, new]
        · simpa [Bcache.put_buf, other] using before
      refcnt := fun j => by
        have before := solo.refcnt j
        rcases eq_or_ne j i with rfl | other
        · simp [Bcache.put_buf, new, one]
        · simpa [Bcache.put_buf, other] using before
      clean := fun j => by
        simpa [Bcache.put_buf] using solo.clean j }

theorem Solo.getLog (solo : Solo p mine s) {rest : Log → Thread Unit}
    (todo : s.todo p = .call .getLog rest) :
    ∃ t, (bioSystem Pid).Reaches s t ∧ Solo p mine t ∧ t.todo p = rest s.log.log ∧
      t.log = s.log ∧ t.disk = s.disk :=
  ⟨_, reaches_step solo.panic solo.fault todo (by simp [Blocked]), { solo with },
    update_self .., rfl, rfl⟩

theorem Solo.readHeader (solo : Solo p mine s) (todo : s.todo p = .call (.readHeader i) rest)
    (caches : Caches s i b) (valid : (s.buf i).valid = true) :
    ∃ t, (bioSystem Pid).Reaches s t ∧ Solo p mine t ∧ t.todo p = rest () ∧
      t.log.log = { s.log.log with lh := s.log.log.lh.load (s.disk b) } ∧ t.disk = s.disk := by
  refine ⟨_, reaches_step solo.panic solo.fault todo (by simp [Blocked]), { solo with },
    update_self .., ?_, rfl⟩
  rw [← caches.2, ← solo.clean i caches.1 valid]
  rfl

theorem Boot.solo (boot : Boot p start) : Solo p ∅ start where
  panic := boot.panic
  fault := boot.fault
  booted := boot.booted
  pc := boot.pc p
  listed := boot.listed
  lock i := by simp [boot.unlocked i]
  refcnt i := by simp [boot.unused i]
  clean i dev := boot.clean i (dev.trans boot.dev)

end

/-- What `recover_from_log` has left to do after `read_head`. -/
def recovering : Thread Unit := do
  (do
    installTrans
    .call .resetHeader .ret
    writeHead)
  .call .booted .ret

omit [Fintype Pid] in
theorem Boot.readHead (boot : Boot p start) :
    ∃ t, (bioSystem Pid).Reaches start t ∧ Solo p ∅ t ∧ t.todo p = recovering ∧
      t.log.log = { start.log.log with lh := Log.onDisk start.log.log.start start.disk } ∧
      t.disk = start.disk := by
  have todo : start.todo p = initlog := by rw [boot.todo, update_self]
  obtain ⟨t₁, run₁, solo, todo, log₁, disk₁⟩ := boot.solo.getLog todo
  obtain ⟨i, t₂, run₂, new, solo, caches, valid, -, todo, log₂, disk₂⟩ :=
    solo.bread todo (by decide) (by simp)
  obtain ⟨t₃, run₃, solo, todo, log₃, disk₃⟩ := solo.readHeader todo caches valid
  obtain ⟨t₄, run₄, solo, todo, log₄, disk₄⟩ := solo.brelse new todo
  refine ⟨t₄, ((run₁.trans run₂).trans run₃).trans run₄, solo, todo, ?_, ?_⟩
  · rw [log₄, log₃, log₂, log₁, disk₂, disk₁, boot.header]
    rfl
  · rw [disk₄, disk₃, disk₂, disk₁]

/-- One round of `install_trans`. -/
def installRound (log : Log) (tail : Nat) : Thread Unit := do
  let lbuf ← Bio.bread (log.start + tail + 1)
  let dbuf ← Bio.bread (log.lh.block tail)
  memmove dbuf lbuf
  bwrite dbuf
  Bio.bunpin dbuf
  Bio.brelse lbuf
  Bio.brelse dbuf

theorem installRound_first (log : Log) {count : Nat} (lists : log.lh.n = count + 1)
    (clear finish : Unit → Thread Unit) :
    ∃ rest : Fin nbuf → Fin nbuf → Unit → Thread Unit,
      ((Prog.forRange log.lh.n (installRound log)).bind clear).bind finish =
        .call (.bread (log.start + 1)) fun lbuf => .call (.bread (log.lh.block 0)) fun dbuf =>
          .call (.memmove dbuf lbuf) fun _ => .call (.bwrite dbuf) fun _ =>
            .call (.bunpin dbuf) (rest lbuf dbuf) := by
  rw [lists, Prog.forRange_succ]
  exact ⟨_, rfl⟩

omit [Fintype Pid] in
/-- A thread copies to a buffer that it has locked, writes it and unpins it. -/
theorem reaches_bunpin {dbuf lbuf : Fin nbuf} {rest : Unit → Thread Unit} (running : s.panic = none)
    (sane : s.log.fault = none)
    (todo : s.todo p = .call (.memmove dbuf lbuf) fun _ => .call (.bwrite dbuf) fun _ =>
      .call (.bunpin dbuf) rest) (lock : (s.buf dbuf).lock = some p) :
    ∃ t, (bioSystem Pid).Reaches s t ∧ (t.buf dbuf).lock = some p ∧
      (t.buf dbuf).refcnt = (s.buf dbuf).refcnt - 1 := by
  let copied := { s with cache := s.cache.write dbuf (s.buf lbuf).data }.setThread p
    (.call (.bwrite dbuf) fun _ => .call (.bunpin dbuf) rest)
  let written := { copied with
    disk := update copied.disk (copied.buf dbuf).blockno (copied.buf dbuf).data }.setThread
    p (.call (.bunpin dbuf) rest)
  have copy : (bioSystem Pid).Reaches s copied :=
    reaches_step running sane todo (by simp [Blocked])
  have holds : (copied.buf dbuf).lock = some p := by
    simpa [copied] using lock
  have write : (bioSystem Pid).Reaches copied written := by
    have step := reaches_step (s := copied) (p := p) running sane (update_self ..)
      (by simp [Blocked])
    simpa only [advance, stepBwrite, holds, if_true, resume] using step
  have last : written.todo p = .call (.bunpin dbuf) rest := update_self ..
  have unpin := reaches_step (s := written) running sane last (by simp [Blocked])
  refine ⟨_, (copy.trans write).trans unpin, ?_, ?_⟩
  · simpa [advance, resume, written] using holds
  · simp [advance, resume, written, copied]

omit [Fintype Pid] in
/-- Recovery of a header with a block unpins a buffer that nobody has pinned. -/
theorem Boot.miscounts (boot : Boot p start)
    (listed : (Log.onDisk start.log.log.start start.disk).n ≠ 0)
    (home : (Log.onDisk start.log.log.start start.disk).block 0 ≠ start.log.log.start + 1) :
    ∃ s i, (bioSystem Pid).Reaches start s ∧ (s.buf i).lock = some p ∧ (s.buf i).refcnt = 0 := by
  obtain ⟨t₁, run₁, solo, todo, log₁, -⟩ := boot.readHead
  obtain ⟨t₂, run₂, solo, todo, -, -⟩ := solo.getLog todo
  obtain ⟨count, lists⟩ := Nat.exists_eq_succ_of_ne_zero listed
  rw [log₁] at todo
  obtain ⟨rest, round⟩ := installRound_first
    { start.log.log with lh := Log.onDisk start.log.log.start start.disk } lists _ _
  replace todo := todo.trans round
  obtain ⟨lbuf, t₃, run₃, new, solo, logged, -, -, todo, -, -⟩ :=
    solo.bread todo (by decide) (by simp)
  obtain ⟨dbuf, t₄, run₄, other, solo, -, -, -, todo, -, -⟩ := by
    refine solo.bread todo ((Finset.card_insert_le _ _).trans_lt (by decide)) ?_
    intro i mem caches
    obtain rfl : i = lbuf := by simpa using mem
    exact home (caches.2.symm.trans logged.2)
  have lock : (t₄.buf dbuf).lock = some p := by simpa using solo.lock dbuf
  have one : (t₄.buf dbuf).refcnt = 1 := by simpa using solo.refcnt dbuf
  obtain ⟨t₅, run₅, lock, zero⟩ := reaches_bunpin solo.panic solo.fault todo lock
  refine ⟨t₅, dbuf, (((run₁.trans run₂).trans run₃).trans run₄).trans run₅, lock, ?_⟩
  rw [zero, one]
  rfl

/-- Every reference count is right, so `bget` recycles only buffers that nobody holds and that are
not pinned; while nobody commits, the pinned blocks are those of the header. -/
structure Counted (s : State Pid) : Prop where
  conserved : Conserved s
  recycled : ∀ i, (s.buf i).refcnt = 0 → handles s i = 0 ∧ ¬ Pinned s i
  pinned : s.booted = true → s.log.log.committing = false → pinnedBlocks s = s.log.log.lh.entries

omit [DecidableEq Pid] in
theorem Inv.counted (inv : Inv first s) : Counted s where
  conserved := inv.shared.conserved
  recycled _ unused :=
    ⟨(inv.shared.conserved.idle unused).1, fun pinned =>
      inv.shared.conserved.referenced_of_pinned pinned unused⟩
  pinned := inv.pinnedBlocks_eq

/-- The reference counts are right in every run from a boot exactly if the log on the disk is empty
at that boot. -/
theorem counted_iff (small : Fintype.card Pid ≤ nproc) (boot : Boot p start)
    (room : (Log.onDisk start.log.log.start start.disk).n < start.log.log.size)
    (home : ∀ b ∈ (Log.onDisk start.log.log.start start.disk).entries,
      Log.Home start.log.log.start start.log.log.size b) :
    (∀ s, (bioSystem Pid).Reaches start s → Counted s) ↔
      (Log.onDisk start.log.log.start start.disk).n = 0 := by
  constructor
  · intro counted
    by_contra listed
    have first := home _ (LogHeader.block_mem_entries _ (Nat.pos_of_ne_zero listed))
    obtain ⟨s, i, run, lock, unused⟩ := boot.miscounts listed (by
      intro same
      rw [same, Log.Home] at first
      omega)
    exact (counted s run).conserved.referenced_of_lock (by simp [lock]) unused
  · intro empty s run
    exact (Inv.of_run small boot empty run).counted

/-- A disk with the log of `mkfs` that holds a committed transaction of one block. -/
def crashed : Log.Disk := update (fun _ _ => 0) 2 (Log.oneBlock.lh.store 0)

theorem onDisk_crashed : (Log.onDisk 2 crashed).n = 1 ∧ (Log.onDisk 2 crashed).entries = [45] := by
  rw [Log.onDisk, crashed, update_self]
  exact LogHeader.load_store Log.oneBlock.fits Log.oneBlock.word _ _

/-- The two cases of the count: the boot of an empty disk and the boot of a disk whose log is to be
recovered. -/
theorem counted_iff_mkfs :
    (∀ s, (bioSystem (Fin 2)).Reaches (bootState 0 2 logSize fun _ _ => 0) s → Counted s) ∧
      ¬ ∀ s, (bioSystem (Fin 2)).Reaches (bootState 0 2 logSize crashed) s → Counted s := by
  obtain ⟨count, entries⟩ := onDisk_crashed
  constructor
  · exact (counted_iff (by decide) (bootState_boot 0 2 logSize _) (by decide) (by decide)).mpr
      (by decide)
  intro counted
  have empty := (counted_iff (by decide) (bootState_boot 0 2 logSize crashed)
    (count.trans_lt (by decide)) (by
      intro b listed
      have block : b = 45 := by simpa [bootState, entries] using listed
      subst block
      decide)).mp counted
  exact absurd (count.symm.trans empty) (by decide)

/-- After a crash right after the header of a commit was written, the boot reaches a state in which
a locked buffer has no reference and is free to be recycled. -/
theorem crashed_boot_miscounts :
    ∃ s i, (bioSystem (Fin 1)).Reaches (bootState 0 2 logSize crashed) s ∧
      (s.buf i).lock = some 0 ∧ (s.buf i).refcnt = 0 ∧ ¬ Conserved s := by
  obtain ⟨count, entries⟩ := onDisk_crashed
  have first : (Log.onDisk 2 crashed).block 0 ∈ [45] :=
    entries ▸ LogHeader.block_mem_entries _ (by omega)
  obtain ⟨s, i, run, lock, unused⟩ := (bootState_boot (0 : Fin 1) 2 logSize crashed).miscounts
    (count.trans_ne (by decide)) ((List.mem_singleton.mp first).trans_ne (by decide))
  refine ⟨s, i, run, lock, unused, fun conserved => ?_⟩
  exact conserved.referenced_of_lock (by simp [lock]) unused

end OsLab.Bio
