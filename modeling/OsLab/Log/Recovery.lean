import OsLab.Lib.DiskProgram
import OsLab.Log.Header

/-!
# Crash recovery

The disk side of `commit` and `recover_from_log`, as programs over a disk that may lose power
between two block writes.  A disk is recoverable to some contents of the home blocks if those
contents are what its log would install.
-/

namespace OsLab.Log

open DiskProgram Prog Function List Nat

/-- The contents of every block of the disk. -/
abbrev Disk := Nat → Block

/-- The header of `struct log` at boot, before `read_head`. -/
def bootHeader : LogHeader := ⟨0, fun _ => 0⟩

/-- The body of the loop of `install_trans`. -/
def installRound (start : Nat) (lh : LogHeader) (tail : Nat) : DiskProgram Nat Block Unit := do
  let lbuf ← bread (start + tail + 1)
  let _dbuf ← bread (lh.block tail)
  bwrite (lh.block tail) lbuf

def installTrans (start : Nat) (lh : LogHeader) : DiskProgram Nat Block Unit :=
  forRange lh.n (installRound start lh)

def readHead (start : Nat) : DiskProgram Nat Block LogHeader := do
  let buf ← bread start
  pure (bootHeader.load buf)

def writeHead (start : Nat) (lh : LogHeader) : DiskProgram Nat Block Unit := do
  let buf ← bread start
  bwrite start (lh.store buf)

def recoverFromLog (start : Nat) : DiskProgram Nat Block Unit := do
  let lh ← readHead start
  installTrans start lh
  writeHead start { lh with n := 0 }

/-- The body of the loop of `write_log`, with the contents of the cached home blocks. -/
def logRound (start : Nat) (lh : LogHeader) (cached : Nat → Block) (tail : Nat) :
    DiskProgram Nat Block Unit := do
  let _to ← bread (start + tail + 1)
  bwrite (start + tail + 1) (cached (lh.block tail))

def writeLog (start : Nat) (lh : LogHeader) (cached : Nat → Block) : DiskProgram Nat Block Unit :=
  forRange lh.n (logRound start lh cached)

def commit (start : Nat) (lh : LogHeader) (cached : Nat → Block) : DiskProgram Nat Block Unit :=
  if lh.n > 0 then do
    writeLog start lh cached
    writeHead start lh
    installTrans start lh
    writeHead start { lh with n := 0 }
  else pure ()

/-- The block lies outside the log area. -/
def Home (start size b : Nat) : Prop := b < start ∨ start + size ≤ b

instance (start size b : Nat) : Decidable (Home start size b) :=
  inferInstanceAs (Decidable (_ ∨ _))

def onDisk (start : Nat) (disk : Disk) : LogHeader := bootHeader.load (disk start)

/-- Recovery of `disk` will leave `target` in the home blocks. -/
structure Recoverable (start size : Nat) (disk target : Disk) : Prop where
  room : (onDisk start disk).n + 1 ≤ size
  home : ∀ b ∈ (onDisk start disk).entries, Home start size b
  logged : ∀ i < (onDisk start disk).n, target ((onDisk start disk).block i) = disk (start + i + 1)
  rest : ∀ b, Home start size b → b ∉ (onDisk start disk).entries → target b = disk b

/-- The header on the disk is empty and the home blocks are `target`. -/
structure Clean (start size : Nat) (disk target : Disk) : Prop where
  empty : (onDisk start disk).n = 0
  same : ∀ b, Home start size b → disk b = target b

variable {disk target : Disk} {i count : Nat} {lh : LogHeader}

theorem Clean.recoverable {start size : Nat} (clean : Clean start size disk target)
    (room : 1 ≤ size) : Recoverable start size disk target where
  room := by rw [clean.empty]; exact room
  home := by simp [LogHeader.entries_of_n_eq_zero clean.empty]
  logged i listed := by simp [clean.empty] at listed
  rest b home _ := (clean.same b home).symm

section Loops

variable {start size : Nat}

theorem installRound_writes (start : Nat) (lh : LogHeader) (tail : Nat) (disk : Disk) :
    (installRound start lh tail).writes disk = 1 := rfl

theorem logRound_writes (start : Nat) (lh : LogHeader) (cached : Nat → Block) (tail : Nat)
    (disk : Disk) : (logRound start lh cached tail).writes disk = 1 := rfl

/-- Some rounds of `install_trans` change listed blocks only, to what recovery is to leave. -/
theorem install_rounds (room : lh.n + 1 ≤ size) (home : ∀ b ∈ lh.entries, Home start size b)
    (logged : ∀ i < lh.n, target (lh.block i) = disk (start + i + 1)) {rounds : Nat}
    (within : rounds ≤ lh.n) (b : Nat) :
    ((forRange rounds (installRound start lh)).run disk).2 b =
      if b ∈ (List.range rounds).map lh.block then target b else disk b := by
  induction rounds generalizing b with
  | zero => simp
  | succ rounds ih =>
    have ih := ih (by omega)
    have listed : rounds < lh.n := within
    -- a log block is no home block, so the earlier rounds have not changed it
    have source : start + rounds + 1 ∉ (List.range rounds).map lh.block := by
      intro member
      obtain ⟨i, i_mem, equality⟩ := mem_map.mp member
      have i_lt := mem_range.mp i_mem
      have outside := home _ (lh.block_mem_entries (by omega : i < lh.n))
      rw [equality] at outside
      unfold Home at outside
      omega
    rw [run_forRange_succ]
    change update _ (lh.block rounds) _ b = _
    rcases eq_or_ne b (lh.block rounds) with rfl | other
    · rw [update_self, ih, if_neg source,
        if_pos (mem_map.mpr ⟨rounds, by simp, rfl⟩), logged _ listed]
    · rw [update_of_ne other, ih]
      simp [range_succ, other]

theorem log_rounds (start : Nat) (lh : LogHeader) (cached : Nat → Block) (disk : Disk)
    (rounds b : Nat) :
    ((forRange rounds (logRound start lh cached)).run disk).2 b =
      if start < b ∧ b ≤ start + rounds then cached (lh.block (b - start - 1)) else disk b := by
  induction rounds generalizing b with
  | zero => rw [if_neg (by omega)]; rfl
  | succ rounds ih =>
    rw [run_forRange_succ]
    change update _ (start + rounds + 1) _ b = _
    rcases eq_or_ne b (start + rounds + 1) with rfl | other
    · rw [update_self, if_pos (by omega)]
      congr 2
      omega
    · rw [update_of_ne other, ih]
      by_cases written : start < b ∧ b ≤ start + rounds
      · rw [if_pos written, if_pos (by omega)]
      · rw [if_neg written, if_neg (by omega)]

end Loops

section Recover

variable {start size : Nat} {disk target : Disk}

/-- The header in memory lists what the header on the disk lists. -/
structure Matches (start : Nat) (disk : Disk) (lh : LogHeader) : Prop where
  count : (onDisk start disk).n = lh.n
  entries : (onDisk start disk).entries = lh.entries

theorem Matches.block (same : Matches start disk lh) (listed : i < lh.n) :
    (onDisk start disk).block i = lh.block i := by
  have entry := congrArg (·[i]?) same.entries
  simpa [LogHeader.entries, same.count, listed] using entry

theorem not_home_start (room : 1 ≤ size) : ¬ Home start size start := by
  unfold Home
  omega

theorem not_home_log (room : i + 2 ≤ size) : ¬ Home start size (start + i + 1) := by
  unfold Home
  omega

section

variable (recoverable : Recoverable start size disk target) (same : Matches start disk lh)
include recoverable same

theorem Recoverable.rounds {rounds : Nat} (within : rounds ≤ lh.n) (b : Nat) :
    ((forRange rounds (installRound start lh)).run disk).2 b =
      if b ∈ (List.range rounds).map lh.block then target b else disk b := by
  refine Log.install_rounds (?_ : lh.n + 1 ≤ size) ?_ ?_ within b
  · rw [← same.count]
    exact recoverable.room
  · rw [← same.entries]
    exact recoverable.home
  · intro i listed
    rw [← same.block listed]
    exact recoverable.logged i (by rw [same.count]; exact listed)

/-- Rounds of `install_trans` keep the disk recoverable to the same contents. -/
theorem Recoverable.install_rounds {rounds : Nat} (within : rounds ≤ lh.n) :
    Recoverable start size ((forRange rounds (installRound start lh)).run disk).2 target ∧
      Matches start ((forRange rounds (installRound start lh)).run disk).2 lh := by
  have contents := recoverable.rounds same within
  generalize ((forRange rounds (installRound start lh)).run disk).2 = after at contents
  have unlisted : ∀ b, b ∉ lh.entries → after b = disk b := by
    intro b absent
    rw [contents, if_neg]
    intro member
    obtain ⟨i, i_mem, rfl⟩ := mem_map.mp member
    have i_lt := mem_range.mp i_mem
    exact absent (lh.block_mem_entries (by omega))
  have frame : ∀ b, ¬ Home start size b → after b = disk b := fun b away =>
    unlisted b fun listed => away (recoverable.home b (same.entries ▸ listed))
  have header : onDisk start after = onDisk start disk := by
    rw [onDisk, frame start (not_home_start (by have := recoverable.room; omega)), onDisk]
  refine ⟨?_, ?_, ?_⟩
  · exact
      { room := by rw [header]; exact recoverable.room
        home := by rw [header]; exact recoverable.home
        logged := fun i listed => by
          rw [header] at listed ⊢
          rw [frame _ (not_home_log (by have := recoverable.room; omega))]
          exact recoverable.logged i listed
        rest := fun b isHome absent => by
          rw [header] at absent
          rw [unlisted b (same.entries ▸ absent)]
          exact recoverable.rest b isHome absent }
  · rw [header]
    exact same.count
  · rw [header]
    exact same.entries

/-- A complete `install_trans` leaves the target in the home blocks. -/
theorem Recoverable.install_all (b : Nat) (isHome : Home start size b) :
    ((installTrans start lh).run disk).2 b = target b := by
  rw [installTrans, recoverable.rounds same le_rfl]
  split
  · rfl
  · rename_i absent
    exact (recoverable.rest b isHome (same.entries ▸ absent)).symm

end

theorem clean_writeHead (room : 1 ≤ size) (lh : LogHeader)
    (installed : ∀ b, Home start size b → disk b = target b) :
    Clean start size ((writeHead start { lh with n := 0 }).run disk).2 target where
  empty := by
    change (bootHeader.load (update disk start _ start)).n = 0
    rw [update_self]
    exact LogHeader.load_store_zero lh bootHeader (disk start)
  same b isHome := by
    change update disk start _ b = _
    rw [update_of_ne]
    · exact installed b isHome
    · rintro rfl
      exact not_home_start room isHome

theorem matches_onDisk (start : Nat) (disk : Disk) : Matches start disk (onDisk start disk) :=
  ⟨rfl, rfl⟩

theorem writes_installTrans (start : Nat) (lh : LogHeader) (disk : Disk) :
    (installTrans start lh).writes disk = lh.n :=
  writes_forRange (installRound_writes start lh) lh.n disk

section

variable (recoverable : Recoverable start size disk target)
include recoverable

/-- The two writes at the end of `commit` and of recovery: installing and emptying the log. -/
theorem Recoverable.finish (same : Matches start disk lh) : Clean start size
      (((installTrans start lh >>= fun _ => writeHead start { lh with n := 0 }).run disk).2)
      target := by
  rw [run_bind]
  exact clean_writeHead (by have := recoverable.room; omega) lh (recoverable.install_all same)

/-- Losing power while installing or emptying the log keeps the disk recoverable. -/
theorem Recoverable.cut_finish (same : Matches start disk lh) (count : Nat) : Recoverable start size
      (cut count (installTrans start lh >>= fun _ => writeHead start { lh with n := 0 }) disk)
      target := by
  have room : 1 ≤ size := by have := recoverable.room; omega
  rw [cut_bind, writes_installTrans]
  split
  · rename_i inside
    rw [installTrans, cut_forRange (installRound_writes start lh) disk (by omega)]
    exact (recoverable.install_rounds same (by omega)).1
  rename_i past
  rcases lt_or_ge lh.n count with beyond | reached
  · rw [cut_of_le _ _ (by change 1 ≤ _; omega)]
    exact (clean_writeHead room lh (recoverable.install_all same)).recoverable room
  · obtain rfl : count = lh.n := by omega
    rw [Nat.sub_self, cut_zero]
    exact (recoverable.install_rounds same le_rfl).1

/-- A recovery that is cut short changes nothing about what recovery will leave. -/
theorem Recoverable.cut_recover (count : Nat) :
    Recoverable start size (cut count (recoverFromLog start) disk) target := by
  have split := cut_bind (readHead start)
    (fun lh => installTrans start lh >>= fun _ => writeHead start { lh with n := 0 }) disk count
  change cut count (recoverFromLog start) disk = _ at split
  rw [split, if_neg (by simp [readHead])]
  exact recoverable.cut_finish (matches_onDisk start disk) _

theorem Recoverable.run_recover : Clean start size ((recoverFromLog start).run disk).2 target :=
  recoverable.finish (matches_onDisk start disk)

end

end Recover

/-- A commit: the header in memory and the contents of the blocks it lists. -/
structure Transaction (start size : Nat) where
  lh : LogHeader
  contents : Nat → Block
  fits : lh.n ≤ logSize
  room : lh.n + 1 ≤ size
  distinct : lh.entries.Nodup
  home : ∀ b ∈ lh.entries, Home start size b
  word : ∀ b ∈ lh.entries, b < 2 ^ 32

namespace Transaction

variable {start size : Nat}

/-- The disk after the transaction, apart from the log area. -/
def apply (tx : Transaction start size) (disk : Disk) : Disk :=
  fun b => if b ∈ tx.lh.entries then tx.contents b else disk b

/-- The call of `commit` for the transaction. -/
def commit (tx : Transaction start size) : DiskProgram Nat Block Unit :=
  Log.commit start tx.lh tx.contents

/-- The number of block writes of the commit. -/
def writeCount (tx : Transaction start size) : Nat :=
  if tx.lh.n = 0 then 0 else 2 * tx.lh.n + 2

section

variable (tx : Transaction start size)
include tx

theorem commit_of_pos (pos : tx.lh.n ≠ 0) :
    tx.commit = writeLog start tx.lh tx.contents >>= fun _ => writeHead start tx.lh >>= fun _ =>
      installTrans start tx.lh >>= fun _ => writeHead start { tx.lh with n := 0 } := by
  rw [commit, Log.commit, if_pos (pos_of_ne_zero pos)]

theorem commit_of_empty (empty : tx.lh.n = 0) : tx.commit = pure () := by
  rw [commit, Log.commit, if_neg (by omega)]

theorem writes_commit (disk : Disk) : tx.commit.writes disk = tx.writeCount := by
  unfold writeCount
  split
  · rename_i empty
    rw [tx.commit_of_empty empty, writes_pure]
  · rename_i pos
    rw [tx.commit_of_pos pos, writes_bind, writes_bind, writes_bind, writes_installTrans,
      writeLog, writes_forRange (logRound_writes start tx.lh tx.contents)]
    change tx.lh.n + (1 + (tx.lh.n + 1)) = _
    omega

section

variable (clean : Clean start size disk target)
include clean

/-- The blocks that `write_log` has copied leave header and home blocks alone. -/
theorem clean_log_rounds {rounds : Nat} (within : rounds ≤ tx.lh.n) :
    Clean start size ((forRange rounds (logRound start tx.lh tx.contents)).run disk).2 target where
  empty := by
    rw [onDisk, log_rounds, if_neg (by omega)]
    exact clean.empty
  same b isHome := by
    have room := tx.room
    rw [log_rounds, if_neg (by unfold Home at isHome; omega)]
    exact clean.same b isHome

/-- The first `write_head` of a commit makes the whole transaction recoverable. -/
theorem recoverable_writeHead :
    Recoverable start size
        ((writeHead start tx.lh).run ((writeLog start tx.lh tx.contents).run disk).2).2
        (tx.apply target) ∧
      Matches start
        ((writeHead start tx.lh).run ((writeLog start tx.lh tx.contents).run disk).2).2 tx.lh := by
  have room := tx.room
  have logged := log_rounds start tx.lh tx.contents disk tx.lh.n
  have copied := tx.clean_log_rounds clean le_rfl
  change ∀ b, ((writeLog start tx.lh tx.contents).run disk).2 b = _ at logged
  change Clean start size ((writeLog start tx.lh tx.contents).run disk).2 target at copied
  generalize ((writeLog start tx.lh tx.contents).run disk).2 = written at logged copied
  change Recoverable start size (update written start (tx.lh.store (written start))) _ ∧
    Matches start (update written start (tx.lh.store (written start))) tx.lh
  have header : onDisk start (update written start (tx.lh.store (written start))) =
      bootHeader.load (tx.lh.store (written start)) := by
    rw [onDisk, update_self]
  have same : Matches start (update written start (tx.lh.store (written start)))
      tx.lh := by
    obtain ⟨count, entries⟩ := LogHeader.load_store tx.fits tx.word bootHeader (written start)
    exact ⟨by rw [header, count], by rw [header, entries]⟩
  have away : ∀ b, b ≠ start → update written start (tx.lh.store (written start)) b = written b :=
    fun b other => update_of_ne other _ _
  refine ⟨?_, same⟩
  exact
    { room := by rw [same.count]; exact room
      home := by rw [same.entries]; exact tx.home
      logged := fun i listed => by
        rw [same.count] at listed
        rw [same.block listed, away _ (by omega), logged, if_pos (by omega), apply,
          if_pos (tx.lh.block_mem_entries listed)]
        congr 2
        omega
      rest := fun b isHome absent => by
        rw [same.entries] at absent
        rw [apply, if_neg absent, away, copied.same b isHome]
        rintro rfl
        exact not_home_start (by omega) isHome }

/-- Power lost before the first `write_head`: nothing has happened. -/
theorem cut_commit_before (early : count ≤ tx.lh.n) :
    Clean start size (cut count tx.commit disk) target := by
  by_cases empty : tx.lh.n = 0
  · obtain rfl : count = 0 := by omega
    rw [cut_zero]
    exact clean
  rw [tx.commit_of_pos empty, cut_bind, writeLog,
    writes_forRange (logRound_writes start tx.lh tx.contents)]
  split
  · rw [cut_forRange (logRound_writes start tx.lh tx.contents) disk early]
    exact tx.clean_log_rounds clean early
  · obtain rfl : count = tx.lh.n := by omega
    rw [Nat.sub_self, cut_zero]
    exact tx.clean_log_rounds clean le_rfl

/-- Power lost after the first `write_head`: recovery will install the whole transaction. -/
theorem cut_commit_after (pos : tx.lh.n ≠ 0) (late : tx.lh.n < count) :
    Recoverable start size (cut count tx.commit disk) (tx.apply target) := by
  obtain ⟨recoverable, same⟩ := tx.recoverable_writeHead clean
  rw [tx.commit_of_pos pos, cut_bind, writeLog,
    writes_forRange (logRound_writes start tx.lh tx.contents), if_neg (by omega), cut_bind,
    if_neg (by change ¬ count - tx.lh.n < 1; omega)]
  exact recoverable.cut_finish same _

theorem run_commit : Clean start size (tx.commit.run disk).2 (tx.apply target) := by
  by_cases empty : tx.lh.n = 0
  · rw [tx.commit_of_empty empty, run_pure]
    refine ⟨clean.empty, fun b isHome => ?_⟩
    rw [apply, LogHeader.entries_of_n_eq_zero empty, if_neg not_mem_nil]
    exact clean.same b isHome
  · obtain ⟨recoverable, same⟩ := tx.recoverable_writeHead clean
    rw [tx.commit_of_pos empty, run_bind, run_bind]
    exact recoverable.finish same

end

end

end Transaction

section Sequences

variable {start size : Nat}

/-- One commit after the other. -/
def commitAll : List (Transaction start size) → DiskProgram Nat Block Unit
  | [] => pure ()
  | tx :: rest => do
    tx.commit
    commitAll rest

variable (txs : List (Transaction start size))

/-- The disk after all the transactions, apart from the log area. -/
def applyAll (disk : Disk) : Disk :=
  txs.foldl (fun contents tx => tx.apply contents) disk

/-- The number of block writes of the first `i` commits. -/
def writesBefore (i : Nat) : Nat :=
  ((txs.take i).map Transaction.writeCount).sum

theorem writesBefore_cons_succ (tx : Transaction start size) (txs : List (Transaction start size))
    (i : Nat) : writesBefore (tx :: txs) (i + 1) = tx.writeCount + writesBefore txs i := by
  simp [writesBefore]

/-- After `count` block writes the first `applied` commits count: the complete ones, and the one in
flight if its first `write_head` is among those writes. -/
structure Committed (txs : List (Transaction start size)) (count applied : Nat) : Prop where
  within : applied ≤ txs.length
  returned : ∀ i < txs.length, writesBefore txs (i + 1) ≤ count → i < applied
  headed : ∀ i (present : i < txs.length), txs[i].lh.n ≠ 0 →
    (i < applied ↔ writesBefore txs i + txs[i].lh.n + 1 ≤ count)

variable {txs : List (Transaction start size)} {applied : Nat}

theorem Committed.first {tx : Transaction start size} (inside : count < tx.writeCount)
    (decided : applied = if tx.lh.n < count then 1 else 0) :
    Committed (tx :: txs) count applied where
  within := by
    rw [decided, length_cons]
    split <;> omega
  returned i _ complete := by
    rw [writesBefore_cons_succ] at complete
    omega
  headed i present pos := by
    cases i with
    | zero =>
      have none_before : writesBefore (tx :: txs) 0 = 0 := by simp [writesBefore]
      rw [none_before, decided, getElem_cons_zero]
      split <;> omega
    | succ i =>
      rw [writesBefore_cons_succ, decided]
      split <;> omega

theorem Committed.later {tx : Transaction start size} (complete : tx.writeCount ≤ count)
    (rest : Committed txs (count - tx.writeCount) applied) :
    Committed (tx :: txs) count (applied + 1) where
  within := succ_le_succ rest.within
  returned i present returned := by
    cases i with
    | zero => omega
    | succ i =>
      rw [writesBefore_cons_succ] at returned
      have earlier := rest.returned i (lt_of_succ_lt_succ present) (by omega)
      omega
  headed i present pos := by
    cases i with
    | zero =>
      have none_before : writesBefore (tx :: txs) 0 = 0 := by simp [writesBefore]
      rw [none_before]
      rw [getElem_cons_zero] at pos ⊢
      rw [Transaction.writeCount, if_neg pos] at complete
      omega
    | succ i =>
      have earlier := rest.headed i (lt_of_succ_lt_succ present)
        (by simpa only [getElem_cons_succ] using pos)
      rw [writesBefore_cons_succ, getElem_cons_succ]
      omega

/-- Power lost anywhere in a sequence of commits leaves a prefix of them recoverable. -/
theorem Clean.cut_commitAll (room : 1 ≤ size) (txs : List (Transaction start size))
    (clean : Clean start size disk target) (count : Nat) :
    ∃ applied, Committed txs count applied ∧ Recoverable start size (cut count (commitAll txs) disk)
        (applyAll (txs.take applied) target) := by
  induction txs generalizing disk target count with
  | nil =>
    refine ⟨0, ⟨le_rfl, by simp, by simp⟩, ?_⟩
    have nothing : cut count (commitAll ([] : List (Transaction start size))) disk = disk :=
      cut_of_le _ _ (zero_le _)
    rw [nothing]
    exact clean.recoverable room
  | cons tx txs ih =>
    change ∃ applied, _ ∧ Recoverable start size
      (cut count (tx.commit >>= fun _ => commitAll txs) disk) _
    rw [cut_bind, tx.writes_commit]
    split
    · rename_i inside
      refine ⟨_, Committed.first inside rfl, ?_⟩
      split
      · rename_i late
        exact tx.cut_commit_after clean
          (by intro empty; simp [Transaction.writeCount, empty] at inside) late
      · exact (tx.cut_commit_before clean (by omega)).recoverable room
    · rename_i complete
      obtain ⟨applied, rest, recoverable⟩ :=
        ih (tx.run_commit clean) (count - tx.writeCount)
      exact ⟨applied + 1, .later (by omega) rest, recoverable⟩

/-- Recoveries that are themselves cut short, one after the other. -/
def cutRecoveries (start : Nat) (cuts : List Nat) (disk : Disk) : Disk :=
  cuts.foldl (fun disk count => cut count (recoverFromLog start) disk) disk

theorem Recoverable.cut_recoveries (recoverable : Recoverable start size disk target)
    (cuts : List Nat) : Recoverable start size (cutRecoveries start cuts disk) target := by
  induction cuts generalizing disk with
  | nil => exact recoverable
  | cons count cuts ih => exact ih (recoverable.cut_recover count)

/-- After a crash anywhere in a sequence of commits and any number of crashes in recovery, a
complete recovery leaves exactly a prefix of the commits in the home blocks. -/
theorem crash_recovery (room : 1 ≤ size) (txs : List (Transaction start size)) (disk : Disk)
    (empty : (onDisk start disk).n = 0) (count : Nat) (cuts : List Nat) :
    ∃ applied, Committed txs count applied ∧ Clean start size
        ((recoverFromLog start).run (cutRecoveries start cuts (cut count (commitAll txs) disk))).2
        (applyAll (txs.take applied) disk) := by
  have clean : Clean start size disk disk := ⟨empty, fun _ _ => rfl⟩
  obtain ⟨applied, committed, recoverable⟩ := clean.cut_commitAll room txs count
  exact ⟨applied, committed, (recoverable.cut_recoveries cuts).run_recover⟩

/-- A transaction of one block, with the log at block 2 as `mkfs` lays it out. -/
def oneBlock : Transaction 2 logSize where
  lh := ⟨1, fun _ => 45⟩
  contents _ := fun _ => 7
  fits := by decide
  room := by decide
  distinct := by decide
  home := by decide
  word := by decide

/-- Two block writes of a commit of one block have reached the disk, then a recovery has been cut
after one write: the next recovery leaves the block. -/
theorem crash_recovery_oneBlock :
    ((recoverFromLog 2).run
      (cutRecoveries 2 [1] (cut 2 (commitAll [oneBlock]) fun _ _ => 0))).2 45 = fun _ => 7 := by
  obtain ⟨applied, committed, clean⟩ :=
    crash_recovery (by decide) [oneBlock] (fun _ _ => 0) (by decide) 2 [1]
  have headed := (committed.headed 0 (by decide) (by decide)).mpr (by decide)
  have within : applied ≤ 1 := committed.within
  obtain rfl : applied = 1 := by omega
  rw [clean.same 45 (by decide)]
  rfl

end Sequences

end OsLab.Log
