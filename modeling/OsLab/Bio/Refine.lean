import OsLab.Bio.Coherence
import OsLab.Bio.Count
import OsLab.Lib.Store

/-!
# The cache and the log refine a map

An observer of the home blocks sees what `bread` returns and what `log_write` records.  For every
interleaving of processes that keep to the discipline, what is seen is a run of the plain map from
block numbers to contents.
-/

namespace OsLab.Bio

variable {Pid : Type*} [DecidableEq Pid] {first p : Pid} {start s t : State Pid}

/-- What is seen of a step of an operation: the return of `bread` of a home block, and the locked
part of `log_write`. -/
def observeOp (s : State Pid) (p : Pid) : Op → Option (Access Nat Block)
  | .bread b =>
    if AtHome s b then
      (stepBread s p b).2.map fun i => .read b ((stepBread s p b).1.buf i).data
    else none
  | .logWrite i => (stepLogWrite s p i).2.map fun _ => .write (s.buf i).blockno (s.buf i).data
  | _ => none

/-- What is seen of an action. -/
def observe (s : State Pid) : Action Pid → Option (Access Nat Block)
  | .step p =>
    match s.todo p with
    | .call op _ => observeOp s p op
    | .ret _ => none
  | _ => none

/-- Only `log_write` changes what was logged last. -/
theorem latest_resume {op : Op} (other : ∀ i, op ≠ .logWrite i) {rest : op.Res → Thread Unit} :
    (resume p rest (advance s p op)).latest = s.latest := by
  cases op with
  | bread b =>
    simp only [advance, stepBread]
    split
    · rfl
    · rfl
    · split <;> rfl
  | brelse i =>
    simp only [advance, stepBrelse]
    split
    · rfl
    · split <;> rfl
  | bwrite i =>
    simp only [advance, stepBwrite]
    split <;> rfl
  | logWrite i => exact absurd rfl (other i)
  | _ => rfl

variable [Fintype Pid]

theorem Coherent.matches (coherent : Coherent first s) {action : Action Pid}
    (enabled : Enabled s action) :
    (store Nat Block).Matches s.latest (next s action).latest (observe s action) := by
  cases action with
  | call p request => rfl
  | modify p i data => rfl
  | step p =>
    obtain ⟨-, -, op, rest, todo, -⟩ := enabled
    obtain ⟨view, knows⟩ := coherent.knows p
    simp only [observe, next, todo]
    cases op with
    | bread b =>
      rw [latest_resume (by simp), observeOp]
      split
      · rename_i home
        rcases knows.runs.doing.bread todo with pc | ⟨i, pc, -⟩ | ⟨i, pc, caches, -⟩
        · simp only [stepBread, pc]
          cases s.cache.bget s.log.log.dev b <;> rfl
        · simp only [stepBread, pc]
          rfl
        · simp only [stepBread, pc, Option.map_some]
          refine ⟨?_, rfl⟩
          rw [← caches.2] at home ⊢
          exact (coherent.fill_data knows pc home).symm
      · rfl
    | logWrite i =>
      obtain ⟨-, logged, inside | logging⟩ := knows.runs.logging todo
      · simp only [advance, observeOp, stepLogWrite, inside]
        rfl
      · simp only [advance, observeOp, stepLogWrite, logging]
        split
        · exact ⟨trivial, rfl⟩
        · rfl
    | _ => exact latest_resume (by simp)

theorem Boot.coherent (boot : Boot p start)
    (empty : (Log.onDisk start.log.log.start start.disk).n = 0)
    (room : logSize ≤ start.log.log.size) : Coherent p start := by
  have clean : ∀ i, (start.buf i).dev = start.log.log.dev → (start.buf i).valid = true →
      (start.buf i).data = start.disk (start.buf i).blockno := fun i dev =>
    boot.clean i (dev.trans boot.dev)
  have idle : ∀ i, ∀ q, (start.buf i).lock ≠ some q := fun i q => by simp [boot.unlocked i]
  have inactive : ∀ q, ¬ (start.log.phase q).Active := fun q => by
    simp [boot.outside q, Log.Phase.Active]
  refine ⟨boot.inv empty, ?_, fun q => ?_⟩
  · exact
      { disk := fun b _ _ => by rw [boot.latest]
        home := fun i dev => .inl fun valid _ => by
          rw [boot.latest]
          exact clean i dev valid
        area := fun i dev => .inl fun valid _ => clean i dev valid
        pinned := fun i pinned => by simp [Pinned, pinnedBlocks, boot.booted] at pinned
        locked := fun i q locked => absurd locked (idle i q)
        listed := fun b member => by
          simp [boot.header, Log.bootHeader, LogHeader.entries] at member
        room := room }
  · rcases eq_or_ne q p with rfl | other
    · have runs := boot.runs_first empty
      refine ⟨_, runs, runs.polite_of_inner (show Stage.Inner .boot by decide)
        (by simp [boot.pc]) (inactive q), ?_⟩
      exact
        { synced := fun _ i locked => absurd locked (idle i q)
          copied := fun i draft => by simp [View.idle] at draft
          logged := fun k earlier => by simp [View.idle] at earlier
          home := fun written => by simp [View.idle] at written
          bound := Nat.zero_le _
          roomy := fun some => by simp [View.idle] at some
          fresh := fun _ => rfl
          quiet := fun _ => ⟨rfl, by simp [View.idle]⟩ }
    · have todo : start.todo q = .ret () := by rw [boot.todo, Function.update_of_ne other]
      refine ⟨_, boot.runs_other other, ?_, progress_outer (by decide)⟩
      exact
        { taking := fun i filling => by simp [boot.pc] at filling
          releasing := fun _ i rest todo' => by simp [todo] at todo'
          ending := fun rest todo' => by simp [todo] at todo'
          logging := fun i rest todo' => by simp [todo] at todo'
          inactive := fun _ => inactive q }

/-- What the refinement says of a state: a block that is logged and not yet committed stays in the
cache, home blocks are written only for a committed header, and once the log is empty the disk holds
the map. -/
structure Settled (s : State Pid) : Prop where
  cached : s.booted = true → (∀ q, s.log.phase q ≠ .installing) → ∀ b ∈ s.log.log.lh.entries,
    ∃ i, Caches s i b ∧ (s.buf i).valid = true ∧ (s.buf i).refcnt ≠ 0
  committed : ∀ p i rest, s.todo p = .call (.bwrite i) rest → AtHome s (s.buf i).blockno →
    s.log.phase p = .installing ∧ (s.buf i).blockno ∈ s.log.log.lh.entries
  empty : s.log.log.lh.n = 0 → s.log.log.committing = false → ∀ b, AtHome s b →
    s.disk b = s.latest b

omit [DecidableEq Pid] in
/-- Nothing is unpinned before the header is on the disk. -/
theorem Coherent.unpinned_eq_zero (coherent : Coherent first s)
    (calm : ∀ q, s.log.phase q ≠ .installing) (listed : s.log.log.lh.n ≠ 0) : s.unpinned = 0 := by
  cases committing : s.log.log.committing with
  | false => exact coherent.inv.shared.calm committing
  | true =>
    obtain ⟨q, commits⟩ := coherent.inv.shared.sound.core.committed committing
    obtain ⟨view, knows⟩ := coherent.knows q
    have fits := knows.runs.fits
    have early : view.stage = .start ∨ view.stage = .writing := by
      cases stage : view.stage with
      | start => exact .inl rfl
      | writing => exact .inr rfl
      | installing =>
        rw [stage] at fits
        exact absurd fits.2 (calm q)
      | cleared =>
        rw [stage] at fits
        have clears : (s.log.phase q).role = .cleared := by rw [fits.2]; rfl
        exact absurd (coherent.inv.shared.sound.core.cleared q clears) listed
      | user =>
        rw [stage] at fits
        exact absurd ((Log.Phase.commits_role _).mp commits) fits
      | calling | boot | wiping =>
        rw [stage] at fits
        simp [Fits, (Log.Phase.commits_role _).mp commits] at fits
    have inside : view.stage.Commits := by
      rcases early with stage | stage <;> rw [stage] <;>
        exact ⟨by decide, by decide, by decide⟩
    rw [knows.runs.unpinned inside, knows.progress.fresh early]

omit [DecidableEq Pid] in
theorem Coherent.settled (coherent : Coherent first s) : Settled s where
  cached booted calm b member := by
    have listed : s.log.log.lh.n ≠ 0 := fun none => by
      simp [LogHeader.entries_of_n_eq_zero none] at member
    have pinned : b ∈ pinnedBlocks s := by
      rw [pinnedBlocks, if_pos booted, coherent.unpinned_eq_zero calm listed]
      exact member
    obtain ⟨i, caches⟩ := coherent.inv.shared.present b pinned
    have isPinned : Pinned s i := ⟨caches.1, by rw [caches.2]; exact pinned⟩
    exact ⟨i, caches, coherent.accurate.pinned i isPinned,
      coherent.inv.shared.conserved.referenced_of_pinned isPinned⟩
  committed p i rest todo home := by
    obtain ⟨view, knows⟩ := coherent.knows p
    have before := knows.runs.pre todo
    obtain ⟨inner, -⟩ := pre_bwrite before
    have pc := knows.runs.pc_ready todo rfl
    have log := knows.runs.log inner
    have blockno : ∀ c, view.Holds i c → (s.buf i).blockno = c := fun c held =>
      (knows.runs.held inner _ held (by simp [pc])).caches.2
    have notHeader : ¬ view.Holds i view.log.start := fun held => by
      rw [blockno _ held, ← log] at home
      exact not_atHome_start coherent.accurate home
    have fits := knows.runs.fits
    cases stage : view.stage <;> simp only [pre, stage] at before
    case wiping | cleared => exact absurd before.2 notHeader
    case writing =>
      rcases before with ⟨draft, held, within⟩ | ⟨-, held⟩
      · have roomy := knows.progress.roomy (.inr ⟨i, draft⟩)
        rw [blockno _ held, ← log] at home
        exact absurd home (not_atHome_log (by rw [log]; omega))
      · exact absurd held notHeader
    case installing =>
      rw [stage] at fits
      refine ⟨fits.2, ?_⟩
      rw [blockno _ before.1, log]
      exact LogHeader.block_mem_entries _ before.2
  empty none free b home := by
    refine coherent.accurate.disk b home ?_
    simp [pinnedBlocks, LogHeader.entries_of_n_eq_zero none]

instance (s : State Pid) (i : Fin nbuf) : Decidable (Clean s i) :=
  inferInstanceAs (Decidable (_ → _ → _ = _))

instance decidableDisciplined (s : State Pid) :
    (action : Action Pid) → Decidable (Disciplined s action)
  | .call p (.brelse i) => inferInstanceAs (Decidable ((s.buf i).lock = some p → Clean s i))
  | .call p .endOp => inferInstanceAs (Decidable (∀ i, (s.buf i).lock = some p → Clean s i))
  | .call _ (.logWrite i) => inferInstanceAs (Decidable (AtHome s (s.buf i).blockno))
  | .call _ (.bread _) | .call _ .beginOp | .step _ => .isTrue trivial
  | .modify _ _ _ => inferInstanceAs (Decidable (_ ∧ AtHome _ _))

/-- The buffer cache and the log refine the map from block numbers to contents: from a boot with an
empty log, what any interleaving of disciplined processes reads and logs is a run of the map. -/
theorem refines_store (small : Fintype.card Pid ≤ nproc) (boot : Boot p start)
    (empty : (Log.onDisk start.log.log.start start.disk).n = 0)
    (room : logSize ≤ start.log.log.size) {events : List (Access Nat Block)}
    (run : ((bioSystem Pid).restrict Disciplined).Observes observe start events s) :
    (store Nat Block).Schedules start.disk events ∧
      s.latest = events.foldl (store Nat Block).next start.disk ∧ Settled s := by
  have preserved : ∀ s action, Coherent p s →
      ((bioSystem Pid).restrict Disciplined).Enabled s action → Coherent p (next s action) :=
    fun s action coherent enabled => coherent.step small enabled.1 enabled.2
  obtain ⟨schedules, latest⟩ := run.refines (store Nat Block) State.latest
    (boot.coherent empty room) preserved fun s action coherent enabled =>
      coherent.matches enabled.1
  rw [boot.latest] at schedules latest
  exact ⟨schedules, latest, (run.reaches.invariant preserved (boot.coherent empty room)).settled⟩

/-- Process 0 logs block 40 and commits it, and process 1 reads it. -/
def readBack : List (Action (Fin 2)) :=
  List.flatten [steps 0 18, [.call 0 .beginOp, .step 0, .call 0 (.bread 40)], steps 0 3,
      [.modify 0 second fun _ => 7, .call 0 (.logWrite second)], steps 0 2,
      [.call 0 (.brelse second)], steps 0 2, [.call 0 .endOp], steps 0 49,
      [.call 1 (.bread 40)], steps 1 3]

/-- What is seen of this run. -/
def seen : List (Access Nat Block) :=
  ((bioSystem (Fin 2)).restrict Disciplined).trace observe (bootState 0 2 logSize fun _ _ => 0)
    readBack

def committed : State (Fin 2) :=
  readBack.foldl ((bioSystem (Fin 2)).restrict Disciplined).next
    (bootState 0 2 logSize fun _ _ => 0)

/-- A byte of a block that is read, or logged. -/
def firstByte : Access Nat Block → Byte ⊕ Byte
  | .read _ block => .inl (block.byteAt 0)
  | .write _ block => .inr (block.byteAt 0)

/-- The block is read as zero, logged, read by the commit and by process 1, and on the disk. -/
theorem refines_store_readBack :
    (store Nat Block).Schedules (fun _ _ => 0) seen ∧
      seen.map firstByte = [.inl 0, .inr 7, .inl 7, .inl 7, .inl 7] ∧
      Settled committed ∧ committed.log.log.lh.n = 0 ∧ (committed.disk 40).byteAt 0 = 7 := by
  have enabled : ((bioSystem (Fin 2)).restrict Disciplined).Schedules
      (bootState 0 2 logSize fun _ _ => 0) readBack := by
    decide +kernel
  have run : ((bioSystem (Fin 2)).restrict Disciplined).Observes observe _ _ committed :=
    enabled.observes .refl
  rw [List.nil_append] at run
  obtain ⟨schedules, -, settled⟩ := refines_store (by decide)
    (bootState_boot (0 : Fin 2) 2 logSize fun _ _ => 0) (by decide) (by decide) run
  exact ⟨schedules, by decide +kernel, settled, by decide +kernel, by decide +kernel⟩

/-- Two processes log the blocks 4 and 10.  Both pass the check of `log_write` while the header is
empty.  The second to end its operation commits. -/
def overrun : List (Action (Fin 2)) :=
  List.flatten [steps 0 18, [.call 0 .beginOp, .step 0, .call 1 .beginOp, .step 1],
      [.call 0 (.bread 4)], steps 0 3, [.call 1 (.bread 10)], steps 1 3,
      [.call 0 (.logWrite second), .step 0, .call 1 (.logWrite ⟨2, by decide⟩), .step 1],
      [.step 0, .step 1],
      [.call 0 (.brelse second)], steps 0 2, [.call 1 (.brelse ⟨2, by decide⟩)], steps 1 2,
      [.call 0 .endOp, .step 0, .call 1 .endOp], steps 1 23]

/-- The buffer that a thread is about to write. -/
def nextWrite : Thread Unit → Option (Fin nbuf)
  | .call (.bwrite i) _ => some i
  | _ => none

theorem nextWrite_eq_some {thread : Thread Unit} {i : Fin nbuf} (next : nextWrite thread = some i) :
    ∃ rest, thread = .call (.bwrite i) rest := by
  unfold nextWrite at next
  split at next
  · rename_i j rest
    obtain rfl : j = i := by simpa using next
    exact ⟨rest, rfl⟩
  · simp at next

/-- Process 1 is about to write a home block before its header is on the disk. -/
def Overruns (s : State (Fin 2)) : Prop :=
  s.panic = none ∧ s.log.fault = none ∧ nextWrite (s.todo 1) = some second ∧
    AtHome s (s.buf second).blockno ∧ s.log.phase 1 ≠ .installing

instance (s : State (Fin 2)) : Decidable (Overruns s) :=
  inferInstanceAs (Decidable (_ ∧ _ ∧ _ ∧ _ ∧ _))

theorem overrun_reaches :
    ∃ s, ((bioSystem (Fin 2)).restrict Disciplined).Reaches (bootState 0 2 2 fun _ _ => 0) s ∧
      Overruns s := by
  have run : ((bioSystem (Fin 2)).restrict Disciplined).Schedules
      (bootState 0 2 2 fun _ _ => 0) overrun := by
    decide +kernel
  exact ⟨_, run.reaches, by decide +kernel⟩

/-- With a log of two blocks, a header of two entries makes `write_log` overwrite the block behind
the log before the commit. -/
theorem small_log_overruns :
    ∃ s, ((bioSystem (Fin 2)).restrict Disciplined).Reaches (bootState 0 2 2 fun _ _ => 0) s ∧
      s.panic = none ∧ s.log.fault = none ∧ ¬ Settled s := by
  obtain ⟨s, run, running, sane, write, home, early⟩ := overrun_reaches
  obtain ⟨rest, todo⟩ := nextWrite_eq_some write
  exact ⟨s, run, running, sane, fun settled => early (settled.committed 1 _ rest todo home).1⟩

end OsLab.Bio
