import OsLab.Bio.Model

/-!
# What a thread knows

The contents of the view of a thread: the buffers it holds, what it has written so far and the
stage of `commit` or of `initlog` it has reached.  The specification says for every operation what
must be known before it and what is known after it, and every thread of the model meets it.
-/

namespace OsLab.Bio

inductive Stage where
  | user
  /-- In a call other than `commit` and `initlog`. -/
  | calling
  /-- In `recover_from_log` before `log.lh.n = 0`. -/
  | boot
  /-- In `recover_from_log` after it. -/
  | wiping
  /-- In `commit` before the test of `log.lh.n`. -/
  | start
  /-- In `commit` up to the first `write_head`. -/
  | writing
  /-- In `commit` up to `log.lh.n = 0`. -/
  | installing
  /-- In `commit` after it. -/
  | cleared
deriving DecidableEq

/-- In `commit` or in `initlog`. -/
def Stage.Inner (stage : Stage) : Prop := stage ≠ .user ∧ stage ≠ .calling

instance : DecidablePred Stage.Inner := fun _ => inferInstanceAs (Decidable (_ ∧ _))

/-- A buffer that has been changed and not yet written to the disk. -/
inductive Draft where
  | none
  | logBlock (i : Fin nbuf)
  | headBlock (i : Fin nbuf)

/-- What a thread knows. -/
structure View where
  stage : Stage
  log : Log
  held : List (Fin nbuf × Nat)
  draft : Draft
  logged : Nat
  installed : Nat
  /-- The block that is being installed has been written. -/
  home : Bool

namespace View

/-- The thread holds the buffer for the block. -/
def Holds (view : View) (i : Fin nbuf) (b : Nat) : Prop := (i, b) ∈ view.held

/-- A thread that holds nothing and has no draft. -/
def idle (stage : Stage) (log : Log) (logged installed : Nat) : View :=
  ⟨stage, log, [], .none, logged, installed, false⟩

/-- Nothing is known of a log that other processes use. -/
def outer (stage : Stage) : View := idle stage ⟨0, 0, 0, false, 0, ⟨0, fun _ => 0⟩⟩ 0 0

/-- After `bread` has returned a buffer. -/
def take (view : View) (i : Fin nbuf) (b : Nat) : View :=
  if view.stage = .calling then outer .user else { view with held := (i, b) :: view.held }

/-- After `brelse` of a buffer. -/
def release (view : View) (i : Fin nbuf) : View :=
  if view.stage = .calling then outer .user
  else { view with held := view.held.filter fun h => h.1 ≠ i }

/-- After `bwrite`. -/
def wrote (view : View) : View :=
  match view.stage, view.draft with
  | .installing, _ => { view with home := true }
  | _, .logBlock _ => { view with draft := .none, logged := view.logged + 1 }
  | _, _ => { view with draft := .none }

/-- After `memmove`. -/
def copied (view : View) (dst : Fin nbuf) : View :=
  if view.stage = .writing then { view with draft := .logBlock dst } else view

end View

/-- What an operation needs. -/
def pre : Op → View → Prop
  | .bread _, view => view.stage ≠ .user
  | .brelse i, view =>
    view.stage = .calling ∨ view.stage.Inner ∧ (∃ b, view.Holds i b) ∧ view.draft = .none
  | .bwrite i, view =>
    match view.stage with
    | .writing =>
      view.draft = .logBlock i ∧ view.Holds i (view.log.start + view.logged + 1) ∧
          view.logged < view.log.lh.n ∨
        view.draft = .headBlock i ∧ view.Holds i view.log.start
    | .installing =>
      view.Holds i (view.log.lh.block view.installed) ∧ view.installed < view.log.lh.n
    | .wiping | .cleared => view.draft = .headBlock i ∧ view.Holds i view.log.start
    | _ => False
  | .memmove dst src, view =>
    match view.stage with
    | .writing =>
      view.Holds dst (view.log.start + view.logged + 1) ∧
        view.Holds src (view.log.lh.block view.logged) ∧ view.logged < view.log.lh.n ∧
        view.draft = .none
    | .installing =>
      view.Holds dst (view.log.lh.block view.installed) ∧
        view.Holds src (view.log.start + view.installed + 1) ∧
        view.installed < view.log.lh.n ∧ view.logged = view.log.lh.n ∧ view.draft = .none
    | _ => False
  | .bunpin i, view =>
    view.stage = .installing ∧ view.Holds i (view.log.lh.block view.installed) ∧
      view.installed < view.log.lh.n ∧ view.home = true
  | .logWrite _, view | .beginOp, view | .endOp, view => view.stage = .calling
  | .getLog, view => view.stage.Inner
  | .readHeader i, view =>
    view.stage = .boot ∧ view.log.lh.n = 0 ∧ view.Holds i view.log.start
  | .writeHeader i, view =>
    (view.stage = .wiping ∨ view.stage = .writing ∨ view.stage = .cleared) ∧
      view.Holds i view.log.start ∧ view.draft = .none
  | .resetHeader, view =>
    view.stage = .boot ∧ view.log.lh.n = 0 ∧ view.log.committing = false
  | .booted, view => view.stage = .wiping ∧ view.log.lh.n = 0 ∧ view.draft = .none
  | .commitStart, view => view.stage = .start
  | .commitHead, view =>
    view.stage = .writing ∧ view.logged = view.log.lh.n ∧ view.draft = .none
  | .commitClear, view =>
    view.stage = .installing ∧ view.installed = view.log.lh.n ∧ view.draft = .none
  | .commitDone, view => view.stage = .cleared ∧ view.installed = 0 ∧ view.draft = .none

/-- What is known after an operation. -/
def post : (op : Op) → View → op.Res → View → Prop
  | .bread b, view, i, later =>
    later = view.take i b ∧ (view.stage.Inner → ∀ h ∈ view.held, h.1 ≠ i)
  | .brelse i, view, _, later => later = view.release i
  | .bwrite _, view, _, later => later = view.wrote
  | .memmove dst _, view, _, later => later = view.copied dst
  | .bunpin _, view, _, later =>
    later = { view with installed := view.installed + 1, home := false }
  | .logWrite _, _, _, later | .beginOp, _, _, later => later = .outer .user
  | .endOp, _, doCommit, later =>
    if doCommit then ∃ log, later = .idle .start log 0 0 else later = .outer .user
  | .readHeader _, view, _, later => later = view
  | .getLog, view, log, later => later = view ∧ view.log = log
  | .writeHeader i, view, _, later => later = { view with draft := .headBlock i }
  | .resetHeader, view, _, later => later = { view with stage := .wiping }
  | .booted, _, _, later | .commitDone, _, _, later => later = .outer .user
  | .commitStart, view, _, later =>
    later = { view with stage := if view.log.lh.n > 0 then .writing else .cleared }
  | .commitHead, view, _, later => later = { view with stage := .installing }
  | .commitClear, view, _, later =>
    later = .idle .cleared { view.log with lh := { view.log.lh with n := 0 } } 0 0

/-- The specification of the operations. -/
def spec : Prog.Spec Op Op.Res View := ⟨pre, post⟩

section Meets

variable {α : Type} {goal : α → View → Prop} {view : View}

attribute [local simp] View.idle View.take View.wrote View.Holds View.copied Stage.Inner
  View.release

theorem meets_call {op : Op} {rest : op.Res → Thread α} (before : pre op view)
    (after : ∀ result later, post op view result later → (rest result).Meets spec later goal) :
    ((.call op .ret : Thread op.Res) >>= rest).Meets spec view goal :=
  ⟨before, after⟩

theorem meets_writeLog (log : Log) :
    writeLog.Meets spec (.idle .writing log 0 0)
      fun _ later => later = .idle .writing log log.lh.n 0 := by
  refine meets_call (by simp [pre]) ?_
  rintro _ _ ⟨rfl, rfl⟩
  refine Prog.Meets.forRange (P := fun tail later => later = View.idle .writing log tail 0) ?_ rfl
  rintro tail inside _ rfl
  replace inside : tail < log.lh.n := inside
  refine meets_call (by simp [pre]) ?_
  rintro dst _ ⟨rfl, -⟩
  refine meets_call (by simp [pre]) ?_
  rintro src _ ⟨rfl, other⟩
  have distinct : dst ≠ src := other (by simp) (dst, _) (by simp; rfl)
  refine meets_call (by simp [pre, inside]) ?_
  rintro - _ rfl
  refine meets_call (by simp [pre, inside]) ?_
  rintro - _ rfl
  refine meets_call (.inr ⟨?_, ⟨log.lh.block tail, ?_⟩, rfl⟩) ?_
  · simp
  · simp
  rintro - _ rfl
  refine ⟨.inr ⟨?_, ⟨log.start + tail + 1, ?_⟩, rfl⟩, ?_⟩
  · simp
  · simp [distinct]
  rintro - _ rfl
  simp [Prog.Meets]

theorem meets_writeHead (log : Log) {stage : Stage} {logged : Nat}
    (known : stage = .wiping ∨ stage = .writing ∨ stage = .cleared) :
    writeHead.Meets spec (.idle stage log logged 0)
      fun _ later => later = .idle stage log logged 0 := by
  have inner : stage.Inner := by rcases known with rfl | rfl | rfl <;> decide
  refine meets_call inner ?_
  rintro _ _ ⟨rfl, rfl⟩
  refine meets_call inner.1 ?_
  rintro buf _ ⟨rfl, -⟩
  refine meets_call ⟨by simpa [inner.2] using known, by simp [inner.2], by simp [inner.2]⟩ ?_
  rintro - _ rfl
  refine meets_call ?_ ?_
  · rcases known with rfl | rfl | rfl <;> simp [pre]
  rintro - _ rfl
  refine ⟨.inr ⟨?_, ⟨log.start, ?_⟩, ?_⟩, ?_⟩
  · rcases known with rfl | rfl | rfl <;> simp
  · rcases known with rfl | rfl | rfl <;> simp
  · rcases known with rfl | rfl | rfl <;> simp
  rintro - _ rfl
  rcases known with rfl | rfl | rfl <;>
    simp [Prog.Meets]

theorem meets_installTrans (log : Log) :
    installTrans.Meets spec (.idle .installing log log.lh.n 0)
      fun _ later => later = .idle .installing log log.lh.n log.lh.n := by
  refine meets_call (by simp [pre]) ?_
  rintro _ _ ⟨rfl, rfl⟩
  refine Prog.Meets.forRange
    (P := fun tail later => later = View.idle .installing log log.lh.n tail) ?_ rfl
  rintro tail inside _ rfl
  replace inside : tail < log.lh.n := inside
  refine meets_call (by simp [pre]) ?_
  rintro lbuf _ ⟨rfl, -⟩
  refine meets_call (by simp [pre]) ?_
  rintro dbuf _ ⟨rfl, other⟩
  have distinct : lbuf ≠ dbuf := other (by simp) (lbuf, _) (by simp; rfl)
  refine meets_call (by simp [pre, inside]) ?_
  rintro - _ rfl
  refine meets_call (by simp [pre, inside]) ?_
  rintro - _ rfl
  refine meets_call (by simp [pre, inside]) ?_
  rintro - _ rfl
  refine meets_call (.inr ⟨?_, ⟨log.start + tail + 1, ?_⟩, rfl⟩) ?_
  · simp
  · simp
  rintro - _ rfl
  refine ⟨.inr ⟨?_, ⟨log.lh.block tail, ?_⟩, rfl⟩, ?_⟩
  · simp
  · simp [distinct.symm]
  rintro - _ rfl
  simp [Prog.Meets]

theorem meets_commit (log : Log) :
    (commit >>= fun _ => .call .commitDone .ret : Thread Unit).Meets spec (.idle .start log 0 0)
      fun _ later => later.stage = .user := by
  have commits : commit.Meets spec (.idle .start log 0 0)
      fun _ later => ∃ cleared, later = .idle .cleared cleared 0 0 := by
    refine meets_call (by simp [pre]) ?_
    rintro _ _ ⟨rfl, rfl⟩
    refine meets_call rfl ?_
    rintro - _ rfl
    by_cases pos : log.lh.n > 0
    · simp only [View.idle, pos, if_true]
      refine (meets_writeLog log).bind ?_
      rintro - _ rfl
      refine (meets_writeHead log (.inr (.inl rfl))).bind ?_
      rintro - _ rfl
      refine meets_call ⟨rfl, rfl, rfl⟩ ?_
      rintro - _ rfl
      refine (meets_installTrans log).bind ?_
      rintro - _ rfl
      refine meets_call ⟨rfl, rfl, rfl⟩ ?_
      rintro - _ rfl
      exact (meets_writeHead _ (.inr (.inr rfl))).mono fun _ _ known => ⟨_, known⟩
    · simp only [View.idle, pos, if_false]
      exact ⟨log, rfl⟩
  refine commits.bind ?_
  rintro - _ ⟨cleared, rfl⟩
  refine ⟨⟨rfl, rfl, rfl⟩, ?_⟩
  rintro - _ rfl
  rfl

theorem meets_initlog {log : Log} (empty : log.lh.n = 0) (free : log.committing = false) :
    initlog.Meets spec (.idle .boot log 0 0) fun _ later => later.stage = .user := by
  have reads : readHead.Meets spec (.idle .boot log 0 0)
      fun _ later => later = .idle .boot log 0 0 := by
    refine meets_call (by simp [pre]) ?_
    rintro _ _ ⟨rfl, rfl⟩
    refine meets_call (by simp [pre]) ?_
    rintro buf _ ⟨rfl, -⟩
    refine meets_call ⟨rfl, empty, by simp⟩ ?_
    rintro - _ rfl
    refine ⟨.inr ⟨?_, ⟨log.start, by simp⟩, rfl⟩, ?_⟩
    · simp
    rintro - _ rfl
    simp [Prog.Meets]
  have installs : installTrans.Meets spec (.idle .boot log 0 0)
      fun _ later => later = .idle .boot log 0 0 := by
    refine meets_call (by simp [pre]) ?_
    rintro _ _ ⟨rfl, rfl⟩
    dsimp only [View.idle]
    rw [empty]
    rfl
  have recovers : recoverFromLog.Meets spec (.idle .boot log 0 0)
      fun _ later => later = .idle .wiping log 0 0 := by
    refine reads.bind ?_
    rintro - _ rfl
    refine installs.bind ?_
    rintro - _ rfl
    refine meets_call ⟨rfl, empty, free⟩ ?_
    rintro - _ rfl
    exact meets_writeHead log (.inl rfl)
  refine recovers.bind ?_
  rintro - _ rfl
  refine ⟨⟨rfl, empty, rfl⟩, ?_⟩
  rintro - _ rfl
  rfl

theorem meets_thread (request : Call) :
    request.thread.Meets spec (.outer .calling) fun _ later => later.stage = .user := by
  cases request with
  | bread b =>
    refine meets_call (by simp [pre, View.outer]) ?_
    rintro i _ ⟨rfl, -⟩
    rfl
  | brelse i =>
    refine ⟨.inl rfl, ?_⟩
    rintro - _ rfl
    rfl
  | logWrite i =>
    refine ⟨rfl, ?_⟩
    rintro - _ rfl
    rfl
  | beginOp =>
    refine ⟨rfl, ?_⟩
    rintro - _ rfl
    rfl
  | endOp =>
    refine ⟨rfl, ?_⟩
    rintro (_ | _) later known
    · obtain rfl : later = .outer .user := known
      rfl
    · obtain ⟨log, rfl⟩ : ∃ log, later = .idle .start log 0 0 := known
      exact meets_commit log

end Meets

end OsLab.Bio
