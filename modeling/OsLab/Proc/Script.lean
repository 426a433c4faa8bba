import OsLab.Proc.Model

/-!
# What a thread of the process table knows

The view of a thread: the locks it holds, the state it has given itself and what it has learnt
about other entries.  The specification says for every operation what must be known before it and
what is known after it, and the code of every call and of the scheduler meets it.
-/

namespace OsLab.Sched

/-- How far `fork` has come with a new entry. -/
inductive Stage where
  | claimed
  | prepared
  | adopted
deriving DecidableEq

/-- What the thread of a process knows. -/
structure View where
  held : List Spinlock
  own : Procstate
  original : Option Pslot
  /-- How many entries `reparent` has found or made children of others. -/
  given : Nat
  /-- The original parent is not asleep in `wait`. -/
  woken : Bool
  child : Option Pslot
  kids : Bool
  /-- How many entries `wait` has found not to be dead children. -/
  scanned : Nat
  /-- The entry that `fork` fills. -/
  fresh : Option (Pslot × Stage)
  /-- A child that is a zombie, with its pid and its status. -/
  found : Option (Pslot × BitVec 32 × BitVec 32)

namespace View

/-- A thread without locks knows its original parent at most. -/
def base (original : Option Pslot) : View :=
  ⟨[], .running, original, 0, false, none, false, 0, none, none⟩

/-- A thread that has just been switched to holds its own lock. -/
def resumed (me : Pslot) (original : Option Pslot) : View :=
  { base original with held := [.proc me] }

/-- The locks with which a thread may wait for the lock of entry `x`. -/
def MayWait (me : Pslot) (view : View) (x : Pslot) : Prop :=
  (∀ y, .proc y ∉ view.held) ∨ (x = me ∧ ∃ q, view.original = some q ∧ view.held = [.proc q]) ∨
    (view.child = some x ∧ (view.held = [.proc me] ∨
        ∃ q, view.original = some q ∧ view.held = [.proc me, .proc q]))

/-- What an operation needs. -/
def pre (me : Pslot) : Op → View → Prop
  | .acquire l, view => view.own = .running ∧ ∀ x, l = .proc x → MayWait me view x
  | .release l, view =>
    (view.own = .running ∨ .proc me ∈ view.held.erase l) ∧ view.fresh = none
  | .ownParent p, view =>
    p = me ∧ me ≠ initproc ∧ .proc me ∈ view.held ∧ view.own = .running ∧ view.given = 0 ∧
      view.woken = false
  | .claim p, view => .proc p ∈ view.held ∧ view.own = .running ∧ view.fresh = none
  | .trapframe p, view | .initContext p, view =>
    view.own = .running ∧ view.fresh = some (p, .claimed)
  | .freeproc p, view =>
    view.own = .running ∧ ∃ stage, stage ≠ .adopted ∧ view.fresh = some (p, stage)
  | .adopt np p, view =>
    p = me ∧ view.own = .running ∧ view.fresh = some (np, .prepared) ∧ view.given = 0 ∧
      view.scanned = 0
  | .giveToInit pp, view =>
    view.child = some pp ∧ .proc pp ∈ view.held ∧ pp ≠ me ∧ me ≠ initproc ∧
      view.own = .running ∧ view.fresh = none ∧ view.found = none
  | .ready p, view =>
    view.own = .running ∧
      ((p = me ∧ .proc me ∈ view.held) ∨ (p ≠ me ∧ view.fresh = some (p, .adopted)))
  | .wakeup p _, view => .proc p ∈ view.held ∧ view.own = .running
  | .kill p _, view => .proc p ∈ view.held ∧ view.own = .running ∧ view.fresh = none
  | .zombie np, view =>
    view.child = some np ∧ .proc np ∈ view.held ∧ .proc me ∈ view.held ∧ view.own = .running
  | .reap np p pid xstate, view =>
    p = me ∧ view.found = some (np, pid, xstate) ∧ view.own = .running
  | .sleep p chan, view =>
    p = me ∧ .proc me ∈ view.held ∧ view.own = .running ∧
      ∀ x, chan = .proc x → x = me ∧ view.kids = true ∧ view.scanned = nproc
  | .clearChan p, view => p = me ∧ .proc me ∈ view.held ∧ view.own = .running
  | .die p _, view =>
    p = me ∧ me ≠ initproc ∧ .proc me ∈ view.held ∧ view.own = .running ∧
      view.given = nproc ∧ view.woken = true ∧
      ∃ q, view.original = some q ∧ .proc q ∈ view.held
  | .sched, view => view.held = [.proc me] ∧ view.own ≠ .running
  | .dispatch _, _ | .idle, _ => False
  | .panic reason, view => view.own = .running ∧ reason ≠ .schedRunning
  | _, view => view.own = .running

/-- The results that an operation can have. -/
def Told (me : Pslot) (view : View) : (op : Op) → op.Res → Prop
  | .acquire l, _ => l ∉ view.held
  | .holding l, result => result = decide (l ∈ view.held)
  | .myproc, result => result = some me
  | .claim p, result => result = true → p ≠ me
  | .panic _, _ => False
  | _, _ => True

/-- One entry further, if it is the next one. -/
def advance (count : Nat) (x : Pslot) : Nat := if x.val = count then count + 1 else count

/-- What is known after an operation. -/
def after (me : Pslot) (view : View) : (op : Op) → op.Res → View
  | .acquire l, _ => { view with held := l :: view.held }
  | .release l, _ =>
    if view.held.erase l = [] then base view.original
    else
      { view with
        held := view.held.erase l
        woken := false
        child := none
        scanned := if l = .proc me then 0 else view.scanned
        fresh := none
        found := none }
  | .parentOf p, result =>
    if view.held = [] then view
    else if result = some me then { view with child := some p }
    else
      { view with
        child := none
        given := if view.original = none then view.given else advance view.given p
        scanned :=
          if .proc me ∈ view.held then advance view.scanned p else view.scanned }
  | .ownParent _, result => { view with original := result }
  | .claim p, result => if result then { view with fresh := some (p, .claimed) } else view
  | .trapframe _, result => if result then view else { view with fresh := none }
  | .initContext p, _ => { view with fresh := some (p, .prepared) }
  | .freeproc _, _ => { view with fresh := none }
  | .adopt np _, _ => { view with fresh := some (np, .adopted) }
  | .giveToInit pp, _ =>
    { view with child := none, kids := false, given := advance view.given pp }
  | .ready p, _ =>
    if p = me then { view with own := .runnable } else { view with fresh := none }
  | .wakeup p chan, _ =>
    if chan = .proc p ∧ view.original = some p then { view with woken := true } else view
  | .zombie np, result =>
    match result with
    | some (pid, xstate) => { view with found := some (np, pid, xstate) }
    | none => { view with kids := true, scanned := advance view.scanned np }
  | .reap _ _ _ _, _ => { view with found := none, child := none, kids := false }
  | .sleep _ _, _ => { view with own := .sleeping, woken := false }
  | .die _ _, _ => { view with own := .zombie, scanned := 0 }
  | .sched, _ => resumed me view.original
  | _, _ => view

/-- The specification of the operations for the thread of a process. -/
def spec (me : Pslot) : Prog.Spec Op Op.Res View where
  pre := pre me
  post op view result later := Told me view op result ∧ later = after me view op result

/-- What holds when the code of a thread ends. -/
def Ends (me : Pslot) : Next → View → Prop
  | .user, view => view = base none
  | .waitLoop p _ _, view => p = me ∧ view = resumed me none

end View

open Prog View

attribute [local simp] View.after

section Meets

variable {me : Pslot} {α : Type} {goal : α → View → Prop} {view : View} {operation : Op}

theorem meets_op {rest : operation.Res → Code α} (needed : View.pre me operation view)
    (continues : ∀ result, Told me view operation result →
      (rest result).Meets (spec me) (after me view operation result) goal) :
    (op operation >>= rest).Meets (spec me) view goal :=
  ⟨needed, fun result _ known => known.2 ▸ continues result known.1⟩

theorem meets_to {rest : operation.Res → Code α} (later : View)
    (needed : View.pre me operation view) (known : ∀ result, after me view operation result = later)
    (continues : ∀ result, (rest result).Meets (spec me) later goal) :
    (op operation >>= rest).Meets (spec me) view goal :=
  meets_op needed fun result _ => known result ▸ continues result

theorem meets_last {goal : operation.Res → View → Prop} (needed : View.pre me operation view)
    (reached : ∀ result, Told me view operation result →
      goal result (after me view operation result)) : (op operation).Meets (spec me) view goal :=
  ⟨needed, fun result _ known => known.2 ▸ reached result known.1⟩

variable {rest : Unit → Code α}

theorem meets_panic {reason : Panic} (other : reason ≠ .schedRunning)
    (running : view.own = .running) : (panic reason >>= rest).Meets (spec me) view goal :=
  meets_op ⟨running, other⟩ fun _ impossible => impossible.elim

theorem meets_withMyproc {body : Pslot → Code Next} {goal : Next → View → Prop}
    (running : view.own = .running) (continues : (body me).Meets (spec me) view goal) :
    (withMyproc body).Meets (spec me) view goal := by
  refine meets_op running fun result told => ?_
  subst told
  exact continues

/-- The entries from number `k` on, in the order of the table. -/
def Follows : Nat → List Pslot → Prop
  | k, [] => k = nproc
  | k, x :: rest => x.val = k ∧ Follows (k + 1) rest

theorem follows_finRange : Follows 0 (List.finRange nproc) := by
  simp [Follows, List.finRange, nproc]

variable {l : Spinlock}

theorem after_release_only (only : view.held = [l]) (result : Unit) :
    after me view (.release l) result = base view.original := by
  simp [only]

theorem meets_acquire_first (running : view.own = .running) (unlocked : ∀ y, .proc y ∉ view.held)
    (continues : (rest ()).Meets (spec me) { view with held := l :: view.held } goal) :
    (acquire l >>= rest).Meets (spec me) view goal :=
  meets_op ⟨running, fun _ _ => .inl unlocked⟩ fun _ _ => continues

theorem View.release_spec (needed : view.own = .running ∨ .proc me ∈ view.held.erase l) :
    (after me view (.release l) ()).held = view.held.erase l ∧
      (after me view (.release l) ()).own = view.own ∧
      (after me view (.release l) ()).original = view.original ∧
      ((after me view (.release l) ()).held = [] →
        after me view (.release l) () = base (after me view (.release l) ()).original) := by
  by_cases last : view.held.erase l = []
  · have running : view.own = .running := needed.resolve_right (by simp [last])
    simp [last, base, running]
  · simp [last]

theorem meets_release_only (only : view.held = [l]) (running : view.own = .running)
    (settled : view.fresh = none)
    (continues : (rest ()).Meets (spec me) (base view.original) goal) :
    (release l >>= rest).Meets (spec me) view goal :=
  meets_op ⟨.inl running, settled⟩ fun _ _ => after_release_only only () ▸ continues

end Meets

section Calls

variable {me : Pslot}

attribute [local simp] base resumed

/-- A process whose `fork` has a new entry. -/
def View.filling (p : Pslot) (stage : Stage) : View :=
  { base none with held := [.proc p], fresh := some (p, stage) }

/-- What `allocproc` leaves. -/
def Allocated (me : Pslot) : Option Pslot → View → Prop
  | none, view => view = base none
  | some p, view => p ≠ me ∧ view = filling p .prepared

theorem meets_allocFrom (table : List Pslot) :
    (allocFrom table).Meets (spec me) (base none) (Allocated me) := by
  induction table with
  | nil => rfl
  | cons p rest ih =>
    refine meets_acquire_first rfl (by simp) ?_
    refine meets_op ⟨by simp, rfl, rfl⟩ fun claimed other => ?_
    cases claimed with
    | false => exact meets_release_only rfl rfl rfl ih
    | true =>
      refine meets_op ⟨rfl, rfl⟩ fun trapframe _ => ?_
      cases trapframe with
      | false => exact meets_release_only rfl rfl rfl rfl
      | true =>
        refine meets_op rfl fun pagetable _ => ?_
        cases pagetable with
        | false =>
          refine meets_op ⟨rfl, .claimed, by simp, rfl⟩ fun _ _ => ?_
          exact meets_release_only rfl rfl rfl rfl
        | true => exact meets_op ⟨rfl, rfl⟩ fun _ _ => ⟨other rfl, rfl⟩

theorem meets_fork : fork.Meets (spec me) (base none) (Ends me) := by
  refine meets_withMyproc rfl ((meets_allocFrom _).bind fun slot view allocated => ?_)
  cases slot with
  | none => exact allocated
  | some np =>
    obtain ⟨other, rfl⟩ := allocated
    refine meets_op rfl fun copied _ => ?_
    cases copied with
    | false =>
      refine meets_op ⟨rfl, .prepared, by simp, rfl⟩ fun _ _ => ?_
      exact meets_release_only rfl rfl rfl rfl
    | true =>
      refine meets_op ⟨rfl, rfl, rfl, rfl, rfl⟩ fun _ _ => ?_
      refine meets_to { base none with held := [.proc np] } ⟨rfl, .inr ⟨other, rfl⟩⟩
        (fun _ => if_neg other) fun _ => ?_
      exact meets_release_only rfl rfl rfl rfl

theorem meets_forkret : forkret.Meets (spec me) (resumed me none) (Ends me) :=
  meets_withMyproc rfl (meets_release_only rfl rfl rfl rfl)

/-- A process in `exit` that has locked its original parent and itself. -/
def View.exiting (me q : Pslot) (given scanned : Nat) (child : Option Pslot) : View :=
  { base (some q) with held := [.proc me, .proc q], given, scanned, child }

attribute [local simp] exiting

variable {child : Option Pslot} {table : List Pslot}

theorem meets_reparentFrom (q : Pslot) (notInit : me ≠ initproc) {k scanned : Nat}
    (follows : Follows k table) :
    (reparentFrom me table).Meets (spec me) (exiting me q k scanned child)
      fun _ view => ∃ scanned child, view = exiting me q nproc scanned child := by
  induction table generalizing k scanned child with
  | nil => exact ⟨scanned, child, by rw [← show k = nproc from follows]⟩
  | cons pp rest ih =>
    obtain ⟨here, later⟩ := follows
    have next : advance k pp = k + 1 := if_pos here
    refine meets_op rfl fun parent _ => ?_
    by_cases mine : parent = some me
    · rw [if_pos mine]
      refine meets_op ⟨by simp [mine], fun x here => ?_⟩ fun _ unlocked => ?_
      · cases here
        refine .inr (.inr ⟨?_, .inr ⟨q, ?_, ?_⟩⟩) <;> simp [mine]
      have other : pp ≠ me := by
        intro same
        simp [Told, after, mine, same] at unlocked
      have known : after me (after me (exiting me q k scanned child) (.parentOf pp) parent)
          (.acquire (.proc pp)) () =
          { exiting me q k scanned (some pp) with held := [.proc pp, .proc me, .proc q] } := by
        simp [mine]
      refine known ▸ meets_to { exiting me q (k + 1) scanned none with
          held := [.proc pp, .proc me, .proc q] }
        ⟨rfl, by simp, other, notInit, rfl, rfl, rfl⟩ (fun _ => ?_) fun _ => ?_
      · simp [next]
      refine meets_to (exiting me q (k + 1) scanned none)
        ⟨.inl rfl, by simp⟩ (fun _ => ?_) fun _ => ih later
      simp [other]
    · rw [if_neg mine]
      have known : after me (exiting me q k scanned child) (.parentOf pp) parent =
          exiting me q (k + 1) (advance scanned pp) none := by
        simp [mine, next]
      exact known ▸ ih later

/-- What `exit` knows when it becomes a zombie. -/
theorem meets_exitLocked {q : Pslot} (notInit : me ≠ initproc) (status : BitVec 32) :
    (exitLocked me q status).Meets (spec me) (exiting me q 0 0 none) (Ends me) := by
  refine (meets_reparentFrom q notInit follows_finRange).bind fun _ view given => ?_
  obtain ⟨scanned, child, rfl⟩ := given
  refine meets_op rfl fun holding told => ?_
  have locked : holding = true := told.trans (by simp)
  subst locked
  refine meets_to { exiting me q nproc scanned child with woken := true }
    ⟨by simp, rfl⟩ (by simp) fun _ => ?_
  refine meets_op ⟨rfl, notInit, by simp, rfl, rfl, rfl, q, rfl, by simp⟩ fun _ _ => ?_
  have own : Spinlock.proc me ∈ [Spinlock.proc me, .proc q].erase (.proc q) := by
    by_cases same : me = q <;> simp [same]
  refine meets_op ⟨.inr own, by simp⟩ fun _ _ => ?_
  refine meets_op ⟨?_, ?_⟩ fun _ _ => meets_panic (by simp) rfl
  all_goals by_cases same : me = q <;> simp [same]

theorem meets_wakeup1_other {x : Pslot} {view : View} {α : Type} {rest : Unit → Code α}
    {goal : α → View → Prop} (locked : .proc x ∈ view.held) (running : view.own = .running)
    (apart : view.original ≠ some x) (continues : (rest ()).Meets (spec me) view goal) :
    (wakeup1 x >>= rest).Meets (spec me) view goal := by
  refine meets_op running fun holding told => ?_
  have here : holding = true := told.trans (by simp [locked])
  subst here
  exact meets_to view ⟨locked, running⟩ (by simp [apart]) fun _ => continues

theorem meets_exit (status : BitVec 32) :
    (Sched.exit status).Meets (spec me) (base none) (Ends me) := by
  refine meets_withMyproc rfl ?_
  by_cases isInit : me = initproc
  · rw [if_pos isInit]
    exact meets_panic (by simp) rfl
  rw [if_neg isInit]
  refine meets_acquire_first rfl (by simp) ?_
  refine meets_wakeup1_other (by simp) rfl (by simp) ?_
  refine meets_release_only rfl rfl rfl ?_
  refine meets_acquire_first rfl (by simp) ?_
  refine meets_op ⟨rfl, isInit, by simp, rfl, rfl, rfl⟩ fun parent _ => ?_
  refine meets_release_only rfl rfl rfl ?_
  cases parent with
  | none => exact meets_panic (by simp) rfl
  | some q =>
    refine meets_acquire_first rfl (by simp) ?_
    refine meets_op ⟨rfl, fun x own => ?_⟩ fun _ _ => meets_exitLocked isInit status
    cases own
    exact .inr (.inl ⟨rfl, q, rfl, rfl⟩)

/-- A process in `wait` that holds its lock. -/
def View.waiting (me : Pslot) (kids : Bool) (scanned : Nat) (child : Option Pslot) : View :=
  { base none with held := [.proc me], kids, scanned, child }

/-- What the scan of `wait` leaves. -/
def Scanned (me : Pslot) : Scan → View → Prop
  | .returned, view => view = base none
  | .scanned havekids, view => ∃ child, view = waiting me havekids nproc child

theorem meets_waitReturn {np : Pslot} {view : View} (locked : view.held = [.proc np, .proc me])
    (running : view.own = .running) (known : view.original = none) (settled : view.fresh = none) :
    (do release (.proc np); release (.proc me); return Scan.returned).Meets (spec me) view
      (Scanned me) := by
  refine meets_op ⟨.inl running, settled⟩ fun _ _ => ?_
  refine meets_release_only ?_ ?_ ?_ ?_
  · simp [locked]
  · simp [locked, running]
  · simp [locked]
  · simp only [View.after, locked, List.erase_cons_head, reduceCtorEq, if_false, known]
    rfl

theorem meets_waitFound {np : Pslot} (kids : Bool) (scanned : Nat) (child : Option Pslot)
    (addr : Bool) (pid xstate : BitVec 32) :
    (waitFound me np addr pid xstate).Meets (spec me) { waiting me kids scanned child with
        held := [.proc np, .proc me]
        found := some (np, pid, xstate) } (Scanned me) := by
  have copied : (if addr then op .succeeds else pure true : Code Bool).Meets (spec me)
      { waiting me kids scanned child with
        held := [.proc np, .proc me]
        found := some (np, pid, xstate) }
      fun _ view => view = { waiting me kids scanned child with
          held := [.proc np, .proc me]
          found := some (np, pid, xstate) } := by
    cases addr with
    | false => rfl
    | true => exact meets_last rfl fun _ _ => rfl
  refine copied.bind fun success view unchanged => ?_
  subst unchanged
  cases success with
  | false => exact meets_waitReturn rfl rfl rfl rfl
  | true =>
    refine meets_op ⟨rfl, rfl, rfl⟩ fun _ _ => ?_
    exact meets_waitReturn rfl rfl rfl rfl

theorem meets_waitFrom (addr : Bool) {havekids : Bool} {k : Nat} (follows : Follows k table) :
    (waitFrom me addr havekids table).Meets (spec me) (waiting me havekids k child)
      (Scanned me) := by
  induction table generalizing k child havekids with
  | nil => exact ⟨child, by rw [← show k = nproc from follows]⟩
  | cons np rest ih =>
    obtain ⟨here, later⟩ := follows
    have next : advance k np = k + 1 := if_pos here
    refine meets_op rfl fun parent _ => ?_
    by_cases mine : parent = some me
    · rw [if_pos mine]
      refine meets_op ⟨by simp [mine, waiting], fun x here => ?_⟩ fun _ unlocked => ?_
      · cases here
        exact .inr (.inr ⟨by simp [mine, waiting], .inl (by simp [mine, waiting])⟩)
      have other : np ≠ me := by
        simpa [Told, after, mine, waiting] using unlocked
      have known : after me (after me (waiting me havekids k child) (.parentOf np) parent)
          (.acquire (.proc np)) () =
          { waiting me havekids k (some np) with held := [.proc np, .proc me] } := by
        simp [mine, waiting]
      refine known ▸ meets_op ⟨rfl, by simp, by simp, rfl⟩ fun zombie _ => ?_
      cases zombie with
      | some status =>
        exact meets_waitFound havekids k (some np) addr status.1 status.2
      | none =>
        refine meets_to (waiting me true (k + 1) none)
          ⟨.inl rfl, by simp [waiting]⟩ ?_ fun _ => ih later
        simp [waiting, next, other]
    · rw [if_neg mine]
      have known : after me (waiting me havekids k child) (.parentOf np) parent =
          waiting me havekids (k + 1) none := by
        simp [waiting, mine, next]
      exact known ▸ ih later

theorem meets_waitRound (addr flags : Bool) :
    (waitRound me addr flags).Meets (spec me) (resumed me none) (Ends me) := by
  refine (meets_waitFrom addr follows_finRange).bind fun scan view scanned => ?_
  cases scan with
  | returned => exact scanned
  | scanned havekids =>
    obtain ⟨child, rfl⟩ := scanned
    refine meets_op rfl fun killed _ => ?_
    split
    · exact meets_release_only rfl rfl rfl rfl
    split
    · exact meets_release_only rfl rfl rfl rfl
    rename_i goes _
    have kids : havekids = true := by simp_all
    refine meets_op ⟨rfl, by simp [waiting], rfl, fun x here => ?_⟩ fun _ _ => ?_
    · cases here
      exact ⟨rfl, kids, rfl⟩
    refine meets_op ⟨rfl, by simp⟩ fun _ _ => ?_
    exact meets_op ⟨rfl, by simp, rfl⟩ fun _ _ => ⟨rfl, rfl⟩

theorem meets_wait (addr flags : Bool) :
    (Sched.wait addr flags).Meets (spec me) (base none) (Ends me) :=
  meets_withMyproc rfl (meets_acquire_first rfl (by simp) (meets_waitRound addr flags))

theorem meets_yield (original : Option Pslot) :
    Sched.yield.Meets (spec me) (base original) fun _ view => view = base original := by
  refine meets_op rfl fun result told => ?_
  subst told
  refine meets_acquire_first rfl (by simp) ?_
  refine meets_op ⟨rfl, .inl ⟨rfl, by simp⟩⟩ fun _ _ => ?_
  refine meets_op ⟨by simp, by simp⟩ fun _ _ => ?_
  refine meets_last ⟨.inl rfl, by simp⟩ fun _ _ => ?_
  simp

theorem meets_sysYieldFrom (table : List Pslot) :
    (sysYieldFrom table).Meets (spec me) (base none) fun _ view => view = base none := by
  induction table with
  | nil => rfl
  | cons pp rest ih =>
    refine meets_acquire_first rfl (by simp) ?_
    refine meets_op rfl fun found _ => ?_
    refine meets_release_only rfl rfl rfl ?_
    cases found with
    | false => exact ih
    | true => rfl

theorem meets_sysYield : sysYield.Meets (spec me) (base none) (Ends me) := by
  refine meets_withMyproc rfl ((meets_sysYieldFrom _).bind fun _ view unchanged => ?_)
  subst unchanged
  refine meets_acquire_first rfl (by simp) ?_
  refine meets_op ⟨rfl, .inl ⟨rfl, by simp⟩⟩ fun _ _ => ?_
  refine meets_op ⟨by simp, by simp⟩ fun _ _ => ?_
  refine meets_release_only rfl rfl rfl ?_
  simp only [View.after, if_true]
  rfl

theorem meets_sleep (chan lk : Nat) :
    (Sched.sleep chan lk).Meets (spec me) (base none) (Ends me) := by
  refine meets_withMyproc rfl ?_
  refine meets_acquire_first rfl (by simp) ?_
  refine meets_acquire_first rfl (by simp) ?_
  refine meets_to (resumed me none) ⟨.inl rfl, by simp⟩ (fun _ => ?_) fun _ => ?_
  · simp
  refine meets_op ⟨rfl, by simp, rfl, fun _ impossible => by cases impossible⟩ fun _ _ => ?_
  refine meets_op ⟨rfl, by simp⟩ fun _ _ => ?_
  refine meets_op ⟨rfl, by simp, rfl⟩ fun _ _ => ?_
  refine meets_release_only rfl rfl rfl ?_
  refine meets_acquire_first rfl (by simp) ?_
  exact meets_release_only rfl rfl rfl rfl

theorem meets_wakeupFrom (chan : Nat) (table : List Pslot) :
    (wakeupFrom chan table).Meets (spec me) (base none) (Ends me) := by
  induction table with
  | nil => rfl
  | cons p rest ih =>
    refine meets_acquire_first rfl (by simp) ?_
    refine meets_to { base none with held := [.proc p] } ⟨by simp, rfl⟩ (by simp) fun _ => ?_
    exact meets_release_only rfl rfl rfl ih

theorem meets_killFrom (pid : BitVec 32) (table : List Pslot) :
    (killFrom pid table).Meets (spec me) (base none) (Ends me) := by
  induction table with
  | nil => rfl
  | cons p rest ih =>
    refine meets_acquire_first rfl (by simp) ?_
    refine meets_op ⟨by simp, rfl, rfl⟩ fun found _ => ?_
    cases found with
    | false => exact meets_release_only rfl rfl rfl ih
    | true => exact meets_release_only rfl rfl rfl rfl

theorem Call.code_meets (request : Call) : request.code.Meets (spec me) (base none) (Ends me) := by
  cases request with
  | fork => exact meets_fork
  | exit status => exact meets_exit status
  | wait addr flags => exact meets_wait addr flags
  | kill pid => exact meets_killFrom pid _
  | yield => exact (meets_yield none).bind fun _ _ unchanged => unchanged
  | sysYield => exact meets_sysYield
  | sleep chan lk => exact meets_sleep chan lk
  | wakeup chan => exact meets_wakeupFrom chan _

end Calls

/-- What the scheduler of a CPU knows: its locks and `c->proc`. -/
structure Pass where
  held : List Spinlock
  proc : Option Pslot

namespace Pass

/-- Between two entries. -/
def base : Pass := ⟨[], none⟩

/-- What an operation of the scheduler needs. -/
def pre : Op → Pass → Prop
  | .acquire l, pass => pass = base ∧ ∃ p, l = .proc p
  | .release l, pass => pass = ⟨[l], none⟩
  | .dispatch p, pass => pass = ⟨[.proc p], none⟩
  | .idle, pass => ∃ p, pass = ⟨[.proc p], some p⟩
  | _, _ => False

/-- What the scheduler knows after an operation. -/
def after (pass : Pass) : (op : Op) → op.Res → Pass
  | .acquire l, _ => ⟨[l], none⟩
  | .release _, _ => base
  | .dispatch p, result => if result then ⟨[.proc p], some p⟩ else pass
  | .idle, _ => { pass with proc := none }
  | _, _ => pass

/-- The specification of the operations for the scheduler. -/
def spec : Prog.Spec Op Op.Res Pass where
  pre := pre
  post op pass result later := later = after pass op result

end Pass

theorem schedulerFrom_meets (table : List Pslot) :
    (schedulerFrom table).Meets Pass.spec Pass.base fun _ pass => pass = Pass.base := by
  induction table with
  | nil => rfl
  | cons p rest ih =>
    refine ⟨⟨rfl, p, rfl⟩, fun _ _ locked => ?_⟩
    subst locked
    refine ⟨rfl, fun chosen _ known => ?_⟩
    subst known
    cases chosen with
    | false => exact ⟨rfl, fun _ _ given => given ▸ ih⟩
    | true =>
      refine ⟨⟨p, rfl⟩, fun _ _ known => ?_⟩
      subst known
      exact ⟨rfl, fun _ _ given => given ▸ ih⟩

end OsLab.Sched
