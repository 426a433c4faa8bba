import OsLab.Proc.Runs

/-!
# Exits and reports

The history of a run: which process created which, which called `exit`, and which `wait` returned
which status.  A process that has exited is reported at most once, to its creator or to `init`
after the creator has called `exit`, with the status that it passed to `exit`.
-/

namespace OsLab.Sched

open Prog View Function List

/-- The process that an event is about. -/
def Event.child : Event → Nat
  | .forked child _ => child
  | .called child _ => child
  | .exited child _ _ => child
  | .reported child _ _ _ => child

/-- What the history says of a report and of what came before it. -/
def Reported (earlier : List Event) (child : Nat) (pid status : BitVec 32) (waiter : Nat) : Prop :=
  .exited child pid status ∈ earlier ∧ .called child status ∈ earlier ∧
    (∀ pid' status' waiter', .reported child pid' status' waiter' ∉ earlier) ∧
    ∃ creator, .forked child creator ∈ earlier ∧
      (waiter = creator ∨ (waiter = Proc.init.birth ∧ ∃ last, .called creator last ∈ earlier))

/-- An event that can follow what came before it. -/
def New (earlier : List Event) : Event → Prop
  | .forked child _ => ∀ creator, .forked child creator ∉ earlier
  | .called child _ => ∀ last, .called child last ∉ earlier
  | .exited child _ _ => ∀ pid last, .exited child pid last ∉ earlier
  | .reported child pid status waiter => Reported earlier child pid status waiter

/-- Only the code of `exit` gives children to `init`, and it dies with the status it was called
with. -/
def statusSpec (status : Option (BitVec 32)) : Prog.Spec Op Op.Res Unit where
  pre op _ :=
    match op with
    | .die _ last => status = some last
    | .giveToInit _ => status ≠ none
    | _ => True
  post op _ _ _ :=
    match op with
    | .panic _ => False
    | _ => True

/-- The code belongs to a call of `exit` with this status, or to none; in the first case it never
returns. -/
def Carries {α : Type} (status : Option (BitVec 32)) (code : Code α) : Prop :=
  code.Meets (statusSpec status) () fun _ _ => status = none

/-- The code is part of a call. -/
def Part {α : Type} (status : Option (BitVec 32)) (code : Code α) : Prop :=
  code.Meets (statusSpec status) () fun _ _ => True

/-- The status with which a call of `exit` is made. -/
def Call.status : Call → Option (BitVec 32)
  | .exit last => some last
  | _ => none

section Status

variable {status : Option (BitVec 32)} {α β : Type} {first : Code α} {rest : α → Code β}

theorem Part.bind (part : Part status first) (continues : ∀ result, Carries status (rest result)) :
    Carries status (first >>= rest) :=
  Meets.bind part fun result _ _ => continues result

theorem carries_panic (reason : Panic) (rest : Unit → Code α) :
    Carries status (panic reason >>= rest) :=
  ⟨trivial, fun _ _ impossible => impossible.elim⟩

theorem Part.carries {code : Code α} (part : Part none code) : Carries none code :=
  Meets.mono part fun _ _ _ => rfl

theorem carries_withMyproc {body : Pslot → Code Next} (continues : ∀ p, Carries status (body p)) :
    Carries status (withMyproc body) := by
  refine ⟨trivial, fun current _ _ => ?_⟩
  cases current with
  | some p => exact continues p
  | none => exact carries_panic _ _

theorem part_allocFrom (table : List Pslot) : Part status (allocFrom table) := by
  induction table with
  | nil => trivial
  | cons p rest ih =>
    repeat' first
      | exact ih
      | trivial
      | refine ⟨trivial, fun _ _ _ => ?_⟩
      | cases ‹Bool›

theorem carries_fork : Carries none Sched.fork := by
  refine carries_withMyproc fun p => (part_allocFrom _).bind fun slot => ?_
  cases slot with
  | none => rfl
  | some np =>
    repeat' first
      | rfl
      | refine ⟨trivial, fun _ _ _ => ?_⟩
      | cases ‹Bool›

theorem carries_forkret : Carries none forkret :=
  carries_withMyproc fun _ => ⟨trivial, fun _ _ _ => rfl⟩

theorem part_wakeup1 (p : Pslot) : Part status (wakeup1 p) := by
  refine ⟨trivial, fun holding _ _ => ?_⟩
  cases holding with
  | false => exact ⟨trivial, fun _ _ _ => trivial⟩
  | true => exact ⟨trivial, fun _ _ _ => trivial⟩

theorem part_reparentFrom (p : Pslot) (last : BitVec 32) (table : List Pslot) :
    Part (some last) (reparentFrom p table) := by
  induction table with
  | nil => trivial
  | cons pp rest ih =>
    refine ⟨trivial, fun parent _ _ => ?_⟩
    change Part (some last) (if parent = some p then _ else _)
    split
    · exact ⟨trivial, fun _ _ _ => ⟨Option.some_ne_none last, fun _ _ _ =>
        ⟨trivial, fun _ _ _ => ih⟩⟩⟩
    · exact ih

theorem carries_exit (last : BitVec 32) : Carries (some last) (Sched.exit last) := by
  refine carries_withMyproc fun p => ?_
  split
  · exact carries_panic _ _
  refine ⟨trivial, fun _ _ _ => (part_wakeup1 initproc).bind fun _ => ?_⟩
  iterate 2 refine ⟨trivial, fun _ _ _ => ?_⟩
  refine ⟨trivial, fun parent _ _ => ⟨trivial, fun _ _ _ => ?_⟩⟩
  cases parent with
  | none => exact carries_panic _ _
  | some q =>
    iterate 2 refine ⟨trivial, fun _ _ _ => ?_⟩
    refine (part_reparentFrom p last _).bind fun _ => (part_wakeup1 q).bind fun _ => ?_
    refine ⟨rfl, fun _ _ _ => ?_⟩
    iterate 2 refine ⟨trivial, fun _ _ _ => ?_⟩
    exact carries_panic _ _

theorem part_waitFrom (p : Pslot) (addr havekids : Bool) (table : List Pslot) :
    Part status (waitFrom p addr havekids table) := by
  induction table generalizing havekids with
  | nil => trivial
  | cons np rest ih =>
    refine ⟨trivial, fun parent _ _ => ?_⟩
    change Part status (if parent = some p then _ else _)
    split
    · refine ⟨trivial, fun _ _ _ => ⟨trivial, fun zombie _ _ => ?_⟩⟩
      cases zombie with
      | none => exact ⟨trivial, fun _ _ _ => ih true⟩
      | some found =>
        cases addr <;> repeat' first
          | trivial
          | refine ⟨trivial, fun _ _ _ => ?_⟩
          | cases ‹Bool›
    · exact ih havekids

theorem carries_waitRound (p : Pslot) (addr flags : Bool) :
    Carries none (waitRound p addr flags) := by
  refine (part_waitFrom p addr false _).bind fun scan => ?_
  cases scan with
  | returned => rfl
  | scanned havekids =>
    refine ⟨trivial, fun killed _ _ => ?_⟩
    change Carries none (if !havekids || killed then _ else if flags then _ else _)
    split_ifs
    all_goals
      repeat refine ⟨trivial, fun _ _ _ => ?_⟩
      rfl

theorem part_yield : Part status Sched.yield := by
  refine ⟨trivial, fun current _ _ => ?_⟩
  cases current with
  | none => exact ⟨trivial, fun _ _ _ => trivial⟩
  | some p =>
    repeat refine ⟨trivial, fun _ _ _ => ?_⟩
    trivial

theorem part_sysYieldFrom (table : List Pslot) : Part status (sysYieldFrom table) := by
  induction table with
  | nil => trivial
  | cons pp rest ih =>
    refine ⟨trivial, fun _ _ _ => ⟨trivial, fun found _ _ => ⟨trivial, fun _ _ _ => ?_⟩⟩⟩
    cases found with
    | false => exact ih
    | true => trivial

theorem part_wakeupFrom (chan : Nat) (table : List Pslot) :
    Part status (wakeupFrom chan table) := by
  induction table with
  | nil => trivial
  | cons p rest ih =>
    iterate 3 refine ⟨trivial, fun _ _ _ => ?_⟩
    exact ih

theorem part_killFrom (pid : BitVec 32) (table : List Pslot) :
    Part status (killFrom pid table) := by
  induction table with
  | nil => trivial
  | cons p rest ih =>
    refine ⟨trivial, fun _ _ _ => ⟨trivial, fun found _ _ => ?_⟩⟩
    cases found with
    | false => exact ⟨trivial, fun _ _ _ => ih⟩
    | true => exact ⟨trivial, fun _ _ _ => trivial⟩

theorem Call.carries (request : Call) : Carries request.status request.code := by
  cases request with
  | fork => exact carries_fork
  | exit last => exact carries_exit last
  | wait addr flags =>
    exact carries_withMyproc fun p => ⟨trivial, fun _ _ _ => carries_waitRound p addr flags⟩
  | kill pid => exact (part_killFrom pid _).carries
  | yield => exact part_yield.bind fun _ => rfl
  | sysYield =>
    refine carries_withMyproc fun p => (part_sysYieldFrom _).bind fun _ => ?_
    repeat refine ⟨trivial, fun _ _ _ => ?_⟩
    rfl
  | sleep chan lk =>
    refine carries_withMyproc fun p => ?_
    repeat refine ⟨trivial, fun _ _ _ => ?_⟩
    rfl
  | wakeup chan => exact (part_wakeupFrom chan _).carries

end Status

variable {Cpu : Type*}

/-- What the history of a run says of the table. -/
structure Recorded (s : State Cpu) : Prop where
  counts : 0 < s.nextpid
  bound : ∀ x, (s.proc x).birth < s.nextpid
  distinct : ∀ x y, (s.proc x).birth = (s.proc y).birth → (s.proc x).birth = 0 ∨ x = y
  initBirth : (s.proc initproc).birth = Proc.init.birth
  used : ∀ x, (s.proc x).state ≠ .unused → (s.proc x).birth ≠ 0
  rooted : ∀ x, x ≠ initproc → (s.proc x).state ≠ .unused → (s.proc x).parent ≠ none
  events : ∀ e ∈ s.history, 0 < e.child ∧ e.child < s.nextpid
  unforked : ∀ x creator, (s.proc x).parent = none → .forked (s.proc x).birth creator ∉ s.history
  forked : ∀ x, (s.proc x).parent ≠ none → .forked (s.proc x).birth (s.proc x).creator ∈ s.history
  kin : ∀ x q, (s.proc x).parent = some q → (s.proc q).birth = (s.proc x).creator ∨
    (q = initproc ∧ ∃ last, .called (s.proc x).creator last ∈ s.history)
  uncalled : ∀ x, (s.proc x).state = .unused → ∀ last, .called (s.proc x).birth last ∉ s.history
  alive : ∀ x, (s.proc x).state ≠ .zombie → ∀ pid last,
    .exited (s.proc x).birth pid last ∉ s.history
  dead : ∀ x, (s.proc x).state = .zombie →
    .exited (s.proc x).birth (s.proc x).pid (s.proc x).xstate ∈ s.history ∧
      .called (s.proc x).birth (s.proc x).xstate ∈ s.history
  unreported : ∀ x pid last waiter, .reported (s.proc x).birth pid last waiter ∉ s.history
  fresh : ∀ e earlier, e :: earlier <:+ s.history → New earlier e

/-- A step that the history does not notice. -/
structure Silent (s t : State Cpu) : Prop where
  history : t.history = s.history
  pids : t.nextpid = s.nextpid
  birth : ∀ x, (t.proc x).birth = (s.proc x).birth
  creator : ∀ x, (t.proc x).creator = (s.proc x).creator
  parent : ∀ x, (t.proc x).parent = (s.proc x).parent
  zombie : ∀ x, (t.proc x).state = .zombie ↔ (s.proc x).state = .zombie
  frozen : ∀ x, (s.proc x).state = .zombie →
    (t.proc x).pid = (s.proc x).pid ∧ (t.proc x).xstate = (s.proc x).xstate
  unused : ∀ x, (t.proc x).state = .unused → (s.proc x).state = .unused
  used : ∀ x, (t.proc x).state ≠ .unused → (s.proc x).state ≠ .unused ∨ (s.proc x).parent ≠ none

section Record

variable {s t : State Cpu}

theorem Silent.of_proc (proc : t.proc = s.proc) (history : t.history = s.history)
    (pids : t.nextpid = s.nextpid) : Silent s t :=
  ⟨history, pids, fun x => by rw [proc], fun x => by rw [proc], fun x => by rw [proc],
    fun x => by rw [proc], fun x _ => by rw [proc]; exact ⟨rfl, rfl⟩,
    fun x => by rw [proc]; exact id,
    fun x => by rw [proc]; exact .inl⟩

/-- A step that changes the state of one entry, and its channel or `killed`. -/
theorem Silent.of_modify {x : Pslot} {f : Proc} (proc : t.proc = update s.proc x f)
    (history : t.history = s.history) (pids : t.nextpid = s.nextpid)
    (birth : f.birth = (s.proc x).birth) (creator : f.creator = (s.proc x).creator)
    (parent : f.parent = (s.proc x).parent)
    (zombie : f.state = .zombie ↔ (s.proc x).state = .zombie)
    (frozen : f.pid = (s.proc x).pid ∧ f.xstate = (s.proc x).xstate)
    (unused : f.state = .unused → (s.proc x).state = .unused)
    (used : f.state ≠ .unused → (s.proc x).state ≠ .unused ∨ (s.proc x).parent ≠ none) :
    Silent s t := by
  exact ⟨history, pids, fun y => update_cases proc y birth fun _ _ => rfl,
    fun y => update_cases proc y creator fun _ _ => rfl,
    fun y => update_cases proc y parent fun _ _ => rfl,
    fun y => update_cases proc y zombie fun _ _ => .rfl,
    fun y => update_cases proc y (fun _ => frozen) fun _ _ _ => ⟨rfl, rfl⟩,
    fun y => update_cases proc y unused fun _ _ => id,
    fun y => update_cases proc y used fun _ _ => .inl⟩

section

variable (inv : Recorded s)
include inv

theorem Recorded.silent (silent : Silent s t) : Recorded t where
  counts := silent.pids ▸ inv.counts
  bound x := by
    rw [silent.birth, silent.pids]
    exact inv.bound x
  distinct x y := by
    rw [silent.birth, silent.birth]
    exact inv.distinct x y
  initBirth := (silent.birth _).trans inv.initBirth
  used x used := by
    rw [silent.birth]
    rcases silent.used x used with used | child
    · exact inv.used x used
    · have known := (inv.events _ (inv.forked x child)).1
      exact known.ne'
  rooted x notInit used := by
    rw [silent.parent]
    rcases silent.used x used with used | child
    · exact inv.rooted x notInit used
    · exact child
  events := by
    rw [silent.history, silent.pids]
    exact inv.events
  unforked x creator := by
    rw [silent.parent, silent.birth, silent.history]
    exact inv.unforked x creator
  forked x := by
    rw [silent.parent, silent.birth, silent.creator, silent.history]
    exact inv.forked x
  kin x q := by
    rw [silent.parent, silent.birth, silent.creator, silent.history]
    exact inv.kin x q
  uncalled x unused := by
    rw [silent.birth, silent.history]
    exact inv.uncalled x (silent.unused x unused)
  alive x living := by
    rw [silent.birth, silent.history]
    exact inv.alive x fun dead => living ((silent.zombie x).mpr dead)
  dead x dead := by
    have before := (silent.zombie x).mp dead
    rw [silent.birth, silent.history, (silent.frozen x before).1, (silent.frozen x before).2]
    exact inv.dead x before
  unreported x := by
    rw [silent.birth, silent.history]
    exact inv.unreported x
  fresh := by
    rw [silent.history]
    exact inv.fresh

/-- A step that changes one entry and records one event about its process at most. -/
theorem Recorded.update (added : Option Event) {x : Pslot} {f : Proc}
    (proc : t.proc = update s.proc x f) (history : t.history = added.toList ++ s.history)
    (pids : s.nextpid ≤ t.nextpid)
    (new : ∀ e, added = some e → New s.history e ∧ e.child = (s.proc x).birth ∧
      (s.proc x).birth ≠ 0) (bound : f.birth < t.nextpid)
    (birth : f.birth = 0 ∨ f.birth = (s.proc x).birth ∨ f.birth = s.nextpid)
    (initBirth : x = initproc → f.birth = Proc.init.birth) (used : f.state ≠ .unused → f.birth ≠ 0)
    (rooted : x ≠ initproc → f.state ≠ .unused → f.parent ≠ none)
    (unforked : f.parent = none → ∀ creator, .forked f.birth creator ∉ t.history)
    (forked : f.parent ≠ none → .forked f.birth f.creator ∈ t.history)
    (kin : ∀ q, f.parent = some q → (t.proc q).birth = f.creator ∨ (q = initproc ∧
      ∃ last, .called f.creator last ∈ t.history))
    (children : f.birth = (s.proc x).birth ∨ ∀ y, (s.proc y).parent ≠ some x)
    (uncalled : f.state = .unused → ∀ last, .called f.birth last ∉ t.history)
    (alive : f.state ≠ .zombie → ∀ pid last, .exited f.birth pid last ∉ t.history)
    (dead : f.state = .zombie → .exited f.birth f.pid f.xstate ∈ t.history ∧
      .called f.birth f.xstate ∈ t.history)
    (unreported : ∀ pid last waiter, .reported f.birth pid last waiter ∉ t.history) :
    Recorded t := by
  have kept : ∀ {e}, e ∈ s.history → e ∈ t.history := fun {e} old => by
    rw [history]
    exact mem_append_right _ old
  -- an event about another process is an old one
  have old : ∀ y, y ≠ x → ∀ e : Event, e.child = (s.proc y).birth → e ∈ t.history →
      e ∈ s.history := by
    intro y other e about known
    rw [history, mem_append] at known
    refine known.resolve_left fun latest => ?_
    obtain ⟨-, same, real⟩ := new e (by simpa using latest)
    have clash := inv.distinct x y (same.symm.trans about)
    exact clash.elim real fun equal => other equal.symm
  exact {
    counts := inv.counts.trans_le pids
    bound := fun y => update_cases proc y bound fun y _ => (inv.bound y).trans_le pids
    distinct := by
      have apart : ∀ y, y ≠ x → (s.proc y).birth = f.birth → f.birth = 0 := by
        intro y other clash
        rcases birth with zero | same | new
        · exact zero
        · rcases inv.distinct y x (clash.trans same) with zero | equal
          · exact clash.symm.trans zero
          · exact absurd equal other
        · exact absurd (clash.trans new) (inv.bound y).ne
      refine fun y z => update_cases proc y ?_ fun y first => ?_
      · exact update_cases proc z (fun _ => .inr rfl) fun z second clash =>
          .inl (apart z second clash.symm)
      · exact update_cases proc z (fun clash => .inl (clash.trans (apart y first clash)))
          fun z _ => inv.distinct y z
    initBirth := by
      rw [proc, update_apply]
      split
      · next same => exact initBirth same.symm
      · exact inv.initBirth
    used := fun y => update_cases proc y used fun y _ => inv.used y
    rooted := fun y => update_cases proc y rooted fun y _ => inv.rooted y
    events := fun e known => by
      rw [history, mem_append] at known
      rcases known with latest | known
      · obtain ⟨-, about, real⟩ := new e (by simpa using latest)
        rw [about]
        exact ⟨Nat.pos_of_ne_zero real, (inv.bound x).trans_le pids⟩
      · exact ⟨(inv.events e known).1, (inv.events e known).2.trans_le pids⟩
    unforked := fun y creator => update_cases proc y (fun orphan => unforked orphan creator)
      fun y other orphan known => inv.unforked y creator orphan (old y other _ rfl known)
    forked := fun y => update_cases proc y forked fun y _ child => kept (inv.forked y child)
    kin := fun y q => update_cases proc y (kin q) fun y _ child => by
      have sameBirth : (t.proc q).birth = (s.proc q).birth := by
        rw [proc, update_apply]
        split
        · rename_i equal
          rw [equal]
          exact children.resolve_right fun none => none y (equal ▸ child)
        · rfl
      rw [sameBirth]
      refine (inv.kin y q child).imp_right ?_
      rintro ⟨isInit, last, known⟩
      exact ⟨isInit, last, kept known⟩
    uncalled := fun y => update_cases proc y uncalled fun y other unused last known =>
      inv.uncalled y unused last (old y other _ rfl known)
    alive := fun y => update_cases proc y alive fun y other living pid last known =>
      inv.alive y living pid last (old y other _ rfl known)
    dead := fun y => update_cases proc y dead fun y _ dead =>
      ⟨kept (inv.dead y dead).1, kept (inv.dead y dead).2⟩
    unreported := fun y pid last waiter => update_cases proc y (unreported pid last waiter)
      fun y other known => inv.unreported y pid last waiter (old y other _ rfl known)
    fresh := fun e earlier suffix => by
      rw [history] at suffix
      cases added with
      | none => exact inv.fresh e earlier suffix
      | some latest =>
        rcases suffix_cons_iff.mp suffix with whole | inner
        · cases whole
          exact (new e rfl).1
        · exact inv.fresh e earlier inner }

theorem Recorded.not_mem_zero {e : Event} (zero : e.child = 0) :
    e ∉ s.history := fun known => (inv.events e known).1.ne' zero

theorem Recorded.not_mem_next {e : Event} (next : e.child = s.nextpid) :
    e ∉ s.history := fun known => (inv.events e known).2.ne next

end

end Record

/-- The threads that can still run carry the status of the `exit` that they have called. -/
def Statuses (s : State Cpu) : Prop :=
  ∀ p, (s.proc p).state ≠ .unused → (s.proc p).state ≠ .zombie →
    ∃ status, Carries status (s.todo p) ∧
      ∀ last, .called (s.proc p).birth last ∈ s.history ↔ status = some last

section Operations

variable [DecidableEq Cpu] {s t : State Cpu} {c : Cpu} {p x : Pslot} {view : Cpu → View}
  {pass : Cpu → Pass} {outcome : Bool} {np : Pslot} {last status : BitVec 32} {op : Op}
  {result : op.Res}

omit [DecidableEq Cpu] in
theorem Table.ne_init (table : Table s view) (unused : (s.proc x).state = .unused) :
    x ≠ initproc := by
  rintro rfl
  exact table.initUsed.1 unused

section

variable (inv : Recorded s)
include inv

theorem Recorded.claim (c : Cpu) (outcome : Bool) (table : Table s view)
    (unused : (s.proc x).state = .unused) (alone : (s.proc x).parent = none) :
    Recorded (effect s c outcome (.claim x)).1 := by
  rw [show effect s c outcome (.claim x) = _ from if_pos unused]
  have notInit := table.ne_init unused
  refine inv.update none rfl rfl (Nat.le_succ _) (by simp) (Nat.lt_succ_self _)
    (.inr (.inr rfl)) (absurd · notInit) (absurd unused ·)
    (fun _ used => absurd unused used) (fun _ _ => inv.not_mem_next rfl)
    (absurd alone ·) (fun q child => ?_) (.inr (table.childless x (.inl unused)))
    (fun _ _ => inv.not_mem_next rfl) (fun _ _ _ => inv.not_mem_next rfl)
    (fun dead => ?_) fun _ _ _ => inv.not_mem_next rfl
  · exact absurd (alone.symm.trans child) (by simp)
  · exact absurd (unused.symm.trans dead) (by simp)

omit [DecidableEq Cpu] in
theorem Recorded.free (table : Table s view)
    (gone : (s.proc x).state = .unused ∨ (s.proc x).state = .zombie) :
    Recorded (s.modify x Proc.free) := by
  have notInit : x ≠ initproc := by
    rintro rfl
    exact gone.elim table.initUsed.1 table.initUsed.2
  exact inv.update none rfl rfl le_rfl (by simp) inv.counts (.inl rfl)
    (absurd · notInit) (absurd rfl ·)
    (fun _ used => absurd rfl used) (fun _ _ => inv.not_mem_zero rfl)
    (absurd rfl ·) (fun q child => by simp [Proc.free] at child)
    (.inr (table.childless x gone)) (fun _ _ => inv.not_mem_zero rfl)
    (fun _ _ _ => inv.not_mem_zero rfl) (fun dead => by simp [Proc.free] at dead)
    fun _ _ _ => inv.not_mem_zero rfl

theorem Recorded.adopt (c : Cpu) (outcome : Bool) (table : Table s view)
    (unused : (s.proc np).state = .unused) (alone : (s.proc np).parent = none)
    (real : (s.proc np).birth ≠ 0) (other : np ≠ p) :
    Recorded (effect s c outcome (.adopt np p)).1 := by
  have notInit := table.ne_init unused
  refine inv.update (some (.forked (s.proc np).birth (s.proc p).birth)) rfl rfl le_rfl
    ?_ (inv.bound np) (.inr (.inl rfl)) (absurd · notInit)
    (fun _ => real) (by simp) (by simp) (fun _ => ?_) (fun q child => ?_) (.inl rfl)
    (fun _ last known => ?_) (fun living pid last known => ?_) (fun dead => ?_)
    fun pid last waiter known => ?_
  · rintro e ⟨⟩
    exact ⟨fun creator => inv.unforked np creator alone, rfl, real⟩
  · exact mem_cons_self ..
  · cases child
    refine .inl ?_
    rw [show (effect s c outcome (.adopt np p)).1.proc p = s.proc p from
      update_of_ne other.symm ..]
  · exact inv.uncalled np unused last (mem_of_ne_of_mem (by simp) known)
  · exact inv.alive np living pid last (mem_of_ne_of_mem (by simp) known)
  · exact absurd (unused.symm.trans dead) (by simp)
  · exact inv.unreported np pid last waiter (mem_of_ne_of_mem (by simp) known)

omit [DecidableEq Cpu] in
theorem Recorded.giveToInit {pp : Pslot} (child : (s.proc pp).parent = some p)
    (notInit : p ≠ initproc) (called : .called (s.proc p).birth last ∈ s.history) :
    Recorded (s.modify pp fun e => { e with parent := some initproc }) := by
  have parented : (s.proc pp).parent ≠ none := by simp [child]
  refine inv.update none rfl rfl le_rfl (by simp) (inv.bound pp) (.inr (.inl rfl))
    (fun isInit => isInit ▸ inv.initBirth) (inv.used pp) (by simp) (by simp)
    (fun _ => inv.forked pp parented) (fun q isInit => ?_) (.inl rfl) (inv.uncalled pp)
    (inv.alive pp) (inv.dead pp) (inv.unreported pp)
  cases isInit
  refine .inr ⟨rfl, ?_⟩
  rcases inv.kin pp p child with same | ⟨isInit, -⟩
  · exact ⟨last, same ▸ called⟩
  · exact absurd isInit notInit

theorem Recorded.reap (c : Cpu) (outcome : Bool) (table : Table s view)
    (child : (s.proc np).parent = some p) (dead : (s.proc np).state = .zombie) : Recorded
      (effect s c outcome (.reap np p (s.proc np).pid (s.proc np).xstate)).1 := by
  have notInit : np ≠ initproc := by
    rintro rfl
    exact table.initUsed.2 dead
  have real := inv.used np (by simp [dead])
  have parented : (s.proc np).parent ≠ none := by simp [child]
  have zero : ∀ {e : Event}, e.child = 0 →
      e ∉ (effect s c outcome (.reap np p (s.proc np).pid (s.proc np).xstate)).1.history := by
    intro e zero known
    rcases mem_cons.mp known with rfl | old
    · exact real zero
    · exact inv.not_mem_zero zero old
  refine inv.update (some (.reported (s.proc np).birth (s.proc np).pid (s.proc np).xstate
      (s.proc p).birth)) rfl rfl le_rfl ?_ inv.counts (.inl rfl)
    (absurd · notInit) (absurd rfl ·)
    (fun _ used => absurd rfl used) (fun _ _ => zero rfl) (absurd rfl ·)
    (fun q child => by simp [Proc.free] at child) (.inr (table.childless np (.inr dead)))
    (fun _ _ => zero rfl) (fun _ _ _ => zero rfl) (fun dead => by simp [Proc.free] at dead)
    fun _ _ _ => zero rfl
  rintro e ⟨⟩
  refine ⟨⟨(inv.dead np dead).1, (inv.dead np dead).2, inv.unreported np,
    (s.proc np).creator, inv.forked np parented, ?_⟩, rfl, real⟩
  rcases inv.kin np p child with same | ⟨rfl, called⟩
  · exact .inl same
  · exact .inr ⟨inv.initBirth, called⟩

theorem Recorded.die (c : Cpu) (outcome : Bool) (running : (s.proc p).state = .running)
    (called : .called (s.proc p).birth status ∈ s.history) :
    Recorded (effect s c outcome (.die p status)).1 := by
  have real := inv.used p (by simp [running])
  refine inv.update (some (.exited (s.proc p).birth (s.proc p).pid status)) rfl rfl le_rfl ?_
    (inv.bound p) (.inr (.inl rfl)) (fun isInit => isInit ▸ inv.initBirth)
    (fun _ => real) (fun notInit _ => inv.rooted p notInit (by simp [running]))
    (fun alone creator known => ?_) (fun child => ?_) (fun q child => ?_) (.inl rfl) (by simp)
    (by simp) (fun _ => ?_) fun pid last waiter known => ?_
  · rintro e ⟨⟩
    exact ⟨inv.alive p (by simp [running]), rfl, real⟩
  · exact inv.unforked p creator alone (mem_of_ne_of_mem (by simp) known)
  · exact mem_cons_of_mem _ (inv.forked p child)
  · have birth : ((effect s c outcome (.die p status)).1.proc q).birth = (s.proc q).birth := by
      by_cases same : q = p
      · subst same
        simp [effect, State.modify]
      · simp [effect, State.modify, same]
    rw [birth]
    refine (inv.kin p q child).imp_right ?_
    rintro ⟨isInit, last, known⟩
    exact ⟨isInit, last, mem_cons_of_mem _ known⟩
  · exact ⟨mem_cons_self .., mem_cons_of_mem _ called⟩
  · exact inv.unreported p pid last waiter (mem_of_ne_of_mem (by simp) known)

omit [DecidableEq Cpu] in
theorem Recorded.called (running : (s.proc p).state = .running)
    (first : ∀ last, .called (s.proc p).birth last ∉ s.history) (code : Code Next) : Recorded
      { s.setTodo p code with history := .called (s.proc p).birth status :: s.history } := by
  have real := inv.used p (by simp [running])
  have others : ∀ {e : Event}, (∀ child last, e ≠ .called child last) →
      e ∈ Event.called (s.proc p).birth status :: s.history → e ∈ s.history := by
    intro e kind known
    exact mem_of_ne_of_mem (kind _ _) known
  refine inv.update (x := p) (f := s.proc p) (some (.called (s.proc p).birth status))
    (by simp [State.setTodo]) rfl le_rfl ?_ (inv.bound p) (.inr (.inl rfl))
    (fun isInit => isInit ▸ inv.initBirth) (fun _ => real)
    (fun notInit used => inv.rooted p notInit used)
    (fun alone creator known => inv.unforked p creator alone (others (by simp) known))
    (fun child => mem_cons_of_mem _ (inv.forked p child)) (fun q child => ?_) (.inl rfl)
    (fun unused => absurd unused (by simp [running]))
    (fun living pid last known => inv.alive p living pid last (others (by simp) known))
    (fun dead => absurd dead (by simp [running]))
    fun pid last waiter known => inv.unreported p pid last waiter (others (by simp) known)
  · rintro e ⟨⟩
    exact ⟨first, rfl, real⟩
  · refine (inv.kin p q child).imp_right ?_
    rintro ⟨isInit, last, known⟩
    exact ⟨isInit, last, mem_cons_of_mem _ known⟩

end

section

variable {result : Option op.Res} (done : effect s c outcome op = (t, result))
include done

/-- No operation gives a process that is in use another number. -/
theorem effect_birth (used : (t.proc x).state ≠ .unused) : (t.proc x).birth = (s.proc x).birth := by
  cases op <;> simp only [effect] at done <;> repeat' split at done
  all_goals cases done
  all_goals first
    | rfl
    | (simp only [State.modify, State.setCpu, State.setStale, update_apply] at used ⊢
       split <;> simp_all [Proc.free])

theorem effect_called (child : Nat) (last : BitVec 32) :
    .called child last ∈ t.history ↔ .called child last ∈ s.history := by
  cases op <;> simp only [effect] at done <;> repeat' split at done
  all_goals cases done
  all_goals simp [State.modify, State.setCpu, State.setLock, State.setTodo, State.setStale]

end

theorem Good.recorded (good : Good s view pass) (here : s.Runs c p)
    (needed : View.pre p op (view c)) (done : Sched.effect s c outcome op = (t, some result))
    (inv : Recorded s) {status : Option (BitVec 32)} (carries : (statusSpec status).pre op ())
    (called : ∀ last, .called (s.proc p).birth last ∈ s.history ↔ status = some last) :
    Recorded t := by
  have thread := good.machine.runs c p here
  have knows := good.knows c p here
  cases op with
  | dispatch => exact needed.elim
  | idle => exact needed.elim
  | panic => cases done
  | holding | myproc | parentOf | succeeds | isKilled | isRunnable | zombie | ownParent
  | initContext =>
    cases done
    exact inv.silent (.of_proc rfl rfl rfl)
  | acquire l =>
    simp only [Sched.effect] at done
    split at done
    · cases done
    · cases done
      exact inv.silent (.of_proc rfl rfl rfl)
  | release l =>
    simp only [Sched.effect] at done
    split at done
    · cases done
      exact inv.silent (.of_proc rfl rfl rfl)
    · cases done
  | sched =>
    rw [effect_sched good here needed outcome] at done
    cases done
    exact inv.silent (.of_proc rfl rfl rfl)
  | trapframe x =>
    cases outcome <;> cases done <;> exact inv.silent (.of_proc rfl rfl rfl)
  | claim x =>
    by_cases unused : (s.proc x).state = .unused
    · have alone := good.alone here needed.1 (by simp [needed.2.2]) unused
      have kept : Recorded (Sched.effect s c outcome (.claim x)).1 :=
        inv.claim c outcome good.table unused alone
      rw [done] at kept
      exact kept
    · rw [show Sched.effect s c outcome (.claim x) = _ from if_neg unused] at done
      cases done
      exact inv
  | freeproc x =>
    cases done
    obtain ⟨-, stage, -, filling⟩ := needed
    have freed := inv.free good.table (.inl (knows.fresh x stage filling).2.state)
    exact freed.silent (.of_proc rfl rfl rfl)
  | adopt np q =>
    obtain ⟨rfl, running, prepared, -⟩ := needed
    have fresh := (knows.fresh np .prepared prepared).2
    have other : np ≠ q := by
      rintro rfl
      exact absurd fresh.state (by simp [thread.state, running])
    cases done
    exact inv.adopt c outcome good.table fresh.state fresh.parent fresh.birth other
  | giveToInit pp =>
    obtain ⟨child, -, -, notInit, -⟩ := needed
    obtain ⟨last, exits⟩ := Option.ne_none_iff_exists'.mp carries
    cases done
    exact inv.giveToInit (knows.child pp child) notInit ((called last).mpr exits)
  | ready x =>
    cases done
    obtain ⟨running, mine | ⟨-, adopted⟩⟩ := needed
    · obtain ⟨rfl, -⟩ := mine
      have state := thread.state.trans running
      exact inv.silent (.of_modify rfl rfl rfl rfl rfl rfl (by simp [state]) ⟨rfl, rfl⟩
        (by simp) (by simp [state]))
    · have fresh := (knows.fresh x .adopted adopted).2
      exact inv.silent (.of_modify rfl rfl rfl rfl rfl rfl (by simp [fresh.state])
        ⟨rfl, rfl⟩ (by simp) fun _ => .inr (by simp [fresh.parent]))
  | wakeup x chan =>
    simp only [Sched.effect] at done
    split at done
    · rename_i asleep
      cases done
      exact inv.silent (.of_modify rfl rfl rfl rfl rfl rfl (by simp [asleep.1])
        ⟨rfl, rfl⟩ (by simp) (by simp [asleep.1]))
    · cases done
      exact inv
  | kill x pid =>
    simp only [Sched.effect] at done
    split at done
    · cases done
      refine inv.silent (.of_modify rfl rfl rfl rfl rfl rfl ?_ ⟨rfl, rfl⟩ ?_ ?_)
      all_goals by_cases asleep : (s.proc x).state = .sleeping <;> simp [asleep]
      exact .inl
    · cases done
      exact inv
  | reap np q pid xstate =>
    obtain ⟨rfl, found, -⟩ := needed
    obtain ⟨-, child, dead, rfl, rfl⟩ := knows.found np pid xstate found
    cases done
    exact inv.reap c outcome good.table child dead
  | sleep x chan =>
    obtain ⟨rfl, -, running, -⟩ := needed
    have state := thread.state.trans running
    cases done
    exact inv.silent (.of_modify rfl rfl rfl rfl rfl rfl (by simp [state]) ⟨rfl, rfl⟩
      (by simp) (by simp [state]))
  | clearChan x =>
    cases done
    exact inv.silent (.of_modify rfl rfl rfl rfl rfl rfl .rfl ⟨rfl, rfl⟩ id .inl)
  | die q last =>
    obtain ⟨rfl, -, -, running, -⟩ := needed
    cases done
    exact inv.die c outcome (thread.state.trans running) ((called last).mpr carries)

section

omit [DecidableEq Cpu]

theorem Statuses.step (statuses : Statuses s)
    (todo : ∀ q, q ≠ p → (s.proc q).state ≠ .unused → t.todo q = s.todo q)
    (born : ∀ q, q ≠ p → (s.proc q).state = .unused → (t.proc q).state ≠ .unused →
      t.todo q = forkret ∧ ∀ last, .called (s.proc q).birth last ∉ s.history)
    (buried : ∀ q, q ≠ p → (s.proc q).state = .zombie → (t.proc q).state = .unused ∨
      (t.proc q).state = .zombie)
    (birth : ∀ q, (t.proc q).state ≠ .unused → (t.proc q).birth = (s.proc q).birth)
    (called : ∀ child last, .called child last ∈ t.history ↔ .called child last ∈ s.history)
    (own : (t.proc p).state ≠ .zombie → ∃ status, Carries status (t.todo p) ∧
      ∀ last, .called (s.proc p).birth last ∈ s.history ↔ status = some last) : Statuses t := by
  intro q used living
  simp only [called, birth q used]
  by_cases same : q = p
  · subst same
    exact own living
  by_cases unused : (s.proc q).state = .unused
  · obtain ⟨code, none⟩ := born q same unused used
    refine ⟨.none, code ▸ carries_forkret, fun last => ?_⟩
    simp [none last]
  · have alive : (s.proc q).state ≠ .zombie := fun dead =>
      (buried q same dead).elim used living
    obtain ⟨status, carries, known⟩ := statuses q unused alive
    exact ⟨status, todo q same unused ▸ carries, known⟩

theorem Statuses.congr (statuses : Statuses s) (proc : t.proc = s.proc)
    (history : t.history = s.history) (todo : ∀ q, q ≠ p → t.todo q = s.todo q)
    (own : (s.proc p).state ≠ .zombie → ∃ status, Carries status (t.todo p) ∧
      ∀ last, .called (s.proc p).birth last ∈ s.history ↔ status = some last) : Statuses t := by
  refine statuses.step (p := p) (fun q other _ => todo q other)
    (fun q _ unused used => absurd unused (proc ▸ used)) (fun q _ dead => .inr (proc ▸ dead))
    (fun q _ => by rw [proc]) (fun _ _ => by rw [history]) ?_
  rw [proc]
  exact own

theorem Calm.buried {e f : Proc} (calm : Calm p e f) (dead : e.state = .zombie) :
    f.state = .unused ∨ f.state = .zombie := by
  cases state : f.state with
  | unused => exact .inl rfl
  | zombie => exact .inr rfl
  | running => simpa [dead] using calm.running.mp state
  | sleeping => simpa [dead] using (calm.asleep state).1
  | runnable => simpa [dead] using calm.runnable state

/-- An operation that returns is not a panic. -/
theorem effect_returns [DecidableEq Cpu] (done : effect s c outcome op = (t, some result))
    (status : Option (BitVec 32)) : (statusSpec status).post op () result () := by
  cases op <;> first | trivial | cases done

end

/-- A process panics, or performs an operation on a lock or its CPU, or one on the table. -/
theorem Good.performs (good : Good s view pass) (here : s.Runs c p) {rest : op.Res → Code Next}
    (code : s.todo p = .call op rest) (needed : View.pre p op (view c)) (outcome : Bool) :
    (∃ reason, Sched.stepProc s c p outcome = { s with panic := some reason }) ∨
      ∃ t result, Sched.effect s c outcome op = (t, some result) ∧
        Sched.stepProc s c p outcome = t.setTodo p (rest result) ∧
        (SameTable s t ∨ Step s t p (view c) (after p (view c) op result)) := by
  rcases done : Sched.effect s c outcome op with ⟨t, _ | result⟩
  · have moved : op ≠ .sched := by
      rintro rfl
      rw [effect_sched good here needed outcome] at done
      cases done
    obtain ⟨reason, rfl, -⟩ := effect_none moved done
    exact .inl ⟨reason, stepProc_none code done⟩
  refine .inr ⟨t, result, rfl, stepProc_some code done, ?_⟩
  by_cases switch : op = .sched ∨ (∃ l, op = .acquire l) ∨ ∃ l, op = .release l
  · left
    rcases switch with rfl | ⟨l, rfl⟩ | ⟨l, rfl⟩
    all_goals
      simp only [Sched.effect] at done
      repeat' split at done
      all_goals cases done
      constructor <;> rfl
  · exact .inr (good.effect here needed done (fun same => switch (.inl same)) fun l =>
      ⟨fun same => switch (.inr (.inl ⟨l, same⟩)), fun same => switch (.inr (.inr ⟨l, same⟩))⟩).2

theorem Good.recorded_stepProc (good : Good s view pass) (here : s.Runs c p) (inv : Recorded s)
    (statuses : Statuses s) (outcome : Bool) :
    Recorded (Sched.stepProc s c p outcome) ∧ Statuses (Sched.stepProc s c p outcome) := by
  have thread := good.machine.runs c p here
  have meets := thread.code
  have used : (s.proc p).state ≠ .unused := thread.state ▸ thread.used
  cases code : s.todo p with
  | ret next =>
    rw [stepProc_ret code]
    refine ⟨inv.silent (.of_proc rfl rfl rfl), statuses.congr (p := p) rfl rfl
      (fun q other => update_of_ne other ..) fun living => ?_⟩
    obtain ⟨status, carries, known⟩ := statuses p used living
    rw [code] at carries
    have ended : status = none := carries
    refine ⟨status, ?_, known⟩
    rw [show (s.setTodo p next.code).todo p = next.code from update_self .., ended]
    cases next with
    | user => rfl
    | waitLoop q addr flags => exact carries_waitRound q addr flags
  | call op rest =>
    rw [code] at meets
    obtain ⟨needed, -⟩ := meets
    -- the status that the thread carries, unless it has just died
    have follows : (s.proc p).state ≠ .zombie → ∃ status, (statusSpec status).pre op () ∧
        (∀ result later, (statusSpec status).post op () result later →
          Carries status (rest result)) ∧
        ∀ last, .called (s.proc p).birth last ∈ s.history ↔ status = some last := by
      intro living
      obtain ⟨status, carries, known⟩ := statuses p used living
      rw [code] at carries
      exact ⟨status, carries.1, fun result later => carries.2 result later, known⟩
    rcases good.performs here code needed outcome with
      ⟨reason, after⟩ | ⟨t, result, done, after, does⟩ <;> rw [after]
    · exact ⟨inv.silent (.of_proc rfl rfl rfl),
        statuses.congr (p := p) rfl rfl (fun _ _ => rfl) fun living => statuses p used living⟩
    have self : (t.setTodo p (rest result)).todo p = rest result := update_self ..
    have others : ∀ q, q ≠ p → (t.setTodo p (rest result)).todo q = t.todo q :=
      fun q other => update_of_ne other ..
    have goesOn : (s.proc p).state ≠ .zombie → ∃ status,
        Carries status ((t.setTodo p (rest result)).todo p) ∧
        ∀ last, .called (s.proc p).birth last ∈ s.history ↔ status = some last := by
      intro living
      obtain ⟨status, -, continues, known⟩ := follows living
      refine ⟨status, ?_, known⟩
      rw [self]
      exact continues result () (effect_returns done status)
    rcases does with same | step
    · exact ⟨inv.silent (.of_proc same.proc same.history same.pids),
        statuses.congr (p := p) same.proc same.history
          (fun q other => (others q other).trans (congrFun same.todo q)) goesOn⟩
    have living : (s.proc p).state ≠ .zombie := by simp [step.before]
    obtain ⟨status, allowed, -, known⟩ := follows living
    have kept := good.recorded here needed done inv allowed known
    refine ⟨kept.silent (.of_proc rfl rfl rfl), statuses.step (p := p)
      (fun q other used => ?_) (fun q other unused born => ?_)
      (fun q other dead => (step.calm q other).buried dead)
      (fun q used => effect_birth (t := t) done used)
      (effect_called (t := t) done) fun _ => goesOn living⟩
    · exact (others q other).trans ((step.code q other).resolve_right fun new => used new.1).1
    · exact ⟨(others q other).trans (step.born q other unused born).1, inv.uncalled q unused⟩

theorem Good.recorded_stepLoop (good : Good s view pass) (resting : (s.cpu c).current = none)
    (inv : Recorded s) (statuses : Statuses s) (outcome : Bool) :
    Recorded (Sched.stepLoop s c outcome) ∧ Statuses (Sched.stepLoop s c outcome) := by
  have same : ∀ {s t : State Cpu}, SameTable s t → Recorded s → Statuses s →
      Recorded t ∧ Statuses t := by
    intro s t same inv statuses
    refine ⟨inv.silent (.of_proc same.proc same.history same.pids), ?_⟩
    unfold Statuses
    rw [same.proc, same.history, same.todo]
    exact statuses
  rcases good.stepLoop_table resting outcome with kept | ⟨p, runnable, switched⟩
  · exact same kept inv statuses
  have silent : Silent s (s.modify p fun e => { e with state := .running }) :=
    .of_modify rfl rfl rfl rfl rfl rfl (by simp [runnable]) ⟨rfl, rfl⟩ (by simp)
      (by simp [runnable])
  refine same switched (inv.silent silent) (statuses.step (p := p) (fun _ _ _ => rfl)
    (fun q other unused used => absurd ?_ used)
    (fun q _ dead => .inr ((silent.zombie q).mpr dead)) (fun q _ => silent.birth q) (fun _ _ => .rfl)
    fun _ => statuses p (by simp [runnable]) (by simp [runnable]))
  exact (congrArg Proc.state (update_of_ne other ..)).trans unused

/-- The invariant, what is recorded, and the statuses. -/
structure Tracked (s : State Cpu) : Prop where
  sane : Sane s
  recorded : Recorded s
  statuses : Statuses s

section

omit [DecidableEq Cpu]

/-- A process at its user program has called no `exit`. -/
theorem Statuses.uncalled (statuses : Statuses s) (good : Good s view pass) (here : s.Runs c p)
    (ended : s.todo p = .ret .user) :
    (s.proc p).state = .running ∧ ∀ last, .called (s.proc p).birth last ∉ s.history := by
  have thread := good.machine.runs c p here
  have meets := thread.code
  rw [ended] at meets
  have running : (s.proc p).state = .running := by
    rw [thread.state, show view c = base none from meets]
    rfl
  obtain ⟨status, carries, known⟩ := statuses p (by simp [running]) (by simp [running])
  rw [ended] at carries
  have none : status = none := carries
  refine ⟨running, fun last called => ?_⟩
  have exits := (known last).mp called
  simp [none] at exits

/-- A call records the status of an `exit`. -/
theorem Call.called_events (request : Call) {birth child : Nat} :
    .called child last ∈ request.events birth ↔ child = birth ∧ request.status = some last := by
  cases request <;> simp [Call.events, Call.status, eq_comm]

theorem Tracked.call (tracked : Tracked s) (good : Good s view pass) (here : s.Runs c p)
    (ended : s.todo p = .ret .user) (request : Call) :
    Recorded { s.setTodo p request.code with
      history := request.events (s.proc p).birth ++ s.history } ∧
    Statuses { s.setTodo p request.code with
      history := request.events (s.proc p).birth ++ s.history } := by
  obtain ⟨running, first⟩ := tracked.statuses.uncalled good here ended
  have inv := tracked.recorded
  constructor
  · cases request with
    | exit status => exact inv.called running first _
    | _ => exact inv.silent (.of_proc rfl rfl rfl)
  intro q used living
  simp only [mem_append, request.called_events]
  by_cases same : q = p
  · subst same
    refine ⟨request.status, ?_, fun last => ?_⟩
    · simp only [State.setTodo, update_self]
      exact request.carries
    · simp [State.setTodo, first]
  · obtain ⟨status, carries, known⟩ := tracked.statuses q used living
    refine ⟨status, ?_, fun last => ?_⟩
    · simp only [State.setTodo, update_of_ne same]
      exact carries
    · have apart : (s.proc q).birth ≠ (s.proc p).birth := fun clash =>
        (inv.distinct q p clash).elim (inv.used q used) same
      rw [← known last]
      simp [State.setTodo, apart]

end

theorem tracked_next (tracked : Tracked s) {action : Action Cpu}
    (enabled : (schedSystem Cpu).Enabled s action) : Tracked ((schedSystem Cpu).next s action) := by
  have sane := sane_next tracked.sane enabled
  obtain ⟨⟨view, pass, good⟩, -⟩ := tracked.sane
  have kept : Recorded ((schedSystem Cpu).next s action) ∧
      Statuses ((schedSystem Cpu).next s action) := by
    refine next_cases (P := fun t => Recorded t ∧ Statuses t) enabled (fun c p outcome _ here _ =>
        good.recorded_stepProc here tracked.recorded tracked.statuses outcome)
      (fun c outcome resting _ =>
        good.recorded_stepLoop resting tracked.recorded tracked.statuses outcome)
      (fun c p request here ended => tracked.call good here ended request)
      fun c p here _ => ?_
    refine ⟨tracked.recorded.silent (.of_proc rfl rfl rfl), tracked.statuses.congr (p := p) rfl
      rfl (fun q other => update_of_ne other ..) fun living => ?_⟩
    have thread := good.machine.runs c p here
    obtain ⟨status, carries, known⟩ := tracked.statuses p (thread.state ▸ thread.used) living
    refine ⟨status, ?_, known⟩
    rw [show (s.setTodo p (Sched.yield >>= fun _ => s.todo p)).todo p =
      Sched.yield >>= fun _ => s.todo p from update_self ..]
    exact part_yield.bind fun _ => carries
  exact ⟨sane, kept.1, kept.2⟩

omit [DecidableEq Cpu] in
theorem tracked_boot : Tracked (boot Cpu) := by
  have other : ∀ x, x ≠ initproc → (boot Cpu).proc x = Proc.unused := fun x other => if_neg other
  have first : (boot Cpu).proc initproc = Proc.init := by simp [boot]
  have parent : ∀ x, ((boot Cpu).proc x).parent = none := by
    intro x
    by_cases same : x = initproc
    · rw [same, first]
      rfl
    · rw [other x same]
      rfl
  have birth : ∀ x, ((boot Cpu).proc x).birth = if x = initproc then 1 else 0 := by
    intro x
    by_cases same : x = initproc
    · simp [same, first, Proc.init]
    · simp [other x same, same, Proc.unused]
  have living : ∀ x, ((boot Cpu).proc x).state ≠ .zombie := by
    intro x
    by_cases same : x = initproc
    · simp [same, first, Proc.init]
    · simp [other x same, Proc.unused]
  have unused : ∀ x, x ≠ initproc → ((boot Cpu).proc x).state = .unused := by
    intro x same
    rw [other x same]
    rfl
  have history : ∀ e, e ∉ (boot Cpu).history := fun e => by simp [boot]
  refine ⟨sane_boot, ?_, fun p _ _ => ⟨none, carries_forkret, by simp [boot]⟩⟩
  exact {
    counts := by simp [boot]
    bound := fun x => by
      rw [birth]
      simp only [boot]
      split <;> omega
    distinct := fun x y => by
      rw [birth, birth]
      by_cases same : x = initproc <;> by_cases equal : y = initproc <;> simp [same, equal]
    initBirth := by rw [first]
    used := fun x used => by
      have same : x = initproc := by
        by_contra other
        exact used (unused x other)
      simp [birth, same]
    rooted := fun x same used => absurd (unused x same) used
    events := fun e known => absurd known (history e)
    unforked := fun x creator _ => history _
    forked := fun x child => absurd (parent x) child
    kin := fun x q child => by simp [parent] at child
    uncalled := fun x _ last => history _
    alive := fun x _ pid last => history _
    dead := fun x dead => absurd dead (living x)
    unreported := fun x pid last waiter => history _
    fresh := fun e earlier suffix =>
      absurd (suffix.subset (mem_cons_self ..)) (history e) }

/-- Every state of a run has a history that fits its table. -/
theorem tracked_of_reaches (run : (schedSystem Cpu).Reaches (boot Cpu) s) : Tracked s :=
  System.Reaches.invariant (P := Tracked) (fun _ _ tracked enabled => tracked_next tracked enabled)
    run tracked_boot

/-- A zombie that stays one keeps what `wait` will return. -/
def Kept (s t : State Cpu) (x : Pslot) : Prop :=
  (t.proc x).state = .zombie ∧ (t.proc x).pid = (s.proc x).pid ∧
    (t.proc x).xstate = (s.proc x).xstate ∧ (t.proc x).birth = (s.proc x).birth ∧
    ((t.proc x).parent = (s.proc x).parent ∨ (t.proc x).parent = some initproc)

omit [DecidableEq Cpu] in
theorem Kept.of_proc (proc : t.proc x = s.proc x) (dead : (s.proc x).state = .zombie) :
    Kept s t x := by
  rw [Kept, proc]
  exact ⟨dead, rfl, rfl, rfl, .inl rfl⟩

section

variable {result : Option op.Res} (done : effect s c outcome op = (t, result))
  (dead : (s.proc x).state = .zombie)
include done dead

/-- An entry that stays a zombie keeps its pid and its status. -/
theorem effect_frozen (still : (t.proc x).state = .zombie) (other : ∀ last, op ≠ .die x last) :
    (t.proc x).pid = (s.proc x).pid ∧ (t.proc x).xstate = (s.proc x).xstate := by
  cases op <;> simp only [effect] at done <;> repeat' split at done
  all_goals cases done
  all_goals first
    | exact ⟨rfl, rfl⟩
    | (simp only [State.modify, State.setCpu, State.setStale, update_apply] at still ⊢
       split <;> simp_all [Proc.free])

theorem effect_freed (gone : (t.proc x).state = .unused) :
    op = .freeproc x ∨ ∃ q pid xstate, op = .reap x q pid xstate := by
  cases op <;> simp only [effect] at done <;> repeat' split at done
  all_goals cases done
  all_goals first
    | exact absurd (dead.symm.trans gone) (by simp)
    | (simp only [State.modify, State.setCpu, State.setStale, update_apply] at gone
       split at gone <;> simp_all)

end

/-- A zombie stays as it is until its parent reports it. -/
theorem Good.zombie_stepProc (good : Good s view pass) (here : s.Runs c p)
    (dead : (s.proc x).state = .zombie) (outcome : Bool) :
    Kept s (Sched.stepProc s c p outcome) x ∨
      ((s.proc x).parent = some p ∧ (Sched.stepProc s c p outcome).history =
        .reported (s.proc x).birth (s.proc x).pid (s.proc x).xstate (s.proc p).birth ::
          s.history) := by
  have thread := good.machine.runs c p here
  have meets := thread.code
  cases code : s.todo p with
  | ret next =>
    rw [stepProc_ret code]
    exact .inl (.of_proc rfl dead)
  | call op rest =>
    rw [code] at meets
    obtain ⟨needed, -⟩ := meets
    rcases good.performs here code needed outcome with
      ⟨reason, after⟩ | ⟨t, result, done, after, same | step⟩ <;> rw [after]
    · exact .inl (.of_proc rfl dead)
    · exact .inl (.of_proc (congrFun same.proc x) dead)
    have other : x ≠ p := by
      rintro rfl
      simp [step.before] at dead
    have calm := step.calm x other
    rcases calm.buried dead with gone | still
    · rcases effect_freed done dead gone with rfl | ⟨q, pid, xstate, rfl⟩
      · obtain ⟨-, stage, -, filling⟩ := needed
        have fresh := ((good.knows c p here).fresh x stage filling).2
        exact absurd fresh.state (by simp [dead])
      · obtain ⟨rfl, found, -⟩ := needed
        obtain ⟨-, child, -, rfl, rfl⟩ := (good.knows c q here).found x pid xstate found
        cases done
        exact .inr ⟨child, rfl⟩
    · left
      have notDie : ∀ last, op ≠ .die x last := by
        rintro last rfl
        exact other needed.1
      obtain ⟨pid, xstate⟩ := effect_frozen done dead still notDie
      refine ⟨still, pid, xstate, effect_birth (t := t) done (by simp [still]), ?_⟩
      rcases calm.parent with same | ⟨-, given⟩ | ⟨-, -, unused, -⟩ | ⟨-, -, freed⟩
      · exact .inl same
      · exact .inr given
      · simp [dead] at unused
      · simp [still] at freed

theorem Good.zombie_stepLoop (good : Good s view pass) (resting : (s.cpu c).current = none)
    (dead : (s.proc x).state = .zombie) (outcome : Bool) :
    Kept s (Sched.stepLoop s c outcome) x := by
  rcases good.stepLoop_table resting outcome with same | ⟨p, runnable, same⟩
  · exact .of_proc (congrFun same.proc x) dead
  · refine .of_proc ((congrFun same.proc x).trans (update_of_ne ?_ ..)) dead
    rintro rfl
    simp [dead] at runnable

/-- Every process is created, calls `exit`, becomes a zombie and is reported at most once, with the
pid and the status of the exit, to its creator or, after the creator has called `exit`, to `init`.
Until then the zombie keeps them, and a process in use has a parent that is neither unused nor a
zombie. -/
theorem exit_reported_once (run : (schedSystem Cpu).Reaches (boot Cpu) s) :
    (∀ e earlier, e :: earlier <:+ s.history → New earlier e) ∧
      (∀ action, (schedSystem Cpu).Enabled s action → ∀ x, (s.proc x).state = .zombie →
        Kept s ((schedSystem Cpu).next s action) x ∨
          ∃ c p, s.Runs c p ∧ (s.proc x).parent = some p ∧
            ((schedSystem Cpu).next s action).history =
              .reported (s.proc x).birth (s.proc x).pid (s.proc x).xstate (s.proc p).birth ::
                s.history) ∧
      ∀ y, y ≠ initproc → (s.proc y).state ≠ .unused →
        ∃ q, (s.proc y).parent = some q ∧ (s.proc q).state ≠ .unused ∧
          (s.proc q).state ≠ .zombie := by
  obtain ⟨⟨⟨view, pass, good⟩, -⟩, inv, -⟩ := tracked_of_reaches run
  refine ⟨inv.fresh, fun action enabled x dead => ?_, fun y notInit used => ?_⟩
  · refine next_cases (P := fun t => Kept s t x ∨ ∃ c p, s.Runs c p ∧ (s.proc x).parent = some p ∧
      t.history = .reported (s.proc x).birth (s.proc x).pid (s.proc x).xstate (s.proc p).birth ::
        s.history) enabled (fun c p outcome _ here _ => ?_) (fun c outcome resting _ => .inl ?_)
      (fun _ _ _ _ _ => .inl (.of_proc rfl dead)) fun _ _ _ _ => .inl (.of_proc rfl dead)
    · exact (good.zombie_stepProc here dead outcome).imp_right fun report => ⟨c, p, here, report⟩
    · exact good.zombie_stepLoop resting dead outcome
  · obtain ⟨q, parent⟩ := Option.ne_none_iff_exists'.mp (inv.rooted y notInit used)
    refine ⟨q, parent, fun unused => ?_, fun dead => ?_⟩
    · exact good.table.childless q (.inl unused) y parent
    · exact good.table.childless q (.inr dead) y parent

end Operations

/-- `init` forks a process, which calls `exit(7)`; the first `wait` of `init` fails to copy the
status out and the second returns it. -/
def forkExitWait : List (Action (Fin 2)) :=
  List.flatten [ steps 0 4, [.call 0 .fork], steps 0 13, steps 1 7, [.call 1 (.exit 7)], steps 1 81,
    [.call 0 (.wait true false)], steps 0 6, [.step 0 false], steps 0 2,
    [.call 0 (.wait true false)], steps 0 8]

theorem exit_reported_once_retried :
    Reported [.exited 2 2 7, .called 2 7, .forked 2 1] 2 2 7 1 := by
  have run : (schedSystem (Fin 2)).Schedules (boot (Fin 2)) forkExitWait := by decide +kernel
  have history : (forkExitWait.foldl (schedSystem (Fin 2)).next (boot (Fin 2))).history =
      [.reported 2 2 7 1, .exited 2 2 7, .called 2 7, .forked 2 1] := by decide +kernel
  exact (exit_reported_once run.reaches).1 (.reported 2 2 7 1) _ (history ▸ suffix_refl _)

end OsLab.Sched
