import OsLab.Proc.Invariant

/-!
# The steps keep the invariant

Each operation of a thread, of the scheduler and of the timer, from the specification of the
operations.
-/

namespace OsLab.Sched

open Prog View Function

variable {Cpu : Type*} {f : Proc} {y : Pslot}

attribute [local simp] Proc.free resumed State.modify State.Runs View.after

section Own

variable {s t : State Cpu} {c : Cpu} {p : Pslot} {known later : View} {view : Cpu → View}

theorem Knows.keep (knows : Knows s p known) (parent : ∀ y, (t.proc y).parent = (s.proc y).parent)
    (zombie : ∀ y, (t.proc y).state = .zombie → (s.proc y).state = .zombie ∨ known.scanned = 0)
    (waits : ∀ y, t.Waits y → s.Waits y ∨ known.woken = false)
    (fresh : ∀ y stage, known.fresh = some (y, stage) → (t.proc y).state = .unused ∧
      (t.proc y).birth = (s.proc y).birth ∧ t.original y = s.original y ∧ t.todo y = s.todo y)
    (found : ∀ y pid xstate, known.found = some (y, pid, xstate) →
      (t.proc y).state = .zombie ∧ (t.proc y).pid = (s.proc y).pid ∧
        (t.proc y).xstate = (s.proc y).xstate) : Knows t p known where
  child x child := (parent x).trans (knows.child x child)
  given x inside exiting := parent x ▸ knows.given x inside exiting
  kids some := by
    obtain ⟨x, child⟩ := knows.kids some
    exact ⟨x, (parent x).trans child⟩
  scanned x inside := by
    obtain ⟨locked, alive⟩ := knows.scanned x inside
    refine ⟨locked, fun notInit child dead => ?_⟩
    rcases zombie x dead with before | none
    · exact alive notInit ((parent x).symm.trans child) before
    · simp [none] at inside
  woken awake q remembered := by
    obtain ⟨locked, before⟩ := knows.woken awake q remembered
    refine ⟨locked, fun asleep => ?_⟩
    rcases waits q asleep with asleep | none
    · exact before asleep
    · simp [none] at awake
  fresh x stage filling := by
    obtain ⟨locked, kept⟩ := knows.fresh x stage filling
    obtain ⟨state, birth, original, todo⟩ := fresh x stage filling
    exact ⟨locked, state, birth ▸ kept.birth, original.trans kept.original,
      (parent x).trans kept.parent, fun claimed => todo.trans (kept.code claimed)⟩
  found x pid xstate dead := by
    obtain ⟨locked, child, -, pidEq, xstateEq⟩ := knows.found x pid xstate dead
    obtain ⟨state, samePid, sameXstate⟩ := found x pid xstate dead
    exact ⟨locked, (parent x).trans child, state, samePid.trans pidEq, sameXstate.trans xstateEq⟩

theorem Step.look (thread : Thread s c p known) (running : known.own = .running)
    (held : later.held = known.held) (own : later.own = .running)
    (original : later.original = known.original) (fresh : later.fresh = known.fresh)
    (quiet : known.held = [] → later = base later.original) (knows : Knows s p later) :
    Step s s p known later where
  lock := rfl
  cpu := rfl
  pids := le_rfl
  held := held
  before := thread.state.trans running
  own := (thread.state.trans running).trans own.symm
  used := by simp [own]
  away := by simp [own]
  quiet := quiet
  original := thread.original.trans original.symm
  locked _ _ := rfl
  calm y _ := .refl p (s.proc y)
  born _ _ unused used := absurd unused used
  code _ _ := .inl ⟨rfl, rfl⟩
  parent := rfl
  kin q remembered := .inl (original ▸ remembered)
  adopted y _ _ := by
    by_cases mine : known.fresh = some (y, .adopted)
    · exact .inl (fresh.trans mine)
    · exact .inr ⟨mine, rfl⟩
  tidy y unused := .inr (.inr ⟨unused, rfl, rfl, rfl, fun stage filling =>
    ⟨stage, fresh.trans filling⟩⟩)
  dies := by simp [own]
  waits waits := absurd waits.1 (by simp [thread.state, running])
  knows := knows

variable {x : Pslot}

theorem Thread.ne_unused (thread : Thread s c p known) (running : known.own = .running)
    (unused : (s.proc x).state = .unused) : x ≠ p := by
  rintro rfl
  simp [thread.state, running] at unused

theorem State.Waits.of_update {q : Pslot} (proc : t.proc = update s.proc x f)
    (own : f.state = .sleeping → (s.proc x).state = .sleeping ∧ f.chan = (s.proc x).chan)
    (waits : t.Waits q) : s.Waits q := by
  revert waits
  unfold State.Waits
  exact update_cases proc q (fun waits => ⟨(own waits.1).1, (own waits.1).2 ▸ waits.2⟩)
    fun _ _ => id

section

variable (thread : Thread s c p known) (running : known.own = .running)
include thread running

theorem Step.other (locked : .proc x ∈ known.held) (other : x ≠ p)
    (proc : t.proc = update s.proc x f) (lock : t.lock = s.lock) (cpu : t.cpu = s.cpu)
    (pids : s.nextpid ≤ t.nextpid) (todo : ∀ y, y ≠ x → t.todo y = s.todo y)
    (originals : ∀ y, y ≠ x → t.original y = s.original y) (calm : Calm p (s.proc x) f)
    (born : (s.proc x).state = .unused → f.state ≠ .unused →
      t.todo x = forkret ∧ t.original x = none)
    (code : (t.todo x = s.todo x ∧ t.original x = s.original x) ∨ (s.proc x).state = .unused)
    (held : later.held = known.held) (own : later.own = .running)
    (original : later.original = known.original)
    (adopted : f.state = .unused → f.parent ≠ none → later.fresh = some (x, .adopted) ∨
      (known.fresh ≠ some (x, .adopted) ∧ f.parent = (s.proc x).parent))
    (fresh : ∀ y stage, y ≠ x → known.fresh = some (y, stage) → later.fresh = some (y, stage))
    (stale : ∀ y, y ≠ x → t.stale y = s.stale y) (tidy : f.state = .unused → t.stale x = true ∨
      (f.killed = false ∧ (f.pid = 0 ∨ ∃ stage, later.fresh = some (x, stage))) ∨
      ((s.proc x).state = .unused ∧ f.killed = (s.proc x).killed ∧ f.pid = (s.proc x).pid ∧
        t.stale x = s.stale x ∧
        ∀ stage, known.fresh = some (x, stage) → ∃ next, later.fresh = some (x, next)))
    (knows : Knows t p later) : Step s t p known later where
  lock := lock
  cpu := cpu
  pids := pids
  held := held
  before := thread.state.trans running
  own := by rw [proc, update_of_ne other.symm, thread.state, running, own]
  used := by simp [own]
  away := by simp [own]
  quiet unlocked := by simp [unlocked] at locked
  original := (originals p other.symm).trans (thread.original.trans original.symm)
  locked y unlocked := by
    rw [proc, update_of_ne]
    rintro rfl
    exact unlocked locked
  calm y _ := update_cases proc y calm fun y _ => .refl p (s.proc y)
  born y _ := update_cases proc y born fun _ _ unused used => absurd unused used
  code y _ := by
    rcases eq_or_ne y x with rfl | same
    · exact code.imp_right fun unused => ⟨unused, locked⟩
    · exact .inl ⟨todo y same, originals y same⟩
  parent := by rw [proc, update_of_ne other.symm]
  kin q remembered := .inl (original ▸ remembered)
  adopted y := update_cases proc y adopted fun y same _ _ => by
    by_cases mine : known.fresh = some (y, .adopted)
    · exact .inl (fresh y _ same mine)
    · exact .inr ⟨mine, rfl⟩
  tidy y := update_cases proc y tidy fun y same unused => .inr (.inr ⟨unused, rfl, rfl,
    stale y same, fun stage filling => ⟨stage, fresh y stage same filling⟩⟩)
  dies := by simp [own]
  waits waits := by
    have state : (t.proc p).state = .sleeping := waits.1
    rw [proc, update_of_ne other.symm, thread.state, running] at state
    cases state
  knows := knows

theorem Step.self (locked : .proc p ∈ known.held) (proc : t.proc = update s.proc p f)
    (lock : t.lock = s.lock) (cpu : t.cpu = s.cpu) (pids : s.nextpid ≤ t.nextpid)
    (todo : t.todo = s.todo) (originals : t.original = s.original)
    (parent : f.parent = (s.proc p).parent) (held : later.held = known.held)
    (own : f.state = later.own) (used : later.own ≠ .unused)
    (original : later.original = known.original) (fresh : later.fresh = known.fresh)
    (stale : ∀ y, y ≠ p → t.stale y = s.stale y)
    (dies : later.own = .zombie → p ≠ initproc ∧ (∀ y, (t.proc y).parent ≠ some p) ∧
      ∃ q, known.original = some q ∧ .proc q ∈ known.held ∧ ¬ t.Waits q)
    (waits : t.Waits p → p ≠ initproc → (∃ y, (t.proc y).parent = some p) ∧
      ∀ y, (t.proc y).parent = some p → (t.proc y).state ≠ .zombie) (knows : Knows t p later) :
    Step s t p known later where
  lock := lock
  cpu := cpu
  pids := pids
  held := held
  before := thread.state.trans running
  own := by rw [proc, update_self, own]
  used := used
  away _ := locked
  quiet unlocked := by simp [unlocked] at locked
  original := by rw [originals, thread.original, original]
  locked y unlocked := by
    rw [proc, update_of_ne]
    rintro rfl
    exact unlocked locked
  calm y other := by
    rw [proc, update_of_ne other]
    exact .refl p (s.proc y)
  born y other unused used := by
    rw [proc, update_of_ne other] at used
    exact absurd unused used
  code y _ := .inl ⟨by rw [todo], by rw [originals]⟩
  parent := by rw [proc, update_self, parent]
  kin q remembered := .inl (original ▸ remembered)
  adopted y _ _ := by
    by_cases mine : known.fresh = some (y, .adopted)
    · exact .inl (fresh.trans mine)
    · exact .inr ⟨mine, update_cases proc y parent fun _ _ => rfl⟩
  tidy y := update_cases proc y (fun unused => absurd (own.symm.trans unused) used)
    fun y same unused => .inr (.inr ⟨unused, rfl, rfl, stale y same, fun stage filling =>
      ⟨stage, fresh.trans filling⟩⟩)
  dies := dies
  waits := waits
  knows := knows

end

theorem advance_le {count : Nat} {x : Pslot} (inside : y.val < advance count x) :
    y.val < count ∨ y = x := by
  unfold advance at inside
  split at inside
  · rcases Nat.lt_succ_iff_lt_or_eq.mp inside with inside | here
    · exact .inl inside
    · exact .inr (Fin.ext (by omega))
  · exact .inl inside

section

variable (thread : Thread s c p known) (running : known.own = .running) (knows : Knows s p known)
include thread running knows

theorem Step.same : Step s s p known known :=
  .look thread running rfl running rfl rfl thread.quiet knows

theorem Step.parentOf (x : Pslot) :
    Step s s p known (after p known (.parentOf x) (s.proc x).parent) := by
  by_cases unlocked : known.held = []
  · simp only [View.after, if_pos unlocked]
    exact .same thread running knows
  by_cases mine : (s.proc x).parent = some p
  · simp only [View.after, if_neg unlocked, if_pos mine]
    refine .look thread running rfl running rfl rfl (absurd · unlocked) { knows with child := ?_ }
    rintro y here
    cases here
    exact mine
  · simp only [View.after, if_neg unlocked, if_neg mine]
    refine .look thread running rfl running rfl rfl (absurd · unlocked)
      { knows with child := by simp, given := ?_, scanned := ?_ }
    · intro y inside exiting
      rw [if_neg exiting] at inside
      rcases advance_le inside with inside | rfl
      · exact knows.given y inside exiting
      · exact mine
    · intro y inside
      dsimp only at inside
      split at inside
      · rename_i locked
        rcases advance_le inside with inside | rfl
        · exact knows.scanned y inside
        · exact ⟨locked, fun _ child => absurd child mine⟩
      · exact knows.scanned y inside

end

variable (thread : Thread s c p known) (knows : Knows s p known)
include thread knows

variable {np : Pslot}

theorem Step.zombie (needed : View.pre p (.zombie np) known) :
    Step s s p known (after p known (.zombie np)
      (if (s.proc np).state = .zombie then some ((s.proc np).pid, (s.proc np).xstate)
        else none)) := by
  obtain ⟨child, locked, own, running⟩ := needed
  have mine := knows.child np child
  have unlocked : known.held ≠ [] := List.ne_nil_of_mem locked
  by_cases dead : (s.proc np).state = .zombie
  · simp only [if_pos dead]
    refine .look thread running rfl running rfl rfl (absurd · unlocked) { knows with found := ?_ }
    rintro x pid xstate here
    cases here
    exact ⟨locked, mine, dead, rfl, rfl⟩
  · simp only [if_neg dead]
    refine .look thread running rfl running rfl rfl (absurd · unlocked)
      { knows with kids := fun _ => ⟨np, mine⟩, scanned := ?_ }
    intro y inside
    rcases advance_le inside with inside | rfl
    · exact knows.scanned y inside
    · exact ⟨own, fun _ _ => dead⟩

theorem Step.ownParent [DecidableEq Cpu] (needed : View.pre p (.ownParent p) known)
    (outcome : Bool) :
    Step s (effect s c outcome (.ownParent p)).1 p known
      (after p known (.ownParent p) (s.proc p).parent) := by
  obtain ⟨-, notInit, locked, running, given, woken⟩ := needed
  have unlocked : known.held ≠ [] := List.ne_nil_of_mem locked
  have same : Knows s p known := knows
  have base := Step.same thread running knows
  refine { base with
    quiet := (absurd · unlocked)
    original := update_self ..
    code := fun y other => .inl ⟨rfl, update_of_ne other ..⟩
    kin := fun q remembered => .inr ⟨notInit, remembered⟩
    born := fun y other unused used => absurd unused used
    knows := { knows with given := ?_, woken := ?_, fresh := ?_ } }
  · intro x inside
    simp [given] at inside
  · intro awake
    simp [woken] at awake
  · intro x stage filling
    obtain ⟨held, fresh⟩ := knows.fresh x stage filling
    have other := thread.ne_unused running fresh.state
    exact ⟨held, fresh.state, fresh.birth, (update_of_ne other ..).trans fresh.original,
      fresh.parent, fresh.code⟩

variable {e : Proc}

omit thread knows in
theorem Calm.of_eq (state : f.state = e.state) (parent : f.parent = e.parent)
    (chan : f.chan = e.chan) : Calm p e f :=
  ⟨by rw [state], by rw [state]; exact id, by rw [state]; exact .inl,
    by rw [state]; exact fun asleep => ⟨asleep, chan⟩, by rw [state]; exact .inl, .inl parent⟩

omit thread knows in
/-- A sleeping process can be made runnable. -/
theorem Calm.wake (asleep : e.state = .sleeping) (state : f.state = .runnable)
    (parent : f.parent = e.parent) : Calm p e f :=
  ⟨by simp [asleep, state], by simp [state], by simp [state], by simp [state],
    fun _ => .inr (.inl asleep), .inl parent⟩

omit thread in
theorem Knows.entry (proc : t.proc = update s.proc x f)
    (code : ∀ y, y ≠ x → t.todo y = s.todo y ∧ t.original y = s.original y)
    (parent : f.parent = (s.proc x).parent)
    (zombie : f.state = .zombie → (s.proc x).state = .zombie ∨ known.scanned = 0)
    (waits : f.state = .sleeping → f.chan = some (.proc x) → s.Waits x ∨ known.woken = false)
    (fresh : (s.proc x).state = .unused → ∀ stage, known.fresh = some (x, stage) →
      f.state = .unused ∧ f.birth = (s.proc x).birth ∧ t.todo x = s.todo x ∧
        t.original x = s.original x)
    (found : (s.proc x).state = .zombie → f.state = .zombie ∧ f.pid = (s.proc x).pid ∧
      f.xstate = (s.proc x).xstate) : Knows t p known := by
  have here : t.proc x = f := by rw [proc, update_self]
  have rest : ∀ y, y ≠ x → t.proc y = s.proc y := fun y other => by
    rw [proc, update_of_ne other]
  refine knows.keep (fun y => update_cases proc y parent fun _ _ => rfl)
    (fun y => update_cases proc y zombie fun _ _ => .inl) (fun y => ?_)
    (fun y stage filling => ?_) fun y pid xstate dead => ?_
  · unfold State.Waits
    exact update_cases proc y (fun asleep => waits asleep.1 asleep.2) fun _ _ => .inl
  · obtain ⟨-, kept⟩ := knows.fresh y stage filling
    rcases eq_or_ne y x with rfl | same
    · obtain ⟨state, birth, todo, original⟩ := fresh kept.state stage filling
      exact ⟨here ▸ state, here ▸ birth, original, todo⟩
    · exact ⟨rest y same ▸ kept.state, by rw [rest y same], (code y same).2, (code y same).1⟩
  · obtain ⟨-, -, state, -⟩ := knows.found y pid xstate dead
    revert state
    exact update_cases proc y found fun _ _ state => ⟨state, rfl, rfl⟩

theorem Step.claim [DecidableEq Cpu] (needed : View.pre p (.claim x) known)
    (unused : (s.proc x).state = .unused) (alone : (s.proc x).parent = none)
    (counts : 0 < s.nextpid) (tidy : s.stale x = true ∨ (s.proc x).killed = false)
    (outcome : Bool) :
    Step s (effect s c outcome (.claim x)).1 p known (after p known (.claim x) true) := by
  obtain ⟨locked, running, none⟩ := needed
  have other := thread.ne_unused running unused
  rw [show effect s c outcome (.claim x) = _ from if_pos unused]
  have kept := knows.entry (t := { s.modify x fun e =>
      { e with pid := .ofNat 32 s.nextpid, birth := s.nextpid } with
      nextpid := s.nextpid + 1
      original := update s.original x .none }) rfl
    (fun y same => ⟨rfl, update_of_ne same ..⟩) rfl .inl
    (fun asleep => by simp [unused] at asleep)
    (by simp [none]) (by simp [unused])
  refine .other thread running locked other rfl rfl rfl (Nat.le_succ _) (fun _ _ => rfl)
    (fun y same => update_of_ne same ..) (.of_eq rfl rfl rfl)
    (fun _ used => absurd unused used) (.inr unused) rfl running rfl
    (fun _ child => absurd alone child) (by simp [none]) (fun _ _ => rfl)
    (fun _ => tidy.imp_right fun unkilled => .inl ⟨unkilled, .inr ⟨.claimed, rfl⟩⟩)
    { kept with fresh := ?_ }
  rintro y stage filling
  cases filling
  refine ⟨locked, ?_, ?_, update_self .., ?_, by simp⟩
  · simpa using unused
  · simpa using counts.ne'
  · simpa using alone

/-- `p->trapframe = kalloc()`, which may leave the entry with its pid. -/
theorem Step.trapframe [DecidableEq Cpu] (needed : View.pre p (.trapframe x) known)
    (outcome : Bool) :
    Step s (effect s c outcome (.trapframe x)).1 p known
      (after p known (.trapframe x) outcome) := by
  obtain ⟨running, claimed⟩ := needed
  cases outcome with
  | true => exact .same thread running knows
  | false =>
    obtain ⟨locked, fresh⟩ := knows.fresh x .claimed claimed
    have other := thread.ne_unused running fresh.state
    have kept : Knows (s.setStale x true) p { known with fresh := none } :=
      { knows with fresh := by simp }
    refine .other thread running locked other (f := s.proc x)
      (by simp [effect, State.setStale]) rfl rfl le_rfl (fun _ _ => rfl) (fun _ _ => rfl)
      (.refl p _) (fun unused used => absurd unused used) (.inr fresh.state) rfl running rfl
      (fun _ child => absurd fresh.parent child) (fun y stage same filling => ?_)
      (fun y same => update_of_ne same ..) (fun _ => .inl (update_self ..)) kept
    rw [claimed] at filling
    cases filling
    exact absurd rfl same

theorem Step.initContext (needed : View.pre p (.initContext x) known) :
    Step s (s.setTodo x forkret) p known (after p known (.initContext x) ()) := by
  obtain ⟨running, claimed⟩ := needed
  obtain ⟨locked, fresh⟩ := knows.fresh x .claimed claimed
  have other := thread.ne_unused running fresh.state
  refine .other thread running locked other (f := s.proc x) (by simp [State.setTodo]) rfl rfl le_rfl
    (fun y same => update_of_ne same ..) (fun _ _ => rfl) (.refl p _)
    (fun unused used => absurd unused used) (.inr fresh.state) rfl running rfl
    (fun _ child => absurd fresh.parent child) (fun y stage same filling => ?_) (fun _ _ => rfl)
    (fun unused => .inr (.inr ⟨unused, rfl, rfl, rfl, fun _ _ => ⟨.prepared, rfl⟩⟩))
    { knows with fresh := ?_ }
  · rw [claimed] at filling
    cases filling
    exact absurd rfl same
  · rintro y stage filling
    cases filling
    exact ⟨locked, fresh.state, fresh.birth, fresh.original, fresh.parent, fun _ => update_self ..⟩

/-- `freeproc` of an entry that `fork` gives back. -/
theorem Step.freeproc (needed : View.pre p (.freeproc x) known) :
    Step s ((s.modify x Proc.free).setStale x false) p known (after p known (.freeproc x) ()) := by
  obtain ⟨running, stage, early, filling⟩ := needed
  obtain ⟨locked, fresh⟩ := knows.fresh x stage filling
  have alone : (s.proc x).parent = none := by simpa [early] using fresh.parent
  have other := thread.ne_unused running fresh.state
  have forgot : Knows s p { known with fresh := none } := { knows with fresh := by simp }
  have kept := forgot.entry (t := (s.modify x Proc.free).setStale x false) rfl
    (fun y same => ⟨rfl, rfl⟩) alone.symm (by simp) (by simp) (by simp)
    (by simp [fresh.state])
  refine .other thread running locked other rfl rfl rfl le_rfl (fun _ _ => rfl) (fun _ _ => rfl)
    ⟨by simp [fresh.state], by simp, fun _ => .inl fresh.state, by simp, by simp, .inl alone.symm⟩
    (fun _ used => absurd rfl used) (.inl ⟨rfl, rfl⟩) rfl running rfl
    (fun _ child => absurd rfl child) (fun y _ same adopted => ?_)
    (fun y same => update_of_ne same ..) (fun _ => .inr (.inl ⟨rfl, .inl rfl⟩)) kept
  rw [filling] at adopted
  cases adopted
  exact absurd rfl same

theorem Step.adopt [DecidableEq Cpu] (needed : View.pre p (.adopt np p) known) (outcome : Bool) :
    Step s (effect s c outcome (.adopt np p)).1 p known (after p known (.adopt np p) ()) := by
  obtain ⟨-, running, prepared, given, scanned⟩ := needed
  obtain ⟨locked, fresh⟩ := knows.fresh np .prepared prepared
  have unused := fresh.state
  have other := thread.ne_unused running unused
  have proc : (effect s c outcome (.adopt np p)).1.proc = update s.proc np
      { s.proc np with parent := some p, creator := (s.proc p).birth } := rfl
  refine .other thread running locked other proc rfl rfl le_rfl (fun _ _ => rfl) (fun _ _ => rfl)
    ⟨.rfl, id, .inl, fun asleep => ⟨asleep, rfl⟩, .inl,
      .inr (.inr (.inl ⟨fresh.parent, rfl, unused, unused⟩))⟩
    (fun _ used => absurd unused used) (.inl ⟨rfl, rfl⟩) rfl running rfl
    (fun _ _ => .inl rfl) (fun y _ same adopted => ?_) (fun _ _ => rfl)
    (fun _ => .inr (.inr ⟨unused, rfl, rfl, rfl, fun _ _ => ⟨.adopted, rfl⟩⟩)) ?_
  · rw [prepared] at adopted
    cases adopted
    exact absurd rfl same
  have rest : ∀ y, y ≠ np → (effect s c outcome (.adopt np p)).1.proc y = s.proc y := by
    intro y same
    rw [proc, update_of_ne same]
  have parent : ∀ y, (s.proc y).parent = some p →
      ((effect s c outcome (.adopt np p)).1.proc y).parent = some p := by
    exact fun y => update_cases proc y (fun _ => rfl) fun _ _ => id
  exact {
    child := fun x child => parent x (knows.child x child)
    given := fun x inside => by simp [given] at inside
    kids := fun some => (knows.kids some).imp parent
    scanned := fun x inside => by simp [scanned] at inside
    woken := fun awake q remembered =>
      (knows.woken awake q remembered).imp_right fun awake waits =>
        awake (waits.of_update proc fun asleep => ⟨asleep, rfl⟩)
    fresh := fun y stage filling => by
      cases filling
      refine ⟨locked, ?_, ?_, fresh.original, ?_, fun _ => fresh.code (by simp)⟩
      · rw [proc, update_self]
        exact unused
      · rw [proc, update_self]
        exact fresh.birth
      · rw [proc, update_self]
        rfl
    found := fun y pid xstate dead => by
      obtain ⟨held, facts⟩ := knows.found y pid xstate dead
      have same : y ≠ np := by
        rintro rfl
        simp [unused] at facts
      rw [rest y same]
      exact ⟨held, facts⟩ }

theorem Step.giveToInit {pp : Pslot} (needed : View.pre p (.giveToInit pp) known)
    (used : (s.proc pp).state ≠ .unused) :
    Step s (s.modify pp fun e => { e with parent := some initproc }) p known
      (after p known (.giveToInit pp) ()) := by
  obtain ⟨child, locked, other, notInit, running, noFresh, noFound⟩ := needed
  have mine := knows.child pp child
  have proc : (s.modify pp fun e => { e with parent := some initproc }).proc =
      update s.proc pp { s.proc pp with parent := some initproc } := rfl
  refine .other thread running locked other rfl rfl rfl le_rfl (fun _ _ => rfl) (fun _ _ => rfl)
    ⟨.rfl, id, .inl, fun asleep => ⟨asleep, rfl⟩, .inl, .inr (.inl ⟨mine, rfl⟩)⟩
    (absurd · used) (.inl ⟨rfl, rfl⟩) rfl running rfl
    (absurd · used) (by simp [noFresh]) (fun _ _ => rfl)
    (absurd · used) ?_
  have away : some initproc ≠ some p := fun same => notInit (Option.some.inj same).symm
  exact {
    child := by simp
    given := fun x => update_cases proc x (fun _ _ => away) fun x same inside =>
      knows.given x ((advance_le inside).resolve_right same)
    kids := by simp
    scanned := fun x => update_cases proc x
      (fun inside => ⟨(knows.scanned pp inside).1, fun _ child => absurd child away⟩)
      fun x _ => knows.scanned x
    woken := fun awake q remembered =>
      (knows.woken awake q remembered).imp_right fun awake waits =>
        awake (waits.of_update proc fun asleep => ⟨asleep, rfl⟩)
    fresh := by simp [noFresh]
    found := by simp [noFound] }

theorem Step.readyFresh (running : known.own = .running) (other : np ≠ p)
    (adopted : known.fresh = some (np, .adopted)) :
    Step s (s.modify np fun e => { e with state := .runnable }) p known
      (after p known (.ready np) ()) := by
  obtain ⟨locked, fresh⟩ := knows.fresh np .adopted adopted
  have unused := fresh.state
  have later : after p known (.ready np) () = { known with fresh := none } := if_neg other
  have kept : Knows s p { known with fresh := none } := { knows with fresh := by simp }
  rw [later]
  refine .other thread running locked other rfl rfl rfl le_rfl (fun _ _ => rfl) (fun _ _ => rfl)
    ⟨by simp [unused], by simp, by simp, by simp, fun _ => .inr (.inr unused), .inl rfl⟩
    (fun _ _ => ⟨fresh.code (by simp), fresh.original⟩) (.inl ⟨rfl, rfl⟩) rfl running rfl
    (by simp) (fun y _ same filling => ?_) (fun _ _ => rfl) (by simp)
    (kept.entry rfl (fun _ _ => ⟨rfl, rfl⟩) rfl (by simp) (by simp) (by simp) (by simp [unused]))
  rw [adopted] at filling
  cases filling
  exact absurd rfl same

theorem Step.readySelf (running : known.own = .running) (locked : .proc p ∈ known.held) :
    Step s (s.modify p fun e => { e with state := .runnable }) p known
      (after p known (.ready p) ()) := by
  have state : (s.proc p).state = .running := thread.state.trans running
  have later : after p known (.ready p) () = { known with own := .runnable } := if_pos rfl
  have kept : Knows s p { known with own := .runnable } := { knows with }
  rw [later]
  refine .self thread running locked rfl rfl rfl le_rfl rfl rfl rfl rfl rfl (by simp) rfl rfl
    (fun _ _ => rfl) (by simp) (fun waits => ?_)
    (kept.entry rfl (fun _ _ => ⟨rfl, rfl⟩) rfl (by simp) (by simp) (by simp [state])
      (by simp [state]))
  simp [State.Waits] at waits

/-- The entry of a process is changed, at most by waking it up. -/
structure Touch (e f : Proc) : Prop where
  birth : f.birth = e.birth
  parent : f.parent = e.parent
  state : f.state = e.state ∨ (e.state = .sleeping ∧ f.state = .runnable)
  chan : f.state = .sleeping → f.chan = e.chan
  pid : f.pid = e.pid
  xstate : f.xstate = e.xstate

omit thread knows in
theorem Touch.calm (touch : Touch e f) : Calm p e f := by
  rcases touch.state with same | ⟨asleep, awake⟩
  · exact ⟨by rw [same], by rw [same]; exact id, by rw [same]; exact .inl,
      fun asleep => ⟨same ▸ asleep, touch.chan asleep⟩, by rw [same]; exact .inl,
      .inl touch.parent⟩
  · exact .wake asleep awake touch.parent

omit thread in
theorem Knows.touch {change : Proc → Proc} (touch : Touch (s.proc x) (change (s.proc x)))
    (mark : Bool) : Knows ((s.modify x change).setStale x mark) p known := by
  refine knows.entry rfl (fun _ _ => ⟨rfl, rfl⟩) touch.parent ?_ ?_ ?_ ?_
  · rcases touch.state with same | ⟨-, awake⟩
    · rw [same]
      exact .inl
    · simp [awake]
  · rcases touch.state with same | ⟨-, awake⟩
    · exact fun asleep chan => .inl ⟨same ▸ asleep, touch.chan asleep ▸ chan⟩
    · simp [awake]
  · intro unused stage _
    rcases touch.state with same | ⟨asleep, -⟩
    · exact ⟨same.trans unused, touch.birth, rfl, rfl⟩
    · simp [unused] at asleep
  · intro dead
    rcases touch.state with same | ⟨asleep, -⟩
    · exact ⟨same.trans dead, touch.pid, touch.xstate⟩
    · simp [dead] at asleep

/-- A change that at most wakes up the process. -/
theorem Step.touch (running : known.own = .running) (locked : .proc x ∈ known.held)
    (change : Proc → Proc) (mark : Bool) (touch : Touch (s.proc x) (change (s.proc x)))
    (tidy : (s.proc x).state = .unused → mark = true ∨
      ((change (s.proc x)).killed = (s.proc x).killed ∧ mark = s.stale x)) :
    Step s ((s.modify x change).setStale x mark) p known known := by
  by_cases same : x = p
  · subst same
    have state : (s.proc x).state = .running := thread.state.trans running
    have kept : (change (s.proc x)).state = .running :=
      (touch.calm (p := x)).running.mpr state
    refine .self thread running locked rfl rfl rfl le_rfl rfl rfl touch.parent rfl
      (kept.trans running.symm) (by simp [running]) rfl rfl
      (fun y other => update_of_ne other ..) (by simp [running])
      (fun waits => ?_) (knows.touch touch mark)
    simp [State.Waits, State.setStale, kept] at waits
  · have idle : (change (s.proc x)).state = .unused → (s.proc x).state = .unused := by
      rcases touch.state with same | ⟨-, awake⟩
      · exact fun unused => same.symm.trans unused
      · simp [awake]
    refine .other thread running locked same rfl rfl rfl le_rfl (fun _ _ => rfl) (fun _ _ => rfl)
      touch.calm (fun unused used => ?_) (.inl ⟨rfl, rfl⟩) rfl running rfl (fun unused child => ?_)
      (fun _ _ _ => id) (fun y other => update_of_ne other ..) (fun unused => ?_)
      (knows.touch touch mark)
    · rcases touch.state with same | ⟨asleep, -⟩
      · exact absurd (same.trans unused) used
      · simp [unused] at asleep
    · by_cases mine : known.fresh = some (x, .adopted)
      · exact .inl mine
      · exact .inr ⟨mine, touch.parent⟩
    · have self : ((s.modify x change).setStale x mark).stale x = mark := update_self ..
      rw [self]
      refine (tidy (idle unused)).imp_right fun kept => .inr ?_
      exact ⟨idle unused, kept.1, touch.pid, kept.2, fun stage filling => ⟨stage, filling⟩⟩

omit thread knows in
theorem State.setStale_self (s : State Cpu) (x : Pslot) : s.setStale x (s.stale x) = s := by
  simp [State.setStale]

variable {chan : Chan}

omit thread knows in
/-- After `wakeup1` the original parent does not sleep in `wait`. -/
theorem Step.woken (step : Step s t p known known) (locked : .proc x ∈ known.held)
    (awake : chan = .proc x → ¬ t.Waits x) :
    Step s t p known (after p known (.wakeup x chan) ()) := by
  by_cases parent : chan = .proc x ∧ known.original = some x
  · have later : after p known (.wakeup x chan) () = { known with woken := true } :=
      if_pos parent
    rw [later]
    refine { step with
      quiet := fun unlocked => by simp [unlocked] at locked
      knows := { step.knows with woken := fun _ q remembered => ?_ } }
    obtain rfl : x = q := Option.mem_unique parent.2 remembered
    exact ⟨locked, awake parent.1⟩
  · rw [show after p known (.wakeup x chan) () = known from if_neg parent]
    exact step

theorem Step.wakeup [DecidableEq Cpu] (needed : View.pre p (.wakeup x chan) known)
    (outcome : Bool) :
    Step s (effect s c outcome (.wakeup x chan)).1 p known (after p known (.wakeup x chan) ()) := by
  obtain ⟨locked, running⟩ := needed
  by_cases asleep : (s.proc x).state = .sleeping ∧ (s.proc x).chan = some chan
  · rw [show effect s c outcome (.wakeup x chan) = _ from if_pos asleep]
    have step := Step.touch thread knows running locked (fun e => { e with state := .runnable })
      (s.stale x) ⟨rfl, rfl, .inr ⟨asleep.1, rfl⟩, by simp, rfl, rfl⟩ (by simp [asleep.1])
    rw [show s.stale x = (s.modify x _).stale x from rfl, State.setStale_self] at step
    refine step.woken locked fun _ waits => ?_
    simp [State.Waits] at waits
  · rw [show effect s c outcome (.wakeup x chan) = _ from if_neg asleep]
    exact (Step.same thread running knows).woken locked fun here waits =>
      asleep ⟨waits.1, here ▸ waits.2⟩

theorem Step.kill (locked : .proc x ∈ known.held) (running : known.own = .running) :
    Step s ((s.modify x fun e => { e with
      killed := true
      state := if e.state = .sleeping then .runnable else e.state }).setStale x
        (s.stale x || decide ((s.proc x).state = .unused))) p known known := by
  refine .touch thread knows running locked _ _ ⟨rfl, rfl, ?_, ?_, rfl, rfl⟩ ?_
  · by_cases asleep : (s.proc x).state = .sleeping <;> simp [asleep]
  · by_cases asleep : (s.proc x).state = .sleeping <;> simp [asleep]
  · exact fun unused => .inl (by simp [unused])

theorem Step.clearChan (locked : .proc p ∈ known.held) (running : known.own = .running) :
    Step s (s.modify p fun e => { e with chan := none }) p known known := by
  have step := Step.touch thread knows running locked (fun e => { e with chan := none }) (s.stale p)
    ⟨rfl, rfl, .inl rfl, fun asleep => by simp [thread.state, running] at asleep, rfl, rfl⟩
    fun _ => .inr ⟨rfl, rfl⟩
  exact State.setStale_self (s.modify p fun e => { e with chan := none }) p ▸ step

theorem Step.reap [DecidableEq Cpu] {pid xstate : BitVec 32}
    (needed : View.pre p (.reap np p pid xstate) known) (outcome : Bool) :
    Step s (effect s c outcome (.reap np p pid xstate)).1 p known
      (after p known (.reap np p pid xstate) ()) := by
  obtain ⟨-, found, running⟩ := needed
  obtain ⟨locked, child, dead, -, -⟩ := knows.found np pid xstate found
  have other : np ≠ p := by
    rintro rfl
    simp [thread.state, running] at dead
  have proc : (effect s c outcome (.reap np p pid xstate)).1.proc =
      update s.proc np (Proc.free (s.proc np)) := rfl
  refine .other thread running locked other rfl rfl rfl le_rfl (fun _ _ => rfl) (fun _ _ => rfl)
    ⟨by simp [dead], by simp, fun _ => .inr ⟨dead, rfl⟩,
      by simp, by simp, .inr (.inr (.inr ⟨.inr child, rfl, rfl⟩))⟩
    (fun unused => by simp [dead] at unused) (.inl ⟨rfl, rfl⟩) rfl running rfl
    (fun _ child => absurd rfl child) (fun _ _ _ => id)
    (fun y same => update_of_ne same ..) (fun _ => .inr (.inl ⟨rfl, .inl rfl⟩)) ?_
  exact {
    child := by simp
    given := fun x => update_cases proc x (by simp) fun x _ => knows.given x
    kids := by simp
    scanned := fun x => update_cases proc x (fun inside => ⟨(knows.scanned np inside).1, by simp⟩)
      fun x _ => knows.scanned x
    woken := fun awake q remembered =>
      (knows.woken awake q remembered).imp_right fun awake waits =>
        awake (waits.of_update proc (by simp))
    fresh := fun y stage filling => by
      obtain ⟨held, fresh⟩ := knows.fresh y stage filling
      have same : y ≠ np := by
        rintro rfl
        exact absurd fresh.state (by simp [dead])
      have kept : (effect s c outcome (.reap np p pid xstate)).1.proc y = s.proc y :=
        update_of_ne same ..
      exact ⟨held, kept ▸ fresh.state, kept ▸ fresh.birth, fresh.original,
        kept ▸ fresh.parent, fresh.code⟩
    found := by simp }

theorem Step.sleep (needed : View.pre p (.sleep p chan) known) :
    Step s (s.modify p fun e => { e with state := .sleeping, chan := some chan }) p known
      (after p known (.sleep p chan) ()) := by
  obtain ⟨-, locked, running, scan⟩ := needed
  have state : (s.proc p).state = .running := thread.state.trans running
  have kept : Knows s p { known with own := .sleeping, woken := false } :=
    { knows with woken := by simp }
  have later := kept.entry (t := s.modify p fun e =>
    { e with state := .sleeping, chan := some chan }) rfl (fun _ _ => ⟨rfl, rfl⟩) rfl (by simp)
    (fun _ _ => .inr rfl) (by simp [state]) (by simp [state])
  refine .self thread running locked rfl rfl rfl le_rfl rfl rfl rfl rfl rfl (by simp) rfl rfl
    (fun _ _ => rfl) (by simp) (fun waits notInit => ?_) later
  have here : chan = .proc p := by simpa using waits.2
  obtain ⟨-, kids, scanned⟩ := scan p here
  exact ⟨later.kids kids, fun x child =>
    (later.scanned x (by simp [scanned])).2 notInit child⟩

theorem Step.die [DecidableEq Cpu] {status : BitVec 32} (needed : View.pre p (.die p status) known)
    (outcome : Bool) :
    Step s (effect s c outcome (.die p status)).1 p known (after p known (.die p status) ()) := by
  obtain ⟨-, notInit, locked, running, given, woken, q, remembered, parent⟩ := needed
  have state : (s.proc p).state = .running := thread.state.trans running
  have kept : Knows s p { known with own := .zombie, scanned := 0 } :=
    { knows with scanned := by simp }
  have later := kept.entry (t := (effect s c outcome (.die p status)).1) rfl
    (fun _ _ => ⟨rfl, rfl⟩) rfl (fun _ => .inr rfl) (by simp) (by simp [state]) (by simp [state])
  refine .self thread running locked rfl rfl rfl le_rfl rfl rfl rfl rfl rfl (by simp) rfl rfl
    (fun _ _ => rfl)
    (fun _ => ⟨notInit, fun y => ?_, q, remembered, parent, (later.woken woken q remembered).2⟩)
    (fun waits => ?_) later
  · exact later.given y (by simp [given]) (by simp [remembered])
  · have asleep := waits.1
    rw [show (effect s c outcome (.die p status)).1.proc p = _ from update_self ..] at asleep
    cases asleep

end Own

section Switch

variable {s t : State Cpu} {c d : Cpu} {p q : Pslot} {known later : View} {view : Cpu → View}
  {pass : Cpu → Pass} {seen : Pass}

/-- A CPU that runs a process does not notice what another CPU does. -/
theorem Thread.frame (thread : Thread s d q known) (cpu : t.cpu d = s.cpu d)
    (lock : ∀ l, t.lock l = some d ↔ s.lock l = some d)
    (state : (t.proc q).state = (s.proc q).state) (original : t.original q = s.original q)
    (todo : t.todo q = s.todo q) : Thread t d q known :=
  { thread with
    proc := cpu ▸ thread.proc
    noff := cpu ▸ thread.noff
    lock := fun l => (lock l).trans (thread.lock l)
    state := state.trans thread.state
    original := original.trans thread.original
    code := todo ▸ thread.code
    loop := cpu ▸ thread.loop }

/-- A CPU that runs its scheduler does not notice what another CPU does. -/
theorem Idle.frame (idle : Idle s d seen) (cpu : t.cpu d = s.cpu d)
    (lock : ∀ l, t.lock l = some d ↔ s.lock l = some d)
    (state : ∀ q, .proc q ∈ seen.held → (t.proc q).state = (s.proc q).state) : Idle t d seen :=
  { idle with
    proc := cpu ▸ idle.proc
    noff := cpu ▸ idle.noff
    lock := fun l => (lock l).trans (idle.lock l)
    chosen := fun q chosen => ⟨(idle.chosen q chosen).1, by
      rw [state q (idle.chosen q chosen).1]
      exact (idle.chosen q chosen).2⟩
    loop := cpu ▸ idle.loop }

theorem Knows.congr (knows : Knows s q known) (proc : t.proc = s.proc)
    (original : t.original = s.original)
    (todo : ∀ x, (s.proc x).state = .unused → t.todo x = s.todo x) : Knows t q known := by
  refine knows.keep (fun y => by rw [proc]) (fun y => by rw [proc]; exact .inl)
    (fun y => by rw [State.Waits, proc]; exact .inl) (fun y stage filling => ?_)
    fun y pid xstate dead => ?_
  · obtain ⟨-, fresh⟩ := knows.fresh y stage filling
    exact ⟨proc ▸ fresh.state, by rw [proc], by rw [original], todo y fresh.state⟩
  · obtain ⟨-, -, state, -⟩ := knows.found y pid xstate dead
    exact ⟨proc ▸ state, by rw [proc], by rw [proc]⟩

theorem Table.congr {view' : Cpu → View} (table : Table s view) (proc : t.proc = s.proc)
    (original : t.original = s.original) (pids : t.nextpid = s.nextpid) (stale : t.stale = s.stale)
    (filling : ∀ c p y stage, s.Runs c p → (view c).fresh = some (y, stage) →
      ∃ c p, t.Runs c p ∧ (view' c).fresh = some (y, stage)) : Table t view' where
  counts := pids ▸ table.counts
  initUsed := proc ▸ table.initUsed
  initTop := proc ▸ table.initTop
  kin := by rw [proc, original]; exact table.kin
  orphan y unused := by
    rw [proc] at unused ⊢
    refine (table.orphan y unused).imp_right ?_
    rintro ⟨c, p, here, fresh⟩
    exact filling c p y _ here fresh
  tidy y unused := by
    rw [proc] at unused ⊢
    rw [stale]
    refine (table.tidy y unused).imp_right (And.imp_right (Or.imp_right ?_))
    rintro ⟨c, p, stage, here, fresh⟩
    obtain ⟨d, q, there, fresh⟩ := filling c p y stage here fresh
    exact ⟨d, q, stage, there, fresh⟩
  childless := by rw [proc]; exact table.childless
  waits := by simp only [State.Waits, proc]; exact table.waits

variable [DecidableEq Cpu]

section

variable (good : Good s view pass)
include good

/-- A step that leaves the table alone may change the locks of its CPU, the code of the process
there, and whether it runs. -/
theorem Good.onCpu (proc : t.proc = s.proc) (original : t.original = s.original)
    (pids : t.nextpid = s.nextpid) (stale : t.stale = s.stale)
    (todo : ∀ q, ¬ s.Runs c q → t.todo q = s.todo q) (cpu : ∀ d, d ≠ c → t.cpu d = s.cpu d)
    (lock : ∀ d, d ≠ c → ∀ l, t.lock l = some d ↔ s.lock l = some d)
    (own : ∀ q, t.Runs c q → s.Runs c q ∧ Thread t c q later ∧ Knows s q later)
    (idle : (t.cpu c).current = none → Idle t c seen) (left : ∀ q, s.Runs c q → ¬ t.Runs c q →
      (s.proc q).state ≠ .running ∧ ThreadMeets q (t.todo q) (resumed q (s.original q)))
    (fresh : ∀ q y stage, s.Runs c q → (view c).fresh = some (y, stage) →
      t.Runs c q ∧ later.fresh = some (y, stage)) :
    Good t (update view c later) (update pass c seen) := by
  have others : ∀ d q, d ≠ c → (t.Runs d q ↔ s.Runs d q) := fun d q other => by
    rw [State.Runs, State.Runs, cpu d other]
  have earlier : ∀ d q, t.Runs d q → s.Runs d q := by
    intro d q there
    rcases eq_or_ne d c with rfl | other
    · exact (own q there).1
    · exact (others d q other).mp there
  have unused : ∀ x, (s.proc x).state = .unused → t.todo x = s.todo x := by
    refine fun x unused => todo x fun here => ?_
    have thread := good.machine.runs c x here
    exact thread.used (thread.state.symm.trans unused)
  -- a process that no CPU runs now was run by this one or by none
  have nowhere : ∀ q, (∀ d, ¬ t.Runs d q) → ¬ s.Runs c q → ∀ d, ¬ s.Runs d q := by
    intro q gone away d there
    rcases eq_or_ne d c with rfl | other
    · exact away there
    · exact gone d ((others d q other).mpr there)
  refine ⟨⟨fun d q there => ?_, fun d resting => ?_, fun d e q first second =>
    good.machine.unique d e q (earlier d q first) (earlier e q second), fun q gone => ?_,
    fun q gone parked => ?_⟩, fun d q there => ?_, ?_⟩
  · rcases eq_or_ne d c with rfl | other
    · rw [update_self]
      exact (own q there).2.1
    · rw [update_of_ne other]
      have there := earlier d q there
      exact (good.machine.runs d q there).frame (cpu d other) (lock d other) (by rw [proc])
        (by rw [original]) (todo q fun here => other (good.machine.unique d c q there here))
  · rcases eq_or_ne d c with rfl | other
    · rw [update_self]
      exact idle resting
    · rw [update_of_ne other]
      exact (good.machine.idle d (cpu d other ▸ resting)).frame (cpu d other) (lock d other)
        fun _ _ => by rw [proc]
  · rw [proc]
    by_cases here : s.Runs c q
    · exact (left q here (gone c)).1
    · exact good.machine.stopped q (nowhere q gone here)
  · rw [original]
    by_cases here : s.Runs c q
    · exact (left q here (gone c)).2
    · rw [proc] at parked
      rw [todo q here]
      exact good.machine.parked q (nowhere q gone here) parked
  · rcases eq_or_ne d c with rfl | other
    · rw [update_self]
      exact (own q there).2.2.congr proc original unused
    · rw [update_of_ne other]
      exact (good.knows d q (earlier d q there)).congr proc original unused
  · refine good.table.congr proc original pids stale fun d q y stage there filling => ?_
    rcases eq_or_ne d c with rfl | other
    · obtain ⟨still, filling⟩ := fresh q y stage there filling
      exact ⟨d, q, still, by rw [update_self]; exact filling⟩
    · exact ⟨d, q, (others d q other).mpr there, by rw [update_of_ne other]; exact filling⟩

theorem Good.relock (here : s.Runs c p) (proc : t.proc = s.proc)
    (original : t.original = s.original) (pids : t.nextpid = s.nextpid) (stale : t.stale = s.stale)
    (todo : ∀ q, q ≠ p → t.todo q = s.todo q) (cpu : ∀ d, d ≠ c → t.cpu d = s.cpu d)
    (current : t.Runs c p) (lock : ∀ d, d ≠ c → ∀ l, t.lock l = some d ↔ s.lock l = some d)
    (thread : Thread t c p later) (knows : Knows s p later)
    (fresh : ∀ y stage, (view c).fresh = some (y, stage) → later.fresh = some (y, stage)) :
    Good t (update view c later) pass := by
  have only : ∀ q, s.Runs c q → q = p := fun q there => Option.mem_unique there here
  rw [← update_eq_self c pass]
  refine good.onCpu proc original pids stale (fun q away => todo q fun same => away (same ▸ here))
    cpu lock (fun q there => ?_) (fun resting => ?_) (fun q there gone => ?_)
    fun q y stage there filling => ⟨only q there ▸ current, fresh y stage filling⟩
  · obtain rfl : p = q := Option.mem_unique current there
    exact ⟨here, thread, knows⟩
  · simp [current] at resting
  · exact absurd (only q there ▸ current) gone

theorem Good.idleStep (resting : (s.cpu c).current = none) (proc : t.proc = s.proc)
    (original : t.original = s.original) (pids : t.nextpid = s.nextpid) (stale : t.stale = s.stale)
    (todo : t.todo = s.todo) (cpu : ∀ d, d ≠ c → t.cpu d = s.cpu d)
    (current : (t.cpu c).current = none)
    (lock : ∀ d, d ≠ c → ∀ l, t.lock l = some d ↔ s.lock l = some d) (idle : Idle t c seen) :
    Good t view (update pass c seen) := by
  have nobody : ∀ q, ¬ s.Runs c q := fun q there => by simp [there] at resting
  rw [← update_eq_self c view]
  exact good.onCpu proc original pids stale (fun _ _ => by rw [todo]) cpu lock
    (fun q there => by simp [current] at there) (fun _ => idle)
    (fun q there => absurd there (nobody q)) fun q _ _ there => absurd there (nobody q)

theorem Good.sched (here : s.Runs c p) (needed : View.pre p .sched (view c)) (code : Code Next)
    (meets : ThreadMeets p code (resumed p (view c).original)) :
    Good ((s.setCpu c fun u => { u with current := none }).setTodo p code) view
      (update pass c ⟨[.proc p], some p⟩) := by
  obtain ⟨held, away⟩ := needed
  have thread := good.machine.runs c p here
  have state : (s.proc p).state ≠ .running := thread.state ▸ away
  have self : ((s.setCpu c fun u => { u with current := none }).cpu c) =
      { s.cpu c with current := none } := update_self ..
  have only : ∀ q, s.Runs c q → q = p := fun q there => Option.mem_unique there here
  rw [← update_eq_self c view]
  refine good.onCpu rfl rfl rfl rfl (fun q away => update_of_ne (fun same => away ?_) ..)
    (fun d other => update_of_ne other ..) (fun _ _ _ => .rfl) (fun q there => ?_)
    (fun _ => ?_) (fun q there _ => ?_) fun q y stage there filling => ?_
  · exact same ▸ here
  · simp [State.setTodo, self] at there
  · exact {
      proc := by rw [State.setTodo, self]; exact thread.proc
      noff := by rw [State.setTodo, self, thread.noff, held]
      lock := fun l => (thread.lock l).trans (by rw [held])
      chosen := by
        rintro q chosen
        cases chosen
        exact ⟨by simp, state⟩
      loop := by rw [State.setTodo, self]; exact thread.loop }
  · obtain rfl := only q there
    refine ⟨state, ?_⟩
    rw [show ((s.setCpu c fun u => { u with current := none }).setTodo q code).todo q = code
      from update_self ..]
    exact thread.original ▸ meets
  · obtain ⟨locked, fresh⟩ := (good.knows c p here).fresh y stage filling
    obtain rfl : y = p := by simpa [held] using locked
    exact absurd (thread.state.symm.trans fresh.state) thread.used

end

/-- The state after `p->state = RUNNING; c->proc = p; swtch`. -/
structure Dispatched (s t : State Cpu) (c : Cpu) (p : Pslot) (loop : Code Unit) : Prop where
  lock : t.lock = s.lock
  original : t.original = s.original
  pids : t.nextpid = s.nextpid
  stale : t.stale = s.stale
  todo : t.todo = s.todo
  chosen : (s.proc p).state = .runnable
  entry : t.proc p = { s.proc p with state := .running }
  others : ∀ q, q ≠ p → t.proc q = s.proc q
  self : t.cpu c = { s.cpu c with proc := some p, current := some p, loop }
  rest : ∀ d, d ≠ c → t.cpu d = s.cpu d

namespace Dispatched

variable {loop : Code Unit}

section

omit [DecidableEq Cpu]

section

variable (switch : Dispatched s t c p loop)
include switch

theorem parent (y : Pslot) : (t.proc y).parent = (s.proc y).parent := by
  by_cases same : y = p
  · rw [same, switch.entry]
  · rw [switch.others y same]

theorem state (away : (t.proc y).state ≠ .running) : t.proc y = s.proc y := by
  refine switch.others y ?_
  rintro rfl
  rw [switch.entry] at away
  exact away rfl

theorem waits (waits : t.Waits y) : s.Waits y := by
  rw [State.Waits, ← switch.state (by simp [waits.1])]
  exact waits

theorem knows (knows : Knows s q known) : Knows t q known := by
  refine knows.keep switch.parent (fun y dead => ?_) (fun y asleep => .inl (switch.waits asleep))
    (fun y stage filling => ?_) fun y pid xstate dead => ?_
  · rw [← switch.state (by simp [dead])]
    exact .inl dead
  · obtain ⟨-, fresh⟩ := knows.fresh y stage filling
    have other : y ≠ p := by
      rintro rfl
      exact absurd fresh.state (by simp [switch.chosen])
    exact ⟨switch.others y other ▸ fresh.state, by rw [switch.others y other],
      by rw [switch.original], by rw [switch.todo]⟩
  · obtain ⟨-, -, state, -⟩ := knows.found y pid xstate dead
    have other : y ≠ p := by
      rintro rfl
      exact absurd state (by simp [switch.chosen])
    rw [switch.others y other]
    exact ⟨state, rfl, rfl⟩

theorem table {view' : Cpu → View} (table : Table s view)
    (filling : ∀ d q y stage, s.Runs d q → (view d).fresh = some (y, stage) →
      t.Runs d q ∧ (view' d).fresh = some (y, stage)) : Table t view' where
  counts := switch.pids ▸ table.counts
  initUsed := by
    constructor <;> intro dead
    · exact table.initUsed.1 (switch.state (y := initproc) (by simp [dead]) ▸ dead)
    · exact table.initUsed.2 (switch.state (y := initproc) (by simp [dead]) ▸ dead)
  initTop := (switch.parent _).trans table.initTop
  kin y q remembered used := by
    rw [switch.parent]
    refine table.kin y q (switch.original ▸ remembered) ?_
    by_cases same : y = p
    · simp [same, switch.chosen]
    · exact switch.others y same ▸ used
  orphan y unused := by
    rw [switch.parent]
    have before := switch.state (y := y) (by simp [unused])
    refine (table.orphan y (before ▸ unused)).imp_right ?_
    rintro ⟨d, q, there, fresh⟩
    exact ⟨d, q, filling d q y _ there fresh⟩
  tidy y unused := by
    have before := switch.state (y := y) (by simp [unused])
    rw [before] at unused ⊢
    rw [switch.stale]
    refine (table.tidy y unused).imp_right (And.imp_right (Or.imp_right ?_))
    rintro ⟨d, q, stage, there, fresh⟩
    obtain ⟨there, fresh⟩ := filling d q y stage there fresh
    exact ⟨d, q, stage, there, fresh⟩
  childless x dead y := by
    rw [switch.parent]
    have before := switch.state (y := x) (by rcases dead with dead | dead <;> simp [dead])
    exact table.childless x (before ▸ dead) y
  waits x notInit waits := by
    obtain ⟨⟨y, child⟩, alive⟩ := table.waits x notInit (switch.waits waits)
    refine ⟨⟨y, (switch.parent y).trans child⟩, fun z child dead => ?_⟩
    have before := switch.state (y := z) (by simp [dead])
    exact alive z ((switch.parent z).symm.trans child) (before ▸ dead)

end

end

end Dispatched

theorem Good.dispatch {loop : Code Unit} (good : Good s view pass)
    (resting : (s.cpu c).current = none) (switch : Dispatched s t c p loop)
    (held : pass c = ⟨[.proc p], none⟩) (meets : LoopMeets loop ⟨[.proc p], some p⟩) :
    Good t (update view c (resumed p (s.original p))) pass := by
  have idle := good.machine.idle c resting
  have nowhere : ∀ d, ¬ s.Runs d p := by
    intro d there
    have thread := good.machine.runs d p there
    have away : (view d).own ≠ .running := by
      rw [← thread.state, switch.chosen]
      simp
    have locked := (thread.lock _).mpr (thread.away away)
    have mine := (idle.lock (.proc p)).mpr (by simp [held])
    obtain rfl := Option.mem_unique locked mine
    simp [there] at resting
  have apart : ∀ {d q}, s.Runs d q → d ≠ c := by
    rintro d q there rfl
    simp [there] at resting
  have runs : ∀ d q, t.Runs d q ↔ (d = c ∧ q = p) ∨ (d ≠ c ∧ s.Runs d q) := by
    intro d q
    rcases eq_or_ne d c with rfl | same
    · simp [switch.self, eq_comm]
    · simp [switch.rest d same, same]
  have lock : ∀ l d, t.lock l = some d ↔ s.lock l = some d := fun l d => by rw [switch.lock]
  constructor
  · constructor
    · intro d q there
      rcases (runs d q).mp there with ⟨rfl, rfl⟩ | ⟨same, there⟩
      · rw [update_self]
        exact {
          proc := by rw [switch.self]
          noff := by
            rw [switch.self]
            exact idle.noff.trans (by simp [held])
          nodup := by simp
          lock := fun l => (lock l d).trans ((idle.lock l).trans (by simp [held]))
          state := by
            rw [switch.entry]
            rfl
          used := by simp [base]
          away := by simp [base]
          quiet := by simp
          original := by
            rw [switch.original]
            rfl
          code := by
            rw [switch.todo]
            exact good.machine.parked q nowhere (.inl switch.chosen)
          loop := by
            rw [switch.self]
            exact meets }
      · rw [update_of_ne same]
        have other : q ≠ p := by
          rintro rfl
          exact nowhere d there
        exact (good.machine.runs d q there).frame (switch.rest d same) (fun l => lock l d)
          (by rw [switch.others q other]) (by rw [switch.original]) (by rw [switch.todo])
    · intro d quiet
      have same : d ≠ c := by
        rintro rfl
        simp [switch.self] at quiet
      have resting := switch.rest d same ▸ quiet
      have other := good.machine.idle d resting
      refine other.frame (switch.rest d same) (fun l => lock l d) fun q locked => ?_
      rw [switch.others]
      rintro rfl
      have first := (other.lock _).mpr locked
      have mine := (idle.lock (.proc q)).mpr (by simp [held])
      exact same (Option.mem_unique first mine)
    · intro d e q first second
      rcases (runs d q).mp first with ⟨rfl, rfl⟩ | ⟨-, first⟩
      · rcases (runs e q).mp second with ⟨rfl, -⟩ | ⟨-, second⟩
        · rfl
        · exact absurd second (nowhere e)
      · rcases (runs e q).mp second with ⟨-, rfl⟩ | ⟨-, second⟩
        · exact absurd first (nowhere d)
        · exact good.machine.unique d e q first second
    · intro q gone
      have other : q ≠ p := by
        rintro rfl
        exact gone c ((runs c q).mpr (.inl ⟨rfl, rfl⟩))
      rw [switch.others q other]
      exact good.machine.stopped q fun d there =>
        gone d ((runs d q).mpr (.inr ⟨apart there, there⟩))
    · intro q gone parked
      have other : q ≠ p := by
        rintro rfl
        exact gone c ((runs c q).mpr (.inl ⟨rfl, rfl⟩))
      rw [switch.others q other] at parked
      rw [switch.todo, switch.original]
      exact good.machine.parked q (fun d there =>
        gone d ((runs d q).mpr (.inr ⟨apart there, there⟩))) parked
  · intro d q there
    rcases (runs d q).mp there with ⟨rfl, rfl⟩ | ⟨same, there⟩
    · rw [update_self]
      constructor <;> simp [base]
    · rw [update_of_ne same]
      exact switch.knows (good.knows d q there)
  · refine switch.table good.table fun d q y stage there filling => ?_
    have same := apart there
    exact ⟨(runs d q).mpr (.inr ⟨same, there⟩), by rw [update_of_ne same]; exact filling⟩

end Switch

end OsLab.Sched
