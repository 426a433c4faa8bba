import OsLab.Fs.Calls

/-!
# What a process holds and knows in a call

The view of a process inside a call: the references, locks and open files it has to give back, and
what it has learnt about descriptors.  The specification says for every operation what must be held
and known before it and what is after it.
-/

namespace OsLab.Fs

/-- What a process has to give back before its call returns. -/
structure Holds where
  tx : Bool
  refs : List Slot
  /-- An inode that `iput` has freed; its `ref--` is still to come. -/
  dying : Option Slot
  locked : List Slot
  /-- Open files that no descriptor refers to. -/
  files : List Fslot
  /-- Open files whose type is not set yet. -/
  blanks : List Fslot
  /-- A descriptor that has no reference of its own, and its file. -/
  loose : Option (Fd × Fslot)
  /-- The reference of the current directory has been taken out. -/
  cwdGone : Bool
  /-- A process that `fork` fills: the descriptors it has and, after them, its directory. -/
  child : Option (Pslot × Nat)
  homeless : Bool

/-- What a process knows without holding it. -/
structure Facts where
  slots : List (Fd × Fslot)
  /-- An open file of the process and its inode. -/
  target : Option (Fslot × Slot)
  /-- How many descriptors `exit` has found or made unused. -/
  closed : Nat

/-- What a process holds and knows. -/
structure View where
  holds : Holds
  facts : Facts

namespace View

/-- Nothing is held outside a call. -/
def idle : Holds := ⟨false, [], none, [], [], [], none, false, none, false⟩

/-- Nothing is known at the start of a call. -/
def base : View := ⟨idle, ⟨[], none, 0⟩⟩

/-- The file refers to an inode. -/
def inodeOf (file : File) : Option Slot :=
  match file.type with
  | .inode | .device => file.ip
  | _ => none

/-- The inode may be locked: it is referenced by the process or by one of its files. -/
def Backed (view : View) (ip : Slot) : Prop :=
  ip ∈ view.holds.refs ∨ ∃ f, view.facts.target = some (f, ip)

/-- What an operation needs. -/
def pre : Op → View → Prop
  | .panic halt, _ =>
    halt = .initExiting ∨ halt = .fileread ∨ halt = .filewrite ∨ halt = .shortFilewrite
  | .beginOp, view => view.holds.tx = false
  | .endOp, view => view.holds.tx = true ∧ view.holds.dying = none
  | .dupCwd, view | .takeCwd, view => view.holds.cwdGone = false ∧ view.holds.homeless = false
  | .ilock ip, view => Backed view ip
  | .iputStart ip, view =>
    ip ∈ view.holds.refs ∧ ip ∉ view.holds.locked ∧ view.holds.dying = none
  | .iputEnd ip, view => view.holds.dying = some ip
  | .iunlock ip, view | .inode ip, view | .dirlookup ip _, view | .raiseLink ip, view
  | .lowerLink ip, view | .itrunc ip, view | .readi ip _ _ _, view | .writei ip _ _ _, view =>
    ip ∈ view.holds.locked
  | .dirlink dp _ ip, view => dp ∈ view.holds.locked ∧ ip ∈ view.holds.refs
  | .createEntry dp ip _ _ _ _, view | .unlinkEntry dp ip _, view =>
    dp ∈ view.holds.locked ∧ ip ∈ view.holds.locked ∧ ip ≠ dp
  | .filedup f, view =>
    (∃ fd, view.holds.loose = some (fd, f)) ∧ (∃ fd, (fd, f) ∈ view.facts.slots) ∧
      f ∉ view.holds.blanks
  | .fileclose f none, view => f ∈ view.holds.files
  | .fileclose f (some fd), view =>
    (fd, f) ∈ view.facts.slots ∧ view.holds.loose = none
  | .file f, view =>
    (∃ fd, (fd, f) ∈ view.facts.slots) ∨ ∃ ip, view.facts.target = some (f, ip)
  | .openFile f ip _, view =>
    f ∈ view.holds.blanks ∧ (∃ fd, (fd, f) ∈ view.facts.slots) ∧ ip ∈ view.holds.refs ∧
      ip ∈ view.holds.locked
  | .openPipe f0 f1, view =>
    f0 ∈ view.holds.blanks ∧ f1 ∈ view.holds.blanks
  | .advance f _, view => ∃ ip, view.facts.target = some (f, ip)
  | .ofile _, view => view.holds.loose = none
  | .clearOfile fd, view =>
    (∃ f, view.holds.loose = some (fd, f)) ∨
      (view.holds.loose = none ∧ ∃ f, (fd, f) ∈ view.facts.slots)
  | .fdalloc f, view =>
    view.holds.loose = none ∧ (f ∈ view.holds.files ∨ ∃ fd, (fd, f) ∈ view.facts.slots)
  | .setCwd (some ip), view =>
    view.holds.cwdGone = true ∧ view.holds.homeless = false ∧ ip ∈ view.holds.refs ∧
      ip ∉ view.holds.locked
  | .setCwd none, view => view.holds.cwdGone = true
  | .forkProc, view => view.holds.child = none
  | .forkFd child fd, view =>
    view.holds.child = some (child, fd.val) ∧ view.holds.loose = none ∧ view.holds.blanks = []
  | .forkCwd child, view =>
    view.holds.child = some (child, nofile) ∧ view.holds.cwdGone = false ∧
      view.holds.homeless = false
  | .forkStart child, view => view.holds.child = some (child, nofile + 1)
  | .exitProc, view =>
    view.holds = { idle with homeless := true } ∧ view.facts.closed = nofile
  | _, _ => True

/-- The results that an operation can have. -/
def Told (view : View) : (op : Op) → op.Res → Prop
  | .panic _, _ => False
  | .ilock ip, _ => ip ∉ view.holds.locked
  | .fileclose f _, result => f ∈ view.holds.blanks → result.bind inodeOf = none
  | .fdalloc _, some fd => ∀ f, (fd, f) ∉ view.facts.slots
  | _, _ => True

/-- The inode is given back. -/
def put (view : View) (ip : Slot) : View :=
  { view with holds := { view.holds with refs := view.holds.refs.erase ip } }

/-- What is held and known after an operation. -/
def after (view : View) : (op : Op) → op.Res → View
  | .beginOp, _ => { view with holds := { view.holds with tx := true } }
  | .endOp, _ => { view with holds := { view.holds with tx := false } }
  | .iget _, ip | .dupCwd, ip | .ialloc _, ip | .dirlookup _ _, some (ip, _) =>
    { view with holds := { view.holds with refs := ip :: view.holds.refs } }
  | .ilock ip, _ => { view with holds := { view.holds with locked := ip :: view.holds.locked } }
  | .iunlock ip, _ =>
    { view with holds := { view.holds with locked := view.holds.locked.erase ip } }
  | .iputStart ip, freed =>
    { view.put ip with
      holds := { (view.put ip).holds with dying := if freed then some ip else none } }
  | .iputEnd _, _ => { view with holds := { view.holds with dying := none } }
  | .filealloc, some f =>
    { view with holds := { view.holds with
      files := f :: view.holds.files
      blanks := f :: view.holds.blanks } }
  | .filedup _, _ => { view with holds := { view.holds with loose := none } }
  | .fileclose f fd, result =>
    ⟨{ view.holds with
        refs := (result.bind inodeOf).toList ++ view.holds.refs
        files := if fd = none then view.holds.files.erase f else view.holds.files
        blanks := view.holds.blanks.erase f
        loose := (fd.map (·, f)).or view.holds.loose },
      { view.facts with slots := [], target := none }⟩
  | .file f, file =>
    -- what is known of the file already stays
    if view.facts.target.map Prod.fst = some f then view
    else { view with facts := { view.facts with
      target := (inodeOf file).map (f, ·) } }
  | .openFile f ip _, _ =>
    ⟨{ view.holds with
        blanks := view.holds.blanks.erase f
        refs := view.holds.refs.erase ip },
      { view.facts with target := some (f, ip) }⟩
  | .openPipe f0 f1, _ =>
    { view with holds := { view.holds with blanks := (view.holds.blanks.erase f0).erase f1 } }
  | .ofile fd, result =>
    { view with facts := { view.facts with
      slots := (result.map (fd, ·)).toList
      closed := if result = none ∧ fd.val = view.facts.closed then fd.val + 1
        else view.facts.closed } }
  | .clearOfile fd, _ =>
    ⟨{ view.holds with
        files :=
          if view.holds.loose = none then
            (view.facts.slots.lookup fd).toList ++ view.holds.files
          else view.holds.files
        loose := none },
      { view.facts with
        slots := view.facts.slots.filter (·.1 ≠ fd)
        target := none
        closed := if fd.val = view.facts.closed then fd.val + 1 else view.facts.closed }⟩
  | .fdalloc f, some fd =>
    ⟨{ view.holds with
        files := view.holds.files.erase f
        loose := if f ∈ view.holds.files then none else some (fd, f) },
      { view.facts with
        slots := if f ∈ view.holds.files then (fd, f) :: view.facts.slots else view.facts.slots
        closed := 0 }⟩
  | .takeCwd, ip =>
    { view with holds := { view.holds with refs := ip :: view.holds.refs, cwdGone := true } }
  | .setCwd (some ip), _ =>
    { view with holds := { view.holds with
      refs := view.holds.refs.erase ip
      cwdGone := false } }
  | .setCwd none, _ =>
    { view with holds := { view.holds with cwdGone := false, homeless := true } }
  | .forkProc, some child =>
    { view with holds := { view.holds with child := some (child, 0) } }
  | .forkFd child fd, _ =>
    { view with holds := { view.holds with child := some (child, fd.val + 1) } }
  | .forkCwd child, _ =>
    { view with holds := { view.holds with child := some (child, nofile + 1) } }
  | .forkStart _, _ => { view with holds := { view.holds with child := none } }
  | .exitProc, _ => base
  | _, _ => view

/-- The specification of the operations. -/
def spec : Prog.Spec Op Op.Res View where
  pre := pre
  post op view result later := Told view op result ∧ later = after view op result

/-- What holds when the code of a call ends. -/
def Ends (view : View) : Prop := view.holds = idle

end View

section Code

open View

variable {α : Type} {view : View} {operation : Op} {rest : operation.Res → Code α}
  {goal : α → View → Prop}

@[simp]
theorem meets_op :
    (op operation >>= rest).Meets spec view goal ↔
      pre operation view ∧ ∀ result, Told view operation result →
        (rest result).Meets spec (after view operation result) goal := by
  constructor
  · rintro ⟨before, continues⟩
    exact ⟨before, fun result told => continues result _ ⟨told, rfl⟩⟩
  · rintro ⟨before, continues⟩
    refine ⟨before, ?_⟩
    rintro result later ⟨told, rfl⟩
    exact continues result told

theorem meets_step (before : pre operation view) (continues : ∀ result, Told view operation result →
      (rest result).Meets spec (after view operation result) goal) :
    (op operation >>= rest).Meets spec view goal :=
  meets_op.mpr ⟨before, continues⟩

theorem meets_last {goal : operation.Res → View → Prop} :
    (op operation).Meets spec view goal ↔
      pre operation view ∧ ∀ result, Told view operation result →
        goal result (after view operation result) :=
  @meets_op _ view operation .ret goal

@[simp]
theorem meets_pure {result : α} :
    (pure result : Code α).Meets spec view goal ↔ goal result view := .rfl

theorem meets_panic {halt : Halt} {rest : Unit → Code α}
    (known : halt = .initExiting ∨ halt = .fileread ∨ halt = .filewrite ∨ halt = .shortFilewrite) :
    (op (.panic halt) >>= rest).Meets spec view goal :=
  meets_step known fun _ told => told.elim

variable {ip : Slot}

theorem meets_putInode (ready : pre (.iputStart ip) view) :
    (putInode ip).Meets spec view fun _ later => later = view.put ip := by
  unfold putInode
  rw [meets_op]
  refine ⟨ready, fun freed _ => ?_⟩
  have settled : view.holds.dying = none := ready.2.2
  cases freed with
  | true =>
    refine meets_last.mpr ⟨rfl, fun _ _ => ?_⟩
    simp [after, put, settled]
  | false => simp [after, put, settled]

/-- A call is between two operations on inodes: none is locked or half freed. -/
structure Calm (held : Holds) : Prop where
  locked : held.locked = []
  dying : held.dying = none

/-- The holdings with one more inode. -/
def withRef (held : Holds) (ip : Slot) : Holds := { held with refs := ip :: held.refs }

/-- The holdings with one more inode, locked. -/
def withLock (held : Holds) (ip : Slot) : Holds :=
  { held with refs := ip :: held.refs, locked := ip :: held.locked }

/-- The holdings are `held` with one more inode. -/
def Extra (now : Holds) (ip : Slot) (held : Holds) : Prop :=
  ip ∈ now.refs ∧ { now with refs := now.refs.erase ip } = held

theorem extra_withRef (held : Holds) (ip : Slot) : Extra (withRef held ip) ip held := by
  simp [Extra, withRef]

theorem erase_second {β : Type} [DecidableEq β] (a b : β) (rest : List β) :
    (a :: b :: rest).erase b = a :: rest := by
  by_cases same : a = b
  · rw [same, List.erase_cons_head]
  · rw [List.erase_cons_tail (by simpa using same), List.erase_cons_head]

attribute [local simp] after pre put withRef withLock Extra Ends idle erase_second

theorem meets_iunlockput (locked : ip ∈ view.holds.locked)
    (ready : pre (.iputStart ip) (after view (.iunlock ip) ())) :
    (iunlockput ip).Meets spec view fun _ later =>
      later = (after view (.iunlock ip) ()).put ip := by
  unfold iunlockput
  exact meets_step locked fun _ _ => meets_putInode ready

variable {held : Holds}

theorem Calm.putInode (calm : Calm held) (now : Extra view.holds ip held) :
    (putInode ip).Meets spec view fun _ later => later.holds = held := by
  obtain ⟨member, same⟩ := now
  obtain ⟨locked, dying⟩ := calm
  rw [← same] at locked dying
  have ready : pre (.iputStart ip) view :=
    ⟨member, by simp [show view.holds.locked = [] from locked], dying⟩
  refine (meets_putInode ready).mono ?_
  rintro _ _ rfl
  rw [← same, put]

theorem Calm.iunlockput (calm : Calm held) (now : view.holds.locked = [ip])
    (unlocked : Extra { view.holds with locked := [] } ip held) :
    (iunlockput ip).Meets spec view fun _ later => later.holds = held := by
  unfold Fs.iunlockput
  refine meets_step (by simp [now]) fun _ _ => ?_
  exact calm.putInode (by simpa [now] using unlocked)

theorem Calm.unlocks (calm : Calm held) (now : view.holds = withLock held ip) :
    (Fs.iunlockput ip).Meets spec view fun _ later => later.holds = held := by
  refine calm.iunlockput ?_ ?_
  · simp [now, calm.locked]
  · simp [now, ← calm.locked]

/-- What `namex` leaves: its result is one more inode. -/
def Walked (held : Holds) (found : Option (Slot × Name)) (later : View) : Prop :=
  match found with
  | none => later.holds = held
  | some (dp, _) => later.holds = withRef held dp

variable {parent : Bool}

theorem Calm.namexEnd (calm : Calm held) (now : view.holds = withRef held ip) :
    (namexEnd parent ip).Meets spec view (Walked held) := by
  unfold Fs.namexEnd
  split
  · exact (calm.putInode (now ▸ extra_withRef _ _)).bind fun _ _ done => done
  · exact now

theorem Calm.namexLoop (calm : Calm held) (fuel : Nat) (path : Path) (ip : Slot)
    (now : view.holds = withRef held ip) :
    (namexLoop parent fuel path ip).Meets spec view (Walked held) := by
  induction fuel generalizing path ip view with
  | zero => exact calm.namexEnd now
  | succ fuel ih =>
    unfold Fs.namexLoop
    split
    · exact calm.namexEnd now
    rename_i name rest step
    refine meets_step (.inl (by simp [now])) fun _ _ => ?_
    refine meets_step (by simp) fun i _ => ?_
    generalize locked : after (after view (.ilock ip) ()) (.inode ip) i = inside
    have holds : inside.holds = withLock held ip := by
      simp [← locked, now]
    have only : inside.holds.locked = [ip] := by simp [holds, calm.locked]
    split
    · exact (calm.unlocks holds).bind fun _ _ done => done
    split
    · refine meets_step (by simp [only]) fun _ _ => ?_
      simp [Walked, holds]
    refine meets_step (by simp [only]) fun result _ => ?_
    cases result with
    | none => exact (calm.unlocks holds).bind fun _ _ done => done
    | some entry =>
      obtain ⟨next, off⟩ := entry
      have calm' : Calm (withRef held next) := ⟨calm.locked, calm.dying⟩
      refine (calm'.iunlockput ?_ ?_).bind fun _ _ done => ih rest next done
      · exact only
      · simp [holds, ← calm.locked]

theorem Calm.namex (calm : Calm view.holds) (present : view.holds.cwdGone = false)
    (home : view.holds.homeless = false) (path : Path) :
    (namex path parent).Meets spec view (Walked view.holds) := by
  unfold Fs.namex
  split
  · exact meets_step trivial fun ip _ => calm.namexLoop _ _ ip rfl
  · exact meets_step ⟨present, home⟩ fun ip _ => calm.namexLoop _ _ ip rfl

/-- The code keeps to the specification and gives back what it holds. -/
abbrev Finishes (view : View) (code : Code α) : Prop :=
  code.Meets spec view fun _ => Ends

/-- Nothing is held but the transaction. -/
def inTx : Holds := { idle with tx := true }

attribute [local simp] inTx base

theorem calm_inTx : Calm inTx := ⟨rfl, rfl⟩

theorem ends_endOp {r : Int} (now : view.holds = inTx) :
    Finishes view (do op .endOp; return r : Code Int) := by
  refine meets_step (by simp [now]) fun _ _ => ?_
  simp [now]

theorem ends_iunlockput {r : Int} (now : view.holds = withLock inTx ip) :
    Finishes view (do iunlockput ip; op .endOp; return r : Code Int) := by
  exact (calm_inTx.unlocks now).bind fun _ _ done => ends_endOp done

/-- Nothing is held that belongs to a transaction. -/
structure Outside (held : Holds) : Prop where
  tx : held.tx = false
  locked : held.locked = []
  dying : held.dying = none

/-- The holdings without a file, or without the reference of a descriptor. -/
def closing (held : Holds) (f : Fslot) (fd : Option Fd) : Holds :=
  { held with
    files := if fd = none then held.files.erase f else held.files
    blanks := held.blanks.erase f
    loose := (fd.map (·, f)).or held.loose }

attribute [local simp] closing

/-- The inode that `fileclose` gives up in a transaction of its own. -/
theorem meets_release (outside : Outside held) (now : view.holds = withRef held ip) :
    (do op .beginOp; putInode ip; op .endOp : Code Unit).Meets spec view
      fun _ later => later.holds = held ∧ later.facts.closed = view.facts.closed := by
  obtain ⟨tx, locked, dying⟩ := outside
  refine meets_step (by simp [now, tx]) fun _ _ => ?_
  have ready : pre (.iputStart ip) (after view .beginOp ()) := by
    simp [now, locked, dying]
  refine (meets_putInode ready).bind fun _ later same => ?_
  subst same
  refine meets_last.mpr ⟨?_, fun _ _ => ?_⟩
  · simp [now, dying]
  · cases held
    simp_all [after, put, withRef]

variable {f : Fslot}

theorem meets_fileclose {fd : Option Fd} (ready : pre (.fileclose f fd) view)
    (free : f ∈ view.holds.blanks ∨ Outside view.holds) :
    (fileclose f fd).Meets spec view fun _ later =>
      later.holds = closing view.holds f fd ∧ later.facts.closed = view.facts.closed := by
  unfold fileclose
  refine meets_step ready fun result told => ?_
  cases result with
  | none => simp
  | some ff =>
    have released : ∀ ip, inodeOf ff = some ip →
        (do op .beginOp; putInode ip; op .endOp : Code Unit).Meets spec
          (after view (.fileclose f fd) (some ff)) fun _ later =>
            later.holds = closing view.holds f fd ∧ later.facts.closed = view.facts.closed := by
      intro ip refers
      have outside : Outside view.holds := by
        refine free.resolve_left fun blank => ?_
        have := told blank
        simp [refers] at this
      have outside' : Outside (closing view.holds f fd) :=
        ⟨outside.1, outside.2, outside.3⟩
      exact meets_release outside' (by simp [refers])
    have nothing : inodeOf ff = none → (pure () : Code Unit).Meets spec
          (after view (.fileclose f fd) (some ff)) fun _ later =>
            later.holds = closing view.holds f fd ∧ later.facts.closed = view.facts.closed := by
      intro none
      simp [none]
    dsimp only
    cases type : ff.type <;> cases ip : ff.ip
    all_goals first
      | exact nothing (by simp [inodeOf, type, ip])
      | exact released _ (by simp [inodeOf, type, ip])

theorem meets_argfd (fd : Int) :
    (argfd fd).Meets spec base fun found later =>
      later.holds = idle ∧ later.facts.slots = found.toList ∧ later.facts.target = none := by
  unfold argfd
  split
  · refine meets_step (by simp) fun result _ => ?_
    cases result with
    | none => simp
    | some f => simp
  · simp

theorem ends_sysDup (fd : Int) : Finishes base (sysDup fd) := by
  unfold sysDup
  refine (meets_argfd fd).bind fun found later ⟨held, slots, _⟩ => ?_
  cases found with
  | none => exact held
  | some entry =>
    obtain ⟨old, f⟩ := entry
    have member : (old, f) ∈ later.facts.slots := by simp [slots]
    refine meets_step ⟨by simp [held], .inr ⟨old, member⟩⟩ fun result _ => ?_
    cases result with
    | none => exact held
    | some new =>
      refine meets_step ?_ fun _ _ => ?_
      · exact ⟨⟨new, by simp [held]⟩, ⟨old, by simpa [held] using member⟩, by simp [held]⟩
      · simp [held]

/-- What is known of the file of a descriptor. -/
def Opened (f : Fslot) (file : File) (later : View) : Prop :=
  later.holds = idle ∧ later.facts.target = (inodeOf file).map (f, ·)

theorem meets_open {fd : Int} (rest : Fslot → File → Code Int)
    (continues : ∀ f file later, Opened f file later →
      (rest f file).Meets spec later fun _ => Ends) :
    (do
      match ← argfd fd with
      | none => return -1
      | some (_, f) => rest f (← op (.file f)) : Code Int).Meets spec base fun _ => Ends := by
  refine (meets_argfd fd).bind fun found later ⟨held, slots, target⟩ => ?_
  cases found with
  | none => exact held
  | some entry =>
    obtain ⟨old, f⟩ := entry
    refine meets_step (.inl ⟨old, by simp [slots]⟩) fun file _ => continues f file _ ?_
    exact ⟨by simp [target, held], by simp [target]⟩

variable {file : File}

theorem ends_fileread (opened : Opened f file view) (writable : Nat → Bool) (n : Nat) :
    Finishes view (fileread f file writable n) := by
  obtain ⟨held, target⟩ := opened
  unfold fileread
  split
  · exact held
  · exact held
  · rename_i ip type inode
    have known : view.facts.target = some (f, ip) := by simp [target, inodeOf, type, inode]
    refine meets_step (.inr ⟨f, known⟩) fun _ _ => ?_
    refine meets_step (.inr ⟨ip, known⟩) fun now _ => ?_
    have same : after (after view (.ilock ip) ()) (.file f) now = after view (.ilock ip) () := by
      simp [known]
    rw [same]
    refine meets_step (by simp) fun bytes _ => ?_
    split
    · refine meets_step ⟨ip, known⟩ fun _ _ => ?_
      refine meets_step (by simp) fun _ _ => ?_
      simp [held]
    · refine meets_step (by simp) fun _ _ => ?_
      simp [held]
  · exact meets_panic (by simp)

theorem ends_sysRead (fd : Int) (writable : Nat → Bool) (n : Nat) :
    Finishes base (sysRead fd writable n) := by
  refine meets_open (fun f file =>
    if file.readable then fileread f file writable n else return -1) fun f file later opened => ?_
  split
  · exact ends_fileread opened writable n
  · exact opened.1

theorem ends_filewriteFrom (memory : Memory) (n : Int) (fuel i : Nat)
    (held : view.holds = idle) (target : view.facts.target = some (f, ip)) :
    Finishes view (filewriteFrom f ip memory n fuel i) := by
  induction fuel generalizing i view with
  | zero => exact held
  | succ fuel ih =>
    unfold filewriteFrom
    split
    · refine meets_step (by simp [held]) fun _ _ => ?_
      refine meets_step (.inr ⟨f, target⟩) fun _ _ => ?_
      refine meets_step (.inr ⟨ip, target⟩) fun file _ => ?_
      refine meets_step trivial fun cached _ => ?_
      have same : after (after (after (after view .beginOp ()) (.ilock ip) ()) (.file f) file)
          .choose cached = after (after view .beginOp ()) (.ilock ip) () := by
        simp [target]
      rw [same]
      refine meets_step (by simp) fun r _ => ?_
      refine meets_step ⟨ip, target⟩ fun _ _ => ?_
      refine meets_step (by simp) fun _ _ => ?_
      refine meets_step (by simp [held]) fun _ _ => ?_
      cases r with
      | none => simp [held]
      | some r =>
        dsimp only
        split
        · exact meets_panic (by simp)
        · exact ih (i + r) (by simp [held]) target
    · exact held

theorem ends_filewrite (opened : Opened f file view) (memory : Memory) (n : Int) :
    Finishes view (filewrite f file memory n) := by
  obtain ⟨held, target⟩ := opened
  unfold filewrite
  split
  · exact held
  · exact held
  · rename_i ip type inode
    have known : view.facts.target = some (f, ip) := by simp [target, inodeOf, type, inode]
    exact ends_filewriteFrom memory n _ _ held known
  · exact meets_panic (by simp)

theorem ends_sysWrite (fd : Int) (memory : Memory) (n : Int) :
    Finishes base (sysWrite fd memory n) := by
  refine meets_open (fun f file =>
    if file.writable then filewrite f file memory n else return -1) fun f file later opened => ?_
  split
  · exact ends_filewrite opened memory n
  · exact opened.1

theorem ends_filestat (opened : Opened f file view) : Finishes view (filestat file) := by
  obtain ⟨held, target⟩ := opened
  have locks : ∀ ip, view.facts.target = some (f, ip) → (do
        op (.ilock ip)
        let _ ← op (.inode ip)
        op (.iunlock ip)
        if ← op .choose then return 0 else return -1 : Code Int).Meets spec view fun _ => Ends := by
    intro ip known
    refine meets_step (.inr ⟨f, known⟩) fun _ _ => ?_
    refine meets_step (by simp) fun _ _ => ?_
    refine meets_step (by simp) fun _ _ => ?_
    refine meets_step trivial fun result _ => ?_
    split <;> simp [held]
  unfold filestat
  split
  · rename_i ip type inode
    exact locks ip (by simp [target, inodeOf, type, inode])
  · rename_i ip type inode
    exact locks ip (by simp [target, inodeOf, type, inode])
  · exact held

theorem ends_sysFstat (fd : Int) : Finishes base (sysFstat fd) :=
  meets_open (fun _ file => filestat file) fun _ _ _ opened => ends_filestat opened

theorem outside_idle : Outside idle := ⟨rfl, rfl, rfl⟩

theorem ends_sysClose (fd : Int) : Finishes base (sysClose fd) := by
  unfold sysClose
  refine (meets_argfd fd).bind fun found later ⟨held, slots, _⟩ => ?_
  cases found with
  | none => exact held
  | some entry =>
    obtain ⟨old, f⟩ := entry
    refine meets_step (.inr ⟨by simp [held], f, by simp [slots]⟩) fun _ _ => ?_
    generalize step : after later (.clearOfile old) () = cleared
    have held : cleared.holds = { idle with files := [f] } := by simp [← step, held, slots]
    refine (meets_fileclose (by simp [held]) (.inr ?_)).bind fun _ _ done => ?_
    · rw [held]
      exact ⟨rfl, rfl, rfl⟩
    · simp [done.1, held]

theorem ends_pipeFail {f0 f1 : Fslot} (files blanks : List Fslot)
    (held : view.holds = { idle with files, blanks }) (first : f0 ∈ files)
    (second : files.erase f0 = [f1]) (all : (blanks.erase f0).erase f1 = []) :
    Finishes view (pipeFail f0 f1) := by
  unfold pipeFail
  refine (meets_fileclose ?_ (.inr ?_)).bind fun _ later done => ?_
  · simpa [held] using first
  · rw [held]
    exact ⟨rfl, rfl, rfl⟩
  have one : later.holds = { idle with files := [f1], blanks := blanks.erase f0 } := by
    simp [done.1, held, second]
  refine (meets_fileclose ?_ (.inr ?_)).bind fun _ last done => ?_
  · simp [one]
  · rw [one]
    exact ⟨rfl, rfl, rfl⟩
  · simp [done.1, one, all]

theorem ends_pipeFds {f0 f1 : Fslot} (held : view.holds = { idle with files := [f1, f0] })
    (slots : view.facts.slots = []) : Finishes view (pipeFds f0 f1) := by
  unfold pipeFds
  refine meets_step ⟨by simp [held], .inl (by simp [held])⟩ fun result _ => ?_
  cases result with
  | none => exact ends_pipeFail _ [] held (by simp) (by simp) rfl
  | some fd0 =>
    generalize step : after view (.fdalloc f0) (some fd0) = one
    have held1 : one.holds = { idle with files := [f1] } := by
      simp [← step, held]
    have slots1 : one.facts.slots = [(fd0, f0)] := by simp [← step, slots, held]
    refine meets_step ⟨by simp [held1], .inl (by simp [held1])⟩ fun result told => ?_
    cases result with
    | none =>
      refine meets_step (.inr ⟨by simp [held1], f0, by simp [slots1]⟩) fun _ _ => ?_
      refine ends_pipeFail [f0, f1] [] ?_ (by simp) (by simp) rfl
      simp [held1, slots1]
    | some fd1 =>
      have other : fd0 ≠ fd1 := by
        rintro rfl
        exact told f0 (by simp [slots1])
      generalize step' : after one (.fdalloc f1) (some fd1) = two
      have held2 : two.holds = idle := by simp [← step', held1]
      have slots2 : two.facts.slots = [(fd1, f1), (fd0, f0)] := by
        simp [← step', slots1, held1]
      refine meets_step trivial fun result _ => ?_
      split
      · exact held2
      refine meets_step (.inr ⟨by simp [held2], f0, by simp [slots2]⟩) fun _ _ => ?_
      refine meets_step (.inr ⟨by simp [held2], f1, ?_⟩) fun _ _ => ?_
      · simp [slots2, other.symm]
      refine ends_pipeFail [f1, f0] [] ?_ (by simp) (by simp) rfl
      have differs : (fd0 == fd1) = false := by simpa using other
      simp [held2, slots2, other.symm, List.lookup, differs]

theorem ends_sysPipe : Finishes base sysPipe := by
  unfold sysPipe
  refine meets_step trivial fun result _ => ?_
  cases result with
  | none => exact rfl
  | some f0 =>
    refine meets_step trivial fun result _ => ?_
    cases result with
    | none =>
      refine (meets_fileclose ?_ (.inl ?_)).bind fun _ _ done => ?_
      · simp
      · simp
      · simp [done.1]
    | some f1 =>
      refine meets_step trivial fun result _ => ?_
      split
      · refine meets_step (by simp) fun _ _ => ends_pipeFds ?_ rfl
        simp
      · exact ends_pipeFail [f1, f0] [f1, f0] rfl (by simp) (by simp) (by simp)

theorem finRange_drop_cons {n : Nat} (inside : n < nofile) :
    (List.finRange nofile).drop n = ⟨n, inside⟩ :: (List.finRange nofile).drop (n + 1) := by
  rw [List.drop_eq_getElem_cons (by simpa using inside)]
  simp

theorem finRange_drop_nil : (List.finRange nofile).drop nofile = [] := by simp

theorem meets_forkFds {child : Pslot} (n : Nat) (inside : n ≤ nofile)
    (now : view.holds = { idle with child := some (child, n) }) :
    (forkFds child ((List.finRange nofile).drop n)).Meets spec view fun _ later =>
      later.holds = { idle with child := some (child, nofile) } := by
  induction left : nofile - n generalizing n view with
  | zero =>
    obtain rfl : n = nofile := by omega
    rw [finRange_drop_nil]
    exact now
  | succ left ih =>
    rw [finRange_drop_cons (by omega)]
    refine meets_step (by simp [now]) fun _ _ => ?_
    exact ih (n + 1) (by omega) (by simp [now]) (by omega)

theorem ends_fork : Finishes base fork := by
  unfold fork
  refine meets_step rfl fun result _ => ?_
  cases result with
  | none => exact rfl
  | some child =>
    refine (meets_forkFds 0 (Nat.zero_le _) rfl).bind fun _ later done => ?_
    refine meets_step (by simp [done]) fun _ _ => ?_
    refine meets_step (by simp) fun _ _ => ?_
    simp [done]

theorem meets_exitFds (n : Nat) (inside : n ≤ nofile) (now : view.holds = idle)
    (closed : view.facts.closed = n) :
    (exitFds ((List.finRange nofile).drop n)).Meets spec view fun _ later =>
      later.holds = idle ∧ later.facts.closed = nofile := by
  induction left : nofile - n generalizing n view with
  | zero =>
    obtain rfl : n = nofile := by omega
    rw [finRange_drop_nil]
    exact ⟨now, closed⟩
  | succ left ih =>
    rw [finRange_drop_cons (by omega)]
    refine meets_step (by simp [now]) fun result _ => ?_
    cases result with
    | none => exact ih (n + 1) (by omega) now (by simp [closed]) (by omega)
    | some f =>
      refine (meets_fileclose ?_ (.inr ?_)).bind fun _ later done => ?_
      · simp [now]
      · exact now ▸ outside_idle
      · obtain ⟨held, same⟩ := done
        have loose : later.holds.loose = some (⟨n, by omega⟩, f) := by simp [held]
        refine meets_step (.inl ⟨f, loose⟩) fun _ _ => ?_
        refine ih (n + 1) (by omega) ?_ ?_ (by omega)
        · simp [held, now]
        · simp [same, closed]

theorem ends_exit (me : Pslot) : Finishes base (exit me) := by
  unfold exit
  split
  · exact meets_panic (by simp)
  refine (meets_exitFds 0 (Nat.zero_le _) rfl rfl).bind fun _ later ⟨held, closed⟩ => ?_
  refine meets_step (by simp [held]) fun _ _ => ?_
  refine meets_step (by simp [held]) fun ip _ => ?_
  refine (meets_putInode ?_).bind fun _ final same => ?_
  · simp [held]
  subst same
  refine meets_step (by simp [held]) fun _ _ => ?_
  refine meets_step (by simp) fun _ _ => ?_
  refine meets_step ?_ fun _ _ => ?_
  · simp [held, closed]
  · exact rfl

theorem ends_linkBad (now : view.holds = withRef inTx ip) : Finishes view (linkBad ip) := by
  unfold linkBad
  refine meets_step (.inl (by simp [now])) fun _ _ => ?_
  refine meets_step (by simp [now]) fun _ _ => ?_
  exact ends_iunlockput (by simp [now])

section

variable (now : view.holds = inTx) (path : Path)
include now path

theorem meets_nameiparent : (nameiparent path).Meets spec view (Walked inTx) :=
  now ▸ Calm.namex (now ▸ calm_inTx) (by rw [now]; rfl) (by rw [now]; rfl) path

theorem meets_namei : (namei path).Meets spec view fun found later =>
      match found with
      | none => later.holds = inTx
      | some ip => later.holds = withRef inTx ip := by
  unfold namei
  have calm : Calm view.holds := now ▸ calm_inTx
  refine (calm.namex (by rw [now]; rfl) (by rw [now]; rfl) path).bind fun found later walked => ?_
  rw [now] at walked
  cases found with
  | none => exact walked
  | some entry => exact walked

theorem meets_nameiLock {α : Type} {goal : α → View → Prop} {rest : Option Slot → Code α}
    {locked : Slot → Code α} (code : ∀ ip, rest (some ip) = op (.ilock ip) >>= fun _ => locked ip)
    (missing : ∀ {later : View}, later.holds = inTx → (rest none).Meets spec later goal)
    (found : ∀ {ip : Slot} {later : View}, later.holds = withLock inTx ip →
      (locked ip).Meets spec later goal) :
    (namei path >>= rest).Meets spec view goal := by
  refine (meets_namei now path).bind fun result later walked => ?_
  cases result with
  | none => exact missing walked
  | some ip =>
    replace walked : later.holds = withRef inTx ip := walked
    rw [code]
    exact meets_step (.inl (by simp [walked])) fun _ _ => found (by simp [walked])

theorem meets_create (type major minor : BitVec 16) :
    (create path type major minor).Meets spec view fun found later =>
      match found with
      | none => later.holds = inTx
      | some ip => later.holds = withLock inTx ip := by
  unfold create
  refine (meets_nameiparent now path).bind fun found later walked => ?_
  cases found with
  | none => exact walked
  | some entry =>
    obtain ⟨dp, name⟩ := entry
    replace walked : later.holds = withRef inTx dp := walked
    refine meets_step (.inl (by simp [walked])) fun _ _ => ?_
    refine meets_step (by simp) fun result _ => ?_
    cases result with
    | some entry =>
      obtain ⟨ip, off⟩ := entry
      have calm : Calm (withRef inTx ip) := ⟨rfl, rfl⟩
      refine (calm.iunlockput ?_ ?_).bind fun _ one done => ?_
      · simp [walked]
      · simp [walked]
      refine meets_step (.inl (by simp [done])) fun _ _ => ?_
      refine meets_step (by simp) fun i _ => ?_
      split
      · simp [done]
      · exact (calm_inTx.unlocks (by simp [done])).bind fun _ two done => done
    | none =>
      refine meets_step trivial fun ip _ => ?_
      refine meets_step (.inl (by simp)) fun _ told => ?_
      have other : ip ≠ dp := by
        rintro rfl
        exact told (by simp)
      refine meets_step (by simp [other]) fun _ _ => ?_
      refine (meets_iunlockput ?_ ?_).bind fun _ one same => ?_
      · simp
      · simp [walked, other, other.symm]
      subst same
      simp [walked]

end

theorem ends_sysMknod (path : Option Path) (type major minor : BitVec 16) :
    Finishes base (sysMknod path type major minor) := by
  unfold sysMknod
  refine meets_step rfl fun _ _ => ?_
  cases path with
  | none => exact ends_endOp rfl
  | some path =>
    refine (meets_create rfl path type major minor).bind fun found later made => ?_
    cases found with
    | none => exact ends_endOp made
    | some ip => exact ends_iunlockput made

theorem ends_sysChdir (path : Option Path) : Finishes base (sysChdir path) := by
  unfold sysChdir
  refine meets_step rfl fun _ _ => ?_
  cases path with
  | none => exact ends_endOp rfl
  | some path =>
    refine meets_nameiLock rfl path (fun _ => rfl) ends_endOp fun held => ?_
    refine meets_step (by simp [held]) fun i _ => ?_
    split
    · exact ends_iunlockput held
    refine meets_step (by simp [held]) fun _ _ => ?_
    refine meets_step (by simp [held]) fun old _ => ?_
    refine (meets_putInode ?_).bind fun _ final same => ?_
    · simp [held]
    subst same
    refine meets_step ?_ fun _ _ => ?_
    · simp [held]
    refine meets_step ?_ fun _ _ => ?_
    all_goals simp [held]

theorem ends_linkEntry (new : Path) (now : view.holds = withRef inTx ip) :
    Finishes view (linkEntry new ip) := by
  have calm : Calm view.holds := by
    constructor <;> simp [now]
  unfold linkEntry
  refine (calm.namex (by rw [now]; rfl) (by rw [now]; rfl) new).bind fun found later walked => ?_
  cases found with
  | none => exact ends_linkBad (Eq.trans walked now)
  | some entry =>
    obtain ⟨dp, name⟩ := entry
    replace walked : later.holds = withRef view.holds dp := walked
    rw [now] at walked
    refine meets_step (.inl (by simp [walked])) fun _ _ => ?_
    refine meets_step ?_ fun linked _ => ?_
    · simp [walked]
    have calm' : Calm (withRef inTx ip) := ⟨rfl, rfl⟩
    have held : (after later (.ilock dp) ()).holds = withLock (withRef inTx ip) dp := by
      simp [walked]
    cases linked with
    | true =>
      refine (calm'.unlocks held).bind fun _ one done => ?_
      refine (calm_inTx.putInode ?_).bind fun _ two done => ends_endOp done
      exact done ▸ extra_withRef _ _
    | false => exact (calm'.unlocks held).bind fun _ one done => ends_linkBad done

theorem ends_sysLink (old new : Path) : Finishes base (sysLink old new) := by
  unfold sysLink
  refine meets_step rfl fun _ _ => ?_
  refine meets_nameiLock rfl old (fun _ => rfl) ends_endOp fun held => ?_
  refine meets_step (by simp [held]) fun raised _ => ?_
  split
  · refine meets_step (by simp [held]) fun _ _ => ends_linkEntry new ?_
    simp [held]
  · exact ends_iunlockput held

theorem ends_sysUnlink (path : Path) : Finishes base (sysUnlink path) := by
  unfold sysUnlink
  refine meets_step rfl fun _ _ => ?_
  refine (meets_nameiparent rfl path).bind fun found later walked => ?_
  cases found with
  | none => exact ends_endOp walked
  | some entry =>
    obtain ⟨dp, name⟩ := entry
    replace walked : later.holds = withRef inTx dp := walked
    refine meets_step (.inl (by simp [walked])) fun _ _ => ?_
    split
    · exact ends_iunlockput (by simp [walked])
    refine meets_step (by simp) fun result _ => ?_
    cases result with
    | none => exact ends_iunlockput (by simp [walked])
    | some entry =>
      obtain ⟨ip, off⟩ := entry
      refine meets_step (.inl (by simp)) fun _ told => ?_
      have other : ip ≠ dp := by
        rintro rfl
        exact told (by simp)
      refine meets_step (by simp [other]) fun removed _ => ?_
      cases removed with
      | true =>
        refine (meets_iunlockput ?_ ?_).bind fun _ one same => ?_
        · simp
        · simp [walked, other, other.symm]
        subst same
        refine meets_step ?_ fun _ _ => ?_
        · simp [walked]
        refine (meets_iunlockput ?_ ?_).bind fun _ two same => ends_endOp ?_
        · simp
        · simp [walked]
        · simp [same, walked]
      | false =>
        refine (meets_iunlockput ?_ ?_).bind fun _ one same => ends_iunlockput ?_
        · simp
        · simp [walked, other]
        · simp [same, walked]

theorem meets_openExisting (now : view.holds = inTx) (path : Path) (omode : BitVec 32) :
    (openExisting path omode).Meets spec view fun found later =>
      match found with
      | none => later.holds = inTx
      | some ip => later.holds = withLock inTx ip := by
  unfold openExisting
  refine meets_nameiLock now path (fun _ => rfl) id fun held => ?_
  refine meets_step (by simp [held]) fun i _ => ?_
  split
  · exact (calm_inTx.unlocks held).bind fun _ two done => done
  · exact held

theorem ends_openAlloc {type : BitVec 16} {omode : BitVec 32}
    (now : view.holds = withLock inTx ip) : Finishes view (openAlloc ip type omode) := by
  unfold openAlloc
  refine meets_step trivial fun result _ => ?_
  cases result with
  | none => exact ends_iunlockput now
  | some f =>
    refine meets_step ?_ fun result _ => ?_
    · exact ⟨by simp [now], .inl (by simp)⟩
    cases result with
    | none =>
      refine (meets_fileclose ?_ (.inl ?_)).bind fun _ one done => ends_iunlockput ?_
      · simp
      · simp
      · simp [done.1, now]
    | some fd =>
      refine meets_step ?_ fun _ _ => ?_
      · refine ⟨by simp, ⟨fd, by simp⟩, ?_, ?_⟩
        all_goals simp [now]
      split
      · refine meets_step (by simp [now]) fun _ _ => ?_
        refine meets_step (by simp [now]) fun _ _ => ends_endOp ?_
        simp [now]
      · refine meets_step (by simp [now]) fun _ _ => ends_endOp ?_
        simp [now]

theorem ends_sysOpen (path : Path) (omode : BitVec 32) : Finishes base (sysOpen path omode) := by
  have opens : ∀ {found : Option Slot} {later : View}, (match found with
      | none => later.holds = inTx
      | some ip => later.holds = withLock inTx ip) →
      (match found with
      | none => do
        op .endOp
        return -1
      | some ip => do
        let i ← op (.inode ip)
        if i.node.type = tDevice ∧ (i.node.major.toInt < 0 ∨ (ndev : Int) ≤ i.node.major.toInt) then
          openFail ip
        else
          openAlloc ip i.node.type omode : Code Int).Meets spec later
        fun _ => Ends := by
    intro found later known
    cases found with
    | none => exact ends_endOp known
    | some ip =>
      refine meets_step (by simp [known]) fun i _ => ?_
      split
      · exact ends_iunlockput known
      · exact ends_openAlloc known
  unfold sysOpen
  refine meets_step rfl fun _ _ => ?_
  split
  · exact (meets_create rfl path tFile 0 0).bind fun found later made => opens made
  · exact (meets_openExisting rfl path omode).bind fun found later made => opens made

theorem meets_loadseg (offset sz fuel i : Nat) (now : view.holds = withLock inTx ip) :
    (loadseg ip offset sz fuel i).Meets spec view fun _ later =>
      later.holds = withLock inTx ip := by
  induction fuel generalizing i view with
  | zero => exact now
  | succ fuel ih =>
    unfold loadseg
    split
    · dsimp only
      generalize (if sz - i < 4096 then sz - i else 4096) = n
      refine meets_step (by simp [now]) fun bytes _ => ?_
      split
      · exact now
      · exact ih _ now
    · exact now

theorem ends_execLoad (count off : Nat) (now : view.holds = withLock inTx ip) :
    Finishes view (execLoad ip count off) := by
  induction count generalizing off view with
  | zero =>
    refine (calm_inTx.unlocks now).bind fun _ later done => ?_
    refine meets_step (by simp [done]) fun _ _ => ?_
    refine meets_step trivial fun result _ => ?_
    split <;> simp [done]
  | succ count ih =>
    unfold execLoad
    refine meets_step (by simp [now]) fun ph _ => ?_
    split
    · exact ends_iunlockput now
    split
    · exact ih _ now
    split
    · exact ends_iunlockput now
    refine meets_step trivial fun result _ => ?_
    split
    · split
      · exact ends_iunlockput now
      refine (meets_loadseg _ _ _ _ now).bind fun loaded later held => ?_
      split
      · exact ih _ held
      · exact ends_iunlockput held
    · exact ends_iunlockput now

theorem ends_exec (path : Path) : Finishes base (exec path) := by
  unfold exec
  refine meets_step rfl fun _ _ => ?_
  refine meets_nameiLock rfl path (fun _ => rfl) ends_endOp fun held => ?_
  refine meets_step (by simp [held]) fun elf _ => ?_
  split
  · exact ends_iunlockput held
  refine meets_step trivial fun result _ => ?_
  split
  · exact ends_execLoad _ _ held
  · exact ends_iunlockput held

end Code

namespace Call

/-- The code of every call keeps to the specification and gives back what it holds. -/
theorem meets (me : Pslot) (call : Call) :
    (call.code me).Meets View.spec View.base fun _ => View.Ends := by
  cases call with
  | dup fd => exact ends_sysDup fd
  | read fd writable n => exact ends_sysRead fd writable n
  | write fd memory n => exact ends_sysWrite fd memory n
  | close fd => exact ends_sysClose fd
  | fstat fd => exact ends_sysFstat fd
  | link old new => exact ends_sysLink old new
  | unlink path => exact ends_sysUnlink path
  | openAt path omode => exact ends_sysOpen path omode
  | mkdir path => exact ends_sysMknod path tDir 0 0
  | mknod path major minor => exact ends_sysMknod path tDevice major minor
  | chdir path => exact ends_sysChdir path
  | pipe => exact ends_sysPipe
  | fork => exact ends_fork
  | exit => exact ends_exit me
  | exec path => exact ends_exec path

end Call

end OsLab.Fs
