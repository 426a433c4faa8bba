import OsLab.Fs.Operations

/-!
# Runs of the file system

A state is good when there are views of the processes for which the counters are exact and the code
that every process has left keeps to the specification.  Every step of a run keeps it good.
-/

namespace OsLab.Fs

open View Function Finset

variable {views : Pslot → View}

/-- Only locks, counters, descriptors, directories and lives matter to references. -/
theorem Core.congr {k k' : Kernel} (core : Core k views) (fs : k'.fs = k.fs)
    (file : k'.file = k.file)
    (proc : ∀ p, (k'.proc p).life = (k.proc p).life ∧ (k'.proc p).ofile = (k.proc p).ofile ∧
      (k'.proc p).cwd = (k.proc p).cwd) : Core k' views := by
  have account : ∀ p held, Account.of (k'.proc p) held = Account.of (k.proc p) held := by
    intro p held
    simp only [Account.of, (proc p).2.1, (proc p).2.2]
  have same : accounts k' views = accounts k views := funext fun p => account p _
  refine ⟨?_, ?_, core.nodup, fun p => ?_, core.children, fun p rests => ?_, fun p idles => ?_⟩
  · rw [fs, file, same]
    exact core.exact
  · rw [fs]
    exact core.locks
  · have old := core.knows p
    rw [file]
    refine ⟨?_, ?_, ?_, old.distinct, ?_, ?_, ?_, fun c n known => ?_⟩
    · rw [account]
      exact old.slots
    · rw [account]
      exact old.target
    · rw [account]
      exact old.blanks
    · rw [(proc p).2.1]
      exact old.loose
    · rw [(proc p).2.1]
      exact old.closed
    · rw [(proc p).2.2]
      exact old.homeless
    · rw [(proc c).1, (proc c).2.1, (proc c).2.2]
      exact old.child c n known
  · rw [(proc p).1] at rests
    exact core.resting p rests
  · rw [(proc p).1] at idles
    rw [(proc p).2.1, (proc p).2.2]
    exact core.unused p idles

variable {k : Kernel} {p : Pslot}

theorem Core.forget (core : Core k views) (live : (k.proc p).life = .live)
    (rests : (views p).holds = idle) : Core k (update views p base) :=
  core.learn live rests.symm knows_base

variable {sb : Superblock}

/-- The processes hold and know what their views say, and the code they have left meets the
specification. -/
structure Running (k : Kernel) (views : Pslot → View) : Prop where
  core : Core k views
  todo : ∀ p, (k.proc p).todo.Meets spec (views p) fun _ => Ends

/-- The reference count of an open file was found too small. -/
def Miscounted (halt : Halt) : Prop := halt = .filedup ∨ halt = .fileclose

/-- A state of a run. -/
def Good (k : Kernel) : Prop :=
  ∃ views, Running k views ∧ ∀ halt, k.stop = some halt → ¬ Miscounted halt

/-- The code a process has left. -/
def Kernel.setTodo (k : Kernel) (p : Pslot) (todo : Code Int) : Kernel :=
  k.setProc p fun q => { q with todo }
attribute [local simp] Kernel.setProc Kernel.setTodo Miscounted


theorem setTodo_proc (k : Kernel) (p q : Pslot) (todo : Code Int) :
    ((k.setTodo p todo).proc q).life = (k.proc q).life ∧
      ((k.setTodo p todo).proc q).ofile = (k.proc q).ofile ∧
      ((k.setTodo p todo).proc q).cwd = (k.proc q).cwd := by
  by_cases same : q = p
  · subst same
    simp
  · simp [same]

/-- What an operation leaves alone: the code of every process, but for a new process. -/
def Spared (k later : Kernel) (op : Op) : Prop :=
  later.stop = k.stop ∧ ∀ q, (later.proc q).todo = (k.proc q).todo ∨
    (op = .forkStart q ∧ (later.proc q).todo = .ret 0)

variable {op : Op}

theorem spared_same {k later : Kernel} (stop : later.stop = k.stop) (proc : later.proc = k.proc) :
    Spared k later op :=
  ⟨stop, fun _ => .inl (by rw [proc])⟩

theorem spared_onFs {α : Type} {k later : Kernel} (code : FsM α) (result : α)
    (done : k.onFs code = .ok (result, later)) : Spared k later op := by
  obtain ⟨t, _, rfl⟩ := Core.onFs_ok code done
  exact spared_same rfl rfl

theorem spared_setProc {k k' : Kernel} {c : Pslot} {change : Process → Process}
    (stop : k'.stop = k.stop) (proc : k'.proc = k.proc) (kept : ∀ x, (change x).todo = x.todo) :
    Spared k (k'.setProc c change) op := by
  refine ⟨stop, fun q => .inl ?_⟩
  by_cases here : q = c
  · subst here
    simp [kept, proc]
  · simp [here, proc]

variable {outcome : Option Pslot} {result : op.Res}

theorem perform_spared {k later : Kernel} (done : perform sb k p outcome op = .ok (result, later)) :
    Spared k later op := by
  cases op with
  | choose | inode | file | ofile | openFile | advance | openPipe =>
    cases done
    exact spared_same rfl rfl
  | panic halt => cases done
  | beginOp => exact spared_onFs Fs.beginOp () done
  | endOp => exact spared_onFs Fs.endOp () done
  | iputEnd ip => exact spared_onFs (Fs.iputEnd ip) () done
  | iget | ilock | iunlock | iputStart | ialloc | dirlookup | raiseLink | lowerLink | dirlink
  | createEntry | unlinkEntry | itrunc | readi | writei => exact spared_onFs _ _ done
  | dupCwd =>
    simp only [perform] at done
    split at done
    · exact spared_onFs _ _ done
    · cases done
  | filealloc =>
    simp only [perform] at done
    split at done <;> cases done <;> exact spared_same rfl rfl
  | filedup f =>
    simp only [perform] at done
    split at done <;> cases done
    exact spared_same rfl rfl
  | fileclose f fd =>
    simp only [perform] at done
    split_ifs at done <;> cases done <;> exact spared_same rfl rfl
  | clearOfile fd =>
    cases done
    exact spared_setProc rfl rfl fun _ => rfl
  | fdalloc f =>
    simp only [perform] at done
    split at done <;> cases done
    · exact spared_setProc rfl rfl fun _ => rfl
    · exact spared_same rfl rfl
  | takeCwd =>
    simp only [perform] at done
    split at done <;> cases done
    exact spared_same rfl rfl
  | setCwd ip =>
    cases done
    exact spared_setProc rfl rfl fun _ => rfl
  | forkProc =>
    simp only [perform] at done
    split at done
    · split_ifs at done <;> cases done
      · exact spared_setProc rfl rfl fun _ => rfl
      · exact spared_same rfl rfl
    · cases done
      exact spared_same rfl rfl
  | forkFd child fd =>
    simp only [perform] at done
    split at done
    · split_ifs at done
      cases done
      exact spared_setProc rfl rfl fun _ => rfl
    · cases done
      exact spared_same rfl rfl
  | forkCwd child =>
    simp only [perform] at done
    split at done
    · split at done
      · rename_i ip _ _ _ _ dup
        cases done
        obtain ⟨t, _, rfl⟩ := Core.onFs_ok (idup ip) dup
        exact spared_setProc rfl rfl fun _ => rfl
      · cases done
    · cases done
  | forkStart child =>
    cases done
    refine ⟨rfl, fun q => ?_⟩
    by_cases here : q = child
    · subst here
      exact .inr ⟨rfl, by simp⟩
    · exact .inl (by simp [here])
  | exitProc =>
    cases done
    exact spared_setProc rfl rfl fun _ => rfl

theorem onFs_error {α : Type} {code : FsM α} {halt : Halt} (failed : k.onFs code = .error halt) :
    ∃ stop, code k.fs = .error stop ∧ halt = .fs stop := by
  unfold Kernel.onFs at failed
  split at failed
  · cases failed
  · rename_i stop outcome
    cases failed
    exact ⟨stop, outcome, rfl⟩

/-- A file in a descriptor of the process has a reference. -/
theorem Core.ofile_ref {fd : Fd} {f : Fslot} (core : Core k views)
    (tight : (views p).holds.loose = none) (held : (k.proc p).ofile fd = some f) :
    0 < (k.file f).ref := by
  have share : 0 < (accounts k views p).fileShare f := by
    have owned : (accounts k views p).owned fd = some f := by
      simpa [accounts, Account.of, tight] using held
    exact Account.fileShare_pos_of_owned owned
  exact lt_of_lt_of_le share (core.exact.fileShare_le p f)

/-- No operation whose precondition holds finds a reference count too small. -/
theorem Core.perform_halts {sb : Superblock} {halt : Halt} (core : Core k views)
    (ready : pre op (views p)) (failed : Fs.perform sb k p outcome op = .error halt) :
    ¬ Miscounted halt := by
  have fs : ∀ {α : Type} (code : FsM α), k.onFs code = .error halt → ¬ Miscounted halt := by
    intro α code failed
    obtain ⟨stop, _, rfl⟩ := onFs_error failed
    simp
  cases op with
  | choose | inode | file | ofile | openFile | advance | openPipe | clearOfile | setCwd | forkStart
  | exitProc => cases failed
  | panic other =>
    cases failed
    rcases ready with rfl | rfl | rfl | rfl <;> simp
  | beginOp => exact fs Fs.beginOp failed
  | endOp => exact fs Fs.endOp failed
  | iputEnd ip => exact fs (Fs.iputEnd ip) failed
  | iget | ilock | iunlock | iputStart | ialloc | dirlookup | raiseLink | lowerLink | dirlink
  | createEntry | unlinkEntry | itrunc | readi | writei => exact fs _ failed
  | dupCwd =>
    simp only [Fs.perform] at failed
    split at failed
    · exact fs _ failed
    · cases failed
      simp
  | filealloc =>
    simp only [Fs.perform] at failed
    split at failed <;> cases failed
  | filedup f =>
    obtain ⟨_, ⟨fd, slot⟩, _⟩ := ready
    have share := core.slot_share slot
    have enough := core.exact.fileShare_le p f
    simp only [Fs.perform] at failed
    split at failed
    · omega
    · cases failed
  | fileclose f fd =>
    have share := core.fileclose_share ready
    have enough := core.exact.fileShare_le p f
    simp only [Fs.perform] at failed
    split_ifs at failed
    omega
  | fdalloc f =>
    simp only [Fs.perform] at failed
    split at failed <;> cases failed
  | takeCwd =>
    simp only [Fs.perform] at failed
    split at failed
    · cases failed
    · cases failed
      simp
  | forkProc =>
    simp only [Fs.perform] at failed
    split at failed
    · split_ifs at failed
    · cases failed
  | forkFd child fd =>
    simp only [Fs.perform] at failed
    split at failed
    · rename_i f held
      have enough := core.ofile_ref ready.2.1 held
      split_ifs at failed
      omega
    · cases failed
  | forkCwd child =>
    simp only [Fs.perform] at failed
    split at failed
    · split at failed
      · cases failed
      · rename_i stop dup
        cases failed
        exact fs _ dup
    · cases failed
      simp

theorem Running.performs {k later : Kernel} {rest : op.Res → Code Int} (running : Running k views)
    (live : (k.proc p).life = .live) (next : (k.proc p).todo = .call op rest)
    (done : perform sb k p outcome op = .ok (result, later)) :
    Running (later.setTodo p (rest result))
      (update views p (after (views p) op result)) := by
  have mine := running.todo p
  rw [next] at mine
  obtain ⟨ready, continues⟩ := mine
  obtain ⟨told, moved⟩ := running.core.perform live ready done
  refine ⟨moved.congr rfl rfl fun q => setTodo_proc .., fun q => ?_⟩
  by_cases same : q = p
  · subst same
    simpa using continues result _ ⟨told, rfl⟩
  have code : ((later.setTodo p (rest result)).proc q).todo = (later.proc q).todo := by
    simp [same]
  rw [code, update_of_ne same]
  rcases (perform_spared done).2 q with kept | ⟨rfl, started⟩
  · rw [kept]
    exact running.todo q
  · have forming := ((running.core.knows p).child q _ ready).2.1
    rw [started, running.core.resting q (by rw [forming]; decide)]
    exact rfl

/-- Between calls a process holds nothing. -/
theorem Running.rests (running : Running k views) (done : (k.proc p).todo.Done) :
    (views p).holds = idle := by
  have meets := running.todo p
  cases code : (k.proc p).todo with
  | ret result =>
    rw [code] at meets
    exact meets
  | call op rest =>
    rw [code] at done
    exact done.elim

theorem Good.next (action : Action) (good : Good k) (enabled : (fileSystem sb).Enabled k action) :
    Good ((fileSystem sb).next k action) := by
  obtain ⟨views, running, stops⟩ := good
  obtain ⟨running', allowed⟩ := enabled
  cases action with
  | call p request =>
    obtain ⟨live, done⟩ := allowed
    refine ⟨update views p base, ⟨?_, fun q => ?_⟩, stops⟩
    · exact (running.core.forget live (running.rests done)).congr rfl rfl
        fun q => setTodo_proc k p q _
    · by_cases same : q = p
      · subst same
        simpa [fileSystem, Fs.next] using request.meets q
      · simpa [fileSystem, Fs.next, same] using running.todo q
  | step p outcome =>
    obtain ⟨live, ready⟩ := allowed
    cases code : (k.proc p).todo with
    | ret result =>
      rw [code] at ready
      exact ready.elim
    | call op rest =>
      cases outcome' : perform sb k p outcome op with
      | ok pair =>
        obtain ⟨result, later⟩ := pair
        have state : (fileSystem sb).next k (.step p outcome) =
            later.setTodo p (rest result) := by
          simp [fileSystem, Fs.next, code, outcome']
        rw [state]
        refine ⟨_, running.performs live code outcome', fun halt stopped => ?_⟩
        have none : later.stop = none := (perform_spared outcome').1.trans running'
        rw [show (later.setTodo p (rest result)).stop = later.stop from rfl, none] at stopped
        cases stopped
      | error halt =>
        have state : (fileSystem sb).next k (.step p outcome) =
            { k with stop := some halt } := by
          simp [fileSystem, Fs.next, code, outcome']
        have mine := running.todo p
        rw [code] at mine
        rw [state]
        refine ⟨views, ⟨running.core.congr rfl rfl fun q => ⟨rfl, rfl, rfl⟩, running.todo⟩,
          fun other stopped => ?_⟩
        cases stopped
        exact running.core.perform_halts mine.1 outcome'

/-- The first process has one reference, to its current directory. -/
theorem exact_boot (disk : Nat → Block) :
    Exact (boot disk).fs.shape (boot disk).file (accounts (boot disk) fun _ => base) := by
  have owned : ∀ p fd, (accounts (boot disk) (fun _ => base) p).owned fd = none := by
    intro p fd
    by_cases first : p = initSlot <;> simp [accounts, Account.of, base, idle, boot, first]
  have home : ∀ p, (accounts (boot disk) (fun _ => base) p).home =
      if p = initSlot then some ⟨0, by decide⟩ else none := by
    intro p
    by_cases first : p = initSlot <;> simp [accounts, Account.of, base, idle, boot, first]
  refine ⟨rfl, ?_, fun f => ?_, fun ip => ?_, fun f _ => rfl⟩
  · simp [accounts, Account.txShare, Account.of, base, idle, boot, State.shape]
  · have none : ∀ p, (accounts (boot disk) (fun _ => base) p).fileShare f = 0 := by
      intro p
      have empty : (accounts (boot disk) (fun _ => base) p).files = [] := rfl
      simp only [Account.fileShare, owned, empty, weight_none, sum_const_zero, List.count_nil]
    rw [sum_congr rfl fun p _ => none p, sum_const_zero]
    rfl
  · have shares : ∀ p, (accounts (boot disk) (fun _ => base) p).inodeShare ip =
        if p = initSlot then weight ip (some ⟨0, by decide⟩) else 0 := by
      intro p
      have empty : (accounts (boot disk) (fun _ => base) p).refs = [] := rfl
      have settled : (accounts (boot disk) (fun _ => base) p).dying = none := rfl
      rw [Account.inodeShare, home, empty, settled]
      split <;> simp
    have closed : opens (boot disk).file ip = 0 := by simp [opens, boot, inodeOf]
    rw [closed, sum_congr rfl fun p _ => shares p, sum_ite_eq' Finset.univ initSlot]
    simp only [mem_univ, if_true, weight_some, State.shape, boot, Fin.ext_iff]
    by_cases first : ip.val = 0
    · simp [first]
    · simp [first, Ne.symm first]

/-- No process holds or knows anything at the start. -/
theorem core_boot (disk : Nat → Block) : Core (boot disk) fun _ => base := by
  refine ⟨exact_boot disk, fun ip p => ?_, fun _ => List.nodup_nil, fun _ => knows_base, ?_,
    fun _ _ => rfl, fun p idles => ?_⟩
  · simp only [boot, State.shape]
    split <;> simp [base, idle]
  · intro p q c n m known
    cases known
  · simp only [boot] at idles ⊢
    split at idles
    · cases idles
    · rename_i other
      simp [other]

theorem good_boot (disk : Nat → Block) : Good (boot disk) := by
  refine ⟨fun _ => base, ⟨core_boot disk, fun p => ?_⟩, fun halt none => nomatch none⟩
  simp only [boot]
  split <;> exact rfl

end OsLab.Fs
