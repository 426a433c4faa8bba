import OsLab.Lib.Run
import OsLab.Shell.Command

/-!
# `runcmd` in its processes

Each process that runs `runcmd` has its table of descriptors, its `int p[2]` and the statements of
`user/sh.c` it still has to execute; descriptors are handed out as `fdalloc` of `kernel/sysfile.c`
does.  The kernel may refuse `open`, `pipe`, `fork` and `exec` at any time.
-/

namespace OsLab.Shell

variable {S : Type}

/-- What a descriptor refers to: a file that was open at the start, a file that was opened since,
or an end of a pipe. -/
inductive Obj (S : Type) where
  | inherited (n : Nat)
  | file (name : S) (mode : Nat)
  | readEnd (pipe : Nat)
  | writeEnd (pipe : Nat)
deriving DecidableEq, Repr

/-- The pipe of an end of a pipe. -/
def Obj.pipe? : Obj S → Option Nat
  | .readEnd pipe | .writeEnd pipe => some pipe
  | _ => none

/-- `p->ofile`. -/
abbrev Fds (S : Type) := List (Option (Obj S))

def nofile : Nat := 16

def fdalloc (f : Obj S) (ofile : Fds S) : Option (Nat × Fds S) :=
  match ofile.findIdx? Option.isNone with
  | some fd => some (fd, ofile.set fd (some f))
  | none => none

def argfd (ofile : Fds S) (fd : Int) : Option (Obj S) :=
  if fd < 0 then none else ofile.getD fd.toNat none

def sysClose (ofile : Fds S) (fd : Int) : Fds S :=
  match argfd ofile fd with
  | some _ => ofile.set fd.toNat none
  | none => ofile

def sysDup (ofile : Fds S) (fd : Int) : Fds S :=
  match argfd ofile fd with
  | some f =>
    match fdalloc f ofile with
    | some (_, ofile) => ofile
    | none => ofile
  | none => ofile

/-- `sys_open`, as far as the descriptors are concerned. -/
def sysOpen (file : S) (mode : Nat) (ofile : Fds S) : Option (Fds S) :=
  (fdalloc (.file file mode) ofile).map Prod.snd

/-- `sys_pipe` with a new pipe. -/
def sysPipe (pipe : Nat) (ofile : Fds S) : Option ((Int × Int) × Fds S) := do
  let (fd0, ofile) ← fdalloc (.readEnd pipe) ofile
  let (fd1, ofile) ← fdalloc (.writeEnd pipe) ofile
  return ((fd0, fd1), ofile)

/-- An argument of `close` and `dup`. -/
inductive Arg where
  | const (fd : Int)
  | p0
  | p1
deriving DecidableEq, Repr

def Arg.value (p : Int × Int) : Arg → Int
  | .const fd => fd
  | .p0 => p.1
  | .p1 => p.2

/-- The statements of `runcmd`.  `fork node child` stands for `if (fork1() == 0) { child }`; the
node says which subtree the child is for. -/
inductive Stmt (S : Type) where
  | close (fd : Arg)
  | dup (fd : Arg)
  /-- `if (open(file, mode) < 0) exit(1);` -/
  | openFile (file : S) (mode : Nat)
  /-- `if (pipe(p) < 0) panic("pipe");` -/
  | pipe
  | fork (node : Path) (child : List (Stmt S))
  | wait
  | exec (argv : List S)
  | exit (status : Nat)
  /-- `runcmd(cmd)`, which does not return. -/
  | runcmd (node : Path) (cmd : Cmd S)

/-- The body of `runcmd`. -/
def runcmd (node : Path) : Cmd S → List (Stmt S)
  | .exec [] => [.exit 1]
  | .exec (path :: args) => [.exec (path :: args), .exit 0]
  | .redir cmd file mode fd =>
    [.close (.const fd), .openFile file mode, .runcmd (.cmd :: node) cmd]
  | .list left right =>
    [.fork (.left :: node) [.runcmd (.left :: node) left], .wait, .runcmd (.right :: node) right]
  | .pipe left right =>
    [.pipe, .fork (.left :: node)
        [.close (.const 1), .dup .p1, .close .p0, .close .p1, .runcmd (.left :: node) left],
      .fork (.right :: node)
        [.close (.const 0), .dup .p0, .close .p0, .close .p1, .runcmd (.right :: node) right],
      .close .p0, .close .p1, .wait, .wait, .exit 0]
  | .back cmd => [.fork (.cmd :: node) [.runcmd (.cmd :: node) cmd], .exit 0]

/-- Where a process is in its life; `execed` runs another program. -/
inductive Status where
  | running
  | execed
  | zombie
  | unused
deriving DecidableEq, Repr

/-- A process, with the node of the tree it works on. -/
structure Process (S : Type) where
  status : Status
  parent : Option Nat
  node : Path
  code : List (Stmt S)
  ofile : Fds S
  p : Int × Int

/-- The processes by pid, and for each pipe the node it was made for. -/
structure Procs (S : Type) where
  procs : List (Process S)
  pipes : List Path

/-- The process `pid` takes its next step; `granted` says whether the kernel has the resources a
call asks for. -/
structure Turn where
  pid : Nat
  granted : Bool
deriving DecidableEq, Repr

namespace Procs

variable (s : Procs S)

def put (pid : Nat) (q : Process S) : Procs S :=
  { s with procs := s.procs.set pid q }

/-- `exit`: the descriptors are closed and the children left to `init`. -/
def exit (pid : Nat) (q : Process S) : Procs S :=
  { s with
    procs := (s.procs.map fun c => if c.parent = some pid then { c with parent := none } else c).set
      pid { q with status := .zombie, code := [], ofile := q.ofile.map fun _ => none } }

def children (pid : Nat) : List Nat :=
  (List.range s.procs.length).filter fun child =>
    (s.procs[child]?).any fun c => c.parent = some pid && c.status != .unused

/-- A child that has exited. -/
def zombieChild (pid : Nat) : Option Nat :=
  (s.children pid).find? fun child => (s.procs[child]?).any fun c => c.status = .zombie

/-- `wait`, once it returns: it frees a child that has exited, if there is one. -/
def reap (pid : Nat) : Procs S :=
  match s.zombieChild pid with
  | some child =>
    match s.procs[child]? with
    | some c => s.put child { c with status := .unused }
    | none => s
  | none => s

/-- A statement of the process `pid`. -/
def execute (pid : Nat) (q : Process S) (granted : Bool) :
    Stmt S → List (Stmt S) → Procs S
  | .close fd, rest =>
    s.put pid { q with code := rest, ofile := sysClose q.ofile (fd.value q.p) }
  | .dup fd, rest => s.put pid { q with code := rest, ofile := sysDup q.ofile (fd.value q.p) }
  | .openFile file mode, rest =>
    match granted, sysOpen file mode q.ofile with
    | true, some ofile => s.put pid { q with code := rest, ofile }
    | _, _ => s.exit pid q
  | .pipe, rest =>
    match granted, sysPipe s.pipes.length q.ofile with
    | true, some (p, ofile) =>
      { s.put pid { q with code := rest, ofile, p } with pipes := s.pipes ++ [q.node] }
    | _, _ => s.exit pid q
  | .fork node child, rest =>
    if granted then
      let s := s.put pid { q with code := rest }
      { s with procs := s.procs ++ [{ q with parent := some pid, node, code := child }] }
    else s.exit pid q
  | .wait, rest => (s.reap pid).put pid { q with code := rest }
  | .exec argv, rest =>
    if granted then s.put pid { q with status := .execed, code := .exec argv :: rest }
    else s.put pid { q with code := rest }
  | .exit _, _ => s.exit pid q
  | .runcmd node cmd, _ => s.put pid { q with node, code := Shell.runcmd node cmd }

def next (turn : Turn) : Procs S :=
  match s.procs[turn.pid]? with
  | none => s
  | some q =>
    match q.status, q.code with
    | .running, stmt :: rest => s.execute turn.pid q turn.granted stmt rest
    | .execed, _ => s.exit turn.pid q
    | _, _ => s

/-- A process can take a turn unless it is gone or waits for a child. -/
def Enabled (turn : Turn) : Prop :=
  match s.procs[turn.pid]? with
  | none => False
  | some q =>
    match q.status, q.code with
    | .running, .wait :: _ => s.zombieChild turn.pid ≠ none ∨ s.children turn.pid = []
    | .running, _ :: _ => True
    | .execed, _ => True
    | _, _ => False

instance (s : Procs S) (turn : Turn) : Decidable (s.Enabled turn) := by
  unfold Enabled
  split
  · infer_instance
  · split <;> infer_instance

/-- The shell's processes. -/
def system : System (Procs S) Turn where
  Enabled := Enabled
  next := next

instance (s : Procs S) (turn : Turn) : Decidable (system.Enabled s turn) :=
  inferInstanceAs (Decidable (s.Enabled turn))

/-- A process that calls `runcmd` on a tree with three descriptors open. -/
def start (tree : Cmd S) (stdin stdout stderr : Nat) : Procs S where
  procs := [{
    status := .running
    parent := none
    node := []
    code := [.runcmd [] tree]
    ofile := [some (.inherited stdin), some (.inherited stdout), some (.inherited stderr)] ++
      List.replicate (nofile - 3) none
    p := (0, 0) }]
  pipes := []

end Procs

end OsLab.Shell
