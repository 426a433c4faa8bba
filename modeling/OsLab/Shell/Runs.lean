import OsLab.Shell.Wiring

/-!
# Runs of command trees

Every turn of a process keeps what its remaining statements need, and keeps each node of the tree
with one process.
-/

namespace OsLab.Shell

open List

variable {S : Type} {pipes : List Path} {ofile : Fds S} {p : Int × Int} {below : Path} {cmd : Cmd S}

namespace Procs

/-- What holds of the processes of a command tree. -/
structure Inv (tree : Cmd S) (s : Procs S) : Prop where
  good : ∀ (pid : Nat) (q : Process S), s.procs[pid]? = some q →
    Good tree s.pipes q.node q.code q.ofile q.p
  apart : ∀ (pid : Nat) (q : Process S) (other : Nat) (r : Process S), s.procs[pid]? = some q →
    s.procs[other]? = some r → pid ≠ other →
      ∀ place, Owns q.node q.code place → ¬ Owns r.node r.code place
  fresh : ∀ (pid : Nat) (q : Process S), s.procs[pid]? = some q →
    ∀ place, Owns q.node q.code place → place ∉ s.pipes
  once : s.pipes.Nodup

section Steps

variable {tree : Cmd S} {s : Procs S} {pid : Nat} {q new : Process S}

theorem getElem?_put {other : Nat} {r : Process S}
    (found : (s.put pid new).procs[other]? = some r) :
    other = pid ∧ r = new ∨ other ≠ pid ∧ s.procs[other]? = some r := by
  rw [put, List.getElem?_set] at found
  split at found
  · rename_i same
    split at found
    · exact .inl ⟨same.symm, (Option.some.inj found).symm⟩
    · contradiction
  · rename_i differ
    exact .inr ⟨Ne.symm differ, found⟩

section

variable (inv : Inv tree s)
include inv

/-- A process may give up nodes of the tree, and make pipes for those it gives up. -/
theorem Inv.update (at_ : s.procs[pid]? = some q) (made : List Path)
    (good : Good tree (s.pipes ++ made) new.node new.code new.ofile new.p)
    (owns : ∀ place, Owns new.node new.code place → Owns q.node q.code place)
    (mine : ∀ place ∈ made, Owns q.node q.code place ∧ ¬ Owns new.node new.code place)
    (once : made.Nodup) : Inv tree { s.put pid new with pipes := s.pipes ++ made } where
  good other r found := by
    rcases getElem?_put found with ⟨_, rfl⟩ | ⟨_, old⟩
    · exact good
    · exact (inv.good other r old).grows (prefix_append ..)
  apart first r second t foundFirst foundSecond differ place owned owned' := by
    rcases getElem?_put foundFirst with ⟨rfl, rfl⟩ | ⟨_, old⟩ <;>
      rcases getElem?_put foundSecond with ⟨rfl, rfl⟩ | ⟨_, old'⟩
    · exact differ rfl
    · exact inv.apart _ _ _ _ at_ old' differ place (owns place owned) owned'
    · exact inv.apart _ _ _ _ old at_ differ place owned (owns place owned')
    · exact inv.apart _ _ _ _ old old' differ place owned owned'
  fresh other r found place owned listed := by
    rcases getElem?_put found with ⟨_, rfl⟩ | ⟨differ, old⟩ <;>
      rcases mem_append.mp listed with before | now
    · exact inv.fresh pid q at_ place (owns place owned) before
    · exact (mine place now).2 owned
    · exact inv.fresh other r old place owned before
    · exact inv.apart _ _ _ _ old at_ differ place owned (mine place now).1
  once := nodup_append.mpr ⟨inv.once, once, fun place old _ now same =>
    inv.fresh pid q at_ place (mine place (same ▸ now)).1 old⟩

/-- A process may give up nodes of the tree. -/
theorem Inv.put (at_ : s.procs[pid]? = some q)
    (good : Good tree s.pipes new.node new.code new.ofile new.p)
    (owns : ∀ place, Owns new.node new.code place → Owns q.node q.code place) :
    Inv tree (s.put pid new) := by
  have none : s.pipes ++ [] = s.pipes := append_nil _
  have updated := inv.update at_ [] (none.symm ▸ good) owns nofun nodup_nil
  rwa [append_nil] at updated

/-- A child gets nodes that nobody else has. -/
theorem Inv.spawn {child : Process S}
    (good : Good tree s.pipes child.node child.code child.ofile child.p)
    (free : ∀ place, Owns child.node child.code place → place ∉ s.pipes)
    (others : ∀ (other : Nat) (r : Process S), s.procs[other]? = some r →
      ∀ place, Owns child.node child.code place → ¬ Owns r.node r.code place) :
    Inv tree { s with procs := s.procs ++ [child] } := by
  have cases_ : ∀ {other : Nat} {r : Process S}, (s.procs ++ [child])[other]? = some r →
      other = s.procs.length ∧ r = child ∨ s.procs[other]? = some r := by
    intro other r found
    rcases lt_or_ge other s.procs.length with inside | outside
    · rw [List.getElem?_append_left inside] at found
      exact .inr found
    · rw [List.getElem?_append_right outside, List.getElem?_singleton] at found
      split at found
      · exact .inl ⟨by omega, (Option.some.inj found).symm⟩
      · contradiction
  exact
    { good := fun other r found => by
        rcases cases_ found with ⟨_, rfl⟩ | old
        · exact good
        · exact inv.good other r old
      apart := fun first r second t foundFirst foundSecond differ place owned owned' => by
        rcases cases_ foundFirst with ⟨rfl, rfl⟩ | old <;>
          rcases cases_ foundSecond with ⟨rfl, rfl⟩ | old'
        · exact differ rfl
        · exact others second t old' place owned owned'
        · exact others first r old place owned' owned
        · exact inv.apart _ _ _ _ old old' differ place owned owned'
      fresh := fun other r found place owned => by
        rcases cases_ found with ⟨_, rfl⟩ | old
        · exact free place owned
        · exact inv.fresh other r old place owned
      once := inv.once }

theorem Inv.reparent (parents : Process S → Option Nat) :
    Inv tree { s with procs := s.procs.map fun c => { c with parent := parents c } } := by
  have old : ∀ {other : Nat} {r : Process S},
      (s.procs.map fun c => { c with parent := parents c })[other]? = some r →
      ∃ c, s.procs[other]? = some c ∧ r = { c with parent := parents c } := by
    intro other r found
    rw [List.getElem?_map] at found
    obtain ⟨c, was, rfl⟩ := Option.map_eq_some_iff.mp found
    exact ⟨c, was, rfl⟩
  exact
    { good := fun other r found => by
        obtain ⟨c, was, rfl⟩ := old found
        exact inv.good other c was
      apart := fun first r second t foundFirst foundSecond => by
        obtain ⟨c, was, rfl⟩ := old foundFirst
        obtain ⟨d, was', rfl⟩ := old foundSecond
        exact inv.apart first c second d was was'
      fresh := fun other r found => by
        obtain ⟨c, was, rfl⟩ := old found
        exact inv.fresh other c was
      once := inv.once }

end

theorem good_closed {node : Path} : Good tree pipes node [] (ofile.map fun _ => none) p := by
  refine .done fun f open_ => ?_
  obtain ⟨_, _, same⟩ := mem_map.mp open_
  contradiction

theorem Inv.exit (inv : Inv tree s) (at_ : s.procs[pid]? = some q) : Inv tree (s.exit pid q) := by
  let parents : Process S → Option Nat := fun c => if c.parent = some pid then none else c.parent
  have same : (s.procs.map fun c => if c.parent = some pid then { c with parent := none } else c) =
      s.procs.map fun c => { c with parent := parents c } := by
    refine map_congr_left fun c _ => ?_
    by_cases child : c.parent = some pid
    · simp only [parents, child, if_true]
    · simp only [parents, child, if_false]
  have left := inv.reparent parents
  rw [Procs.exit, same]
  refine left.put (q := { q with parent := parents q }) ?_ good_closed fun _ => False.elim
  rw [List.getElem?_map, at_]
  rfl

theorem Inv.reap (inv : Inv tree s) (pid : Nat) : Inv tree (s.reap pid) := by
  unfold Procs.reap
  split
  · split
    · rename_i c found
      exact inv.put found (inv.good _ c found) fun _ => id
    · exact inv
  · exact inv

theorem reap_getElem? (at_ : s.procs[pid]? = some q) (waiter : Nat) :
    ∃ status, (s.reap waiter).procs[pid]? = some { q with status } := by
  unfold Procs.reap
  split
  · rename_i child _
    split
    · rename_i c found
      by_cases same : child = pid
      · subst same
        obtain rfl : q = c := Option.mem_unique at_ found
        refine ⟨.unused, ?_⟩
        rw [Procs.put, List.getElem?_set_self (List.getElem?_eq_some_iff.mp at_).1]
      · refine ⟨q.status, ?_⟩
        rw [Procs.put, List.getElem?_set_ne same, at_]
    · exact ⟨q.status, at_⟩
  · exact ⟨q.status, at_⟩

theorem pipes_reap (waiter : Nat) : (s.reap waiter).pipes = s.pipes := by
  unfold Procs.reap
  split
  · split <;> rfl
  · rfl

/-- The process of a statement and what is known of it. -/
structure Doing (tree : Cmd S) (s : Procs S) (pid : Nat) (q : Process S) (stmt : Stmt S)
    (rest : List (Stmt S)) : Prop where
  inv : Inv tree s
  found : s.procs[pid]? = some q
  code : q.code = stmt :: rest

variable {rest : List (Stmt S)} {stmt : Stmt S}

theorem Doing.good (doing : Doing tree s pid q stmt rest) :
    Good tree s.pipes q.node (stmt :: rest) q.ofile q.p :=
  doing.code ▸ doing.inv.good pid q doing.found

theorem Doing.advance (doing : Doing tree s pid q stmt rest) (ofile : Fds S)
    (good : Good tree s.pipes q.node rest ofile q.p)
    (owns : ∀ place, Owns q.node rest place → Owns q.node (stmt :: rest) place) :
    Inv tree (s.put pid { q with code := rest, ofile }) :=
  doing.inv.put doing.found good fun place owned => doing.code ▸ owns place owned

theorem Doing.pipe (doing : Doing tree s pid q .pipe rest)
    (result : sysPipe s.pipes.length q.ofile = some (p, ofile)) :
    Inv tree { s.put pid { q with code := rest, ofile, p } with pipes := s.pipes ++ [q.node] } := by
  cases doing.good with
  | pipe ends once good =>
    refine doing.inv.update doing.found _ (good _ p ofile (prefix_refl _) result)
      (fun place owned => doing.code ▸ .inr owned) (fun place here => ?_)
      (nodup_singleton _)
    obtain rfl := mem_singleton.mp here
    exact ⟨doing.code ▸ .inl rfl, once⟩

theorem Doing.fork {child : List (Stmt S)} (doing : Doing tree s pid q (.fork below child) rest)
    (parent : Option Nat) : Inv tree { s.put pid { q with code := rest } with
      procs := (s.put pid { q with code := rest }).procs ++
        [{ q with parent, node := below, code := child }] } := by
  cases doing.good with
  | fork ends inside apart forked good =>
    have mine : ∀ place, Owns below child place → Owns q.node q.code place :=
      fun place owned => doing.code ▸ .inl (inside place owned)
    have parent := doing.advance q.ofile good fun place owned => .inr owned
    refine parent.spawn forked (fun place owned => ?_) fun other r found place owned owned' => ?_
    · exact doing.inv.fresh pid q doing.found place (mine place owned)
    · rcases getElem?_put found with ⟨_, rfl⟩ | ⟨differ, old⟩
      · exact apart place (inside place owned) owned'
      · exact doing.inv.apart _ _ _ _ old doing.found differ place owned' (mine place owned)

theorem Doing.wait (doing : Doing tree s pid q .wait rest) :
    Inv tree ((s.reap pid).put pid { q with code := rest }) := by
  cases doing.good with
  | wait ends good =>
    obtain ⟨status, found⟩ := reap_getElem? doing.found pid
    refine (doing.inv.reap pid).put found ?_ fun place owned => doing.code ▸ owned
    rw [pipes_reap]
    exact good

theorem Doing.runcmd (low : tree.Standard) (doing : Doing tree s pid q (.runcmd below cmd) rest) :
    Inv tree (s.put pid { q with node := below, code := Shell.runcmd below cmd }) := by
  cases doing.good with
  | runcmd ends entry =>
    exact doing.inv.put doing.found (runcmd_good entry (low.node entry.found))
      fun place owned => doing.code ▸ runcmd_owns owned

theorem Doing.execute (low : tree.Standard) (doing : Doing tree s pid q stmt rest)
    (granted : Bool) : Inv tree (s.execute pid q granted stmt rest) := by
  have exits := doing.inv.exit doing.found
  cases stmt with
  | close fd =>
    cases doing.good with
    | close ends good => exact doing.advance _ good fun _ => id
  | dup fd =>
    cases doing.good with
    | dup ends good => exact doing.advance _ good fun _ => id
  | openFile file mode =>
    simp only [Procs.execute]
    split
    · rename_i ofile result
      cases doing.good with
      | openFile ends good => exact doing.advance ofile (good ofile result) fun _ => id
    · exact exits
  | pipe =>
    simp only [Procs.execute]
    split
    · exact doing.pipe ‹_›
    · exact exits
  | fork below child =>
    simp only [Procs.execute]
    split
    · exact doing.fork _
    · exact exits
  | wait => exact doing.wait
  | exec argv =>
    simp only [Procs.execute]
    split
    · exact doing.inv.put doing.found doing.good fun place owned => doing.code ▸ owned
    · cases doing.good with
      | exec ends opens good => exact doing.advance _ good fun _ => id
  | exit status => exact exits
  | runcmd below cmd => exact doing.runcmd low

theorem Inv.next (low : tree.Standard) (inv : Inv tree s) (turn : Turn) :
    Inv tree (s.next turn) := by
  unfold Procs.next
  split
  · exact inv
  rename_i q found
  split
  · rename_i stmt rest _ code
    exact Doing.execute low ⟨inv, found, code⟩ turn.granted
  · exact inv.exit found
  · exact inv

theorem inv_start (stdin stdout stderr : Nat) : Inv tree (start tree stdin stdout stderr) where
  good pid q found := by
    obtain ⟨inside, rfl⟩ := List.getElem?_eq_some_iff.mp found
    obtain rfl : pid = 0 := Nat.lt_one_iff.mp inside
    have olds : Olds [] [] (standard (.inherited stdin) (.inherited stdout)
        (.inherited stderr) : Fds S) := by
      intro f open_
      rcases mem_standard.mp open_ with rfl | rfl | rfl <;> exact nofun
    exact .runcmd (olds.ends _) ⟨⟨_, _, _, rfl⟩, rfl, olds, nofun⟩
  apart pid q other r found found' differ := by
    have first := (List.getElem?_eq_some_iff.mp found).1
    have second := (List.getElem?_eq_some_iff.mp found').1
    exact absurd ((Nat.lt_one_iff.mp first).trans (Nat.lt_one_iff.mp second).symm) differ
  fresh _ _ _ _ _ := not_mem_nil
  once := nodup_nil

end Steps

/-- The descriptors of the processes of a command tree. -/
structure Wires (tree : Cmd S) (s : Procs S) : Prop where
  /-- A process that reaches `exec` has exactly the descriptors `0`, `1` and `2` open. -/
  execs : ∀ q ∈ s.procs, ∀ argv rest, q.code = .exec argv :: rest → OpensStandard q.ofile
  /-- A node makes at most one pipe. -/
  once : s.pipes.Nodup
  /-- The process for the left of a `PIPE` node starts with the write end of its pipe as
  descriptor `1`, and without the read end. -/
  left : ∀ q ∈ s.procs, ∀ node left right rest, tree.node node = some (.pipe left right) →
    q.code = .runcmd (.left :: node) left :: rest →
    ∃ i, s.pipes[i]? = some node ∧ argfd q.ofile 1 = some (.writeEnd i) ∧
      some (.readEnd i) ∉ q.ofile
  /-- The process for the right starts with the read end as descriptor `0`, and without the write
  end. -/
  right : ∀ q ∈ s.procs, ∀ node left right rest, tree.node node = some (.pipe left right) →
    q.code = .runcmd (.right :: node) right :: rest →
    ∃ i, s.pipes[i]? = some node ∧ argfd q.ofile 0 = some (.readEnd i) ∧
      some (.writeEnd i) ∉ q.ofile
  /-- An end of a pipe is open in the two subtrees only, once the process at the node has no
  `close` left to do. -/
  kept : ∀ q ∈ s.procs, ∀ f, some f ∈ q.ofile → ∀ i, f.pipe? = some i →
    ∃ node, s.pipes[i]? = some node ∧
      (Below q.node node ∨ q.node = node ∧ ∃ fd, .close fd ∈ q.code)
  /-- Behind a `REDIR` node the file is on its descriptor. -/
  redirs : ∀ q ∈ s.procs, ∀ node cmd file mode fd rest,
    tree.node node = some (.redir cmd file mode fd) →
    q.code = .runcmd (.cmd :: node) cmd :: rest → argfd q.ofile fd = some (.file file mode)

section Runs

variable {tree : Cmd S} {s : Procs S}

theorem Good.entry {node : Path} {rest : List (Stmt S)}
    (good : Good tree pipes node (.runcmd below cmd :: rest) ofile p) :
    Entry tree pipes below cmd ofile := by
  cases good
  assumption

theorem Inv.wires (inv : Inv tree s) : Wires tree s := by
  have good : ∀ q ∈ s.procs, Good tree s.pipes q.node q.code q.ofile q.p := by
    intro q listed
    obtain ⟨pid, found⟩ := List.getElem?_of_mem listed
    exact inv.good pid q found
  refine ⟨fun q listed argv rest code => ?_, inv.once, fun q listed node left right rest at_ code =>
    ?_, fun q listed node left right rest at_ code => ?_, fun q listed f open_ i end_ => ?_,
    fun q listed node cmd file mode fd rest at_ code => ?_⟩
  · have doing := good q listed
    rw [code] at doing
    cases doing
    assumption
  · exact (Good.entry (code ▸ good q listed)).wired _ _ _ rfl at_
  · exact (Good.entry (code ▸ good q listed)).wired _ _ _ rfl at_
  · obtain ⟨above, made, place⟩ := (good q listed).ends f open_ i end_
    exact ⟨above, made, place.imp_right fun ⟨same, close⟩ => ⟨same.symm, close⟩⟩
  · exact (Good.entry (code ▸ good q listed)).wired _ _ _ rfl at_

/-- **The shell wires the descriptors of a command tree**, in every run of its processes. -/
theorem wires_of_reaches {stdin stdout stderr : Nat} (low : tree.Standard)
    (run : system.Reaches (start tree stdin stdout stderr) s) : Wires tree s :=
  (run.invariant (P := Inv tree) (fun _ turn inv _ => inv.next low turn)
    (inv_start stdin stdout stderr)).wires

/-- `ls | wc > out`. -/
def samplePipe : Cmd String := .pipe (.exec ["ls"]) (.redir (.exec ["wc"]) "out" 0x601 1)

/-- Both sides of the sample have been forked, and run up to `exec`. -/
def sampleTurns : List Turn :=
  [⟨0, true⟩, ⟨0, true⟩, ⟨0, true⟩, ⟨0, true⟩, ⟨1, true⟩, ⟨2, true⟩, ⟨1, true⟩, ⟨2, true⟩,
    ⟨0, true⟩, ⟨1, true⟩, ⟨2, true⟩, ⟨1, true⟩, ⟨2, true⟩, ⟨1, true⟩, ⟨2, true⟩, ⟨2, true⟩,
    ⟨2, true⟩, ⟨2, true⟩, ⟨0, true⟩]

theorem samplePipe_wires : samplePipe.Standard ∧
    system.Schedules (start samplePipe 0 1 2) sampleTurns ∧
    Wires samplePipe (sampleTurns.foldl system.next (start samplePipe 0 1 2)) := by
  have low : samplePipe.Standard := by decide
  have turns : system.Schedules (start samplePipe 0 1 2) sampleTurns := by decide
  exact ⟨low, turns, wires_of_reaches low turns.reaches⟩

/-- `REDIR` of a descriptor that is not open at the start. -/
def highRedir : Cmd String := .redir (.exec ["cat"]) "in" 0 3

/-- A redirection of descriptor `3` leaves it open at `exec`. -/
theorem highRedir_leaks : ∃ s, system.Reaches (start highRedir 0 1 2) s ∧
    ∃ q ∈ s.procs, q.code = [.exec ["cat"], .exit 0] ∧ argfd q.ofile 3 = some (.file "in" 0) ∧
      ¬ OpensStandard q.ofile := by
  have turns : system.Schedules (start highRedir 0 1 2) (List.replicate 4 ⟨0, true⟩) := by decide
  refine ⟨_, turns.reaches, _, mem_singleton.mpr rfl, rfl, rfl, fun opens => ?_⟩
  exact absurd ((opens 3).mp rfl) (by decide)

end Runs

end Procs

end OsLab.Shell
