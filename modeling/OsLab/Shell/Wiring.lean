import OsLab.Shell.Processes

/-!
# Descriptors in command trees

The programs of a command tree start with the descriptors `0`, `1` and `2`, the two sides of a
`PIPE` node have the two ends of its pipe, and nobody else keeps one.  The invariant says of each
process that executing its remaining statements is fine, and that no node is left to two of them.
-/

namespace OsLab.Shell

open List Option

variable {S : Type} {f : Obj S} {pipes more : List Path} {node : Path} {ofile : Fds S}
  {above place : Path} {code : List (Stmt S)}

/-- The table with the descriptors `0`, `1` and `2` open. -/
def standard (a b c : Obj S) : Fds S :=
  [some a, some b, some c] ++ List.replicate 13 none

/-- Exactly the descriptors `0`, `1` and `2` are open. -/
def OpensStandard (ofile : Fds S) : Prop :=
  ∀ fd, (argfd ofile fd).isSome ↔ fd = 0 ∨ fd = 1 ∨ fd = 2

theorem mem_standard {a b c : Obj S} : some f ∈ standard a b c ↔ f = a ∨ f = b ∨ f = c := by
  simp [standard]

theorem opensStandard_standard (a b c : Obj S) : OpensStandard (standard a b c) := by
  intro fd
  by_cases negative : fd < 0
  · simp only [argfd, negative, if_true, isSome_none, Bool.false_eq_true, false_iff]
    omega
  obtain ⟨n, rfl⟩ : ∃ n : Nat, fd = n := ⟨fd.toNat, by omega⟩
  simp only [argfd, negative, if_false, Int.toNat_natCast, standard]
  rcases n with _ | _ | _ | n
  · simp
  · simp
  · simp
  · rw [getD_append_right _ _ _ _ (by simp), getD_eq_getElem?_getD,
      List.getElem?_getD_replicate_default_eq, isSome_none, Bool.false_eq_true, false_iff]
    omega

variable {fd : Int}

theorem argfd_mem (found : argfd ofile fd = some f) : some f ∈ ofile := by
  unfold argfd at found
  split at found
  · contradiction
  rw [getD_eq_getElem?_getD] at found
  cases at_ : ofile[fd.toNat]? with
  | none => rw [at_] at found; contradiction
  | some entry =>
    rw [at_] at found
    exact mem_of_getElem? (at_.trans (congrArg some found))

theorem mem_sysClose (open_ : some f ∈ sysClose ofile fd) : some f ∈ ofile := by
  unfold sysClose at open_
  split at open_
  · exact (mem_or_eq_of_mem_set open_).resolve_right nofun
  · exact open_

theorem mem_fdalloc {after : Fds S} {fd : Nat} {g : Obj S}
    (allocated : fdalloc g ofile = some (fd, after)) (open_ : some f ∈ after) :
    some f ∈ ofile ∨ f = g := by
  unfold fdalloc at allocated
  split at allocated
  · cases allocated
    exact (mem_or_eq_of_mem_set open_).imp_right Option.some.inj
  · contradiction

theorem mem_sysDup (open_ : some f ∈ sysDup ofile fd) : some f ∈ ofile := by
  unfold sysDup at open_
  split at open_
  · rename_i g found
    split at open_
    · rename_i _ after allocated
      rcases mem_fdalloc allocated open_ with old | rfl
      · exact old
      · exact argfd_mem found
    · exact open_
  · exact open_

/-- The node lies below the `left` or `right` of another one. -/
def Below (node above : Path) : Prop := .left :: above <:+ node ∨ .right :: above <:+ node

theorem Below.cons (below : Below node above) (branch : Branch) : Below (branch :: node) above :=
  below.imp (·.trans (suffix_cons ..)) (·.trans (suffix_cons ..))

/-- If this is an end of a pipe, the pipe was made above the node. -/
def Old (pipes : List Path) (node : Path) (f : Obj S) : Prop :=
  ∀ i, f.pipe? = some i → ∃ above, pipes[i]? = some above ∧ Below node above

/-- Every end of a pipe in the table is of one that was made above the node. -/
def Olds (pipes : List Path) (node : Path) (ofile : Fds S) : Prop :=
  ∀ f, some f ∈ ofile → Old pipes node f

/-- The ends of pipes in a table belong to pipes made above the node, or at the node while its
closes are not done. -/
def Ends (pipes : List Path) (node : Path) (code : List (Stmt S)) (ofile : Fds S) : Prop :=
  ∀ f, some f ∈ ofile → ∀ i, f.pipe? = some i → ∃ above, pipes[i]? = some above ∧
    (Below node above ∨ above = node ∧ ∃ fd, .close fd ∈ code)

section Growth

theorem getElem?_grows {α : Type} {short long : List α} (grows : short <+: long) {i : Nat} {a : α}
    (found : short[i]? = some a) : long[i]? = some a := by
  obtain ⟨rest, rfl⟩ := grows
  rw [List.getElem?_append_left (List.getElem?_eq_some_iff.mp found).1, found]

theorem Old.grows (old : Old pipes node f) (grows : pipes <+: more) : Old more node f := by
  intro i end_
  obtain ⟨above, made, below⟩ := old i end_
  exact ⟨above, getElem?_grows grows made, below⟩

theorem Old.cons (old : Old pipes node f) (branch : Branch) : Old pipes (branch :: node) f := by
  intro i end_
  obtain ⟨above, made, below⟩ := old i end_
  exact ⟨above, made, below.cons branch⟩

theorem Ends.grows (ends : Ends pipes node code ofile) (grows : pipes <+: more) :
    Ends more node code ofile := by
  intro f open_ i end_
  obtain ⟨above, made, place⟩ := ends f open_ i end_
  exact ⟨above, getElem?_grows grows made, place⟩

section

variable (olds : Olds pipes node ofile)
include olds

theorem Olds.grows (grows : pipes <+: more) : Olds more node ofile :=
  fun f open_ => (olds f open_).grows grows

theorem Olds.cons (branch : Branch) : Olds pipes (branch :: node) ofile :=
  fun f open_ => (olds f open_).cons branch

theorem Olds.close (fd : Int) : Olds pipes node (sysClose ofile fd) :=
  fun f open_ => olds f (mem_sysClose open_)

theorem Olds.dup (fd : Int) : Olds pipes node (sysDup ofile fd) :=
  fun f open_ => olds f (mem_sysDup open_)

theorem Olds.ends (code : List (Stmt S)) : Ends pipes node code ofile := by
  intro f open_ i end_
  obtain ⟨above, made, below⟩ := olds f open_ i end_
  exact ⟨above, made, .inl below⟩

end

end Growth

/-- The descriptors of a process that starts on a branch of a node: behind `PIPE` the end of its
pipe, without the other end, and behind `REDIR` the file. -/
def WiredBy (pipes : List Path) (above : Path) (ofile : Fds S) : Cmd S → Branch → Prop
  | .pipe _ _, .left => ∃ i, pipes[i]? = some above ∧
      argfd ofile 1 = some (.writeEnd i) ∧ some (.readEnd i) ∉ ofile
  | .pipe _ _, .right => ∃ i, pipes[i]? = some above ∧
      argfd ofile 0 = some (.readEnd i) ∧ some (.writeEnd i) ∉ ofile
  | .redir _ file mode fd, _ => argfd ofile fd = some (.file file mode)
  | _, _ => True

/-- The descriptors are as the node above the one that is started on wires them. -/
def Wired (tree : Cmd S) (pipes : List Path) (node : Path) (ofile : Fds S) : Prop :=
  ∀ branch above parent, node = branch :: above → tree.node above = some parent →
    WiredBy pipes above ofile parent branch

/-- What holds when `runcmd` is called. -/
structure Entry (tree : Cmd S) (pipes : List Path) (node : Path) (cmd : Cmd S) (ofile : Fds S) :
    Prop where
  table : ∃ a b c, ofile = standard a b c
  found : tree.node node = some cmd
  olds : Olds pipes node ofile
  wired : Wired tree pipes node ofile

theorem WiredBy.grows {parent : Cmd S} {branch : Branch}
    (wired : WiredBy pipes above ofile parent branch) (grows : pipes <+: more) :
    WiredBy more above ofile parent branch := by
  cases parent with
  | pipe left right =>
    cases branch with
    | cmd => trivial
    | _ =>
      obtain ⟨i, made, ends⟩ := wired
      exact ⟨i, getElem?_grows grows made, ends⟩
  | redir => exact wired
  | _ => cases branch <;> trivial

theorem Wired.grows {tree : Cmd S} (wired : Wired tree pipes node ofile) (grows : pipes <+: more) :
    Wired tree more node ofile :=
  fun branch above parent at_ found => (wired branch above parent at_ found).grows grows

theorem Entry.grows {tree cmd : Cmd S} (entry : Entry tree pipes node cmd ofile)
    (grows : pipes <+: more) : Entry tree more node cmd ofile :=
  ⟨entry.table, entry.found, entry.olds.grows grows, entry.wired.grows grows⟩

/-- The nodes that the remaining statements of a process may come to, or make a pipe for. -/
def Owns (node : Path) : List (Stmt S) → Path → Prop
  | [], _ => False
  | .pipe :: rest, place => place = node ∨ Owns node rest place
  | .fork below _ :: rest, place => below <:+ place ∨ Owns node rest place
  | .runcmd below _ :: _, place => below <:+ place
  | _ :: rest, place => Owns node rest place

/-- Executing the statements with these descriptors is fine. -/
inductive Good (tree : Cmd S) :
    List Path → Path → List (Stmt S) → Fds S → Int × Int → Prop where
  | done {pipes node ofile p} (ends : Ends pipes node [] ofile) : Good tree pipes node [] ofile p
  | close {pipes node fd rest ofile p} (ends : Ends pipes node (.close fd :: rest) ofile)
      (good : Good tree pipes node rest (sysClose ofile (fd.value p)) p) :
      Good tree pipes node (.close fd :: rest) ofile p
  | dup {pipes node fd rest ofile p} (ends : Ends pipes node (.dup fd :: rest) ofile)
      (good : Good tree pipes node rest (sysDup ofile (fd.value p)) p) :
      Good tree pipes node (.dup fd :: rest) ofile p
  | openFile {pipes node file mode rest ofile p}
      (ends : Ends pipes node (.openFile file mode :: rest) ofile)
      (good : ∀ opened, sysOpen file mode ofile = some opened →
        Good tree pipes node rest opened p) :
      Good tree pipes node (.openFile file mode :: rest) ofile p
  | pipe {pipes node rest ofile p} (ends : Ends pipes node (.pipe :: rest) ofile)
      (once : ¬ Owns node rest node)
      (good : ∀ more q opened, pipes <+: more → sysPipe more.length ofile = some (q, opened) →
        Good tree (more ++ [node]) node rest opened q) :
      Good tree pipes node (.pipe :: rest) ofile p
  | fork {pipes node below child rest ofile p}
      (ends : Ends pipes node (.fork below child :: rest) ofile)
      (inside : ∀ place, Owns below child place → below <:+ place)
      (apart : ∀ place, below <:+ place → ¬ Owns node rest place)
      (forked : Good tree pipes below child ofile p) (good : Good tree pipes node rest ofile p) :
      Good tree pipes node (.fork below child :: rest) ofile p
  | wait {pipes node rest ofile p} (ends : Ends pipes node (.wait :: rest) ofile)
      (good : Good tree pipes node rest ofile p) : Good tree pipes node (.wait :: rest) ofile p
  | exec {pipes node argv rest ofile p} (ends : Ends pipes node (.exec argv :: rest) ofile)
      (opens : OpensStandard ofile) (good : Good tree pipes node rest ofile p) :
      Good tree pipes node (.exec argv :: rest) ofile p
  | exit {pipes node status rest ofile p} (ends : Ends pipes node (.exit status :: rest) ofile) :
      Good tree pipes node (.exit status :: rest) ofile p
  | runcmd {pipes node below cmd rest ofile p}
      (ends : Ends pipes node (.runcmd below cmd :: rest) ofile)
      (entry : Entry tree pipes below cmd ofile) :
      Good tree pipes node (.runcmd below cmd :: rest) ofile p

section Statements

variable {tree : Cmd S} {p : Int × Int}

theorem Good.ends (good : Good tree pipes node code ofile p) : Ends pipes node code ofile := by
  cases good <;> assumption

theorem Good.grows (good : Good tree pipes node code ofile p) (grows : pipes <+: more) :
    Good tree more node code ofile p := by
  induction good generalizing more with
  | done ends => exact .done (ends.grows grows)
  | close ends _ ih => exact .close (ends.grows grows) (ih grows)
  | dup ends _ ih => exact .dup (ends.grows grows) (ih grows)
  | openFile ends _ ih =>
    exact .openFile (ends.grows grows) fun opened result => ih opened result grows
  | pipe ends once good _ =>
    exact .pipe (ends.grows grows) once fun longer q opened longest result =>
      good longer q opened (grows.trans longest) result
  | fork ends inside apart _ _ forkedIh ih =>
    exact .fork (ends.grows grows) inside apart (forkedIh grows) (ih grows)
  | wait ends _ ih => exact .wait (ends.grows grows) (ih grows)
  | exec ends opens _ ih => exact .exec (ends.grows grows) opens (ih grows)
  | exit ends => exact .exit (ends.grows grows)
  | runcmd ends entry => exact .runcmd (ends.grows grows) (entry.grows grows)

end Statements

section Nodes

variable {tree cmd sub : Cmd S} {p : Int × Int}

theorem branch_unique {first second : Branch} (left : first :: node <:+ place)
    (right : second :: node <:+ place) : first = second := by
  have same := (suffix_of_suffix_length_le left right le_rfl).eq_of_length rfl
  exact (List.cons.inj same).1

theorem not_below_self (branch : Branch) : ¬ branch :: node <:+ node := by
  intro below
  have longer := below.length_le
  rw [length_cons] at longer
  omega

variable {branch : Branch} {opened : Fds S}

section

variable (entry : Entry tree pipes node cmd ofile) (child : cmd.child branch = some sub)
include entry child

/-- The call for a subtree, with the descriptors that are open there. -/
theorem Entry.enter (table : ∃ a b c, opened = standard a b c)
    (olds : Olds more (branch :: node) opened) (wired : WiredBy more node opened cmd branch) :
    Entry tree more (branch :: node) sub opened where
  table := table
  found := by rw [Cmd.node, entry.found, bind_some, child]
  olds := olds
  wired := by
    intro branch' above parent same found
    cases same
    obtain rfl : cmd = parent := Option.mem_unique entry.found found
    exact wired

theorem Entry.same (wired : WiredBy pipes node ofile cmd branch) :
    Entry tree pipes (branch :: node) sub ofile :=
  entry.enter child entry.table (entry.olds.cons branch) wired

end

/-- `close(fd)` and `open` put the file on `fd`. -/
theorem redirected {a b c : Obj S} {fd : Int} (low : fd = 0 ∨ fd = 1 ∨ fd = 2) (file : S)
    (mode : Nat) :
    ∃ a' b' c', sysOpen file mode (sysClose (standard a b c) fd) = some (standard a' b' c') ∧
      argfd (standard a' b' c') fd = some (.file file mode) := by
  rcases low with rfl | rfl | rfl
  · exact ⟨.file file mode, b, c, rfl, rfl⟩
  · exact ⟨a, .file file mode, c, rfl, rfl⟩
  · exact ⟨a, b, .file file mode, rfl, rfl⟩

variable {file : S} {mode : Nat}

theorem mem_sysOpen (result : sysOpen file mode ofile = some opened) (open_ : some f ∈ opened) :
    some f ∈ ofile ∨ f = .file file mode := by
  obtain ⟨⟨fd, after⟩, allocated, rfl⟩ := map_eq_some_iff.mp result
  exact mem_fdalloc allocated open_

theorem Olds.opens (olds : Olds pipes node ofile) (result : sysOpen file mode ofile = some opened) :
    Olds pipes node opened := by
  intro f open_
  rcases mem_sysOpen result open_ with old | rfl
  · exact olds f old
  · exact nofun

theorem redir_good {fd : Int} (entry : Entry tree pipes node (.redir sub file mode fd) ofile)
    (low : fd = 0 ∨ fd = 1 ∨ fd = 2) :
    Good tree pipes node (runcmd node (.redir sub file mode fd)) ofile p := by
  obtain ⟨a, b, c, table⟩ := entry.table
  have closed := entry.olds.close fd
  refine .close (entry.olds.ends _) (.openFile (closed.ends _) fun opened result => ?_)
  have olds := closed.opens result
  obtain ⟨a', b', c', found, wired⟩ := redirected (a := a) (b := b) (c := c) low file mode
  rw [← table] at found
  obtain rfl : standard a' b' c' = opened := Option.mem_unique found result
  exact .runcmd (olds.ends _) (entry.enter rfl ⟨a', b', c', rfl⟩ (olds.cons .cmd) wired)

theorem list_good {left right : Cmd S} (entry : Entry tree pipes node (.list left right) ofile) :
    Good tree pipes node (runcmd node (.list left right)) ofile p := by
  refine .fork (entry.olds.ends _) (fun _ => id) (fun place first second => ?_)
    (.runcmd ((entry.olds.cons .left).ends _) (entry.same rfl trivial))
    (.wait (entry.olds.ends _) (.runcmd (entry.olds.ends _) (entry.same rfl trivial)))
  exact absurd (branch_unique first second) nofun

theorem back_good (entry : Entry tree pipes node (.back sub) ofile) :
    Good tree pipes node (runcmd node (.back sub)) ofile p :=
  .fork (entry.olds.ends _) (fun _ => id) (fun _ _ => id)
    (.runcmd ((entry.olds.cons .cmd).ends _) (entry.same rfl trivial))
    (.exit (entry.olds.ends _))

/-- The table behind `pipe(p)`. -/
def wide (a b c : Obj S) (i : Nat) : Fds S :=
  [some a, some b, some c, some (.readEnd i), some (.writeEnd i)] ++ List.replicate 11 none

theorem mem_wide {a b c : Obj S} {i : Nat} (open_ : some f ∈ wide a b c i) :
    some f ∈ standard a b c ∨ f = .readEnd i ∨ f = .writeEnd i := by
  rw [mem_standard]
  simp only [wide, mem_append, mem_cons, Option.some.injEq, mem_replicate,
    reduceCtorEq, and_false, or_false, not_mem_nil] at open_
  tauto

variable {a b c : Obj S} {i : Nat}

/-- What `pipe(p)` at a node leaves: the old descriptors, and both ends of a new pipe. -/
structure Piped (pipes : List Path) (node : Path) (a b c : Obj S) (i : Nat) : Prop where
  olds : Olds pipes node (standard a b c)
  made : pipes[i]? = some node
  fresh : ∀ f, some f ∈ standard a b c → f.pipe? ≠ some i

section

variable (piped : Piped pipes node a b c i)
include piped

/-- A descriptor of the parent between `pipe(p)` and its last `close`. -/
theorem Piped.pending (fd : Arg) (close : .close fd ∈ code) (open_ : some f ∈ wide a b c i)
    {j : Nat} (end_ : f.pipe? = some j) : ∃ above, pipes[j]? = some above ∧
      (Below node above ∨ above = node ∧ ∃ fd, .close fd ∈ code) := by
  rcases mem_wide open_ with old | rfl | rfl
  · obtain ⟨above, made, below⟩ := piped.olds f old j end_
    exact ⟨above, made, .inl below⟩
  · obtain rfl : i = j := Option.some.inj end_
    exact ⟨node, piped.made, .inr ⟨rfl, fd, close⟩⟩
  · obtain rfl : i = j := Option.some.inj end_
    exact ⟨node, piped.made, .inr ⟨rfl, fd, close⟩⟩

theorem Piped.children (side : Below (branch :: node) node) :
    Olds pipes (branch :: node) (wide a b c i) := by
  intro f open_ j end_
  rcases mem_wide open_ with old | rfl | rfl
  · exact (piped.olds f old).cons branch j end_
  · obtain rfl : i = j := Option.some.inj end_
    exact ⟨node, piped.made, side⟩
  · obtain rfl : i = j := Option.some.inj end_
    exact ⟨node, piped.made, side⟩

/-- An end of the new pipe is on its descriptor only. -/
theorem Piped.absent (end_ : f.pipe? = some i) : f ≠ a ∧ f ≠ b ∧ f ≠ c := by
  have other : ∀ g, some g ∈ standard a b c → f ≠ g := fun g open_ same =>
    piped.fresh g open_ (same ▸ end_)
  exact ⟨other a (by simp [mem_standard]), other b (by simp [mem_standard]),
    other c (by simp [mem_standard])⟩

end

variable {left right : Cmd S}

section

variable {before : List Path} (piped : Piped pipes node a b c i)
  (entry : Entry tree before node (.pipe left right) ofile)
include piped entry

theorem left_good :
    Good tree pipes (.left :: node)
      [.close (.const 1), .dup .p1, .close .p0, .close .p1, .runcmd (.left :: node) left]
      (wide a b c i) (3, 4) := by
  have olds := piped.children (.inl (suffix_refl _))
  have last := (((olds.close 1).dup 4).close 3).close 4
  refine .close (olds.ends _) (.dup ((olds.close 1).ends _) (.close (((olds.close 1).dup 4).ends _)
      (.close ((((olds.close 1).dup 4).close 3).ends _) (.runcmd (last.ends _) ?_))))
  refine entry.enter rfl ⟨a, .writeEnd i, c, rfl⟩ last ⟨i, piped.made, rfl, fun open_ => ?_⟩
  obtain ⟨first, _, third⟩ := piped.absent (f := .readEnd i) rfl
  rcases mem_standard.mp (show some (.readEnd i) ∈ standard a (.writeEnd i) c from open_) with
    same | same | same
  · exact first same
  · exact nomatch same
  · exact third same

theorem right_good :
    Good tree pipes (.right :: node)
      [.close (.const 0), .dup .p0, .close .p0, .close .p1, .runcmd (.right :: node) right]
      (wide a b c i) (3, 4) := by
  have olds := piped.children (.inr (suffix_refl _))
  have last := (((olds.close 0).dup 3).close 3).close 4
  refine .close (olds.ends _) (.dup ((olds.close 0).ends _) (.close (((olds.close 0).dup 3).ends _)
      (.close ((((olds.close 0).dup 3).close 3).ends _) (.runcmd (last.ends _) ?_))))
  refine entry.enter rfl ⟨.readEnd i, b, c, rfl⟩ last ⟨i, piped.made, rfl, fun open_ => ?_⟩
  obtain ⟨_, second, third⟩ := piped.absent (f := .writeEnd i) rfl
  rcases mem_standard.mp (show some (.writeEnd i) ∈ standard (.readEnd i) b c from open_) with
    same | same | same
  · exact nomatch same
  · exact second same
  · exact third same

end

theorem pipe_good (entry : Entry tree pipes node (.pipe left right) ofile) :
    Good tree pipes node (runcmd node (.pipe left right)) ofile p := by
  obtain ⟨a, b, c, rfl⟩ := entry.table
  refine .pipe (entry.olds.ends _) ?_ fun more q opened grows result => ?_
  · rintro (below | below | none)
    · exact not_below_self _ below
    · exact not_below_self _ below
    · exact none
  obtain ⟨rfl, rfl⟩ : (3, 4) = q ∧ wide a b c more.length = opened :=
    Prod.mk.inj (Option.some.inj result)
  have piped : Piped (more ++ [node]) node a b c more.length :=
    { olds := entry.olds.grows (grows.trans (prefix_append ..))
      made := by simp
      fresh := by
        intro f open_ end_
        obtain ⟨above, made, _⟩ := entry.olds f open_ _ end_
        have short := (List.getElem?_eq_some_iff.mp made).1
        exact absurd grows.length_le (Nat.not_le.mpr short) }
  have half : ∀ f, some f ∈ sysClose (wide a b c more.length) 3 →
      some f ∈ wide a b c more.length := fun f => mem_sysClose
  refine .fork (fun f open_ j => piped.pending .p0 (by simp) open_) (fun _ => id)
    (fun place first second => ?_) (left_good piped entry) ?_
  · rcases second with second | none
    · exact absurd (branch_unique first second) nofun
    · exact none
  refine .fork (fun f open_ j => piped.pending .p0 (by simp) open_) (fun _ => id)
    (fun _ _ => id) (right_good piped entry) ?_
  refine .close (fun f open_ j => piped.pending .p0 (by simp) open_) ?_
  refine .close (fun f open_ j => piped.pending .p1 (by simp) (half f open_)) ?_
  exact .wait (piped.olds.ends _) (.wait (piped.olds.ends _) (.exit (piped.olds.ends _)))

/-- `runcmd` is fine wherever it is called with the right descriptors. -/
theorem runcmd_good (entry : Entry tree pipes node cmd ofile) (low : cmd.Standard) :
    Good tree pipes node (runcmd node cmd) ofile p := by
  cases cmd with
  | exec argv =>
    cases argv with
    | nil => exact .exit (entry.olds.ends _)
    | cons path args =>
      obtain ⟨a, b, c, table⟩ := entry.table
      have opens : OpensStandard ofile := table ▸ opensStandard_standard a b c
      exact .exec (entry.olds.ends _) opens (.exit (entry.olds.ends _))
  | redir => exact redir_good entry low.1
  | pipe => exact pipe_good entry
  | list => exact list_good entry
  | back => exact back_good entry

theorem runcmd_owns (owned : Owns node (runcmd node cmd) place) : node <:+ place := by
  have below : ∀ {branch : Branch}, branch :: node <:+ place → node <:+ place :=
    fun longer => (suffix_cons ..).trans longer
  cases cmd with
  | exec argv => cases argv <;> exact owned.elim
  | redir => exact below owned
  | list => exact owned.elim below below
  | back => exact owned.elim below False.elim
  | pipe =>
    rcases owned with rfl | first | second | none
    · exact suffix_refl _
    · exact below first
    · exact below second
    · exact none.elim

end Nodes

end OsLab.Shell
