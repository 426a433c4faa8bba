import Mathlib

/-!
# Command trees

The trees that the shell of `user/sh.c` builds and runs, over any type of strings, with the nodes
named by their way up to the root.
-/

namespace OsLab.Shell

/-- `struct cmd`. -/
inductive Cmd (S : Type) where
  | exec (argv : List S)
  | redir (cmd : Cmd S) (file : S) (mode : Nat) (fd : Int)
  | pipe (left right : Cmd S)
  | list (left right : Cmd S)
  | back (cmd : Cmd S)
deriving DecidableEq, Repr

/-- Which subtree of a node: `left` and `right` of `PIPE` and `LIST`, `cmd` of `REDIR` and
`BACK`. -/
inductive Branch where
  | left
  | right
  | cmd
deriving DecidableEq, Repr

/-- A node, as the branches from it up to the root. -/
abbrev Path := List Branch

namespace Cmd

variable {S : Type}

/-- The subtree on a branch. -/
def child : Branch → Cmd S → Option (Cmd S)
  | .left, .pipe left _ | .left, .list left _ => some left
  | .right, .pipe _ right | .right, .list _ right => some right
  | .cmd, .redir cmd _ _ _ | .cmd, .back cmd => some cmd
  | _, _ => none

/-- The subtree at a node. -/
def node (tree : Cmd S) : Path → Option (Cmd S)
  | [] => some tree
  | branch :: path => (tree.node path).bind (child branch)

/-- Redirections are of the descriptors `0`, `1` and `2`; the parser makes those of `0` and `1`. -/
def Standard : Cmd S → Prop
  | .exec _ => True
  | .redir cmd _ _ fd => (fd = 0 ∨ fd = 1 ∨ fd = 2) ∧ cmd.Standard
  | .pipe left right | .list left right => left.Standard ∧ right.Standard
  | .back cmd => cmd.Standard

instance decidableStandard : (cmd : Cmd S) → Decidable cmd.Standard
  | .exec _ => .isTrue trivial
  | .redir cmd _ _ _ =>
    haveI := decidableStandard cmd
    inferInstanceAs (Decidable (_ ∧ _))
  | .pipe left right | .list left right =>
    haveI := decidableStandard left
    haveI := decidableStandard right
    inferInstanceAs (Decidable (_ ∧ _))
  | .back cmd => decidableStandard cmd

theorem Standard.child {branch : Branch} {cmd sub : Cmd S} (standard : cmd.Standard)
    (found : cmd.child branch = some sub) : sub.Standard := by
  cases cmd <;> cases branch <;> simp_all [Cmd.child, Standard]

theorem Standard.node {tree cmd : Cmd S} (standard : tree.Standard) {path : Path}
    (found : tree.node path = some cmd) : cmd.Standard := by
  induction path generalizing cmd with
  | nil => exact Option.some.inj found ▸ standard
  | cons branch path ih =>
    obtain ⟨parent, above, below⟩ := Option.bind_eq_some_iff.mp found
    exact (ih above).child below

end Cmd

end OsLab.Shell
