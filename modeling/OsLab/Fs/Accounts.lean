import OsLab.Fs.Frame
import OsLab.Fs.Script

/-!
# The accounts of references

Every reference to an open file or to a cached inode is held by a process, by one of its descriptors
or, for an inode, by an open file.  The counters are exact when they are the totals of the accounts
of the processes.
-/

namespace OsLab.Fs

open View Function List Finset

/-- What one process adds to the counters. -/
@[ext]
structure Account where
  tx : Bool
  /-- The files of the descriptors, each with a reference. -/
  owned : Fd → Option Fslot
  files : List Fslot
  refs : List Slot
  dying : Option Slot
  home : Option Slot

/-- 1 for the entry that is counted. -/
def weight {α : Type} [DecidableEq α] (x : α) (entry : Option α) : Nat :=
  if entry = some x then 1 else 0

section Weight

variable {α : Type} [DecidableEq α] (x : α)

@[simp] theorem weight_none : weight x none = 0 := by simp [weight]

theorem weight_some (y : α) : weight x (some y) = if y = x then 1 else 0 := by simp [weight]

@[simp] theorem weight_self : weight x (some x) = 1 := by simp [weight]

theorem count_erase_add {y : α} {list : List α} (member : y ∈ list) :
    (list.erase y).count x + weight x (some y) = list.count x := by
  by_cases same : y = x
  · subst same
    have positive := count_pos_iff.mpr member
    simp only [count_erase_self, weight_self]
    omega
  · rw [count_erase_of_ne (Ne.symm same), weight_some, if_neg same, add_zero]

theorem count_cons_weight (y : α) (list : List α) :
    (y :: list).count x = list.count x + weight x (some y) := by
  rw [count_cons, weight_some]
  simp only [beq_iff_eq]

end Weight

namespace Account

def of (q : Process) (held : Holds) : Account where
  tx := held.tx
  owned fd := if held.loose.map Prod.fst = some fd then none else q.ofile fd
  files := held.files
  refs := held.refs
  dying := held.dying
  home := if held.cwdGone then none else q.cwd

/-- The references to an open file. -/
def fileShare (a : Account) (f : Fslot) : Nat := ∑ fd, weight f (a.owned fd) + a.files.count f

def inodeShare (a : Account) (ip : Slot) : Nat :=
  a.refs.count ip + weight ip a.dying + weight ip a.home

/-- The transactions. -/
def txShare (a : Account) : Nat := if a.tx then 1 else 0

theorem fileShare_pos_of_owned {a : Account} {fd : Fd} {f : Fslot} (owned : a.owned fd = some f) :
    0 < a.fileShare f := by
  have one : weight f (a.owned fd) ≤ ∑ d, weight f (a.owned d) :=
    single_le_sum (f := fun d => weight f (a.owned d)) (fun _ _ => Nat.zero_le _) (mem_univ fd)
  rw [owned, weight_self] at one
  unfold fileShare
  omega

theorem fileShare_pos_of_mem {a : Account} {f : Fslot} (member : f ∈ a.files) :
    0 < a.fileShare f := by
  have positive := count_pos_iff.mpr member
  unfold fileShare
  omega

theorem fileShare_update (a : Account) (fd : Fd) (new : Option Fslot) (files : List Fslot)
    (f : Fslot) :
    fileShare { a with owned := update a.owned fd new, files } f +
        weight f (a.owned fd) + a.files.count f =
      a.fileShare f + weight f new + files.count f := by
  have total := sum_update_add (weight f) a.owned fd new
  simp only [fileShare]
  omega

end Account

/-- The open files that refer to an inode. -/
def opens (file : Fslot → File) (ip : Slot) : Nat := ∑ f, weight ip (inodeOf (file f))

theorem opens_update (file : Fslot → File) (f : Fslot) (new : File) (ip : Slot) :
    opens (update file f new) ip + weight ip (inodeOf (file f)) =
      opens file ip + weight ip (inodeOf new) :=
  sum_update_add (fun x => weight ip (inodeOf x)) file f new

/-- The counters are the totals of the accounts. -/
structure Exact (shape : Shape) (file : Fslot → File) (account : Pslot → Account) : Prop where
  held : shape.held = []
  outstanding : shape.outstanding = ∑ p, (account p).txShare
  files : ∀ f, (file f).ref = ∑ p, (account p).fileShare f
  inodes : ∀ ip, shape.ref ip = ∑ p, (account p).inodeShare ip + opens file ip
  unused : ∀ f, (file f).ref = 0 → (file f).type = .none

namespace Exact

variable {shape shape' : Shape} {file file' : Fslot → File} {account : Pslot → Account}

section

variable (exact : Exact shape file account)
include exact

theorem fileShare_le (p : Pslot) (f : Fslot) : (account p).fileShare f ≤ (file f).ref := by
  rw [exact.files]
  exact single_le_sum (fun q _ => Nat.zero_le ((account q).fileShare f)) (mem_univ p)

theorem two_fileShares_le {p q : Pslot} (other : p ≠ q) (f : Fslot) :
    (account p).fileShare f + (account q).fileShare f ≤ (file f).ref := by
  have pair : ∑ r ∈ {p, q}, (account r).fileShare f ≤ ∑ r, (account r).fileShare f :=
    sum_le_sum_of_subset (subset_univ _)
  rw [sum_pair other] at pair
  rw [exact.files]
  exact pair

theorem inodeShare_le (p : Pslot) (ip : Slot) : (account p).inodeShare ip ≤ shape.ref ip := by
  have one : (account p).inodeShare ip ≤ ∑ q, (account q).inodeShare ip :=
    single_le_sum (fun q _ => Nat.zero_le ((account q).inodeShare ip)) (mem_univ p)
  have total := exact.inodes ip
  omega

theorem txShare_le (p : Pslot) : (account p).txShare ≤ shape.outstanding := by
  rw [exact.outstanding]
  exact single_le_sum (fun q _ => Nat.zero_le (account q).txShare) (mem_univ p)

theorem move (p : Pslot) (a : Account) (held : shape'.held = [])
    (tx : shape'.outstanding + (account p).txShare = shape.outstanding + a.txShare)
    (files : ∀ f, (file' f).ref + (account p).fileShare f = (file f).ref + a.fileShare f)
    (inodes : ∀ ip, shape'.ref ip + (account p).inodeShare ip + opens file ip =
      shape.ref ip + a.inodeShare ip + opens file' ip)
    (unused : ∀ f, (file' f).ref = 0 → (file' f).type = .none) :
    Exact shape' file' (update account p a) where
  held := held
  outstanding := by
    have total := sum_update_add Account.txShare account p a
    have before := exact.outstanding
    omega
  files f := by
    have total := sum_update_add (fun x => Account.fileShare x f) account p a
    have before := exact.files f
    have change := files f
    omega
  inodes ip := by
    have total := sum_update_add (fun x => Account.inodeShare x ip) account p a
    have before := exact.inodes ip
    have change := inodes ip
    omega
  unused := unused

theorem move_inodes (p : Pslot) (a : Account) (owned : a.owned = (account p).owned)
    (files : a.files = (account p).files) (held : shape'.held = shape.held)
    (tx : shape'.outstanding + (account p).txShare = shape.outstanding + a.txShare)
    (inodes : ∀ ip, shape'.ref ip + (account p).inodeShare ip = shape.ref ip + a.inodeShare ip) :
    Exact shape' file (update account p a) := by
  refine exact.move p a (held.trans exact.held) tx (fun f => ?_) (fun ip => ?_) exact.unused
  · simp only [Account.fileShare, owned, files]
  · have change := inodes ip
    omega

theorem addRef (p : Pslot) (ip : Slot) :
    Exact (shape.addRef ip) file
      (update account p { account p with refs := ip :: (account p).refs }) := by
  refine exact.move_inodes p _ rfl rfl rfl rfl fun jp => ?_
  simp only [Account.inodeShare, count_cons_weight, Shape.addRef, weight_some]
  by_cases same : ip = jp
  · subst same
    simp only [update_self, if_pos]
    omega
  · rw [update_of_ne (Ne.symm same), if_neg same]
    omega

end

variable {a b : Account}

/-- The last part of `dropRef` moves: one reference less on both sides. -/
theorem dropRef_share {ip : Slot}
    (share : ∀ jp, b.inodeShare jp + weight jp (some ip) = a.inodeShare jp)
    (enough : a.inodeShare ip ≤ shape.ref ip) (jp : Slot) :
    (shape.dropRef ip).ref jp + a.inodeShare jp = shape.ref jp + b.inodeShare jp := by
  have change := share jp
  simp only [Shape.dropRef, weight_some] at change ⊢
  by_cases same : ip = jp
  · subst same
    simp only [update_self, if_pos] at change ⊢
    omega
  · rw [update_of_ne (Ne.symm same)]
    rw [if_neg same] at change
    omega

section

variable (exact : Exact shape file account) (p : Pslot) {ip : Slot}
include exact p

theorem dropRef (member : ip ∈ (account p).refs) :
    Exact (shape.dropRef ip) file
      (update account p { account p with refs := (account p).refs.erase ip }) := by
  refine exact.move_inodes p _ rfl rfl rfl rfl fun jp => ?_
  refine dropRef_share (fun jp => ?_) (exact.inodeShare_le p ip) jp
  have count := count_erase_add jp member
  simp only [Account.inodeShare]
  omega

theorem die (member : ip ∈ (account p).refs) (settled : (account p).dying = none) :
    Exact shape file (update account p
        { account p with refs := (account p).refs.erase ip, dying := some ip }) := by
  refine exact.move_inodes p _ rfl rfl rfl rfl fun jp => ?_
  have count := count_erase_add jp member
  simp only [Account.inodeShare, settled, weight_none]
  omega

theorem dropDying (dying : (account p).dying = some ip) :
    Exact (shape.dropRef ip) file (update account p { account p with dying := none }) := by
  refine exact.move_inodes p _ rfl rfl rfl rfl fun jp => ?_
  refine dropRef_share (fun jp => ?_) (exact.inodeShare_le p ip) jp
  simp only [Account.inodeShare, dying, weight_none]
  omega

theorem leaveHome (home : (account p).home = some ip) :
    Exact shape file (update account p
        { account p with refs := ip :: (account p).refs, home := none }) := by
  refine exact.move_inodes p _ rfl rfl rfl rfl fun jp => ?_
  simp only [Account.inodeShare, home, weight_none, count_cons_weight]
  omega

theorem enterHome (home : (account p).home = none) (member : ip ∈ (account p).refs) :
    Exact shape file (update account p
        { account p with refs := (account p).refs.erase ip, home := some ip }) := by
  refine exact.move_inodes p _ rfl rfl rfl rfl fun jp => ?_
  have count := count_erase_add jp member
  simp only [Account.inodeShare, home, weight_none]
  omega

theorem addHome (home : (account p).home = none) :
    Exact (shape.addRef ip) file (update account p { account p with home := some ip }) := by
  refine exact.move_inodes p _ rfl rfl rfl rfl fun jp => ?_
  simp only [Account.inodeShare, home, weight_none, Shape.addRef, weight_some]
  by_cases same : ip = jp
  · subst same
    simp only [update_self, if_pos]
    omega
  · rw [update_of_ne (Ne.symm same), if_neg same]

end

theorem move_file (exact : Exact shape file account) (p : Pslot) (f : Fslot) (new : File)
    (a : Account) (tx : a.tx = (account p).tx)
    (share : ∀ g, (update file f new g).ref + (account p).fileShare g =
      (file g).ref + a.fileShare g)
    (inodes : ∀ ip, (account p).inodeShare ip + weight ip (inodeOf (file f)) =
      a.inodeShare ip + weight ip (inodeOf new)) (unused : new.ref = 0 → new.type = .none) :
    Exact shape (update file f new) (update account p a) := by
  refine exact.move p a exact.held ?_ share (fun ip => ?_) fun g => ?_
  · simp only [Account.txShare, tx]
  · have change := inodes ip
    have total := opens_update file f new ip
    omega
  · exact update_cases rfl g unused fun g _ => exact.unused g

/-- The reference count of one file and the share of one process change together. -/
theorem share_move {f : Fslot} {new : File} (l m : Nat)
    (share : ∀ g, b.fileShare g + l * weight g (some f) = a.fileShare g + m * weight g (some f))
    (ref : new.ref + l = (file f).ref + m) (g : Fslot) :
    (update file f new g).ref + a.fileShare g = (file g).ref + b.fileShare g := by
  have change := share g
  rw [weight_some] at change
  by_cases same : f = g
  · subst same
    rw [update_self]
    rw [if_pos rfl] at change
    omega
  · rw [update_of_ne (Ne.symm same)]
    rw [if_neg same] at change
    omega

theorem shift (exact : Exact shape file account) (p : Pslot) (fd : Fd) (new : Option Fslot)
    (files : List Fslot)
    (balance : ∀ f, weight f ((account p).owned fd) + (account p).files.count f =
      weight f new + files.count f) :
    Exact shape file (update account p
        { account p with owned := update (account p).owned fd new, files }) := by
  refine exact.move p _ exact.held rfl (fun f => ?_) (fun ip => rfl) exact.unused
  have total := Account.fileShare_update (account p) fd new files f
  have even := balance f
  dsimp only at total ⊢
  omega

end Exact

end OsLab.Fs
