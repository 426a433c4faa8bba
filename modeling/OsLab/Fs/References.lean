import OsLab.Fs.Running
import OsLab.Fs.Sample

/-!
# Reference counts of open files and cached inodes

On any disk and in every run of calls, the counters of open files and of cached inodes are the
totals of what the processes hold.  So no reference count is found too small, and between calls the
counts are the numbers of descriptors, open files and current directories.
-/

namespace OsLab.Fs

open View Finset

/-- The descriptors that refer to an open file. -/
def descriptors (k : Kernel) (f : Fslot) : Finset (Pslot × Fd) :=
  Finset.univ.filter fun slot => (k.proc slot.1).ofile slot.2 = some f

/-- The open `FD_INODE` and `FD_DEVICE` entries of `ftable` that refer to an inode. -/
def openInodes (k : Kernel) (ip : Slot) : Finset Fslot :=
  Finset.univ.filter fun f => 0 < (k.file f).ref ∧
    ((k.file f).type = .inode ∨ (k.file f).type = .device) ∧ (k.file f).ip = some ip

/-- The processes whose current directory is an inode. -/
def cwds (k : Kernel) (ip : Slot) : Finset Pslot :=
  Finset.univ.filter fun p => (k.proc p).cwd = some ip

/-- No process is inside a call. -/
def Kernel.AtRest (k : Kernel) : Prop := ∀ p, (k.proc p).todo.Done

instance (k : Kernel) : Decidable k.AtRest := inferInstanceAs (Decidable (∀ _, _))

/-- The counts between calls. -/
structure Kernel.Counted (k : Kernel) : Prop where
  files : ∀ f, (k.file f).ref = (descriptors k f).card
  inodes : ∀ ip, (k.fs.inode ip).ref = (openInodes k ip).card + (cwds k ip).card
  locks : ∀ ip, (k.fs.inode ip).lock = none
  buffers : k.fs.held = []
  outstanding : k.fs.outstanding = 0

theorem sum_weight {ι α : Type} [Fintype ι] [DecidableEq α] (entry : ι → Option α) (x : α) :
    ∑ i, weight x (entry i) = (Finset.univ.filter fun i => entry i = some x).card := by
  simp only [weight, card_filter]

theorem Running.counted {k : Kernel} {views : Pslot → View} (running : Running k views)
    (rest : k.AtRest) : k.Counted := by
  have idles : ∀ p, (views p).holds = idle := fun p => running.rests (rest p)
  have exact := running.core.exact
  have files : ∀ p f, (accounts k views p).fileShare f = ∑ fd, weight f ((k.proc p).ofile fd) := by
    intro p f
    simp only [accounts, idles, Account.fileShare, Account.of, idle, Option.map_none,
      reduceCtorEq, if_false, List.count_nil, add_zero]
  have inodes : ∀ p ip, (accounts k views p).inodeShare ip = weight ip (k.proc p).cwd := by
    intro p ip
    simp [accounts, idles, Account.inodeShare, Account.of, idle]
  refine ⟨fun f => ?_, fun ip => ?_, fun ip => ?_, exact.held, ?_⟩
  · rw [exact.files, sum_congr rfl fun p _ => files p f, ← sum_product', univ_product_univ]
    exact sum_weight (fun slot : Pslot × Fd => (k.proc slot.1).ofile slot.2) f
  · have opened : openInodes k ip = Finset.univ.filter fun f => inodeOf (k.file f) = some ip := by
      refine filter_congr fun f _ => ?_
      have closed := exact.unused f
      cases type : (k.file f).type <;> simp [inodeOf, type] at closed ⊢ <;> omega
    change k.fs.shape.ref ip = _
    rw [exact.inodes, sum_congr rfl fun p _ => inodes p ip, sum_weight, opens, sum_weight,
      ← opened, add_comm]
    rfl
  · cases lock : (k.fs.inode ip).lock with
    | none => rfl
    | some p =>
      have member := (running.core.locks ip p).mp lock
      simp [idles, idle] at member
  · change k.fs.shape.outstanding = 0
    rw [exact.outstanding]
    simp [accounts, idles, Account.txShare, Account.of, idle]

/-- On every disk, in every run, no reference count of an open file is found too small, and the
counts are exact whenever no process is inside a call. -/
theorem references_exact (sb : Superblock) (disk : Nat → Block) {k : Kernel}
    (run : (fileSystem sb).Reaches (boot disk) k) :
    k.stop ≠ some .filedup ∧ k.stop ≠ some .fileclose ∧ (k.AtRest → k.Counted) := by
  obtain ⟨views, running, safe⟩ :=
    run.invariant (P := Good) (fun _ action good enabled => good.next action enabled)
      (good_boot disk)
  refine ⟨fun stopped => ?_, fun stopped => ?_, running.counted⟩
  · exact safe _ stopped (.inl rfl)
  · exact safe _ stopped (.inr rfl)

def direntBlock (entries : List (Nat × Name)) : Block := fun j =>
  match entries[j.val / 16]? with
  | some (inum, name) => Dirent.bytes ⟨.ofNat 16 inum, name⟩ (j.val % 16)
  | none => 0

def oneBlock (type : BitVec 16) (nlink size b : Nat) : Dinode :=
  ⟨type, 0, 0, .ofNat 16 nlink, .ofNat 32 size, fun i => if i.val = 0 then .ofNat 32 b else 0⟩

/-- Such a disk with these inodes from number 1 on, these blocks from number 4 on, and no other block
in use. -/
def diskOf (nodes : List Dinode) (blocks : List Block) : Nat → Block := fun b =>
  if b = 2 then
    (nodes.foldl (fun (block, slot) node => (node.store block slot, slot + 1))
      ((fun _ => 0 : Block), 1)).1
  else if b = 3 then
    fun j => if j.val = 0 then .ofNat 8 (2 ^ (4 + blocks.length) - 1) else 0
  else (blocks[b - 4]?).getD fun _ => 0

/-- The first process takes this many steps. -/
def stepping (n : Nat) : List Action := List.replicate n (.step initSlot none)

/-- The root with one file, `f`. -/
def oneFile : Nat → Block :=
  diskOf [oneBlock tDir 1 48 4, ⟨tFile, 0, 0, 1, 0, fun _ => 0⟩]
    [direntBlock [(1, [dot]), (1, [dot, dot]), (2, [102])]]

/-- The first process opens `f` and duplicates the descriptor. -/
def openDup : List Action :=
  List.flatten [[.call initSlot (.openAt [102] 0)], stepping 15, [.call initSlot (.dup 0)],
    stepping 3]

theorem references_exact_openDup :
    (openDup.foldl (fileSystem sample).next (boot oneFile)).Counted :=
  (references_exact sample oneFile (System.Schedules.reaches (by decide +kernel))).2.2
    (by decide +kernel)

end OsLab.Fs
