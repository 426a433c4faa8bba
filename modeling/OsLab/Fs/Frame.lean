import OsLab.Fs.Calls

/-!
# What the code of `fs.c` does to references and locks

Whatever is on the disk, a function of `fs.c` that returns has released the buffers it has locked,
and has taken and given back the references and inode locks that its callers count on.
-/

namespace OsLab.Fs

open Act Function

/-- The locked buffers, the transactions, and the references and locks of the inode cache. -/
structure Shape where
  held : List Nat
  outstanding : Nat
  ref : Slot → Nat
  lock : Slot → Option Pslot

/-- What is left of a state without the disk and the contents. -/
def State.shape (s : State) : Shape where
  held := s.held
  outstanding := s.outstanding
  ref ip := (s.inode ip).ref
  lock ip := (s.inode ip).lock

namespace Shape

/-- One more reference. -/
def addRef (shape : Shape) (ip : Slot) : Shape :=
  { shape with ref := update shape.ref ip (shape.ref ip + 1) }

/-- One reference less. -/
def dropRef (shape : Shape) (ip : Slot) : Shape :=
  { shape with ref := update shape.ref ip (shape.ref ip - 1) }

/-- Another holder of an inode lock. -/
def setLock (shape : Shape) (ip : Slot) (holder : Option Pslot) : Shape :=
  { shape with lock := update shape.lock ip holder }

@[simp] theorem dropRef_addRef (shape : Shape) (ip : Slot) :
    (shape.addRef ip).dropRef ip = shape := by
  simp [dropRef, addRef]

theorem setLock_setLock (shape : Shape) (ip : Slot) (holder : Option Pslot)
    (before : shape.lock ip = none) : (shape.setLock ip holder).setLock ip none = shape := by
  simp [setLock, ← before]

end Shape

variable {change : Inode → Inode}

section

variable (s : State) (ip : Slot)

/-- A change of one inode shows in its reference count and its lock only. -/
theorem shape_change (change : Inode → Inode) : (s.setInode ip change).shape = { s.shape with
      ref := update s.shape.ref ip (change (s.inode ip)).ref
      lock := update s.shape.lock ip (change (s.inode ip)).lock } := by
  simp only [State.shape, State.setInode, Shape.mk.injEq, true_and]
  refine ⟨funext fun jp => ?_, funext fun jp => ?_⟩
  all_goals rcases eq_or_ne jp ip with rfl | other <;> simp [*]

theorem shape_setInode (ref : (change (s.inode ip)).ref = (s.inode ip).ref)
    (lock : (change (s.inode ip)).lock = (s.inode ip).lock) :
    (s.setInode ip change).shape = s.shape := by
  rw [shape_change]
  simp [ref, lock, State.shape]

@[simp] theorem shape_setNode (change : Dinode → Dinode) :
    (s.setInode ip fun i => { i with node := change i.node }).shape = s.shape :=
  shape_setInode s ip rfl rfl

theorem shape_addRef (ref : (change (s.inode ip)).ref = (s.inode ip).ref + 1)
    (lock : (change (s.inode ip)).lock = (s.inode ip).lock) :
    (s.setInode ip change).shape = s.shape.addRef ip := by
  rw [shape_change]
  simp [ref, lock, State.shape, Shape.addRef]

@[simp] theorem shape_dropRef :
    (s.setInode ip fun i => { i with ref := i.ref - 1 }).shape = s.shape.dropRef ip := by
  rw [shape_change]
  simp [State.shape, Shape.dropRef]

@[simp] theorem shape_setLock (holder : Option Pslot) :
    (s.setInode ip fun i => { i with lock := holder }).shape = s.shape.setLock ip holder := by
  rw [shape_change]
  simp [State.shape, Shape.setLock]

end

/-- What holds of every result. -/
abbrev Yields {α : Type} (code : FsM α) (s : State) (post : α → State → Prop) : Prop :=
  Ensures (fun _ => True) code s post

/-- The code leaves the shape as it is. -/
def Quiet {α : Type} (code : FsM α) : Prop := ∀ s, Yields code s fun _ t => t.shape = s.shape

/-- A result that was returned has the property. -/
theorem Yields.of_ok {α : Type} {code : FsM α} {s t : State} {result : α} {post : α → State → Prop}
    (yields : Yields code s post) (done : code s = .ok (result, t)) : post result t :=
  yields.returns result t done

section Steps

variable {α β : Type} {s : State} {post : α → State → Prop}

/-- Code that leaves the shape alone runs on from a shape that is known. -/
theorem Quiet.after {code : FsM α} (quiet : Quiet code) {shape : Shape} (now : s.shape = shape) :
    Yields code s fun _ t => t.shape = shape :=
  (quiet s).mono fun _ _ same => same.trans now

theorem Quiet.bind {first : FsM α} {second : α → FsM β} (quiet : Quiet first)
    (rest : ∀ result, Quiet (second result)) : Quiet (first >>= second) := fun s =>
  (quiet s).bind fun result _ same => (rest result).after same

theorem quiet_pure (result : α) : Quiet (pure result : FsM α) :=
  fun s => (ensures_pure result s _).2 rfl

theorem quiet_throw (stop : Stop) : Quiet (throw stop : FsM α) :=
  fun s => (ensures_throw stop s _).2 trivial

theorem quiet_inode (ip : Slot) : Quiet (inode ip) := fun _ => ensures_of_ok rfl |>.2 rfl

theorem quiet_setNode (ip : Slot) (change : Dinode → Dinode) : Quiet (setNode ip change) :=
  fun s => ensures_of_ok rfl |>.2 (shape_setNode s ip change)

theorem quiet_setInode (ip : Slot) {change : Inode → Inode} (ref : ∀ i, (change i).ref = i.ref)
    (lock : ∀ i, (change i).lock = i.lock) : Quiet (setInode ip change) :=
  fun s => (ensures_modify ..).2 (shape_setInode s ip (ref _) (lock _))

theorem quiet_leaveBuffer (b : Nat) (block : Block) : Quiet (leaveBuffer b block) :=
  fun _ => (ensures_modify ..).2 rfl

theorem quiet_ite {condition : Prop} [Decidable condition] {first second : FsM α}
    (yes : condition → Quiet first) (no : ¬ condition → Quiet second) :
    Quiet (if condition then first else second) := by
  split
  · exact yes ‹_›
  · exact no ‹_›

/-- `log_write` changes contents only. -/
theorem quiet_logWrite (b : Nat) (block : Block) : Quiet (logWrite b block) := by
  intro s
  simp only [logWrite, ensures_bind, ensures_get]
  split
  · exact (ensures_throw ..).2 trivial
  split
  · exact (ensures_throw ..).2 trivial
  · exact (ensures_set ..).2 rfl

/-- `bread` locks a buffer. -/
theorem yields_bread (b : Nat) : Yields (bread b) s fun _ t =>
    t.shape = { s.shape with held := b :: s.held } := by
  simp only [bread, ensures_bind, ensures_get]
  split
  · exact (ensures_throw ..).2 trivial
  · exact ensures_of_ok rfl |>.2 rfl

theorem yields_brelse (b : Nat) : Yields (brelse b) s fun _ t =>
    t.shape = { s.shape with held := s.held.erase b } := by
  simp only [brelse, ensures_bind, ensures_get]
  split
  · exact ensures_of_ok rfl |>.2 rfl
  · exact (ensures_throw ..).2 trivial

variable {b : Nat}

/-- `brelse` of the buffer locked last. -/
theorem yields_release (shape : Shape) (locked : s.shape = { shape with held := b :: shape.held }) :
    Yields (brelse b) s fun _ t => t.shape = shape := by
  refine (yields_brelse b).mono fun _ t after => ?_
  have held : s.held = b :: shape.held := congrArg Shape.held locked
  rw [after, held, locked, List.erase_cons_head]

/-- A buffer is locked, used and released, and the code goes on. -/
theorem quiet_buffer {body : Block → FsM α} {rest : Block → α → FsM β}
    (inside : ∀ data, Quiet (body data)) (outside : ∀ data result, Quiet (rest data result)) :
    Quiet (do
      let data ← bread b
      let result ← body data
      brelse b
      rest data result) := by
  intro s
  refine (yields_bread b).bind fun data t locked => ?_
  refine (inside data t).bind fun result u same => ?_
  refine (yields_release s.shape (same.trans locked)).bind fun _ w released => ?_
  exact (outside data result).after released

theorem quiet_read {rest : Block → FsM β} (outside : ∀ data, Quiet (rest data)) :
    Quiet (do
      let data ← bread b
      brelse b
      rest data) := by
  intro s
  refine (yields_bread b).bind fun data t locked => ?_
  refine (yields_release s.shape locked).bind fun _ w released => ?_
  exact (outside data).after released

end Steps

section Contents

variable (sb : Superblock)

theorem quiet_bzero (b : Nat) : Quiet (bzero b) := by
  intro s
  refine (yields_bread b).bind fun data t locked => ?_
  refine (quiet_logWrite b _ t).bind fun _ u same => ?_
  exact yields_release _ (same.trans locked)

/-- The search of `balloc` holds one bitmap buffer at a time. -/
theorem quiet_ballocFrom (starts : List Nat) : Quiet (ballocFrom sb starts) := by
  induction starts with
  | nil => exact quiet_throw _
  | cons b rest ih =>
    intro s
    refine (yields_bread _).bind fun bp t locked => ?_
    split
    · rename_i bi _
      refine (quiet_logWrite _ _ t).bind fun _ u same => ?_
      refine (yields_release s.shape (same.trans locked)).bind fun _ w released => ?_
      exact ((quiet_bzero (b + bi)).bind fun _ => quiet_pure _).after released
    · refine (yields_release s.shape locked).bind fun _ w released => ?_
      exact ih.after released

theorem quiet_balloc : Quiet (balloc sb) := quiet_ballocFrom sb _

theorem quiet_bfree (b : Nat) : Quiet (bfree sb b) := by
  intro s
  refine (yields_bread _).bind fun bp t locked => ?_
  split
  · exact (ensures_throw ..).2 trivial
  · refine (quiet_logWrite _ _ t).bind fun _ u same => ?_
    exact yields_release _ (same.trans locked)

theorem quiet_iupdate (ip : Slot) : Quiet (iupdate sb ip) := by
  refine (quiet_inode ip).bind fun i s => ?_
  refine (yields_bread _).bind fun bp t locked => ?_
  refine (quiet_logWrite _ _ t).bind fun _ u same => ?_
  exact yields_release _ (same.trans locked)

theorem quiet_truncDirect (ip : Slot) (slots : List (Fin (ndirect + 1))) :
    Quiet (truncDirect sb ip slots) := by
  induction slots with
  | nil => exact quiet_pure _
  | cons k rest ih =>
    refine (quiet_inode ip).bind fun i => quiet_ite (fun _ => ?_) fun _ => ih
    exact (quiet_bfree sb _).bind fun _ => (quiet_setNode ip _).bind fun _ => ih

theorem quiet_truncEntries (a : Block) (entries : List Nat) :
    Quiet (truncEntries sb a entries) := by
  induction entries with
  | nil => exact quiet_pure _
  | cons j rest ih =>
    refine quiet_ite (fun _ => ?_) fun _ => ih
    exact (quiet_bfree sb _).bind fun _ => ih

theorem quiet_truncIndirect (ip : Slot) : Quiet (truncIndirect sb ip) := by
  refine (quiet_inode ip).bind fun i => quiet_ite (fun _ => ?_) fun _ => quiet_pure _
  exact quiet_buffer (fun a => quiet_truncEntries sb a _) fun _ _ =>
    (quiet_bfree sb _).bind fun _ => quiet_setNode ip _

theorem quiet_itrunc (ip : Slot) : Quiet (itrunc sb ip) :=
  (quiet_truncDirect sb ip _).bind fun _ => (quiet_truncIndirect sb ip).bind fun _ =>
    (quiet_setNode ip _).bind fun _ => quiet_iupdate sb ip

theorem quiet_bmapAddr (ip : Slot) (k : Fin (ndirect + 1)) : Quiet (bmapAddr sb ip k) := by
  refine (quiet_inode ip).bind fun i => quiet_ite (fun _ => ?_) fun _ => quiet_pure _
  exact (quiet_balloc sb).bind fun addr => (quiet_setNode ip _).bind fun _ => quiet_pure _

/-- `balloc` runs with the indirect block locked. -/
theorem quiet_bmapEntry (b j : Nat) : Quiet (bmapEntry sb b j) := by
  intro s
  refine (yields_bread b).bind fun bp t locked => ?_
  split
  · refine (quiet_balloc sb t).bind fun addr u same => ?_
    refine (quiet_logWrite _ _ u).bind fun _ w later => ?_
    exact (yields_release _ ((later.trans same).trans locked)).bind fun _ x released =>
      (ensures_pure ..).2 released
  · exact (yields_release _ locked).bind fun _ x released => (ensures_pure ..).2 released

theorem quiet_bmap (ip : Slot) (bn : Nat) : Quiet (bmap sb ip bn) := by
  unfold bmap
  split
  · exact quiet_bmapAddr sb ip _
  · refine quiet_ite (fun _ => ?_) fun _ => quiet_throw _
    exact (quiet_bmapAddr sb ip indirect).bind fun addr => quiet_bmapEntry sb addr _

theorem quiet_readLoop (ip : Slot) (writable : Nat → Bool) (n fuel off : Nat)
    (bytes : List Byte) : Quiet (readLoop sb ip writable n fuel off bytes) := by
  induction fuel generalizing off bytes with
  | zero => exact quiet_pure _
  | succ fuel ih =>
    refine quiet_ite (fun _ => ?_) fun _ => quiet_pure _
    refine (quiet_bmap sb ip _).bind fun addr => quiet_read fun bp => ?_
    exact quiet_ite (fun _ => ih _ _) fun _ => quiet_pure _

theorem quiet_readi (ip : Slot) (writable : Nat → Bool) (off n : Nat) :
    Quiet (readi sb ip writable off n) :=
  (quiet_inode ip).bind fun _ =>
    quiet_ite (fun _ => quiet_pure _) fun _ => quiet_readLoop sb ip writable _ _ _ _

/-- A failed copy also releases its buffer. -/
theorem quiet_writeLoop (ip : Slot) (src : Source) (n fuel off tot : Nat) :
    Quiet (writeLoop sb ip src n fuel off tot) := by
  induction fuel generalizing off tot with
  | zero => exact quiet_pure _
  | succ fuel ih =>
    refine quiet_ite (fun _ => ?_) fun _ => quiet_pure _
    refine (quiet_bmap sb ip _).bind fun addr s => ?_
    refine (yields_bread addr).bind fun bp t locked => ?_
    dsimp only
    split
    · refine (quiet_logWrite _ _ t).bind fun _ u same => ?_
      refine (yields_release s.shape (same.trans locked)).bind fun _ w released => ?_
      exact (ih _ _).after released
    · refine (quiet_leaveBuffer _ _ t).bind fun _ u same => ?_
      exact (yields_release s.shape (same.trans locked)).bind fun _ w released =>
        (ensures_pure ..).2 released

theorem quiet_writei (ip : Slot) (src : Source) (off n : Nat) : Quiet (writei sb ip src off n) := by
  refine (quiet_inode ip).bind fun i => quiet_ite (fun _ => quiet_pure _) fun _ => ?_
  refine quiet_ite (fun _ => quiet_pure _) fun _ => ?_
  refine (quiet_writeLoop sb ip src n n off 0).bind fun off => ?_
  refine quiet_ite (fun _ => ?_) fun _ => quiet_pure _
  exact (quiet_setNode ip _).bind fun _ => (quiet_iupdate sb ip).bind fun _ => quiet_pure _

theorem quiet_readDirent (dp : Slot) (off : Nat) (stop : Stop) :
    Quiet (readDirent sb dp off stop) :=
  (quiet_readi sb dp _ off direntSize).bind fun _ =>
    quiet_ite (fun _ => quiet_pure _) fun _ => quiet_throw _

theorem quiet_writeDirent (dp : Slot) (de : Dirent) (off : Nat) (stop : Stop) :
    Quiet (writeDirent sb dp de off stop) :=
  (quiet_writei sb dp _ off direntSize).bind fun _ =>
    quiet_ite (fun _ => quiet_pure _) fun _ => quiet_throw _

theorem quiet_emptyFrom (dp : Slot) (last : Nat) (offs : List Nat) :
    Quiet (emptyFrom sb dp last offs) := by
  induction offs with
  | nil => exact quiet_pure _
  | cons off rest ih =>
    exact (quiet_readDirent sb dp off _).bind fun _ =>
      quiet_ite (fun _ => quiet_pure _) fun _ => ih

theorem quiet_isdiremptyFrom (dp : Slot) (offs : List Nat) : Quiet (isdiremptyFrom sb dp offs) := by
  induction offs with
  | nil => exact quiet_pure _
  | cons off rest ih =>
    exact (quiet_readDirent sb dp off _).bind fun _ =>
      quiet_ite (fun _ => quiet_pure _) fun _ => ih

theorem quiet_isdirempty (dp : Slot) : Quiet (isdirempty sb dp) :=
  (quiet_inode dp).bind fun _ => quiet_isdiremptyFrom sb dp _

theorem quiet_raiseLink (ip : Slot) : Quiet (raiseLink sb ip) :=
  (quiet_inode ip).bind fun _ => quiet_ite (fun _ => quiet_pure _) fun _ =>
    (quiet_setNode ip _).bind fun _ => (quiet_iupdate sb ip).bind fun _ => quiet_pure _

theorem quiet_lowerLink (ip : Slot) : Quiet (lowerLink sb ip) :=
  (quiet_setNode ip _).bind fun _ => quiet_iupdate sb ip

/-- `sys_unlink` clears the entry, or refuses a directory with entries. -/
theorem quiet_unlinkEntry (dp ip : Slot) (off : Nat) : Quiet (unlinkEntry sb dp ip off) := by
  refine (quiet_inode ip).bind fun i => quiet_ite (fun _ => quiet_throw _) fun _ => ?_
  refine quiet_ite (fun _ => ?_) fun _ => (quiet_writeDirent sb dp _ off _).bind fun _ =>
    quiet_pure _
  refine (quiet_isdirempty sb ip).bind fun _ => quiet_ite (fun _ => ?_) fun _ => quiet_pure _
  exact (quiet_writeDirent sb dp _ off _).bind fun _ => (quiet_setNode dp _).bind fun _ =>
    (quiet_iupdate sb dp).bind fun _ => quiet_pure _

end Contents

section References

variable (sb : Superblock) (me : Pslot) {s : State}

/-- `iget` takes a reference, to a cached inode or in a free entry. -/
theorem yields_iget (inum : Nat) :
    Yields (iget inum) s fun ip t => t.shape = s.shape.addRef ip := by
  simp only [iget, ensures_bind, ensures_get]
  split
  · exact ensures_of_ok rfl |>.2 (shape_addRef s _ rfl rfl)
  split
  · rename_i ip found
    have zero : (s.inode ip).ref = 0 := by simpa using List.find?_some found
    exact ensures_of_ok rfl |>.2 (shape_addRef s ip (by simp [zero]) rfl)
  · exact (ensures_throw ..).2 trivial

theorem yields_idup (ip : Slot) : Yields (idup ip) s fun jp t =>
    jp = ip ∧ t.shape = s.shape.addRef ip :=
  ensures_of_ok rfl |>.2 ⟨rfl, shape_addRef s ip rfl rfl⟩

theorem yields_iallocFrom (type : BitVec 16) (inums : List Nat) :
    Yields (iallocFrom sb type inums) s fun ip t => t.shape = s.shape.addRef ip := by
  induction inums generalizing s with
  | nil => exact (ensures_throw ..).2 trivial
  | cons inum rest ih =>
    refine (yields_bread _).bind fun bp t locked => ?_
    split
    · refine (quiet_logWrite _ _ t).bind fun _ u same => ?_
      refine (yields_release s.shape (same.trans locked)).bind fun _ w released => ?_
      exact (yields_iget inum).mono fun ip x later => released ▸ later
    · refine (yields_release s.shape locked).bind fun _ w released => ?_
      exact ih.mono fun ip x later => released ▸ later

/-- `ialloc` returns a reference. -/
theorem yields_ialloc (type : BitVec 16) :
    Yields (ialloc sb type) s fun ip t => t.shape = s.shape.addRef ip :=
  yields_iallocFrom sb type _

section

variable (ip : Slot)

theorem yields_acquiresleep : Yields (acquiresleep me ip) s fun _ t =>
    s.shape.lock ip = none ∧ t.shape = s.shape.setLock ip (some me) := by
  simp only [acquiresleep, inode, ensures_bind, ensures_get, ensures_pure]
  split
  · rename_i free
    exact ensures_of_ok rfl |>.2 ⟨free, shape_setLock s ip _⟩
  · exact (ensures_throw ..).2 trivial

theorem yields_releasesleep : Yields (releasesleep ip) s fun _ t =>
    t.shape = s.shape.setLock ip none :=
  ensures_of_ok rfl |>.2 (shape_setLock s ip _)

/-- `ilock` takes the lock, also when it reads the inode. -/
theorem yields_ilock : Yields (ilock sb me ip) s fun _ t =>
    s.shape.lock ip = none ∧ t.shape = s.shape.setLock ip (some me) := by
  simp only [ilock, inode, ensures_bind, ensures_get, ensures_pure]
  split
  · exact (ensures_throw ..).2 trivial
  refine (yields_acquiresleep me ip).bind fun _ t locked => ?_
  split
  · exact (ensures_pure ..).2 locked
  refine Ensures.mono ?_ fun _ _ after => ⟨locked.1, after⟩
  refine Quiet.after (quiet_read fun bp => ?_) locked.2
  exact (quiet_setInode ip (by simp) (by simp)).bind fun _ =>
    quiet_ite (fun _ => quiet_throw _) fun _ => quiet_pure _

theorem yields_iunlock : Yields (iunlock me ip) s fun _ t =>
    t.shape = s.shape.setLock ip none := by
  simp only [iunlock, inode, ensures_bind, ensures_get, ensures_pure]
  split
  · exact (ensures_throw ..).2 trivial
  · exact yields_releasesleep ip

/-- The last `iput` frees the inode and gives its lock back. -/
theorem quiet_ifree : Quiet (ifree sb me ip) := by
  intro s
  refine (yields_acquiresleep me ip).bind fun _ t locked => ?_
  refine (quiet_itrunc sb ip t).bind fun _ u first => ?_
  refine (quiet_setNode ip _ u).bind fun _ w second => ?_
  refine (quiet_iupdate sb ip w).bind fun _ x third => ?_
  refine (quiet_setInode ip (by simp) (by simp) x).bind fun _ y fourth => ?_
  refine (yields_releasesleep ip).mono fun _ z last => ?_
  rw [last, fourth, third, second, first, locked.2, Shape.setLock_setLock _ _ _ locked.1]

theorem yields_iputStart : Yields (iputStart sb me ip) s fun freed t =>
    t.shape = if freed then s.shape else s.shape.dropRef ip := by
  simp only [iputStart, inode, ensures_bind, ensures_get, ensures_pure]
  split
  · refine (quiet_ifree sb me ip s).bind fun _ t same => (ensures_pure ..).2 ?_
    simpa using same
  · exact ensures_of_ok rfl |>.2 (shape_dropRef s ip)

theorem yields_iputEnd : Yields (iputEnd ip) s fun _ t =>
    t.shape = s.shape.dropRef ip :=
  ensures_of_ok rfl |>.2 (shape_dropRef s ip)

/-- `iput` drops one reference, whether it frees the inode or not. -/
theorem yields_iput : Yields (iput sb me ip) s fun _ t =>
    t.shape = s.shape.dropRef ip := by
  refine (yields_iputStart sb me ip).bind fun freed t same => ?_
  cases freed with
  | true => exact (yields_iputEnd ip).mono fun _ u later => by simpa [same] using later
  | false => exact (ensures_pure ..).2 same

end

theorem yields_dirlookupFrom (dp : Slot) (name : Name) (offs : List Nat) :
    Yields (dirlookupFrom sb dp name offs) s fun found t =>
      t.shape = match found with
        | some (ip, _) => s.shape.addRef ip
        | none => s.shape := by
  induction offs generalizing s with
  | nil => exact (ensures_pure ..).2 rfl
  | cons off rest ih =>
    refine (quiet_readDirent sb dp off _ s).bind fun de t same => ?_
    rw [← same]
    split
    · exact ih
    · split
      · exact (yields_iget _).bind fun ip u later => (ensures_pure ..).2 later
      · exact ih

/-- `dirlookup` takes a reference to what it finds. -/
theorem yields_dirlookup (dp : Slot) (name : Name) :
    Yields (dirlookup sb dp name) s fun found t =>
      t.shape = match found with
        | some (ip, _) => s.shape.addRef ip
        | none => s.shape := by
  simp only [dirlookup, inode, ensures_bind, ensures_get, ensures_pure]
  split
  · exact (ensures_throw ..).2 trivial
  · exact yields_dirlookupFrom sb dp name _

/-- `dirlink` puts what it finds back. -/
theorem quiet_dirlink (dp : Slot) (name : Name) (inum : Nat) :
    Quiet (dirlink sb me dp name inum) := by
  intro s
  refine (yields_dirlookup sb dp name).bind fun found t same => ?_
  cases found with
  | some pair =>
    obtain ⟨ip, off⟩ := pair
    refine (yields_iput sb me ip).bind fun _ u later => (ensures_pure ..).2 ?_
    rw [later, same, Shape.dropRef_addRef]
  | none =>
    refine Quiet.after ((quiet_inode dp).bind fun _ => ?_) same
    exact (quiet_emptyFrom sb dp _ _).bind fun _ =>
      (quiet_writeDirent sb dp _ _ _).bind fun _ => quiet_pure _

theorem quiet_createDots (dp ip : Slot) : Quiet (createDots sb me dp ip) := by
  refine (quiet_inode ip).bind fun _ => (quiet_inode dp).bind fun _ => ?_
  refine (quiet_setNode dp _).bind fun _ => (quiet_iupdate sb dp).bind fun _ => ?_
  refine (quiet_dirlink sb me ip _ _).bind fun _ => quiet_ite (fun _ => ?_) fun _ => quiet_throw _
  exact (quiet_dirlink sb me ip _ _).bind fun _ =>
    quiet_ite (fun _ => quiet_pure _) fun _ => quiet_throw _

/-- Filling a new inode takes no references. -/
theorem quiet_createEntry (dp ip : Slot) (name : Name) (type major minor : BitVec 16) :
    Quiet (createEntry sb me dp ip name type major minor) := by
  refine (quiet_setNode ip _).bind fun _ => (quiet_iupdate sb ip).bind fun _ => ?_
  refine (quiet_inode ip).bind fun i => ?_
  have link : Quiet (do
      if ← dirlink sb me dp name i.inum then return else throw .createDirlink : FsM Unit) :=
    (quiet_dirlink sb me dp name _).bind fun _ =>
      quiet_ite (fun _ => quiet_pure _) fun _ => quiet_throw _
  refine quiet_ite (fun _ => ?_) fun _ => link
  exact (quiet_createDots sb me dp ip).bind fun _ => link

theorem yields_beginOp : Yields beginOp s fun _ t =>
    t.shape = { s.shape with outstanding := s.shape.outstanding + 1 } :=
  ensures_of_ok rfl |>.2 rfl

/-- The last `end_op` commits, which changes the disk only. -/
theorem yields_endOp : Yields endOp s fun _ t =>
    t.shape = { s.shape with outstanding := s.shape.outstanding - 1 } := by
  refine (ensures_modify ..).2 ?_
  split
  · rename_i zero
    simp only [State.shape, State.commit, zero]
  · rfl

end References

end OsLab.Fs
