import OsLab.Fs.Accounts

/-!
# What holds of references in every state

The counters are the totals of the accounts, every inode lock is with the process that has it, and
what a process knows is so.  Here are the steps that change inodes and open files.
-/

namespace OsLab.Fs

open View Function

/-- What a process knows is so. -/
structure Knows (file : Fslot → File) (proc : Pslot → Process) (p : Pslot) (view : View) :
    Prop where
  slots : ∀ fd f, (fd, f) ∈ view.facts.slots → (Account.of (proc p) view.holds).owned fd = some f
  target : ∀ f ip, view.facts.target = some (f, ip) →
    inodeOf (file f) = some ip ∧ 0 < (Account.of (proc p) view.holds).fileShare f
  blanks : ∀ f ∈ view.holds.blanks, (file f).type = .none ∧ (file f).ref = 1 ∧
    0 < (Account.of (proc p) view.holds).fileShare f
  distinct : view.holds.blanks.Nodup
  loose : ∀ fd f, view.holds.loose = some (fd, f) → (proc p).ofile fd = some f
  closed : ∀ fd : Fd, fd.val < view.facts.closed → (proc p).ofile fd = none
  homeless : view.holds.homeless = true → (proc p).cwd = none
  child : ∀ c n, view.holds.child = some (c, n) → c ≠ p ∧ (proc c).life = .forming ∧
    (∀ fd : Fd, n ≤ fd.val → (proc c).ofile fd = none) ∧ (n ≤ nofile → (proc c).cwd = none)

/-- The accounts of all processes. -/
def accounts (k : Kernel) (views : Pslot → View) (p : Pslot) : Account :=
  Account.of (k.proc p) (views p).holds

/-- What holds of the counters, the locks and the processes in every state of a run. -/
structure Core (k : Kernel) (views : Pslot → View) : Prop where
  exact : Exact k.fs.shape k.file (accounts k views)
  locks : ∀ ip p, k.fs.shape.lock ip = some p ↔ ip ∈ (views p).holds.locked
  nodup : ∀ p, (views p).holds.locked.Nodup
  knows : ∀ p, Knows k.file k.proc p (views p)
  children : ∀ p q c n m, (views p).holds.child = some (c, n) →
    (views q).holds.child = some (c, m) → p = q
  resting : ∀ p, (k.proc p).life ≠ .live → views p = base
  unused : ∀ p, (k.proc p).life = .unused → (∀ fd, (k.proc p).ofile fd = none) ∧
    (k.proc p).cwd = none

attribute [local simp] Account.of accounts after Shape.setLock

theorem knows_base {file : Fslot → File} {proc : Pslot → Process} {p : Pslot} :
    Knows file proc p base := by
  constructor <;> simp [base, idle]

section Frame

variable {file file' : Fslot → File} {proc proc' : Pslot → Process} {p : Pslot} {view later : View}

/-- Whoever has a share of a file finds its type and inode as they were. -/
def Spares (file file' : Fslot → File) (a : Account) (blanks : List Fslot) : Prop :=
  ∀ f, 0 < a.fileShare f → file' f = file f ∨ ((2 ≤ (file f).ref ∨ f ∉ blanks) ∧
    (file' f).type = (file f).type ∧ (file' f).ip = (file f).ip)

theorem spares_refl (a : Account) (blanks : List Fslot) : Spares file file a blanks :=
  fun _ _ => .inl rfl

theorem inodeOf_congr {x y : File} (type : x.type = y.type) (ip : x.ip = y.ip) :
    inodeOf x = inodeOf y := by
  simp [inodeOf, type, ip]

theorem inodeOf_blank {x : File} (type : x.type = .none) : inodeOf x = none := by
  simp [inodeOf, type]

theorem Knows.frame (knows : Knows file proc p view) (same : proc' p = proc p)
    (child : ∀ c n, view.holds.child = some (c, n) → proc' c = proc c)
    (spares : Spares file file' (Account.of (proc p) view.holds) view.holds.blanks) :
    Knows file' proc' p view where
  slots := same ▸ knows.slots
  target f ip known := by
    obtain ⟨inode, share⟩ := knows.target f ip known
    rw [same]
    refine ⟨?_, share⟩
    rcases spares f share with equal | ⟨_, type, ip⟩
    · rw [equal, inode]
    · rw [inodeOf_congr type ip, inode]
  blanks f member := by
    obtain ⟨type, ref, share⟩ := knows.blanks f member
    rw [same]
    rcases spares f share with equal | ⟨many | typed, _⟩
    · exact equal.symm ▸ ⟨type, ref, share⟩
    · omega
    · exact (typed member).elim
  distinct := knows.distinct
  loose := same ▸ knows.loose
  closed := same ▸ knows.closed
  homeless := same ▸ knows.homeless
  child c n known := child c n known ▸ knows.child c n known

theorem Knows.keep (knows : Knows file proc p view) (facts : later.facts = view.facts)
    (holds : (later.holds.files, later.holds.blanks, later.holds.loose, later.holds.homeless,
        later.holds.child) = (view.holds.files, view.holds.blanks, view.holds.loose,
        view.holds.homeless, view.holds.child)) : Knows file proc p later := by
  simp only [Prod.mk.injEq] at holds
  obtain ⟨files, blanks, loose, homeless, child⟩ := holds
  have owned : (Account.of (proc p) later.holds).owned =
      (Account.of (proc p) view.holds).owned := by
    simp only [Account.of, loose]
  have share : (Account.of (proc p) later.holds).fileShare =
      (Account.of (proc p) view.holds).fileShare := by
    funext f
    have members : (Account.of (proc p) later.holds).files =
        (Account.of (proc p) view.holds).files := files
    simp only [Account.fileShare, owned, members]
  exact ⟨by rw [facts, owned]; exact knows.slots, by rw [facts, share]; exact knows.target,
    by rw [blanks, share]; exact knows.blanks, by rw [blanks]; exact knows.distinct,
    by rw [loose]; exact knows.loose, by rw [facts]; exact knows.closed,
    by rw [homeless]; exact knows.homeless, by rw [child]; exact knows.child⟩

end Frame

namespace Core

variable {k : Kernel} {views : Pslot → View} {p : Pslot} {view : View} {t : State}

theorem accounts_update (k : Kernel) (views : Pslot → View) (p : Pslot) (view : View) :
    accounts k (update views p view) =
      update (accounts k views) p (Account.of (k.proc p) view.holds) := by
  funext q
  by_cases same : q = p
  · subst same
    simp
  · simp [same]

variable {f : Fslot}

variable (core : Core k views) (live : (k.proc p).life = .live)
include core live

omit live in
theorem two_le_ref {q : Pslot} (other : p ≠ q) (first : 0 < (accounts k views p).fileShare f)
    (second : 0 < (accounts k views q).fileShare f) : 2 ≤ (k.file f).ref := by
  have both := core.exact.two_fileShares_le other f
  omega

theorem step {k' : Kernel} (others : ∀ q, q ≠ p → k'.proc q = k.proc q)
    (resting : (k'.proc p).life ≠ .live → view = base)
    (unused : (k'.proc p).life = .unused → (∀ fd, (k'.proc p).ofile fd = none) ∧
      (k'.proc p).cwd = none)
    (spares : ∀ q, q ≠ p → Spares k.file k'.file (accounts k views q) (views q).holds.blanks)
    (exact : Exact k'.fs.shape k'.file
      (update (accounts k views) p (Account.of (k'.proc p) view.holds)))
    (locks : ∀ ip q, k'.fs.shape.lock ip = some q ↔ ip ∈ (update views p view q).holds.locked)
    (nodup : view.holds.locked.Nodup) (knows : Knows k'.file k'.proc p view)
    (child : ∀ x, view.holds.child = some x → (views p).holds.child = some x) :
    Core k' (update views p view) where
  exact := by
    have same : accounts k' (update views p view) =
        update (accounts k views) p (Account.of (k'.proc p) view.holds) := by
      rw [accounts_update]
      funext q
      by_cases same : q = p
      · subst same
        simp
      · simp [same, others q same]
    rw [same]
    exact exact
  locks := locks
  nodup q := update_cases rfl q nodup fun q _ => core.nodup q
  knows q := update_cases rfl q knows fun q same => by
    refine (core.knows q).frame (others q same) (fun c n known => others c ?_) (spares q same)
    rintro rfl
    have forming := ((core.knows q).child c n known).2.1
    rw [live] at forming
    cases forming
  children q r c n m first second := by
    have before : ∀ q x, (update views p view q).holds.child = some x →
        (views q).holds.child = some x := fun q => update_cases rfl q child fun _ _ _ => id
    exact core.children q r c n m (before q _ first) (before r _ second)
  resting q := update_cases rfl q resting fun q other => others q other ▸ core.resting q
  unused q := by
    rcases eq_or_ne q p with rfl | other
    · exact unused
    · exact others q other ▸ core.unused q

theorem fs
    (exact : Exact t.shape k.file (update (accounts k views) p (Account.of (k.proc p) view.holds)))
    (locks : ∀ ip q, t.shape.lock ip = some q ↔ ip ∈ (update views p view q).holds.locked)
    (nodup : view.holds.locked.Nodup) (knows : Knows k.file k.proc p view)
    (child : view.holds.child = (views p).holds.child) :
    Core { k with fs := t } (update views p view) :=
  core.step live (fun _ _ => rfl) (absurd live) (core.unused p) (fun _ _ => spares_refl _ _) exact
    locks nodup knows (child ▸ fun _ => id)

omit live in
theorem locks_same (lock : t.shape.lock = k.fs.shape.lock)
    (locked : view.holds.locked = (views p).holds.locked) (ip : Slot) (q : Pslot) :
    t.shape.lock ip = some q ↔ ip ∈ (update views p view q).holds.locked := by
  rw [lock, core.locks]
  exact update_cases rfl q (by rw [locked]) fun _ _ => .rfl

theorem refs
    (exact : Exact t.shape k.file (update (accounts k views) p (Account.of (k.proc p) view.holds)))
    (lock : t.shape.lock = k.fs.shape.lock) (locked : view.holds.locked = (views p).holds.locked)
    (knows : Knows k.file k.proc p view) (child : view.holds.child = (views p).holds.child) :
    Core { k with fs := t } (update views p view) :=
  core.fs live exact (core.locks_same lock locked) (locked ▸ core.nodup p) knows child

theorem quiet (shape : t.shape = k.fs.shape)
    (account : Account.of (k.proc p) view.holds = accounts k views p)
    (locked : view.holds.locked = (views p).holds.locked) (knows : Knows k.file k.proc p view)
    (child : view.holds.child = (views p).holds.child) :
    Core { k with fs := t } (update views p view) := by
  refine core.refs live ?_ (by rw [shape]) locked knows child
  rw [shape, account, update_eq_self]
  exact core.exact

variable {ip : Slot}

theorem addRef (shape : t.shape = k.fs.shape.addRef ip)
    (account : Account.of (k.proc p) view.holds = { accounts k views p with refs := ip :: (accounts
      k views p).refs }) (locked : view.holds.locked = (views p).holds.locked)
    (knows : Knows k.file k.proc p view) (child : view.holds.child = (views p).holds.child) :
    Core { k with fs := t } (update views p view) := by
  refine core.refs live ?_ (by rw [shape]; rfl) locked knows child
  rw [shape, account]
  exact core.exact.addRef p ip

theorem ilock (free : k.fs.shape.lock ip = none)
    (shape : t.shape = k.fs.shape.setLock ip (some p)) :
    ip ∉ (views p).holds.locked ∧
      Core { k with fs := t } (update views p (after (views p) (.ilock ip) ())) := by
  have unlocked : ∀ q, ip ∉ (views q).holds.locked := by
    intro q member
    rw [← core.locks, free] at member
    cases member
  refine ⟨unlocked p, core.fs live ?_ (fun jp q => ?_) ?_ ?_ rfl⟩
  · have same : Account.of (k.proc p) (after (views p) (.ilock ip) ()).holds =
        accounts k views p := rfl
    rw [shape, same, update_eq_self]
    exact ⟨core.exact.held, core.exact.outstanding, core.exact.files, core.exact.inodes,
      core.exact.unused⟩
  · have before := core.locks jp q
    rw [shape]
    by_cases here : jp = ip
    · subst here
      by_cases same : q = p
      · subst same
        simp
      · simp [same, unlocked q, Ne.symm same]
    · by_cases same : q = p
      · subst same
        simpa [here] using before
      · simpa [same, here] using before
  · exact List.nodup_cons.mpr ⟨unlocked p, core.nodup p⟩
  · exact (core.knows p).keep rfl rfl

theorem iunlock (member : ip ∈ (views p).holds.locked)
    (shape : t.shape = k.fs.shape.setLock ip none) :
    Core { k with fs := t } (update views p (after (views p) (.iunlock ip) ())) := by
  have holder : k.fs.shape.lock ip = some p := (core.locks ip p).mpr member
  refine core.fs live ?_ (fun jp q => ?_) ?_ ?_ rfl
  · have same : Account.of (k.proc p) (after (views p) (.iunlock ip) ()).holds =
        accounts k views p := rfl
    rw [shape, same, update_eq_self]
    exact ⟨core.exact.held, core.exact.outstanding, core.exact.files, core.exact.inodes,
      core.exact.unused⟩
  · have before := core.locks jp q
    rw [shape]
    by_cases here : jp = ip
    · subst here
      by_cases same : q = p
      · subst same
        simp [(core.nodup q).mem_erase_iff]
      · rw [holder] at before
        simpa [same, Ne.symm same] using before
    · by_cases same : q = p
      · subst same
        simpa [here, List.mem_erase_of_ne here] using before
      · simpa [same, here] using before
  · exact (core.nodup p).erase ip
  · exact (core.knows p).keep rfl rfl

theorem iputStart {freed : Bool} (member : ip ∈ (views p).holds.refs)
    (settled : (views p).holds.dying = none)
    (shape : t.shape = if freed then k.fs.shape else k.fs.shape.dropRef ip) :
    Core { k with fs := t } (update views p (after (views p) (.iputStart ip) freed)) := by
  refine core.refs live ?_ ?_ rfl ?_ rfl
  · cases freed with
    | true =>
      rw [shape]
      exact core.exact.die p member settled
    | false =>
      have account : Account.of (k.proc p) (after (views p) (.iputStart ip) false).holds =
          { accounts k views p with refs := (accounts k views p).refs.erase ip } := by
        simp [put, settled]
      rw [shape, account]
      exact core.exact.dropRef p member
  · rw [shape]
    cases freed <;> rfl
  · exact (core.knows p).keep rfl rfl

theorem iputEnd (dying : (views p).holds.dying = some ip)
    (shape : t.shape = k.fs.shape.dropRef ip) :
    Core { k with fs := t } (update views p (after (views p) (.iputEnd ip) ())) := by
  refine core.refs live ?_ (by rw [shape]; rfl) rfl ?_ rfl
  · rw [shape]
    exact core.exact.dropDying p dying
  · exact (core.knows p).keep rfl rfl

theorem beginOp (outside : (views p).holds.tx = false)
    (shape : t.shape = { k.fs.shape with outstanding := k.fs.shape.outstanding + 1 }) :
    Core { k with fs := t } (update views p (after (views p) .beginOp ())) := by
  refine core.refs live ?_ (by rw [shape]) rfl ?_ rfl
  · refine core.exact.move_inodes p _ rfl rfl (by rw [shape]) ?_ fun ip => by rw [shape]; rfl
    simp [shape, Account.txShare, outside]
  · exact (core.knows p).keep rfl rfl

theorem endOp (inside : (views p).holds.tx = true)
    (shape : t.shape = { k.fs.shape with outstanding := k.fs.shape.outstanding - 1 }) :
    Core { k with fs := t } (update views p (after (views p) .endOp ())) := by
  refine core.refs live ?_ (by rw [shape]) rfl ?_ rfl
  · refine core.exact.move_inodes p _ rfl rfl (by rw [shape]) ?_ fun ip => by rw [shape]; rfl
    have enough := core.exact.txShare_le p
    simp only [shape, accounts, Account.txShare, Account.of, after, inside] at enough ⊢
    simp only [if_true, Bool.false_eq_true, if_false] at enough ⊢
    omega
  · exact (core.knows p).keep rfl rfl

theorem own {k' : Kernel} (fs : k'.fs = k.fs) (others : ∀ q, q ≠ p → k'.proc q = k.proc q)
    (life : (k'.proc p).life = .live)
    (spares : ∀ q, q ≠ p → Spares k.file k'.file (accounts k views q) (views q).holds.blanks)
    (exact : Exact k.fs.shape k'.file (update (accounts k views) p (Account.of (k'.proc p)
      view.holds))) (locked : view.holds.locked = (views p).holds.locked)
    (knows : Knows k'.file k'.proc p view) (child : view.holds.child = (views p).holds.child) :
    Core k' (update views p view) :=
  core.step live others (absurd life) (by simp [life]) spares (fs ▸ exact)
    (core.locks_same (by rw [fs]) locked) (locked ▸ core.nodup p) knows (child ▸ fun _ => id)

theorem onFile {new : File}
    (spares : ∀ q, q ≠ p → 0 < (accounts k views q).fileShare f → 2 ≤ (k.file f).ref ∧ new.type =
      (k.file f).type ∧ new.ip = (k.file f).ip)
    (exact : Exact k.fs.shape (update k.file f new) (update (accounts k views) p (Account.of (k.proc
      p) view.holds))) (locked : view.holds.locked = (views p).holds.locked)
    (knows : Knows (update k.file f new) k.proc p view)
    (child : view.holds.child = (views p).holds.child) :
    Core { k with file := update k.file f new } (update views p view) := by
  refine core.own live rfl (fun q _ => rfl) live (fun q other g share => ?_) exact locked knows
    child
  by_cases same : g = f
  · subst same
    obtain ⟨many, rest⟩ := spares q other share
    exact .inr ⟨.inl many, by simpa using rest⟩
  · exact .inl (update_of_ne same ..)

theorem filealloc (free : (k.file f).ref = 0) :
    Core { k with file := update k.file f { k.file f with ref := 1 } }
      (update views p (after (views p) .filealloc (some f))) := by
  have closed : (k.file f).type = .none := core.exact.unused f free
  have alone : ∀ q, (accounts k views q).fileShare f = 0 := fun q => by
    have most := core.exact.fileShare_le q f
    omega
  have old := core.knows p
  have gain : ∀ g, (Account.of (k.proc p) (after (views p) .filealloc (some f)).holds).fileShare g =
      (accounts k views p).fileShare g + weight g (some f) := by
    intro g
    have account : Account.of (k.proc p) (after (views p) .filealloc (some f)).holds =
        { accounts k views p with files := f :: (accounts k views p).files } := rfl
    have count := count_cons_weight g f (accounts k views p).files
    rw [account]
    simp only [Account.fileShare]
    omega
  refine core.onFile live (fun q _ share => ?_) ?_ rfl ?_ rfl
  · have none := alone q
    omega
  · refine core.exact.move_file p f _ _ rfl (Exact.share_move 0 1 (by simpa using gain)
      (by simp [free])) (fun ip => ?_) (by simp)
    rw [inodeOf_blank closed, inodeOf_blank (x := { k.file f with ref := 1 }) closed]
    rfl
  · have others : ∀ g, g ≠ f → update k.file f { k.file f with ref := 1 } g = k.file g :=
      fun g other => update_of_ne other ..
    refine ⟨old.slots, fun g ip known => ?_, fun g member => ?_, ?_, old.loose, old.closed,
      old.homeless, old.child⟩
    · obtain ⟨inode, share⟩ := old.target g ip known
      have other : g ≠ f := by
        rintro rfl
        exact absurd (alone p) (ne_of_gt share)
      rw [others g other, gain]
      exact ⟨inode, lt_of_lt_of_le share (Nat.le_add_right _ _)⟩
    · rw [gain]
      rcases List.mem_cons.mp member with same | member
      · subst same
        simp [closed]
      · obtain ⟨type, ref, share⟩ := old.blanks g member
        have other : g ≠ f := by
          rintro rfl
          omega
        rw [others g other]
        exact ⟨type, ref, lt_of_lt_of_le share (Nat.le_add_right _ _)⟩
    · refine List.nodup_cons.mpr ⟨fun member => ?_, old.distinct⟩
      have ref := (old.blanks f member).2.1
      omega

omit live in
/-- Others that have a share of a file of the process find two references. -/
theorem shared (mine : 0 < (accounts k views p).fileShare f) (q : Pslot) (other : q ≠ p)
    (share : 0 < (accounts k views q).fileShare f) : 2 ≤ (k.file f).ref :=
  core.two_le_ref (Ne.symm other) mine share

omit live in
/-- Nobody else has a share of a file with one reference. -/
theorem unshared (mine : 0 < (accounts k views p).fileShare f) (single : (k.file f).ref = 1)
    (q : Pslot) (other : q ≠ p) : ¬ 0 < (accounts k views q).fileShare f := by
  intro share
  have many := core.shared mine q other share
  omega

omit live in
theorem slot_share {fd : Fd} (slot : (fd, f) ∈ (views p).facts.slots) :
    0 < (accounts k views p).fileShare f :=
  Account.fileShare_pos_of_owned ((core.knows p).slots fd f slot)

theorem filedup {fd : Fd} (loose : (views p).holds.loose = some (fd, f))
    (mine : 0 < (accounts k views p).fileShare f) (typed : f ∉ (views p).holds.blanks) :
    Core { k with file := update k.file f { k.file f with ref := (k.file f).ref + 1 } }
      (update views p (after (views p) (.filedup f) ())) := by
  have old := core.knows p
  have unowned : (accounts k views p).owned fd = none := by
    simp [loose]
  have account : Account.of (k.proc p) (after (views p) (.filedup f) ()).holds =
      { accounts k views p with
        owned := update (accounts k views p).owned fd (some f)
        files := (accounts k views p).files } := by
    have held := old.loose fd f loose
    refine Account.ext rfl (funext fun d => ?_) rfl rfl rfl rfl
    by_cases same : d = fd
    · subst same
      simp [held]
    · simp [loose, same, Ne.symm same]
  have gain : ∀ g, (Account.of (k.proc p) (after (views p) (.filedup f) ()).holds).fileShare g =
      (accounts k views p).fileShare g + weight g (some f) := by
    intro g
    have total := Account.fileShare_update (accounts k views p) fd (some f)
      (accounts k views p).files g
    rw [unowned, weight_none] at total
    rw [account]
    dsimp only at total ⊢
    omega
  refine core.onFile live (fun q other share => ⟨core.shared mine q other share, rfl, rfl⟩) ?_ rfl
    ?_ rfl
  · refine core.exact.move_file p f _ _ rfl (Exact.share_move 0 1 (by simpa using gain) rfl)
      (fun ip => ?_) (by simp)
    rw [account]
    rfl
  · refine ⟨fun d g slot => ?_, fun g ip known => ?_, fun g member => ?_, old.distinct, ?_,
      old.closed, old.homeless, old.child⟩
    · have owned : (accounts k views p).owned d = some g := old.slots d g slot
      have other : d ≠ fd := by
        rintro rfl
        rw [unowned] at owned
        cases owned
      rw [account]
      exact (update_of_ne other ..).trans owned
    · obtain ⟨inode, share⟩ := old.target g ip known
      rw [gain, ← inode]
      exact ⟨update_cases rfl g (inodeOf_congr rfl rfl) fun _ _ => rfl,
        lt_of_lt_of_le share (Nat.le_add_right _ _)⟩
    · have other : g ≠ f := by
        rintro rfl
        exact typed member
      obtain ⟨type, ref, share⟩ := old.blanks g member
      rw [update_of_ne other, gain]
      exact ⟨type, ref, lt_of_lt_of_le share (Nat.le_add_right _ _)⟩
    · intro d g known
      cases known

variable {fd : Option Fd}

section

variable (ready : pre (.fileclose f fd) (views p))
include ready

omit live in
/-- `fileclose` takes one reference to the file out of the account. -/
theorem fileclose_loss (result : Option File) (g : Fslot) :
    (Account.of (k.proc p) (after (views p) (.fileclose f fd) result).holds).fileShare g +
      weight g (some f) = (accounts k views p).fileShare g := by
  cases fd with
  | none =>
    have account : Account.of (k.proc p) (after (views p) (.fileclose f none) result).holds =
        { accounts k views p with
          files := (accounts k views p).files.erase f
          refs := (result.bind inodeOf).toList ++ (accounts k views p).refs } := rfl
    have count := count_erase_add g (show _ ∈ (accounts k views p).files from ready)
    rw [account]
    simp only [Account.fileShare]
    omega
  | some fd =>
    obtain ⟨slot, tight⟩ := ready
    have owned := (core.knows p).slots fd f slot
    have account : Account.of (k.proc p) (after (views p) (.fileclose f (some fd)) result).holds =
        { accounts k views p with
          owned := update (accounts k views p).owned fd none
          files := (accounts k views p).files
          refs := (result.bind inodeOf).toList ++ (accounts k views p).refs } := by
      refine Account.ext rfl (funext fun d => ?_) rfl rfl rfl rfl
      by_cases same : d = fd
      · subst same
        simp
      · simp [tight, same, Ne.symm same]
    have total := Account.fileShare_update (accounts k views p) fd none (accounts k views p).files g
    rw [show (accounts k views p).owned fd = some f from owned, weight_none] at total
    rw [account]
    simp only [Account.fileShare] at total ⊢
    omega

omit live in
/-- A file that `fileclose` is called for is one of the process. -/
theorem fileclose_share : 0 < (accounts k views p).fileShare f := by
  cases fd with
  | none => exact Account.fileShare_pos_of_mem ready
  | some fd => exact core.slot_share ready.1

/-- What `fileclose` returns and leaves of the file. -/
inductive Closed (old : File) : Option File → File → Prop
  | shared (many : 2 ≤ old.ref) : Closed old none { old with ref := old.ref - 1 }
  | last (one : old.ref = 1) : Closed old (some old) { old with ref := 0, type := .none }

theorem fileclose {result : Option File} {new : File} (closed : Closed (k.file f) result new) :
    Core { k with file := update k.file f new }
      (update views p (after (views p) (.fileclose f fd) result)) := by
  have old := core.knows p
  have mine := core.fileclose_share ready
  have loss := core.fileclose_loss ready result
  have single : new.ref + 1 = (k.file f).ref := by
    cases closed with
    | shared many => simp only []; omega
    | last one => simp [one]
  have blank : ∀ g ∈ (views p).holds.blanks.erase f, g ≠ f ∧ g ∈ (views p).holds.blanks :=
    fun g member => old.distinct.mem_erase_iff.mp member
  refine core.onFile live (fun q other share => ?_) ?_ rfl ?_ rfl
  · have many := core.shared mine q other share
    cases closed with
    | shared _ => exact ⟨many, rfl, rfl⟩
    | last one => omega
  · refine core.exact.move_file p f _ _ rfl (Exact.share_move 1 0 (by simpa using loss) single)
      (fun ip => ?_) ?_
    · cases closed with
      | shared many => rfl
      | last one =>
        have closing : inodeOf { k.file f with ref := 0, type := .none } = none :=
          inodeOf_blank rfl
        have account : (Account.of (k.proc p)
            (after (views p) (.fileclose f fd) (some (k.file f))).holds).inodeShare ip =
            ((inodeOf (k.file f)).toList ++ (accounts k views p).refs).count ip +
              weight ip (accounts k views p).dying + weight ip (accounts k views p).home := rfl
        rw [closing, account, List.count_append]
        simp only [Account.inodeShare, weight_none]
        cases inodeOf (k.file f) with
        | none => simp
        | some jp =>
          rw [Option.toList_some, count_cons_weight, List.count_nil]
          omega
    · cases closed with
      | shared many =>
        intro zero
        simp only [] at zero
        omega
      | last one => simp
  · refine ⟨?_, ?_, fun g member => ?_, ?_, ?_, old.closed, old.homeless, old.child⟩
    · simp
    · simp
    · obtain ⟨other, member⟩ := blank g member
      obtain ⟨type, ref, share⟩ := old.blanks g member
      have same := loss g
      rw [weight_some, if_neg (Ne.symm other)] at same
      rw [update_of_ne other]
      refine ⟨type, ref, ?_⟩
      have share' : 0 < (accounts k views p).fileShare g := share
      omega
    · exact old.distinct.erase f
    · intro d g known
      cases fd with
      | none => exact old.loose d g known
      | some fd =>
        obtain ⟨slot, tight⟩ := ready
        have owned := old.slots fd f slot
        have pair : (fd, f) = (d, g) := by simpa using known
        cases pair
        simpa [tight] using owned

end

theorem openFile {omode : BitVec 32} {node : Dinode}
    (ready : pre (.openFile f ip omode) (views p)) :
    Core { k with file := update k.file f ((k.file f).opened ip node omode) }
      (update views p (after (views p) (.openFile f ip omode) ())) := by
  have old := core.knows p
  obtain ⟨blank, _, referenced, _⟩ := ready
  obtain ⟨type, ref, mine⟩ := old.blanks f blank
  have opened : inodeOf ((k.file f).opened ip node omode) = some ip := by
    simp only [inodeOf, File.opened]
    split_ifs <;> rfl
  have rest : ∀ g ∈ (views p).holds.blanks.erase f, g ≠ f ∧ g ∈ (views p).holds.blanks :=
    fun g member => old.distinct.mem_erase_iff.mp member
  refine core.onFile live (fun q other share => ?_) ?_ rfl ?_ rfl
  · exact (core.unshared mine ref q other share).elim
  · refine core.exact.move_file p f _ _ rfl (fun g => ?_) (fun jp => ?_) ?_
    · exact update_cases rfl g rfl fun _ _ => rfl
    · have count := count_erase_add jp referenced
      have account : (Account.of (k.proc p)
          (after (views p) (.openFile f ip omode) ()).holds).inodeShare jp =
          ((views p).holds.refs.erase ip).count jp + weight jp (accounts k views p).dying +
            weight jp (accounts k views p).home := rfl
      have before : (accounts k views p).inodeShare jp =
          (views p).holds.refs.count jp + weight jp (accounts k views p).dying +
            weight jp (accounts k views p).home := rfl
      rw [opened, inodeOf_blank type, weight_none, account, before]
      omega
    · intro zero
      have none : (k.file f).ref = 0 := zero
      omega
  · refine ⟨old.slots, fun g jp known => ?_, fun g member => ?_, old.distinct.erase f, old.loose,
      old.closed, old.homeless, old.child⟩
    · obtain ⟨rfl, rfl⟩ : f = g ∧ ip = jp := by simpa using known
      rw [update_self]
      exact ⟨opened, mine⟩
    · obtain ⟨other, member⟩ := rest g member
      rw [update_of_ne other]
      exact old.blanks g member

theorem advance {off : Nat} (target : (views p).facts.target = some (f, ip)) :
    Core { k with file := update k.file f { k.file f with off } } (update views p (views p)) := by
  have old := core.knows p
  obtain ⟨inode, mine⟩ := old.target f ip target
  have same : ∀ g, inodeOf (update k.file f { k.file f with off } g) = inodeOf (k.file g) ∧
        (update k.file f { k.file f with off } g).ref = (k.file g).ref ∧
        (update k.file f { k.file f with off } g).type = (k.file g).type := by
    exact fun g => update_cases rfl g ⟨inodeOf_congr rfl rfl, rfl, rfl⟩ fun _ _ => ⟨rfl, rfl, rfl⟩
  refine core.onFile live (fun q other share => ⟨core.shared mine q other share, rfl, rfl⟩) ?_ rfl
    ?_ rfl
  · refine core.exact.move_file p f _ _ rfl (fun g => ?_) (fun jp => ?_) ?_
    · rw [(same g).2.1]
      rfl
    · rw [inodeOf_congr (x := { k.file f with off }) (y := k.file f) rfl rfl]
      rfl
    · exact core.exact.unused f
  · refine ⟨old.slots, fun g jp known => ?_, fun g member => ?_, old.distinct, old.loose,
      old.closed, old.homeless, old.child⟩
    · rw [(same g).1]
      exact old.target g jp known
    · rw [(same g).2.1, (same g).2.2]
      exact old.blanks g member

theorem openPipe {f0 f1 : Fslot} (ready : pre (.openPipe f0 f1) (views p)) {file' : Fslot → File}
    (others : ∀ g, g ≠ f0 → g ≠ f1 → file' g = k.file g) (ref : ∀ g, (file' g).ref = (k.file g).ref)
    (pipes : ∀ g, g = f0 ∨ g = f1 → (file' g).type = .pipe) :
    Core { k with file := file' } (update views p (after (views p) (.openPipe f0 f1) ())) := by
  have old := core.knows p
  have mine : ∀ g, g = f0 ∨ g = f1 → (k.file g).type = .none ∧ (k.file g).ref = 1 ∧
      0 < (accounts k views p).fileShare g := by
    rintro g (rfl | rfl)
    · exact old.blanks g ready.1
    · exact old.blanks g ready.2
  have cases : ∀ g, (g = f0 ∨ g = f1) ∨ (g ≠ f0 ∧ g ≠ f1) := fun g => by tauto
  have inode : ∀ g, inodeOf (file' g) = inodeOf (k.file g) := by
    intro g
    rcases cases g with one | ⟨first, second⟩
    · rw [inodeOf_blank (mine g one).1]
      simp [inodeOf, pipes g one]
    · rw [others g first second]
  refine core.own live rfl (fun q _ => rfl) live (fun q other g share => ?_) ?_ rfl ?_ rfl
  · rcases cases g with one | ⟨first, second⟩
    · exact (core.unshared (mine g one).2.2 (mine g one).2.1 q other share).elim
    · exact .inl (others g first second)
  · have account : Account.of (k.proc p) (after (views p) (.openPipe f0 f1) ()).holds =
        accounts k views p := rfl
    rw [account]
    refine core.exact.move p _ core.exact.held rfl (fun g => ?_) (fun ip => ?_) fun g zero => ?_
    · rw [ref]
    · simp only [opens, inode]
    · rcases cases g with one | ⟨first, second⟩
      · have alive := (mine g one).2.1
        rw [ref] at zero
        omega
      · rw [ref] at zero
        dsimp only
        rw [others g first second]
        exact core.exact.unused g zero
  · refine ⟨old.slots, fun g jp known => ?_, fun g member => ?_, ?_, old.loose, old.closed,
      old.homeless, old.child⟩
    · rw [inode]
      exact old.target g jp known
    · obtain ⟨second, member⟩ := (old.distinct.erase f0).mem_erase_iff.mp member
      obtain ⟨first, member⟩ := old.distinct.mem_erase_iff.mp member
      dsimp only
      rw [others g first second]
      exact old.blanks g member
    · exact (old.distinct.erase f0).erase f1

theorem learn (holds : view.holds = (views p).holds) (knows : Knows k.file k.proc p view) :
    Core k (update views p view) := by
  refine core.own live rfl (fun q _ => rfl) live (fun q _ => spares_refl _ _) ?_ (by rw [holds])
    knows (by rw [holds])
  have account : Account.of (k.proc p) view.holds = accounts k views p := by
    rw [holds]
    rfl
  rw [account, update_eq_self]
  exact core.exact

theorem file (ready : pre (.file f) (views p)) :
    Core k (update views p (after (views p) (.file f) (k.file f))) := by
  have old := core.knows p
  have mine : 0 < (accounts k views p).fileShare f := by
    rcases ready with ⟨fd, slot⟩ | ⟨ip, known⟩
    · exact core.slot_share slot
    · exact (old.target f ip known).2
  simp only [after]
  split
  · exact core.learn live rfl old
  refine core.learn live rfl ⟨old.slots, fun g ip known => ?_, old.blanks, old.distinct,
    old.loose, old.closed, old.homeless, old.child⟩
  simp only [Option.map_eq_some_iff, Prod.mk.injEq] at known
  obtain ⟨jp, inode, rfl, rfl⟩ := known
  exact ⟨inode, mine⟩

end Core

end OsLab.Fs
