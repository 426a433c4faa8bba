import OsLab.Fs.Core

/-!
# The operations move references as specified

The steps that change descriptors, current directories and processes, and then every operation: if
what its specification asks for is held and known, then what it promises is held and known after it,
whatever is on the disk.
-/

namespace OsLab.Fs

open View Function Option

namespace Core

variable {k : Kernel} {views : Pslot → View} {p : Pslot} {view : View}

attribute [local simp] Account.of Kernel.setProc Kernel.setOfile Kernel.setFile accounts after idle

variable (core : Core k views) (live : (k.proc p).life = .live)
include core live

/-- A step of a process that changes its own entry only. -/
theorem onProc {q' : Process} (life : q'.life = .live)
    (exact : Exact k.fs.shape k.file (update (accounts k views) p (Account.of q' view.holds)))
    (locked : view.holds.locked = (views p).holds.locked)
    (knows : Knows k.file (update k.proc p q') p view)
    (child : view.holds.child = (views p).holds.child) :
    Core { k with proc := update k.proc p q' } (update views p view) := by
  refine core.own live rfl (fun q other => update_of_ne other ..) ?_
    (fun q _ => spares_refl _ _) ?_ locked knows child
  · simpa using life
  · simpa using exact

variable {fd : Fd}

/-- Looking at a descriptor tells which file is there, or that there is none. -/
theorem ofile (tight : (views p).holds.loose = none) :
    Core k (update views p (after (views p) (.ofile fd) ((k.proc p).ofile fd))) := by
  have old := core.knows p
  refine core.learn live rfl ⟨fun d f slot => ?_, old.target, old.blanks, old.distinct,
    old.loose, fun d low => ?_, old.homeless, old.child⟩
  · simp only [after, mem_toList, map_eq_some_iff, Prod.mk.injEq] at slot
    obtain ⟨g, held, rfl, rfl⟩ := slot
    simpa [tight] using held
  simp only [after] at low
  split at low
  · rename_i next
    by_cases same : d.val = (views p).facts.closed
    · have here : d = fd := Fin.ext (same.trans next.2.symm)
      rw [here]
      exact next.1
    · exact old.closed d (by omega)
  · exact old.closed d low

omit live in
/-- What a process knows stays so when its references move within its own entry. -/
theorem knows_shift {q' : Process}
    (share : ∀ g, (Account.of q' view.holds).fileShare g = (accounts k views p).fileShare g)
    (slots : ∀ fd f, (fd, f) ∈ view.facts.slots → (Account.of q' view.holds).owned fd = some f)
    (target : view.facts.target = (views p).facts.target ∨ view.facts.target = none)
    (blanks : view.holds.blanks = (views p).holds.blanks)
    (loose : ∀ fd f, view.holds.loose = some (fd, f) → q'.ofile fd = some f)
    (closed : ∀ fd : Fd, fd.val < view.facts.closed → q'.ofile fd = none)
    (homeless : view.holds.homeless = true → q'.cwd = none)
    (child : view.holds.child = (views p).holds.child) :
    Knows k.file (update k.proc p q') p view := by
  have old := core.knows p
  have same : update k.proc p q' p = q' := update_self ..
  refine ⟨?_, fun f ip known => ?_, fun f member => ?_, blanks ▸ old.distinct, ?_, ?_, ?_,
    fun c n known => ?_⟩
  · rw [same]
    exact slots
  · rw [same, share]
    rcases target with kept | none
    · exact old.target f ip (kept ▸ known)
    · rw [none] at known
      cases known
  · rw [same, share]
    exact old.blanks f (blanks ▸ member)
  · rw [same]
    exact loose
  · rw [same]
    exact closed
  · rw [same]
    exact homeless
  · obtain ⟨other, forming, rest⟩ := old.child c n (child ▸ known)
    rw [update_of_ne other]
    exact ⟨other, forming, rest⟩

omit live in
/-- Clearing one descriptor leaves the cleared ones clear. -/
theorem closed_clear {d : Fd} (low : d.val < (after (views p) (.clearOfile fd) ()).facts.closed) :
    update (k.proc p).ofile fd none d = none := by
  rcases eq_or_ne d fd with rfl | other
  · exact update_self ..
  rw [update_of_ne other]
  refine (core.knows p).closed d ?_
  have differs : d.val ≠ fd.val := fun same => other (Fin.ext same)
  simp only [after] at low
  split at low <;> omega

variable {f : Fslot}

/-- The descriptor of a file that is already closed is cleared. -/
theorem clearLoose (loose : (views p).holds.loose = some (fd, f)) :
    Core (k.setOfile p fd none) (update views p (after (views p) (.clearOfile fd) ())) := by
  have old := core.knows p
  have account : Account.of { k.proc p with ofile := update (k.proc p).ofile fd none }
      (after (views p) (.clearOfile fd) ()).holds = accounts k views p := by
    refine Account.ext rfl (funext fun d => ?_) ?_ rfl rfl rfl
    · by_cases same : d = fd
      · subst same
        simp [loose]
      · simp [loose, same, Ne.symm same]
    · simp [loose]
  refine core.onProc live live ?_ rfl ?_ rfl
  · rw [account, update_eq_self]
    exact core.exact
  refine core.knows_shift (fun g => by rw [account]) (fun d g slot => ?_) (.inr rfl) rfl ?_
    (fun _ => core.closed_clear) old.homeless rfl
  · rw [account]
    exact old.slots d g (List.mem_of_mem_filter slot)
  · simp

/-- The descriptor is cleared first and its reference is then loose. -/
theorem clearSlot (tight : (views p).holds.loose = none) (slot : (fd, f) ∈ (views p).facts.slots) :
    Core (k.setOfile p fd none) (update views p (after (views p) (.clearOfile fd) ())) := by
  have old := core.knows p
  have owned := old.slots fd f slot
  have found : (views p).facts.slots.lookup fd = some f := by
    cases lookup : (views p).facts.slots.lookup fd with
    | none =>
      rw [List.lookup_eq_none_iff] at lookup
      simpa using lookup _ slot
    | some g =>
      obtain ⟨before, rest, split, _⟩ := List.lookup_eq_some_iff.mp lookup
      have member : (fd, g) ∈ (views p).facts.slots := by simp [split]
      have other := old.slots fd g member
      rw [owned] at other
      exact other.symm
  have account : Account.of { k.proc p with ofile := update (k.proc p).ofile fd none }
      (after (views p) (.clearOfile fd) ()).holds =
      { accounts k views p with
        owned := update (accounts k views p).owned fd none
        files := f :: (accounts k views p).files } := by
    refine Account.ext rfl (funext fun d => ?_) ?_ rfl rfl rfl
    · by_cases same : d = fd
      · subst same
        simp
      · simp [tight, same]
    · simp [tight, found]
  have balance : ∀ g,
      weight g ((accounts k views p).owned fd) + (accounts k views p).files.count g =
      weight g none + (f :: (accounts k views p).files).count g := by
    intro g
    rw [show (accounts k views p).owned fd = some f from owned, count_cons_weight, weight_none]
    omega
  refine core.onProc live live ?_ rfl ?_ rfl
  · rw [account]
    exact core.exact.shift p fd none _ balance
  refine core.knows_shift (fun g => ?_) (fun d g listed => ?_) (.inr rfl) rfl ?_
    (fun _ => core.closed_clear) old.homeless rfl
  · have total := Account.fileShare_update (accounts k views p) fd none
      (f :: (accounts k views p).files) g
    have even := balance g
    rw [account]
    dsimp only at total ⊢
    omega
  · obtain ⟨listed, other⟩ := List.mem_filter.mp listed
    rw [account]
    exact (update_of_ne (by simpa using other) ..).trans (old.slots d g listed)
  · simp

/-- A free descriptor takes over the reference of a file. -/
theorem fdalloc (ready : pre (.fdalloc f) (views p)) (free : (k.proc p).ofile fd = none) :
    (∀ g, (fd, g) ∉ (views p).facts.slots) ∧ Core (k.setOfile p fd (some f))
        (update views p (after (views p) (.fdalloc f) (some fd))) := by
  have old := core.knows p
  obtain ⟨tight, _⟩ := ready
  have unowned : (accounts k views p).owned fd = none := by
    simp [free]
  have unlisted : ∀ g, (fd, g) ∉ (views p).facts.slots := by
    intro g slot
    have owned := old.slots fd g slot
    rw [show (Account.of (k.proc p) (views p).holds).owned fd = none from unowned] at owned
    cases owned
  refine ⟨unlisted, ?_⟩
  by_cases spare : f ∈ (views p).holds.files
  · have account : Account.of { k.proc p with ofile := update (k.proc p).ofile fd (some f) }
        (after (views p) (.fdalloc f) (some fd)).holds =
        { accounts k views p with
          owned := update (accounts k views p).owned fd (some f)
          files := (accounts k views p).files.erase f } := by
      refine Account.ext rfl (funext fun d => ?_) rfl rfl rfl rfl
      by_cases same : d = fd
      · subst same
        simp [spare]
      · simp [tight, spare, same]
    have balance : ∀ g, weight g ((accounts k views p).owned fd) +
        (accounts k views p).files.count g =
        weight g (some f) + ((accounts k views p).files.erase f).count g := by
      intro g
      have count := count_erase_add g (show _ ∈ (accounts k views p).files from spare)
      rw [unowned, weight_none]
      omega
    refine core.onProc live live ?_ rfl ?_ rfl
    · rw [account]
      exact core.exact.shift p fd (some f) _ balance
    refine core.knows_shift (fun g => ?_) (fun d g listed => ?_) (.inl rfl) rfl ?_
      (fun d low => ?_) old.homeless rfl
    · have total := Account.fileShare_update (accounts k views p) fd (some f)
        ((accounts k views p).files.erase f) g
      have even := balance g
      rw [account]
      dsimp only at total ⊢
      omega
    · rw [account]
      simp only [after, if_pos spare, List.mem_cons, Prod.mk.injEq] at listed
      rcases listed with ⟨rfl, rfl⟩ | listed
      · exact update_self ..
      have other : d ≠ fd := by
        rintro rfl
        exact unlisted g listed
      exact (update_of_ne other ..).trans (old.slots d g listed)
    · simp [spare]
    · simp at low
  · have account : Account.of { k.proc p with ofile := update (k.proc p).ofile fd (some f) }
        (after (views p) (.fdalloc f) (some fd)).holds = accounts k views p := by
      refine Account.ext rfl (funext fun d => ?_) ?_ rfl rfl rfl
      · by_cases same : d = fd
        · subst same
          simp [spare, free]
        · simp [tight, spare, same, Ne.symm same]
      · simp [List.erase_of_not_mem spare]
    refine core.onProc live live ?_ rfl ?_ rfl
    · rw [account, update_eq_self]
      exact core.exact
    refine core.knows_shift (fun g => by rw [account]) (fun d g listed => ?_) (.inl rfl) rfl ?_
      (fun d low => ?_) old.homeless rfl
    · rw [account]
      exact old.slots d g (by simpa [spare] using listed)
    · intro d g known
      simp only [after, if_neg spare, Option.some.injEq, Prod.mk.injEq] at known
      obtain ⟨rfl, rfl⟩ := known
      exact update_self ..
    · simp at low

variable {ip : Slot}

/-- The current directory is taken out to be put or exchanged. -/
theorem takeCwd (present : (views p).holds.cwdGone = false) (cwd : (k.proc p).cwd = some ip) :
    Core k (update views p (after (views p) .takeCwd ip)) := by
  have old := core.knows p
  have home : (accounts k views p).home = some ip := by
    simp [present, cwd]
  refine core.own live rfl (fun q _ => rfl) live (fun q _ => spares_refl _ _) ?_ rfl
    (old.keep rfl rfl) rfl
  exact core.exact.leaveHome p home

/-- A referenced inode becomes the current directory. -/
theorem setCwd (gone : (views p).holds.cwdGone = true) (housed : (views p).holds.homeless = false)
    (member : ip ∈ (views p).holds.refs) :
    Core (k.setProc p fun q => { q with cwd := some ip })
      (update views p (after (views p) (.setCwd (some ip)) ())) := by
  have old := core.knows p
  have home : (accounts k views p).home = none := by
    simp [gone]
  refine core.onProc live live (core.exact.enterHome p home member) rfl ?_ rfl
  refine core.knows_shift (fun _ => rfl) old.slots (.inl rfl) rfl old.loose old.closed ?_ rfl
  intro homeless
  have contrary : (views p).holds.homeless = true := homeless
  rw [housed] at contrary
  cases contrary

theorem clearCwd (gone : (views p).holds.cwdGone = true) :
    Core (k.setProc p fun q => { q with cwd := none })
      (update views p (after (views p) (.setCwd none) ())) := by
  have old := core.knows p
  have account : Account.of { k.proc p with cwd := none }
      (after (views p) (.setCwd none) ()).holds = accounts k views p := by
    refine Account.ext rfl rfl rfl rfl rfl ?_
    simp [gone]
  refine core.onProc live live ?_ rfl ?_ rfl
  · rw [account, update_eq_self]
    exact core.exact
  · exact core.knows_shift (fun _ => rfl) old.slots (.inl rfl) rfl old.loose old.closed
      (fun _ => rfl) rfl

variable {c : Pslot}

omit core live in
/-- A step of a process that changes the child it is forming only. -/
theorem onChild {k' : Kernel} (core : Core k views) (next : Option Nat)
    (live : (k.proc p).life = .live) (rests : (k.proc c).life ≠ .live)
    (only : ∀ q n, (views q).holds.child = some (c, n) → q = p)
    (lock : k'.fs.shape.lock = k.fs.shape.lock) (others : ∀ q, q ≠ c → k'.proc q = k.proc q)
    (used : (k'.proc c).life ≠ .unused)
    (spares : ∀ q, Spares k.file k'.file (accounts k views q) (views q).holds.blanks)
    (exact : Exact k'.fs.shape k'.file (update (accounts k views) c (Account.of (k'.proc c) idle)))
    (forming : ∀ m, next = some m → (k'.proc c).life = .forming ∧
      (∀ fd : Fd, m ≤ fd.val → (k'.proc c).ofile fd = none) ∧
        (m ≤ nofile → (k'.proc c).cwd = none)) :
    Core k' (update views p
      { views p with holds := { (views p).holds with child := next.map (c, ·) } }) := by
  have apart : c ≠ p := by
    rintro rfl
    exact rests live
  have resting : views c = base := core.resting c rests
  have held : ∀ {q d l}, (update views p
      { views p with holds := { (views p).holds with child := next.map (c, ·) } } q).holds.child =
        some (d, l) → (q = p ∧ d = c ∧ next = some l) ∨
          (q ≠ p ∧ d ≠ c ∧ (views q).holds.child = some (d, l)) := by
    intro q d l known
    by_cases parent : q = p
    · subst parent
      simp only [update_self, map_eq_some_iff, Prod.mk.injEq] at known
      obtain ⟨m, next, rfl, rfl⟩ := known
      exact .inl ⟨rfl, rfl, next⟩
    · rw [update_of_ne parent] at known
      refine .inr ⟨parent, ?_, known⟩
      rintro rfl
      exact parent (only q l known)
  have same : accounts k' (update views p
      { views p with holds := { (views p).holds with child := next.map (c, ·) } }) =
      update (accounts k views) c (Account.of (k'.proc c) idle) := by
    funext q
    by_cases here : q = c
    · subst here
      simp [apart, resting, base]
    · rw [update_of_ne here]
      by_cases parent : q = p
      · subst parent
        simp only [accounts, update_self, others q here]
        rfl
      · simp [parent, others q here]
  refine ⟨?_, core.locks_same lock rfl, fun q => ?_, fun q => ?_, ?_, fun q rests => ?_,
    fun q idles => ?_⟩
  · rw [same]
    exact exact
  · exact update_cases rfl q (core.nodup p) fun q _ => core.nodup q
  · by_cases parent : q = p
    · subst parent
      rw [update_self]
      have old := core.knows q
      have alone : Knows k.file k.proc q { views q with
          holds := { (views q).holds with child := none } } :=
        ⟨old.slots, old.target, old.blanks, old.distinct, old.loose, old.closed, old.homeless,
          fun _ _ none => by simp at none⟩
      have framed := alone.frame (others q (Ne.symm apart)) (fun _ _ none => by simp at none)
        (spares q)
      refine ⟨framed.slots, framed.target, framed.blanks, framed.distinct, framed.loose,
        framed.closed, framed.homeless, fun d l known => ?_⟩
      simp only [map_eq_some_iff, Prod.mk.injEq] at known
      obtain ⟨m, known, rfl, rfl⟩ := known
      exact ⟨apart, forming m known⟩
    · rw [update_of_ne parent]
      by_cases here : q = c
      · subst here
        rw [resting]
        exact knows_base
      · refine (core.knows q).frame (others q here) (fun d l known => others d ?_) (spares q)
        rintro rfl
        exact parent (only q l known)
  · intro q r d l j first second
    rcases held first with ⟨rfl, rfl, _⟩ | ⟨_, other, first⟩
    · rcases held second with ⟨rfl, _⟩ | ⟨_, other, _⟩
      · rfl
      · exact (other rfl).elim
    · rcases held second with ⟨_, same, _⟩ | ⟨_, _, second⟩
      · exact (other same).elim
      · exact core.children q r d l j first second
  · have other : q ≠ p := by
      rintro rfl
      rw [others q (Ne.symm apart)] at rests
      exact rests live
    rw [update_of_ne other]
    by_cases here : q = c
    · subst here
      exact resting
    · rw [others q here] at rests
      exact core.resting q rests
  · have other : q ≠ c := by
      rintro rfl
      exact used idles
    rw [others q other] at idles ⊢
    exact core.unused q idles

omit live in
/-- No two processes form one child. -/
theorem only_parent {n : Nat} (known : (views p).holds.child = some (c, n)) (q : Pslot) (m : Nat)
    (other : (views q).holds.child = some (c, m)) : q = p :=
  core.children q p c m n other known

/-- `allocproc` gives the parent an entry without files. -/
theorem forkProc (unused : (k.proc c).life = .unused) :
    Core (k.setProc c fun q => { q with life := .forming })
      (update views p (after (views p) .forkProc (some c))) := by
  have empty := core.unused c unused
  have rests : (k.proc c).life ≠ .live := by simp [unused]
  refine core.onChild (some 0) live rests (fun q n known => ?_) rfl
    (fun q other => update_of_ne other ..) ?_ (fun q => spares_refl _ _) ?_ ?_
  · have forming := ((core.knows q).child c n known).2.1
    rw [unused] at forming
    cases forming
  · simp
  · have account : Account.of ((k.setProc c fun q => { q with life := .forming }).proc c) idle =
        accounts k views c := by
      simp [core.resting c rests, base]
    rw [account, update_eq_self]
    exact core.exact
  · rintro m ⟨⟩
    simp [empty.1, empty.2]

/-- The child gets a reference of an open file of its parent. -/
theorem forkFd (known : (views p).holds.child = some (c, fd.val))
    (tight : (views p).holds.loose = none) (typed : (views p).holds.blanks = [])
    (held : (k.proc p).ofile fd = some f) :
    Core ((k.setFile f fun file => { file with ref := file.ref + 1 }).setOfile c fd (some f))
      (update views p (after (views p) (.forkFd c fd) ())) := by
  obtain ⟨apart, forming, empty, homeless⟩ := (core.knows p).child c _ known
  have rests : (k.proc c).life ≠ .live := by simp [forming]
  have mine : 0 < (accounts k views p).fileShare f := by
    have owned : (accounts k views p).owned fd = some f := by
      simpa [tight] using held
    exact Account.fileShare_pos_of_owned owned
  have resting : (views c).holds = idle := by
    rw [core.resting c rests]
    rfl
  have unowned : (accounts k views c).owned fd = none := by
    simpa [resting] using empty fd le_rfl
  have account : Account.of ((k.setOfile c fd (some f)).proc c) idle = { accounts k views c with
        owned := update (accounts k views c).owned fd (some f)
        files := (accounts k views c).files } := by
    rw [accounts, resting]
    refine Account.ext rfl (funext fun d => ?_) rfl rfl rfl ?_
    · by_cases same : d = fd
      · subst same
        simp
      · simp [same]
    · simp
  refine core.onChild (some (fd.val + 1)) live rests (core.only_parent known) rfl
    (fun q other => update_of_ne other ..) ?_ (fun q g share => ?_) ?_ ?_
  · simp [forming]
  · by_cases same : g = f
    · subst same
      refine .inr ⟨?_, by simp⟩
      by_cases parent : q = p
      · subst parent
        simp [typed]
      · exact .inl (core.shared mine q parent share)
    · exact .inl (update_of_ne same ..)
  · have moved := core.exact.move_file c f { k.file f with ref := (k.file f).ref + 1 }
      (Account.of ((k.setOfile c fd (some f)).proc c) idle) (by rw [account])
      (Exact.share_move 0 1 (fun g => ?_) rfl) (fun ip => ?_) (by simp)
    · exact moved
    · have total := Account.fileShare_update (accounts k views c) fd (some f)
        (accounts k views c).files g
      rw [unowned, weight_none] at total
      rw [account]
      dsimp only at total ⊢
      omega
    · rw [account]
      rfl
  · rintro m ⟨⟩
    refine ⟨by simp [forming], fun d high => ?_, fun low => ?_⟩
    · have other : d ≠ fd := by
        rintro rfl
        omega
      simpa [other] using empty d (by omega)
    · simpa using homeless (by omega)

theorem forkNoFd (known : (views p).holds.child = some (c, fd.val)) :
    Core k (update views p (after (views p) (.forkFd c fd) ())) := by
  obtain ⟨apart, forming, empty, homeless⟩ := (core.knows p).child c _ known
  have rests : (k.proc c).life ≠ .live := by simp [forming]
  refine core.onChild (some (fd.val + 1)) live rests (core.only_parent known) rfl
    (fun q _ => rfl) ?_ (fun q => spares_refl _ _) ?_ ?_
  · rw [forming]
    decide
  · have account : Account.of (k.proc c) idle = accounts k views c := by
      rw [accounts, core.resting c rests]
      rfl
    rw [account, update_eq_self]
    exact core.exact
  · rintro m ⟨⟩
    exact ⟨forming, fun d high => empty d (by omega), fun low => homeless (by omega)⟩

/-- The child gets a reference of the current directory of its parent. -/
theorem forkCwd {t : State} (known : (views p).holds.child = some (c, nofile))
    (shape : t.shape = k.fs.shape.addRef ip) :
    Core (({ k with fs := t }).setProc c fun q => { q with cwd := some ip })
      (update views p (after (views p) (.forkCwd c) ())) := by
  obtain ⟨apart, forming, empty, homeless⟩ := (core.knows p).child c _ known
  have rests : (k.proc c).life ≠ .live := by simp [forming]
  have resting : (views c).holds = idle := by
    rw [core.resting c rests]
    rfl
  have home : (accounts k views c).home = none := by
    simpa [resting] using homeless le_rfl
  refine core.onChild (some (nofile + 1)) live rests (core.only_parent known) ?_
    (fun q other => update_of_ne other ..) ?_ (fun q => spares_refl _ _) ?_ ?_
  · change t.shape.lock = _
    rw [shape]
    rfl
  · simp [forming]
  · have account : Account.of ((({ k with fs := t }).setProc c
        fun q => { q with cwd := some ip }).proc c) idle =
        { accounts k views c with home := some ip } := by
      rw [accounts, resting]
      refine Account.ext rfl ?_ rfl rfl rfl ?_
      · simp
      · simp
    rw [account]
    change Exact t.shape k.file _
    rw [shape]
    exact core.exact.addHome c home
  · rintro m ⟨⟩
    refine ⟨by simp [forming], fun d high => ?_, fun low => ?_⟩
    · have inside := d.isLt
      omega
    · omega

/-- The child runs with the references it was given. -/
theorem forkStart {todo : Code Int} (known : (views p).holds.child = some (c, nofile + 1)) :
    Core (k.setProc c fun q => { q with life := .live, todo })
      (update views p (after (views p) (.forkStart c) ())) := by
  obtain ⟨apart, forming, _⟩ := (core.knows p).child c _ known
  have rests : (k.proc c).life ≠ .live := by simp [forming]
  refine core.onChild none live rests (core.only_parent known) rfl
    (fun q other => update_of_ne other ..) ?_ (fun q => spares_refl _ _) ?_
    (fun _ none => nomatch none)
  · simp
  have account : Account.of ((k.setProc c fun q => { q with life := .live, todo }).proc c) idle =
      accounts k views c := by
    rw [accounts, core.resting c rests]
    refine Account.ext rfl ?_ rfl rfl rfl ?_
    all_goals simp [base]
  rw [account, update_eq_self]
  exact core.exact

/-- A process without references leaves its entry. -/
theorem exitProc (ready : pre .exitProc (views p)) :
    Core (k.setProc p fun q => { q with life := .unused })
      (update views p (after (views p) .exitProc ())) := by
  obtain ⟨held, closed⟩ := ready
  have old := core.knows p
  have account : Account.of ((k.setProc p fun q => { q with life := .unused }).proc p) idle =
      accounts k views p := by
    rw [accounts, held]
    refine Account.ext rfl ?_ rfl rfl rfl ?_
    · simp
    · simp
  refine core.step live (fun q other => update_of_ne other ..) (fun _ => rfl) (fun _ => ?_)
    (fun q _ => spares_refl _ _) ?_ (core.locks_same rfl ?_) List.nodup_nil knows_base
    (by simp [base])
  · have empty : ∀ fd, (k.proc p).ofile fd = none := fun fd =>
      old.closed fd (by rw [closed]; exact fd.isLt)
    simpa using ⟨empty, old.homeless (by rw [held])⟩
  · rw [after, base, account, update_eq_self]
    exact core.exact
  · rw [held]
    rfl

variable {later : Kernel}

omit core live in
/-- Code of `fs.c` that returns has changed the file system only. -/
theorem onFs_ok {α : Type} (code : FsM α) {result : α} (done : k.onFs code = .ok (result, later)) :
    ∃ t, code k.fs = .ok (result, t) ∧ later = { k with fs := t } := by
  unfold Kernel.onFs at done
  split at done
  · rename_i value t outcome
    cases done
    exact ⟨t, outcome, rfl⟩
  · cases done

/-- Code that leaves the shape alone, and a view that holds the same references. -/
theorem quiet_onFs {α : Type} {code : FsM α} {result : α} (quiet : Quiet code)
    (done : k.onFs code = .ok (result, later))
    (account : Account.of (k.proc p) view.holds = accounts k views p)
    (locked : view.holds.locked = (views p).holds.locked) (knows : Knows k.file k.proc p view)
    (child : view.holds.child = (views p).holds.child) : Core later (update views p view) := by
  obtain ⟨t, outcome, rfl⟩ := onFs_ok code done
  exact core.quiet live ((quiet k.fs).of_ok outcome) account locked knows child

variable {sb : Superblock} {outcome : Option Pslot}

theorem perform_fileclose {fd : Option Fd} {result : Option File}
    (ready : pre (.fileclose f fd) (views p))
    (done : perform sb k p outcome (.fileclose f fd) = .ok (result, later)) :
    Told (views p) (.fileclose f fd) result ∧
      Core later (update views p (after (views p) (.fileclose f fd) result)) := by
  simp only [perform] at done
  split_ifs at done with none many
  · cases done
    have closed : Closed (k.file f) Option.none { k.file f with ref := (k.file f).ref - 1 } :=
      .shared (by omega)
    exact ⟨fun _ => rfl, core.fileclose live ready closed⟩
  · cases done
    have closed : Closed (k.file f) (some (k.file f)) { k.file f with ref := 0, type := .none } :=
      .last (by omega)
    refine ⟨fun blank => ?_, core.fileclose live ready closed⟩
    have type := ((core.knows p).blanks f blank).1
    simp [inodeOf, type]

/-- An operation whose precondition holds moves references as its specification says. -/
theorem perform {op : Op} {result : op.Res} (ready : pre op (views p))
    (done : perform sb k p outcome op = .ok (result, later)) :
    Told (views p) op result ∧
      Core later (update views p (after (views p) op result)) := by
  have old := core.knows p
  cases op with
  | choose =>
    cases done
    exact ⟨trivial, core.learn live rfl old⟩
  | panic halt => cases done
  | beginOp =>
    obtain ⟨t, outcome, rfl⟩ := onFs_ok Fs.beginOp done
    exact ⟨trivial, core.beginOp live ready (yields_beginOp.of_ok outcome)⟩
  | endOp =>
    obtain ⟨t, outcome, rfl⟩ := onFs_ok Fs.endOp done
    exact ⟨trivial, core.endOp live ready.1 (yields_endOp.of_ok outcome)⟩
  | iget inum =>
    obtain ⟨t, outcome, rfl⟩ := onFs_ok (Fs.iget inum) done
    exact ⟨trivial, core.addRef live ((yields_iget inum).of_ok outcome) rfl rfl
      (old.keep rfl rfl) rfl⟩
  | dupCwd =>
    simp only [Fs.perform] at done
    split at done
    · rename_i ip cwd
      obtain ⟨t, outcome, rfl⟩ := onFs_ok (Fs.idup ip) done
      obtain ⟨rfl, shape⟩ := (yields_idup ip).of_ok outcome
      exact ⟨trivial, core.addRef live shape rfl rfl
        (old.keep rfl rfl) rfl⟩
    · cases done
  | ilock ip =>
    obtain ⟨t, outcome, rfl⟩ := onFs_ok (Fs.ilock sb p ip) done
    obtain ⟨free, shape⟩ := (yields_ilock sb p ip).of_ok outcome
    exact core.ilock live free shape
  | iunlock ip =>
    obtain ⟨t, outcome, rfl⟩ := onFs_ok (Fs.iunlock p ip) done
    exact ⟨trivial, core.iunlock live ready ((yields_iunlock p ip).of_ok outcome)⟩
  | iputStart ip =>
    obtain ⟨t, outcome, rfl⟩ := onFs_ok (Fs.iputStart sb p ip) done
    exact ⟨trivial, core.iputStart live ready.1 ready.2.2
      ((yields_iputStart sb p ip).of_ok outcome)⟩
  | iputEnd ip =>
    obtain ⟨t, outcome, rfl⟩ := onFs_ok (Fs.iputEnd ip) done
    exact ⟨trivial, core.iputEnd live ready ((yields_iputEnd ip).of_ok outcome)⟩
  | inode ip =>
    cases done
    exact ⟨trivial, core.learn live rfl (old.keep rfl rfl)⟩
  | ialloc type =>
    obtain ⟨t, outcome, rfl⟩ := onFs_ok (Fs.ialloc sb type) done
    exact ⟨trivial, core.addRef live ((yields_ialloc sb type).of_ok outcome) rfl rfl
      (old.keep rfl rfl) rfl⟩
  | dirlookup dp name =>
    obtain ⟨t, outcome, rfl⟩ := onFs_ok (Fs.dirlookup sb dp name) done
    have shape := (yields_dirlookup sb dp name).of_ok outcome
    cases result with
    | none => exact ⟨trivial, core.quiet live shape rfl rfl old rfl⟩
    | some entry =>
      exact ⟨trivial, core.addRef live shape rfl rfl
        (old.keep rfl rfl) rfl⟩
  | raiseLink | lowerLink | dirlink | createEntry =>
    refine ⟨trivial, core.quiet_onFs live ?_ done rfl rfl (old.keep rfl rfl) rfl⟩
    first
    | apply quiet_raiseLink
    | apply quiet_lowerLink
    | apply quiet_dirlink
    | apply quiet_createEntry
  | unlinkEntry dp ip off =>
    have quiet := quiet_unlinkEntry sb dp ip off
    cases result with
    | true => exact ⟨trivial, core.quiet_onFs live quiet done rfl rfl (old.keep rfl rfl) rfl⟩
    | false => exact ⟨trivial, core.quiet_onFs live quiet done rfl rfl old rfl⟩
  | itrunc | readi | writei =>
    refine ⟨trivial, core.quiet_onFs live ?_ done rfl rfl old rfl⟩
    first | apply quiet_itrunc | apply quiet_readi | apply quiet_writei
  | filealloc =>
    simp only [Fs.perform] at done
    split at done
    · rename_i f found
      cases done
      exact ⟨trivial, core.filealloc live (by simpa using List.find?_some found)⟩
    · cases done
      exact ⟨trivial, core.learn live rfl old⟩
  | filedup f =>
    obtain ⟨⟨fd, loose⟩, ⟨d, slot⟩, typed⟩ := ready
    simp only [Fs.perform] at done
    split at done
    · cases done
    · cases done
      exact ⟨trivial, core.filedup live loose (core.slot_share slot) typed⟩
  | fileclose f fd => exact core.perform_fileclose live ready done
  | file f =>
    cases done
    exact ⟨trivial, core.file live ready⟩
  | openFile f ip omode =>
    cases done
    exact ⟨trivial, core.openFile live ready⟩
  | openPipe f0 f1 =>
    cases done
    refine ⟨trivial, core.openPipe live ready (fun g first second => ?_) (fun g => ?_)
      fun g one => ?_⟩
    · simp [first, second]
    · simp only [Kernel.setFile, update_apply]
      split_ifs <;> simp_all
    · rcases one with rfl | rfl
      · by_cases second : g = f1 <;> simp [update_apply, second]
      · simp
  | advance f r =>
    obtain ⟨ip, target⟩ := ready
    cases done
    exact ⟨trivial, core.advance live target⟩
  | ofile fd =>
    cases done
    exact ⟨trivial, core.ofile live ready⟩
  | clearOfile fd =>
    cases done
    rcases ready with ⟨f, loose⟩ | ⟨tight, f, slot⟩
    · exact ⟨trivial, core.clearLoose live loose⟩
    · exact ⟨trivial, core.clearSlot live tight slot⟩
  | fdalloc f =>
    simp only [Fs.perform] at done
    split at done
    · rename_i fd found
      cases done
      exact core.fdalloc live ready (by simpa using List.find?_some found)
    · cases done
      exact ⟨trivial, core.learn live rfl old⟩
  | takeCwd =>
    simp only [Fs.perform] at done
    split at done
    · rename_i ip cwd
      cases done
      exact ⟨trivial, core.takeCwd live ready.1 cwd⟩
    · cases done
  | setCwd ip =>
    cases done
    cases ip with
    | none => exact ⟨trivial, core.clearCwd live ready⟩
    | some ip => exact ⟨trivial, core.setCwd live ready.1 ready.2.1 ready.2.2.1⟩
  | forkProc =>
    simp only [Fs.perform] at done
    split at done
    · split_ifs at done with unused
      · cases done
        exact ⟨trivial, core.forkProc live unused⟩
      · cases done
        exact ⟨trivial, core.learn live rfl old⟩
    · cases done
      exact ⟨trivial, core.learn live rfl old⟩
  | forkFd child fd =>
    obtain ⟨known, tight, typed⟩ := ready
    simp only [Fs.perform] at done
    split at done
    · rename_i f held
      split_ifs at done
      cases done
      exact ⟨trivial, core.forkFd live known tight typed held⟩
    · cases done
      exact ⟨trivial, core.forkNoFd live known⟩
  | forkCwd child =>
    simp only [Fs.perform] at done
    split at done
    · rename_i ip cwd
      split at done
      · rename_i dup
        cases done
        obtain ⟨t, outcome, rfl⟩ := onFs_ok (Fs.idup ip) dup
        exact ⟨trivial, core.forkCwd live ready.1 ((yields_idup ip).of_ok outcome).2⟩
      · cases done
    · cases done
  | forkStart child =>
    cases done
    exact ⟨trivial, core.forkStart live ready⟩
  | exitProc =>
    cases done
    exact ⟨trivial, core.exitProc live ready⟩

end Core

end OsLab.Fs
