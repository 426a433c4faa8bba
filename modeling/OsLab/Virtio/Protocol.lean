import OsLab.Virtio.Requests

/-!
# The descriptor protocol

Every step of the driver and of the device is one of the events in the life of a request or leaves
the requests alone.  The rings of `avail` and `used` never hold more than two heads, so no entry is
overwritten before it is read, however often the 16-bit indices wrap.
-/

namespace OsLab.Virtio

open Function List

/-- The buffer whose sleep lock the process holds. -/
def Pc.buf {Buf : Type*} : Pc Buf → Option Buf
  | .idle => none
  | .holding b | .acquire b _ | .alloc b _ | .waitFree b _ _ | .format b _ _ _ | .ring b _ _
  | .publish b _ _ | .test b _ _ | .waitDisk b _ _ _ | .finish b _ _ => some b

/-- The process holds `vdisk_lock`. -/
def Pc.Locked {Buf : Type*} : Pc Buf → Prop
  | .alloc _ _ | .format _ _ _ _ | .ring _ _ _ | .publish _ _ _ | .test _ _ _ | .finish _ _ _ =>
    True
  | .idle | .holding _ | .acquire _ _ | .waitFree _ _ _ | .waitDisk _ _ _ _ => False

/-- A process that was woken, or not. -/
structure Pc.Woken {Buf : Type*} (before after : Pc Buf) : Prop where
  request : after.request = before.request
  stage : after.stage = before.stage
  buf : after.buf = before.buf
  locked : after.Locked ↔ before.Locked
  publish : ∀ b chain r, after = .publish b chain r → before = .publish b chain r

section

variable {Buf : Type*}

theorem Pc.Woken.refl (pc : Pc Buf) : pc.Woken pc :=
  ⟨rfl, rfl, rfl, .rfl, fun _ _ _ same => same⟩

theorem Pc.Woken.trans {first second third : Pc Buf} (left : first.Woken second)
    (right : second.Woken third) : first.Woken third :=
  ⟨right.request.trans left.request, right.stage.trans left.stage, right.buf.trans left.buf,
    right.locked.trans left.locked,
    fun b chain r same => left.publish b chain r (right.publish b chain r same)⟩

theorem Pc.woken_wakeFree (pc : Pc Buf) : pc.Woken pc.wakeFree := by
  cases pc <;> first | exact .refl _ | exact ⟨rfl, rfl, rfl, .rfl, nofun⟩

theorem Pc.woken_wakeDisk [DecidableEq Buf] (b : Buf) (pc : Pc Buf) : pc.Woken (pc.wakeDisk b) := by
  cases pc <;> first | exact .refl _ | exact ⟨rfl, rfl, rfl, .rfl, nofun⟩

theorem Pc.woken_wake (pc : Pc Buf) : pc.Woken pc.wake := by
  cases pc <;> first | exact .refl _ | exact ⟨rfl, rfl, rfl, .rfl, nofun⟩

end

section Freeing

variable {Pid Cpu Buf : Type*} {s : State Pid Cpu Buf}

/-- `t` is `s` with the given descriptors freed and some processes woken. -/
structure Freed (got : List Index) (s t : State Pid Cpu Buf) : Prop where
  free : ∀ i, t.free i = (s.free i || decide (i ∈ got))
  desc : ∀ i, i ∉ got → t.desc i = s.desc i
  links : ∀ i, (t.desc i).flags = (s.desc i).flags ∧ (t.desc i).next = (s.desc i).next
  pcs : ∀ p, (s.pc p).Woken (t.pc p)
  rest : t = { s with free := t.free, desc := t.desc, pc := t.pc }

theorem Freed.nil (s : State Pid Cpu Buf) : Freed [] s s where
  free i := by simp
  desc _ _ := rfl
  links _ := ⟨rfl, rfl⟩
  pcs p := .refl _
  rest := rfl

theorem Freed.trans {left right : List Index} {t u : State Pid Cpu Buf} (first : Freed left s t)
    (second : Freed right t u) : Freed (left ++ right) s u where
  free i := by rw [second.free, first.free, Bool.or_assoc]; simp
  desc i absent := by
    rw [mem_append, not_or] at absent
    rw [second.desc i absent.2, first.desc i absent.1]
  links i :=
    ⟨(second.links i).1.trans (first.links i).1, (second.links i).2.trans (first.links i).2⟩
  pcs p := (first.pcs p).trans (second.pcs p)
  rest := by
    have outer := second.rest
    rw [first.rest] at outer
    exact outer

theorem Freed.fault {got : List Index} {t : State Pid Cpu Buf} (freed : Freed got s t) :
    t.fault = s.fault := by rw [freed.rest]

variable {i : Index}

theorem freeDesc_freed (busy : s.free i = false) : Freed [i] s (freeDesc i s) := by
  have result : freeDesc i s = wakeupFree { s with
        desc := update s.desc i { s.desc i with addr := .null }
        free := update s.free i true } := by
    simp [freeDesc, busy]
  rw [result]
  refine ⟨fun j => ?_, fun j absent => ?_, fun j => ?_, fun p => (s.pc p).woken_wakeFree, rfl⟩
  · rcases eq_or_ne j i with rfl | other
    · simp [wakeupFree]
    · simp [wakeupFree, other]
  · simp [wakeupFree, mem_singleton.not.mp absent]
  · rcases eq_or_ne j i with rfl | other
    · simp [wakeupFree]
    · simp [wakeupFree, other]

theorem freeAll_freed (got : List Index) (nodup : got.Nodup) (busy : ∀ i ∈ got, s.free i = false) :
    Freed got s (got.foldl (fun s i => freeDesc i s) s) := by
  induction got generalizing s with
  | nil => exact .nil s
  | cons i rest ih =>
    have first := freeDesc_freed (busy i mem_cons_self)
    have later := ih (s := freeDesc i s) nodup.of_cons fun j member => by
      have differ : j ≠ i := fun same => (nodup_cons.mp nodup).1 (same ▸ member)
      rw [first.free, busy j (mem_cons_of_mem i member)]
      simpa using differ
    exact first.trans later

theorem descAt_index (s : State Pid Cpu Buf) (i : Index) : s.descAt i = s.desc i := by
  simp [State.descAt]

theorem toNat_ofNat_index (i : Index) : (BitVec.ofNat 16 i.val).toNat = i.val := by
  have small := i.isLt
  rw [BitVec.toNat_ofNat, Nat.mod_eq_of_lt (by simp only [num] at small; omega)]

theorem freeChain_next {i j : Index} (busy : s.free i = false) (running : s.fault = none)
    (next : (s.desc i).flags &&& descNext ≠ 0) (link : (s.desc i).next = .ofNat 16 j) (fuel : Nat) :
    freeChain (fuel + 1) i s = freeChain fuel j (freeDesc i s) := by
  have freed := freeDesc_freed busy
  have links := freed.links i
  rw [freeChain]
  simp only [descAt_index, links.1, links.2, link, toNat_ofNat_index]
  rw [if_pos (freed.fault.trans running), if_neg next]

theorem freeChain_last (busy : s.free i = false) (running : s.fault = none)
    (last : (s.desc i).flags &&& descNext = 0) (fuel : Nat) :
    freeChain (fuel + 1) i s = freeDesc i s := by
  have freed := freeDesc_freed busy
  rw [freeChain]
  simp only [descAt_index, (freed.links i).1]
  rw [if_pos (freed.fault.trans running), if_pos last]

theorem freeChain_freed {chain : Chain} (head : (s.desc chain.head).flags &&& descNext ≠ 0)
    (headNext : (s.desc chain.head).next = .ofNat 16 chain.data)
    (data : (s.desc chain.data).flags &&& descNext ≠ 0)
    (dataNext : (s.desc chain.data).next = .ofNat 16 chain.status)
    (status : (s.desc chain.status).flags &&& descNext = 0) (nodup : chain.indices.Nodup)
    (busy : ∀ i ∈ chain.indices, s.free i = false) (running : s.fault = none) (fuel : Nat) :
    Freed chain.indices s (freeChain (fuel + 3) chain.head s) := by
  simp only [Chain.indices, nodup_cons, mem_cons, not_mem_nil, or_false, not_or] at nodup
  obtain ⟨⟨headData, headStatus⟩, dataStatus, -⟩ := nodup
  have first := freeDesc_freed (busy _ chain.head_mem)
  have busyData : (freeDesc chain.head s).free chain.data = false := by
    rw [first.free, busy _ chain.data_mem]
    simpa using Ne.symm headData
  have second := freeDesc_freed busyData
  have both := first.trans second
  have busyStatus : (freeDesc chain.data (freeDesc chain.head s)).free chain.status = false := by
    rw [both.free, busy _ chain.status_mem]
    simp [Ne.symm headStatus, Ne.symm dataStatus]
  rw [freeChain_next (busy _ chain.head_mem) running head headNext,
    freeChain_next busyData (first.fault.trans running) (by rwa [(first.links _).1])
      ((first.links _).2.trans dataNext),
    freeChain_last busyStatus (both.fault.trans running) (by rwa [(both.links _).1])]
  exact both.trans (freeDesc_freed busyStatus)

theorem allocDesc_some {free : Index → Bool} (found : allocDesc free = some i) : free i = true :=
  List.find?_some found

/-- The loop of `alloc3_desc`: as many free descriptors as it lacks, or all of them back. -/
theorem alloc3From_spec (remaining : Nat) : ∀ (got : List Index) (s : State Pid Cpu Buf),
    got.Nodup → (∀ i ∈ got, s.free i = false) →
    ∃ more : List Index, (got ++ more).Nodup ∧ (∀ i ∈ more, s.free i = true) ∧
      (more.length = remaining ∧ alloc3From remaining got s =
        (some (got ++ more), { s with free := fun i => s.free i && !decide (i ∈ more) }) ∨
      ∃ u, alloc3From remaining got s = (none, u) ∧
        Freed (got ++ more) { s with free := fun i => s.free i && !decide (i ∈ more) } u) := by
  induction remaining with
  | zero =>
    intro got s nodup _
    refine ⟨[], by simpa using nodup, by simp, .inl ⟨rfl, ?_⟩⟩
    simp [alloc3From]
  | succ remaining ih =>
    intro got s nodup busy
    cases found : allocDesc s.free with
    | none =>
      refine ⟨[], by simpa using nodup, by simp, .inr ⟨_, by rw [alloc3From, found], ?_⟩⟩
      have freed := freeAll_freed got nodup busy
      simpa using freed
    | some i =>
      have was := allocDesc_some found
      have absent : i ∉ got := fun member => by simp [busy i member] at was
      obtain ⟨more, distinct, free, result⟩ := ih (got ++ [i])
        { s with free := update s.free i false }
        (nodup_append.mpr ⟨nodup, by simp, by rintro j member _ single rfl; simp_all⟩)
        (by
          intro j member
          rcases eq_or_ne j i with rfl | other
          · simp
          · simp only [update_of_ne other]
            exact busy j (by simpa [other] using member))
      rw [append_assoc, singleton_append] at distinct result
      have same : (fun j => update s.free i false j && !decide (j ∈ more)) =
          fun j => s.free j && !decide (j ∈ i :: more) := by
        funext j
        rcases eq_or_ne j i with rfl | other
        · simp
        · simp [other]
      simp only [same] at result
      refine ⟨i :: more, distinct, fun j member => ?_, ?_⟩
      · rcases mem_cons.mp member with rfl | later
        · exact was
        · have there := free j later
          rcases eq_or_ne j i with rfl | other
          · exact was
          · simpa [other] using there
      · rw [alloc3From, found]
        exact result.imp (fun done => ⟨by simp [done.1], done.2⟩) id

/-- `alloc3_desc`: three free descriptors, or the free map as it was. -/
theorem alloc3Desc_spec (s : State Pid Cpu Buf) :
    (∃ chain : Chain, chain.indices.Nodup ∧ (∀ i ∈ chain.indices, s.free i = true) ∧ alloc3Desc s =
        (some chain, { s with free := fun i => s.free i && !decide (i ∈ chain.indices) })) ∨
      ∃ u, alloc3Desc s = (none, u) ∧ u.free = s.free ∧
        (∀ i, s.free i = false → u.desc i = s.desc i) ∧ (∀ p, (s.pc p).Woken (u.pc p)) ∧
        u = { s with desc := u.desc, pc := u.pc } := by
  obtain ⟨more, distinct, free, result⟩ := alloc3From_spec 3 [] s .nil (by simp)
  rw [nil_append] at distinct result
  rcases result with ⟨three, result⟩ | ⟨u, result, freed⟩
  · left
    match more, three with
    | [head, data, status], _ =>
      exact ⟨⟨head, data, status⟩, distinct, free, by rw [alloc3Desc, result]; rfl⟩
  · right
    have restored : u.free = s.free := by
      funext i
      rw [freed.free]
      by_cases member : i ∈ more
      · simp [member, free i member]
      · simp [member]
    refine ⟨u, by rw [alloc3Desc, result], restored, fun i busy => freed.desc i ?_, freed.pcs, ?_⟩
    · intro member
      rw [free i member] at busy
      simp at busy
    · have rest := freed.rest
      rw [restored] at rest
      exact rest

end Freeing

section Invariant

variable {Pid Cpu Buf : Type*}

/-- The requests are in order, the locks are held where the code says so, and the rings hold the
heads that are on their way. -/
structure Inv (s : State Pid Cpu Buf) : Prop where
  orderly : Orderly s.view
  fault : s.fault = none
  lockProc : ∀ p, (s.pc p).Locked → s.vdiskLock = some (.proc p)
  lockCpu : ∀ c, s.handler c = .loop → s.vdiskLock = some (.cpu c)
  bufs : ∀ p b, (s.pc p).buf = some b → s.bufLock b = some p
  entry : ∀ p b chain r, s.pc p = .publish b chain r →
    s.ring (ringCell num s.availIdx.toNat) = .ofNat 16 chain.head
  avail : ∃ k, s.seen = .ofNat 16 k ∧ s.availIdx = .ofNat 16 (k + s.posted.length) ∧
    RingHolds s.ring k (s.posted.map fun h => .ofNat 16 h.val)
  used : ∃ k, s.usedIdx = .ofNat 16 (k % num) ∧ s.usedId = .ofNat 16 (k + s.pending.length) ∧
    RingHolds s.elems k (s.pending.map fun h => .ofNat 32 h.val)

theorem ringCell_ofNat (count : Nat) :
    ringCell num (BitVec.ofNat 16 count).toNat = ringCell num count := by
  rw [BitVec.toNat_ofNat]
  exact ringCell_mod_of_dvd (by decide)

theorem Inv.quiet {s t : State Pid Cpu Buf} (inv : Inv s) (view : t.view = s.view)
    (fault : t.fault = s.fault) (rings : t.ring = s.ring ∧ t.availIdx = s.availIdx ∧
      t.seen = s.seen ∧ t.elems = s.elems ∧ t.usedId = s.usedId ∧ t.usedIdx = s.usedIdx)
    (lockProc : ∀ p, (t.pc p).Locked → t.vdiskLock = some (.proc p))
    (lockCpu : ∀ c, t.handler c = .loop → t.vdiskLock = some (.cpu c))
    (bufs : ∀ p b, (t.pc p).buf = some b → t.bufLock b = some p)
    (entry : ∀ p b chain r, t.pc p = .publish b chain r → s.pc p = .publish b chain r) : Inv t := by
  obtain ⟨ring, availIdx, seen, elems, usedId, usedIdx⟩ := rings
  have posted : t.posted = s.posted := congrArg View.posted view
  have pending : t.pending = s.pending := congrArg View.pending view
  refine ⟨view ▸ inv.orderly, fault.trans inv.fault, lockProc, lockCpu, bufs,
    fun p b chain r there => ?_, ?_, ?_⟩
  · rw [ring, availIdx]
    exact inv.entry p b chain r (entry p b chain r there)
  · rw [ring, availIdx, seen, posted]
    exact inv.avail
  · rw [elems, usedId, usedIdx, pending]
    exact inv.used

variable {s : State Pid Cpu Buf}

theorem Inv.room (inv : Inv s) : s.posted.length < num ∧ s.pending.length < num := by
  have short := inv.orderly.length_queue
  simp only [View.queue, State.view, length_append] at short
  simp only [num]
  omega

variable [DecidableEq Pid]

theorem goto_pc {s : State Pid Cpu Buf} {p : Pid} {pc : Pc Buf} :
    (s.goto p pc).pc = update s.pc p pc := rfl

@[simp] theorem goto_pc_self (s : State Pid Cpu Buf) (p : Pid) (pc : Pc Buf) :
    (s.goto p pc).pc p = pc := update_self ..

theorem goto_pc_of_ne (s : State Pid Cpu Buf) {p q : Pid} (pc : Pc Buf) (other : q ≠ p) :
    (s.goto p pc).pc q = s.pc q := update_of_ne other ..

theorem view_goto (s : State Pid Cpu Buf) (p : Pid) (pc : Pc Buf) :
    (s.goto p pc).view = { s.view with
      asks := update s.view.asks p pc.request
      stage := update s.view.stage p pc.stage } := by
  have asks : (fun q => ((s.goto p pc).pc q).request) =
      update (fun q => (s.pc q).request) p pc.request := by
    funext q
    refine update_cases goto_pc q ?_ fun q other => ?_
    · rw [update_self]
    · rw [update_of_ne other]
  have stage : (fun q => ((s.goto p pc).pc q).stage) =
      update (fun q => (s.pc q).stage) p pc.stage := by
    funext q
    refine update_cases goto_pc q ?_ fun q other => ?_
    · rw [update_self]
    · rw [update_of_ne other]
  unfold State.view
  rw [asks, stage]
  rfl

variable {p : Pid} {pc : Pc Buf}

theorem view_goto_stage (request : pc.request = (s.pc p).request) :
    (s.goto p pc).view = { s.view with stage := update s.view.stage p pc.stage } := by
  have asks : update s.view.asks p (s.pc p).request = s.view.asks :=
    update_eq_self p s.view.asks
  rw [view_goto, request, asks]

theorem view_goto_same (request : pc.request = (s.pc p).request)
    (stage : pc.stage = (s.pc p).stage) : (s.goto p pc).view = s.view := by
  have stages : update s.view.stage p (s.pc p).stage = s.view.stage :=
    update_eq_self p s.view.stage
  rw [view_goto_stage request, stage, stages]

section

omit [DecidableEq Pid]

theorem view_woken {pc : Pid → Pc Buf} (woken : ∀ p, (s.pc p).Woken (pc p)) :
    { s with pc := pc }.view = s.view := by
  have asks : (fun q => (pc q).request) = fun q => (s.pc q).request :=
    funext fun q => (woken q).request
  have stage : (fun q => (pc q).stage) = fun q => (s.pc q).stage :=
    funext fun q => (woken q).stage
  unfold State.view
  simp only [asks, stage]

theorem Inv.woken (inv : Inv s) {pc : Pid → Pc Buf} (woken : ∀ p, (s.pc p).Woken (pc p)) :
    Inv { s with pc := pc } :=
  inv.quiet (view_woken woken) rfl ⟨rfl, rfl, rfl, rfl, rfl, rfl⟩
    (fun p locked => inv.lockProc p ((woken p).locked.mp locked)) inv.lockCpu
    (fun p b holds => inv.bufs p b ((woken p).buf.symm.trans holds))
    fun p b chain r there => (woken p).publish b chain r there

theorem Inv.proc_unique (inv : Inv s) {p q : Pid}
    (left : (s.pc p).Locked) (right : (s.pc q).Locked) : p = q := by
  have first := inv.lockProc p left
  rw [inv.lockProc q right] at first
  simpa using first.symm

end

theorem Inv.acquire (inv : Inv s) {before : Pc Buf} (there : s.pc p = before)
    (free : s.vdiskLock = none) (request : pc.request = before.request)
    (stage : pc.stage = before.stage) (buf : pc.buf = before.buf)
    (entry : ∀ b chain r, pc ≠ .publish b chain r) :
    Inv ({ s with vdiskLock := some (.proc p) }.goto p pc) := by
  have nobody : ∀ q, ¬ (s.pc q).Locked := fun q locked => by
    have holds := inv.lockProc q locked
    simp [free] at holds
  subst there
  refine inv.quiet (view_goto_same request stage) rfl ⟨rfl, rfl, rfl, rfl, rfl, rfl⟩
    (fun q => update_cases goto_pc q (fun _ => rfl) fun q _ locked => absurd locked (nobody q))
    (fun c loops => ?_) (fun q b => update_cases goto_pc q ?_ fun q _ => inv.bufs q b)
    fun q b chain r => update_cases goto_pc q (fun here => absurd here (entry b chain r))
      fun _ _ => id
  · have holds := inv.lockCpu c loops
    simp [free] at holds
  · rw [buf]
    exact inv.bufs p b

omit [DecidableEq Pid] in
/-- A statement of the holder of `vdisk_lock` that leaves the rings alone. -/
theorem Inv.hold {s t : State Pid Cpu Buf} (inv : Inv s) (holds : (s.pc p).Locked)
    (orderly : Orderly t.view) (others : ∀ q, q ≠ p → (s.pc q).Woken (t.pc q))
    (buf : (t.pc p).buf = (s.pc p).buf) (entry : ∀ b chain r, t.pc p ≠ .publish b chain r)
    (lock : t.vdiskLock = s.vdiskLock ∨ t.vdiskLock = none ∧ ¬ (t.pc p).Locked)
    (same : t.fault = s.fault ∧ t.handler = s.handler ∧ t.bufLock = s.bufLock ∧
      t.ring = s.ring ∧ t.availIdx = s.availIdx ∧ t.seen = s.seen ∧ t.posted = s.posted ∧
      t.elems = s.elems ∧ t.usedId = s.usedId ∧ t.usedIdx = s.usedIdx ∧
      t.pending = s.pending) : Inv t := by
  obtain ⟨fault, handler, bufLock, ring, availIdx, seen, posted, elems, usedId, usedIdx,
    pending⟩ := same
  have unlocked : ∀ q, q ≠ p → ¬ (t.pc q).Locked := fun q other locked =>
    other (inv.proc_unique ((others q other).locked.mp locked) holds)
  refine ⟨orderly, fault.trans inv.fault, fun q locked => ?_, fun c loops => ?_,
    fun q b has => ?_, fun q b chain r there => ?_, ?_, ?_⟩
  · rcases eq_or_ne q p with rfl | other
    · rcases lock with kept | ⟨-, released⟩
      · exact kept.trans (inv.lockProc q holds)
      · exact absurd locked released
    · exact absurd locked (unlocked q other)
  · have mine := inv.lockCpu c (handler ▸ loops)
    rw [inv.lockProc p holds] at mine
    simp at mine
  · rw [bufLock]
    rcases eq_or_ne q p with rfl | other
    · exact inv.bufs q b (buf.symm.trans has)
    · exact inv.bufs q b ((others q other).buf.symm.trans has)
  · rcases eq_or_ne q p with rfl | other
    · exact absurd there (entry b chain r)
    · exact absurd (by rw [there]; trivial) (unlocked q other)
  · rw [seen, availIdx, ring, posted]
    exact inv.avail
  · rw [usedIdx, usedId, elems, pending]
    exact inv.used

theorem goto_woken (s : State Pid Cpu Buf) (p : Pid) (pc : Pc Buf) :
    ∀ q, q ≠ p → (s.pc q).Woken ((s.goto p pc).pc q) := fun q other => by
  rw [goto_pc_of_ne s pc other]
  exact .refl _

section

variable (inv : Inv s)
include inv

/-- A move of a process outside `virtio_disk_rw`, with the sleep locks of the buffers. -/
theorem Inv.outside {bufLock : Buf → Option Pid} (before : (s.pc p).request = none)
    (stage : (s.pc p).stage = .unset) (after : pc.request = none) (unset : pc.stage = .unset)
    (unlocked : ¬ pc.Locked) (others : ∀ q b, q ≠ p → s.bufLock b = some q → bufLock b = some q)
    (mine : ∀ b, pc.buf = some b → bufLock b = some p) :
    Inv ({ s with bufLock := bufLock }.goto p pc) := by
  refine inv.quiet (view_goto_same (after.trans before.symm) (unset.trans stage.symm)) rfl
    ⟨rfl, rfl, rfl, rfl, rfl, rfl⟩
    (fun q => update_cases goto_pc q (absurd · unlocked) fun q _ =>
      inv.lockProc q) inv.lockCpu
    (fun q b => update_cases goto_pc q (mine b) fun q other has =>
      others q b other (inv.bufs q b has))
    fun q b chain r => update_cases goto_pc q (fun there => ?_) fun _ _ => id
  subst there
  exact absurd trivial unlocked

theorem Inv.rwAlloc {b : Buf} {write : Bool} (there : s.pc p = .alloc b write) :
    Inv (rwAlloc s p b write) := by
  have holds : (s.pc p).Locked := by rw [there]; trivial
  have buf : (s.pc p).buf = some b := by rw [there]; rfl
  have idle : s.view.asks p = none := congrArg Pc.request there
  unfold Virtio.rwAlloc
  rcases alloc3Desc_spec s with ⟨chain, distinct, were, result⟩ |
    ⟨u, result, free, busy, woken, rest⟩
  · rw [result]
    refine inv.hold holds ?_ (goto_woken _ p _) (by rw [goto_pc_self, buf]; rfl) (by simp)
      (.inl rfl) (by and_intros <;> rfl)
    rw [view_goto]
    refine inv.orderly.allocate idle distinct were (fun _ => rfl) fun q y asked same => ?_
    -- the sleep lock of `b` is held by `p`, so no other process has a request for it
    have other : (s.pc q).buf = some b := by
      have request : (s.pc q).request = some y := asked
      cases here : s.pc q <;> simp_all [Pc.request, Pc.buf]
      all_goals subst request; exact same
    have mine := inv.bufs p b buf
    rw [inv.bufs q b other] at mine
    cases mine
    simp [idle] at asked
  · rw [result]
    have view : ({ u with vdiskLock := none }.goto p (.waitFree b write true)).view =
        { s.view with desc := u.desc } := by
      have none : (s.pc p).request = none := by rw [there]; rfl
      have unset : (s.pc p).stage = .unset := by rw [there]; rfl
      have stays : ({ u with vdiskLock := Option.none }.goto p (.waitFree b write true)).view =
          { u with vdiskLock := Option.none }.view :=
        view_goto_same ((woken p).request.trans none).symm ((woken p).stage.trans unset).symm
      refine stays.trans ?_
      rw [rest]
      exact view_woken (s := { s with desc := u.desc, vdiskLock := Option.none }) woken
    refine inv.hold holds (by rw [view]; exact inv.orderly.of_desc busy) (fun q other => ?_)
      (by rw [goto_pc_self, buf]; rfl) (by simp) (.inr ⟨rfl, ?_⟩) ?_
    · rw [goto_pc_of_ne _ _ other]
      exact woken q
    · rw [goto_pc_self]
      exact id
    · rw [rest]
      and_intros <;> rfl

variable [DecidableEq Buf]

theorem Inv.rwFormat {b : Buf} {write : Bool} {chain : Chain} {r : Nat}
    (there : s.pc p = .format b write chain r) : Inv (rwFormat s p b write chain r) := by
  have holds : (s.pc p).Locked := by rw [there]; trivial
  have buf : (s.pc p).buf = some b := by rw [there]; rfl
  have asked : s.view.asks p = some ⟨b, chain, r⟩ := congrArg Pc.request there
  have distinct := inv.orderly.owns.distinct p _ asked
  simp only [Chain.indices, nodup_cons, mem_cons, not_mem_nil, or_false, not_or] at distinct
  obtain ⟨⟨headData, headStatus⟩, dataStatus, -⟩ := distinct
  refine inv.hold holds ?_ (goto_woken _ p _) (by rw [Virtio.rwFormat, goto_pc_self, buf]; rfl)
    (by simp [Virtio.rwFormat]) (.inl rfl)
    (by and_intros <;> rfl)
  refine inv.orderly.format asked (congrArg Pc.stage there) (fun i absent => ?_)
    (view_goto_stage (congrArg Pc.request there).symm) ?_
  · simp only [Chain.indices, mem_cons, not_mem_nil, or_false, not_or] at absent
    simp [update_of_ne absent.1, update_of_ne absent.2.1, update_of_ne absent.2.2, State.view]
  · refine ⟨?_, ?_, ?_, ?_, ?_, ?_, ?_, ?_⟩
    all_goals
      simp [Virtio.rwFormat, State.view, State.goto, update_of_ne, headData, headStatus,
        dataStatus, descNext, descWrite]
    · cases write <;> decide

section

omit [DecidableEq Buf]

variable {b : Buf} {chain : Chain} {r : Nat}

theorem Inv.rwRing (there : s.pc p = .ring b chain r) :
    Inv (rwRing s p b chain r) := by
  have holds : (s.pc p).Locked := by rw [there]; trivial
  have view : (Virtio.rwRing s p b chain r).view = s.view :=
    view_goto_same (congrArg Pc.request there).symm (congrArg Pc.stage there).symm
  have pcs : (Virtio.rwRing s p b chain r).pc = update s.pc p (.publish b chain r) := rfl
  obtain ⟨k, seen, availIdx, ring⟩ := inv.avail
  refine ⟨view ▸ inv.orderly, inv.fault, fun q => update_cases pcs q (fun _ => inv.lockProc p holds)
      fun q _ => inv.lockProc q, inv.lockCpu,
    fun q b' => update_cases pcs q (fun has => inv.bufs p b' (by rw [there]; exact has))
      fun q _ => inv.bufs q b',
    fun q b' chain' r' => update_cases pcs q (fun here => ?_) fun q other here => ?_,
    ⟨k, seen, availIdx, ?_⟩, inv.used⟩
  · -- the cell behind the last entry is not one of those that the device has yet to look at
    have pushed := ring.push (by simpa using inv.room.1) (.ofNat 16 chain.head)
    rw [length_map, ← ringCell_ofNat, ← availIdx] at pushed
    exact pushed.left
  · obtain ⟨-, rfl, -⟩ : b = b' ∧ chain = chain' ∧ r = r' := by simpa using here
    exact update_self ..
  · exact absurd (inv.proc_unique (by rw [here]; trivial) holds) other

theorem Inv.rwPublish (there : s.pc p = .publish b chain r) :
    Inv (rwPublish s p b chain r) := by
  have holds : (s.pc p).Locked := by rw [there]; trivial
  have asked : s.view.asks p = some ⟨b, chain, r⟩ := congrArg Pc.request there
  have pcs : (Virtio.rwPublish s p b chain r).pc = update s.pc p (.test b chain r) := rfl
  obtain ⟨k, seen, availIdx, ring⟩ := inv.avail
  refine ⟨?_, inv.fault, fun q => update_cases pcs q (fun _ => inv.lockProc p holds)
      fun q _ => inv.lockProc q, inv.lockCpu,
    fun q b' => update_cases pcs q (fun has => inv.bufs p b' (by rw [there]; exact has))
      fun q _ => inv.bufs q b',
    fun q b' chain' r' => update_cases pcs q nofun fun q other here => ?_, ⟨k, seen, ?_, ?_⟩,
    inv.used⟩
  · rw [Virtio.rwPublish, view_goto_stage (by exact (congrArg Pc.request there).symm)]
    exact inv.orderly.publish asked (congrArg Pc.stage there)
  · change s.availIdx + 1 = .ofNat 16 (k + (s.posted ++ [chain.head]).length)
    rw [availIdx, length_append, length_singleton, ← add_assoc]
    exact (BitVec.ofNat_add ..).symm
  · have pushed := ring.push (by simpa using inv.room.1) (.ofNat 16 chain.head)
    rw [length_map, ← ringCell_ofNat, ← availIdx, ← inv.entry p b chain r there,
      update_eq_self, inv.entry p b chain r there] at pushed
    change RingHolds s.ring k ((s.posted ++ [chain.head]).map _)
    rwa [map_append]
  · exact absurd (inv.proc_unique (by rw [here]; trivial) holds) other

theorem Inv.rwTest (there : s.pc p = .test b chain r) :
    Inv (rwTest s p b chain r) := by
  have holds : (s.pc p).Locked := by rw [there]; trivial
  have asked : s.view.asks p = some ⟨b, chain, r⟩ := congrArg Pc.request there
  unfold Virtio.rwTest
  split
  case isTrue =>
    refine inv.hold holds ?_ (goto_woken _ p _) (by rw [goto_pc_self, there]; rfl) (by simp)
      (.inr ⟨rfl, by rw [goto_pc_self]; exact id⟩)
      (by and_intros <;> rfl)
    rw [view_goto_same (by exact (congrArg Pc.request there).symm)
      (by exact (congrArg Pc.stage there).symm)]
    exact inv.orderly
  case isFalse cleared =>
    refine inv.hold holds ?_ (goto_woken _ p _) (by rw [goto_pc_self, there]; rfl) (by simp)
      (.inl rfl) (by and_intros <;> rfl)
    rw [view_goto_stage (by exact (congrArg Pc.request there).symm)]
    exact inv.orderly.settle asked (congrArg Pc.stage there) (Bool.eq_false_iff.mpr cleared)

theorem Inv.rwFinish (there : s.pc p = .finish b chain r) :
    Inv (rwFinish s p b chain r) := by
  have holds : (s.pc p).Locked := by rw [there]; trivial
  have asked : s.view.asks p = some ⟨b, chain, r⟩ := congrArg Pc.request there
  have done : s.view.stage p = .done := congrArg Pc.stage there
  have linked := (inv.orderly.tracked p _ asked).linked (by simp [done])
  obtain ⟨u, freed, result⟩ : ∃ u, Freed chain.indices { s with
        info := update s.info chain.head { s.info chain.head with b := none } } u ∧
      Virtio.rwFinish s p b chain r = { u with
        vdiskLock := none
        returned := update u.returned r true }.goto p (.holding b) := by
    have freed := freeChain_freed (s := { s with
        info := update s.info chain.head { s.info chain.head with b := none } })
      linked.head linked.headNext linked.data linked.dataNext linked.status
      (inv.orderly.owns.distinct p _ asked) (inv.orderly.owns.busy p _ asked) inv.fault 6
    exact ⟨_, freed, if_pos (freed.fault.trans inv.fault)⟩
  rw [result]
  refine inv.hold holds ?_ (fun q other => ?_) (by rw [goto_pc_self, there]; rfl) (by simp)
    (.inr ⟨rfl, by rw [goto_pc_self]; exact id⟩) ?_
  · have released := inv.orderly.release asked done freed.free freed.desc
      { s.info chain.head with b := none }
    have pcs := view_woken (s := { s with
      info := update s.info chain.head { s.info chain.head with b := none }
      free := u.free
      desc := u.desc }) freed.pcs
    rw [view_goto]
    have view : u.view = { s.view with
        free := u.free
        desc := u.desc
        info := update s.info chain.head { s.info chain.head with b := none } } := by
      rw [freed.rest]
      exact pcs
    have returned : u.returned = s.returned := by rw [freed.rest]
    have changed : { u with
        vdiskLock := none
        returned := update u.returned r true }.view =
        { u.view with returned := update u.returned r true } := rfl
    rw [changed, view, returned]
    exact released
  · rw [goto_pc_of_ne _ _ other]
    exact freed.pcs q
  · rw [freed.rest]
    and_intros <;> rfl

end

theorem Inv.rwStep (can : CanStep s (s.pc p)) : Inv (rwStep s p) := by
  unfold Virtio.rwStep
  cases there : s.pc p with
  | idle | holding => exact inv
  | acquire b write =>
    rw [there] at can
    exact inv.acquire there can rfl rfl rfl (by simp)
  | waitFree b write asleep =>
    rw [there] at can
    exact inv.acquire there can.2 rfl rfl rfl (by simp)
  | waitDisk b chain r asleep =>
    rw [there] at can
    exact inv.acquire there can.2 rfl rfl rfl (by simp)
  | alloc b write => exact inv.rwAlloc there
  | format b write chain r => exact inv.rwFormat there
  | ring b chain r => exact inv.rwRing there
  | publish b chain r => exact inv.rwPublish there
  | test b chain r => exact inv.rwTest there
  | finish b chain r => exact inv.rwFinish there

omit [DecidableEq Pid] [DecidableEq Buf] in
/-- The handler's test tells whether a completed chain waits. -/
theorem Inv.pending_iff :
    s.usedIdx % .ofNat 16 num ≠ s.usedId % .ofNat 16 num ↔ s.pending ≠ [] := by
  obtain ⟨k, usedIdx, usedId, -⟩ := inv.used
  have room := inv.room.2
  rw [usedIdx, usedId, ← length_pos_iff]
  simp only [ne_eq, BitVec.toNat_eq, BitVec.toNat_umod, BitVec.toNat_ofNat, num, Nat.reducePow,
    Nat.reduceMod] at room ⊢
  omega

omit [DecidableEq Pid] in
/-- The body of the handler's loop clears the oldest completed chain. -/
theorem Inv.intrBody (waiting : s.pending ≠ []) :
    Inv (intrBody s (s.elemAt s.usedIdx.toNat)) := by
  obtain ⟨k, usedIdx, usedId, elems⟩ := inv.used
  obtain ⟨h, rest, pending⟩ := exists_cons_of_ne_nil waiting
  rw [pending, map_cons] at elems
  obtain ⟨first, later⟩ := elems.pop
  have elem : s.elemAt s.usedIdx.toNat = h.val := by
    have small : k % num < num := Nat.mod_lt k (by decide)
    have value : s.usedIdx.toNat = k % num := by
      rw [usedIdx, BitVec.toNat_ofNat, Nat.mod_eq_of_lt (small.trans (by decide))]
    have cell : (s.elems ⟨k % num, small⟩).toNat = h.val := by
      rw [show s.elems ⟨k % num, small⟩ = .ofNat 32 h.val from first, BitVec.toNat_ofNat,
        Nat.mod_eq_of_lt (h.isLt.trans (by decide))]
    rw [State.elemAt, dif_pos (value ▸ small)]
    simpa only [value] using cell
  have listed : h ∈ s.view.queue := by simp [View.queue, State.view, pending]
  obtain ⟨p, x, asked, out, rfl⟩ := inv.orderly.queued h listed
  have linked := (inv.orderly.tracked p x asked).linked (by simp [out])
  have info : s.info x.chain.head = ⟨some x.b, 0⟩ := linked.info
  have request : s.request x.chain.head = x.r := linked.request
  obtain ⟨pc, pcs, woken⟩ : ∃ pc : Pid → Pc Buf, pc = (fun p => (s.pc p).wakeDisk x.b) ∧
      ∀ p, (s.pc p).Woken (pc p) := ⟨_, rfl, fun p => (s.pc p).woken_wakeDisk x.b⟩
  have result : Virtio.intrBody s (s.elemAt s.usedIdx.toNat) = { s with
      disk := update s.disk x.b false
      pc := pc
      usedIdx := (s.usedIdx + 1) % .ofNat 16 num
      pending := rest
      clears := update s.clears x.r (s.clears x.r + 1) } := by
    rw [elem, Virtio.intrBody, dif_pos x.chain.head.isLt, pcs]
    simp only [Fin.eta, info, request, wakeupDisk, pending]
    simp
  have cleared : Inv { s with
      disk := update s.disk x.b false
      usedIdx := (s.usedIdx + 1) % .ofNat 16 num
      pending := rest
      clears := update s.clears x.r (s.clears x.r + 1) } := by
    refine ⟨inv.orderly.clear asked out pending, inv.fault, inv.lockProc, inv.lockCpu, inv.bufs,
      inv.entry, inv.avail, ⟨k + 1, ?_, ?_, later⟩⟩
    · have one : (1 : BitVec 16).toNat = 1 := rfl
      simp only [usedIdx, BitVec.toNat_eq, BitVec.toNat_umod, BitVec.toNat_add, one,
        BitVec.toNat_ofNat, num, Nat.reducePow, Nat.reduceMod]
      omega
    · rw [pending, length_cons] at usedId
      exact usedId.trans (congrArg _ (by dsimp only; omega))
  rw [result]
  exact cleared.woken woken

omit [DecidableEq Pid] in
theorem Inv.intrStep [DecidableEq Cpu] {c : Cpu}
    (can : s.handler c = .acquire ∧ s.vdiskLock = none ∨ s.handler c = .loop) :
    Inv (intrStep s c) := by
  rcases can with ⟨there, free⟩ | there
  · have result : Virtio.intrStep s c = { s with
        vdiskLock := some (.cpu c)
        handler := update s.handler c .loop } := by
      rw [Virtio.intrStep, there]
    rw [result]
    refine inv.quiet rfl rfl ⟨rfl, rfl, rfl, rfl, rfl, rfl⟩ (fun q locked => ?_)
      (fun d loops => ?_) inv.bufs fun _ _ _ _ => id
    · have holds := inv.lockProc q locked
      simp [free] at holds
    · rcases eq_or_ne d c with rfl | other
      · rfl
      · have holds := inv.lockCpu d ((update_of_ne other ..).symm.trans loops)
        simp [free] at holds
  · by_cases waiting : s.usedIdx % .ofNat 16 num ≠ s.usedId % .ofNat 16 num
    · have result : Virtio.intrStep s c = Virtio.intrBody s (s.elemAt s.usedIdx.toNat) := by
        rw [Virtio.intrStep, there]
        exact if_pos waiting
      rw [result]
      exact inv.intrBody (inv.pending_iff.mp waiting)
    · have result : Virtio.intrStep s c = { s with
          vdiskLock := none
          handler := update s.handler c .idle } := by
        rw [Virtio.intrStep, there]
        exact if_neg waiting
      rw [result]
      have mine := inv.lockCpu c there
      refine inv.quiet rfl rfl ⟨rfl, rfl, rfl, rfl, rfl, rfl⟩ (fun q locked => ?_)
        (fun d loops => ?_) inv.bufs fun _ _ _ _ => id
      · have holds := inv.lockProc q locked
        simp [mine] at holds
      · rcases eq_or_ne d c with rfl | other
        · have idle := (update_self d Handler.idle s.handler).symm.trans loops
          simp at idle
        · have holds := inv.lockCpu d ((update_of_ne other ..).symm.trans loops)
          rw [mine] at holds
          exact absurd (by simpa using holds) other.symm

section

omit [DecidableEq Pid] [DecidableEq Buf]

theorem Inv.deviceTake (offered : s.seen ≠ s.availIdx) : Inv (deviceTake s) := by
  obtain ⟨k, seen, availIdx, ring⟩ := inv.avail
  have some : s.posted ≠ [] := by
    intro empty
    rw [empty] at availIdx
    exact offered (seen.trans availIdx.symm)
  obtain ⟨h, rest, posted⟩ := exists_cons_of_ne_nil some
  rw [posted, map_cons] at ring
  obtain ⟨first, later⟩ := ring.pop
  have head : (s.ring (ringCell num s.seen.toNat)).toNat = h.val := by
    rw [seen, ringCell_ofNat, first, toNat_ofNat_index]
  have result : Virtio.deviceTake s = { s with
      seen := s.seen + 1
      inflight := h :: s.inflight
      posted := rest } := by
    unfold Virtio.deviceTake
    simp only [head, posted]
    rw [dif_pos h.isLt]
    rfl
  rw [result]
  refine ⟨inv.orderly.of_perm ?_, inv.fault, inv.lockProc, inv.lockCpu, inv.bufs, inv.entry,
    ⟨k + 1, ?_, ?_, later⟩, inv.used⟩
  · change (rest ++ h :: s.inflight).Perm (s.posted ++ s.inflight)
    rw [posted]
    exact perm_middle
  · rw [seen]
    exact (BitVec.ofNat_add ..).symm
  · rw [posted, length_cons] at availIdx
    exact availIdx.trans (congrArg _ (by dsimp only; omega))

theorem Inv.deviceComplete {head : Index} (taken : head ∈ s.inflight) :
    Inv (deviceComplete s head) := by
  have listed : head ∈ s.view.queue := by simp [View.queue, State.view, taken]
  obtain ⟨p, x, asked, out, rfl⟩ := inv.orderly.queued head listed
  have linked := (inv.orderly.tracked p x asked).linked (by simp [out])
  have status : s.statusOf x.chain.head = .status x.chain.head := by
    have headNext : (s.desc x.chain.head).next = .ofNat 16 x.chain.data := linked.headNext
    have dataNext : (s.desc x.chain.data).next = .ofNat 16 x.chain.status := linked.dataNext
    rw [State.statusOf, headNext, toNat_ofNat_index, descAt_index, dataNext, toNat_ofNat_index,
      descAt_index]
    exact linked.statusAddr
  have info : s.info x.chain.head = ⟨some x.b, 0⟩ := linked.info
  have request : s.request x.chain.head = x.r := linked.request
  have result : Virtio.deviceComplete s x.chain.head = { s with
      elems := update s.elems (ringCell num s.usedId.toNat) (.ofNat 32 x.chain.head)
      usedId := s.usedId + 1
      inflight := s.inflight.erase x.chain.head
      pending := s.pending ++ [x.chain.head]
      completions := update s.completions x.r (s.completions x.r + 1) } := by
    have same : update s.info x.chain.head { s.info x.chain.head with status := 0 } =
        s.info := by
      rw [info, ← info]
      exact update_eq_self ..
    unfold Virtio.deviceComplete
    rw [status, request]
    simp only [same]
  rw [result]
  obtain ⟨k, usedIdx, usedId, elems⟩ := inv.used
  refine ⟨inv.orderly.complete asked out taken, inv.fault, inv.lockProc, inv.lockCpu, inv.bufs,
    inv.entry, inv.avail, ⟨k, usedIdx, ?_, ?_⟩⟩
  · rw [usedId, length_append, length_singleton, ← add_assoc]
    exact (BitVec.ofNat_add ..).symm
  · have pushed := elems.push (by simpa using inv.room.2) (.ofNat 32 x.chain.head)
    rw [length_map, ← ringCell_ofNat, ← usedId] at pushed
    rwa [map_append]

end

theorem Inv.step [DecidableEq Cpu] {action : Action Pid Cpu Buf}
    (enabled : (virtioSystem Pid Cpu Buf).Enabled s action) :
    Inv ((virtioSystem Pid Cpu Buf).next s action) := by
  obtain ⟨-, enabled⟩ := enabled
  cases action with
  | lock p b =>
    obtain ⟨idle, free⟩ := enabled
    refine inv.outside (by rw [idle]; rfl) (by rw [idle]; rfl) rfl rfl id
      (fun q b' other has => ?_) fun b' mine => ?_
    · have differ : b' ≠ b := by
        rintro rfl
        simp [free] at has
      rwa [update_of_ne differ]
    · cases mine
      exact update_self ..
  | unlock p =>
    obtain ⟨b, there⟩ := enabled
    have result : (virtioSystem Pid Cpu Buf).next s (.unlock p) =
        { s with bufLock := update s.bufLock b none }.goto p .idle := by
      simp only [virtioSystem, Virtio.next, there]
    rw [result]
    refine inv.outside (by rw [there]; rfl) (by rw [there]; rfl) rfl rfl id
      (fun q b' other has => ?_) nofun
    have differ : b' ≠ b := by
      rintro rfl
      have mine := inv.bufs p b' (by rw [there]; rfl)
      rw [has] at mine
      exact other (Option.some.inj mine)
    rwa [update_of_ne differ]
  | call p write =>
    obtain ⟨b, there⟩ := enabled
    have result : (virtioSystem Pid Cpu Buf).next s (.call p write) =
        { s with bufLock := s.bufLock }.goto p (.acquire b write) := by
      simp only [virtioSystem, Virtio.next, there]
    rw [result]
    exact inv.outside (by rw [there]; rfl) (by rw [there]; rfl) rfl rfl id
      (fun q b' _ has => has) fun b' mine => inv.bufs p b' (by rw [there]; exact mine)
  | rw p => exact inv.rwStep enabled
  | kill p =>
    refine inv.woken fun q => ?_
    rcases eq_or_ne q p with rfl | other
    · rw [update_self]
      exact Pc.woken_wake _
    · rw [update_of_ne other]
      exact .refl _
  | interrupt c =>
    refine inv.quiet rfl rfl ⟨rfl, rfl, rfl, rfl, rfl, rfl⟩ inv.lockProc (fun d loops => ?_)
      inv.bufs fun _ _ _ _ => id
    change update s.handler c Handler.acquire d = .loop at loops
    rcases eq_or_ne d c with rfl | other
    · simp at loops
    · rw [update_of_ne other] at loops
      exact inv.lockCpu d loops
  | intr c => exact inv.intrStep enabled
  | take => exact inv.deviceTake enabled
  | complete head => exact inv.deviceComplete enabled

end

variable [DecidableEq Buf]

section

omit [DecidableEq Pid] [DecidableEq Buf]

theorem Initial.inv (initial : Initial s) : Inv s where
  orderly := by
    have nobody : ∀ p x, s.view.asks p ≠ some x := fun p x => by
      simp [State.view, initial.pc p, Pc.request]
    have queue : s.view.queue = [] := by
      simp [View.queue, State.view, initial.posted, initial.inflight, initial.pending]
    refine ⟨⟨fun p x there => absurd there (nobody p x), fun p x there => absurd there (nobody p x),
      fun p _ x _ _ there => absurd there (nobody p x), fun i taken => ?_,
      fun p _ x _ there => absurd there (nobody p x), fun p x there => absurd there (nobody p x),
      fun p _ x _ there => absurd there (nobody p x)⟩,
      fun p x there => absurd there (nobody p x), by simp [queue], by simp [queue],
      fun r below => ?_, fun r _ => ⟨initial.completions r, initial.clears r, initial.returned r⟩⟩
    · have free : s.view.free i = true := initial.free i
      simp [free] at taken
    · have serial : s.view.serial = 0 := initial.serial
      omega
  fault := initial.fault
  lockProc p locked := by
    rw [initial.pc p] at locked
    exact absurd locked id
  lockCpu c loops := by simp [initial.handler c] at loops
  bufs p b has := by simp [initial.pc p, Pc.buf] at has
  entry p b chain r there := by simp [initial.pc p] at there
  avail := ⟨0, initial.seen, by rw [initial.availIdx, initial.posted]; rfl,
    by rw [initial.posted]; exact .nil _ 0⟩
  used := ⟨0, initial.usedIdx, by rw [initial.usedId, initial.pending]; rfl,
    by rw [initial.pending]; exact .nil _ 0⟩

/-- Each number is returned, under way, or not given out. -/
theorem Inv.number_cases (inv : Inv s) (r : Nat) :
    s.completions r = 1 ∧ s.clears r = 1 ∨
      s.completions r = 0 ∧ s.clears r = 0 ∧ s.returned r = false ∨
      s.completions r = 1 ∧ s.clears r = 0 ∧ s.returned r = false ∧
        ∃ h ∈ s.pending, s.request h = r := by
  by_cases asked : ∃ p x, s.view.asks p = some x ∧ x.r = r
  · obtain ⟨p, x, there, rfl⟩ := asked
    obtain ⟨linked, -, -, unreturned, counts⟩ := inv.orderly.tracked p x there
    cases stage : s.view.stage p with
    | unset | set =>
      rw [stage] at counts
      exact .inr (.inl ⟨counts.1, counts.2, unreturned⟩)
    | done =>
      rw [stage] at counts
      exact .inl counts
    | out =>
      rw [stage] at counts
      obtain ⟨completions, clears⟩ := counts
      by_cases early : x.chain.head ∈ s.view.posted ++ s.view.inflight
      · have queued : x.chain.head ∈ s.view.queue := by
          rw [View.queue, ← append_assoc]
          exact mem_append_left _ early
        rw [if_pos early] at completions
        rw [if_pos queued] at clears
        exact .inr (.inl ⟨completions, clears, unreturned⟩)
      · rw [if_neg early] at completions
        by_cases queued : x.chain.head ∈ s.view.queue
        · rw [if_pos queued] at clears
          rw [View.queue, ← append_assoc] at queued
          have waits := (mem_append.mp queued).resolve_left early
          exact .inr (.inr ⟨completions, clears, unreturned, x.chain.head, waits,
            (linked (by simp [stage])).request⟩)
        · rw [if_neg queued] at clears
          exact .inl ⟨completions, clears⟩
  · rcases lt_or_ge r s.serial with given | later
    · have past := inv.orderly.past r given fun p x there same => asked ⟨p, x, there, same⟩
      exact .inl ⟨past.1, past.2.1⟩
    · exact .inr (.inl (inv.orderly.future r later))

end

/-- What the driver guarantees at any moment. -/
structure Safe (s : State Pid Cpu Buf) : Prop where
  /-- No panic, no access through a bad index or pointer. -/
  fault : s.fault = none
  /-- A free descriptor is in no chain. -/
  free : ∀ i, s.free i = true → ∀ p x, (s.pc p).request = some x → i ∉ x.chain.indices
  /-- A descriptor in use is in the chain of exactly one request. -/
  owned : ∀ i, s.free i = false → ∃! p, ∃ x, (s.pc p).request = some x ∧ i ∈ x.chain.indices
  /-- A chain has three descriptors. -/
  three : ∀ p x, (s.pc p).request = some x → x.chain.indices.Nodup
  /-- No request is completed twice or cleared without being completed. -/
  once : ∀ r, s.clears r ≤ s.completions r ∧ s.completions r ≤ 1
  /-- A request returns after its own completion. -/
  returned : ∀ r, s.returned r = true → s.completions r = 1 ∧ s.clears r = 1
  /-- A completed request is cleared once or its head waits in `used`. -/
  cleared : ∀ r, s.completions r = 1 → s.clears r = 1 ∨ ∃ h ∈ s.pending, s.request h = r
  /-- What waits in `used` is the request with this head, with its own buffer. -/
  waiting : ∀ h ∈ s.pending, ∃ p x, (s.pc p).request = some x ∧ x.chain.head = h ∧
    s.request h = x.r ∧ s.info h = ⟨some x.b, 0⟩ ∧ s.disk x.b = true
  /-- After its loop the handler has cleared every completed request. -/
  drained : s.usedIdx % .ofNat 16 num = s.usedId % .ofNat 16 num → ∀ r, s.clears r = s.completions r
  /-- The entries of `used` from `used_idx` on are the completed chains not yet consumed. -/
  used : ∃ k, s.usedIdx = .ofNat 16 (k % num) ∧ s.usedId = .ofNat 16 (k + s.pending.length) ∧
    RingHolds s.elems k (s.pending.map fun h => .ofNat 32 h.val)

omit [DecidableEq Pid] [DecidableEq Buf] in
theorem Inv.safe (inv : Inv s) : Safe s where
  fault := inv.fault
  free i free p x asked member := by
    have busy : s.free i = false := inv.orderly.owns.busy p x asked i member
    simp [free] at busy
  owned i busy := by
    obtain ⟨p, x, asked, member⟩ := inv.orderly.owns.owned i busy
    refine ⟨p, ⟨x, asked, member⟩, ?_⟩
    rintro q ⟨y, other, shared⟩
    exact inv.orderly.owns.disjoint q p y x i other asked shared member
  three p x asked := inv.orderly.owns.distinct p x asked
  once r := by
    rcases inv.number_cases r with ⟨completions, clears⟩ | ⟨completions, clears, -⟩ |
      ⟨completions, clears, -⟩ <;> rw [completions, clears] <;> decide
  returned r back := by
    rcases inv.number_cases r with both | ⟨-, -, waits⟩ | ⟨-, -, waits, -⟩
    · exact both
    all_goals simp [back] at waits
  cleared r completed := by
    rcases inv.number_cases r with both | ⟨never, -⟩ | ⟨-, -, -, waits⟩
    · exact .inl both.2
    · simp [completed] at never
    · exact .inr waits
  waiting h listed := by
    have queued : h ∈ s.view.queue := by simp [View.queue, State.view, listed]
    obtain ⟨p, x, asked, out, rfl⟩ := inv.orderly.queued h queued
    obtain ⟨linked, -, waits, -, -⟩ := inv.orderly.tracked p x asked
    have formatted := linked (by simp [out])
    exact ⟨p, x, asked, rfl, formatted.request, formatted.info, (waits out).mpr queued⟩
  drained equal r := by
    have empty : s.pending = [] := by
      by_contra some
      exact inv.pending_iff.mpr some equal
    rcases inv.number_cases r with ⟨completions, clears⟩ | ⟨completions, clears, -⟩ |
      ⟨-, -, -, h, listed, -⟩
    · rw [completions, clears]
    · rw [completions, clears]
    · simp [empty] at listed
  used := inv.used

/-- From the state after `virtio_disk_init`, whatever processes, device and handlers do and
however often the indices wrap. -/
theorem descriptor_protocol_safe [DecidableEq Cpu] {start s : State Pid Cpu Buf}
    (initial : Initial start) (run : (virtioSystem Pid Cpu Buf).Reaches start s) : Safe s := by
  have kept : Inv s := run.invariant (P := Inv) (fun _ _ inv enabled => inv.step enabled)
    initial.inv
  exact kept.safe

end Invariant

/-- One process, one CPU and one buffer. -/
def oneReader : State (Fin 1) (Fin 1) (Fin 1) where
  desc _ := ⟨.null, 0, 0, 0⟩
  ring _ := 0
  availIdx := 0
  elems _ := 0
  usedId := 0
  free _ := true
  usedIdx := 0
  info _ := ⟨none, 0⟩
  vdiskLock := none
  disk _ := false
  bufLock _ := none
  pc _ := .idle
  handler _ := .idle
  seen := 0
  inflight := []
  fault := none
  posted := []
  pending := []
  serial := 0
  request _ := 0
  completions _ := 0
  clears _ := 0
  returned _ := false

theorem oneReader_initial : Initial oneReader where
  availIdx := rfl
  usedId := rfl
  free _ := rfl
  usedIdx := rfl
  vdiskLock := rfl
  bufLock _ := rfl
  pc _ := rfl
  handler _ := rfl
  seen := rfl
  inflight := rfl
  fault := rfl
  posted := rfl
  pending := rfl
  serial := rfl
  completions _ := rfl
  clears _ := rfl
  returned _ := rfl

/-- The process reads its block and the handler wakes it. -/
def readOnce : List (Action (Fin 1) (Fin 1) (Fin 1)) :=
  [.lock 0 0, .call 0 false, .rw 0, .rw 0, .rw 0, .rw 0, .rw 0, .rw 0, .take, .complete 0,
    .interrupt 0, .intr 0, .intr 0, .intr 0, .rw 0, .rw 0, .rw 0]

instance decidableCanStep (s : State (Fin 1) (Fin 1) (Fin 1)) :
    (pc : Pc (Fin 1)) → Decidable (CanStep s pc)
  | .idle | .holding _ => inferInstanceAs (Decidable False)
  | .acquire _ _ => inferInstanceAs (Decidable (_ = _))
  | .waitFree _ _ _ | .waitDisk _ _ _ _ => inferInstanceAs (Decidable (_ ∧ _))
  | .alloc _ _ | .format _ _ _ _ | .ring _ _ _ | .publish _ _ _ | .test _ _ _ | .finish _ _ _ =>
    inferInstanceAs (Decidable True)

instance decidableEnabled (s : State (Fin 1) (Fin 1) (Fin 1)) :
    (action : Action (Fin 1) (Fin 1) (Fin 1)) →
      Decidable ((virtioSystem (Fin 1) (Fin 1) (Fin 1)).Enabled s action)
  | .lock _ _ => inferInstanceAs (Decidable (_ ∧ _ ∧ _))
  | .unlock _ | .call _ _ => inferInstanceAs (Decidable (_ ∧ ∃ _, _))
  | .rw p => inferInstanceAs (Decidable (_ ∧ CanStep s (s.pc p)))
  | .kill _ => inferInstanceAs (Decidable (_ ∧ True))
  | .interrupt _ | .take => inferInstanceAs (Decidable (_ ∧ _))
  | .intr _ => inferInstanceAs (Decidable (_ ∧ (_ ∧ _ ∨ _)))
  | .complete _ => inferInstanceAs (Decidable (_ ∧ _ ∈ _))

theorem readOnce_run : (virtioSystem (Fin 1) (Fin 1) (Fin 1)).Reaches oneReader
    (readOnce.foldl next oneReader) :=
  System.Schedules.reaches (by decide +kernel)

/-- The request has returned, so it was completed and cleared once. -/
theorem descriptor_protocol_safe_readOnce :
    (readOnce.foldl next oneReader).returned 0 = true ∧
      (readOnce.foldl next oneReader).completions 0 = 1 ∧
      (readOnce.foldl next oneReader).clears 0 = 1 :=
  have back : (readOnce.foldl next oneReader).returned 0 = true := by decide +kernel
  ⟨back, (descriptor_protocol_safe oneReader_initial readOnce_run).returned 0 back⟩

end OsLab.Virtio
