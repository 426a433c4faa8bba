import OsLab.Virtio.Model

/-!
# Requests and descriptors

What the driver and the device agree on, independent of the rings: each request owns a chain of
three descriptors, and the head of a chain that is on its way stands in exactly one of the queues.
-/

namespace OsLab.Virtio

open Function List

/-- How far `virtio_disk_rw` has come with its chain. -/
inductive Stage where
  | unset
  | set
  | out
  /-- `b->disk` has been seen cleared. -/
  | done
deriving DecidableEq

/-- A request under way: its buffer, its descriptors and its number. -/
structure Request (Buf : Type*) where
  b : Buf
  chain : Chain
  r : Nat

/-- The request a process is busy with. -/
def Pc.request {Buf : Type*} : Pc Buf → Option (Request Buf)
  | .format b _ chain r | .ring b chain r | .publish b chain r | .test b chain r
  | .waitDisk b chain r _ | .finish b chain r => some ⟨b, chain, r⟩
  | .idle | .holding _ | .acquire _ _ | .alloc _ _ | .waitFree _ _ _ => none

/-- How far the process has come with its request. -/
def Pc.stage {Buf : Type*} : Pc Buf → Stage
  | .ring _ _ _ | .publish _ _ _ => .set
  | .test _ _ _ | .waitDisk _ _ _ _ => .out
  | .finish _ _ _ => .done
  | .format _ _ _ _ | .idle | .holding _ | .acquire _ _ | .alloc _ _ | .waitFree _ _ _ => .unset

/-- The part of the state that concerns requests. -/
structure View (Pid Buf : Type*) where
  asks : Pid → Option (Request Buf)
  stage : Pid → Stage
  free : Index → Bool
  desc : Index → Desc Pid Buf
  info : Index → Info Buf
  disk : Buf → Bool
  posted : List Index
  inflight : List Index
  pending : List Index
  serial : Nat
  request : Index → Nat
  completions : Nat → Nat
  clears : Nat → Nat
  returned : Nat → Bool

/-- What is to be seen of the requests. -/
def State.view {Pid Cpu Buf : Type*} (s : State Pid Cpu Buf) : View Pid Buf where
  asks p := (s.pc p).request
  stage p := (s.pc p).stage
  free := s.free
  desc := s.desc
  info := s.info
  disk := s.disk
  posted := s.posted
  inflight := s.inflight
  pending := s.pending
  serial := s.serial
  request := s.request
  completions := s.completions
  clears := s.clears
  returned := s.returned

section Orderly

variable {Pid Buf : Type*} {p : Pid} {b : Buf} {chain : Chain} {stage : Stage}

/-- The heads of all chains between publication and clearing. -/
def View.queue (v : View Pid Buf) : List Index := v.posted ++ (v.inflight ++ v.pending)

theorem Chain.head_mem (chain : Chain) : chain.head ∈ chain.indices := by simp [Chain.indices]

theorem Chain.data_mem (chain : Chain) : chain.data ∈ chain.indices := by simp [Chain.indices]

theorem Chain.status_mem (chain : Chain) : chain.status ∈ chain.indices := by
  simp [Chain.indices]

/-- Each descriptor is free or belongs to one request; requests have their own buffers and
numbers. -/
structure Owns (asks : Pid → Option (Request Buf)) (free : Index → Bool) (serial : Nat) : Prop where
  distinct : ∀ p x, asks p = some x → x.chain.indices.Nodup
  busy : ∀ p x, asks p = some x → ∀ i ∈ x.chain.indices, free i = false
  disjoint : ∀ p q x y i, asks p = some x → asks q = some y → i ∈ x.chain.indices →
    i ∈ y.chain.indices → p = q
  owned : ∀ i, free i = false → ∃ p x, asks p = some x ∧ i ∈ x.chain.indices
  buffers : ∀ p q x y, asks p = some x → asks q = some y → x.b = y.b → p = q
  recent : ∀ p x, asks p = some x → x.r < serial
  numbers : ∀ p q x y, asks p = some x → asks q = some y → x.r = y.r → p = q

theorem asks_update {asks : Pid → Option (Request Buf)} [DecidableEq Pid] {q : Pid}
    {new : Option (Request Buf)} {y : Request Buf} (there : update asks p new q = some y) :
    q = p ∧ new = some y ∨ q ≠ p ∧ asks q = some y := by
  rcases eq_or_ne q p with rfl | other
  · rw [update_self] at there
    exact .inl ⟨rfl, there⟩
  · rw [update_of_ne other] at there
    exact .inr ⟨other, there⟩

namespace Owns

variable {asks : Pid → Option (Request Buf)} {free : Index → Bool} {serial : Nat}

theorem same_of_head (owns : Owns asks free serial) {q : Pid} {x y : Request Buf}
    (left : asks p = some x) (right : asks q = some y) (same : x.chain.head = y.chain.head) :
    p = q ∧ x = y := by
  obtain rfl := owns.disjoint p q x y x.chain.head left right x.chain.head_mem
    (same ▸ y.chain.head_mem)
  exact ⟨rfl, Option.mem_unique left right⟩

theorem length_heads (owns : Owns asks free serial) {heads : List Index} (nodup : heads.Nodup)
    (each : ∀ h ∈ heads, ∃ p x, asks p = some x ∧ x.chain.head = h) : heads.length * 3 ≤ num := by
  classical
  have chosen : ∀ h : Index, ∃ chain : Chain, h ∈ heads →
      ∃ p x, asks p = some x ∧ x.chain = chain ∧ chain.head = h := by
    intro h
    by_cases listed : h ∈ heads
    · obtain ⟨p, x, there, head⟩ := each h listed
      exact ⟨x.chain, fun _ => ⟨p, x, there, rfl, head⟩⟩
    · exact ⟨⟨h, h, h⟩, (absurd · listed)⟩
  choose chain owner using chosen
  have apart : Set.PairwiseDisjoint (heads.toFinset : Set Index)
      fun h => (chain h).indices.toFinset := by
    intro h listed g other differ
    rw [onFun, Finset.disjoint_left]
    intro i left right
    rw [mem_toFinset] at left right
    obtain ⟨p, x, there, xchain, head⟩ := owner h (mem_toFinset.mp listed)
    obtain ⟨q, y, here, ychain, head'⟩ := owner g (mem_toFinset.mp other)
    obtain rfl := owns.disjoint p q x y i there here (xchain ▸ left) (ychain ▸ right)
    obtain rfl := Option.mem_unique there here
    exact differ (head.symm.trans ((congrArg Chain.head (xchain.symm.trans ychain)).trans head'))
  have three : ∀ h ∈ heads.toFinset, (chain h).indices.toFinset.card = 3 := by
    intro h listed
    obtain ⟨p, x, there, xchain, -⟩ := owner h (mem_toFinset.mp listed)
    rw [toFinset_card_of_nodup (xchain ▸ owns.distinct p x there)]
    rfl
  calc heads.length * 3 = heads.toFinset.card * 3 := by rw [toFinset_card_of_nodup nodup]
    _ = ∑ h ∈ heads.toFinset, (chain h).indices.toFinset.card := by
        rw [Finset.sum_const_nat three]
    _ = (heads.toFinset.biUnion fun h => (chain h).indices.toFinset).card :=
        (Finset.card_biUnion apart).symm
    _ ≤ Fintype.card Index := Finset.card_le_univ _
    _ = num := Fintype.card_fin num

variable [DecidableEq Pid] {free' : Index → Bool}

theorem allocate (owns : Owns asks free serial) (idle : asks p = none)
    (distinct : chain.indices.Nodup) (were : ∀ i ∈ chain.indices, free i = true)
    (now : ∀ i, free' i = (free i && !decide (i ∈ chain.indices)))
    (alone : ∀ q y, asks q = some y → y.b ≠ b) :
    Owns (update asks p (some ⟨b, chain, serial⟩)) free' (serial + 1) := by
  have older : ∀ {q y}, asks q = some y → y.r ≠ serial := fun there same =>
    absurd (owns.recent _ _ there) (same ▸ lt_irrefl _)
  have unused : ∀ {q y i}, asks q = some y → i ∈ y.chain.indices → i ∉ chain.indices := by
    intro q y i there member mine
    have taken := owns.busy q y there i member
    rw [were i mine] at taken
    simp at taken
  refine ⟨fun q y there => ?_, fun q y there i member => ?_,
    fun q q' y y' i left right member member' => ?_, fun i taken => ?_,
    fun q q' y y' left right same => ?_, fun q y there => ?_,
    fun q q' y y' left right same => ?_⟩
  · rcases asks_update there with ⟨rfl, new⟩ | ⟨-, old⟩
    · cases new
      exact distinct
    · exact owns.distinct q y old
  · rw [now]
    rcases asks_update there with ⟨rfl, new⟩ | ⟨-, old⟩
    · cases new
      simp [show i ∈ chain.indices from member]
    · simp [owns.busy q y old i member]
  · rcases asks_update left with ⟨rfl, new⟩ | ⟨other, old⟩ <;>
      rcases asks_update right with ⟨rfl, new'⟩ | ⟨other', old'⟩
    · rfl
    · cases new
      exact absurd member (unused old' member')
    · cases new'
      exact absurd member' (unused old member)
    · exact owns.disjoint q q' y y' i old old' member member'
  · rw [now] at taken
    by_cases mine : i ∈ chain.indices
    · exact ⟨p, _, update_self .., mine⟩
    · obtain ⟨q, y, there, member⟩ := owns.owned i (by simpa [mine] using taken)
      have other : q ≠ p := by
        rintro rfl
        simp [idle] at there
      exact ⟨q, y, by rwa [update_of_ne other], member⟩
  · rcases asks_update left with ⟨rfl, new⟩ | ⟨other, old⟩ <;>
      rcases asks_update right with ⟨rfl, new'⟩ | ⟨other', old'⟩
    · rfl
    · cases new
      exact absurd same.symm (alone q' y' old')
    · cases new'
      exact absurd same (alone q y old)
    · exact owns.buffers q q' y y' old old' same
  · rcases asks_update there with ⟨rfl, new⟩ | ⟨-, old⟩
    · cases new
      exact Nat.lt_succ_self _
    · exact (owns.recent q y old).trans (Nat.lt_succ_self _)
  · rcases asks_update left with ⟨rfl, new⟩ | ⟨other, old⟩ <;>
      rcases asks_update right with ⟨rfl, new'⟩ | ⟨other', old'⟩
    · rfl
    · cases new
      exact absurd same.symm (older old')
    · cases new'
      exact absurd same (older old)
    · exact owns.numbers q q' y y' old old' same

/-- `free_chain` gives the descriptors of a request back. -/
theorem release (owns : Owns asks free serial) {x : Request Buf} (there : asks p = some x)
    (now : ∀ i, free' i = (free i || decide (i ∈ x.chain.indices))) :
    Owns (update asks p none) free' serial := by
  have old : ∀ {q y}, update asks p none q = some y → q ≠ p ∧ asks q = some y := by
    intro q y there
    rcases asks_update there with ⟨-, new⟩ | old
    · simp at new
    · exact old
  refine ⟨fun q y here => owns.distinct q y (old here).2, fun q y here i member => ?_,
    fun q q' y y' i left right => owns.disjoint q q' y y' i (old left).2 (old right).2,
    fun i taken => ?_,
    fun q q' y y' left right => owns.buffers q q' y y' (old left).2 (old right).2,
    fun q y here => owns.recent q y (old here).2,
    fun q q' y y' left right => owns.numbers q q' y y' (old left).2 (old right).2⟩
  · have apart : i ∉ x.chain.indices := fun mine =>
      (old here).1 (owns.disjoint q p y x i (old here).2 there member mine)
    rw [now, owns.busy q y (old here).2 i member]
    simpa using apart
  · rw [now] at taken
    simp only [Bool.or_eq_false_iff, decide_eq_false_iff_not] at taken
    obtain ⟨q, y, here, member⟩ := owns.owned i taken.1
    have other : q ≠ p := by
      rintro rfl
      obtain rfl := Option.mem_unique there here
      exact taken.2 member
    exact ⟨q, y, by rwa [update_of_ne other], member⟩

end Owns

/-- The descriptors of a request are formatted and `info` names its buffer. -/
structure Linked (v : View Pid Buf) (x : Request Buf) : Prop where
  head : (v.desc x.chain.head).flags &&& descNext ≠ 0
  headNext : (v.desc x.chain.head).next = .ofNat 16 x.chain.data
  data : (v.desc x.chain.data).flags &&& descNext ≠ 0
  dataNext : (v.desc x.chain.data).next = .ofNat 16 x.chain.status
  status : (v.desc x.chain.status).flags &&& descNext = 0
  statusAddr : (v.desc x.chain.status).addr = .status x.chain.head
  info : v.info x.chain.head = ⟨some x.b, 0⟩
  request : v.request x.chain.head = x.r

variable {x : Request Buf}

/-- Formatting depends on the descriptors of the chain and on the entries of its head. -/
theorem Linked.congr {v w : View Pid Buf} (linked : Linked v x)
    (desc : ∀ i ∈ x.chain.indices, w.desc i = v.desc i)
    (info : w.info x.chain.head = v.info x.chain.head)
    (request : w.request x.chain.head = v.request x.chain.head) : Linked w x where
  head := by rw [desc _ x.chain.head_mem]; exact linked.head
  headNext := by rw [desc _ x.chain.head_mem]; exact linked.headNext
  data := by rw [desc _ x.chain.data_mem]; exact linked.data
  dataNext := by rw [desc _ x.chain.data_mem]; exact linked.dataNext
  status := by rw [desc _ x.chain.status_mem]; exact linked.status
  statusAddr := by rw [desc _ x.chain.status_mem]; exact linked.statusAddr
  info := info.trans linked.info
  request := request.trans linked.request

/-- How often a request at some stage has been completed and cleared. -/
def Counts (v : View Pid Buf) (x : Request Buf) : Stage → Prop
  | .unset | .set => v.completions x.r = 0 ∧ v.clears x.r = 0
  | .out => v.completions x.r = (if x.chain.head ∈ v.posted ++ v.inflight then 0 else 1) ∧
      v.clears x.r = if x.chain.head ∈ v.queue then 0 else 1
  | .done => v.completions x.r = 1 ∧ v.clears x.r = 1

theorem Counts.congr {v w : View Pid Buf} (counts : Counts v x stage)
    (completions : w.completions x.r = v.completions x.r) (clears : w.clears x.r = v.clears x.r)
    (early : x.chain.head ∈ w.posted ++ w.inflight ↔ x.chain.head ∈ v.posted ++ v.inflight)
    (queued : x.chain.head ∈ w.queue ↔ x.chain.head ∈ v.queue) : Counts w x stage := by
  cases stage with
  | unset | set | done => exact ⟨completions.trans counts.1, clears.trans counts.2⟩
  | out =>
    refine ⟨completions.trans (counts.1.trans ?_), clears.trans (counts.2.trans ?_)⟩
    · simp only [early]
    · simp only [queued]

/-- What holds of a request at its stage. -/
structure Tracked (v : View Pid Buf) (x : Request Buf) (stage : Stage) : Prop where
  linked : stage ≠ .unset → Linked v x
  raised : stage = .set → v.disk x.b = true
  waits : stage = .out → (v.disk x.b = true ↔ x.chain.head ∈ v.queue)
  unreturned : v.returned x.r = false
  counts : Counts v x stage

theorem Tracked.congr {v w : View Pid Buf} (tracked : Tracked v x stage)
    (desc : ∀ i ∈ x.chain.indices, w.desc i = v.desc i)
    (info : w.info x.chain.head = v.info x.chain.head)
    (request : w.request x.chain.head = v.request x.chain.head) (disk : w.disk x.b = v.disk x.b)
    (returned : w.returned x.r = v.returned x.r)
    (completions : w.completions x.r = v.completions x.r) (clears : w.clears x.r = v.clears x.r)
    (early : x.chain.head ∈ w.posted ++ w.inflight ↔ x.chain.head ∈ v.posted ++ v.inflight)
    (queued : x.chain.head ∈ w.queue ↔ x.chain.head ∈ v.queue) : Tracked w x stage where
  linked formatted := (tracked.linked formatted).congr desc info request
  raised set := disk.trans (tracked.raised set)
  waits out := by
    rw [disk, queued]
    exact tracked.waits out
  unreturned := returned.trans tracked.unreturned
  counts := tracked.counts.congr completions clears early queued

/-- Every request is where its stage says, every head on its way belongs to a published request,
and every other number has been used up or not been given out. -/
structure Orderly (v : View Pid Buf) : Prop where
  owns : Owns v.asks v.free v.serial
  tracked : ∀ p x, v.asks p = some x → Tracked v x (v.stage p)
  queued : ∀ h ∈ v.queue, ∃ p x, v.asks p = some x ∧ v.stage p = .out ∧ x.chain.head = h
  once : v.queue.Nodup
  past : ∀ r < v.serial, (∀ p x, v.asks p = some x → x.r ≠ r) →
    v.completions r = 1 ∧ v.clears r = 1 ∧ v.returned r = true
  future : ∀ r, v.serial ≤ r → v.completions r = 0 ∧ v.clears r = 0 ∧ v.returned r = false

namespace Orderly

variable {v : View Pid Buf} (inv : Orderly v)
include inv

/-- Only published requests have their head in a queue. -/
theorem stage_of_queued (there : v.asks p = some x)
    (queued : x.chain.head ∈ v.queue) : v.stage p = .out := by
  obtain ⟨q, y, other, out, same⟩ := inv.queued _ queued
  obtain ⟨rfl, -⟩ := inv.owns.same_of_head there other same.symm
  exact out

theorem length_queue : v.queue.length ≤ 2 := by
  have bound := inv.owns.length_heads inv.once fun h listed =>
    (inv.queued h listed).imp fun p => Exists.imp fun x there => ⟨there.1, there.2.2⟩
  simp only [num] at bound
  omega

theorem ne_of_above (there : v.asks p = some x) {r : Nat} (above : v.serial ≤ r) : r ≠ x.r :=
  ((inv.owns.recent p x there).trans_le above).ne'

variable {desc : Index → Desc Pid Buf}

theorem of_desc (same : ∀ i, v.free i = false → desc i = v.desc i) :
    Orderly { v with desc := desc } where
  owns := inv.owns
  tracked p x there := (inv.tracked p x there).congr
    (fun i member => same i (inv.owns.busy p x there i member)) rfl rfl rfl rfl rfl rfl
    .rfl .rfl
  queued := inv.queued
  once := inv.once
  past := inv.past
  future := inv.future

/-- The chains of two requests are disjoint, and so are their buffers and numbers. -/
theorem apart {q : Pid} {x y : Request Buf} (left : v.asks p = some x)
    (right : v.asks q = some y) (other : q ≠ p) :
    (∀ i ∈ y.chain.indices, i ∉ x.chain.indices) ∧ y.chain.head ≠ x.chain.head ∧ y.b ≠ x.b ∧
      y.r ≠ x.r := by
  refine ⟨fun i member mine => other (inv.owns.disjoint q p y x i right left member mine),
    fun same => other (inv.owns.same_of_head right left same).1,
    fun same => other (inv.owns.buffers q p y x right left same),
    fun same => other (inv.owns.numbers q p y x right left same)⟩

variable [DecidableEq Pid]

theorem allocate {free : Index → Bool} (idle : v.asks p = none)
    (distinct : chain.indices.Nodup) (were : ∀ i ∈ chain.indices, v.free i = true)
    (now : ∀ i, free i = (v.free i && !decide (i ∈ chain.indices)))
    (alone : ∀ q y, v.asks q = some y → y.b ≠ b) : Orderly { v with
      asks := update v.asks p (some ⟨b, chain, v.serial⟩)
      stage := update v.stage p .unset
      free := free
      serial := v.serial + 1 } where
  owns := inv.owns.allocate idle distinct were now alone
  tracked q y there := by
    rcases asks_update there with ⟨rfl, new⟩ | ⟨other, old⟩
    · cases new
      obtain ⟨completions, clears, returned⟩ := inv.future v.serial le_rfl
      simp only [update_self]
      exact ⟨(absurd rfl ·), by simp, by simp, returned, completions, clears⟩
    · simp only [update_of_ne other]
      exact (inv.tracked q y old).congr (fun _ _ => rfl) rfl rfl rfl rfl rfl rfl .rfl .rfl
  queued h listed := by
    obtain ⟨q, y, there, out, head⟩ := inv.queued h listed
    have other : q ≠ p := by
      rintro rfl
      simp [idle] at there
    exact ⟨q, y, (update_of_ne other ..).trans there, (update_of_ne other ..).trans out, head⟩
  once := inv.once
  past r below nobody := by
    have before : r ≠ v.serial := fun same => nobody p _ (update_self ..) same.symm
    refine inv.past r (by simp only at below; omega) fun q y there => nobody q y ?_
    have other : q ≠ p := by
      rintro rfl
      simp [idle] at there
    exact (update_of_ne other ..).trans there
  future r above := inv.future r (Nat.le_of_succ_le above)

variable [DecidableEq Buf]

/-- The descriptors are formatted and `b->disk` is raised. -/
theorem format (there : v.asks p = some x) (unset : v.stage p = .unset)
    (others : ∀ i, i ∉ x.chain.indices → desc i = v.desc i) {w : View Pid Buf}
    (result : w = { v with
      stage := update v.stage p .set
      desc := desc
      info := update v.info x.chain.head ⟨some x.b, 0⟩
      disk := update v.disk x.b true
      request := update v.request x.chain.head x.r })
    (linked : Linked w x) : Orderly w := by
  subst result
  refine ⟨inv.owns, fun q y here => ?_, fun h listed => ?_, inv.once, inv.past,
    inv.future⟩
  · rcases eq_or_ne q p with rfl | other
    · obtain rfl := Option.mem_unique there here
      obtain ⟨-, -, -, unreturned, counts⟩ := inv.tracked q x there
      rw [unset] at counts
      simp only [update_self]
      exact ⟨fun _ => linked, fun _ => update_self .., by simp, unreturned, counts⟩
    · obtain ⟨disjoint, head, buffer, -⟩ := inv.apart there here other
      simp only [update_of_ne other]
      exact (inv.tracked q y here).congr (fun i member => others i (disjoint i member))
        (update_of_ne head ..) (update_of_ne head ..) (update_of_ne buffer ..) rfl rfl rfl
        .rfl .rfl
  · obtain ⟨q, y, here, out, head⟩ := inv.queued h listed
    have other : q ≠ p := by
      rintro rfl
      simp [unset] at out
    exact ⟨q, y, here, (update_of_ne other ..).trans out, head⟩

omit [DecidableEq Buf] in
theorem publish (there : v.asks p = some x) (set : v.stage p = .set) :
    Orderly { v with
      stage := update v.stage p .out
      posted := v.posted ++ [x.chain.head] } := by
  classical
  have fresh : x.chain.head ∉ v.queue := fun queued => by
    simp [inv.stage_of_queued there queued] at set
  have members : ∀ h, h ∈ v.posted ++ [x.chain.head] ++ (v.inflight ++ v.pending) ↔
      h ∈ v.queue ∨ h = x.chain.head := by
    intro h
    simp only [View.queue, mem_append, mem_singleton]
    tauto
  refine ⟨inv.owns, fun q y here => ?_, fun h listed => ?_, ?_, inv.past, inv.future⟩
  · rcases eq_or_ne q p with rfl | other
    · obtain rfl := Option.mem_unique there here
      obtain ⟨linked, raised, -, unreturned, counts⟩ := inv.tracked q x there
      rw [set] at counts
      simp only [update_self]
      refine ⟨fun _ => (linked (by simp [set])).congr (fun _ _ => rfl) rfl rfl, by simp,
        fun _ => iff_of_true (raised set) ((members _).mpr (.inr rfl)), unreturned, ?_, ?_⟩
      · exact counts.1.trans (if_pos (by simp)).symm
      · exact counts.2.trans (if_pos ((members _).mpr (.inr rfl))).symm
    · obtain ⟨-, head, -, -⟩ := inv.apart there here other
      simp only [update_of_ne other]
      refine (inv.tracked q y here).congr (fun _ _ => rfl) rfl rfl rfl rfl rfl rfl ?_
        ((members _).trans (or_iff_left head))
      simp [head]
  · rcases (members h).mp listed with old | rfl
    · obtain ⟨q, y, here, out, head⟩ := inv.queued h old
      have other : q ≠ p := by
        rintro rfl
        simp [set] at out
      exact ⟨q, y, here, (update_of_ne other ..).trans out, head⟩
    · exact ⟨p, x, there, update_self .., rfl⟩
  · have permuted : (v.posted ++ [x.chain.head] ++ (v.inflight ++ v.pending)).Perm
        (x.chain.head :: v.queue) := by
      rw [append_assoc, singleton_append]
      exact perm_middle
    exact permuted.nodup_iff.mpr (nodup_cons.mpr ⟨fresh, inv.once⟩)

section

omit [DecidableEq Buf] [DecidableEq Pid]

/-- A head moves along the queues without being completed or cleared. -/
theorem of_perm {posted inflight : List Index}
    (early : (posted ++ inflight).Perm (v.posted ++ v.inflight)) :
    Orderly { v with posted := posted, inflight := inflight } := by
  have whole : (posted ++ (inflight ++ v.pending)).Perm v.queue := by
    unfold View.queue
    rw [← append_assoc, ← append_assoc]
    exact early.append_right _
  exact ⟨inv.owns, fun q y here => (inv.tracked q y here).congr (fun _ _ => rfl) rfl rfl rfl
    rfl rfl rfl early.mem_iff whole.mem_iff, fun h listed => inv.queued h
      (whole.mem_iff.mp listed), whole.nodup_iff.mpr inv.once, inv.past, inv.future⟩

/-- The device completes the chain of a published request. -/
theorem complete (there : v.asks p = some x) (out : v.stage p = .out)
    (taken : x.chain.head ∈ v.inflight) : Orderly { v with
      inflight := v.inflight.erase x.chain.head
      pending := v.pending ++ [x.chain.head]
      completions := update v.completions x.r (v.completions x.r + 1) } := by
  classical
  have whole : (v.posted ++ (v.inflight.erase x.chain.head ++ (v.pending ++ [x.chain.head]))).Perm
      v.queue := by
    refine List.Perm.append_left _ ?_
    have moved : (v.inflight.erase x.chain.head ++ (v.pending ++ [x.chain.head])).Perm
        (x.chain.head :: v.inflight.erase x.chain.head ++ v.pending) := by
      rw [← append_assoc]
      exact perm_append_singleton ..
    exact moved.trans ((perm_cons_erase taken).symm.append_right _)
  have once : (v.posted ++ v.inflight).Nodup := by
    have nodup := inv.once
    rw [View.queue, ← append_assoc] at nodup
    exact nodup.of_append_left
  have gone : x.chain.head ∉ v.posted ++ v.inflight.erase x.chain.head := by
    obtain ⟨-, nodup, disjoint⟩ := nodup_append.mp once
    rw [mem_append]
    rintro (early | late)
    · exact disjoint _ early _ taken rfl
    · exact (List.Nodup.not_mem_erase nodup) late
  refine ⟨inv.owns, fun q y here => ?_,
    fun h listed => inv.queued h (whole.mem_iff.mp listed),
    whole.nodup_iff.mpr inv.once, fun r below nobody => ?_, fun r above => ?_⟩
  · rcases eq_or_ne q p with rfl | other
    · obtain rfl := Option.mem_unique there here
      obtain ⟨linked, raised, waits, unreturned, counts⟩ := inv.tracked q x there
      refine ⟨fun formatted => (linked formatted).congr (fun _ _ => rfl) rfl rfl, raised,
        fun out => (waits out).trans whole.mem_iff.symm, unreturned, ?_⟩
      rw [out] at counts ⊢
      obtain ⟨completions, clears⟩ := counts
      refine ⟨?_, clears.trans ?_⟩
      · rw [if_pos (mem_append_right _ taken)] at completions
        simp only [update_self, completions]
        rw [if_neg gone]
      · exact if_congr whole.mem_iff.symm rfl rfl
    · obtain ⟨-, head, -, number⟩ := inv.apart there here other
      refine (inv.tracked q y here).congr (fun _ _ => rfl) rfl rfl rfl rfl
        (update_of_ne number ..) rfl ?_ whole.mem_iff
      simp [mem_erase_of_ne head]
  · have number : r ≠ x.r := fun same => nobody p x there same.symm
    simp only [update_of_ne number]
    exact inv.past r below nobody
  · simp only [update_of_ne (inv.ne_of_above there above)]
    exact inv.future r above

end

section

variable (there : v.asks p = some x)
include there

omit [DecidableEq Pid] in
/-- The handler clears `b->disk` for the oldest completed chain. -/
theorem clear {rest : List Index} (out : v.stage p = .out)
    (oldest : v.pending = x.chain.head :: rest) :
    Orderly { v with
      disk := update v.disk x.b false
      pending := rest
      clears := update v.clears x.r (v.clears x.r + 1) } := by
  classical
  have permuted : v.queue.Perm (x.chain.head :: (v.posted ++ (v.inflight ++ rest))) := by
    rw [View.queue, oldest, ← append_assoc, ← append_assoc]
    exact perm_middle
  have nodup := permuted.nodup_iff.mp inv.once
  have gone := (nodup_cons.mp nodup).1
  have others : ∀ h, h ≠ x.chain.head → (h ∈ v.posted ++ (v.inflight ++ rest) ↔ h ∈ v.queue) := by
    intro h differ
    rw [permuted.mem_iff, mem_cons]
    simp [differ]
  have early : x.chain.head ∉ v.posted ++ v.inflight := by
    intro listed
    refine gone ?_
    rw [← append_assoc]
    exact mem_append_left _ listed
  refine ⟨inv.owns, fun q y here => ?_, fun h listed => ?_, (nodup_cons.mp nodup).2,
    fun r below nobody => ?_, fun r above => ?_⟩
  · rcases eq_or_ne q p with rfl | other
    · obtain rfl := Option.mem_unique there here
      obtain ⟨linked, raised, -, unreturned, counts⟩ := inv.tracked q x there
      simp only [out] at counts ⊢
      obtain ⟨completions, clears⟩ := counts
      refine ⟨fun _ => (linked (by simp [out])).congr (fun _ _ => rfl) rfl rfl, by simp,
        fun _ => iff_of_false (by simp) gone, unreturned, completions, ?_⟩
      rw [if_pos (permuted.mem_iff.mpr mem_cons_self)] at clears
      simp only [update_self, clears]
      exact (if_neg gone).symm
    · obtain ⟨-, head, buffer, number⟩ := inv.apart there here other
      exact (inv.tracked q y here).congr (fun _ _ => rfl) rfl rfl (update_of_ne buffer ..) rfl
        rfl (update_of_ne number ..) .rfl (others _ head)
  · have differ : h ≠ x.chain.head := fun same => gone (same ▸ listed)
    exact inv.queued h ((others h differ).mp listed)
  · have number : r ≠ x.r := fun same => nobody p x there same.symm
    simp only [update_of_ne number]
    exact inv.past r below nobody
  · simp only [update_of_ne (inv.ne_of_above there above)]
    exact inv.future r above

omit [DecidableEq Buf] in
/-- A request whose buffer is cleared has been completed and cleared once. -/
theorem settle (out : v.stage p = .out) (cleared : v.disk x.b = false) :
    Orderly { v with stage := update v.stage p .done } := by
  obtain ⟨linked, -, waits, unreturned, counts⟩ := inv.tracked p x there
  have gone : x.chain.head ∉ v.queue := fun queued => by
    simp [(waits out).mpr queued] at cleared
  refine ⟨inv.owns, fun q y here => ?_, fun h listed => ?_, inv.once, inv.past,
    inv.future⟩
  · rcases eq_or_ne q p with rfl | other
    · obtain rfl := Option.mem_unique there here
      rw [out] at counts
      simp only [update_self]
      refine ⟨fun _ => (linked (by simp [out])).congr (fun _ _ => rfl) rfl rfl, by simp, by simp,
        unreturned, counts.1.trans (if_neg ?_), counts.2.trans (if_neg gone)⟩
      intro early
      refine gone ?_
      rw [View.queue, ← append_assoc]
      exact mem_append_left _ early
    · simp only [update_of_ne other]
      exact (inv.tracked q y here).congr (fun _ _ => rfl) rfl rfl rfl rfl rfl rfl .rfl
        .rfl
  · obtain ⟨q, y, here, away, head⟩ := inv.queued h listed
    have other : q ≠ p := by
      rintro rfl
      obtain rfl := Option.mem_unique there here
      exact gone (head ▸ listed)
    exact ⟨q, y, here, (update_of_ne other ..).trans away, head⟩

omit [DecidableEq Buf] in
/-- The chain is freed and `virtio_disk_rw` returns. -/
theorem release (done : v.stage p = .done) {free : Index → Bool}
    (now : ∀ i, free i = (v.free i || decide (i ∈ x.chain.indices)))
    (others : ∀ i, i ∉ x.chain.indices → desc i = v.desc i) (entry : Info Buf) :
    Orderly { v with
      asks := update v.asks p none
      stage := update v.stage p .unset
      free := free
      desc := desc
      info := update v.info x.chain.head entry
      returned := update v.returned x.r true } := by
  classical
  obtain ⟨-, -, -, -, counts⟩ := inv.tracked p x there
  rw [done] at counts
  refine ⟨inv.owns.release there now, fun q y here => ?_, fun h listed => ?_, inv.once,
    fun r below nobody => ?_, fun r above => ?_⟩
  · rcases asks_update here with ⟨-, new⟩ | ⟨other, old⟩
    · simp at new
    · obtain ⟨disjoint, head, -, number⟩ := inv.apart there old other
      simp only [update_of_ne other]
      exact (inv.tracked q y old).congr (fun i member => others i (disjoint i member))
        (update_of_ne head ..) rfl rfl (update_of_ne number ..) rfl rfl .rfl .rfl
  · obtain ⟨q, y, here, out, head⟩ := inv.queued h listed
    have other : q ≠ p := by
      rintro rfl
      simp [done] at out
    exact ⟨q, y, (update_of_ne other ..).trans here, (update_of_ne other ..).trans out, head⟩
  · rcases eq_or_ne r x.r with rfl | number
    · exact ⟨counts.1, counts.2, update_self ..⟩
    · simp only [update_of_ne number]
      refine inv.past r below fun q y here => ?_
      rcases eq_or_ne q p with rfl | other
      · obtain rfl := Option.mem_unique there here
        exact number.symm
      · exact nobody q y ((update_of_ne other ..).trans here)
  · simp only [update_of_ne (inv.ne_of_above there above)]
    exact inv.future r above

end

end Orderly

end Orderly

end OsLab.Virtio
