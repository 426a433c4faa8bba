import OsLab.Fs.Inodes

/-!
# What code logs, and why it stops

Between two operations no buffer is locked, so `bread` never waits.  Then code that allocates blocks
can stop in three ways: all blocks are marked, no transaction is open, or the log is full.  Every
function is specified by these, by what it does to the volume, and by the blocks it hands to
`log_write`.
-/

namespace OsLab.Fs

open Act List Nat

variable {sb : Superblock} {s t u : State} {v w : Volume} {stale torn : Set Nat}

section Steps

variable {safe : Stop → Prop}

theorem ensures_bread {b : Nat} (fresh : b ∉ s.held) (post : Block → State → Prop) :
    Ensures safe (bread b) s post ↔ post (s.disk b) { s with held := b :: s.held } := by
  simp only [bread, ensures_bind, ensures_get, if_neg fresh, ensures_set, ensures_pure]

theorem ensures_brelse {b : Nat} {held : List Nat} (first : s.held = b :: held)
    (post : Unit → State → Prop) :
    Ensures safe (brelse b) s post ↔ post () { s with held := held } := by
  have member : b ∈ s.held := first ▸ mem_cons_self
  simp only [brelse, ensures_bind, ensures_get, if_pos member, ensures_set]
  rw [first, erase_cons_head]

/-- `log_write` stops when `more` blocks at most have been logged. -/
def LogStop (s : State) (more : Nat) (stop : Stop) : Prop :=
  stop = .outsideTrans ∧ s.outstanding = 0 ∨ stop = .tooBig ∧ logSize - 1 ≤ s.lhN + more

theorem LogStop.earlier {more k : Nat} {stop : Stop} (stops : LogStop t k stop)
    (outstanding : t.outstanding = s.outstanding) (room : t.lhN + k ≤ s.lhN + more) :
    LogStop s more stop :=
  stops.imp (And.imp_right outstanding.symm.trans) (And.imp_right (·.trans room))

theorem not_logStop {more : Nat} {stop : Stop} (inside : 0 < s.outstanding)
    (room : s.lhN + more < logSize - 1) : ¬ LogStop s more stop := by
  rintro (⟨-, none⟩ | ⟨-, full⟩) <;> omega

theorem lhN_cons (b : Nat) (logged : t.logged = b :: s.logged) : t.lhN ≤ s.lhN + 1 := by
  rw [State.lhN, logged, toFinset_cons]
  exact Finset.card_insert_le ..

theorem ensures_logWrite {b : Nat} {block : Block} {post : Unit → State → Prop}
    (stops : ∀ stop, LogStop s 0 stop → safe stop)
    (holds : post () { s.setBlock b block with logged := b :: s.logged }) :
    Ensures safe (logWrite b block) s post := by
  simp only [logWrite, ensures_bind, ensures_get]
  split
  · exact (ensures_throw ..).2 (stops _ (.inr ⟨rfl, by omega⟩))
  split
  · exact (ensures_throw ..).2 (stops _ (.inl ⟨rfl, by omega⟩))
  · exact (ensures_set ..).2 holds

end Steps

/-- The locked buffers and the open transactions stay, and only such blocks are logged. -/
structure Logs (allowed : Nat → Prop) (s t : State) : Prop where
  held : t.held = s.held
  outstanding : t.outstanding = s.outstanding
  logged : ∃ new, t.logged = new ++ s.logged ∧ ∀ b ∈ new, allowed b

namespace Logs

variable {allowed more : Nat → Prop}

theorem refl (allowed : Nat → Prop) (s : State) : Logs allowed s s :=
  ⟨rfl, rfl, [], rfl, nofun⟩

theorem trans (first : Logs allowed s t) (second : Logs allowed t u) : Logs allowed s u := by
  obtain ⟨new, logged, fine⟩ := first.logged
  obtain ⟨later, logged', fine'⟩ := second.logged
  refine ⟨second.held.trans first.held, second.outstanding.trans first.outstanding,
    later ++ new, by rw [logged', logged, append_assoc], fun b listed => ?_⟩
  exact (mem_append.mp listed).elim (fine' b) (fine b)

theorem mono (logs : Logs allowed s t) (weaker : ∀ b, allowed b → more b) : Logs more s t := by
  obtain ⟨new, logged, fine⟩ := logs.logged
  exact ⟨logs.held, logs.outstanding, new, logged, fun b listed => weaker b (fine b listed)⟩

theorem one {b : Nat} (held : t.held = s.held) (outstanding : t.outstanding = s.outstanding)
    (logged : t.logged = b :: s.logged) (fine : allowed b) : Logs allowed s t :=
  ⟨held, outstanding, [b], logged, fun _ listed => (mem_singleton.mp listed) ▸ fine⟩

end Logs

/-- The blocks without a mark. -/
def Volume.unmarked (sb : Superblock) (v : Volume) : Finset Nat :=
  (Finset.range sb.size).filter fun b => v.used b = false

theorem Volume.mem_unmarked {b : Nat} : b ∈ v.unmarked sb ↔ b < sb.size ∧ v.used b = false := by
  rw [unmarked, Finset.mem_filter, Finset.mem_range]

theorem Volume.card_unmarked_of_mark {b : Nat} (used : w.used = Function.update v.used b true) :
    (v.unmarked sb).card ≤ (w.unmarked sb).card + 1 := by
  have erased : w.unmarked sb = (v.unmarked sb).erase b := by
    ext c
    rw [mem_unmarked, Finset.mem_erase, mem_unmarked, used, Function.update_apply]
    split
    · next same => simp [same]
    · next other => simp [other]
  rw [erased]
  exact Nat.sub_le_iff_le_add.mp Finset.pred_card_le_card_erase

/-- Code that allocates `budget` blocks at most, and logs three blocks at most for each, stops
because there are fewer, because no transaction is open, or because the log is full. -/
def Stops (sb : Superblock) (s : State) (v : Volume) (budget : Nat) (stop : Stop) : Prop :=
  stop = .outOfBlocks ∧ (v.unmarked sb).card < budget ∨ LogStop s (3 * budget) stop

/-- At most `budget` blocks have been allocated and at most `entries` blocks logged. -/
structure Uses (sb : Superblock) (budget entries : Nat) (s : State) (v : Volume) (t : State)
    (w : Volume) : Prop where
  free : (v.unmarked sb).card ≤ (w.unmarked sb).card + budget
  room : t.lhN ≤ s.lhN + entries

namespace Uses

variable {budget entries k l : Nat}

theorem refl (sb : Superblock) (budget entries : Nat) (s : State) (v : Volume) :
    Uses sb budget entries s v s v :=
  ⟨Nat.le_add_right .., Nat.le_add_right ..⟩

theorem trans {x : Volume} (first : Uses sb budget entries s v t w)
    (second : Uses sb k l t w u x) : Uses sb (budget + k) (entries + l) s v u x := by
  have := first.free
  have := second.free
  have := first.room
  have := second.room
  exact ⟨by omega, by omega⟩

theorem mono (uses : Uses sb budget entries s v t w) (blocks : budget ≤ k) (logs : entries ≤ l) :
    Uses sb k l s v t w :=
  ⟨uses.free.trans (by omega), uses.room.trans (by omega)⟩

end Uses

theorem Stops.earlier {budget used entries more : Nat} {stop : Stop}
    (stops : Stops sb t w budget stop) (outstanding : t.outstanding = s.outstanding)
    (uses : Uses sb used entries s v t w) (blocks : used + budget ≤ more)
    (logs : entries + 3 * budget ≤ 3 * more) : Stops sb s v more stop := by
  have := uses.free
  have := uses.room
  exact stops.imp (And.imp_right (by omega)) (·.earlier outstanding (by omega))

theorem Stops.mono {budget more : Nat} {stop : Stop} (stops : Stops sb s v budget stop)
    (le : budget ≤ more) : Stops sb s v more stop :=
  stops.earlier rfl (.refl sb 0 0 s v) (by omega) (by omega)

/-- Block `b` has been taken from the free ones and zeroed. -/
structure Allocates (sb : Superblock) (s : State) (v : Volume) (stale : Set Nat) (b : Nat)
    (t : State) : Prop where
  area : sb.InData b
  unmarked : v.used b = false
  inode : t.inode = s.inode
  disk : OnDisk sb t.disk ((v.mark b true).setBlock b fun _ => 0) stale
  logs : Logs (fun c => c = b ∨ c = sb.bblock b) s t
  room : t.lhN ≤ s.lhN + 2

/-- The state after `balloc` has taken block `b`: its bit is set and it is zeroed. -/
def State.taken (sb : Superblock) (s : State) (b : Nat) : State :=
  let marked := s.setBlock (sb.bblock b) (markUsed (s.disk (sb.bblock b)) (b % bpb))
  { marked.setBlock b fun _ => 0 with logged := b :: sb.bblock b :: s.logged }

theorem lhN_taken (s : State) (b : Nat) : (s.taken sb b).lhN ≤ s.lhN + 2 :=
  (lhN_cons (s := { s with logged := sb.bblock b :: s.logged }) b rfl).trans
    (succ_le_succ (lhN_cons (sb.bblock b) rfl))

theorem firstFree_spec {bp : Block} {b bi : Nat} (found : firstFree sb bp b = some bi) :
    bi < bpb ∧ b + bi < sb.size ∧ isFree bp bi = true ∧ ∀ ci < bi, isFree bp ci = false := by
  unfold firstFree at found
  obtain ⟨hit, low, first⟩ := List.find?_range_eq_some.mp found
  rw [Bool.and_eq_true, decide_eq_true_eq] at hit
  refine ⟨mem_range.mp low, hit.1, hit.2, fun ci earlier => ?_⟩
  have inside : b + ci < sb.size := by omega
  simpa [inside] using first ci earlier

theorem firstFree_none {bp : Block} {b bi : Nat} (none : firstFree sb bp b = none)
    (low : bi < bpb) (inside : b + bi < sb.size) : isFree bp bi = false := by
  unfold firstFree at none
  have missed := List.find?_eq_none.mp none bi (mem_range.mpr low)
  simpa [inside] using missed

theorem used_of_start (disk : Nat → Block) {b bi : Nat} (start : b % bpb = 0) (low : bi < bpb) :
    sb.bblock (b + bi) = sb.bblock b ∧ (b + bi) % bpb = bi ∧
      (volumeOf sb disk).used (b + bi) = !isFree (disk (sb.bblock b)) bi := by
  have block : sb.bblock (b + bi) = sb.bblock b := by
    rw [Superblock.bblock, Nat.add_div_of_dvd_right (Nat.dvd_of_mod_eq_zero start),
      Nat.div_eq_of_lt low, add_zero, Superblock.bblock]
  have offset : (b + bi) % bpb = bi := by
    rw [add_mod, start, zero_add, mod_mod, mod_eq_of_lt low]
  exact ⟨block, offset, by simp only [volumeOf, block, offset]⟩

/-- The loop of `balloc` takes the first block whose bit is clear, or has found none. -/
theorem ballocFrom_spec (starts : List Nat) (sorted : starts.Pairwise (· < ·))
    (aligned : ∀ b ∈ starts, b % bpb = 0) (locks : ∀ b ∈ starts, sb.bblock b ∉ s.held)
    (fresh : ∀ b < sb.size, (volumeOf sb s.disk).used b = false → b ∉ s.held) :
    Ensures (fun stop => stop = .outOfBlocks ∧ (∀ b < sb.size, b / bpb * bpb ∈ starts →
          (volumeOf sb s.disk).used b = true) ∨ LogStop s 1 stop)
      (ballocFrom sb starts) s fun b t => b < sb.size ∧ (volumeOf sb s.disk).used b = false ∧
        (∀ c < b, c / bpb * bpb ∈ starts → (volumeOf sb s.disk).used c = true) ∧
        t = s.taken sb b := by
  have positive : 0 < bpb := by decide
  induction starts with
  | nil =>
    rw [ballocFrom, ensures_throw]
    exact .inl ⟨rfl, nofun⟩
  | cons b rest ih =>
    have start := aligned b mem_cons_self
    rw [ballocFrom, ensures_bind, ensures_bread (locks b mem_cons_self)]
    -- the blocks whose bits lie in the first block of the map
    have here : ∀ c, c / bpb * bpb = b → c % bpb < bpb ∧ b + c % bpb = c := fun c same =>
      ⟨mod_lt c positive, by rw [← same, div_add_mod']⟩
    split
    · rename_i bi found
      obtain ⟨low, inside, free, first⟩ := firstFree_spec found
      obtain ⟨block, offset, mark⟩ := @used_of_start sb s.disk _ _ start low
      have unmarked : (volumeOf sb s.disk).used (b + bi) = false := by rw [mark, free]; rfl
      simp only [bzero, bind_assoc]
      rw [ensures_bind]
      refine ensures_logWrite (fun stop stops => .inr (stops.earlier rfl (le_succ _))) ?_
      rw [ensures_bind, ensures_brelse rfl, ensures_bind]
      refine (ensures_bread (by exact fresh _ inside unmarked) _).2 ?_
      rw [ensures_bind]
      refine ensures_logWrite (fun stop stops =>
        .inr (stops.earlier rfl (lhN_cons (sb.bblock b) rfl))) ?_
      rw [ensures_bind, ensures_brelse rfl, ensures_pure]
      refine ⟨inside, unmarked, fun c below listed => ?_, ?_⟩
      · have least : b ≤ c / bpb * bpb := by
          rcases mem_cons.mp listed with same | later
          · exact same.ge
          · exact (rel_of_pairwise_cons sorted later).le
        have same : c / bpb * bpb = b := by
          have := div_mul_le_self c bpb
          have multiple := Nat.div_mul_cancel (Nat.dvd_of_mod_eq_zero start)
          have : c / bpb < b / bpb + 1 := by
            rw [div_lt_iff_lt_mul positive, add_mul, multiple]
            omega
          have := mul_le_mul_right bpb (le_of_lt_succ this)
          omega
        obtain ⟨bit, sum⟩ := here c same
        rw [← sum, (used_of_start s.disk start bit).2.2, first _ (by omega)]
        rfl
      · simp only [State.taken, block, offset]
        rfl
    · rename_i none
      rw [ensures_bind, ensures_brelse rfl]
      have full : ∀ c < sb.size, c / bpb * bpb = b → (volumeOf sb s.disk).used c = true := by
        intro c inside same
        obtain ⟨bit, sum⟩ := here c same
        rw [← sum, (used_of_start s.disk start bit).2.2, firstFree_none none bit (by omega)]
        rfl
      refine ((ih (pairwise_cons.mp sorted).2 (fun c listed => aligned c (.tail _ listed))
        fun c listed => locks c (.tail _ listed)).mono ?_).weaken ?_
      · rintro c t ⟨inside, unmarked, first, after⟩
        refine ⟨inside, unmarked, fun d below listed => ?_, after⟩
        exact (mem_cons.mp listed).elim (full d (by omega)) (first d below)
      · refine fun stop => Or.imp_left (And.imp_right fun all c inside listed => ?_)
        exact (mem_cons.mp listed).elim (full c inside) (all c inside)

theorem balloc_finds (locks : ∀ b < sb.size, sb.bblock b ∉ s.held)
    (fresh : ∀ b < sb.size, (volumeOf sb s.disk).used b = false → b ∉ s.held) :
    Ensures (fun stop =>
        stop = .outOfBlocks ∧ (∀ b < sb.size, (volumeOf sb s.disk).used b = true) ∨
          LogStop s 1 stop)
      (balloc sb) s fun b t => b < sb.size ∧ (volumeOf sb s.disk).used b = false ∧
        (∀ c < b, (volumeOf sb s.disk).used c = true) ∧ t = s.taken sb b := by
  have starts : ∀ b, b / bpb * bpb ∈ (List.range ((sb.size + bpb - 1) / bpb)).map (· * bpb) ↔
      b / bpb * bpb < sb.size := by
    intro b
    simp only [mem_map, mem_range, bpb, bsize]
    constructor
    · rintro ⟨k, below, same⟩
      omega
    · intro below
      exact ⟨b / (1024 * 8), by omega, rfl⟩
  refine ((ballocFrom_spec _ ?_ ?_ ?_ fresh).mono ?_).weaken ?_
  · refine pairwise_map.mpr (pairwise_lt_range.imp fun lt => ?_)
    exact mul_lt_mul_of_pos_right lt (by decide)
  · intro b listed
    obtain ⟨k, -, rfl⟩ := mem_map.mp listed
    exact mul_mod_left k bpb
  · intro b listed
    obtain ⟨k, below, rfl⟩ := mem_map.mp listed
    refine locks _ ?_
    have := mem_range.mp below
    simp only [bpb, bsize] at this ⊢
    omega
  · rintro b t ⟨inside, unmarked, first, after⟩
    refine ⟨inside, unmarked, fun c below => first c below ((starts c).mpr ?_), after⟩
    have := div_mul_le_self c bpb
    omega
  · refine fun stop => Or.imp_left (And.imp_right fun all b inside => all b inside ?_)
    exact (starts b).mpr ((div_mul_le_self b bpb).trans_lt inside)

/-- `balloc` takes a free block of the data area, unless there is none. -/
theorem balloc_spec (valid : sb.Valid) (onDisk : OnDisk sb s.disk v stale)
    (sound : Sound sb v torn) (locks : ∀ c ∈ s.held, sb.InData c ∧ v.used c = true) :
    Ensures (Stops sb s v 1) (balloc sb) s fun b t => Allocates sb s v stale b t := by
  refine ((balloc_finds (fun b inside locked => ?_) fun b inside clear locked => ?_).mono ?_).weaken
    ?_
  · exact valid.bblock_ne_data inside (locks _ locked).1 rfl
  · rw [onDisk.used b inside, (locks b locked).2] at clear
    cases clear
  · rintro b t ⟨inside, clear, -, rfl⟩
    have unmarked := (onDisk.used b inside).symm.trans clear
    have area : sb.InData b := by
      refine ⟨?_, inside⟩
      by_contra reserved
      simp [sound.reserved _ (not_le.1 reserved)] at unmarked
    have marked := onDisk.setBit valid inside (markUsed (s.disk (sb.bblock b)) (b % bpb)) true
      fun other => isFree_markUsed _ (mod_lt b (by decide))
    exact ⟨area, unmarked, rfl, marked.setBlock valid area _, ⟨rfl, rfl, [b, sb.bblock b], rfl,
      fun c listed => by simpa using listed⟩, lhN_taken s b⟩
  · refine fun stop => Or.imp (And.imp_right fun all => ?_) (·.earlier rfl (by omega))
    refine lt_one_iff.mpr (Finset.card_eq_zero.mpr ?_)
    refine Finset.eq_empty_of_forall_notMem fun c free => ?_
    obtain ⟨inside, unmarked⟩ := Volume.mem_unmarked.mp free
    simp [← onDisk.used c inside, all c inside] at unmarked

/-- The bit of a block in the free map of the disk. -/
def State.bit (sb : Superblock) (s : State) (b : Nat) : Bool := (volumeOf sb s.disk).used b

/-- The bit of `c` lies in a block of the free map of this disk. -/
def Superblock.Mapped (sb : Superblock) (c : Nat) : Prop := c / bpb * bpb < sb.size

/-- `bfree` clears the bit of its block and no other, unless it is clear. -/
theorem bfree_spec (unheld : s.held = []) (inside : 0 < s.outstanding)
    (room : s.lhN < logSize - 1) (b : Nat) :
    Ensures (fun stop => stop = .freeingFreeBlock ∧ s.bit sb b = false) (bfree sb b) s
      fun _ t => s.bit sb b = true ∧ ∀ c, t.bit sb c = if c = b then false else s.bit sb c := by
  have fresh : sb.bblock b ∉ s.held := by simp [unheld]
  rw [bfree, ensures_bind, ensures_bread fresh]
  split
  · next free => exact (ensures_throw ..).2 ⟨rfl, by simp [State.bit, volumeOf, free]⟩
  rename_i marked
  rw [ensures_bind]
  refine ensures_logWrite (fun stop stops => (not_logStop inside room stops).elim) ?_
  rw [ensures_brelse rfl]
  exact ⟨by simpa [State.bit, volumeOf] using marked,
    volumeOf_used_setBit fun _ => isFree_markFree _ (mod_lt b (by decide))⟩

/-- The bits after `balloc` if the free map does not lie in the block taken. -/
theorem bit_taken {b c : Nat} (apart : sb.bblock c ≠ b) :
    (s.taken sb b).bit sb c = if c = b then true else s.bit sb c := by
  rw [State.bit, State.bit, ← volumeOf_used_setBit fun _ =>
    isFree_markUsed (s.disk (sb.bblock b)) (mod_lt b (by decide))]
  simp only [volumeOf, State.taken, State.setBlock, Function.update_of_ne apart]

/-- Three blocks, with the free map in block 0. -/
def threeBlocks : Superblock := ⟨3, 2, 0, 0, 0⟩

/-- No inode is cached, and a transaction is open. -/
def opened (disk : Nat → Block) : State :=
  ⟨disk, [], 1, [], disk, fun _ => ⟨0, 0, none, false, .fresh 0⟩⟩

theorem iupdate_spec {safe : Stop → Prop} {ip : Slot} {n : Nat} (valid : sb.Valid)
    (inv : Inv sb s v stale torn) (entry : Open s ip n) (unheld : s.held = [])
    (stops : ∀ stop, LogStop s 0 stop → safe stop) :
    Ensures safe (iupdate sb ip) s fun _ t =>
      Inv sb t v (stale \ {n}) torn ∧ t.inode = s.inode ∧ Logs (· = sb.iblock n) s t := by
  have unlocked : sb.iblock n ∉ s.held := by simp [unheld]
  rw [iupdate, ensures_bind, ensures_inode, ensures_bind, entry.inum, ensures_bread unlocked,
    ensures_bind]
  refine ensures_logWrite stops ?_
  rw [ensures_brelse rfl]
  refine ⟨⟨?_, inv.cache, inv.sound⟩, rfl, .one rfl rfl rfl rfl⟩
  have stored := inv.disk.setNode valid (inv.open_inside entry) (v.node n)
  rw [Volume.setNode_self] at stored
  rw [inv.open_node entry]
  exact stored

end OsLab.Fs
