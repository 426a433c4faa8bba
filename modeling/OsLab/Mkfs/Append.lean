import OsLab.Mkfs.Model
import OsLab.Fs.Volume

/-!
# What `iappend` writes

The image represents a volume in which the blocks of the files are taken from `freeblock` upwards.
While `iappend` works on an inode its copy in the image is stale.  What stops `iappend` is a file
that grows beyond `MAXFILE` blocks or an image that is too small.
-/

namespace OsLab.Mkfs

open Fs Act Function List Nat

/-- The layout with as many inodes as the inode blocks have room for. -/
def area : Superblock := { sb with ninodes := ninodeblocks * ipb }

theorem area_ninodes : area.ninodes = 208 := rfl

theorem nmeta_eq : nmeta = 46 := rfl

theorem area_valid : area.Valid where
  root := by decide
  inodes := by decide
  bitmap := by decide
  word := by decide
  inums := by decide

theorem iblock_area {n : Nat} (inside : n < area.ninodes) :
    sb.inodestart ≤ sb.iblock n ∧ sb.iblock n < sb.bmapstart :=
  ⟨le_add_left _ _, area_valid.iblock_lt inside⟩

theorem bmapstart_lt_nmeta : sb.bmapstart < nmeta := by decide

theorem iblock_lt_nmeta {n : Nat} (inside : n < area.ninodes) : sb.iblock n < nmeta :=
  (iblock_area inside).2.trans bmapstart_lt_nmeta

theorem seek_of_lt {sec : Nat} (small : sec < 2 ^ 22) : seek sec = sec := mod_eq_of_lt small

/-- The number of blocks of a file of this length, with its indirect block. -/
def need (len : Nat) : Nat :=
  (len + (bsize - 1)) / bsize + if ndirect * bsize < len then 1 else 0

/-- A file of this length uses slot `k` for an address. -/
def Occupies (len k : Nat) : Prop :=
  if k ≤ ndirect then k * bsize < len else (k - 1) * bsize < len

/-- The places that files of these lengths use. -/
def Spans (len : Nat → Nat) (p : Nat × Nat) : Prop := Occupies (len p.1) p.2

theorem need_mono {len more : Nat} (le : len ≤ more) : need len ≤ need more := by
  unfold need
  refine Nat.add_le_add (Nat.div_le_div_right (by omega)) ?_
  split
  · rw [if_pos (by omega)]
  · exact zero_le _

theorem occupies_place (len bn : Nat) : Occupies len (place bn) ↔ bn * bsize < len := by
  unfold Occupies place
  by_cases direct : bn < ndirect
  · rw [if_pos direct, if_pos (by omega)]
  · rw [if_neg direct, if_neg (by omega), Nat.add_sub_cancel]

theorem occupies_ndirect (len : Nat) : Occupies len ndirect ↔ ndirect * bsize < len := by
  rw [Occupies, if_pos le_rfl]

section

variable {len more : Nat} (lt : len < more) (within : more ≤ (len / bsize + 1) * bsize)
include lt within

theorem occupies_direct (direct : len / bsize < ndirect) (k : Nat) :
    Occupies more k ↔ Occupies len k ∨ k = place (len / bsize) := by
  unfold Occupies place
  split_ifs <;> simp only [bsize, ndirect] at * <;> omega

theorem need_direct (direct : len / bsize < ndirect) :
    need more = need len + if len / bsize * bsize < len then 0 else 1 := by
  unfold need
  split_ifs <;> simp only [bsize, ndirect] at * <;> omega

theorem occupies_far (far : ¬ len / bsize < ndirect) (k : Nat) :
    Occupies more k ↔ (Occupies len k ∨ k = ndirect) ∨ k = place (len / bsize) := by
  unfold Occupies place
  split_ifs <;> simp only [bsize, ndirect] at * <;> omega

theorem need_far (far : ¬ len / bsize < ndirect) :
    need more = need len + (if ndirect * bsize < len then 0 else 1) +
      if len / bsize * bsize < len then 0 else 1 := by
  unfold need
  split_ifs <;> simp only [bsize, ndirect] at * <;> omega

end

/-- Blocks are taken from `freeblock` upwards for exactly these places. -/
structure Placed (v : Volume) (slots : Nat × Nat → Prop) (freeblock : Nat) : Prop where
  shape : ∀ p, v.held area p ≠ 0 ↔ slots p
  owned : Owned (nmeta ≤ ·) (v.held area) fun b => decide (b < freeblock)
  low : nmeta ≤ freeblock
  fresh : ∀ b, freeblock ≤ b → v.block b = fun _ => 0

/-- The blocks of the files hold these contents, and zeroes behind them. -/
def Filled (v : Volume) (contents : Nat → List Byte) : Prop :=
  ∀ n j, v.held area (n, place (j / bsize)) ≠ 0 → v.byte area n j = (contents n).getD j 0

namespace Placed

variable {v w : Volume} {slots : Nat × Nat → Prop} {freeblock : Nat}

section

variable (placed : Placed v slots freeblock)
include placed

variable {p : Nat × Nat}

theorem held_lt (holds : v.held area p ≠ 0) : v.held area p < freeblock := by
  simpa using placed.owned.marked p holds

theorem held_ge (holds : v.held area p ≠ 0) : nmeta ≤ v.held area p :=
  placed.owned.pooled p holds

theorem take (empty : ¬ slots p) (held : w.held area = update (v.held area) p freeblock)
    (block : ∀ b, freeblock < b → w.block b = v.block b) :
    Placed w (fun q => slots q ∨ q = p) (freeblock + 1) where
  shape q := by
    rw [held]
    rcases eq_or_ne q p with rfl | other
    · have positive : freeblock ≠ 0 := fun zero => by
        have low := placed.low
        rw [zero, nmeta_eq] at low
        omega
      simp [positive]
    · rw [update_of_ne other, placed.shape q]
      simp [other]
  owned := by
    have none : v.held area p = 0 := by
      by_contra holds
      exact empty ((placed.shape p).mp holds)
    have taken := placed.owned.take (b := freeblock) placed.low (by simp) none
    have marks : update (fun b => decide (b < freeblock)) freeblock true =
        fun b => decide (b < freeblock + 1) := by
      funext b
      rcases eq_or_ne b freeblock with rfl | other
      · simp
      · rw [update_of_ne other]
        exact decide_eq_decide.mpr (by omega)
    rw [held, ← marks]
    exact taken
  low := placed.low.trans (le_succ _)
  fresh b above := (block b above).trans (placed.fresh b (le_of_succ_le above))

theorem congr (held : w.held area = v.held area)
    (block : ∀ b, freeblock ≤ b → w.block b = v.block b) : Placed w slots freeblock where
  shape p := by rw [held]; exact placed.shape p
  owned := by rw [held]; exact placed.owned
  low := placed.low
  fresh b above := (block b above).trans (placed.fresh b above)

theorem reshape {others : Nat × Nat → Prop} (same : ∀ p, others p ↔ slots p) :
    Placed v others freeblock where
  shape p := (placed.shape p).trans (same p).symm
  owned := placed.owned
  low := placed.low
  fresh := placed.fresh

theorem notIndirect_place (n bn : Nat) : v.NotIndirect area (v.held area (n, place bn)) := by
  intro m holds same
  have once := placed.owned.once _ _ holds same
  exact place_ne_ndirect bn (congrArg Prod.snd once).symm

end

end Placed

theorem Filled.take {v w : Volume} {contents : Nat → List Byte} (filled : Filled v contents)
    {p : Nat × Nat} {b : Nat} (held : w.held area = update (v.held area) p b)
    (zeroed : w.block b = fun _ => 0) (block : ∀ m bn, v.held area (m, place bn) ≠ 0 →
      w.block (v.held area (m, place bn)) = v.block (v.held area (m, place bn)))
    (behind : ∀ bn, p.2 = place bn → (contents p.1).length ≤ bn * bsize) : Filled w contents := by
  intro n j holds
  rw [Volume.byte]
  rw [held] at holds ⊢
  rcases eq_or_ne (n, place (j / bsize)) p with rfl | other
  · have past := behind (j / bsize) rfl
    have le : (contents n).length ≤ j := past.trans (div_mul_le_self j bsize)
    rw [update_self, zeroed]
    simp [Bytes.byteAt, List.getElem?_eq_none le]
  · rw [update_of_ne other] at holds ⊢
    rw [block n _ holds]
    exact filled n j holds

/-- The image represents the volume, but for stale inodes. -/
structure Shows (t : Image) (v : Volume) (stale : Set Nat) : Prop where
  count : t.count = fssize
  block : ∀ b, nmeta ≤ b → t.sector b = v.block b
  node : ∀ m, m < area.ninodes → m ∉ stale →
    Dinode.load (t.sector (sb.iblock m)) (m % ipb) = v.node m
  header : t.sector 1 = superblock
  inodeBlocks : ∀ b ∈ t.inodeBlocks, sb.inodestart ≤ b ∧ b < sb.bmapstart

/-- No inode was allocated. -/
structure Kept (t u : Image) : Prop where
  freeinode : u.freeinode = t.freeinode
  inums : u.inums = t.inums

theorem Kept.refl (t : Image) : Kept t t := ⟨rfl, rfl⟩

theorem Kept.trans {t u w : Image} (first : Kept t u) (second : Kept u w) : Kept t w :=
  ⟨second.freeinode.trans first.freeinode, second.inums.trans first.inums⟩

variable {safe : Exit → Prop} {t : Image} {v : Volume} {p : List Byte}

@[simp]
theorem ensures_wsect (sec : Nat) (buf : Block) (post : Unit → Image → Prop) :
    Ensures safe (wsect sec buf) t post ↔ post () { t with
        sector := update t.sector (seek sec) buf
        count := max t.count (seek sec + 1) } :=
  ensures_modify ..

theorem ensures_rsect {sec : Nat} {post : Block → Image → Prop} (small : sec < 2 ^ 22)
    (reads : sec < t.count → post (t.sector sec) t) (fails : t.count ≤ sec → safe .failure) :
    Ensures safe (rsect sec) t post := by
  simp only [rsect, ensures_bind, ensures_get, seek_of_lt small]
  split
  case isTrue inside => exact (ensures_pure ..).mpr (reads inside)
  case isFalse outside => exact (ensures_throw ..).mpr (fails (not_lt.mp outside))

@[simp]
theorem ensures_newBlock (post : Nat → Image → Prop) :
    Ensures safe newBlock t post ↔ post t.freeblock { t with freeblock := t.freeblock + 1 } := by
  simp only [newBlock, ensures_bind, ensures_get, ensures_modify, ensures_pure]

theorem fssize_lt : fssize < 2 ^ 22 := by decide

theorem nmeta_lt_fssize : nmeta < fssize := by decide

variable {stale : Set Nat}

/-- Writing a sector of the data area writes a block of the volume. -/
theorem Shows.write (shows : Shows t v stale) {b : Nat} (data : nmeta ≤ b) (inside : b < fssize)
    (buf : Block) :
    Shows { t with
      sector := update t.sector (seek b) buf
      count := max t.count (seek b + 1) } (v.setBlock b buf) stale := by
  have position : seek b = b := seek_of_lt (inside.trans fssize_lt)
  rw [position]
  refine ⟨?_, fun c low => ?_, fun m below fresh => ?_, ?_, shows.inodeBlocks⟩
  · exact (max_eq_left (by rw [shows.count]; exact inside)).trans shows.count
  · rcases eq_or_ne c b with rfl | other
    · simp [Volume.setBlock]
    · simp only [Volume.setBlock, update_of_ne other]
      exact shows.block c low
  · have other : sb.iblock m ≠ b := ((iblock_lt_nmeta below).trans_le data).ne
    simp only [update_of_ne other]
    exact shows.node m below fresh
  · have other : 1 ≠ b := by
      rw [nmeta_eq] at data
      omega
    simp only [update_of_ne other]
    exact shows.header

theorem rinode_spec (shows : Shows t v stale) {n : Nat} (inside : n < area.ninodes)
    (clean : n ∉ stale) : Ensures safe (rinode n) t fun din u => u = t ∧ din = v.node n := by
  have low : sb.iblock n < fssize := (iblock_lt_nmeta inside).trans nmeta_lt_fssize
  rw [rinode, ensures_bind]
  refine ensures_rsect (low.trans fssize_lt) (fun _ => ?_) fun past => ?_
  · exact (ensures_pure ..).mpr ⟨rfl, shows.node n inside clean⟩
  · rw [shows.count] at past
    exact absurd low past.not_gt

/-- `winode` makes the copy of an inode in the image agree with the volume. -/
theorem winode_spec {n : Nat} (shows : Shows t v stale) (only : stale ⊆ {n})
    (inside : n < area.ninodes) {ip : Dinode} (node : v.node n = ip) :
    Ensures safe (winode n ip) t fun _ u =>
      Shows u v ∅ ∧ Kept t u ∧ u.freeblock = t.freeblock := by
  have low := iblock_lt_nmeta inside
  have position : seek (sb.iblock n) = sb.iblock n :=
    seek_of_lt ((low.trans nmeta_lt_fssize).trans fssize_lt)
  simp only [winode, ensures_bind]
  refine ensures_rsect ((low.trans nmeta_lt_fssize).trans fssize_lt) (fun present => ?_)
    fun past => ?_
  · simp only [ensures_wsect, ensures_modify, position, and_true]
    refine ⟨⟨(max_eq_left present).trans shows.count, fun b data => ?_, fun m below _ => ?_, ?_,
      fun b listed => ?_⟩, ⟨rfl, rfl⟩⟩
    · dsimp only
      rw [update_of_ne (low.trans_le data).ne']
      exact shows.block b data
    · dsimp only
      rw [sb.load_store]
      split
      · next same => rw [same, node]
      · next other => exact shows.node m below fun listed => other (only listed)
    · have other : 1 ≠ sb.iblock n := by
        have high := (iblock_area inside).1
        have start : sb.inodestart = 32 := rfl
        omega
      dsimp only
      rw [update_of_ne other]
      exact shows.header
    · rcases mem_cons.mp listed with rfl | old
      · exact iblock_area inside
      · exact shows.inodeBlocks b old
  · rw [shows.count] at past
    exact absurd (low.trans nmeta_lt_fssize) past.not_gt

/-- The state inside `iappend` on inode `n`. -/
structure Mid (t : Image) (v : Volume) (n : Nat) (slots : Nat × Nat → Prop)
    (contents : Nat → List Byte) : Prop where
  shows : Shows t v {n}
  placed : Placed v slots t.freeblock
  filled : Filled v contents

/-- Slot `k` of inode `n` holds `x`, a new block if it was empty. -/
structure Takes (t : Image) (v : Volume) (n k : Nat) (slots : Nat × Nat → Prop)
    (contents : Nat → List Byte) (x : Nat) (u : Image) (w : Volume) : Prop where
  mid : Mid u w n (fun q => slots q ∨ q = (n, k)) contents
  held : w.held area (n, k) = x
  others : ∀ m, m ≠ n → w.node m = v.node m
  fields : w.node n = { v.node n with addrs := (w.node n).addrs }
  kept : Kept t u
  grows : slots (n, k) ∧ u.freeblock = t.freeblock ∨
    ¬ slots (n, k) ∧ u.freeblock = t.freeblock + 1 ∧ x = t.freeblock

variable {n : Nat} {slots : Nat × Nat → Prop} {contents : Nat → List Byte}

theorem Mid.takes_none (mid : Mid t v n slots contents) {k : Nat} (used : slots (n, k)) :
    Takes t v n k slots contents (v.held area (n, k)) t v where
  mid := by
    refine ⟨mid.shows, mid.placed.reshape fun p => ?_, mid.filled⟩
    constructor
    · rintro (old | rfl)
      · exact old
      · exact used
    · exact .inl
  held := rfl
  others _ _ := rfl
  fields := rfl
  kept := .refl t
  grows := .inl ⟨used, rfl⟩

theorem addrFor_spec (mid : Mid t v n slots contents) (inside : n < area.ninodes)
    (allocated : (v.node n).type ≠ 0) (word : t.freeblock < 2 ^ 32) (k : Fin (ndirect + 1))
    (behind : ∀ bn, k.val = place bn → ¬ slots (n, k) → (contents n).length ≤ bn * bsize) :
    Ensures safe (addrFor (v.node n) k) t fun din u =>
      ∃ w, w.node n = din ∧ Takes t v n k slots contents (din.addrs k).toNat u w := by
  have pointer := Volume.held_addr v inside allocated k
  have positive : t.freeblock ≠ 0 := fun zero => by
    have low := mid.placed.low
    rw [zero, nmeta_eq] at low
    omega
  unfold addrFor
  split
  case isTrue empty =>
    simp only [ensures_bind, ensures_newBlock, ensures_pure]
    have unused : ¬ slots (n, k) := fun used => by
      refine (mid.placed.shape _).mpr used ?_
      rw [pointer, empty]
      rfl
    have value : (BitVec.ofNat 32 t.freeblock).toNat = t.freeblock := by
      rw [BitVec.toNat_ofNat, mod_eq_of_lt word]
    have held : (v.setNode n { v.node n with
        addrs := update (v.node n).addrs k (.ofNat 32 t.freeblock) }).held area =
        update (v.held area) (n, k.val) t.freeblock := by
      by_cases last : k = indirect
      · subst last
        rw [Volume.held_setNode_indirect inside allocated empty
          (by rw [value]; exact mid.placed.fresh _ le_rfl), value]
        rfl
      · rw [Volume.held_setNode_direct inside allocated last, value]
    refine ⟨v.setNode n { v.node n with
        addrs := update (v.node n).addrs k (.ofNat 32 t.freeblock) },
      update_self n _ v.node, ⟨⟨mid.shows.count, mid.shows.block,
      fun m below fresh => ?_, mid.shows.header, mid.shows.inodeBlocks⟩,
      mid.placed.take unused held fun _ _ => rfl, ?_⟩, ?_, fun m other => ?_, ?_, ⟨rfl, rfl⟩,
      .inr ⟨unused, rfl, ?_⟩⟩
    · exact (mid.shows.node m below fresh).trans (update_of_ne fresh ..).symm
    · exact mid.filled.take held (mid.placed.fresh _ le_rfl) (fun _ _ _ => rfl)
        fun bn same => behind bn same unused
    · rw [held, update_self, update_self, value]
    · exact update_of_ne other ..
    · simp [Volume.setNode]
    · rw [update_self, value]
  case isFalse some =>
    have nonzero : v.held area (n, k) ≠ 0 := fun zero =>
      some (BitVec.eq_of_toNat_eq (pointer.symm.trans zero))
    refine (ensures_pure ..).mpr ⟨v, rfl, ?_⟩
    rw [← pointer]
    exact mid.takes_none ((mid.placed.shape _).mp nonzero)

theorem held_entry (inside : n < area.ninodes) (allocated : (v.node n).type ≠ 0)
    (has : (v.node n).addrs indirect ≠ 0) {j : Nat} (bounded : j < nindirect) :
    v.held area (n, ndirect + 1 + j) = entryAt (v.block ((v.node n).addrs indirect).toNat) j := by
  rw [Volume.held_of_allocated v inside allocated, Dinode.pointer, dif_neg (by omega),
    if_pos ⟨has, by omega⟩, Nat.add_sub_cancel_left]

theorem entryFor_spec (mid : Mid t v n slots contents) (inside : n < area.ninodes)
    (allocated : (v.node n).type ≠ 0) (word : t.freeblock < 2 ^ 22) {b j : Nat}
    (bounded : j < nindirect) (has : slots (n, ndirect)) (pointer : v.held area (n, ndirect) = b)
    (behind : ¬ slots (n, ndirect + 1 + j) → (contents n).length ≤ (ndirect + j) * bsize) :
    Ensures (fun _ => fssize ≤ b) (entryFor b j) t fun x u =>
      ∃ w, w.node n = v.node n ∧ Takes t v n (ndirect + 1 + j) slots contents x u w := by
  have addr : ((v.node n).addrs indirect).toNat = b :=
    (Volume.held_addr v inside allocated indirect).symm.trans pointer
  have holds := (mid.placed.shape (n, ndirect)).mpr has
  have address : (v.node n).addrs indirect ≠ 0 := fun zero => by
    rw [pointer, ← addr, zero] at holds
    exact holds rfl
  have data := mid.placed.held_ge holds
  have below := mid.placed.held_lt holds
  have entry := held_entry inside allocated address bounded
  rw [addr] at entry
  rw [pointer] at data below
  simp only [entryFor, ensures_bind]
  refine ensures_rsect (below.trans word) (fun present => ?_) fun past =>
    mid.shows.count ▸ past
  rw [mid.shows.block b data, ← entry]
  split
  case isTrue empty =>
    simp only [ensures_bind, ensures_newBlock, ensures_wsect, ensures_pure]
    have unused : ¬ slots (n, ndirect + 1 + j) := fun used =>
      (mid.placed.shape _).mpr used empty
    have wide : t.freeblock < 2 ^ 32 := word.trans (by decide)
    have held := Volume.held_setBlock_entry mid.placed.owned.once inside allocated address bounded
      wide
    rw [addr] at held
    refine ⟨v.setBlock b ((v.block b).putLE (4 * j) 4 t.freeblock), rfl,
      ⟨?_, mid.placed.take unused held fun c above => ?_, ?_⟩, ?_, fun _ _ => rfl, rfl, ⟨rfl, rfl⟩,
      .inr ⟨unused, rfl, ?_⟩⟩
    · have later : Shows { t with freeblock := t.freeblock + 1 } v {n} :=
        ⟨mid.shows.count, mid.shows.block, mid.shows.node, mid.shows.header, mid.shows.inodeBlocks⟩
      exact later.write data (mid.shows.count ▸ present) _
    · exact update_of_ne (below.trans above).ne' ..
    · refine mid.filled.take held ?_ (fun m bn filled => ?_) fun bn same => ?_
      · exact (update_of_ne below.ne' ..).trans (mid.placed.fresh _ le_rfl)
      · refine update_of_ne (fun same => ?_) ..
        have once := mid.placed.owned.once _ _ filled (same.trans pointer.symm)
        exact place_ne_ndirect bn (congrArg Prod.snd once)
      · have index : bn = ndirect + j := by
          dsimp only at same
          unfold place at same
          split at same <;> omega
        rw [index]
        exact behind unused
    · rw [held, update_self, entryAt_putLE _ bounded wide, if_pos rfl]
    · rw [entryAt_putLE _ bounded wide, if_pos rfl]
  case isFalse some =>
    exact (ensures_pure ..).mpr ⟨v, rfl, mid.takes_none ((mid.placed.shape _).mp some)⟩

/-- The block for the end of a file of length `off`, which is to have `count` more bytes in it. -/
structure Extends (t : Image) (v : Volume) (n off count : Nat) (contents : Nat → List Byte)
    (x : Nat) (u : Image) (w : Volume) : Prop where
  mid : Mid u w n (Spans (update (fun m => (contents m).length) n (off + count))) contents
  held : w.held area (n, place (off / bsize)) = x
  nonzero : x ≠ 0
  others : ∀ m, m ≠ n → w.node m = v.node m
  fields : w.node n = { v.node n with addrs := (w.node n).addrs }
  kept : Kept t u
  grows : u.freeblock + need off = t.freeblock + need (off + count)
  newest : u.freeblock = t.freeblock ∨ u.freeblock = x + 1

theorem spans_update {len : Nat → Nat} {off more : Nat} (now : len n = off)
    (extra : Nat × Nat → Prop) (here : ∀ k, Occupies more k ↔ Occupies off k ∨ extra (n, k))
    (elsewhere : ∀ m k, m ≠ n → ¬ extra (m, k)) (p : Nat × Nat) :
    Spans (update len n more) p ↔ Spans len p ∨ extra p := by
  obtain ⟨m, k⟩ := p
  unfold Spans
  rcases eq_or_ne m n with rfl | other
  · simp only [update_self, now]
    exact here k
  · simp only [update_of_ne other, elsewhere m k other, or_false]

variable {off count : Nat}

section Block

variable (now : (contents n).length = off)

include now in
theorem spans_place : Spans (fun m => (contents m).length) (n, place (off / bsize)) ↔
    off / bsize * bsize < off := by
  rw [Spans, now, occupies_place]

include now in
theorem spans_ndirect :
    Spans (fun m => (contents m).length) (n, ndirect) ↔ ndirect * bsize < off := by
  rw [Spans, now, occupies_ndirect]

variable (positive : 0 < count) (within : off + count ≤ (off / bsize + 1) * bsize) {x b : Nat}
  {u u' : Image} {w w' : Volume}
include now positive within

/-- A direct block needs one slot. -/
theorem Takes.extends_direct (direct : off / bsize < ndirect) (takes : Takes t v n (off / bsize)
      (Spans fun m => (contents m).length) contents x u w) :
    Extends t v n off count contents x u w := by
  have lt : off < off + count := Nat.lt_add_of_pos_right positive
  have slot : place (off / bsize) = off / bsize := if_pos direct
  have partly := spans_place now
  have need := need_direct lt within direct
  have down : off / bsize * bsize ≤ off := div_mul_le_self off bsize
  have nonzero := (takes.mid.placed.shape (n, off / bsize)).mpr (.inr rfl)
  rw [slot] at partly
  refine ⟨⟨takes.mid.shows, takes.mid.placed.reshape ?_, takes.mid.filled⟩,
    by rw [slot]; exact takes.held, takes.held ▸ nonzero, takes.others, takes.fields,
    takes.kept, ?_, ?_⟩
  · refine spans_update now _ (fun k => ?_) fun m k other same => other (congrArg Prod.fst same)
    rw [occupies_direct lt within direct, slot]
    simp
  · have grows := takes.grows
    rw [partly] at grows
    split_ifs at need <;> omega
  · rcases takes.grows with ⟨-, same⟩ | ⟨-, more, newest⟩
    · exact .inl same
    · exact .inr (by rw [more, newest])

/-- A block behind the direct ones needs the slot of the indirect block and one in it. -/
theorem Takes.extends_far (far : ¬ off / bsize < ndirect) (first : Takes t v n ndirect
      (Spans fun m => (contents m).length) contents b u w)
    (second : Takes u w n (place (off / bsize)) (fun q => Spans (fun m => (contents m).length) q ∨
      q = (n, ndirect)) contents x u' w') (node : w'.node n = w.node n) :
    Extends t v n off count contents x u' w' := by
  have lt : off < off + count := Nat.lt_add_of_pos_right positive
  have need := need_far lt within far
  have down : off / bsize * bsize ≤ off := div_mul_le_self off bsize
  have nonzero := (second.mid.placed.shape (n, place (off / bsize))).mpr (.inr rfl)
  have apart : (n, place (off / bsize)) ≠ (n, ndirect) := fun same =>
    place_ne_ndirect _ (congrArg Prod.snd same)
  have grows := first.grows
  have later := second.grows
  rw [spans_ndirect now] at grows
  simp only [apart, or_false, spans_place now] at later
  refine ⟨⟨second.mid.shows, second.mid.placed.reshape fun p => ?_, second.mid.filled⟩,
    second.held, second.held ▸ nonzero,
    fun m other => (second.others m other).trans (first.others m other),
    by rw [node]; exact first.fields, first.kept.trans second.kept, ?_, ?_⟩
  · rw [or_assoc]
    refine spans_update now (fun p => p = (n, ndirect) ∨ p = (n, place (off / bsize)))
      (fun k => ?_) (fun m k other => ?_) p
    · rw [occupies_far lt within far, or_assoc]
      simp
    · rintro (same | same) <;> exact other (congrArg Prod.fst same)
  · split_ifs at need <;> omega
  · rcases later with ⟨part, same⟩ | ⟨-, more, newest⟩
    · rcases grows with ⟨-, before⟩ | ⟨unused, -, -⟩
      · exact .inl (same.trans before)
      simp only [bsize, ndirect] at *
      omega
    · exact .inr (by rw [more, newest])

end Block

theorem blockFor_spec (mid : Mid t v n (Spans fun m => (contents m).length) contents)
    (inside : n < area.ninodes) (allocated : (v.node n).type ≠ 0) (room : t.freeblock ≤ fssize)
    (now : (contents n).length = off) (bounded : off / bsize < maxfile) (positive : 0 < count)
    (within : off + count ≤ (off / bsize + 1) * bsize) :
    Ensures (fun _ => fssize + need off < t.freeblock + need (off + count))
      (blockFor (v.node n) (off / bsize)) t fun r u =>
        ∃ w, w.node n = r.1 ∧ Extends t v n off count contents r.2 u w := by
  have down : off / bsize * bsize ≤ off := div_mul_le_self off bsize
  have part := spans_place now
  unfold blockFor
  split
  case isTrue direct =>
    have slot : place (off / bsize) = off / bsize := if_pos direct
    rw [slot] at part
    rw [ensures_bind]
    refine (addrFor_spec mid inside allocated (room.trans_lt (by decide)) ⟨off / bsize, by omega⟩
      fun bn same unused => ?_).mono fun din u ⟨w, node, takes⟩ => ?_
    · have index : bn = off / bsize := place_injective (same.symm.trans slot.symm)
      rw [part] at unused
      rw [now, index]
      omega
    · exact (ensures_pure ..).mpr ⟨w, node, takes.extends_direct now positive within direct⟩
  case isFalse far =>
    have entry : off / bsize - ndirect < nindirect := by
      simp only [maxfile] at bounded
      omega
    have slot : ndirect + 1 + (off / bsize - ndirect) = place (off / bsize) := by
      rw [place, if_neg far]
      omega
    rw [ensures_bind]
    refine (addrFor_spec mid inside allocated (room.trans_lt (by decide)) indirect
      fun bn same => absurd same.symm (place_ne_ndirect bn)).mono
      fun din u ⟨w, node, first⟩ => ?_
    have type : (w.node n).type ≠ 0 := by
      rw [first.fields]
      exact allocated
    have grown : u.freeblock ≤ fssize + 1 := by
      rcases first.grows with ⟨-, same⟩ | ⟨-, more, -⟩ <;> omega
    have data := first.mid.placed.held_lt ((first.mid.placed.shape (n, ndirect)).mpr (.inr rfl))
    rw [ensures_bind]
    refine ((entryFor_spec first.mid inside type (grown.trans_lt (by decide)) entry (.inr rfl)
      first.held fun unused => ?_).mono fun x u' ⟨w', node', second⟩ => ?_).weaken
      fun stop past => ?_
    · rw [slot] at unused
      have whole : ¬ off / bsize * bsize < off := fun some => unused (.inl (part.mpr some))
      rw [now, show ndirect + (off / bsize - ndirect) = off / bsize by omega]
      omega
    · -- the indirect block is new and does not fit
      have need := need_far (Nat.lt_add_of_pos_right positive) within far
      have grows := first.grows
      rw [show indirect.val = ndirect from rfl, spans_ndirect now] at grows
      have held : w.held area (n, ndirect) = (din.addrs indirect).toNat := first.held
      rw [held] at data
      split_ifs at need <;> omega
    · rw [slot] at second
      exact (ensures_pure ..).mpr ⟨w', node'.trans node,
        first.extends_far now positive within far second node'⟩

/-- Bytes are added behind the end of a file, within one block. -/
theorem Filled.write (filled : Filled v contents) (placed : Placed v slots t.freeblock)
    (now : (contents n).length = off) (holds : v.held area (n, place (off / bsize)) ≠ 0)
    (some : count ≤ p.length) (within : off + count ≤ (off / bsize + 1) * bsize) :
    Filled (v.setBlock (v.held area (n, place (off / bsize)))
      ((v.block (v.held area (n, place (off / bsize)))).splice (off - off / bsize * bsize) count
        fun j => p.getD j 0)) (update contents n (contents n ++ p.take count)) := by
  have down : off / bsize * bsize ≤ off := div_mul_le_self off bsize
  intro m j mapped
  have held := Volume.held_setBlock (placed.notIndirect_place n (off / bsize))
    ((v.block (v.held area (n, place (off / bsize)))).splice (off - off / bsize * bsize) count
      fun j => p.getD j 0)
  rw [Volume.byte, held]
  rw [held] at mapped
  have unchanged : j < off ∨ off + count ≤ j →
      (contents n).getD j 0 = (contents n ++ p.take count).getD j 0 := by
    simp only [getD_eq_getElem?_getD]
    rintro (before | after)
    · rw [List.getElem?_append_left (by omega)]
    · have length : (contents n ++ p.take count).length = off + count := by
        rw [length_append, length_take, now, min_eq_left some]
      rw [List.getElem?_eq_none (by omega), List.getElem?_eq_none (by omega)]
  rcases eq_or_ne (m, place (j / bsize)) (n, place (off / bsize)) with same | other
  · obtain ⟨rfl, slots⟩ := Prod.mk.inj same
    have block : j / bsize = off / bsize := place_injective slots
    have old := filled m j mapped
    rw [Volume.byte, block] at old
    have split : j = off / bsize * bsize + j % bsize := by
      rw [← block, mul_comm]
      exact (div_add_mod j bsize).symm
    simp only [block, Volume.setBlock, update_self]
    rw [Bytes.byteAt_splice _ _ _ _ (mod_lt j (by decide)), old]
    split
    case isTrue inside =>
      have place : j % bsize - (off - off / bsize * bsize) = j - off := by omega
      rw [place]
      simp only [getD_eq_getElem?_getD]
      rw [List.getElem?_append_right (by omega), now, List.getElem?_take_of_lt (by omega)]
    case isFalse outside => exact unchanged (by omega)
  · have distinct : v.held area (m, place (j / bsize)) ≠ v.held area (n, place (off / bsize)) :=
      fun same => other (placed.owned.once _ _ mapped same)
    have old := filled m j mapped
    rw [Volume.byte] at old
    simp only [Volume.setBlock, update_of_ne distinct]
    rw [old]
    rcases eq_or_ne m n with rfl | apart
    · -- another block of the same file
      rw [update_self]
      rcases lt_or_ge j off with before | after
      · exact unchanged (.inl before)
      have past : off / bsize < j / bsize := by
        refine lt_of_le_of_ne (Nat.div_le_div_right after) fun same => other ?_
        rw [same]
      have far : (off / bsize + 1) * bsize ≤ j :=
        (mul_le_mul_right bsize past).trans (div_mul_le_self j bsize)
      exact unchanged (.inr (by omega))
    · rw [update_of_ne apart]

/-- Bytes have been added to a file whose inode is still in memory. -/
structure Appends (t : Image) (v : Volume) (n : Nat) (contents : Nat → List Byte)
    (p : List Byte) (u : Image) (w : Volume) : Prop where
  mid : Mid u w n (Spans fun m => (update contents n (contents n ++ p) m).length)
    (update contents n (contents n ++ p))
  others : ∀ m, m ≠ n → w.node m = v.node m
  fields : w.node n = { v.node n with addrs := (w.node n).addrs }
  kept : Kept t u
  grows : u.freeblock + need (contents n).length =
    t.freeblock + need ((contents n).length + p.length)
  room : u.freeblock ≤ fssize
  bounded : p = [] ∨ (contents n).length + p.length ≤ maxfile * bsize

theorem Mid.appends_nil (mid : Mid t v n (Spans fun m => (contents m).length) contents)
    (room : t.freeblock ≤ fssize) : Appends t v n contents [] t v where
  mid := by
    rw [append_nil, update_eq_self]
    exact mid
  others _ _ := rfl
  fields := rfl
  kept := .refl t
  grows := rfl
  room := room
  bounded := .inl rfl

/-- What can stop `iappend` of so many bytes to a file of this length. -/
def Overflows (freeblock len count : Nat) : Prop :=
  maxfile * bsize < len + count ∨ fssize + need len < freeblock + need (len + count)

theorem appendLoop_step (mid : Mid t v n (Spans fun m => (contents m).length) contents)
    (inside : n < area.ninodes) (allocated : (v.node n).type ≠ 0) (room : t.freeblock ≤ fssize)
    {off : Nat} (now : (contents n).length = off) (bounded : off / bsize < maxfile) (some : p ≠ [])
    {count : Nat} (amount : count = min p.length ((off / bsize + 1) * bsize - off)) {α : Type}
    (rest : Dinode → MkfsM α) {post : α → Image → Prop}
    (next : ∀ u w, Appends t v n contents (p.take count) u w →
      Ensures (fun _ => Overflows t.freeblock off p.length) (rest (w.node n)) u post) :
    Ensures (fun _ => Overflows t.freeblock off p.length) (do
      let found ← blockFor (v.node n) (off / bsize)
      let buf ← rsect found.2
      wsect found.2 (buf.splice (off - off / bsize * bsize) count fun j => p.getD j 0)
      rest found.1) t post := by
  have down : off / bsize * bsize ≤ off := div_mul_le_self off bsize
  have up : off < (off / bsize + 1) * bsize := by
    rw [add_mul, one_mul]
    exact lt_div_mul_add (by decide)
  have length : 0 < p.length := length_pos_iff.mpr some
  have positive : 0 < count := by omega
  have le : count ≤ p.length := by omega
  have within : off + count ≤ (off / bsize + 1) * bsize := by omega
  have more : need (off + count) ≤ need (off + p.length) := need_mono (by omega)
  rw [ensures_bind]
  refine ((blockFor_spec mid inside allocated room now bounded positive within).mono
    fun r u ⟨w, node, ext⟩ => ?_).weaken fun stop past => .inr (by omega)
  obtain ⟨din, x⟩ := r
  obtain rfl : w.node n = din := node
  have held : w.held area (n, place (off / bsize)) = x := ext.held
  have holds : w.held area (n, place (off / bsize)) ≠ 0 := by
    rw [held]
    exact ext.nonzero
  have below := ext.mid.placed.held_lt holds
  have data := ext.mid.placed.held_ge holds
  rw [held] at below data
  have near : u.freeblock ≤ fssize + 2 := by
    have grows := ext.grows
    have two : need (off + count) ≤ need off + 2 := by
      unfold need
      split_ifs <;> simp only [bsize, ndirect] at * <;> omega
    omega
  simp only [ensures_bind]
  refine ensures_rsect (below.trans_le (near.trans (by decide))) (fun present => ?_) fun past => ?_
  · rw [ensures_wsect]
    rw [ext.mid.shows.count] at present
    have room' : u.freeblock ≤ fssize := by
      rcases ext.newest with same | newest <;> omega
    refine next _ (w.setBlock x ((u.sector x).splice (off - off / bsize * bsize) count
      fun j => p.getD j 0)) ⟨⟨ext.mid.shows.write data present _, ?_, ?_⟩, ext.others, ext.fields,
      ⟨ext.kept.freeinode, ext.kept.inums⟩, ?_, room', .inr ?_⟩
    · have lengths : (fun m =>
          (update contents n (contents n ++ p.take count) m).length) =
          update (fun m => (contents m).length) n (off + count) := by
        funext m
        rcases eq_or_ne m n with rfl | other
        · simp only [update_self]
          rw [length_append, length_take, now, min_eq_left le]
        · simp only [update_of_ne other]
      rw [lengths]
      refine ext.mid.placed.congr ?_ fun b above => ?_
      · rw [← held]
        exact Volume.held_setBlock (ext.mid.placed.notIndirect_place n (off / bsize)) _
      · exact update_of_ne (below.trans_le above).ne' ..
    · rw [ext.mid.shows.block x data, ← held]
      exact ext.mid.filled.write ext.mid.placed now holds le within
    · rw [now, length_take, min_eq_left le]
      exact ext.grows
    · rw [now, length_take, min_eq_left le]
      exact within.trans (mul_le_mul_right _ bounded)
  · rw [ext.mid.shows.count] at past
    have grows := ext.grows
    exact .inr (by omega)

theorem Appends.trans {q : List Byte} {u r : Image} {w x : Volume}
    (first : Appends t v n contents p u w)
    (second : Appends u w n (update contents n (contents n ++ p)) q r x) (some : p ≠ []) :
    Appends t v n contents (p ++ q) r x := by
  obtain ⟨mid, others, fields, kept, grows, room, bounded⟩ := second
  simp only [update_self, update_idem, append_assoc, length_append] at mid grows bounded
  refine ⟨mid, fun m other => (others m other).trans (first.others m other), ?_,
    first.kept.trans kept, ?_, room, .inr ?_⟩
  · rw [fields, first.fields]
  · have before := first.grows
    rw [length_append, ← add_assoc]
    omega
  · rw [length_append]
    rcases bounded with rfl | bounded
    · simpa using first.bounded.resolve_left some
    · omega

theorem appendLoop_spec (inside : n < area.ninodes) (fuel : Nat) :
    ∀ {t : Image} {v : Volume} {contents : Nat → List Byte} {off : Nat}
      {p : List Byte}, p.length ≤ fuel →
      Mid t v n (Spans fun m => (contents m).length) contents → (v.node n).type ≠ 0 →
      t.freeblock ≤ fssize → (contents n).length = off →
      Ensures (fun _ => Overflows t.freeblock off p.length) (appendLoop fuel (v.node n) off p) t
        fun r u => ∃ w, w.node n = r.1 ∧ r.2 = off + p.length ∧ Appends t v n contents p u w := by
  induction fuel with
  | zero =>
    intro t v contents off p short mid allocated room now
    obtain rfl := length_eq_zero_iff.mp (le_zero.mp short)
    exact (ensures_pure ..).mpr ⟨v, rfl, rfl, mid.appends_nil room⟩
  | succ fuel ih =>
    intro t v contents off p short mid allocated room now
    rw [appendLoop]
    by_cases done : p = []
    · subst done
      rw [if_pos rfl]
      exact (ensures_pure ..).mpr ⟨v, rfl, rfl, mid.appends_nil room⟩
    rw [if_neg done]
    have length : 0 < p.length := length_pos_iff.mpr done
    by_cases full : maxfile ≤ off / bsize
    · rw [if_pos full]
      refine (ensures_throw ..).mpr (.inl ?_)
      have down : off / bsize * bsize ≤ off := div_mul_le_self off bsize
      have high : maxfile * bsize ≤ off := (mul_le_mul_right bsize full).trans down
      omega
    rw [if_neg full]
    dsimp only
    generalize amount : min p.length ((off / bsize + 1) * bsize - off) = count
    refine appendLoop_step mid inside allocated room now (not_le.mp full) done amount.symm
      (fun din => appendLoop fuel din (off + count) (p.drop count)) fun u w first => ?_
    have up : off < (off / bsize + 1) * bsize := by
      rw [add_mul, one_mul]
      exact lt_div_mul_add (by decide)
    have le : count ≤ p.length := by omega
    have some : p.take count ≠ [] := by
      rw [Ne, take_eq_nil_iff, not_or]
      exact ⟨by omega, done⟩
    have taken : (p.take count).length = count := by rw [length_take, min_eq_left le]
    have type : (w.node n).type ≠ 0 := by
      rw [first.fields]
      exact allocated
    have grows := first.grows
    rw [now, taken] at grows
    refine ((ih (by rw [length_drop]; omega) first.mid type first.room
      (by rw [update_self, length_append, now, taken])).mono
      fun r u' ⟨w', node, size, second⟩ => ?_).weaken fun stop past => ?_
    · unfold Overflows at past ⊢
      rw [length_drop, show off + count + (p.length - count) = off + p.length by omega] at past
      omega
    · have whole := first.trans second some
      rw [take_append_drop] at whole
      refine ⟨w', node, ?_, whole⟩
      rw [size, length_drop]
      omega

/-- Between two operations the image represents a volume with these contents. -/
structure Wrote (t : Image) (v : Volume) (contents : Nat → List Byte) : Prop where
  shows : Shows t v ∅
  placed : Placed v (Spans fun m => (contents m).length) t.freeblock
  filled : Filled v contents
  room : t.freeblock ≤ fssize
  sizes : ∀ m, m < area.ninodes → (v.node m).size.toNat = (contents m).length
  bounded : ∀ m, (contents m).length ≤ maxfile * bsize

theorem maxfile_word : maxfile * bsize < 2 ^ 32 := by decide

/-- Bytes have been added to one file. -/
structure Appended (t : Image) (v : Volume) (n : Nat) (contents : Nat → List Byte)
    (p : List Byte) (u : Image) (w : Volume) : Prop where
  wrote : Wrote u w (update contents n (contents n ++ p))
  others : ∀ m, m ≠ n → w.node m = v.node m
  fields : w.node n = { v.node n with addrs := (w.node n).addrs, size := (w.node n).size }
  kept : Kept t u
  grows : u.freeblock + need (contents n).length =
    t.freeblock + need ((contents n).length + p.length)

theorem iappend_spec (wrote : Wrote t v contents) (inside : n < area.ninodes)
    (allocated : (v.node n).type ≠ 0) (p : List Byte) :
    Ensures (fun _ => Overflows t.freeblock (contents n).length p.length) (iappend n p) t
      fun _ u => ∃ w, Appended t v n contents p u w := by
  have stale : Shows t v {n} :=
    ⟨wrote.shows.count, wrote.shows.block, fun m below _ => wrote.shows.node m below id,
      wrote.shows.header, wrote.shows.inodeBlocks⟩
  simp only [iappend]
  rw [ensures_bind]
  refine (rinode_spec wrote.shows inside id).mono fun din t' same => ?_
  obtain ⟨rfl, rfl⟩ := same
  rw [ensures_bind]
  refine (appendLoop_spec inside p.length le_rfl ⟨stale, wrote.placed, wrote.filled⟩ allocated
    wrote.room (wrote.sizes n inside).symm).mono (fun r u ⟨w, node, off, appends⟩ => ?_)
    |>.weaken fun stop past => by rwa [wrote.sizes n inside] at past
  have size : r.2 = (contents n).length + p.length := by rw [off, wrote.sizes n inside]
  have limit : (contents n).length + p.length ≤ maxfile * bsize := by
    rcases appends.bounded with rfl | bounded
    · simpa using wrote.bounded n
    · exact bounded
  have value : (BitVec.ofNat 32 ((contents n).length + p.length)).toNat =
      (contents n).length + p.length := by
    rw [BitVec.toNat_ofNat, mod_eq_of_lt (limit.trans_lt maxfile_word)]
  -- the size is set in the inode that is written back
  have held : (w.setNode n { w.node n with
      size := .ofNat 32 ((contents n).length + p.length) }).held area = w.held area :=
    Volume.held_setNode_same rfl .rfl
  have shows : Shows u (w.setNode n { w.node n with
      size := .ofNat 32 ((contents n).length + p.length) }) {n} :=
    ⟨appends.mid.shows.count, appends.mid.shows.block, fun m below fresh =>
      (appends.mid.shows.node m below fresh).trans (update_of_ne fresh ..).symm,
      appends.mid.shows.header, appends.mid.shows.inodeBlocks⟩
  rw [← node, size]
  refine (winode_spec shows subset_rfl inside (update_self ..)).mono
    fun _ u' ⟨shows', kept, freeblock⟩ => ?_
  refine ⟨_, ⟨shows', ?_, ?_, freeblock ▸ appends.room, fun m below => ?_, fun m => ?_⟩,
    fun m other => (update_of_ne other ..).trans (appends.others m other), ?_,
    appends.kept.trans kept, ?_⟩
  · rw [freeblock]
    exact appends.mid.placed.congr held fun _ _ => rfl
  · intro m j mapped
    rw [held] at mapped
    rw [Volume.byte, held]
    exact appends.mid.filled m j mapped
  · rcases eq_or_ne m n with rfl | other
    · simp only [Volume.setNode, update_self, length_append]
      exact value
    · simp only [Volume.setNode, update_of_ne other]
      rw [appends.others m other]
      exact wrote.sizes m below
  · rcases eq_or_ne m n with rfl | other
    · rw [update_self, length_append]
      exact limit
    · rw [update_of_ne other]
      exact wrote.bounded m
  · simp only [Volume.setNode, update_self]
    rw [appends.fields]
  · rw [freeblock]
    exact appends.grows

end OsLab.Mkfs
