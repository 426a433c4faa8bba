import OsLab.Mkfs.Files

/-!
# Bounds of the image

Nothing in `mkfs` compares `freeinode` with `NINODES`.  What it does check, by reading past the
end of the image file, is that blocks are left, so whenever it ends by `exit(0)` the addresses and
the bitmap are in order as long as the inodes are, and the inodes are in order for up to 198
input files.
-/

namespace OsLab.Mkfs

open Fs Act List

/-- Addresses, inode numbers, inode writes and the bitmap stay within their bounds. -/
structure InBounds (t : Image) : Prop where
  addresses : ∀ n, n < ninodeblocks * ipb → ∀ k,
    (Dinode.load (t.sector (sb.iblock n)) (n % ipb)).pointer t.sector k ≠ 0 →
    nmeta ≤ (Dinode.load (t.sector (sb.iblock n)) (n % ipb)).pointer t.sector k ∧
      (Dinode.load (t.sector (sb.iblock n)) (n % ipb)).pointer t.sector k < fssize
  inums : ∀ n ∈ t.inums, n < ninodes
  inodeBlocks : ∀ b ∈ t.inodeBlocks, sb.inodestart ≤ b ∧ b < sb.bmapstart
  freeblock : t.freeblock ≤ fssize
  bitmap : ∀ b, b < bpb → isFree (t.sector sb.bmapstart) b = decide (t.freeblock ≤ b)

variable {t : Image} {files : List Input}

/-- The addresses of an inode are those in the places of the volume. -/
theorem Finished.pointer {v : Volume} (finished : Finished t v files) {n : Nat}
    (inside : n < area.ninodes) (allocated : (v.node n).type ≠ 0) (k : Nat) :
    (v.node n).pointer t.sector k = v.held area (n, k) := by
  rw [Volume.held_of_allocated v inside allocated]
  unfold Dinode.pointer
  split
  · rfl
  refine if_ctx_congr .rfl (fun far => ?_) fun _ => rfl
  have pointer : v.held area (n, ndirect) = ((v.node n).addrs indirect).toNat :=
    Volume.held_addr v inside allocated indirect
  have holds : v.held area (n, ndirect) ≠ 0 := fun zero =>
    far.1 (BitVec.eq_of_toNat_eq (pointer.symm.trans zero))
  have data := finished.placed.held_ge holds
  rw [pointer] at data
  rw [finished.shows.block _ data]

theorem Finished.inBounds {v : Volume} (finished : Finished t v files)
    (few : files.length + 2 ≤ ninodes) : InBounds t where
  addresses n inside k nonzero := by
    rw [finished.shows.node n inside id] at nonzero ⊢
    have allocated : (v.node n).type ≠ 0 := fun free => by
      rw [finished.blank n inside ((finished.type n inside).symm.trans free)] at nonzero
      simp [Dinode.pointer, Dinode.fresh] at nonzero
    rw [finished.pointer inside allocated] at nonzero ⊢
    exact ⟨finished.placed.held_ge nonzero,
      (finished.placed.held_lt nonzero).trans_le finished.room⟩
  inums n listed := by
    rw [finished.inums, mem_reverse, mem_map] at listed
    obtain ⟨i, below, rfl⟩ := listed
    rw [mem_range] at below
    omega
  inodeBlocks := finished.shows.inodeBlocks
  freeblock := finished.room
  bitmap b _ := by
    rw [finished.map]
    exact isFree_bitmap (finished.room.trans (by decide)) b

/-- The program allocates no inode. -/
structure Keeps {α : Type} (program : MkfsM α) : Prop where
  kept : ∀ t, Ensures (fun _ => True) program t fun _ u => Kept t u

section Keeps

variable {α β : Type}

theorem keeps_pure (result : α) : Keeps (pure result : MkfsM α) :=
  ⟨fun t => (ensures_pure ..).mpr (.refl t)⟩

theorem keeps_throw (exit : Exit) : Keeps (throw exit : MkfsM α) :=
  ⟨fun _ => (ensures_throw ..).mpr trivial⟩

theorem Keeps.bind {first : MkfsM α} {second : α → MkfsM β} (left : Keeps first)
    (right : ∀ result, Keeps (second result)) : Keeps (first >>= second) :=
  ⟨fun t => (left.kept t).bind fun result u kept =>
    ((right result).kept u).mono fun _ _ later => kept.trans later⟩

theorem keeps_get : Keeps (get : MkfsM Image) := ⟨fun t => (ensures_get ..).mpr (.refl t)⟩

theorem keeps_wsect (sec : Nat) (buf : Block) : Keeps (wsect sec buf) :=
  ⟨fun _ => (ensures_wsect ..).mpr ⟨rfl, rfl⟩⟩

theorem keeps_rsect (sec : Nat) : Keeps (rsect sec) := by
  refine keeps_get.bind fun t => ?_
  split
  · exact keeps_pure _
  · exact keeps_throw _

theorem keeps_winode (inum : Nat) (ip : Dinode) : Keeps (winode inum ip) := by
  refine (keeps_rsect _).bind fun buf => (keeps_wsect ..).bind fun _ => ⟨fun t => ?_⟩
  exact (ensures_modify ..).mpr ⟨rfl, rfl⟩

theorem keeps_rinode (inum : Nat) : Keeps (rinode inum) :=
  (keeps_rsect _).bind fun _ => keeps_pure _

theorem keeps_newBlock : Keeps newBlock := ⟨fun _ => (ensures_newBlock _).mpr ⟨rfl, rfl⟩⟩

theorem keeps_addrFor (din : Dinode) (k : Fin (ndirect + 1)) : Keeps (addrFor din k) := by
  unfold addrFor
  split
  · exact keeps_newBlock.bind fun _ => keeps_pure _
  · exact keeps_pure _

theorem keeps_entryFor (b j : Nat) : Keeps (entryFor b j) := by
  refine (keeps_rsect b).bind fun block => ?_
  split
  · exact keeps_newBlock.bind fun new => (keeps_wsect ..).bind fun _ => keeps_pure _
  · exact keeps_pure _

theorem keeps_blockFor (din : Dinode) (fbn : Nat) : Keeps (blockFor din fbn) := by
  unfold blockFor
  split
  · exact (keeps_addrFor ..).bind fun _ => keeps_pure _
  · exact (keeps_addrFor ..).bind fun _ => (keeps_entryFor ..).bind fun _ => keeps_pure _

theorem keeps_appendLoop (fuel : Nat) :
    ∀ (din : Dinode) (off : Nat) (p : List Byte), Keeps (appendLoop fuel din off p) := by
  induction fuel with
  | zero => exact fun din off p => keeps_pure _
  | succ fuel ih =>
    intro din off p
    rw [appendLoop]
    split
    · exact keeps_pure _
    split
    · exact keeps_throw _
    · exact (keeps_blockFor ..).bind fun found => (keeps_rsect _).bind fun buf =>
        (keeps_wsect ..).bind fun _ => ih ..

theorem keeps_iappend (inum : Nat) (p : List Byte) : Keeps (iappend inum p) :=
  (keeps_rinode inum).bind fun _ => (keeps_appendLoop ..).bind fun _ => keeps_winode ..

theorem keeps_appendAll (inum : Nat) (chunks : List Chunk) : Keeps (appendAll inum chunks) := by
  induction chunks with
  | nil => exact keeps_pure _
  | cons chunk rest ih => exact (keeps_iappend ..).bind fun _ => ih

theorem keeps_wipe (count : Nat) : Keeps (wipe count) := by
  induction count with
  | zero => exact keeps_pure _
  | succ count ih => exact ih.bind fun _ => keeps_wsect ..

theorem keeps_balloc (used : Nat) : Keeps (balloc used) := by
  unfold balloc
  split
  · exact keeps_wsect ..
  · exact keeps_throw _

end Keeps

/-- Every number below `freeinode` was returned by `ialloc`. -/
def Counted (t : Image) : Prop := ∀ n, 0 < n → n < t.freeinode → n ∈ t.inums

theorem Counted.of_kept {t u : Image} (counted : Counted t) (kept : Kept t u) : Counted u := by
  intro n positive below
  rw [kept.inums]
  exact counted n positive (kept.freeinode ▸ below)

theorem ialloc_counted (counted : Counted t) (type : BitVec 16) :
    Ensures (fun _ => True) (ialloc type) t fun _ u =>
      Counted u ∧ u.freeinode = t.freeinode + 1 := by
  simp only [ialloc, ensures_bind, ensures_get, ensures_modify]
  refine ((keeps_winode ..).kept _).mono fun _ u kept => ?_
  rw [ensures_pure]
  refine ⟨fun n positive below => ?_, kept.freeinode⟩
  dsimp only at below ⊢
  rw [kept.freeinode] at below
  dsimp only at below
  rcases Nat.lt_succ_iff_lt_or_eq.mp below with old | rfl
  · rw [kept.inums]
    exact mem_cons_of_mem _ (counted n positive old)
  · exact mem_cons_self

theorem addFiles_counted (root : Nat) (files : List Input) : ∀ {t : Image}, Counted t →
    Ensures (fun _ => True) (addFiles root files) t fun _ u =>
      Counted u ∧ u.freeinode = t.freeinode + files.length := by
  induction files with
  | nil => exact fun counted => (ensures_pure ..).mpr ⟨counted, rfl⟩
  | cons file rest ih =>
    intro t counted
    rw [addFiles]
    split
    · exact (ensures_throw ..).mpr trivial
    cases file.chunks with
    | none => exact (ensures_throw ..).mpr trivial
    | some chunks =>
      refine (ialloc_counted counted tFile).bind fun inum u made => ?_
      obtain ⟨counted', more⟩ := made
      refine ((keeps_iappend ..).kept u).bind fun _ u' kept => ?_
      refine ((keeps_appendAll ..).kept u').bind fun _ u'' kept' => ?_
      refine (ih (counted'.of_kept (kept.trans kept'))).mono fun _ w added => ?_
      refine ⟨added.1, ?_⟩
      rw [added.2, (kept.trans kept').freeinode, more, length_cons]
      omega

/-- `mkfs` allocates an inode for each file, whatever their number. -/
theorem main_counted (files : List Input) :
    Ensures (fun _ => True) (main files) start fun _ t => files.length + 1 ∈ t.inums := by
  have empty : Counted start := fun n positive below => by
    simp only [start] at below
    omega
  refine ((keeps_wipe fssize).kept start).bind fun _ t wiped => ?_
  refine ((keeps_wsect 1 superblock).kept t).bind fun _ t' written => ?_
  have kept := wiped.trans written
  refine (ialloc_counted (empty.of_kept kept) tDir).bind fun root u made => ?_
  obtain ⟨counted, two⟩ := made
  split
  · refine ((keeps_iappend ..).kept u).bind fun _ u' first => ?_
    refine ((keeps_iappend ..).kept u').bind fun _ u'' second => ?_
    refine (addFiles_counted root files (counted.of_kept (first.trans second))).bind
      fun _ w added => ?_
    obtain ⟨all, count⟩ := added
    have last : Keeps (do
        fixSize root
        balloc (← get).freeblock) :=
      ((keeps_rinode root).bind fun _ => keeps_winode ..).bind fun _ =>
        keeps_get.bind fun _ => keeps_balloc _
    refine (last.kept w).mono fun _ t'' later => ?_
    rw [later.inums]
    refine all _ (Nat.succ_pos _) ?_
    rw [count, (first.trans second).freeinode, two, kept.freeinode]
    simp only [start]
    omega
  · exact (ensures_throw ..).mpr trivial

/-- Whenever `mkfs` ends by `exit(0)`, its image is in bounds exactly if there are at most
`NINODES - 2` input files. -/
theorem image_in_bounds_iff {files : List Input} {t : Image}
    (run : main files start = .ok ((), t)) : InBounds t ↔ files.length + 2 ≤ ninodes := by
  constructor
  · intro bounds
    have last := (main_counted files).returns () t run
    exact bounds.inums _ last
  · intro few
    obtain ⟨v, finished⟩ := (main_spec (few.trans (by decide))).returns () t run
    exact finished.inBounds few

theorem Fits.main_ok (fits : Fits files) :
    ∃ t v, main files start = .ok ((), t) ∧ Finished t v files := by
  cases outcome : main files start with
  | error exit => exact absurd fits ((main_spec fits.inodes).stops exit outcome)
  | ok result =>
    obtain ⟨v, finished⟩ := (main_spec fits.inodes).returns result.1 result.2 outcome
    exact ⟨result.2, v, rfl, finished⟩

/-- An empty file named `a`. -/
def emptyInput : Input := ⟨[97], proper_a, some []⟩

theorem emptyInput_fits (count : Nat) (few : count + 2 ≤ area.ninodes) :
    Fits (List.replicate count emptyInput) where
  proper file listed := by
    rw [eq_of_mem_replicate listed]
    decide
  opened file listed := by
    rw [eq_of_mem_replicate listed]
    decide
  inodes := by rwa [length_replicate]
  short file listed := by
    rw [eq_of_mem_replicate listed]
    decide
  blocks := by
    have none : need emptyInput.bytes.length = 0 := by decide
    have four : need (direntSize * (count + 2)) ≤ need (direntSize * area.ninodes) :=
      need_mono (Nat.mul_le_mul_left _ few)
    rw [total, length_replicate, map_replicate, none, sum_replicate]
    have room : nmeta + need (direntSize * area.ninodes) ≤ fssize := by decide
    rw [smul_zero]
    omega

/-- A file `a` of two bytes, read one by one. -/
def twoBytes : Input := ⟨[97], proper_a, some [⟨[104], by decide⟩, ⟨[105], by decide⟩]⟩

theorem twoBytes_fits : Fits [twoBytes] where
  proper := by decide
  opened := by decide
  inodes := by decide
  short := by decide
  blocks := by decide

theorem image_in_bounds_iff_twoBytes :
    ∃ t, main [twoBytes] start = .ok ((), t) ∧ InBounds t := by
  obtain ⟨t, v, run, finished⟩ := twoBytes_fits.main_ok
  exact ⟨t, run, (image_in_bounds_iff run).mpr (by decide)⟩

/-- With 199 empty files `mkfs` ends by `exit(0)` and has allocated inode 200. -/
theorem inode_beyond_ninodes : ∃ t, main (List.replicate 199 emptyInput) start = .ok ((), t) ∧
    200 ∈ t.inums ∧ ¬ InBounds t := by
  obtain ⟨t, v, run, finished⟩ := (emptyInput_fits 199 (by decide)).main_ok
  have listed : 200 ∈ t.inums := by
    rw [finished.inums, length_replicate, mem_reverse, mem_map]
    exact ⟨199, mem_range.mpr (by decide), rfl⟩
  exact ⟨t, run, listed, fun bounds => absurd (bounds.inums 200 listed) (by decide)⟩

end OsLab.Mkfs
