import OsLab.Fs.Blocks

/-!
# Reading files without holes

As long as every block of a file is mapped, `bmap` and `readi` leave the state as it is and the
result of a read is known: the bytes of the file from the offset on.  No buffer is locked between
two operations of the file system, so a program may lock any of them.
-/

namespace OsLab.Fs

open Act Function List Nat

/-- `readsb` and the check of `fsinit`. -/
def readsb (block : Block) : Option Superblock :=
  if block.getLE 0 4 = 0x10203040 then
    some
      { size := block.getLE 4 4
        nblocks := block.getLE 8 4
        ninodes := block.getLE 12 4
        inodestart := block.getLE 24 4
        bmapstart := block.getLE 28 4 }
  else none

variable {sb : Superblock} {s : State} {ip : Slot} {off : Nat} {dp : Slot}

theorem bread_ok (unheld : s.held = []) (b : Nat) :
    bread b s = .ok (s.disk b, { s with held := [b] }) := by
  have free : b ∉ s.held := by simp [unheld]
  change (if b ∈ s.held then throw Stop.blocked else do
    set { s with held := b :: s.held }
    return s.disk b : FsM Block) s = _
  rw [if_neg free, unheld]
  rfl

theorem brelse_ok (unheld : s.held = []) (b : Nat) :
    brelse b { s with held := [b] } = .ok ((), s) := by
  change (if b ∈ [b] then
    set { { s with held := [b] } with held := [b].erase b } else throw Stop.brelse : FsM Unit)
      { s with held := [b] } = _
  rw [if_pos (mem_singleton.mpr rfl), erase_cons_head, ← unheld]
  rfl

theorem bmap_mapped (unheld : s.held = []) {bn : Nat} (bounded : bn < maxfile)
    (mapped : (s.inode ip).node.pointer s.disk (place bn) ≠ 0) :
    bmap sb ip bn s = .ok ((s.inode ip).node.pointer s.disk (place bn), s) := by
  have found : ∀ k : Fin (ndirect + 1), (s.inode ip).node.addrs k ≠ 0 →
      bmapAddr sb ip k s = .ok (((s.inode ip).node.addrs k).toNat, s) := by
    intro k some
    rw [bmapAddr, bind_of_ok (show inode ip s = .ok (s.inode ip, s) from rfl), if_neg some]
    rfl
  unfold bmap
  by_cases direct : bn < ndirect
  · rw [dif_pos direct]
    have slot : place bn = bn := if_pos direct
    have pointer : (s.inode ip).node.pointer s.disk (place bn) =
        ((s.inode ip).node.addrs ⟨bn, by omega⟩).toNat := by
      rw [slot, Dinode.pointer, dif_pos (by omega)]
    rw [pointer] at mapped ⊢
    exact found _ fun zero => mapped (by rw [zero]; rfl)
  · have entry : bn - ndirect < nindirect := by
      simp only [maxfile] at bounded
      omega
    rw [dif_neg direct, if_pos entry]
    have slot : place bn = bn + 1 := if_neg direct
    rw [slot, Dinode.pointer, dif_neg (by omega)] at mapped ⊢
    have has : (s.inode ip).node.addrs indirect ≠ 0 ∧ bn + 1 < ndirect + 1 + nindirect := by
      by_contra none
      exact mapped (if_neg none)
    rw [if_pos has, show bn + 1 - (ndirect + 1) = bn - ndirect by omega] at mapped ⊢
    rw [bind_of_ok (found _ has.1), bmapEntry, bind_of_ok (bread_ok unheld _), if_neg mapped,
      bind_of_ok (brelse_ok unheld _)]
    rfl

theorem iget_new {inum : Nat} (uncached : ∀ ip, (s.inode ip).inum = inum → (s.inode ip).ref = 0)
    (room : ∃ ip, (s.inode ip).ref = 0) :
    ∃ ip, (s.inode ip).ref = 0 ∧ iget inum s = .ok (ip,
      s.setInode ip fun i => { i with inum := inum, ref := 1, valid := false }) := by
  have miss : (List.finRange ninode).find? (fun ip =>
      decide (0 < (s.inode ip).ref) && (s.inode ip).inum == inum) = none := by
    rw [List.find?_eq_none]
    intro ip _ hit
    rw [Bool.and_eq_true, decide_eq_true_eq, beq_iff_eq] at hit
    exact hit.1.ne' (uncached ip hit.2)
  obtain ⟨free, unused⟩ := room
  obtain ⟨ip, first⟩ : ∃ ip, (List.finRange ninode).find? (fun ip => (s.inode ip).ref == 0) =
      some ip := by
    rw [← Option.isSome_iff_exists, List.find?_isSome]
    exact ⟨free, mem_finRange free, beq_iff_eq.mpr unused⟩
  refine ⟨ip, beq_iff_eq.mp (List.find?_some first :), ?_⟩
  rw [iget, bind_of_ok (show (get : FsM State) s = .ok (s, s) from rfl)]
  rw [miss]
  dsimp only
  rw [first]
  rfl

theorem iget_cached (used : 0 < (s.inode dp).ref) (only : ∀ ip, ip ≠ dp → (s.inode ip).ref = 0) :
    iget (s.inode dp).inum s = .ok (dp, s.setInode dp fun i => { i with ref := i.ref + 1 }) := by
  have hit : (List.finRange ninode).find? (fun ip =>
      decide (0 < (s.inode ip).ref) && (s.inode ip).inum == (s.inode dp).inum) = some dp := by
    obtain ⟨ip, first⟩ : ∃ ip, (List.finRange ninode).find? (fun ip =>
        decide (0 < (s.inode ip).ref) && (s.inode ip).inum == (s.inode dp).inum) = some ip := by
      rw [← Option.isSome_iff_exists, List.find?_isSome]
      exact ⟨dp, mem_finRange dp, by simp [used]⟩
    have test := List.find?_some first
    rw [Bool.and_eq_true, decide_eq_true_eq] at test
    rw [first]
    by_contra other
    exact test.1.ne' (only ip fun same => other (congrArg some same))
  rw [iget, bind_of_ok (show (get : FsM State) s = .ok (s, s) from rfl)]
  rw [hit]
  rfl

theorem ilock_load (unheld : s.held = []) (ref : 0 < (s.inode ip).ref)
    (free : (s.inode ip).lock = none) (cold : (s.inode ip).valid = false) {node : Dinode}
    (stored : Dinode.load (s.disk (sb.iblock (s.inode ip).inum)) ((s.inode ip).inum % ipb) = node)
    (allocated : node.type ≠ 0) (me : Pslot) :
    ilock sb me ip s = .ok ((), s.setInode ip fun i =>
      { i with lock := some me, node := node, valid := true }) := by
  have lock : acquiresleep me ip s =
      .ok ((), s.setInode ip fun i => { i with lock := some me }) := by
    rw [acquiresleep, bind_of_ok (show inode ip s = .ok (s.inode ip, s) from rfl), if_pos free]
    rfl
  rw [ilock, bind_of_ok (show inode ip s = .ok (s.inode ip, s) from rfl), if_neg (by omega),
    bind_of_ok lock, if_neg (by simp [cold])]
  rw [bind_of_ok (bread_ok (s := s.setInode ip fun i => { i with lock := some me }) unheld _)]
  rw [bind_of_ok (brelse_ok (s := s.setInode ip fun i => { i with lock := some me }) unheld _)]
  rw [show (s.setInode ip fun i => { i with lock := some me }).disk = s.disk from rfl, stored]
  have load : setInode ip (fun i => { i with node := node, valid := true })
      (s.setInode ip fun i => { i with lock := some me }) = .ok ((), s.setInode ip fun i =>
        { i with lock := some me, node := node, valid := true }) := by
    change Except.ok ((), (s.setInode ip _).setInode ip _) = _
    simp [State.setInode]
  rw [bind_of_ok load, if_neg allocated]
  rfl

/-- Byte `j` of the file that an entry of the cache holds. -/
def fileByte (s : State) (ip : Slot) (j : Nat) : Byte :=
  (s.disk ((s.inode ip).node.pointer s.disk (place (j / bsize)))).byteAt (j % bsize)

/-- The first `len` bytes of the file have blocks. -/
structure Mapped (s : State) (ip : Slot) (len : Nat) : Prop where
  unheld : s.held = []
  bounded : len ≤ maxfile * bsize
  mapped : ∀ bn, bn * bsize < len → (s.inode ip).node.pointer s.disk (place bn) ≠ 0

theorem byteAt_block {j : Nat} (within : off % bsize + j < bsize) :
    Bytes.byteAt (s.disk ((s.inode ip).node.pointer s.disk (place (off / bsize))))
      (off % bsize + j) = fileByte s ip (off + j) := by
  obtain ⟨quotient, remainder⟩ := div_mod_bsize within
  rw [fileByte, quotient, remainder]

theorem range_block {m : Nat} (within : m ≤ bsize - off % bsize) :
    ((List.range m).map fun j => Bytes.byteAt (s.disk
      ((s.inode ip).node.pointer s.disk (place (off / bsize)))) (off % bsize + j)) =
      (List.range m).map fun j => fileByte s ip (off + j) :=
  map_congr_left fun j listed => byteAt_block (by have := mem_range.mp listed; omega)

theorem Mapped.bmap {len : Nat} (file : Mapped s ip len) (inside : off < len) :
    bmap sb ip (off / bsize) s =
      .ok ((s.inode ip).node.pointer s.disk (place (off / bsize)), s) := by
  have down : off / bsize * bsize ≤ off := div_mul_le_self off bsize
  refine bmap_mapped file.unheld ?_ (file.mapped (off / bsize) (by omega))
  refine Nat.div_lt_of_lt_mul ?_
  have bounded := file.bounded
  rw [mul_comm] at bounded
  omega

/-- The loop of `readi` reads up to a byte that cannot be copied. -/
theorem readLoop_copies {len n : Nat} (file : Mapped s ip len) (writable : Nat → Bool)
    (fuel : Nat) :
    ∀ (off : Nat) (bytes : List Byte), n - bytes.length ≤ fuel → off + (n - bytes.length) ≤ len →
      ∃ k, k ≤ n - bytes.length ∧ ((∀ j, writable j) → k = n - bytes.length) ∧
        readLoop sb ip writable n fuel off bytes s =
          .ok (bytes ++ (List.range k).map (fun j => fileByte s ip (off + j)), s) := by
  induction fuel with
  | zero =>
    intro off bytes short _
    refine ⟨0, by omega, fun _ => by omega, ?_⟩
    simp [readLoop]
    rfl
  | succ fuel ih =>
    intro off bytes short inside
    rw [readLoop]
    by_cases more : bytes.length < n
    · rw [if_pos more, bind_of_ok (file.bmap (by omega)), bind_of_ok (bread_ok file.unheld _)]
      generalize amount : min (n - bytes.length) (bsize - off % bsize) = m
      have rest : off % bsize < bsize := mod_lt off (by decide)
      rw [bind_of_ok (brelse_ok file.unheld _)]
      by_cases all : (List.range m).all fun j => writable (bytes.length + j)
      · rw [if_pos all, range_block (by omega)]
        have length : (bytes ++ (List.range m).map fun j =>
            fileByte s ip (off + j)).length = bytes.length + m := by simp
        obtain ⟨k, le, whole, run⟩ := ih (off + m) (bytes ++ (List.range m).map fun j =>
          fileByte s ip (off + j)) (by omega) (by omega)
        rw [length] at le whole
        refine ⟨m + k, by omega, fun every => by have := whole every; omega, ?_⟩
        rw [run, append_assoc, range_add, map_append, map_map]
        simp only [comp_def, add_assoc]
      · refine ⟨0, zero_le _, fun every => absurd ?_ all, ?_⟩
        · exact all_eq_true.mpr fun j _ => every (bytes.length + j)
        · rw [if_neg all]
          simp
          rfl
    · rw [if_neg more]
      refine ⟨0, zero_le _, fun _ => by omega, ?_⟩
      simp
      rfl

theorem readLoop_mapped {len n : Nat} (file : Mapped s ip len) (fuel : Nat) (off : Nat)
    (bytes : List Byte) (short : n - bytes.length ≤ fuel)
    (inside : off + (n - bytes.length) ≤ len) :
    readLoop sb ip (fun _ => true) n fuel off bytes s =
      .ok (bytes ++ (List.range (n - bytes.length)).map (fun j => fileByte s ip (off + j)), s)
    := by
  obtain ⟨k, _, whole, run⟩ := readLoop_copies file (fun _ => true) fuel off bytes short inside
  rw [run, whole fun _ => rfl]

section

variable (file : Mapped s ip (s.inode ip).node.size.toNat)
include file

variable {n : Nat}

theorem readi_unchanged (writable : Nat → Bool) (word : n < 2 ^ 32) :
    ∃ bytes, readi sb ip writable off n s = .ok (bytes, s) := by
  have limit : (s.inode ip).node.size.toNat < 2 ^ 32 := BitVec.isLt _
  rw [readi, bind_of_ok (show inode ip s = .ok (s.inode ip, s) from rfl)]
  dsimp only
  generalize (s.inode ip).node.size.toNat = size at *
  by_cases outside : size < off ∨ (off + n) % 2 ^ 32 < off
  · rw [if_pos outside]
    exact ⟨[], rfl⟩
  · rw [if_neg outside]
    have amount : off + (if size < (off + n) % 2 ^ 32 then size - off else n) ≤ size := by
      split <;> omega
    obtain ⟨k, _, _, run⟩ := readLoop_copies file writable _ off [] le_rfl amount
    exact ⟨_, run⟩

theorem readi_mapped (word : off + n < 2 ^ 32) :
    readi sb ip (fun _ => true) off n s =
      .ok ((List.range (min n ((s.inode ip).node.size.toNat - off))).map
        (fun j => fileByte s ip (off + j)), s) := by
  rw [readi, bind_of_ok (show inode ip s = .ok (s.inode ip, s) from rfl)]
  dsimp only
  rw [mod_eq_of_lt word]
  generalize (s.inode ip).node.size.toNat = size at *
  by_cases past : size < off
  · rw [if_pos (.inl past), show min n (size - off) = 0 by omega]
    rfl
  · rw [if_neg (by omega)]
    have amount : (if size < off + n then size - off else n) = min n (size - off) := by
      split <;> omega
    rw [amount, readLoop_mapped file _ _ _ (by simp) (by simp; omega)]
    simp

theorem readi_contents {contents : List Byte}
    (size : (s.inode ip).node.size.toNat = contents.length)
    (bytes : ∀ j (inside : j < contents.length), fileByte s ip j = contents[j])
    (word : off + n < 2 ^ 32) :
    readi sb ip (fun _ => true) off n s = .ok ((contents.drop off).take n, s) := by
  rw [readi_mapped file word, size]
  have same : (List.range (min n (contents.length - off))).map
      (fun j => fileByte s ip (off + j)) = (contents.drop off).take n := by
    refine ext_getElem (by simp) fun j left right => ?_
    simp only [length_map, length_range] at left
    rw [getElem_map, getElem_range, getElem_take, getElem_drop, bytes (off + j) (by omega)]
  rw [same]

end

def Dirent.image (de : Dirent) : List Byte := (List.range direntSize).map de.bytes

/-- The characters before the first 0 of a name that is filled up with 0. -/
theorem takeWhile_padded (count : Nat) : ∀ name : Name, 0 ∉ name → name.length ≤ count →
    ((List.range count).map fun j => name.getD j 0).takeWhile (· != 0) = name := by
  induction count with
  | zero =>
    intro name _ short
    obtain rfl := length_eq_zero_iff.mp (le_zero.mp short)
    rfl
  | succ count ih =>
    intro name proper short
    rw [range_succ_eq_map, map_cons, map_map]
    cases name with
    | nil => simp
    | cons c rest =>
      have head : (c != 0) = true := bne_iff_ne.mpr fun zero => proper (by simp [zero])
      have tail := ih rest (fun listed => proper (mem_cons_of_mem c listed)) (by simpa using short)
      simp only [comp_def, getD_cons_zero, getD_cons_succ]
      rw [takeWhile_cons]
      simp only [head, if_true, tail]

/-- An entry is read back from its bytes, with the name cut to `DIRSIZ`. -/
theorem Dirent.ofBytes_image (de : Dirent) (proper : 0 ∉ de.name) :
    Dirent.ofBytes de.image = ⟨de.inum, de.name.take dirsiz⟩ := by
  have tail : de.image.drop 2 =
      (List.range dirsiz).map fun j => (de.name.take dirsiz).getD j 0 := by
    refine ext_getElem (by simp [image, direntSize, dirsiz]) fun j left right => ?_
    simp only [image, getElem_drop, getElem_map, getElem_range]
    rw [Dirent.bytes, if_neg (by omega), if_neg (by omega), Nat.add_sub_cancel_left]
  have first : de.image.getD 0 0 = .ofNat 8 de.inum.toNat := rfl
  have second : de.image.getD 1 0 = .ofNat 8 (de.inum.toNat / 256) := rfl
  rw [Dirent.ofBytes, tail, first, second, takeWhile_padded _ _
    (fun listed => proper (mem_of_mem_take listed)) (by rw [length_take]; omega)]
  congr 1
  refine BitVec.eq_of_toNat_eq ?_
  have word := de.inum.isLt
  simp only [BitVec.toNat_ofNat]
  omega

/-- Entry at an offset of a directory in the cache. -/
def direntAt (s : State) (dp : Slot) (off : Nat) : Dirent :=
  .ofBytes ((List.range direntSize).map fun j => fileByte s dp (off + j))

theorem readDirent_mapped {len : Nat} (file : Mapped s dp len) (inside : off + direntSize ≤ len)
    (size : len ≤ (s.inode dp).node.size.toNat) (stop : Stop) :
    readDirent sb dp off stop s = .ok (direntAt s dp off, s) := by
  have bounded := file.bounded
  have word : off + direntSize < 2 ^ 32 :=
    (inside.trans bounded).trans_lt (by decide)
  have read : readi sb dp (fun _ => true) off direntSize s =
      .ok ((List.range direntSize).map (fun j => fileByte s dp (off + j)), s) := by
    rw [readi, bind_of_ok (show inode dp s = .ok (s.inode dp, s) from rfl)]
    dsimp only
    rw [mod_eq_of_lt word, if_neg (by omega), if_neg (by omega),
      readLoop_mapped file _ _ _ (by simp) (by simpa using inside)]
    simp
  rw [readDirent, bind_of_ok read, if_pos (by simp)]
  rfl

section

variable {len : Nat} (file : Mapped s dp len) (size : len ≤ (s.inode dp).node.size.toNat)
  {name : Name}
include file size

theorem dirlookupFrom_skip (offs rest : List Nat) (passed : ∀ off ∈ offs, off + direntSize ≤ len ∧
      ((direntAt s dp off).inum = 0 ∨ name.take dirsiz ≠ (direntAt s dp off).name)) :
    dirlookupFrom sb dp name (offs ++ rest) s = dirlookupFrom sb dp name rest s := by
  induction offs with
  | nil => rfl
  | cons off offs ih =>
    obtain ⟨inside, other⟩ := passed off mem_cons_self
    have later := ih fun next listed => passed next (mem_cons_of_mem off listed)
    rw [cons_append, dirlookupFrom, bind_of_ok (readDirent_mapped file inside size _)]
    by_cases empty : (direntAt s dp off).inum = 0
    · rw [if_pos empty]
      exact later
    · rw [if_neg empty, if_neg (other.resolve_left empty)]
      exact later

theorem dirlookupFrom_found (inside : off + direntSize ≤ len) (used : (direntAt s dp off).inum ≠ 0)
    (same : name.take dirsiz = (direntAt s dp off).name) (rest : List Nat) {found : Slot}
    {t : State} (got : iget (direntAt s dp off).inum.toNat s = .ok (found, t)) :
    dirlookupFrom sb dp name (off :: rest) s = .ok (some (found, off), t) := by
  rw [dirlookupFrom, bind_of_ok (readDirent_mapped file inside size _), if_neg used, if_pos same,
    bind_of_ok got]
  rfl

end

/-! A directory whose size was rounded up may lack its last block.  Reading there allocates a block
of zeroes, in which there is no entry. -/

/-- A direct block of the file is missing or consists of zeroes. -/
structure Blank (sb : Superblock) (s : State) (dp : Slot) (k : Fin (ndirect + 1)) (size : Nat) :
    Prop where
  unheld : s.held = []
  zero : (s.inode dp).node.addrs k = 0 ∧ s.bit sb 0 = true ∨ (s.inode dp).node.addrs k ≠ 0 ∧
    s.disk ((s.inode dp).node.addrs k).toNat = fun _ => 0
  size : (s.inode dp).node.size.toNat = size

/-- The block is missing, and `balloc` cannot provide one. -/
def Unfilled (sb : Superblock) (s : State) (dp : Slot) (k : Fin (ndirect + 1)) (stop : Stop) :
    Prop :=
  (s.inode dp).node.addrs k = 0 ∧
    (stop = .outOfBlocks ∧ (∀ b < sb.size, s.bit sb b = true) ∨ LogStop s 1 stop)

/-- The block is there, taken from the free ones if it was missing. -/
structure Fills (sb : Superblock) (s : State) (dp : Slot) (k : Fin (ndirect + 1)) (size : Nat)
    (t : State) : Prop where
  blank : Blank sb t dp k size
  filled : (t.inode dp).node.addrs k ≠ 0
  free : (s.inode dp).node.addrs k = 0 → ∃ b < sb.size, s.bit sb b = false

section

variable (word : sb.size ≤ 2 ^ 32) {k : Fin (ndirect + 1)}
include word

theorem bmapAddr_blank {size : Nat} (blank : Blank sb s dp k size) :
    Ensures (Unfilled sb s dp k) (bmapAddr sb dp k) s fun a t =>
      t.disk a = (fun _ => 0) ∧ Fills sb s dp k size t := by
  rw [bmapAddr, ensures_bind, ensures_inode]
  split
  · rename_i missing
    have boot := (blank.zero.resolve_right fun some => some.1 missing).2
    rw [ensures_bind]
    refine ((balloc_finds (by simp [blank.unheld]) (by simp [blank.unheld])).mono ?_).weaken
      fun stop stops => ⟨missing, stops⟩
    rintro b t ⟨inside, clear, -, rfl⟩
    have value : (BitVec.ofNat 32 b).toNat = b := by
      rw [BitVec.toNat_ofNat, mod_eq_of_lt (inside.trans_le word)]
    have some : BitVec.ofNat 32 b ≠ 0 := by
      intro zero
      rw [← value, zero] at clear
      exact absurd (boot.symm.trans clear) (by decide)
    have zeroed : (s.taken sb b).disk b = fun _ => 0 := by simp [State.taken, State.setBlock]
    simp only [ensures_bind, ensures_setNode, ensures_pure]
    refine ⟨zeroed, ⟨blank.unheld, .inr ?_, ?_⟩, ?_, fun _ => ⟨b, inside, clear⟩⟩
    · simp only [State.setInode, update_self, value]
      exact ⟨some, zeroed⟩
    · simp only [State.setInode, update_self]
      exact blank.size
    · simpa only [State.setInode, update_self] using some
  · rename_i some
    have present := blank.zero.resolve_left fun missing => some missing.1
    exact (ensures_pure ..).mpr ⟨present.2, blank, some, (absurd · some)⟩

theorem readDirent_blank {size : Nat} (blank : Blank sb s dp k size) (block : off / bsize = k)
    (direct : k ≠ indirect) (aligned : direntSize ∣ off) (inside : off + direntSize ≤ size)
    (small : size < 2 ^ 32) :
    Ensures (Unfilled sb s dp k) (readDirent sb dp off .dirlookupRead) s fun de t =>
      de.inum = 0 ∧ Fills sb s dp k size t := by
  have low : k.val < ndirect := by
    have last := k.isLt
    have other : k.val ≠ ndirect := fun same => direct (Fin.ext same)
    omega
  have rest : off % bsize + direntSize ≤ bsize := by
    obtain ⟨i, rfl⟩ := aligned
    simp only [direntSize, bsize]
    omega
  simp only [readDirent, readi, ensures_bind, ensures_inode, blank.size]
  have fuel : readLoop sb dp (fun _ => true) direntSize direntSize off [] =
      readLoop sb dp (fun _ => true) direntSize (15 + 1) off [] := rfl
  rw [mod_eq_of_lt (inside.trans_lt small), if_neg (by omega), if_neg (by omega), fuel,
    readLoop, if_pos (by decide), ensures_bind, bmap, dif_pos (block ▸ low)]
  have slot : (⟨off / bsize, by omega⟩ : Fin (ndirect + 1)) = k := Fin.ext block
  rw [slot]
  refine (bmapAddr_blank word blank).mono fun a t found => ?_
  obtain ⟨zeroed, fills⟩ := found
  have unheld := fills.blank.unheld
  rw [ensures_bind, ensures_bread (by simp [unheld]), ensures_bind, ensures_brelse rfl,
    if_pos (by simp)]
  have amount : min (direntSize - ([] : List Byte).length) (bsize - off % bsize) =
      direntSize := by
    simp only [length_nil]
    omega
  rw [amount, nil_append]
  have zeroes : ((List.range direntSize).map fun j => (t.disk a).byteAt (off % bsize + j)) =
      List.replicate direntSize 0 := by
    rw [zeroed]
    refine ext_getElem (by simp) fun j left right => ?_
    simp [Bytes.byteAt]
  rw [zeroes, readLoop, if_neg (by simp), ensures_pure, if_pos (by simp), ensures_pure]
  exact ⟨by decide, fills⟩

theorem dirlookupFrom_blank {size : Nat} (direct : k ≠ indirect) (small : size < 2 ^ 32)
    (name : Name) (offs : List Nat)
    (there : ∀ off ∈ offs, off / bsize = k ∧ direntSize ∣ off ∧ off + direntSize ≤ size) :
    ∀ {s : State}, Blank sb s dp k size →
      Ensures (Unfilled sb s dp k) (dirlookupFrom sb dp name offs) s fun r _ => r = none ∧
        (offs ≠ [] → (s.inode dp).node.addrs k = 0 → ∃ b < sb.size, s.bit sb b = false) := by
  induction offs with
  | nil => exact fun _ => (ensures_pure ..).mpr ⟨rfl, (absurd rfl ·)⟩
  | cons off rest ih =>
    intro s blank
    obtain ⟨block, aligned, inside⟩ := there off mem_cons_self
    rw [dirlookupFrom, ensures_bind]
    refine (readDirent_blank word blank block direct aligned inside small).mono
      fun de t ⟨empty, fills⟩ => ?_
    rw [if_pos empty]
    -- the block is there from now on, so no later entry can stop the search
    refine ((ih (fun next listed => there next (mem_cons_of_mem off listed)) fills.blank).mono
      fun r _ last => ⟨last.1, fun _ => fills.free⟩).weaken
        fun stop stops => absurd stops.1 fills.filled

end

end OsLab.Fs
