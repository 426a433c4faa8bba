import OsLab.Mkfs.Bounds
import OsLab.Fs.Reading

/-!
# The kernel reads what `mkfs` wrote

The kernel opens the root directory of an image that `mkfs` has completed and finds each input file
under its name, with its contents and its size, and no other name.  When the entries fill their last
block exactly, the rounded size of the directory reaches into a block that it does not have; only
the search for a missing name comes so far, and `balloc` panics there if the disk is full.
-/

namespace OsLab.Mkfs

open Fs Act Function List Nat

attribute [local simp] State.setInode

theorem zero_notMem_shortname (file : Input) : 0 ∉ file.shortname := by
  unfold Input.shortname
  split
  · exact fun listed => file.proper (mem_of_mem_drop listed)
  · exact file.proper

theorem zero_notMem_name (file : Input) : 0 ∉ file.name := by
  unfold Input.name
  split
  · exact fun listed => zero_notMem_shortname file (mem_of_mem_drop listed)
  · exact zero_notMem_shortname file

/-- An entry is read back from its bytes, with the name cut to `DIRSIZ`. -/
theorem ofBytes_direntBytes (inum : Nat) {name : Name} (proper : 0 ∉ name) :
    Dirent.ofBytes (direntBytes inum name) = ⟨.ofNat 16 inum, name.take dirsiz⟩ :=
  Dirent.ofBytes_image ⟨.ofNat 16 inum, name⟩ proper

theorem zero_notMem_entriesOf {files : List Input} {i : Nat}
    (listed : i < (entriesOf files).length) : 0 ∉ (entriesOf files)[i].2 := by
  have member := getElem_mem listed
  simp only [entriesOf, mem_cons, mem_mapIdx] at member
  rcases member with first | second | ⟨j, below, third⟩
  · simp only [entriesOf] at first ⊢
    rw [first]
    decide
  · simp only [entriesOf] at second ⊢
    rw [second]
    decide
  · simp only [entriesOf] at third ⊢
    rw [← third]
    exact zero_notMem_name _

theorem entriesOf_inum {files : List Input} {i : Nat} (few : files.length + 2 ≤ area.ninodes)
    (listed : i < (entriesOf files).length) :
    0 < (entriesOf files)[i].1 ∧ (entriesOf files)[i].1 < 2 ^ 16 := by
  have member := getElem_mem listed
  simp only [entriesOf, mem_cons, mem_mapIdx] at member
  rw [area_ninodes] at few
  rcases member with first | second | ⟨j, below, third⟩
  · simp only [entriesOf] at first ⊢
    rw [first]
    decide
  · simp only [entriesOf] at second ⊢
    rw [second]
    decide
  · simp only [entriesOf] at third ⊢
    rw [← third]
    dsimp only
    omega

theorem getD_entryBytes {entries : List (Nat × Name)} {i j : Nat} (listed : i < entries.length)
    (low : j < direntSize) :
    (entryBytes entries).getD (direntSize * i + j) 0 =
      (direntBytes entries[i].1 entries[i].2).getD j 0 := by
  induction entries generalizing i with
  | nil => simp at listed
  | cons entry rest ih =>
    have first : (direntBytes entry.1 entry.2).length = direntSize := length_direntBytes ..
    rw [entryBytes, flatMap_cons, ← entryBytes]
    simp only [getD_eq_getElem?_getD] at ih ⊢
    cases i with
    | zero => rw [mul_zero, zero_add, List.getElem?_append_left (by omega)]; rfl
    | succ i =>
      rw [List.getElem?_append_right (by rw [first, mul_succ]; omega), first,
        show direntSize * (i + 1) + j - direntSize = direntSize * i + j by
          rw [mul_succ]; omega]
      exact ih (by simpa using listed)

variable {t : Image} {v : Volume} {files : List Input} {s : State} {ip dp : Slot} {n i : Nat}

/-- The bits of the free map in the image. -/
theorem Finished.bit (done : Finished t v files) (disk : s.disk = t.sector) {b : Nat}
    (inside : b < fssize) : s.bit sb b = decide (b < nmeta + total files) := by
  have first : sb.bblock b = sb.bmapstart := by
    simp only [Superblock.bblock, bpb, bsize, fssize] at inside ⊢
    omega
  have low : b % bpb = b := mod_eq_of_lt (inside.trans (by decide))
  rw [State.bit, volumeOf]
  dsimp only
  rw [first, low, disk, done.map, isFree_bitmap (done.room.trans (by decide)),
    ← done.freeblock, ← decide_not]
  simp

/-- An inode of the image in the inode cache. -/
structure Loaded (s : State) (ip : Slot) (t : Image) (v : Volume) (n : Nat) : Prop where
  disk : s.disk = t.sector
  unheld : s.held = []
  node : (s.inode ip).node = v.node n

section

variable (done : Finished t v files) (inside : n < area.ninodes)
  (allocated : (v.node n).type ≠ 0) (loaded : Loaded s ip t v n)
include done inside allocated loaded

theorem Finished.pointer_loaded (k : Nat) :
    (s.inode ip).node.pointer s.disk k = v.held area (n, k) := by
  rw [loaded.node, loaded.disk]
  exact done.pointer inside allocated k

theorem Finished.mapped {len : Nat}
    (covered : ∀ bn, bn * bsize < len → bn * bsize < (contentsOf files n).length)
    (bounded : len ≤ maxfile * bsize) : Mapped s ip len where
  unheld := loaded.unheld
  bounded := bounded
  mapped bn below := by
    rw [done.pointer_loaded inside allocated loaded]
    exact (done.placed.shape _).mpr ((occupies_place ..).mpr (covered bn below))

theorem Finished.fileByte {j : Nat} (covered : j / bsize * bsize < (contentsOf files n).length) :
    fileByte s ip j = (contentsOf files n).getD j 0 := by
  have holds := (done.placed.shape (n, place (j / bsize))).mpr ((occupies_place ..).mpr covered)
  rw [Fs.fileByte, done.pointer_loaded inside allocated loaded, loaded.disk,
    done.shows.block _ (done.placed.held_ge holds)]
  exact done.filled n j holds

end

section

variable (done : Finished t v files)
include done

theorem Finished.readi_file {i : Nat} (listed : i < files.length)
    (few : files.length + 2 ≤ area.ninodes) (loaded : Loaded s ip t v (i + 2)) :
    (s.inode ip).node.type = tFile ∧ (s.inode ip).node.size.toNat = files[i].bytes.length ∧
      ∀ off n, off + n < 2 ^ 32 →
        readi sb ip (fun _ => true) off n s = .ok ((files[i].bytes.drop off).take n, s) := by
  have inside : i + 2 < area.ninodes := by omega
  have apart : i + 2 ≠ rootino := by
    simp only [rootino]
    omega
  have type : (v.node (i + 2)).type = tFile := by
    rw [done.type _ inside, typeOf, if_neg apart, if_pos (by omega)]
  have allocated : (v.node (i + 2)).type ≠ 0 := by
    rw [type]
    decide
  have contents : contentsOf files (i + 2) = files[i].bytes := by
    rw [contentsOf, if_neg apart, if_neg (by omega), Nat.add_sub_cancel]
    simp [listed]
  have size := done.sizes _ inside apart
  have bounded := done.bounded (i + 2)
  rw [contents] at size bounded
  refine ⟨by rw [loaded.node]; exact type, by rw [loaded.node]; exact size, fun off n word => ?_⟩
  have size' : (s.inode ip).node.size.toNat = files[i].bytes.length := by
    rw [loaded.node]
    exact size
  refine readi_contents ?_ size' (fun j below => ?_) word
  · refine done.mapped inside allocated loaded (fun bn below => ?_) (size' ▸ bounded)
    rw [contents]
    omega
  · have covered : j / bsize * bsize < (contentsOf files (i + 2)).length := by
      rw [contents]
      exact (div_mul_le_self j bsize).trans_lt below
    rw [done.fileByte inside allocated loaded covered, contents]
    simp [below]

theorem Finished.root_allocated : (v.node rootino).type ≠ 0 := by
  rw [done.type _ root_inside, typeOf_root]
  decide

theorem Finished.direntAt (loaded : Loaded s dp t v rootino) {i : Nat}
    (listed : i < (entriesOf files).length) : direntAt s dp (direntSize * i) =
      Dirent.ofBytes (direntBytes (entriesOf files)[i].1 (entriesOf files)[i].2) := by
  have contents : contentsOf files rootino = entryBytes (entriesOf files) := if_pos rfl
  rw [Fs.direntAt]
  congr 1
  refine ext_getElem (by rw [length_direntBytes]; simp) fun j left right => ?_
  have low : j < direntSize := by simpa using left
  have covered : (direntSize * i + j) / bsize * bsize < (contentsOf files rootino).length := by
    rw [contents, length_entryBytes]
    have whole : direntSize * (i + 1) ≤ direntSize * (entriesOf files).length :=
      mul_le_mul_left _ listed
    have down := div_mul_le_self (direntSize * i + j) bsize
    rw [mul_succ] at whole
    omega
  rw [getElem_map, getElem_range, done.fileByte root_inside
    done.root_allocated loaded covered, contents, getD_entryBytes listed low]
  simp [right]

/-- Behind the last entry there are zeroes. -/
theorem Finished.direntAt_zero (loaded : Loaded s dp t v rootino) {off : Nat}
    (behind : (contentsOf files rootino).length ≤ off) (covered : ∀ j, j < direntSize →
      (off + j) / bsize * bsize < (contentsOf files rootino).length) :
    (Fs.direntAt s dp off).inum = 0 := by
  have zeroes : ((List.range direntSize).map fun j => Fs.fileByte s dp (off + j)) =
      List.replicate direntSize 0 := by
    refine ext_getElem (by simp) fun j left right => ?_
    have low : j < direntSize := by simpa using left
    rw [getElem_map, getElem_range, getElem_replicate,
      done.fileByte root_inside done.root_allocated loaded (covered j low)]
    simp [List.getElem?_eq_none (show (contentsOf files rootino).length ≤ off + j by omega)]
  rw [Fs.direntAt, zeroes]
  decide

end

theorem offsets_add (first more : Nat) : offsets 0 (direntSize * (first + more)) =
    (List.range first).map (direntSize * ·) ++
      (List.range more).map fun j => direntSize * (first + j) := by
  have count : (direntSize * (first + more) - 0 + (direntSize - 1)) / direntSize =
      first + more := by
    simp only [direntSize]
    omega
  rw [offsets, count, range_add, map_append, map_map]
  simp [comp_def]

/-- The root directory is open and nothing else is in use. -/
structure RootOpen (s : State) (dp : Slot) (t : Image) (v : Volume) : Prop where
  loaded : Loaded s dp t v rootino
  inum : (s.inode dp).inum = rootino
  ref : 0 < (s.inode dp).ref
  unused : ∀ ip, ip ≠ dp → (s.inode ip).ref = 0 ∧ (s.inode ip).lock = none

namespace RootOpen

variable (done : Finished t v files) (opened : RootOpen s dp t v)

include done opened

theorem size : (s.inode dp).node.size.toNat =
    (direntSize * (files.length + 2) / bsize + 1) * bsize := by
  rw [opened.loaded.node, done.rootSize, length_contentsOf_root]

theorem room : ∃ more, (s.inode dp).node.size.toNat = direntSize * (files.length + 2 + more) := by
  rw [opened.size done]
  refine ⟨(direntSize * (files.length + 2) / bsize + 1) * (bsize / direntSize) -
    (files.length + 2), ?_⟩
  simp only [direntSize, bsize]
  omega

theorem type : (s.inode dp).node.type = tDir := by
  rw [opened.loaded.node, done.type _ (by decide), typeOf_root]

theorem allocated : (v.node rootino).type ≠ 0 := by
  rw [← opened.loaded.node, opened.type done]
  decide

theorem mapped (few : files.length + 2 ≤ area.ninodes) :
    Mapped s dp (direntSize * (files.length + 2)) := by
  refine done.mapped (by decide) (opened.allocated done) opened.loaded
    (fun bn below => ?_) ?_
  · rwa [length_contentsOf_root]
  · simp only [direntSize, maxfile, ndirect, nindirect, bsize, area_ninodes] at few ⊢
    omega

variable {name : Name}

/-- `dirlookup` of a name whose entry is the first one with it. -/
theorem dirlookup_entry (few : files.length + 2 ≤ area.ninodes) {i : Nat}
    (listed : i < (entriesOf files).length)
    (others : ∀ j (before : j < i), ((entriesOf files)[j]).2.take dirsiz ≠ ((entriesOf
      files)[i]).2.take dirsiz)
    (same : name.take dirsiz = (entriesOf files)[i].2.take dirsiz) {found : Slot} {u : State}
    (got : iget (entriesOf files)[i].1 s = .ok (found, u)) :
    dirlookup sb dp name s = .ok (some (found, direntSize * i), u) := by
  have count := length_entriesOf files
  have used := entriesOf_inum few listed
  have whole : direntSize * (i + 1) ≤ direntSize * (files.length + 2) :=
    mul_le_mul_left _ (by omega)
  have file := opened.mapped done few
  have value : (BitVec.ofNat 16 (entriesOf files)[i].1).toNat = (entriesOf files)[i].1 := by
    rw [BitVec.toNat_ofNat, mod_eq_of_lt used.2]
  obtain ⟨more, size⟩ := opened.room done
  have le : direntSize * (files.length + 2) ≤ (s.inode dp).node.size.toNat := by
    rw [size]
    exact mul_le_mul_left _ (by omega)
  obtain ⟨later, split⟩ : ∃ later, files.length + 2 + more = i + (later + 1) :=
    ⟨files.length + 1 + more - i, by omega⟩
  rw [dirlookup, bind_of_ok (show inode dp s = .ok (s.inode dp, s) from rfl),
    if_neg (fun differ => differ (opened.type done)), size, split, offsets_add,
    dirlookupFrom_skip file le _ _ fun off member => ?_]
  · have entry := done.direntAt opened.loaded listed
    rw [ofBytes_direntBytes _ (zero_notMem_entriesOf listed)] at entry
    rw [range_succ_eq_map, map_cons, add_zero]
    refine dirlookupFrom_found file le (by rw [← mul_succ]; exact whole) ?_ ?_ _ ?_
    · rw [entry]
      intro zero
      have zero' := congrArg BitVec.toNat zero
      rw [value] at zero'
      exact used.1.ne' zero'
    · rw [entry]
      exact same
    · rw [entry, value]
      exact got
  · obtain ⟨j, below, rfl⟩ := mem_map.mp member
    have before := mem_range.mp below
    refine ⟨?_, .inr ?_⟩
    · rw [← mul_succ]
      exact mul_le_mul_left _ (by omega)
    · rw [done.direntAt opened.loaded (by omega),
        ofBytes_direntBytes _ (zero_notMem_entriesOf (by omega)), same]
      exact (others j before).symm

/-- The search for a missing name comes to what lies behind the entries. -/
theorem dirlookup_behind {len : Nat} (file : Mapped s dp len)
    (whole : direntSize * (files.length + 2) ≤ len) (le : len ≤ (s.inode dp).node.size.toNat)
    (other : ∀ i (listed : i < (entriesOf files).length),
      name.take dirsiz ≠ ((entriesOf files)[i]).2.take dirsiz) :
    ∃ more, (s.inode dp).node.size.toNat = direntSize * (files.length + 2 + more) ∧
      dirlookup sb dp name s = dirlookupFrom sb dp name
        ((List.range more).map fun j => direntSize * (files.length + 2 + j)) s := by
  obtain ⟨more, size⟩ := opened.room done
  refine ⟨more, size, ?_⟩
  rw [dirlookup, bind_of_ok (show inode dp s = .ok (s.inode dp, s) from rfl),
    if_neg (fun differ => differ (opened.type done)), size, offsets_add]
  have count := length_entriesOf files
  refine dirlookupFrom_skip file le _ _ fun off member => ?_
  obtain ⟨i, below, rfl⟩ := mem_map.mp member
  have before := mem_range.mp below
  have listed : i < (entriesOf files).length := by omega
  refine ⟨le_trans ?_ whole, .inr ?_⟩
  · rw [← mul_succ]
    exact mul_le_mul_left _ (by omega)
  · rw [done.direntAt opened.loaded listed,
      ofBytes_direntBytes _ (zero_notMem_entriesOf listed)]
    exact other i listed

section

variable (few : files.length + 2 ≤ area.ninodes)
include few

/-- Entries that fill their last block exactly have no block behind them. -/
theorem blank_of_full (full : bsize ∣ direntSize * (files.length + 2)) :
    ∃ k : Fin (ndirect + 1), k.val = direntSize * (files.length + 2) / bsize ∧ k ≠ indirect ∧
      (s.inode dp).node.addrs k = 0 ∧ Blank sb s dp k (s.inode dp).node.size.toNat := by
  have low : direntSize * (files.length + 2) / bsize < ndirect := by
    simp only [direntSize, bsize, ndirect, area_ninodes] at few ⊢
    omega
  have boot : s.bit sb 0 = true := by
    rw [done.bit opened.loaded.disk (by decide), decide_eq_true_eq]
    exact Nat.add_pos_left (by decide) _
  suffices missing : (s.inode dp).node.addrs ⟨direntSize * (files.length + 2) / bsize, by omega⟩ = 0
    from ⟨_, rfl, fun same => low.ne (congrArg Fin.val same), missing, opened.loaded.unheld,
      .inl ⟨missing, boot⟩, rfl⟩
  have pointer := done.pointer_loaded (by decide) (opened.allocated done)
    opened.loaded (place (direntSize * (files.length + 2) / bsize))
  have slot : place (direntSize * (files.length + 2) / bsize) =
      direntSize * (files.length + 2) / bsize := if_pos low
  have none : v.held area (rootino, place (direntSize * (files.length + 2) / bsize)) = 0 := by
    by_contra holds
    have occupied := (done.placed.shape _).mp holds
    rw [Spans, occupies_place, length_contentsOf_root, Nat.div_mul_cancel full] at occupied
    exact occupied.false
  rw [none, slot, Dinode.pointer, dif_pos (by omega)] at pointer
  exact BitVec.eq_of_toNat_eq pointer

theorem mapped_of_short (short : ¬ bsize ∣ direntSize * (files.length + 2)) :
    Mapped s dp (s.inode dp).node.size.toNat := by
  have size := opened.size done
  rw [size]
  refine done.mapped (by decide) (opened.allocated done) opened.loaded
    (fun bn below => ?_) ?_
  · rw [length_contentsOf_root]
    have le : bn ≤ direntSize * (files.length + 2) / bsize := by
      have lt := lt_of_mul_lt_mul_right below
      omega
    have multiple : bn * bsize ≤ direntSize * (files.length + 2) :=
      (mul_le_mul_right bsize le).trans (div_mul_le_self _ bsize)
    refine lt_of_le_of_ne multiple fun same => short ?_
    rw [← same]
    exact dvd_mul_left ..
  · simp only [direntSize, maxfile, ndirect, nindirect, bsize, area_ninodes] at few ⊢
    omega

section

variable (other : ∀ i (listed : i < (entriesOf files).length),
  name.take dirsiz ≠ ((entriesOf files)[i]).2.take dirsiz)
include other

theorem dirlookup_short (short : ¬ bsize ∣ direntSize * (files.length + 2)) :
    dirlookup sb dp name s = .ok (none, s) := by
  have rounded := opened.size done
  have file := opened.mapped_of_short done few short
  obtain ⟨more, size, run⟩ := opened.dirlookup_behind done file (by
    simp only [direntSize, bsize] at rounded ⊢
    omega) le_rfl other
  rw [run, ← append_nil (List.map _ (List.range more)),
    dirlookupFrom_skip file le_rfl _ _ fun off member => ?_]
  · rfl
  obtain ⟨j, below, rfl⟩ := mem_map.mp member
  have before := mem_range.mp below
  simp only [direntSize, bsize] at rounded short size
  refine ⟨?_, .inl (done.direntAt_zero opened.loaded ?_ fun i low => ?_)⟩
  · simp only [direntSize]
    omega
  · rw [length_contentsOf_root]
    exact mul_le_mul_left _ (by omega)
  · rw [length_contentsOf_root]
    simp only [direntSize, bsize] at low ⊢
    omega

/-- Behind entries that fill their last block `balloc` is called. -/
theorem dirlookup_full (full : bsize ∣ direntSize * (files.length + 2)) :
    Ensures (fun stop => stop = .outOfBlocks ∧ fssize ≤ nmeta + total files ∨ LogStop s 1 stop)
      (dirlookup sb dp name) s fun r _ => r = none ∧ nmeta + total files < fssize := by
  have rounded := opened.size done
  obtain ⟨k, block, direct, missing, blank⟩ := opened.blank_of_full done few full
  obtain ⟨more, size, run⟩ := opened.dirlookup_behind done (opened.mapped done few) le_rfl
    (by simp only [direntSize, bsize] at rounded ⊢; omega) other
  have bit : ∀ b < fssize, s.bit sb b = decide (b < nmeta + total files) :=
    fun b inside => done.bit opened.loaded.disk inside
  simp only [direntSize, bsize] at rounded full size block
  refine (ensures_congr run).mpr (((dirlookupFrom_blank (by decide) direct
    (s.inode dp).node.size.isLt name _ (fun off member => ?_) blank).mono ?_).weaken ?_)
  · obtain ⟨j, below, rfl⟩ := mem_map.mp member
    have before := mem_range.mp below
    refine ⟨?_, dvd_mul_right .., ?_⟩
    · simp only [direntSize, bsize]
      omega
    · simp only [direntSize]
      omega
  · rintro r _ ⟨empty, free⟩
    refine ⟨empty, ?_⟩
    obtain ⟨b, inside, clear⟩ := free (fun none => by
      rw [map_eq_nil_iff, range_eq_nil] at none
      omega) missing
    rw [bit b inside, decide_eq_false_iff_not] at clear
    exact (not_lt.mp clear).trans_lt inside
  · refine fun stop stops => stops.2.imp_left (And.imp_right fun all => ?_)
    by_contra left
    have set := all _ (not_le.mp left)
    rw [bit _ (not_le.mp left)] at set
    simp at set

theorem dirlookup_other : (∀ r u, dirlookup sb dp name s = .ok (r, u) → r = none) ∧
    (¬ bsize ∣ direntSize * (files.length + 2) → dirlookup sb dp name s = .ok (none, s)) ∧
    (0 < s.outstanding → s.lhN + 2 < logSize → nmeta + total files < fssize →
      ∃ u, dirlookup sb dp name s = .ok (none, u)) := by
  by_cases full : bsize ∣ direntSize * (files.length + 2)
  · have spec := opened.dirlookup_full done few other full
    refine ⟨fun r u run => (spec.returns r u run).1, (absurd full ·), fun inside room left => ?_⟩
    cases run : dirlookup sb dp name s with
    | ok result => exact ⟨result.2, by rw [← (spec.returns _ _ run).1]⟩
    | error stop =>
      rcases spec.stops stop run with ⟨-, out⟩ | log
      · omega
      · exact absurd log (not_logStop inside (by omega))
  · have run := opened.dirlookup_short done few other full
    exact ⟨fun r u other => by simp_all, fun _ => run, fun _ _ _ => ⟨s, run⟩⟩

end

end

end RootOpen

/-- The kernel has just booted from the image. -/
structure Booted (s : State) (t : Image) : Prop where
  disk : s.disk = t.sector
  unheld : s.held = []
  unused : ∀ ip, (s.inode ip).ref = 0 ∧ (s.inode ip).lock = none

theorem Finished.open_inode (done : Finished t v files) (inside : n < area.ninodes)
    (allocated : (v.node n).type ≠ 0) (disk : s.disk = t.sector) (unheld : s.held = [])
    (uncached : ∀ ip, (s.inode ip).inum = n → (s.inode ip).ref = 0)
    (room : ∃ ip, (s.inode ip).ref = 0)
    (unlocked : ∀ ip, (s.inode ip).ref = 0 → (s.inode ip).lock = none) (me : Pslot) :
    ∃ ip u w, (s.inode ip).ref = 0 ∧ iget n s = .ok (ip, u) ∧ ilock sb me ip u = .ok ((), w) ∧
      Loaded w ip t v n ∧ (w.inode ip).inum = n ∧ (w.inode ip).ref = 1 ∧
      (∀ other, other ≠ ip → w.inode other = s.inode other) ∧
      w.outstanding = s.outstanding ∧ w.logged = s.logged := by
  obtain ⟨ip, free, got⟩ := iget_new uncached room
  have stored : Dinode.load (t.sector (sb.iblock n)) (n % ipb) = v.node n :=
    done.shows.node n inside (Set.notMem_empty n)
  refine ⟨ip, _, _, free, got,
    ilock_load (s := s.setInode ip fun i => { i with inum := n, ref := 1, valid := false })
      unheld ?_ ?_ ?_ ?_ allocated me, ⟨disk, unheld, ?_⟩, ?_, ?_,
    fun other apart => ?_, rfl, rfl⟩
  · simp
  · simp [unlocked ip free]
  · simp
  · simp only [State.setInode, update_self, disk]
    exact stored
  · simp
  · simp
  · simp
  · simp [apart]

theorem Finished.open_root (done : Finished t v files) (booted : Booted s t) (me : Pslot) :
    ∃ dp u w, iget rootino s = .ok (dp, u) ∧ ilock sb me dp u = .ok ((), w) ∧
      RootOpen w dp t v ∧ w.outstanding = s.outstanding ∧ w.logged = s.logged := by
  obtain ⟨dp, u, w, _, got, lock, loaded, inum, ref, others, log⟩ := done.open_inode
    root_inside done.root_allocated booted.disk booted.unheld (fun ip _ => (booted.unused ip).1)
    ⟨⟨0, by decide⟩, (booted.unused _).1⟩ (fun ip _ => (booted.unused ip).2) me
  refine ⟨dp, u, w, got, lock, ⟨loaded, inum, by omega, fun ip apart => ?_⟩, log⟩
  rw [others ip apart]
  exact booted.unused ip

/-- What a process finds in the locked root directory: each file under its name, the directory
itself under its two names, and no other name.  When the entries fill their last block, a search for
one needs a free block, and a transaction to allocate it in. -/
structure Lists (files : List Input) (me : Pslot) (dp : Slot) (s : State) : Prop where
  file : ∀ i (listed : i < files.length) (name : Name),
    name.take dirsiz = files[i].name.take dirsiz →
    ∃ ip off u w, dirlookup sb dp name s = .ok (some (ip, off), u) ∧
      ilock sb me ip u = .ok ((), w) ∧ (w.inode ip).node.type = tFile ∧
      (w.inode ip).node.size.toNat = files[i].bytes.length ∧
      ∀ start n, start + n < 2 ^ 32 → readi sb ip (fun _ => true) start n w =
        .ok ((files[i].bytes.drop start).take n, w)
  self : ∀ name ∈ [[dot], [dot, dot]], ∃ ip off u,
    dirlookup sb dp name s = .ok (some (ip, off), u) ∧ (u.inode ip).inum = rootino
  other : ∀ name : Name, name.take dirsiz ∉ [[dot], [dot, dot]] →
    (∀ file ∈ files, name.take dirsiz ≠ file.name.take dirsiz) →
    (∀ r u, dirlookup sb dp name s = .ok (r, u) → r = none) ∧
      (¬ bsize ∣ direntSize * (files.length + 2) → dirlookup sb dp name s = .ok (none, s)) ∧
      (0 < s.outstanding → s.lhN + 2 < logSize → nmeta + total files < fssize →
        ∃ u, dirlookup sb dp name s = .ok (none, u))

/-- The kernel accepts the image and finds the files in it. -/
structure ReadsBack (t : Image) (files : List Input) : Prop where
  header : readsb (t.sector 1) = some sb
  root : ∀ s me, Booted s t → ∃ dp u w, iget rootino s = .ok (dp, u) ∧
    ilock sb me dp u = .ok ((), w) ∧ (w.inode dp).inum = rootino ∧
    w.outstanding = s.outstanding ∧ w.logged = s.logged ∧ Lists files me dp w

theorem entriesOf_file (listed : i < files.length) :
    ∃ within : i + 2 < (entriesOf files).length,
      (entriesOf files)[i + 2] = (i + 2, files[i].name) := by
  refine ⟨by rw [length_entriesOf]; omega, ?_⟩
  simp [entriesOf]

theorem RootOpen.lists (done : Finished t v files) (opened : RootOpen s dp t v)
    (few : files.length + 2 ≤ area.ninodes)
    (dots : ∀ file ∈ files, file.name.take dirsiz ∉ [[dot], [dot, dot]])
    (distinct : (files.map fun file => file.name.take dirsiz).Nodup) (me : Pslot) :
    Lists files me dp s := by
  have count := length_entriesOf files
  refine ⟨fun i listed name same => ?_, fun name self => ?_, fun name self others => ?_⟩
  · obtain ⟨within, entry⟩ := entriesOf_file listed
    have inside : i + 2 < area.ninodes := by omega
    have apart : i + 2 ≠ rootino := by
      simp only [rootino]
      omega
    have allocated : (v.node (i + 2)).type ≠ 0 := by
      rw [done.type _ inside, typeOf, if_neg apart, if_pos (by omega)]
      decide
    have room : ∃ ip, (s.inode ip).ref = 0 := by
      by_cases first : (⟨0, by decide⟩ : Slot) = dp
      · exact ⟨⟨1, by decide⟩, (opened.unused _ (by rw [← first]; decide)).1⟩
      · exact ⟨_, (opened.unused _ first).1⟩
    obtain ⟨ip, u, w, _, got, lock, loaded, -⟩ := done.open_inode inside allocated
      opened.loaded.disk opened.loaded.unheld (fun ip inum => (opened.unused ip fun root => by
        rw [root, opened.inum] at inum
        exact apart inum.symm).1) room (fun ip unused => (opened.unused ip fun root => by
        rw [root] at unused
        exact opened.ref.ne' unused).2) me
    obtain ⟨type, size, contents⟩ := done.readi_file listed few loaded
    refine ⟨ip, _, u, w, opened.dirlookup_entry done few within (fun j before => ?_)
      (by rw [entry]; exact same) (by rw [entry]; exact got), lock, type, size, contents⟩
    · rw [entry]
      dsimp only
      have plain := dots files[i] (getElem_mem listed)
      rcases j with _ | _ | j
      · exact fun same => plain (mem_of_mem_head? (congrArg some same))
      · exact fun same => plain (mem_cons_of_mem _ (mem_singleton.mpr same.symm))
      · obtain ⟨_, earlier⟩ := entriesOf_file (show j < files.length by omega)
        rw [earlier]
        intro same
        have before' : j < (files.map fun file => file.name.take dirsiz).length := by
          rw [length_map]
          omega
        have listed' : i < (files.map fun file => file.name.take dirsiz).length := by
          rwa [length_map]
        have same' : (files.map fun file => file.name.take dirsiz)[j] =
            (files.map fun file => file.name.take dirsiz)[i] := by simpa using same
        have index := distinct.getElem_inj_iff.mp same'
        omega
  · have only := fun ip apart => (opened.unused ip apart).1
    have got := iget_cached opened.ref only
    rw [opened.inum] at got
    rcases mem_cons.mp self with rfl | self
    · exact ⟨dp, _, _, opened.dirlookup_entry done few (i := 0) (by omega)
        (fun j before => absurd before (not_lt_zero j)) rfl got, by
          simp [opened.inum]⟩
    · obtain rfl := mem_singleton.mp self
      refine ⟨dp, _, _, opened.dirlookup_entry done few (i := 1) (by omega)
        (fun j before => ?_) rfl got, by simp [opened.inum]⟩
      obtain rfl := lt_one_iff.mp before
      exact fun same => absurd (show ([dot] : Name) = [dot, dot] from same) (by decide)
  · refine opened.dirlookup_other done few fun i listed => ?_
    rcases i with _ | _ | i
    · exact fun same => self (mem_of_mem_head? (congrArg some same.symm))
    · exact fun same => self (mem_cons_of_mem _ (mem_singleton.mpr same))
    · obtain ⟨_, entry⟩ := entriesOf_file (show i < files.length by omega)
      rw [entry]
      exact others _ (getElem_mem _)

theorem readsb_superblock : readsb superblock = some sb := by
  have size : superblock.getLE 4 4 = sb.size := by decide +kernel
  have nblocks : superblock.getLE 8 4 = sb.nblocks := by decide +kernel
  have ninodes : superblock.getLE 12 4 = sb.ninodes := by decide +kernel
  have inodestart : superblock.getLE 24 4 = sb.inodestart := by decide +kernel
  have bmapstart : superblock.getLE 28 4 = sb.bmapstart := by decide +kernel
  rw [readsb, if_pos (by decide +kernel), size, nblocks, ninodes, inodestart, bmapstart]

/-- An image is written for files that fit, and the kernel reads back what was written. -/
theorem kernel_reads_back (files : List Input) (few : files.length + 2 ≤ ninodes)
    (dots : ∀ file ∈ files, file.name.take dirsiz ∉ [[dot], [dot, dot]])
    (distinct : (files.map fun file => file.name.take dirsiz).Nodup) :
    (Fits files → ∃ t, main files start = .ok ((), t)) ∧
      ∀ t, main files start = .ok ((), t) → ReadsBack t files := by
  have inside : files.length + 2 ≤ area.ninodes := few.trans (by decide)
  refine ⟨fun fits => ?_, fun t written => ?_⟩
  · obtain ⟨t, v, written, _⟩ := fits.main_ok
    exact ⟨t, written⟩
  obtain ⟨v, done⟩ := (main_spec inside).returns _ _ written
  refine ⟨?_, fun s me booted => ?_⟩
  · rw [done.shows.header]
    exact readsb_superblock
  · obtain ⟨dp, u, w, got, lock, opened, outstanding, logged⟩ := done.open_root booted me
    exact ⟨dp, u, w, got, lock, opened.inum, outstanding, logged,
      opened.lists done inside dots distinct me⟩

theorem kernel_reads_back_twoBytes : ∃ t, main [twoBytes] start = .ok ((), t) ∧
    readsb (t.sector 1) = some sb ∧ ReadsBack t [twoBytes] := by
  have whole := kernel_reads_back [twoBytes] (by decide) (by decide) (by decide)
  obtain ⟨t, written⟩ := whole.1 twoBytes_fits
  exact ⟨t, written, (whole.2 t written).header, whole.2 t written⟩

/-- File `i` of 62, in pieces of `BSIZE` bytes. -/
def fileOf (i : Fin 62) : Input where
  argv := [.ofNat 8 (97 + i)]
  proper := by
    revert i
    decide
  chunks := some (List.replicate (if i < 3 then 268 else if i = 3 then 145 else 0)
    ⟨List.replicate bsize 0, by rw [length_replicate]; decide⟩)

/-- With 62 files the root directory has a hole, and these leave no block free. -/
def fullDisk : List Input := (List.finRange 62).map fileOf

theorem length_fileOf (i : Fin 62) : (fileOf i).bytes.length =
    (if i < 3 then 268 else if i = 3 then 145 else 0) * bsize := by
  simp [fileOf, Input.bytes]

theorem total_fullDisk : nmeta + total fullDisk = fssize := by
  rw [total, fullDisk, map_map, length_map]
  simp only [Function.comp_def, length_fileOf]
  decide +kernel

theorem fullDisk_fits : Fits fullDisk where
  proper := by decide +kernel
  opened file listed := by
    obtain ⟨i, -, rfl⟩ := mem_map.mp listed
    nofun
  inodes := by decide
  short file listed := by
    obtain ⟨i, -, rfl⟩ := mem_map.mp listed
    rw [length_fileOf]
    exact mul_le_mul_right _ (by clear listed; revert i; decide)
  blocks := total_fullDisk.le

/-- On the full disk the search for `A` ends in the panic of `balloc`. -/
theorem full_disk_search_panics : ∃ t, main fullDisk start = .ok ((), t) ∧
    ∃ dp u w, iget rootino (opened t.sector) = .ok (dp, u) ∧
      ilock sb ⟨0, by decide⟩ dp u = .ok ((), w) ∧ dirlookup sb dp [65] w = .error .outOfBlocks := by
  obtain ⟨t, v, written, done⟩ := fullDisk_fits.main_ok
  obtain ⟨dp, u, w, got, lock, root, outstanding, logged⟩ := done.open_root
    (s := opened t.sector) ⟨rfl, rfl, fun _ => ⟨rfl, rfl⟩⟩ ⟨0, by decide⟩
  refine ⟨t, written, dp, u, w, got, lock, ?_⟩
  have other : ∀ i (listed : i < (entriesOf fullDisk).length),
      ([65] : Name).take dirsiz ≠ ((entriesOf fullDisk)[i]).2.take dirsiz := by decide +kernel
  have spec := root.dirlookup_full done fullDisk_fits.inodes other (by decide)
  cases run : dirlookup sb dp [65] w with
  | ok result => exact absurd (spec.returns _ _ run).2 total_fullDisk.ge.not_gt
  | error stop =>
    have room : w.lhN = 0 := by rw [State.lhN, logged]; rfl
    have inside : 0 < w.outstanding := outstanding ▸ one_pos
    rw [((spec.stops stop run).resolve_right (not_logStop inside (by rw [room]; decide))).1]

end OsLab.Mkfs
