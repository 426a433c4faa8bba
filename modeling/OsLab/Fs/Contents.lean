import OsLab.Fs.Chunks
import OsLab.Fs.ReadUser

/-!
# A file is a byte array

`writei` overwrites a stretch of the contents of one file, which grow at the end if need be, and
`readi` returns stretches of the contents.  Counts whose sum with the offset does not fit into a
`uint` are refused by both.
-/

namespace OsLab.Fs

open Act List Nat

variable {sb : Superblock} {s t : State} {v w : Volume} {stale torn : Set Nat} {ip : Slot}
  {n off : Nat} {data : List Byte}

def contents (sb : Superblock) (v : Volume) (n : Nat) : List Byte :=
  (List.range (v.node n).size.toNat).map (v.byte sb n)

/-- Replace the bytes from `off` on, and append what goes beyond the end. -/
def overwrite (old : List Byte) (off : Nat) (data : List Byte) : List Byte :=
  old.take off ++ data ++ old.drop (off + data.length)

@[simp]
theorem length_contents (sb : Superblock) (v : Volume) (n : Nat) :
    (contents sb v n).length = (v.node n).size.toNat := by
  rw [contents, length_map, length_range]

theorem getD_contents {j : Nat} (inside : j < (v.node n).size.toNat) :
    (contents sb v n).getD j 0 = v.byte sb n j := by
  rw [getD_eq_getElem _ _ (by rwa [length_contents])]
  simp only [contents, getElem_map, getElem_range]

variable {old : List Byte}

theorem length_overwrite (within : off ≤ old.length) :
    (overwrite old off data).length = max old.length (off + data.length) := by
  simp only [overwrite, length_append, length_take, length_drop]
  omega

theorem getD_overwrite (within : off ≤ old.length) (j : Nat) :
    (overwrite old off data).getD j 0 =
      if off ≤ j ∧ j < off + data.length then data.getD (j - off) 0 else old.getD j 0 := by
  have first : (old.take off).length = off := by rw [length_take]; omega
  rw [overwrite, append_assoc]
  by_cases before : j < off
  · rw [if_neg (by omega), getD_append _ _ _ _ (by omega)]
    simp [getD_eq_getElem?_getD, before]
  · rw [getD_append_right _ _ _ _ (by omega), first]
    by_cases inside : j < off + data.length
    · rw [if_pos (by omega), getD_append _ _ _ _ (by omega)]
    · rw [if_neg (by omega), getD_append_right _ _ _ _ (by omega)]
      simp only [getD_eq_getElem?_getD, List.getElem?_drop]
      rw [show off + data.length + (j - off - data.length) = j by omega]

theorem ext_getD {left right : List Byte} (length : left.length = right.length)
    (same : ∀ j < left.length, left.getD j 0 = right.getD j 0) : left = right := by
  refine ext_getElem length fun j below below' => ?_
  have bytes := same j below
  rwa [getD_eq_getElem _ _ below, getD_eq_getElem _ _ below'] at bytes

section

variable (inv : Inv sb s v stale torn) (entry : Open s ip n) (allocated : (v.node n).type ≠ 0)
include inv entry allocated

/-- The blocks of an open inode without holes are mapped. -/
theorem Inv.mapped (unheld : s.held = []) (gapless : Gapless sb v n)
    (bounded : (v.node n).size.toNat ≤ maxfile * bsize) :
    Mapped s ip (s.inode ip).node.size.toNat := by
  rw [inv.open_node entry]
  refine ⟨unheld, bounded, fun bn below => ?_⟩
  rw [inv.pointer entry allocated]
  exact gapless bn below

theorem Inv.fileByte {j : Nat}
    (holds : v.held sb (n, place (j / bsize)) ≠ 0) : fileByte s ip j = v.byte sb n j := by
  rw [Fs.fileByte, inv.pointer entry allocated,
    inv.disk.block _ (inv.sound.owned.pooled _ holds), Volume.byte]

/-- `readi` of an inode without holes returns its contents. -/
theorem Inv.readi_contents (unheld : s.held = []) (gapless : Gapless sb v n)
    (bounded : (v.node n).size.toNat ≤ maxfile * bsize) {count : Nat}
    (word : off + count < 2 ^ 32) :
    readi sb ip (fun _ => true) off count s = .ok (((contents sb v n).drop off).take count, s) := by
  refine Fs.readi_contents (inv.mapped entry allocated unheld gapless bounded) ?_ ?_ word
  · rw [inv.open_node entry, length_contents]
  intro j inside
  have below : j < (v.node n).size.toNat := by rwa [length_contents] at inside
  rw [← getD_eq_getElem _ 0 inside, getD_contents below]
  refine inv.fileByte entry allocated (gapless _ ?_)
  exact (div_mul_le_self j bsize).trans_lt below

end

/-- Whatever the state is, `readi` delivers no byte past the size. -/
theorem readi_within_size (writable : Nat → Bool) {count : Nat} (word : count < 2 ^ 32)
    {bytes : List Byte} (read : readi sb ip writable off count s = .ok (bytes, t)) :
    bytes = [] ∨ off + bytes.length ≤ (s.inode ip).node.size.toNat := by
  have limit : (s.inode ip).node.size.toNat < 2 ^ 32 := BitVec.isLt _
  have bound : Ensures (fun _ => True) (Delivery.tot <$> readiUser sb ip writable 0 off count) s
      fun tot _ => tot ≤ clipped (s.inode ip).node.size.toNat off count := by
    rw [ensures_map, ensures_congr (readiUser_eq ..)]
    exact (readUserLoop_bounded _ _ _ _ _ _ (zero_le _)).mono fun _ _ few => few.1
  rw [tot_readiUser, ensures_map] at bound
  simp only [zero_add] at bound
  have few := bound.returns bytes t read
  rcases le_or_gt off (s.inode ip).node.size.toNat with within | past
  · have := clipped_le_size off count word limit within
    exact .inr (by omega)
  · rw [clipped_of_past count past] at few
    exact .inl (length_eq_zero_iff.mp (le_zero.mp few))

/-- The inode has the new contents and every other inode the ones it had. -/
structure Overwrites (sb : Superblock) (ip : Slot) (n off : Nat) (data : List Byte)
    (v : Volume) (t : State) (w : Volume) : Prop where
  inv : Inv sb t w ∅ Set.univ
  size : (t.inode ip).node.size.toNat = max (v.node n).size.toNat (off + data.length)
  reads : ∀ off' m, off' + m < 2 ^ 32 → readi sb ip (fun _ => true) off' m t =
    .ok (((overwrite (contents sb v n) off data).drop off').take m, t)
  others : ∀ m, m ≠ n → w.node m = v.node m ∧ contents sb w m = contents sb v m

variable {source : Memory}

theorem Writes.contents {c : Nat} (writes : Writes sb n stale torn off data.length source s v c t w)
    (copies : ∀ j < data.length, source j = some (data.getD j 0)) (gapless : Gapless sb v n)
    (within : off ≤ (v.node n).size.toNat) :
    Fs.contents sb w n = overwrite (Fs.contents sb v n) off data := by
  have all : c = data.length := by
    by_contra short
    obtain ⟨j, _, inside, none⟩ := writes.fault (lt_of_le_of_ne writes.few short)
    rw [copies j inside] at none
    cases none
  obtain ⟨d, low, high, written⟩ := writes.written
  obtain rfl : d = data.length := by omega
  have size := writes.size
  rw [all] at size
  refine ext_getD ?_ fun j below => ?_
  · rw [length_contents, length_overwrite (by rwa [length_contents]), length_contents, size]
  rw [length_contents] at below
  rw [getD_contents below, getD_overwrite (by rwa [length_contents])]
  split
  · rename_i here
    have stored := written.stored (j - off) (by omega)
    rw [copies _ (by omega), Nat.add_sub_cancel' here.1] at stored
    exact (Option.some.inj stored).symm
  · rename_i apart
    have old : j < (v.node n).size.toNat := by omega
    rw [getD_contents old]
    refine written.outside j (gapless _ ?_) (by omega)
    exact (div_mul_le_self j bsize).trans_lt old

/-- A file without holes has none after a write. -/
theorem Writes.gapless {c count : Nat} (writes : Writes sb n stale torn off count source s v c t w)
    (gapless : Gapless sb v n) (within : off ≤ (v.node n).size.toNat) : Gapless sb w n := by
  intro bn below
  rw [writes.size] at below
  by_cases old : bn * bsize < (v.node n).size.toNat
  · rw [writes.held _ (gapless bn old)]
    exact gapless bn old
  · have mapped := writes.mapped (bn * bsize - off) (by omega)
    rwa [Nat.add_sub_cancel' (by omega), Nat.mul_div_cancel bn (by decide)] at mapped

end OsLab.Fs
