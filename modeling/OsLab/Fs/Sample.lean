import OsLab.Fs.Blocks

/-!
# A sample volume

A disk of sixteen blocks with one file: inode 2 of three bytes in block 4.
-/

namespace OsLab.Fs

/-- Sixteen blocks, with 8 inodes in block 2 and the free map in block 3. -/
def sample : Superblock := ⟨16, 12, 8, 2, 3⟩

/-- Inode 2. -/
def sampleNode : Dinode := ⟨tFile, 0, 0, 1, 3, fun k => if k = 0 then 4 else 0⟩

/-- The inodes are in block 2, the free map in block 3, and the bytes `abc` in block 4. -/
def sampleDisk (b : Nat) : Block :=
  if b = 2 then sampleNode.store (fun _ => 0) 2
  else if b = 3 then Bytes.setByte (fun _ => 0) 0 31
  else if b = 4 then Bytes.splice (fun _ => 0) 0 3 fun j => .ofNat 8 (97 + j)
  else fun _ => 0

def sampleVolume : Volume := volumeOf sample sampleDisk

/-- The entry of the file in the inode cache. -/
def firstSlot : Slot := ⟨0, ninode_pos⟩

/-- The process that calls. -/
def firstProc : Pslot := ⟨0, nproc_pos⟩

/-- The file is open and unlocked, with some transactions going on. -/
def sampleState (outstanding : Nat) : State where
  disk := sampleDisk
  held := []
  outstanding := outstanding
  logged := []
  durable := sampleDisk
  inode ip := if ip = firstSlot then ⟨2, 1, none, true, sampleNode⟩
    else ⟨0, 0, none, false, .fresh 0⟩

theorem sample_valid : sample.Valid where
  root := by decide
  inodes := by decide
  bitmap := by decide
  word := by decide
  inums := by decide

theorem sampleVolume_node : sampleVolume.node 2 = sampleNode := by
  have stored := Dinode.load_store_same sampleNode (fun _ => 0) (show 2 < ipb by decide)
  exact stored

theorem sampleVolume_free (n : Nat) (inside : n < sample.ninodes) (other : n ≠ 2) :
    (sampleVolume.node n).type = 0 := by
  have free : ∀ n, n < 8 → n ≠ 2 → (sampleVolume.node n).type = 0 := by decide +kernel
  exact free n inside other

theorem sampleVolume_held (p : Nat × Nat) :
    sampleVolume.held sample p = if p = (2, 0) then 4 else 0 := by
  obtain ⟨n, k⟩ := p
  by_cases inside : n < sample.ninodes
  · by_cases same : n = 2
    · subst same
      have allocated : (sampleVolume.node 2).type ≠ 0 := by rw [sampleVolume_node]; decide
      rw [Volume.held_of_allocated _ inside allocated, sampleVolume_node, Dinode.pointer]
      split
      · rename_i low
        have direct : ∀ k : Fin (ndirect + 1), (sampleNode.addrs k).toNat =
            if (2, k.val) = (2, 0) then 4 else 0 := by decide
        exact direct ⟨k, low⟩
      · rename_i far
        have none : ¬ (sampleNode.addrs indirect ≠ 0 ∧ k < ndirect + 1 + nindirect) :=
          fun has => has.1 (by decide)
        rw [if_neg none, if_neg (by simp; omega)]
    · rw [if_neg (by simp [same])]
      exact if_neg fun has => has.2 (sampleVolume_free n inside same)
  · have other : n ≠ 2 := by
      rintro rfl
      exact inside (by decide)
    rw [if_neg (by simp [other])]
    exact if_neg fun has => inside has.1

theorem sampleVolume_used : ∀ b, b < 16 → sampleVolume.used b = decide (b < 5) := by
  decide +kernel

theorem sample_sound : Sound sample sampleVolume Set.univ where
  owned := by
    refine ⟨sample_valid.not_inData_zero, fun p holds => ?_, fun p holds => ?_,
      fun p q holds same => ?_, fun b area marked => ⟨(2, 0), ?_⟩⟩
    · rw [sampleVolume_held] at holds ⊢
      split at holds
      · next at_ => simp [at_, Superblock.InData, Superblock.dataStart, sample]
      · exact absurd rfl holds
    · rw [sampleVolume_held] at holds ⊢
      split at holds
      · next at_ => rw [if_pos at_, sampleVolume_used _ (by decide)]; rfl
      · exact absurd rfl holds
    · rw [sampleVolume_held] at holds same
      rw [sampleVolume_held] at same
      split at holds
      · rename_i at_
        rw [if_pos at_] at same
        split at same
        · next at' => rw [at_, at']
        · cases same
      · exact absurd rfl holds
    · obtain ⟨low, high⟩ := area
      rw [sampleVolume_used b high, decide_eq_true_eq] at marked
      rw [sampleVolume_held, if_pos rfl]
      have : sample.dataStart = 4 := rfl
      omega
  reserved b below := by
    have low : b < 4 := below
    rw [sampleVolume_used b (by omega), decide_eq_true_eq]
    omega
  files n _ whole := absurd (Set.mem_univ n) whole

theorem sampleState_entry {outstanding : Nat} {ip : Slot}
    (live : 0 < ((sampleState outstanding).inode ip).ref) : ip = firstSlot := by
  by_contra other
  simp [sampleState, other] at live

theorem sample_inv (outstanding : Nat) :
    Inv sample (sampleState outstanding) sampleVolume ∅ Set.univ where
  disk := ⟨fun _ _ => rfl, fun _ _ => rfl, fun _ _ _ => rfl⟩
  cache := by
    refine ⟨fun ip live => ?_, fun ip jp live live' _ => ?_, fun ip live _ => ?_,
      fun ip _ _ whole => absurd (Set.mem_univ _) whole⟩
    · obtain rfl := sampleState_entry live
      exact (by decide : 2 < sample.ninodes)
    · rw [sampleState_entry live, sampleState_entry live']
    · obtain rfl := sampleState_entry live
      exact sampleVolume_node.symm
  sound := sample_sound

theorem sample_open (outstanding : Nat) : Open (sampleState outstanding) firstSlot 2 :=
  ⟨by simp [sampleState], rfl, rfl⟩

theorem sample_allocated : (sampleVolume.node 2).type ≠ 0 := by
  rw [sampleVolume_node]
  decide

theorem sample_unmarked : (sampleVolume.unmarked sample).card = 11 := by
  have same : sampleVolume.unmarked sample = (Finset.range 16).filter fun b => 5 ≤ b := by
    ext b
    rw [Volume.mem_unmarked, Finset.mem_filter, Finset.mem_range]
    refine and_congr_right fun inside => ?_
    rw [sampleVolume_used b inside, decide_eq_false_iff_not, not_lt]
  rw [same]
  decide

end OsLab.Fs
