import OsLab.Fs.Calls
import OsLab.Fs.Sample
import OsLab.Fs.Writing

/-!
# A chunk of a write fits into a transaction

`filewrite` cuts a write into chunks of three blocks.  A chunk that starts inside a block spans
four of them, but then the first one is there already: at most three blocks are added, each with
its block of the free map, and the indirect block and the inode come on top.
-/

namespace OsLab.Fs

open Act Finset

def maxopblocks : Nat := 10

theorem writeMax_eq : writeMax = ((maxopblocks - 1 - 1 - 2) / 2) * bsize := rfl

variable {sb : Superblock} {s t : State} {v w : Volume} {stale torn : Set Nat} {ip : Slot}
  {n off count : Nat}

/-- The blocks of the file below its size have addresses. -/
def Gapless (sb : Superblock) (v : Volume) (n : Nat) : Prop :=
  ∀ bn, bn * bsize < (v.node n).size.toNat → v.held sb (n, place bn) ≠ 0

/-- The first block of a chunk that may have to be added. -/
def firstAdded (off : Nat) : Nat := if off % bsize = 0 then off / bsize else off / bsize + 1

/-- Four blocks of data, three of the free map, the indirect block with its block of the free map,
and the inode. -/
def chunkBlocks (sb : Superblock) (n off : Nat) (w : Volume) : Finset Nat :=
  (Finset.range 4).image (fun i => w.held sb (n, place (off / bsize + i))) ∪
    (Finset.range 3).image (fun i => sb.bblock (w.held sb (n, place (firstAdded off + i)))) ∪
    {w.held sb (n, ndirect), sb.bblock (w.held sb (n, ndirect)), sb.iblock n}

theorem card_chunkBlocks_le (sb : Superblock) (n off : Nat) (w : Volume) :
    (chunkBlocks sb n off w).card ≤ maxopblocks := by
  have data := card_image_le (s := Finset.range 4)
    (f := fun i => w.held sb (n, place (off / bsize + i)))
  have map := card_image_le (s := Finset.range 3)
    (f := fun i => sb.bblock (w.held sb (n, place (firstAdded off + i))))
  have rest := card_le_three (a := w.held sb (n, ndirect))
    (b := sb.bblock (w.held sb (n, ndirect))) (c := sb.iblock n)
  rw [card_range] at data map
  have two := card_union_le ((Finset.range 4).image fun i => w.held sb (n, place (off / bsize + i)))
    ((Finset.range 3).image fun i => sb.bblock (w.held sb (n, place (firstAdded off + i))))
  refine (card_union_le ..).trans ?_
  simp only [maxopblocks]
  omega

/-- What a chunk at an offset within the file logs is among these blocks. -/
theorem mem_chunkBlocks (gapless : Gapless sb v n) (within : off ≤ (v.node n).size.toNat)
    (chunk : count ≤ writeMax) {b : Nat} (logged : MayLog sb n off count v w b) :
    b ∈ chunkBlocks sb n off w := by
  rw [writeMax_eq] at chunk
  unfold chunkBlocks
  rw [mem_union, mem_union]
  rcases logged with ⟨bn, low, high, touches⟩ | inode
  · rcases touches with ⟨_, data | ⟨added, map⟩⟩ | ⟨_, pointer⟩
    · refine .inl (.inl (mem_image.mpr ⟨bn - off / bsize, mem_range.mpr ?_, ?_⟩))
      · simp only [bsize, maxopblocks] at *
        omega
      · rw [Nat.add_sub_cancel' low, data]
    · have late : firstAdded off ≤ bn ∧ bn < firstAdded off + 3 := by
        have missing : ¬ bn * bsize < (v.node n).size.toNat := fun below => gapless bn below added
        unfold firstAdded
        by_cases aligned : off % bsize = 0
        · rw [if_pos aligned]
          simp only [bsize, maxopblocks] at *
          omega
        · rw [if_neg aligned]
          simp only [bsize, maxopblocks] at *
          omega
      refine .inl (.inr (mem_image.mpr ⟨bn - firstAdded off, mem_range.mpr ?_, ?_⟩))
      · omega
      · rw [Nat.add_sub_cancel' late.1, map]
    · refine .inr ?_
      rw [mem_insert, mem_insert]
      exact pointer.imp_right .inl
  · refine .inr ?_
    rw [mem_insert, mem_insert, mem_singleton]
    exact .inr (.inr inode)

/-- The `writei` of a chunk logs at most `MAXOPBLOCKS` distinct blocks. -/
theorem chunk_fits_transaction (valid : sb.Valid) (inv : Inv sb s v ∅ Set.univ)
    (entry : Open s ip n) (allocated : (v.node n).type ≠ 0) (gapless : Gapless sb v n)
    (unheld : s.held = []) (src : Source) (within : off ≤ (v.node n).size.toNat)
    (chunk : count ≤ writeMax) {r : Option Nat}
    (written : writei sb ip src off count s = .ok (r, t)) :
    ∃ new, t.logged = new ++ s.logged ∧ new.toFinset.card ≤ maxopblocks := by
  by_cases accepts : Accepts (v.node n).size.toNat off count
  · obtain ⟨_, w, c, writes⟩ := (writei_spec valid src inv entry allocated (Set.notMem_empty n)
      (Set.mem_univ n) unheld accepts).returns r t written
    obtain ⟨new, logged, fine⟩ := writes.logs.logged
    refine ⟨new, logged, (card_le_card fun b listed => ?_).trans (card_chunkBlocks_le sb n off w)⟩
    exact mem_chunkBlocks gapless within chunk (fine b (List.mem_toFinset.mp listed))
  · have word : count < 2 ^ 32 := chunk.trans_lt (by decide)
    rw [← inv.open_node entry] at accepts
    rw [writei_refuses word accepts] at written
    cases written
    exact ⟨[], rfl, Nat.zero_le _⟩

theorem sample_gapless : Gapless sample sampleVolume 2 := by
  intro bn below
  rw [sampleVolume_node] at below
  obtain rfl : bn = 0 := by
    have three : sampleNode.size.toNat = 3 := rfl
    simp only [bsize] at below
    omega
  rw [sampleVolume_held]
  decide

/-- Two bytes are appended to the sample file within a transaction. -/
theorem two_bytes_fit_transaction : ∃ t,
    writei sample firstSlot (.kernel fun _ => 100) 3 2 (sampleState 1) = .ok (some 2, t) ∧
      ∃ new, t.logged = new ++ (sampleState 1).logged ∧ new.toFinset.card ≤ maxopblocks := by
  have within : 3 ≤ (sampleVolume.node 2).size.toNat := by
    rw [sampleVolume_node]
    decide
  exact ⟨_, rfl, chunk_fits_transaction sample_valid (sample_inv 1) (sample_open 1)
    sample_allocated sample_gapless rfl (.kernel fun _ => 100) within
    (show 2 ≤ writeMax by decide) rfl⟩

end OsLab.Fs
