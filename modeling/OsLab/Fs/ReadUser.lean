import OsLab.Fs.Calls
import OsLab.Fs.Frame
import OsLab.Fs.Reading
import OsLab.Fs.Sample

/-!
# Reading a file into user memory

`fileread` of an inode together with the stores it makes to the user's memory.  The count of a
read is an `int` that becomes a `uint` on the way into `readi`, so a negative count is a large one
there; `readi` rejects it only if the sum with the offset wraps around.
-/

namespace OsLab.Fs

open Act Function List Nat

variable (sb : Superblock)

/-- A byte stored at an address of user memory. -/
abbrev Stored := Nat × Byte

/-- `either_copyout` to user memory: whether it succeeds, and what it stores.  It gives up at the
first page that is not mapped. -/
def eitherCopyout (mapped : Nat → Bool) : (dst : Nat) → List Byte → Bool × List Stored
  | _, [] => (true, [])
  | dst, byte :: rest =>
    if mapped dst then
      let later := eitherCopyout mapped (dst + 1) rest
      (later.1, (dst, byte) :: later.2)
    else
      (false, [])

/-- What a read has delivered: its result and its stores. -/
structure Delivery where
  tot : Nat
  stores : List Stored

/-- The loop of `readi` to user memory. -/
def readUserLoop (ip : Slot) (mapped : Nat → Bool) (n : Nat) :
    (fuel off tot dst : Nat) → FsM Delivery
  | 0, _, tot, _ => return ⟨tot, []⟩
  | fuel + 1, off, tot, dst =>
    if tot < n then do
      let addr ← bmap sb ip (off / bsize)
      let bp ← bread addr
      let m := min (n - tot) (bsize - off % bsize)
      let copy := eitherCopyout mapped dst ((List.range m).map fun j => bp.byteAt (off % bsize + j))
      brelse addr
      if copy.1 then do
        let later ← readUserLoop ip mapped n fuel (off + m) (tot + m) (dst + m)
        return ⟨later.tot, copy.2 ++ later.stores⟩
      else
        return ⟨tot, copy.2⟩
    else
      return ⟨tot, []⟩

/-- `readi` to user memory.  `off` and `n` are of type `uint`. -/
def readiUser (ip : Slot) (mapped : Nat → Bool) (dst off n : Nat) : FsM Delivery := do
  let i ← inode ip
  let size := i.node.size.toNat
  if size < off ∨ (off + n) % 2 ^ 32 < off then
    return ⟨0, []⟩
  else
    let n := if size < (off + n) % 2 ^ 32 then size - off else n
    readUserLoop sb ip mapped n n off 0 dst

/-- What `fileread` returns, and leaves in the file and in user memory. -/
structure Answer where
  r : Int
  file : File
  stores : List Stored

/-- `fileread` of an `FD_INODE` file. -/
def filereadInode (me : Pslot) (ip : Slot) (file : File) (mapped : Nat → Bool) (addr : Nat)
    (n : Int) : FsM Answer :=
  if file.readable then do
    ilock sb me ip
    let delivery ← readiUser sb ip mapped addr file.off (n % 2 ^ 32).toNat
    let r := (BitVec.ofNat 32 delivery.tot).toInt
    let file := if 0 < r then { file with off := (file.off + r.toNat) % 2 ^ 32 } else file
    iunlock me ip
    return ⟨r, file, delivery.stores⟩
  else
    return ⟨-1, file, []⟩

variable {sb : Superblock} {s : State} {ip : Slot} {mapped : Nat → Bool}

/-- A copy stores the bytes up to the first one that is not mapped. -/
theorem eitherCopyout_stores (mapped : Nat → Bool) (m : Nat) :
    ∀ (dst : Nat) (byte : Nat → Byte), ∃ k, k ≤ m ∧
      (eitherCopyout mapped dst ((List.range m).map byte)).2 =
        (List.range k).map (fun j => (dst + j, byte j)) ∧
      ((eitherCopyout mapped dst ((List.range m).map byte)).1 = true → k = m) ∧
      (0 < m → (0 < k ↔ mapped dst)) := by
  induction m with
  | zero => exact fun dst byte => ⟨0, le_rfl, rfl, fun _ => rfl, fun none => absurd none (by simp)⟩
  | succ m ih =>
    intro dst byte
    rw [range_succ_eq_map, map_cons, map_map, eitherCopyout]
    by_cases here : mapped dst
    · rw [if_pos here]
      obtain ⟨k, le, stores, all, _⟩ := ih (dst + 1) (byte ∘ Nat.succ)
      refine ⟨k + 1, by omega, ?_, fun done => ?_, fun _ => iff_of_true (succ_pos k) here⟩
      · rw [range_succ_eq_map, map_cons, map_map]
        dsimp only
        rw [stores]
        simp [comp_def, add_comm, add_left_comm]
      · rw [all done]
    · rw [if_neg here]
      exact ⟨0, zero_le _, rfl, fun done => absurd done (by simp),
        fun _ => iff_of_false (lt_irrefl 0) here⟩

theorem eitherCopyout_succeeds (mapped : Nat → Bool) (bytes : List Byte) :
    ∀ dst, (eitherCopyout mapped dst bytes).1 =
      (List.range bytes.length).all fun j => mapped (dst + j) := by
  induction bytes with
  | nil => exact fun _ => rfl
  | cons byte rest ih =>
    intro dst
    rw [eitherCopyout, length_cons, range_succ_eq_map, all_cons, all_map]
    by_cases here : mapped dst
    · rw [if_pos here]
      dsimp only
      rw [show mapped (dst + 0) = true from here, Bool.true_and, ih]
      refine congrArg (fun test => (List.range rest.length).all test) (funext fun j => ?_)
      rw [comp_apply, succ_eq_add_one, add_assoc, add_comm 1]
    · rw [if_neg here]
      dsimp only
      rw [show mapped (dst + 0) = false from Bool.eq_false_iff.mpr here, Bool.false_and]

theorem tot_readUserLoop (n dst fuel : Nat) :
    ∀ (off : Nat) (bytes : List Byte),
      Delivery.tot <$> readUserLoop sb ip mapped n fuel off bytes.length (dst + bytes.length) =
        List.length <$> readLoop sb ip (fun j => mapped (dst + j)) n fuel off bytes := by
  induction fuel with
  | zero => exact fun _ _ => rfl
  | succ fuel ih =>
    intro off bytes
    rw [readUserLoop, readLoop]
    split
    · simp only [map_bind]
      refine bind_congr fun addr => bind_congr fun bp => bind_congr fun _ => ?_
      rw [eitherCopyout_succeeds, length_map, length_range]
      simp only [add_assoc]
      split
      · have later := ih (off + min (n - bytes.length) (bsize - off % bsize))
          (bytes ++ (List.range (min (n - bytes.length) (bsize - off % bsize))).map fun j =>
            bp.byteAt (off % bsize + j))
        rw [length_append, length_map, length_range] at later
        rw [map_bind, ← later]
        rfl
      · rfl
    · rfl

theorem tot_readiUser (dst off n : Nat) :
    Delivery.tot <$> readiUser sb ip mapped dst off n =
      List.length <$> readi sb ip (fun j => mapped (dst + j)) off n := by
  rw [readiUser, readi, map_bind, map_bind]
  refine bind_congr fun i => ?_
  dsimp only
  split
  · rfl
  · exact tot_readUserLoop _ dst _ off []

/-- The stores go to `k` addresses in a row. -/
def Consecutive (dst k : Nat) (stores : List Stored) : Prop :=
  stores.map Prod.fst = (List.range k).map (dst + ·)

variable {stores : List Stored}

theorem Consecutive.length {dst k : Nat} (row : Consecutive dst k stores) : stores.length = k := by
  simpa using congrArg List.length row

theorem Consecutive.inside {dst k : Nat} (row : Consecutive dst k stores) {store : Stored}
    (made : store ∈ stores) : dst ≤ store.1 ∧ store.1 < dst + k := by
  have listed : store.1 ∈ (List.range k).map (dst + ·) := row ▸ mem_map_of_mem made
  obtain ⟨j, below, at_⟩ := mem_map.mp listed
  have := mem_range.mp below
  omega

theorem Consecutive.append {dst m k : Nat} {first later : List Stored}
    (row : Consecutive dst m first) (rest : Consecutive (dst + m) k later) :
    Consecutive dst (m + k) (first ++ later) := by
  unfold Consecutive at *
  rw [map_append, row, rest, range_add, map_append, map_map]
  simp only [comp_def, add_assoc]

theorem consecutive_range (dst k : Nat) (byte : Nat → Byte) :
    Consecutive dst k ((List.range k).map fun j => (dst + j, byte j)) := by
  simp [Consecutive, comp_def]

theorem readUserLoop_bounded (n fuel : Nat) :
    ∀ (off tot dst : Nat) (s : State), tot ≤ n →
      Ensures (fun _ => True) (readUserLoop sb ip mapped n fuel off tot dst) s fun delivery _ =>
        delivery.tot ≤ n ∧ ∃ k, k ≤ n - tot ∧ Consecutive dst k delivery.stores := by
  induction fuel with
  | zero =>
    intro off tot dst s within
    rw [readUserLoop, ensures_pure]
    exact ⟨within, 0, zero_le _, rfl⟩
  | succ fuel ih =>
    intro off tot dst s within
    rw [readUserLoop]
    split
    · refine ensures_any.bind fun addr _ _ => ensures_any.bind fun bp _ _ => ?_
      dsimp only
      generalize amount : min (n - tot) (bsize - off % bsize) = m
      obtain ⟨k, le, stores, all, _⟩ := eitherCopyout_stores mapped m dst
        fun j => bp.byteAt (off % bsize + j)
      refine ensures_any.bind fun _ t _ => ?_
      split
      · rename_i copied
        refine (ih (off + m) (tot + m) (dst + m) t (by omega)).bind ?_
        rintro later u ⟨bounded, more, few, row⟩
        rw [ensures_pure]
        have first := consecutive_range dst m fun j => bp.byteAt (off % bsize + j)
        rw [all copied] at stores
        rw [stores]
        exact ⟨bounded, m + more, by omega, first.append row⟩
      · rw [ensures_pure, stores]
        exact ⟨within, k, by omega, consecutive_range ..⟩
    · rw [ensures_pure]
      exact ⟨within, 0, zero_le _, rfl⟩

/-- Of a file without holes the loop delivers bytes of the file. -/
theorem readUserLoop_mapped {len n : Nat} (file : Mapped s ip len) (mapped : Nat → Bool)
    (fuel : Nat) :
    ∀ off tot dst : Nat, n - tot ≤ fuel → off + (n - tot) ≤ len →
      ∃ c k, c ≤ k ∧ k ≤ n - tot ∧ (tot < n → (0 < k ↔ mapped dst)) ∧
        readUserLoop sb ip mapped n fuel off tot dst s =
          .ok (⟨tot + c, (List.range k).map fun j => (dst + j, fileByte s ip (off + j))⟩, s) := by
  induction fuel with
  | zero =>
    intro off tot dst short _
    exact ⟨0, 0, le_rfl, zero_le _, fun more => by omega, rfl⟩
  | succ fuel ih =>
    intro off tot dst short inside
    rw [readUserLoop]
    by_cases more : tot < n
    · rw [if_pos more, bind_of_ok (file.bmap (by omega)), bind_of_ok (bread_ok file.unheld _)]
      generalize amount : min (n - tot) (bsize - off % bsize) = m
      have rest : off % bsize < bsize := mod_lt off (by decide)
      rw [bind_of_ok (brelse_ok file.unheld _), range_block (by omega)]
      obtain ⟨k, le, stores, all, first⟩ := eitherCopyout_stores mapped m dst
        fun j => fileByte s ip (off + j)
      split
      · rename_i copied
        obtain ⟨c, later, le', few, _, run⟩ := ih (off + m) (tot + m) (dst + m) (by omega)
          (by omega)
        rw [all copied] at stores
        have some := first (by omega)
        rw [all copied] at some
        refine ⟨m + c, m + later, by omega, by omega, fun _ => ?_, ?_⟩
        · rw [← some]
          omega
        · rw [bind_of_ok run, stores, range_add, map_append, map_map]
          simp only [comp_def, add_assoc]
          rfl
      · refine ⟨0, k, zero_le _, by omega, fun _ => first (by omega), ?_⟩
        rw [stores]
        rfl
    · rw [if_neg more]
      exact ⟨0, 0, le_rfl, zero_le _, (absurd · more), rfl⟩

/-- The count of a read that `readi` goes by, after the cut at the size. -/
def clipped (size off n : Nat) : Nat :=
  if size < off ∨ (off + n) % 2 ^ 32 < off then 0
  else if size < (off + n) % 2 ^ 32 then size - off else n

/-- A negative count whose sum with the offset does not wrap around. -/
def Slips (off size : Nat) (n : Int) : Prop := n < 0 ∧ off < -n ∧ off < size

section Counts

variable {size off : Nat} {n : Int}

theorem clipped_le_size (off n : Nat) (word : n < 2 ^ 32) (limit : size < 2 ^ 32)
    (within : off ≤ size) : off + clipped size off n ≤ size := by
  unfold clipped
  split
  · omega
  · split <;> omega

theorem clipped_of_past (n : Nat) (past : size < off) : clipped size off n = 0 :=
  if_pos (.inl past)

theorem off_add_clipped_lt {n : Nat} (offset : off < 2 ^ 32) (word : n < 2 ^ 32)
    (limit : size < 2 ^ 32) : off + clipped size off n < 2 ^ 32 := by
  rcases le_or_gt off size with within | past
  · exact (clipped_le_size off n word limit within).trans_lt limit
  · rwa [clipped_of_past n past]

theorem toNat_emod_lt (n : Int) : (n % 2 ^ 32).toNat < 2 ^ 32 := by omega

theorem clipped_le_count (low : -2 ^ 31 ≤ n) (high : n < 2 ^ 31) (limit : size < 2 ^ 32)
    (caught : ¬ Slips off size n) : (clipped size off (n % 2 ^ 32).toNat : Int) ≤ max n 0 := by
  unfold Slips at caught
  unfold clipped
  split
  · omega
  · split <;> omega

/-- A count that slips through is cut to the rest of the file. -/
theorem clipped_of_slips (low : -2 ^ 31 ≤ n) (limit : size < 2 ^ 31) (slips : Slips off size n) :
    clipped size off (n % 2 ^ 32).toNat = size - off := by
  obtain ⟨negative, short, inside⟩ := slips
  rw [clipped, if_neg (by omega), if_pos (by omega)]

end Counts

theorem readiUser_eq (dst off n : Nat) :
    readiUser sb ip mapped dst off n s =
      readUserLoop sb ip mapped (clipped (s.inode ip).node.size.toNat off n)
        (clipped (s.inode ip).node.size.toNat off n) off 0 dst s := by
  rw [readiUser, bind_of_ok (show inode ip s = .ok (s.inode ip, s) from rfl), clipped]
  dsimp only
  split
  · rfl
  · rfl

/-- At most `n` bytes are stored, in the user's buffer, and the offset moves by the result. -/
structure Bounded (file : File) (addr : Nat) (n : Int) (answer : Answer) : Prop where
  count : answer.stores.length ≤ max n 0
  inside : ∀ store ∈ answer.stores, addr ≤ store.1 ∧ store.1 < addr + max n 0
  result : answer.r ≤ max n 0
  offset : answer.file = { file with off := file.off + answer.r.toNat }

/-- The result counts bytes of the file that were stored. -/
def Delivers (s : State) (ip : Slot) (file : File) (addr : Nat) (answer : Answer) : Prop :=
  ∀ j : Nat, j < answer.r → (addr + j, fileByte s ip (file.off + j)) ∈ answer.stores

theorem toInt_small {count : Nat} (small : count < 2 ^ 31) :
    (BitVec.ofNat 32 count).toInt = count := by
  have word : (BitVec.ofNat 32 count).toNat = count :=
    mod_eq_of_lt (small.trans (by decide))
  rw [BitVec.toInt_eq_toNat_of_lt (by omega), word]

theorem iunlock_of_ilock {me : Pslot} {t : State} (locked : ilock sb me ip s = .ok ((), t)) :
    iunlock me ip t = .ok ((), t.setInode ip fun i => { i with lock := none }) := by
  have shape := ((yields_ilock sb me ip).of_ok locked).2
  have owner : (t.inode ip).lock = some me := by
    have := congrArg (fun shape : Shape => shape.lock ip) shape
    simpa [State.shape, Shape.setLock] using this
  have ref : (t.inode ip).ref = (s.inode ip).ref :=
    congrArg (fun shape : Shape => shape.ref ip) shape
  have live : ¬ (s.inode ip).ref < 1 := by
    intro unused
    rw [ilock, bind_of_ok (show inode ip s = .ok (s.inode ip, s) from rfl), if_pos unused] at locked
    cases locked
  rw [iunlock, bind_of_ok (show inode ip t = .ok (t.inode ip, t) from rfl),
    if_neg (by rw [owner, ref]; simpa using live)]
  rfl

section Calls

variable {me : Pslot} {file : File} {addr : Nat} {n : Int} {t : State}

/-- What `fileread` makes of a delivery. -/
def Answer.of (file : File) (delivery : Delivery) : Answer where
  r := (BitVec.ofNat 32 delivery.tot).toInt
  file := if 0 < (BitVec.ofNat 32 delivery.tot).toInt then
    { file with off := (file.off + (BitVec.ofNat 32 delivery.tot).toInt.toNat) % 2 ^ 32 } else file
  stores := delivery.stores

variable {delivery : Delivery}

section

variable (small : delivery.tot < 2 ^ 31) (word : file.off + delivery.tot < 2 ^ 32)
include small word

theorem Answer.of_small : Answer.of file delivery =
      ⟨delivery.tot, { file with off := file.off + delivery.tot }, delivery.stores⟩ := by
  rw [Answer.of, toInt_small small]
  split
  · rw [Int.toNat_natCast, mod_eq_of_lt word]
  · rw [show delivery.tot = 0 by omega]
    rfl

theorem bounded_of_few {k : Nat} (row : Consecutive addr k delivery.stores)
    (few : (k : Int) ≤ max n 0) (asked : (delivery.tot : Int) ≤ max n 0) :
    Bounded file addr n (.of file delivery) := by
  rw [Answer.of_small small word]
  refine ⟨?_, fun store made => ?_, asked, ?_⟩
  · rw [row.length]
    exact few
  · have := row.inside made
    omega
  · rw [Int.toNat_natCast]

end

theorem filereadInode_bounded (readable : file.readable) (word : file.off < 2 ^ 32)
    (low : -2 ^ 31 ≤ n) (high : n < 2 ^ 31) (locked : ilock sb me ip s = .ok ((), t))
    (caught : ¬ Slips file.off (t.inode ip).node.size.toNat n) :
    Ensures (fun _ => True) (filereadInode sb me ip file mapped addr n) s fun answer _ =>
      Bounded file addr n answer := by
  have limit : (t.inode ip).node.size.toNat < 2 ^ 32 := BitVec.isLt _
  have count := clipped_le_count low high limit caught
  rw [filereadInode, if_pos readable, ensures_bind, ensures_of_ok locked, ensures_bind,
    ensures_congr (readiUser_eq ..)]
  refine (readUserLoop_bounded _ _ _ _ _ _ (zero_le _)).mono ?_
  rintro delivery u ⟨bounded, k, few, row⟩
  refine ensures_any.bind fun _ w _ => ?_
  rw [ensures_pure]
  have sum := off_add_clipped_lt word (toNat_emod_lt n) limit
  exact bounded_of_few (by omega) (by omega) row (by omega) (by omega)

theorem filereadInode_mapped (readable : file.readable) (locked : ilock sb me ip s = .ok ((), t))
    (whole : Mapped t ip (t.inode ip).node.size.toNat) (mapped : Nat → Bool) :
    ∃ c k, c ≤ k ∧ k ≤ clipped (t.inode ip).node.size.toNat file.off (n % 2 ^ 32).toNat ∧
      (0 < clipped (t.inode ip).node.size.toNat file.off (n % 2 ^ 32).toNat →
        (0 < k ↔ mapped addr)) ∧
      filereadInode sb me ip file mapped addr n s = .ok (.of file ⟨c, (List.range k).map fun j =>
        (addr + j, fileByte t ip (file.off + j))⟩, t.setInode ip fun i => { i with lock := none })
    := by
  have limit : (t.inode ip).node.size.toNat < 2 ^ 32 := BitVec.isLt _
  obtain ⟨c, k, le, few, first, run⟩ : ∃ c k, c ≤ k ∧
      k ≤ clipped (t.inode ip).node.size.toNat file.off (n % 2 ^ 32).toNat ∧
      (0 < clipped (t.inode ip).node.size.toNat file.off (n % 2 ^ 32).toNat →
        (0 < k ↔ mapped addr)) ∧
      readiUser sb ip mapped addr file.off (n % 2 ^ 32).toNat t = .ok (⟨c, (List.range k).map
        fun j => (addr + j, fileByte t ip (file.off + j))⟩, t) := by
    rw [readiUser_eq]
    rcases le_or_gt file.off (t.inode ip).node.size.toNat with within | past
    · have fits := clipped_le_size file.off _ (toNat_emod_lt n) limit within
      obtain ⟨c, k, le, few, first, run⟩ := readUserLoop_mapped whole mapped _ file.off 0 addr
        le_rfl fits
      rw [zero_add] at run
      exact ⟨c, k, le, few, first, run⟩
    · rw [clipped_of_past _ past]
      exact ⟨0, 0, le_rfl, le_rfl, fun none => absurd none (lt_irrefl 0), rfl⟩
  refine ⟨c, k, le, few, first, ?_⟩
  rw [filereadInode, if_pos readable, bind_of_ok locked, bind_of_ok run]
  dsimp only
  rw [bind_of_ok (iunlock_of_ilock locked)]
  rfl

/-- `fileread` of an inode never delivers more than was asked for, unless the count is negative,
its sum with the offset does not wrap around, bytes of the file follow the offset and the first
byte of the buffer is mapped. -/
theorem filereadInode_bounded_iff (readable : file.readable) (word : file.off < 2 ^ 32)
    (low : -2 ^ 31 ≤ n) (high : n < 2 ^ 31) (locked : ilock sb me ip s = .ok ((), t))
    (mapped : Nat → Bool) (addr : Nat) :
    (¬ Slips file.off (t.inode ip).node.size.toNat n → ∀ answer u,
      filereadInode sb me ip file mapped addr n s = .ok (answer, u) → Bounded file addr n answer) ∧
    (Mapped t ip (t.inode ip).node.size.toNat → ∃ answer u,
      filereadInode sb me ip file mapped addr n s = .ok (answer, u) ∧
        Delivers t ip file addr answer ∧
        (Bounded file addr n answer ↔
          ¬ (Slips file.off (t.inode ip).node.size.toNat n ∧ mapped addr))) := by
  refine ⟨fun caught answer u done => ?_, fun whole => ?_⟩
  · exact (filereadInode_bounded readable word low high locked caught).returns answer u done
  obtain ⟨c, k, le, few, first, run⟩ := filereadInode_mapped readable locked whole mapped
  have limit : (t.inode ip).node.size.toNat < 2 ^ 32 := BitVec.isLt _
  have bounded : (t.inode ip).node.size.toNat < 2 ^ 31 :=
    whole.bounded.trans_lt (by decide)
  have sum := off_add_clipped_lt word (toNat_emod_lt n) limit
  have small : clipped (t.inode ip).node.size.toNat file.off (n % 2 ^ 32).toNat < 2 ^ 31 := by
    rcases le_or_gt file.off (t.inode ip).node.size.toNat with within | past
    · have := clipped_le_size file.off _ (toNat_emod_lt n) limit within
      omega
    · rw [clipped_of_past _ past]
      decide
  refine ⟨_, _, run, ?_, ?_⟩
  · intro j below
    rw [Answer.of_small (by dsimp only; omega) (by dsimp only; omega)] at below ⊢
    exact mem_map.mpr ⟨j, mem_range.mpr (by dsimp only at below; omega), rfl⟩
  by_cases slips : Slips file.off (t.inode ip).node.size.toNat n
  · have rest := clipped_of_slips low bounded slips
    have first := first (by have := slips.2.2; omega)
    constructor
    · rintro answer ⟨_, here⟩
      have some := answer.count
      rw [Answer.of_small (by dsimp only; omega) (by dsimp only; omega)] at some
      simp only [length_map, length_range] at some
      have := slips.1
      have := first.mpr here
      omega
    · intro caught
      have none : k = 0 := by
        by_contra more
        exact caught ⟨slips, first.mp (pos_of_ne_zero more)⟩
      exact bounded_of_few (by dsimp only; omega) (by dsimp only; omega)
        (consecutive_range addr k _) (by omega) (by dsimp only; omega)
  · have count := clipped_le_count low high limit slips
    refine iff_of_true ?_ fun both => slips both.1
    exact bounded_of_few (by dsimp only; omega) (by dsimp only; omega)
      (consecutive_range addr k _) (by omega) (by dsimp only; omega)

end Calls

/-- The file, open at offset 0. -/
def openFile : File := ⟨.inode, 1, true, true, some firstSlot, 0, 0⟩

theorem sampleState_mapped :
    Mapped ((sampleState 0).setInode firstSlot fun i => { i with lock := some firstProc }) firstSlot
      3 := by
  refine ⟨rfl, by decide, fun bn below => ?_⟩
  obtain rfl : bn = 0 := by
    simp only [bsize] at below
    omega
  decide

/-- A read of 2 bytes is answered within bounds. -/
theorem two_bytes_bounded :
    ∃ answer u, filereadInode sample firstProc firstSlot openFile (fun _ => true) 4096 2
      (sampleState 0) = .ok (answer, u) ∧ Bounded openFile 4096 2 answer := by
  have both := filereadInode_bounded_iff (show openFile.readable from rfl) (by decide)
    (show -2 ^ 31 ≤ (2 : Int) by decide) (by decide)
    (show ilock sample firstProc firstSlot (sampleState 0) = .ok ((), _) from rfl)
    (fun _ => true) 4096
  obtain ⟨answer, u, done, _, bounded⟩ := both.2 sampleState_mapped
  exact ⟨answer, u, done, bounded.mpr fun slips => absurd slips.1.1 (by decide)⟩

/-- A read with count -1 at offset 0 stores the whole file and returns its length. -/
theorem negative_count_reads :
    ∃ answer u, filereadInode sample firstProc firstSlot openFile (fun _ => true) 4096 (-1)
      (sampleState 0) = .ok (answer, u) ∧ answer.r = 3 ∧
      answer.stores = [(4096, 97), (4097, 98), (4098, 99)] ∧ answer.file.off = 3 := by
  refine ⟨_, _, rfl, ?_, ?_, ?_⟩
  all_goals decide

end OsLab.Fs
