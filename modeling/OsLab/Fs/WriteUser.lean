import OsLab.Fs.Contents

/-!
# Writing a file from user memory

`filewrite` of an inode, chunk by chunk.  `writei` returns the count it was given even when a copy
from user memory has failed, so `filewrite` counts a chunk as written once `writei` has taken it
on.
-/

namespace OsLab.Fs

open Act Nat

section Code

variable (sb : Superblock)

/-- Code of the file system within a call on an open file. -/
def inCall {α : Type} (code : FsM α) : Act State Halt α := fun s =>
  match code s with
  | .ok result => .ok result
  | .error stop => .error (.fs stop)

/-- What `filewrite` returns and leaves in the file. -/
structure Reply where
  r : Int
  file : File

/-- The transaction for one chunk of `filewrite`. -/
def filewriteChunk (me : Pslot) (ip : Slot) (src : Source) (off n1 : Nat) : FsM (Option Nat) := do
  beginOp
  ilock sb me ip
  let r ← writei sb ip src off n1
  iunlock me ip
  endOp
  return r

/-- The loop of `filewrite` with `i` bytes written; `cached` says for each chunk what becomes of
the buffer when a copy fails. -/
def filewriteLoop (me : Pslot) (ip : Slot) (memory : Memory) (cached : Nat → Bool)
    (addr : Nat) (n : Int) : (fuel i : Nat) → File → Act State Halt (Nat × File)
  | 0, i, file => return (i, file)
  | fuel + 1, i, file =>
    if i < n then do
      let n1 := min (n.toNat - i) writeMax
      let r ← inCall (filewriteChunk sb me ip
        (.user (fun j => memory (addr + i + j)) (cached i)) file.off n1)
      match r with
      | none => return (i, file)
      | some r =>
        if r ≠ n1 then
          throw .shortFilewrite
        else
          filewriteLoop me ip memory cached addr n fuel (i + r)
            { file with off := (file.off + r) % 2 ^ 32 }
    else
      return (i, file)

/-- `filewrite` of an `FD_INODE` file. -/
def filewriteInode (me : Pslot) (ip : Slot) (file : File) (memory : Memory)
    (cached : Nat → Bool) (addr : Nat) (n : Int) : Act State Halt Reply :=
  if file.writable then do
    let (i, file) ← filewriteLoop sb me ip memory cached addr n n.toNat 0 file
    return ⟨if i = n then n else -1, file⟩
  else
    return ⟨-1, file⟩

end Code

variable {sb : Superblock} {s t : State} {v w : Volume} {ip : Slot} {n : Nat} {me : Pslot}

theorem ensures_inCall {α : Type} {safe : Halt → Prop} (code : FsM α) (s : State)
    (post : α → State → Prop) :
    Ensures safe (inCall code) s post ↔ Ensures (fun stop => safe (.fs stop)) code s post := by
  cases outcome : code s with
  | ok pair =>
    obtain ⟨result, t⟩ := pair
    have same : inCall code s = .ok (result, t) := by rw [inCall, outcome]
    rw [ensures_of_ok outcome, ensures_of_ok same]
  | error stop =>
    have same : inCall code s = .error (.fs stop) := by rw [inCall, outcome]
    rw [ensures_of_error outcome, ensures_of_error same]

/-- Between two chunks no transaction is open, the inode is referenced and unlocked, and its file
has no holes. -/
structure Settled (sb : Superblock) (ip : Slot) (n : Nat) (s : State) (v : Volume) : Prop where
  inv : Inv sb s v ∅ Set.univ
  ref : 0 < (s.inode ip).ref
  inum : (s.inode ip).inum = n
  unlocked : (s.inode ip).lock = none
  unheld : s.held = []
  idle : s.outstanding = 0
  empty : s.logged = []
  allocated : (v.node n).type ≠ 0
  bounded : (v.node n).size.toNat ≤ maxfile * bsize
  gapless : Gapless sb v n

namespace Settled

variable {safe : Stop → Prop}

theorem ilock (settled : Settled sb ip n s v) (me : Pslot) :
    Ensures safe (do beginOp; ilock sb me ip) s fun _ t => Inv sb t v ∅ Set.univ ∧ Open t ip n ∧
      t.logged = [] ∧ t.shape = { s.shape with outstanding := 1 }.setLock ip (some me) := by
  rw [ensures_bind, beginOp, ensures_modify, settled.idle]
  have progress : Ensures (fun _ => False) (Fs.ilock sb me ip) { s with outstanding := 1 }
      fun _ t => t.logged = [] := by
    have live : ¬ (s.inode ip).ref < 1 := not_lt.mpr settled.ref
    rw [Fs.ilock, ensures_bind, ensures_inode, if_neg live, ensures_bind, acquiresleep,
      ensures_bind, ensures_inode, if_pos settled.unlocked, ensures_setInode]
    split
    · exact (ensures_pure ..).2 settled.empty
    rw [ensures_bind]
    refine (ensures_bread (by simp [State.setInode, settled.unheld]) _).2 ?_
    rw [ensures_bind, ensures_brelse rfl, ensures_bind, ensures_setInode]
    have inside : (s.inode ip).inum < sb.ninodes := settled.inv.cache.inside ip settled.ref
    have node := settled.inv.disk.clean _ inside (Set.notMem_empty _)
    rw [settled.inum] at node ⊢
    have loaded : (Dinode.load (s.disk (sb.iblock n)) (n % ipb)).type ≠ 0 := by
      have := settled.allocated
      rwa [← node] at this
    split
    · next zero => exact (loaded zero).elim
    · exact (ensures_pure ..).2 settled.empty
  have spec : Ensures Benign (Fs.ilock sb me ip) { s with outstanding := 1 } _ :=
    ilock_spec (settled.inv.congr rfl rfl) (Set.notMem_empty (s.inode ip).inum)
  refine ⟨fun _ t done => ?_, fun stop stopped => (progress.stops stop stopped).elim⟩
  obtain ⟨entry, _, _, inv⟩ := spec.returns () t done
  rw [settled.inum] at entry
  exact ⟨inv, entry, progress.returns () t done, ((yields_ilock sb me ip).of_ok done).2⟩

theorem release {shape : Shape} (locked : t.shape = shape.setLock ip (some me))
    (ref : 0 < (t.inode ip).ref) (inum : (t.inode ip).inum = n) (inv : Inv sb t w ∅ Set.univ)
    (unheld : shape.held = []) (one : shape.outstanding = 1) (allocated : (w.node n).type ≠ 0)
    (bounded : (w.node n).size.toNat ≤ maxfile * bsize) (gapless : Gapless sb w n)
    (r : Option Nat) :
    Ensures safe (do iunlock me ip; endOp; return r) t fun result u =>
      result = r ∧ Settled sb ip n u w := by
  have owner : (t.inode ip).lock = some me := by
    have := congrArg (fun shape : Shape => shape.lock ip) locked
    simpa [State.shape, Shape.setLock] using this
  have empty : t.held = [] := (congrArg Shape.held locked).trans unheld
  have last : t.outstanding - 1 = 0 :=
    congrArg (· - 1) ((congrArg Shape.outstanding locked).trans one)
  rw [ensures_bind, iunlock, ensures_bind, ensures_inode, if_neg (by rw [owner]; simp; omega),
    releasesleep, ensures_setInode, ensures_bind, endOp, ensures_modify, ensures_pure]
  refine ⟨rfl, ?_⟩
  have free : Inv sb (t.setInode ip fun i => { i with lock := none }) w ∅ Set.univ :=
    inv.setLock none
  rw [if_pos (by exact last)]
  refine ⟨free.congr rfl rfl, ?_, ?_, ?_, empty, rfl, rfl, allocated, bounded, gapless⟩
  all_goals simp [State.commit, State.setInode, ref, inum]

theorem chunk (settled : Settled sb ip n s v) (valid : sb.Valid) (me : Pslot) (src : Source)
    {off n1 : Nat} (word : n1 < 2 ^ 32) (few : spanned off n1 ≤ 4) :
    Ensures (fun stop => stop = .outOfBlocks ∧ (v.unmarked sb).card < 2 * spanned off n1)
      (filewriteChunk sb me ip src off n1) s fun r t =>
        (¬ Accepts (v.node n).size.toNat off n1 → r = none ∧ Settled sb ip n t v) ∧
        (Accepts (v.node n).size.toNat off n1 → r = some n1 ∧ ∃ w c s' t',
          Settled sb ip n t w ∧ Writes sb n ∅ Set.univ off n1 src.byte s' v c t' w) := by
  rw [filewriteChunk, ← bind_assoc]
  refine (settled.ilock me).bind ?_
  rintro _ t ⟨inv, entry, empty, locked⟩
  have unheld : t.held = [] := (congrArg Shape.held locked).trans settled.unheld
  by_cases accepts : Accepts (v.node n).size.toNat off n1
  · have going : t.outstanding = 1 := congrArg Shape.outstanding locked
    have room : t.lhN + 3 * (2 * spanned off n1) < logSize - 1 := by
      rw [State.lhN, empty]
      simp only [logSize, maxOpBlocks, List.toFinset_nil, Finset.card_empty]
      omega
    have spec := writei_spec valid src inv entry settled.allocated (Set.notMem_empty n)
      (Set.mem_univ n) unheld accepts
    have both : Ensures (fun stop => stop = .outOfBlocks ∧
        (v.unmarked sb).card < 2 * spanned off n1) (writei sb ip src off n1) t fun r u =>
        (r = some n1 ∧ ∃ w c, Writes sb n ∅ Set.univ off n1 src.byte t v c u w) ∧
          u.shape = t.shape :=
      ⟨fun r u done => ⟨spec.returns r u done, ((quiet_writei sb ip src off n1) t).of_ok done⟩,
        fun stop stopped => (spec.stops stop stopped).resolve_right (not_logStop (by omega) room)⟩
    refine both.bind ?_
    rintro r u ⟨⟨rfl, w, c, writes⟩, shape⟩
    have entry' := entry.keyed writes.keyed
    have bounded : (w.node n).size.toNat ≤ maxfile * bsize := by
      have := writes.few
      have := accepts.2
      rw [writes.size]
      exact max_le settled.bounded (by omega)
    refine (release (shape.trans locked) entry'.ref entry'.inum writes.inv settled.unheld rfl
      (by rw [writes.node]; exact settled.allocated) bounded
      (writes.gapless settled.gapless accepts.1) (some n1)).mono ?_
    rintro r x ⟨rfl, done⟩
    exact ⟨(absurd accepts ·), fun _ => ⟨rfl, w, c, t, u, done, writes⟩⟩
  · have refused : writei sb ip src off n1 t = .ok (none, t) :=
      writei_refuses word (by rwa [inv.open_node entry])
    rw [ensures_bind, ensures_of_ok refused]
    refine (release locked entry.ref entry.inum inv settled.unheld rfl settled.allocated
      settled.bounded settled.gapless none).mono ?_
    rintro r x ⟨rfl, done⟩
    exact ⟨fun _ => ⟨rfl, done⟩, (absurd · accepts)⟩

end Settled

/-- How many bytes of a write at `off` are in chunks that `writei` takes on. -/
def taken (off count : Nat) : Nat :=
  if off + count ≤ maxfile * bsize then count
  else (maxfile * bsize - off) / writeMax * writeMax

def chunks (count : Nat) : Nat := (count + (writeMax - 1)) / writeMax

theorem writeMax_literal : writeMax = 3072 := rfl

theorem maxfile_mul_bsize : maxfile * bsize = 274432 := rfl

theorem taken_of_refused {size off count : Nat} (within : off ≤ size)
    (refused : ¬ Accepts size off (min count writeMax)) : taken off count = 0 := by
  unfold Accepts at refused
  rw [taken, maxfile_mul_bsize, writeMax_literal] at *
  rw [if_neg (by omega), div_eq_of_lt (by omega), zero_mul]

theorem taken_of_accepts {size off count : Nat} (accepts : Accepts size off (min count writeMax)) :
    taken off count = min count writeMax +
      taken (off + min count writeMax) (count - min count writeMax) := by
  have bound := accepts.2
  unfold taken
  rw [maxfile_mul_bsize, writeMax_literal] at *
  split
  · rw [if_pos (by omega)]
    omega
  · rw [if_neg (by omega)]
    omega

theorem chunks_next {count : Nat} (some : 0 < count) :
    chunks (count - min count writeMax) + 1 ≤ chunks count := by
  unfold chunks
  rw [writeMax_literal]
  omega

theorem spanned_chunk_le (off count : Nat) : spanned off (min count writeMax) ≤ 4 := by
  unfold spanned
  rw [writeMax_literal]
  simp only [bsize]
  split <;> omega

theorem taken_zero (off : Nat) : taken off 0 = 0 := by
  rw [taken]
  split
  · rfl
  · rw [Nat.sub_eq_zero_of_le (by omega), Nat.zero_div, zero_mul]

/-- The first `k` bytes of the data are stored at `off`, and nothing else in the file changes. -/
structure Stores (sb : Superblock) (n off k : Nat) (data : Memory) (v w : Volume) :
    Prop where
  inside : ∀ j < k, data j = some (w.byte sb n (off + j))
  outside : ∀ j < (v.node n).size.toNat, j < off ∨ off + k ≤ j → w.byte sb n j = v.byte sb n j
  size : (w.node n).size.toNat =
    if k = 0 then (v.node n).size.toNat else max (v.node n).size.toNat (off + k)

theorem Stores.none (sb : Superblock) (n off : Nat) (data : Memory) (v : Volume) :
    Stores sb n off 0 data v v :=
  ⟨nofun, fun _ _ _ => rfl, (if_pos rfl).symm⟩

/-- The offset has advanced by `k` in the chunks of a write of `count` bytes at `off`. -/
structure Advances (sb : Superblock) (n off count : Nat) (data : Memory)
    (v : Volume) (k : Nat) (w : Volume) : Prop where
  few : k ≤ count
  before : ∀ j < off, v.held sb (n, place (j / bsize)) ≠ 0 → w.byte sb n j = v.byte sb n j
  past : (v.node n).size.toNat < off → k = 0 ∧ w = v
  stored : off ≤ (v.node n).size.toNat → (∀ j < taken off count, (data j).isSome) →
    k = taken off count ∧ Stores sb n off k data v w
  fault : off ≤ (v.node n).size.toNat → (∃ j < taken off count, data j = none) →
    ∃ j < k, data j = none

namespace Advances

variable {off count k : Nat} {data : Memory} {x : Volume}

theorem stop (sb : Superblock) (n off count : Nat) (data : Memory) (v : Volume)
    (none : off ≤ (v.node n).size.toNat → taken off count = 0) :
    Advances sb n off count data v 0 v where
  few := zero_le _
  before _ _ _ := rfl
  past _ := ⟨rfl, rfl⟩
  stored within _ := ⟨(none within).symm, .none sb n off data v⟩
  fault within broken := by
    obtain ⟨j, below, _⟩ := broken
    rw [none within] at below
    exact absurd below (not_lt_zero j)

theorem next {c : Nat} (gapless : Gapless sb v n)
    (accepts : Accepts (v.node n).size.toNat off (min count writeMax))
    (writes : Writes sb n ∅ Set.univ off (min count writeMax) data s v c t w)
    (rest : Advances sb n (off + min count writeMax) (count - min count writeMax)
      (fun j => data (min count writeMax + j)) w k x) (some : 0 < count) :
    Advances sb n off count data v (min count writeMax + k) x := by
  have split := taken_of_accepts accepts
  have few := rest.few
  have positive : 0 < min count writeMax := lt_min some (by decide)
  generalize amount : min count writeMax = m at *
  obtain ⟨d, low, high, written⟩ := writes.written
  have all : (∀ j < m, (data j).isSome) → c = m := by
    intro readable
    by_contra short
    obtain ⟨j, _, inside, none⟩ := writes.fault (lt_of_le_of_ne writes.few short)
    simpa [none] using readable j inside
  have room : c = m → off + m ≤ (w.node n).size.toNat := by
    rintro rfl
    rw [writes.size]
    exact le_max_right ..
  refine ⟨by omega, fun j below holds => ?_, fun past => absurd accepts.1 (not_le.mpr past),
    fun _ readable => ?_, fun _ broken => ?_⟩
  · rw [rest.before j (by omega) ((writes.held _ holds).symm ▸ holds),
      written.outside j holds (.inl below)]
  · obtain rfl := all fun j below => readable j (by omega)
    obtain rfl : d = c := by omega
    obtain ⟨same, stores⟩ := rest.stored (room rfl) fun j below => readable (d + j) (by omega)
    refine ⟨by omega, fun j below => ?_, fun j below apart => ?_, ?_⟩
    · by_cases early : j < d
      · rw [rest.before (off + j) (by omega) (writes.mapped j early)]
        exact written.stored j early
      · have later := stores.inside (j - d) (by omega)
        rwa [show d + (j - d) = j by omega, show off + d + (j - d) = off + j by omega] at later
    · have holds := gapless (j / bsize) ((div_mul_le_self j bsize).trans_lt below)
      rw [← written.outside j holds (by omega)]
      exact stores.outside j (by rw [writes.size]; omega) (by omega)
    · rw [stores.size, writes.size, if_neg (show d + k ≠ 0 by omega)]
      split <;> omega
  · by_cases readable : ∀ j < m, (data j).isSome
    · obtain ⟨j, below, none⟩ := broken
      have late : m ≤ j := by
        by_contra early
        simpa [none] using readable j (by omega)
      obtain ⟨i, inside, missing⟩ := rest.fault (room (all readable))
        ⟨j - m, by omega, by rwa [Nat.add_sub_cancel' late]⟩
      exact ⟨m + i, by omega, missing⟩
    · push Not at readable
      obtain ⟨j, below, none⟩ := readable
      exact ⟨j, by omega, by simpa using none⟩

end Advances

theorem filewriteLoop_spec (valid : sb.Valid) (memory : Memory)
    (cached : Nat → Bool) (addr : Nat) (count : Int) (fuel : Nat) :
    ∀ {s : State} {v : Volume} (i : Nat) (file : File), Settled sb ip n s v →
      count.toNat - i ≤ fuel → file.off < 2 ^ 32 →
      Ensures (fun halt => halt = .fs .outOfBlocks ∧
          (v.unmarked sb).card < 8 * chunks (count.toNat - i))
        (filewriteLoop sb me ip memory cached addr count fuel i file) s fun result t =>
          ∃ w k, Settled sb ip n t w ∧ result = (i + k, { file with off := file.off + k }) ∧
            Advances sb n file.off (count.toNat - i) (fun j => memory (addr + i + j)) v k w := by
  induction fuel with
  | zero =>
    intro s v i file settled short word
    rw [filewriteLoop, ensures_pure, le_zero.mp short]
    exact ⟨v, 0, settled, rfl, .stop sb n file.off 0 _ v fun _ => taken_zero file.off⟩
  | succ fuel ih =>
    intro s v i file settled short word
    rw [filewriteLoop]
    by_cases more : (i : Int) < count
    · rw [if_pos more, ensures_bind, ensures_inCall]
      have span := spanned_chunk_le file.off (count.toNat - i)
      have later := chunks_next (show 0 < count.toNat - i by omega)
      have small : min (count.toNat - i) writeMax < 2 ^ 32 :=
        (min_le_right ..).trans_lt (by decide)
      refine ((settled.chunk valid me _ small span).weaken ?_).mono ?_
      · rintro stop ⟨rfl, few⟩
        exact ⟨rfl, by omega⟩
      rintro r t ⟨refused, accepted⟩
      by_cases accepts : Accepts (v.node n).size.toNat file.off (min (count.toNat - i) writeMax)
      · obtain ⟨rfl, w, c, s', t', done, writes⟩ := accepted accepts
        have fits := accepts.2
        rw [maxfile_mul_bsize] at fits
        dsimp only
        rw [if_neg (not_not.mpr rfl), mod_eq_of_lt (by omega)]
        refine ((ih (i + min (count.toNat - i) writeMax)
          { file with off := file.off + min (count.toNat - i) writeMax } done (by
            have : 0 < writeMax := by decide
            omega) (by dsimp only; omega)).weaken ?_).mono ?_
        · rintro halt ⟨rfl, few⟩
          have := writes.free
          rw [← Nat.sub_sub] at few
          exact ⟨rfl, by omega⟩
        · rintro result u ⟨x, k, settled', rfl, rest⟩
          refine ⟨x, min (count.toNat - i) writeMax + k, settled', ?_, ?_⟩
          · simp only [add_assoc]
          have same : (fun j => memory (addr + (i + min (count.toNat - i) writeMax) + j)) =
              fun j => memory (addr + i + (min (count.toNat - i) writeMax + j)) :=
            funext fun j => congrArg memory (by omega)
          rw [same, ← Nat.sub_sub] at rest
          exact .next settled.gapless accepts writes rest (by omega)
      · obtain ⟨rfl, done⟩ := refused accepts
        rw [ensures_pure]
        exact ⟨v, 0, done, rfl, .stop sb n file.off _ _ v fun within =>
          taken_of_refused within accepts⟩
    · rw [if_neg more, ensures_pure, show count.toNat - i = 0 by omega]
      exact ⟨v, 0, settled, rfl, .stop sb n file.off 0 _ v fun _ => taken_zero file.off⟩

/-- The result and the offset tell what was stored. -/
structure Truthful (sb : Superblock) (n : Nat) (file : File) (memory : Memory)
    (addr : Nat) (count : Int) (v w : Volume) (reply : Reply) : Prop where
  result : 0 ≤ reply.r → reply.r = count ∧ reply.file.off = file.off + count.toNat ∧
    ∀ j < count.toNat, memory (addr + j) = some (w.byte sb n (file.off + j))
  advance : ∃ k, reply.file.off = file.off + k ∧
    Stores sb n file.off k (fun j => memory (addr + j)) v w
  within : file.off ≤ (v.node n).size.toNat → reply.file.off ≤ (w.node n).size.toNat

/-- How many bytes of a call are in chunks that `writei` takes on. -/
def reached (size off : Nat) (count : Int) : Nat :=
  if off ≤ size then taken off count.toNat else 0

theorem Advances.truthful_iff {file : File} {memory : Memory} {addr k : Nat} {count : Int}
    (advances : Advances sb n file.off count.toNat (fun j => memory (addr + j)) v k w) :
    Truthful sb n file memory addr count v w
        ⟨if (k : Int) = count then count else -1, { file with off := file.off + k }⟩ ↔
      ∀ j < reached (v.node n).size.toNat file.off count, (memory (addr + j)).isSome := by
  rcases le_or_gt file.off (v.node n).size.toNat with within | past
  · rw [reached, if_pos within]
    constructor
    · intro truthful j below
      by_contra unreadable
      obtain ⟨i, inside, none⟩ := advances.fault within ⟨j, below, by simpa using unreadable⟩
      obtain ⟨k', same, stores⟩ := truthful.advance
      have read := stores.inside i (by dsimp only at same; omega)
      rw [none] at read
      cases read
    · intro readable
      obtain ⟨_, stores⟩ := advances.stored within readable
      refine ⟨fun success => ?_, ⟨k, rfl, stores⟩, fun _ => ?_⟩
      · dsimp only at success ⊢
        split at success
        · rename_i all
          rw [if_pos all]
          obtain rfl : k = count.toNat := by omega
          exact ⟨rfl, rfl, stores.inside⟩
        · exact absurd success (by decide)
      · rw [stores.size]
        dsimp only
        split <;> omega
  · obtain ⟨rfl, rfl⟩ := advances.past past
    rw [reached, if_neg (not_le.mpr past)]
    refine iff_of_true ⟨fun success => ?_, ⟨0, rfl, .none ..⟩,
      fun within => absurd within (not_le.mpr past)⟩ nofun
    dsimp only at success ⊢
    split at success
    · rename_i all
      rw [if_pos all]
      obtain rfl : count = 0 := by omega
      exact ⟨rfl, rfl, nofun⟩
    · exact absurd success (by decide)

/-- `filewrite` of an inode tells the truth if every byte of the chunks that `writei` takes on can
be read, and not otherwise; it returns unless too few blocks are free. -/
theorem filewriteInode_truthful_iff (valid : sb.Valid) (settled : Settled sb ip n s v) {file : File}
    (writable : file.writable) (word : file.off < 2 ^ 32) (memory : Memory)
    (cached : Nat → Bool) (addr : Nat) (count : Int) :
    (∃ reply t w, filewriteInode sb me ip file memory cached addr count s = .ok (reply, t) ∧
      Settled sb ip n t w ∧
      (Truthful sb n file memory addr count v w reply ↔
        ∀ j < reached (v.node n).size.toNat file.off count, (memory (addr + j)).isSome)) ∨
    filewriteInode sb me ip file memory cached addr count s = .error (.fs .outOfBlocks) ∧
      (v.unmarked sb).card < 8 * chunks count.toNat := by
  have spec : Ensures _ (filewriteLoop sb me ip memory cached addr count count.toNat 0 file) s _ :=
    filewriteLoop_spec valid memory cached addr count count.toNat 0 file settled le_rfl word
  have unfolded : filewriteInode sb me ip file memory cached addr count =
      filewriteLoop sb me ip memory cached addr count count.toNat 0 file >>= fun result =>
        return ⟨if result.1 = count then count else -1, result.2⟩ := by
    rw [filewriteInode, if_pos writable]
  rw [unfolded]
  cases outcome : filewriteLoop sb me ip memory cached addr count count.toNat 0 file s with
  | error halt =>
    obtain ⟨rfl, few⟩ := spec.stops halt outcome
    exact .inr ⟨bind_of_error outcome, few⟩
  | ok pair =>
    obtain ⟨result, t⟩ := pair
    obtain ⟨w, k, done, rfl, advances⟩ := spec.returns result t outcome
    refine .inl ⟨_, t, w, bind_of_ok outcome, done, ?_⟩
    simp only [add_zero, zero_add, Nat.sub_zero] at advances ⊢
    exact advances.truthful_iff

theorem sample_settled : Settled sample firstSlot 2 (sampleState 0) sampleVolume where
  inv := sample_inv 0
  ref := (sample_open 0).ref
  inum := rfl
  unlocked := rfl
  unheld := rfl
  idle := rfl
  empty := rfl
  allocated := sample_allocated
  bounded := by
    rw [sampleVolume_node]
    decide
  gapless := sample_gapless

/-- Two readable bytes are written to the sample file. -/
theorem readable_bytes_truthful : ∃ reply t w,
    filewriteInode sample firstProc firstSlot openFile (fun _ => some 120) (fun _ => false) 4096 2
      (sampleState 0) = .ok (reply, t) ∧
      Truthful sample 2 openFile (fun _ => some 120) 4096 2 sampleVolume w reply := by
  rcases filewriteInode_truthful_iff sample_valid sample_settled (show openFile.writable from rfl)
    (by decide) (fun _ => some 120) (fun _ => false) 4096 2 with
    ⟨reply, t, w, done, _, truthful⟩ | ⟨_, full⟩
  · exact ⟨reply, t, w, done, truthful.mpr fun _ _ => rfl⟩
  · rw [sample_unmarked] at full
    exact absurd full (by decide)

/-- A write of two bytes that cannot be read, at the end of the sample file, returns 2 and moves the
offset past the size, which stays. -/
theorem unreadable_bytes_counted : ∃ reply t,
    filewriteInode sample firstProc firstSlot { openFile with off := 3 } (fun _ => none)
      (fun _ => false) 4096 2 (sampleState 0) = .ok (reply, t) ∧ reply.r = 2 ∧
      reply.file.off = 5 ∧ (t.inode firstSlot).node.size = 3 := by
  refine ⟨_, _, rfl, ?_, ?_, ?_⟩
  all_goals decide

end OsLab.Fs
