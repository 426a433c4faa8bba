import OsLab.Fs.Files

/-!
# Writing files

`writei` over a volume that owns its blocks.  The loop overwrites a stretch of one file, as far as
the source can be read, and leaves every other file alone; then the size grows to the end of what
was logged.  A copy that fails may leave bytes behind it in a buffer that is not logged.
-/

namespace OsLab.Fs

open Act Function Nat

variable {sb : Superblock} {s t u : State} {v w x : Volume} {stale torn : Set Nat} {ip : Slot}
  {n : Nat} {off : Nat}

/-- Byte `j` of the source, if it can be read. -/
def Source.byte : Source → Nat → Option Byte
  | .kernel bytes, j => some (bytes j)
  | .user memory _, j => memory j

theorem readable_succ (memory : Memory) (tot m : Nat) :
    readable memory tot (m + 1) =
      if (memory tot).isSome then readable memory (tot + 1) m + 1 else 0 := by
  rw [readable, List.range_succ_eq_map, List.takeWhile_cons, List.takeWhile_map, add_zero]
  split
  · rw [List.length_cons, List.length_map, readable]
    simp only [comp_def, succ_eq_add_one, add_assoc, add_comm 1]
  · rfl

theorem readable_spec (memory : Memory) (m : Nat) :
    ∀ tot, readable memory tot m ≤ m ∧ (∀ j < readable memory tot m, (memory (tot + j)).isSome) ∧
      (readable memory tot m < m → memory (tot + readable memory tot m) = none) := by
  induction m with
  | zero => exact fun tot => ⟨le_rfl, nofun, nofun⟩
  | succ m ih =>
    intro tot
    obtain ⟨le, some, none⟩ := ih (tot + 1)
    rw [readable_succ]
    split
    · rename_i here
      refine ⟨by omega, fun j below => ?_, fun short => ?_⟩
      · cases j with
        | zero => exact here
        | succ j =>
          rw [show tot + (j + 1) = tot + 1 + j by omega]
          exact some j (by omega)
      · rw [show tot + (readable memory (tot + 1) m + 1) =
          tot + 1 + readable memory (tot + 1) m by omega]
        exact none (by omega)
    · next fault => exact ⟨zero_le _, nofun, fun _ => by simpa using fault⟩

/-- A copy puts the bytes before the first fault into the buffer, or leaves it. -/
theorem eitherCopyin_spec (src : Source) (bp : Block) (start tot m : Nat) :
    ∃ d, d ≤ m ∧ (∀ j < d, (src.byte (tot + j)).isSome) ∧ (eitherCopyin src bp start tot m).2 =
        bp.splice start d (fun j => (src.byte (tot + j)).getD 0) ∧
      ((eitherCopyin src bp start tot m).1 = true → d = m) ∧
      ((eitherCopyin src bp start tot m).1 = false →
        ∃ j, d ≤ j ∧ j < m ∧ src.byte (tot + j) = none) := by
  cases src with
  | kernel bytes => exact ⟨m, le_rfl, fun _ _ => rfl, rfl, fun _ => rfl, nofun⟩
  | user memory cached =>
    obtain ⟨le, some, none⟩ := readable_spec memory m tot
    unfold eitherCopyin
    dsimp only [Source.byte]
    by_cases all : readable memory tot m = m
    · rw [if_pos all]
      exact ⟨m, le_rfl, all ▸ some, rfl, fun _ => rfl, nofun⟩
    rw [if_neg all]
    have short : readable memory tot m < m := lt_of_le_of_ne le all
    cases cached with
    | true =>
      exact ⟨readable memory tot m, le, some, rfl, nofun, fun _ =>
        ⟨_, le_rfl, short, none short⟩⟩
    | false =>
      refine ⟨0, zero_le m, nofun, ?_, nofun, fun _ =>
        ⟨_, zero_le _, short, none short⟩⟩
      funext i
      simp [Bytes.splice]

section Block

variable {bn a : Nat}

section

variable (sound : Sound sb v torn) (at_ : v.held sb (n, place bn) = a)
include sound at_

theorem Sound.held_write (block : Block) : (v.setBlock a block).held sb = v.held sb := by
  rw [← at_]
  exact Volume.held_setBlock (sound.notIndirect_place n bn) block

theorem Sound.byte_write (nonzero : a ≠ 0) (block : Block) (m j : Nat) :
    (v.setBlock a block).byte sb m j =
      if m = n ∧ j / bsize = bn then block.byteAt (j % bsize) else v.byte sb m j := by
  rw [Volume.byte, sound.held_write at_]
  split
  · rename_i same
    rw [same.1, same.2, at_]
    exact congrArg (Bytes.byteAt · (j % bsize)) (update_self ..)
  · rename_i other
    have apart : v.held sb (m, place (j / bsize)) ≠ a := by
      intro equal
      have once := sound.owned.once _ _ (at_.symm ▸ nonzero) (at_.trans equal.symm)
      exact other ⟨(congrArg Prod.fst once).symm, place_injective (congrArg Prod.snd once).symm⟩
    exact congrArg (Bytes.byteAt · (j % bsize)) (update_of_ne apart ..)

end

/-- The contents of a block of a torn file are written. -/
theorem Sound.write (sound : Sound sb v torn) (tearing : n ∈ torn)
    (at_ : v.held sb (n, place bn) = a) (nonzero : a ≠ 0) (block : Block) :
    Sound sb (v.setBlock a block) torn := by
  have held := sound.held_write at_ block
  refine ⟨held ▸ sound.owned, sound.reserved, fun m inside whole allocated => ?_⟩
  have file := sound.files m inside whole allocated
  refine ⟨file.bounded, fun bn below => held ▸ file.mapped bn below, fun dir k below => ?_⟩
  have same : (v.setBlock a block).dirent sb m k = v.dirent sb m k := by
    refine Volume.dirent_congr fun j short => ?_
    rw [sound.byte_write at_ nonzero, if_neg]
    rintro ⟨rfl, _⟩
    exact whole tearing
  rw [same]
  exact file.entries dir k below

theorem Inv.write (valid : sb.Valid) (inv : Inv sb s v stale torn) (tearing : n ∈ torn)
    (at_ : v.held sb (n, place bn) = a) (nonzero : a ≠ 0) {block : Block}
    (disk : t.disk = update s.disk a block) (inode : t.inode = s.inode) :
    Inv sb t (v.setBlock a block) stale torn := by
  refine ⟨?_, ?_, inv.sound.write tearing at_ nonzero block⟩
  · rw [disk]
    exact inv.disk.setBlock valid (at_ ▸ inv.sound.owned.pooled _ (at_.symm ▸ nonzero)) block
  · rw [inode]
    exact ⟨inv.cache.inside, inv.cache.distinct, inv.cache.node, inv.cache.loaded⟩

theorem Sound.carries_write (sound : Sound sb v torn) (at_ : v.held sb (n, place bn) = a)
    (nonzero : a ≠ 0) (block : Block) (inode : t.inode = s.inode) :
    Carries sb n s v t (v.setBlock a block) := by
  have held := sound.held_write at_ block
  refine ⟨.of_inode_eq inode, fun _ => rfl, fun p _ => by rw [held], fun m other =>
    ⟨rfl, fun k => by rw [held], fun j => ?_⟩⟩
  rw [sound.byte_write at_ nonzero, if_neg fun same => other same.1]

end Block

/-- Of file `n` the bytes from `off` on are those of the source, `d` of them, and the others are as
before where they had a block. -/
structure Written (sb : Superblock) (n off d : Nat) (data : Memory)
    (v w : Volume) : Prop where
  stored : ∀ j < d, data j = some (w.byte sb n (off + j))
  outside : ∀ j, v.held sb (n, place (j / bsize)) ≠ 0 → j < off ∨ off + d ≤ j →
    w.byte sb n j = v.byte sb n j

variable {data : Memory}

theorem Sound.written_block (sound : Sound sb v torn) {d a : Nat}
    (at_ : v.held sb (n, place (off / bsize)) = a) (nonzero : a ≠ 0)
    (some : ∀ j < d, (data j).isSome) (short : off % bsize + d ≤ bsize) : Written sb n off d data v
      (v.setBlock a ((v.block a).splice (off % bsize) d fun j => (data j).getD 0)) := by
  refine ⟨fun j below => ?_, fun j kept apart => ?_⟩
  · obtain ⟨quotient, remainder⟩ := div_mod_bsize (show off % bsize + j < bsize by omega)
    rw [sound.byte_write at_ nonzero, if_pos ⟨rfl, quotient⟩, remainder,
      Bytes.byteAt_splice _ _ _ _ (by omega), if_pos (by omega), Nat.add_sub_cancel_left]
    obtain ⟨byte, read⟩ := Option.isSome_iff_exists.mp (some j below)
    rw [read]
    rfl
  · rw [sound.byte_write at_ nonzero]
    split
    · rename_i same
      have here := div_add_mod j bsize
      have there := div_add_mod off bsize
      rw [same.2] at here
      rw [Bytes.byteAt_splice_outside _ _ (by omega), Volume.byte, same.2, at_]
    · rfl

theorem Written.append {m d : Nat} (first : Written sb n off m data v w)
    (carries : Carries sb n s v t w) (second : Written sb n (off + m) d (fun j => data (m + j)) w x)
    (mapped : ∀ j < m, w.held sb (n, place ((off + j) / bsize)) ≠ 0) :
    Written sb n off (m + d) data v x where
  stored j below := by
    by_cases early : j < m
    · rw [second.outside (off + j) (mapped j early) (by omega)]
      exact first.stored j early
    · have later := second.stored (j - m) (by omega)
      rwa [show m + (j - m) = j by omega, show off + m + (j - m) = off + j by omega] at later
  outside j holds apart := by
    rw [second.outside j ((carries.held _ holds).symm ▸ holds) (by omega),
      first.outside j holds (by omega)]

theorem Written.after {d : Nat} (keeps : Keeps sb n v w) (carries : Carries sb n s v t w)
    (written : Written sb n off d data w x) : Written sb n off d data v x where
  stored := written.stored
  outside j holds apart := by
    rw [written.outside j ((carries.held _ holds).symm ▸ holds) apart, keeps j holds]

/-- The number of blocks that `count` bytes from `off` on lie in. -/
def spanned (off count : Nat) : Nat :=
  if count = 0 then 0 else (off % bsize + count + (bsize - 1)) / bsize

theorem spanned_next {count m : Nat} (some : 0 < count)
    (amount : min count (bsize - off % bsize) = m) :
    spanned (off + m) (count - m) + 1 ≤ spanned off count := by
  unfold spanned
  simp only [bsize] at *
  rw [if_neg some.ne']
  split <;> omega

/-- What the loop of `writei` has done when it has logged `c` of `count` bytes. -/
structure Loops (sb : Superblock) (n : Nat) (stale torn : Set Nat) (off count : Nat)
    (data : Memory) (s : State) (v : Volume) (c : Nat) (t : State) (w : Volume) :
    Prop where
  inv : Inv sb t w stale torn
  carries : Carries sb n s v t w
  few : c ≤ count
  mapped : ∀ j < c, w.held sb (n, place ((off + j) / bsize)) ≠ 0
  written : ∃ d, c ≤ d ∧ d ≤ count ∧ Written sb n off d data v w
  fault : c < count → ∃ j, c ≤ j ∧ j < count ∧ data j = none
  uses : Uses sb (2 * spanned off count) (6 * spanned off count) s v t w
  logs : Logs (fun b => ∃ bn, off / bsize ≤ bn ∧ bn * bsize < off + count ∧
    Touches sb n v w bn b) s t

theorem Loops.done (inv : Inv sb s v stale torn) (n off : Nat) (data : Memory) :
    Loops sb n stale torn off 0 data s v 0 s v where
  inv := inv
  carries := .refl sb n s v
  few := le_rfl
  mapped := nofun
  written := ⟨0, le_rfl, le_rfl, nofun, fun _ _ _ => rfl⟩
  fault := nofun
  uses := .refl ..
  logs := .refl _ s

/-- One pass of the loop of `writei`: `d` bytes of the block have changed, and it may be logged. -/
structure Pass (sb : Superblock) (n : Nat) (stale torn : Set Nat) (off d : Nat)
    (data : Memory) (s : State) (v : Volume) (t : State) (w : Volume) : Prop where
  inv : Inv sb t w stale torn
  carries : Carries sb n s v t w
  holds : w.held sb (n, place (off / bsize)) ≠ 0
  written : Written sb n off d data v w
  uses : Uses sb 2 6 s v t w
  logs : Logs (Touches sb n v w (off / bsize)) s t

/-- A block is found and a stretch of it overwritten. -/
theorem Maps.pass (valid : sb.Valid) {d a : Nat} {allowed : Nat → Prop}
    (maps : Maps sb n (place (off / bsize)) stale torn 2 5 allowed s v a t w)
    (fine : ∀ b, allowed b → Touches sb n v w (off / bsize) b) (tearing : n ∈ torn)
    (some : ∀ j < d, (data j).isSome) (short : off % bsize + d ≤ bsize)
    (disk : u.disk = update t.disk a ((w.block a).splice (off % bsize) d fun j => (data j).getD 0))
    (inode : u.inode = t.inode) (logs : Logs (· = a) t u) (room : u.lhN ≤ s.lhN + 6) :
    Pass sb n stale torn off d data s v u
      (w.setBlock a ((w.block a).splice (off % bsize) d fun j => (data j).getD 0)) := by
  have sound := maps.inv.sound
  have held := sound.held_write maps.held
    ((w.block a).splice (off % bsize) d fun j => (data j).getD 0)
  have carries := sound.carries_write maps.held maps.nonzero
    ((w.block a).splice (off % bsize) d fun j => (data j).getD 0) inode
  have later : ∀ b, Touches sb n v w (off / bsize) b → Touches sb n v
      (w.setBlock a ((w.block a).splice (off % bsize) d fun j => (data j).getD 0))
      (off / bsize) b := fun b touches =>
    touches.mono (fun _ none => none) fun p _ => by rw [held]
  refine ⟨maps.inv.write valid tearing maps.held maps.nonzero disk inode,
    maps.carries.trans carries, ?_,
    .after maps.keeps maps.carries (sound.written_block maps.held maps.nonzero some short),
    ⟨maps.uses.free, room⟩, (maps.logs.mono fun b listed => later b (fine b listed)).trans
      (logs.mono fun b same => later b ?_)⟩
  · rw [held, maps.held]
    exact maps.nonzero
  · refine .inl ?_
    rw [maps.held]
    exact ⟨maps.nonzero, .inl same⟩

theorem Pass.loops {count m c : Nat} (pass : Pass sb n stale torn off m data s v t w)
    (within : off % bsize + m ≤ bsize) (le : m ≤ count) (some : 0 < count)
    (next : spanned (off + m) (count - m) + 1 ≤ spanned off count)
    (rest : Loops sb n stale torn (off + m) (count - m) (fun j => data (m + j)) t w c u x) :
    Loops sb n stale torn off count data s v (m + c) u x := by
  have block : ∀ j < m, (off + j) / bsize = off / bsize := fun j below =>
    (div_mod_bsize (by omega)).1
  have few := rest.few
  refine ⟨rest.inv, pass.carries.trans rest.carries, by omega, fun j below => ?_, ?_,
    fun short => ?_, (pass.uses.trans rest.uses).mono (by omega) (by omega), ?_⟩
  · by_cases early : j < m
    · rw [block j early, rest.carries.held _ pass.holds]
      exact pass.holds
    · have later := rest.mapped (j - m) (by omega)
      rwa [show off + m + (j - m) = off + j by omega] at later
  · obtain ⟨d, low, high, written⟩ := rest.written
    refine ⟨m + d, by omega, by omega, pass.written.append pass.carries written fun j early => ?_⟩
    rw [block j early]
    exact pass.holds
  · obtain ⟨j, low, high, none⟩ := rest.fault (by omega)
    exact ⟨m + j, by omega, by omega, none⟩
  · refine (pass.logs.mono fun b touches => ?_).trans (rest.logs.mono ?_)
    · have := div_mul_le_self off bsize
      exact ⟨off / bsize, le_rfl, by omega, touches.mono (fun _ none => none) rest.carries.held⟩
    · rintro b ⟨bn, low, high, touches⟩
      refine ⟨bn, ?_, by omega, touches.mono (fun _ => pass.carries.empty) fun _ _ => rfl⟩
      exact (Nat.div_le_div_right (by omega)).trans low

theorem Pass.stop {count d : Nat} (pass : Pass sb n stale torn off d data s v t w) {j : Nat}
    (late : d ≤ j) (inside : j < count) (positive : 1 ≤ spanned off count) (fault : data j = none) :
    Loops sb n stale torn off count data s v 0 t w where
  inv := pass.inv
  carries := pass.carries
  few := zero_le _
  mapped := nofun
  written := ⟨d, zero_le d, by omega, pass.written⟩
  fault _ := ⟨j, zero_le j, inside, fault⟩
  uses := pass.uses.mono (by omega) (by omega)
  logs := pass.logs.mono fun b touches => by
    have := div_mul_le_self off bsize
    exact ⟨off / bsize, le_rfl, by omega, touches⟩

theorem writeLoop_spec (valid : sb.Valid) (src : Source) (count fuel : Nat) (changing : n ∈ stale)
    (tearing : n ∈ torn) :
    ∀ {s : State} {v : Volume} (off tot : Nat), Inv sb s v stale torn → Open s ip n →
      (v.node n).type ≠ 0 → s.held = [] → count - tot ≤ fuel →
      off + (count - tot) ≤ maxfile * bsize →
      Ensures (Stops sb s v (2 * spanned off (count - tot)))
        (writeLoop sb ip src count fuel off tot)
        s fun off' t => ∃ w c, off' = off + c ∧
          Loops sb n stale torn off (count - tot) (fun j => src.byte (tot + j)) s v c t w := by
  induction fuel with
  | zero =>
    intro s v off tot inv _ _ _ short _
    rw [writeLoop, ensures_pure, le_zero.mp short]
    exact ⟨v, 0, rfl, .done inv n off _⟩
  | succ fuel ih =>
    intro s v off tot inv entry allocated unheld short bounded
    rw [writeLoop]
    by_cases more : tot < count
    · have rest : off % bsize < bsize := mod_lt off (by decide)
      have inFile : off / bsize < maxfile := Nat.div_lt_of_lt_mul (by
        rw [mul_comm]
        omega)
      generalize amount : min (count - tot) (bsize - off % bsize) = m
      have next := spanned_next (by omega) amount
      rw [if_pos more, ensures_bind]
      refine ((bmap_spec valid inv entry allocated changing unheld inFile).weaken
        fun stop stops => stops.mono (by omega)).mono ?_
      rintro a t ⟨w, maps⟩
      have area := maps.inv.sound.owned.pooled (n, place (off / bsize))
        (maps.held.symm ▸ maps.nonzero)
      rw [maps.held] at area
      have room : t.lhN ≤ s.lhN + 5 := maps.uses.room
      have unlocked : a ∉ t.held := by simp [maps.logs.held, unheld]
      rw [ensures_bind, ensures_bread unlocked, maps.inv.disk.block a area]
      obtain ⟨d, le, some, copied, whole, fault⟩ := eitherCopyin_spec src (w.block a)
        (off % bsize) tot m
      dsimp only
      split
      · rename_i success
        rw [ensures_bind]
        refine ensures_logWrite (fun stop stops =>
          .inr (stops.earlier maps.logs.outstanding (room.trans (by omega)))) ?_
        rw [ensures_bind, ensures_brelse rfl]
        obtain rfl := whole success
        have pass := maps.pass (u := { (State.setBlock { t with held := a :: t.held } a
            (eitherCopyin src (w.block a) (off % bsize) tot d).2) with
              held := t.held, logged := a :: t.logged })
          valid (fun b touches => touches) tearing some (by omega)
          (by rw [copied]; rfl) rfl (.one rfl rfl rfl rfl)
          ((lhN_cons (s := t) a rfl).trans (by omega))
        have later := ih (off + d) (tot + d) pass.inv (entry.keyed pass.carries.keyed)
          (pass.carries.type n ▸ allocated) (maps.logs.held.trans unheld) (by omega) (by omega)
        refine (later.weaken fun stop stops => stops.earlier pass.logs.outstanding pass.uses ?_
          ?_).mono ?_
        · rw [← Nat.sub_sub]
          omega
        · rw [← Nat.sub_sub]
          omega
        · rintro off' u ⟨x, c, rfl, loops⟩
          simp only [add_assoc tot, ← Nat.sub_sub] at loops
          exact ⟨x, d + c, add_assoc off d c,
            pass.loops (by omega) (by omega) (by omega) next loops⟩
      · rename_i failure
        obtain ⟨j, late, inside, none⟩ := fault (Bool.eq_false_iff.mpr failure)
        rw [leaveBuffer, ensures_bind, ensures_modify, ensures_bind, ensures_brelse rfl,
          ensures_pure]
        have pass := maps.pass (u := { (State.setBlock { t with held := a :: t.held } a
            (eitherCopyin src (w.block a) (off % bsize) tot m).2) with held := t.held })
          valid (fun b touches => touches) tearing some (by omega)
          (by rw [copied]; rfl) rfl ⟨rfl, rfl, [], rfl, nofun⟩
          (room.trans (by omega))
        exact ⟨_, 0, rfl, pass.stop late (by omega) (by omega) none⟩
    · rw [if_neg more, ensures_pure, show count - tot = 0 by omega]
      exact ⟨v, 0, rfl, .done inv n off _⟩

/-- `writei` takes these offsets and counts. -/
def Accepts (size off count : Nat) : Prop := off ≤ size ∧ off + count ≤ maxfile * bsize

instance (size off count : Nat) : Decidable (Accepts size off count) :=
  inferInstanceAs (Decidable (_ ∧ _))

variable {count : Nat}

/-- Other offsets and counts are refused without a change. -/
theorem writei_refuses {src : Source} (word : count < 2 ^ 32)
    (outside : ¬ Accepts (s.inode ip).node.size.toNat off count) :
    writei sb ip src off count s = .ok (none, s) := by
  have limit : (s.inode ip).node.size.toNat < 2 ^ 32 := BitVec.isLt _
  rw [writei, bind_of_ok (show inode ip s = .ok (s.inode ip, s) from rfl)]
  unfold Accepts at outside
  have large : maxfile * bsize < 2 ^ 32 := by decide
  generalize maxfile * bsize = most at *
  split
  · rfl
  · rw [if_pos (by omega)]
    rfl

theorem Sound.resize (sound : Sound sb v torn) (tearing : n ∈ torn) {node : Dinode}
    (addrs : node.addrs = (v.node n).addrs) (type : node.type = (v.node n).type) :
    Sound sb (v.setNode n node) torn := by
  have held : (v.setNode n node).held sb = v.held sb :=
    Volume.held_setNode_same addrs (by rw [type])
  refine ⟨held ▸ sound.owned, sound.reserved, fun m inside whole allocated => ?_⟩
  have same : (v.setNode n node).node m = v.node m :=
    update_of_ne (by rintro rfl; exact whole tearing) ..
  rw [same] at allocated ⊢
  have file := sound.files m inside whole allocated
  refine ⟨file.bounded, fun bn below => held ▸ file.mapped bn below, fun dir k below => ?_⟩
  rw [same] at dir
  have entries : (v.setNode n node).dirent sb m k = v.dirent sb m k :=
    Volume.dirent_congr fun j _ => by simp only [Volume.byte, held]; rfl
  rw [entries]
  exact file.entries dir k below

/-- The size becomes `off` if that is larger. -/
def Dinode.reach (off : Nat) (node : Dinode) : Dinode :=
  if node.size.toNat < off then { node with size := .ofNat 32 off } else node

theorem Dinode.reach_eq (off : Nat) (node : Dinode) :
    node.reach off = { node with size := (node.reach off).size } := by
  unfold reach
  split <;> rfl

theorem Dinode.size_reach (node : Dinode) (word : off < 2 ^ 32) :
    (node.reach off).size.toNat = max node.size.toNat off := by
  unfold reach
  split
  · rw [BitVec.toNat_ofNat, mod_eq_of_lt word]
    omega
  · omega

/-- The blocks that a write of `count` bytes at `off` may log. -/
def MayLog (sb : Superblock) (n off count : Nat) (v w : Volume) (b : Nat) : Prop :=
  (∃ bn, off / bsize ≤ bn ∧ bn * bsize < off + count ∧ Touches sb n v w bn b) ∨ b = sb.iblock n

/-- What `writei` of `count` bytes has done when it has logged `c` of them. -/
structure Writes (sb : Superblock) (n : Nat) (stale torn : Set Nat) (off count : Nat)
    (data : Memory) (s : State) (v : Volume) (c : Nat) (t : State) (w : Volume) :
    Prop where
  inv : Inv sb t w stale torn
  keyed : Keyed s t
  node : w.node n = { v.node n with addrs := (w.node n).addrs, size := (w.node n).size }
  size : (w.node n).size.toNat = max (v.node n).size.toNat (off + c)
  held : ∀ p, v.held sb p ≠ 0 → w.held sb p = v.held sb p
  others : ∀ m, m ≠ n → w.node m = v.node m ∧ (∀ k, w.held sb (m, k) = v.held sb (m, k)) ∧
    ∀ j, w.byte sb m j = v.byte sb m j
  few : c ≤ count
  mapped : ∀ j < c, w.held sb (n, place ((off + j) / bsize)) ≠ 0
  written : ∃ d, c ≤ d ∧ d ≤ count ∧ Written sb n off d data v w
  fault : c < count → ∃ j, c ≤ j ∧ j < count ∧ data j = none
  free : (v.unmarked sb).card ≤ (w.unmarked sb).card + 2 * spanned off count
  logs : Logs (MayLog sb n off count v w) s t

theorem writei_spec (valid : sb.Valid) (src : Source) (inv : Inv sb s v stale torn)
    (entry : Open s ip n) (allocated : (v.node n).type ≠ 0) (clean : n ∉ stale) (tearing : n ∈ torn)
    (unheld : s.held = []) (accepts : Accepts (v.node n).size.toNat off count) :
    Ensures (Stops sb s v (2 * spanned off count)) (writei sb ip src off count) s fun r t =>
      r = some count ∧ ∃ w c, Writes sb n stale torn off count src.byte s v c t w := by
  have large : maxfile * bsize < 2 ^ 32 := by decide
  obtain ⟨within, bounded⟩ := accepts
  have node := inv.open_node entry
  rw [writei, ensures_bind, ensures_inode, node, mod_eq_of_lt (by omega), if_neg (by omega),
    if_neg (by omega), ensures_bind]
  have changing : Inv sb s v (insert n stale) torn :=
    inv.relax (Set.subset_insert n stale) le_rfl
  have loop := writeLoop_spec valid src count count (Set.mem_insert n stale) tearing off 0
    changing entry allocated unheld le_rfl bounded
  simp only [Nat.sub_zero, zero_add] at loop
  by_cases some : 0 < count
  · refine loop.mono ?_
    rintro off' t ⟨w, c, rfl, loops⟩
    have few := loops.few
    have open' := entry.keyed loops.carries.keyed
    rw [if_pos some, ensures_bind, ensures_setNode, ensures_bind]
    have addrs : ((w.node n).reach (off + c)).addrs = (w.node n).addrs := by
      rw [Dinode.reach_eq]
    have type : ((w.node n).reach (off + c)).type = (w.node n).type := by rw [Dinode.reach_eq]
    have resized := loops.inv.setNode open' (Dinode.reach (off + c))
      (absurd tearing ·) (loops.inv.sound.resize tearing addrs type)
    have held : (w.setNode n ((w.node n).reach (off + c))).held sb = w.held sb :=
      Volume.held_setNode_same addrs (by rw [type])
    have bytes : ∀ m j, (w.setNode n ((w.node n).reach (off + c))).byte sb m j = w.byte sb m j := by
      intro m j
      rw [Volume.byte, held]
      rfl
    rw [Set.insert_eq_of_mem (Set.mem_insert n stale)] at resized
    have keyed := keyed_setNode t ip (Dinode.reach (off + c))
    have update : Ensures (Stops sb s v (2 * spanned off count)) (iupdate sb ip) _ _ :=
      iupdate_spec valid resized (open'.keyed keyed) (loops.logs.held.trans unheld)
        fun stop stops =>
          .inr (stops.earlier loops.logs.outstanding (loops.uses.room.trans (by omega)))
    refine update.mono ?_
    rintro _ u ⟨stored, inode, logs⟩
    rw [ensures_pure]
    have same : (w.setNode n ((w.node n).reach (off + c))).node n = (w.node n).reach (off + c) :=
      update_self ..
    refine ⟨rfl, w.setNode n ((w.node n).reach (off + c)), c, ?_⟩
    rw [Set.insert_sdiff_self_of_notMem clean] at stored
    refine ⟨stored, ?_, ?_, ?_, ?_, fun m other => ?_, few, ?_, ?_, loops.fault, loops.uses.free,
      ?_⟩
    · exact (loops.carries.keyed.trans keyed).trans (.of_inode_eq inode)
    · rw [same, Dinode.reach_eq, loops.carries.node n]
    · rw [same, Dinode.size_reach _ (by omega), loops.carries.size n]
    · rw [held]
      exact loops.carries.held
    · obtain ⟨node, places, contents⟩ := loops.carries.others m other
      exact ⟨(update_of_ne other ..).trans node, fun k => by rw [held, places k],
        fun j => by rw [bytes, contents]⟩
    · rw [held]
      exact loops.mapped
    · obtain ⟨d, low, high, written⟩ := loops.written
      exact ⟨d, low, high, fun j below => by rw [bytes]; exact written.stored j below,
        fun j holds apart => by rw [bytes]; exact written.outside j holds apart⟩
    · refine (loops.logs.mono ?_).trans ⟨logs.held, logs.outstanding,
        (logs.mono fun b same => .inr same).logged⟩
      rintro b ⟨bn, low, high, touches⟩
      exact .inl ⟨bn, low, high, touches.mono (fun _ none => none) fun p _ => by rw [held]⟩
  · obtain rfl : count = 0 := by omega
    rw [writeLoop, ensures_pure, if_neg some, ensures_pure]
    refine ⟨rfl, v, 0, inv, .refl s, rfl, by omega, fun _ _ => rfl,
      fun _ _ => ⟨rfl, fun _ => rfl, fun _ => rfl⟩, le_rfl, by simp,
      ⟨0, le_rfl, le_rfl, by simp, fun _ _ _ => rfl⟩, by simp, Nat.le_add_right .., .refl _ s⟩

end OsLab.Fs
