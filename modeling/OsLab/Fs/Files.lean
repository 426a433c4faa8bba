import OsLab.Fs.Blocks

/-!
# Blocks of files

`bmap` over a volume that owns its blocks.  A block that is mapped is found without a change; a
missing one is added in its place, and nothing that was held before moves.
-/

namespace OsLab.Fs

open Act Function

variable {sb : Superblock} {s t u : State} {v w x : Volume} {stale torn : Set Nat} {ip : Slot}
  {n : Nat}

section

variable (inv : Inv sb s v stale torn)
include inv

theorem Inv.congr {t : State} (disk : t.disk = s.disk) (inode : t.inode = s.inode) :
    Inv sb t v stale torn :=
  ⟨disk ▸ inv.disk, inode ▸ inv.cache, inv.sound⟩

theorem Inv.relax {moreStale moreTorn : Set Nat} (old : stale ⊆ moreStale)
    (apart : torn ⊆ moreTorn) : Inv sb s v moreStale moreTorn :=
  ⟨⟨inv.disk.used, inv.disk.block, fun m below fresh =>
      inv.disk.clean m below fun listed => fresh (old listed)⟩,
    inv.cache.relax apart, inv.sound.relax apart⟩

theorem Inv.pointer (entry : Open s ip n) (allocated : (v.node n).type ≠ 0) (k : Nat) :
    (s.inode ip).node.pointer s.disk k = v.held sb (n, k) := by
  have inside := inv.open_inside entry
  rw [inv.open_node entry, Volume.held_of_allocated v inside allocated]
  unfold Dinode.pointer
  split
  · rfl
  refine if_ctx_congr .rfl (fun far => ?_) fun _ => rfl
  have pointer : v.held sb (n, ndirect) = ((v.node n).addrs indirect).toNat :=
    Volume.held_addr v inside allocated indirect
  have holds : v.held sb (n, ndirect) ≠ 0 := fun zero =>
    far.1 (BitVec.eq_of_toNat_eq (pointer.symm.trans zero))
  rw [← pointer, inv.disk.block _ (inv.sound.owned.pooled _ holds)]

end

/-- Inode `n` may gain blocks: what was held stays, and other inodes are untouched. -/
structure Carries (sb : Superblock) (n : Nat) (s : State) (v : Volume) (t : State) (w : Volume) :
    Prop where
  keyed : Keyed s t
  node : ∀ m, w.node m = { v.node m with addrs := (w.node m).addrs }
  held : ∀ p, v.held sb p ≠ 0 → w.held sb p = v.held sb p
  others : ∀ m, m ≠ n → w.node m = v.node m ∧ (∀ k, w.held sb (m, k) = v.held sb (m, k)) ∧
    ∀ j, w.byte sb m j = v.byte sb m j

namespace Carries

theorem refl (sb : Superblock) (n : Nat) (s : State) (v : Volume) : Carries sb n s v s v :=
  ⟨.refl s, fun _ => rfl, fun _ _ => rfl, fun _ _ => ⟨rfl, fun _ => rfl, fun _ => rfl⟩⟩

theorem trans (first : Carries sb n s v t w) (second : Carries sb n t w u x) :
    Carries sb n s v u x where
  keyed := first.keyed.trans second.keyed
  node m := by rw [second.node m, first.node m]
  held p holds := by
    have before := first.held p holds
    rw [second.held p (before ▸ holds), before]
  others m other := by
    obtain ⟨node, held, byte⟩ := first.others m other
    obtain ⟨node', held', byte'⟩ := second.others m other
    exact ⟨node'.trans node, fun k => (held' k).trans (held k), fun j => (byte' j).trans (byte j)⟩

section

variable (carries : Carries sb n s v t w)
include carries

theorem type (m : Nat) : (w.node m).type = (v.node m).type := by
  rw [carries.node m]

theorem size (m : Nat) : (w.node m).size = (v.node m).size := by
  rw [carries.node m]

theorem empty {p : Nat × Nat} (none : w.held sb p = 0) : v.held sb p = 0 := by
  by_contra holds
  exact holds ((carries.held p holds).symm.trans none)

end

end Carries

/-- The bytes of inode `n` that have a block stay. -/
def Keeps (sb : Superblock) (n : Nat) (v w : Volume) : Prop :=
  ∀ j, v.held sb (n, place (j / bsize)) ≠ 0 → w.byte sb n j = v.byte sb n j

theorem Keeps.trans (first : Keeps sb n v w) (carries : Carries sb n s v t w)
    (second : Keeps sb n w x) : Keeps sb n v x := by
  intro j holds
  rw [second j ((carries.held _ holds).symm ▸ holds), first j holds]

theorem Grown.keeps (grown : Grown sb v w) (n : Nat) : Keeps sb n v w := by
  intro j holds
  rw [Volume.byte, grown.held _ holds, grown.block n _ holds, Volume.byte]

theorem Grown.carries (grown : Grown sb v w) (keyed : Keyed s t)
    (node : ∀ m, m ≠ n → w.node m = v.node m)
    (places : ∀ m k, m ≠ n → w.held sb (m, k) = v.held sb (m, k)) (first : w.block 0 = v.block 0) :
    Carries sb n s v t w := by
  refine ⟨keyed, grown.node, grown.held, fun m other => ⟨node m other, fun k => places m k other,
    fun j => ?_⟩⟩
  by_cases holds : v.held sb (m, place (j / bsize)) = 0
  · rw [Volume.byte, places m _ other, holds, first, Volume.byte, holds]
  · exact grown.keeps m j holds

/-- Place `k` of inode `n` holds block `a`, which may have been added. -/
structure Maps (sb : Superblock) (n k : Nat) (stale torn : Set Nat) (budget entries : Nat)
    (allowed : Nat → Prop) (s : State) (v : Volume) (a : Nat) (t : State) (w : Volume) : Prop where
  inv : Inv sb t w stale torn
  carries : Carries sb n s v t w
  keeps : Keeps sb n v w
  held : w.held sb (n, k) = a
  nonzero : a ≠ 0
  uses : Uses sb budget entries s v t w
  logs : Logs allowed s t

section

variable (valid : sb.Valid) (inv : Inv sb s v stale torn) (entry : Open s ip n)
  (allocated : (v.node n).type ≠ 0)
include valid inv entry allocated

theorem bmapAddr_spec (changing : n ∈ stale) (unheld : s.held = []) (k : Fin (ndirect + 1)) :
    Ensures (Stops sb s v 1) (bmapAddr sb ip k) s fun a t => ∃ w,
      Maps sb n k stale torn 1 2 (fun b => v.held sb (n, k) = 0 ∧ (b = a ∨ b = sb.bblock a))
        s v a t w := by
  have inside := inv.open_inside entry
  have node := inv.open_node entry
  have pointer := Volume.held_addr v inside allocated k
  rw [bmapAddr, ensures_bind, ensures_inode, node]
  split
  · rename_i none
    rw [ensures_bind]
    refine (balloc_spec valid inv.disk inv.sound (by simp [unheld])).mono fun b t got => ?_
    simp only [ensures_bind, ensures_setNode, ensures_pure]
    have word : (BitVec.ofNat 32 b).toNat = b := by
      rw [BitVec.toNat_ofNat, Nat.mod_eq_of_lt (got.area.2.trans valid.word)]
    have nonzero : b ≠ 0 := by
      rintro rfl
      exact valid.not_inData_zero got.area
    have plain := inv.sound.notIndirect_of_unmarked got.unmarked
    have before : ((v.mark b true).setBlock b fun _ => 0).held sb = v.held sb :=
      Volume.held_setBlock plain _
    have held : (((v.mark b true).setBlock b fun _ => 0).setNode n { v.node n with
        addrs := update (v.node n).addrs k (.ofNat 32 b) }).held sb =
        update (v.held sb) (n, k.val) b := by
      by_cases last : k = indirect
      · subst last
        refine (Volume.held_setNode_indirect
          (v := (v.mark b true).setBlock b fun _ => 0) inside allocated none ?_).trans ?_
        · simp [Volume.setBlock, word]
        · rw [before, word]
          rfl
      · refine (Volume.held_setNode_direct
          (v := (v.mark b true).setBlock b fun _ => 0) inside allocated last _).trans ?_
        rw [before, word]
    have empty : v.held sb (n, k.val) = 0 := by rw [pointer, none]; rfl
    have nodes : ∀ m, m ≠ n → (((v.mark b true).setBlock b fun _ => 0).setNode n { v.node n with
        addrs := update (v.node n).addrs k (.ofNat 32 b) }).node m = v.node m :=
      fun m other => update_of_ne other ..
    obtain ⟨sound, grown⟩ := inv.sound.take (w := ((v.mark b true).setBlock b
      fun _ => 0).setNode n { v.node n with
        addrs := update (v.node n).addrs k (.ofNat 32 b) }) got.area got.unmarked empty
      rfl held
      (fun m => by
        by_cases here : m = n
        · subst here
          simp [Volume.setNode]
        · rw [nodes m here])
      (fun m bn holds => by
        have other := inv.sound.owned.ne_of_unmarked got.unmarked holds
        simp [Volume.setNode, Volume.setBlock, Volume.mark, other])
    refine ⟨_, ⟨?_, ?_, sound⟩, grown.carries ?_ nodes (fun m j other => ?_) ?_, grown.keeps n, ?_,
      nonzero, ⟨Volume.card_unmarked_of_mark rfl, got.room⟩, ?_⟩
    · have stored := got.disk.setStale n { v.node n with
        addrs := update (v.node n).addrs k (.ofNat 32 b) }
      rwa [Set.insert_eq_of_mem changing] at stored
    · have live : 0 < (t.inode ip).ref := got.inode ▸ entry.ref
      have cached : Cached sb t.inode ((v.mark b true).setBlock b fun _ => 0) torn := by
        rw [got.inode]
        exact ⟨inv.cache.inside, inv.cache.distinct, inv.cache.node, inv.cache.loaded⟩
      have later := cached.setNode live { v.node n with
        addrs := update (v.node n).addrs k (.ofNat 32 b) } fun _ => allocated
      have inum : (t.inode ip).inum = n := got.inode ▸ entry.inum
      have node' : (t.inode ip).node = v.node n := got.inode ▸ node
      rw [inum] at later
      simpa only [State.setInode, node', inum] using later
    · exact (Keyed.of_inode_eq got.inode).trans (keyed_setNode t ip fun node =>
          { node with addrs := update node.addrs k (.ofNat 32 b) })
    · rw [held, update_of_ne (by simp [other])]
    · exact update_of_ne nonzero.symm ..
    · rw [held, update_self]
    · exact ⟨got.logs.held, got.logs.outstanding,
        (got.logs.mono fun c fine => ⟨empty, fine⟩).logged⟩
  · rename_i some
    have nonzero : ((v.node n).addrs k).toNat ≠ 0 := fun zero =>
      some (BitVec.eq_of_toNat_eq zero)
    exact (ensures_pure ..).2 ⟨v, inv, .refl sb n s v, fun _ _ => rfl, pointer, nonzero,
      .refl .., .refl _ s⟩

theorem bmapEntry_spec (unheld : s.held = []) (has : v.held sb (n, ndirect) ≠ 0) {j : Nat}
    (bounded : j < nindirect) :
    Ensures (Stops sb s v 1) (bmapEntry sb (v.held sb (n, ndirect)) j) s fun a t => ∃ w,
      Maps sb n (ndirect + 1 + j) stale torn 1 3
        (fun b => v.held sb (n, ndirect + 1 + j) = 0 ∧ (b = a ∨ b = sb.bblock a) ∨
          b = v.held sb (n, ndirect)) s v a t w ∧
      w.held sb (n, ndirect) = v.held sb (n, ndirect) := by
  have inside := inv.open_inside entry
  have pointer : v.held sb (n, ndirect) = ((v.node n).addrs indirect).toNat :=
    Volume.held_addr v inside allocated indirect
  have address : (v.node n).addrs indirect ≠ 0 := fun zero => has (by rw [pointer, zero]; rfl)
  have area := inv.sound.owned.pooled _ has
  have marked := inv.sound.owned.marked _ has
  have contents : s.disk (v.held sb (n, ndirect)) = v.block (v.held sb (n, ndirect)) :=
    inv.disk.block _ area
  have place : v.held sb (n, ndirect + 1 + j) = entryAt (v.block (v.held sb (n, ndirect))) j := by
    rw [Volume.held_of_allocated v inside allocated, Dinode.pointer, dif_neg (by omega),
      if_pos ⟨address, by omega⟩, ← pointer, Nat.add_sub_cancel_left]
  have unlocked : v.held sb (n, ndirect) ∉ s.held := by simp [unheld]
  rw [bmapEntry, ensures_bind, ensures_bread unlocked, contents, ← place]
  split
  · rename_i none
    rw [ensures_bind]
    have locks : ∀ c ∈ v.held sb (n, ndirect) :: s.held, sb.InData c ∧ v.used c = true := by
      intro c listed
      rw [unheld, List.mem_singleton] at listed
      exact listed ▸ ⟨area, marked⟩
    refine (balloc_spec (s := { s with held := v.held sb (n, ndirect) :: s.held }) valid inv.disk
      inv.sound locks).mono fun b t got => ?_
    rw [ensures_bind]
    have count := got.logs.outstanding
    have room : t.lhN ≤ s.lhN + 2 := got.room
    refine ensures_logWrite (fun stop stops => .inr (stops.earlier count (by omega))) ?_
    rw [ensures_bind]
    refine (ensures_brelse (by exact got.logs.held) _).2 ?_
    rw [ensures_pure]
    have nonzero : b ≠ 0 := by
      rintro rfl
      exact valid.not_inData_zero got.area
    have apart : v.held sb (n, ndirect) ≠ b := inv.sound.owned.ne_of_unmarked got.unmarked has
    have plain := inv.sound.notIndirect_of_unmarked got.unmarked
    have before : ((v.mark b true).setBlock b fun _ => 0).held sb = v.held sb :=
      Volume.held_setBlock plain _
    have same : ((v.mark b true).setBlock b fun _ => 0).block (v.held sb (n, ndirect)) =
        v.block (v.held sb (n, ndirect)) := update_of_ne apart ..
    have held : (((v.mark b true).setBlock b fun _ => 0).setBlock (v.held sb (n, ndirect))
        ((v.block (v.held sb (n, ndirect))).putLE (4 * j) 4 b)).held sb =
        update (v.held sb) (n, ndirect + 1 + j) b := by
      have stored := Volume.held_setBlock_entry (v := (v.mark b true).setBlock b fun _ => 0)
        (before ▸ inv.sound.owned.once) inside allocated address bounded
        (got.area.2.trans valid.word)
      rwa [before, show (((v.mark b true).setBlock b fun _ => 0).node n).addrs indirect =
        (v.node n).addrs indirect from rfl, ← pointer, same] at stored
    obtain ⟨sound, grown⟩ := inv.sound.take (w := ((v.mark b true).setBlock b
      fun _ => 0).setBlock (v.held sb (n, ndirect))
        ((v.block (v.held sb (n, ndirect))).putLE (4 * j) 4 b)) got.area got.unmarked none
      rfl held (fun m => rfl)
      (fun m bn holds => by
        have other := inv.sound.owned.ne_of_unmarked got.unmarked holds
        have data : v.held sb (m, Fs.place bn) ≠ v.held sb (n, ndirect) := fun equal =>
          inv.sound.notIndirect_place m bn n has equal.symm
        simp [Volume.setBlock, Volume.mark, other, data])
    refine ⟨_, ⟨⟨?_, ?_, sound⟩, grown.carries (Keyed.of_inode_eq got.inode) (fun _ _ => rfl)
      (fun m i other => ?_) ?_, grown.keeps n, ?_, nonzero, ⟨Volume.card_unmarked_of_mark rfl, ?_⟩,
      ?_⟩, ?_⟩
    · exact got.disk.setBlock valid area _
    · have cached : Cached sb t.inode v torn := got.inode ▸ inv.cache
      exact ⟨cached.inside, cached.distinct, cached.node, cached.loaded⟩
    · rw [held, update_of_ne (by simp [other])]
    · exact (update_of_ne has.symm ..).trans (update_of_ne nonzero.symm ..)
    · rw [held, update_self]
    · exact (lhN_cons (s := t) _ rfl).trans (by omega)
    · obtain ⟨new, logged, fine⟩ := got.logs.logged
      refine ⟨rfl, count, v.held sb (n, ndirect) :: new, ?_, fun c listed => ?_⟩
      · exact congrArg (v.held sb (n, ndirect) :: ·) logged
      · rcases List.mem_cons.mp listed with rfl | later
        · exact .inr rfl
        · exact .inl ⟨none, fine c later⟩
    · have slot : (n, ndirect) ≠ (n, ndirect + 1 + j) := fun same => by
        have := congrArg Prod.snd same
        dsimp only at this
        omega
      rw [held, update_of_ne slot]
  · rename_i some
    rw [ensures_bind, ensures_brelse rfl, ensures_pure]
    exact ⟨v, ⟨inv, .refl sb n s v, fun _ _ => rfl, rfl, some, .refl .., .refl _ s⟩,
      rfl⟩

end

/-- Block `b` is block `bn` of inode `n`, the block of the free map for it if it was added, or the
indirect block or the block of the free map for that. -/
def Touches (sb : Superblock) (n : Nat) (v w : Volume) (bn b : Nat) : Prop :=
  w.held sb (n, place bn) ≠ 0 ∧ (b = w.held sb (n, place bn) ∨
      v.held sb (n, place bn) = 0 ∧ b = sb.bblock (w.held sb (n, place bn))) ∨
    w.held sb (n, ndirect) ≠ 0 ∧
      (b = w.held sb (n, ndirect) ∨ b = sb.bblock (w.held sb (n, ndirect)))

/-- What is touched between two volumes is touched between an earlier and a later one. -/
theorem Touches.mono {v' w' : Volume} {bn b : Nat} (touches : Touches sb n v w bn b)
    (before : ∀ p, v.held sb p = 0 → v'.held sb p = 0)
    (after : ∀ p, w.held sb p ≠ 0 → w'.held sb p = w.held sb p) : Touches sb n v' w' bn b := by
  rcases touches with ⟨holds, data⟩ | ⟨holds, pointer⟩
  · refine .inl ?_
    rw [after _ holds]
    exact ⟨holds, data.imp_right fun added => ⟨before _ added.1, added.2⟩⟩
  · refine .inr ?_
    rw [after _ holds]
    exact ⟨holds, pointer⟩

/-- `bmap` finds or adds block `bn` of the inode. -/
theorem bmap_spec (valid : sb.Valid) (inv : Inv sb s v stale torn) (entry : Open s ip n)
    (allocated : (v.node n).type ≠ 0) (changing : n ∈ stale) (unheld : s.held = []) {bn : Nat}
    (bounded : bn < maxfile) :
    Ensures (Stops sb s v 2) (bmap sb ip bn) s fun a t => ∃ w,
      Maps sb n (place bn) stale torn 2 5 (Touches sb n v w bn) s v a t w := by
  unfold bmap
  split
  · rename_i direct
    have slot : place bn = bn := if_pos direct
    refine ((bmapAddr_spec valid inv entry allocated changing unheld
      ⟨bn, by omega⟩).weaken fun stop stops => stops.mono (by omega)).mono ?_
    rintro a t ⟨w, maps⟩
    have held : w.held sb (n, place bn) = a := by
      rw [slot]
      exact maps.held
    refine ⟨w, maps.inv, maps.carries, maps.keeps, held, maps.nonzero,
      maps.uses.mono (by omega) (by omega), maps.logs.mono fun b fine => .inl ?_⟩
    rw [held, slot]
    exact ⟨maps.nonzero, fine.2.imp_right fun map => ⟨fine.1, map⟩⟩
  · rename_i far
    have entries : bn - ndirect < nindirect := by
      simp only [maxfile] at bounded
      omega
    have slot : place bn = ndirect + 1 + (bn - ndirect) := by
      rw [place, if_neg far]
      omega
    rw [if_pos entries, ensures_bind]
    refine ((bmapAddr_spec valid inv entry allocated changing unheld
      indirect).weaken fun stop stops => stops.mono (by omega)).mono ?_
    rintro a t ⟨w, first⟩
    have pointer : w.held sb (n, ndirect) = a := first.held
    have second := bmapEntry_spec valid first.inv (entry.keyed first.carries.keyed)
      (first.carries.type n ▸ allocated) (first.logs.held.trans unheld)
      (pointer ▸ first.nonzero) entries
    rw [pointer] at second
    refine (second.weaken fun stop stops =>
      stops.earlier first.logs.outstanding first.uses le_rfl (by omega)).mono ?_
    rintro c u ⟨x, maps, same⟩
    refine ⟨x, maps.inv, first.carries.trans maps.carries,
      first.keeps.trans first.carries maps.keeps, slot ▸ maps.held, maps.nonzero,
      first.uses.trans maps.uses, ?_⟩
    · have early : ∀ b, v.held sb (n, indirect.val) = 0 ∧ (b = a ∨ b = sb.bblock a) →
          Touches sb n v x bn b := by
        intro b fine
        refine .inr ?_
        rw [same]
        exact ⟨first.nonzero, fine.2⟩
      refine (first.logs.mono early).trans (maps.logs.mono fun b fine => ?_)
      · rcases fine with ⟨added, data⟩ | map
        · refine .inl ?_
          rw [slot, maps.held]
          exact ⟨maps.nonzero, data.imp_right fun map => ⟨first.carries.empty added, map⟩⟩
        · refine .inr ?_
          rw [same]
          exact ⟨first.nonzero, .inl map⟩

end OsLab.Fs
