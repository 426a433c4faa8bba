import OsLab.Fs.Volume

/-!
# Blocks and inodes keep the volume sound

The disk and the inode cache represent a volume.  While an inode is being changed its copy on
disk may be stale, and while a file is taken apart it need not be in order.  Every function of
the block and inode layers is specified by what it does to the volume.
-/

namespace OsLab.Fs

open Act Function

/-- Stops other than the two that ownership rules out. -/
def Benign (stop : Stop) : Prop := stop ≠ .freeingFreeBlock ∧ stop ≠ .bmapOutOfRange

/-- The disk agrees with the volume, but for stale inodes. -/
structure OnDisk (sb : Superblock) (disk : Nat → Block) (v : Volume) (stale : Set Nat) : Prop where
  used : ∀ b, b < sb.size → (volumeOf sb disk).used b = v.used b
  block : ∀ b, sb.InData b → disk b = v.block b
  clean : ∀ n, n < sb.ninodes → n ∉ stale → (volumeOf sb disk).node n = v.node n

/-- The referenced entries of the inode cache are of distinct inodes, and the valid ones hold the
inodes of the volume. -/
structure Cached (sb : Superblock) (cache : Slot → Inode) (v : Volume) (torn : Set Nat) : Prop where
  inside : ∀ ip, 0 < (cache ip).ref → (cache ip).inum < sb.ninodes
  distinct : ∀ ip jp, 0 < (cache ip).ref → 0 < (cache jp).ref →
    (cache ip).inum = (cache jp).inum → ip = jp
  node : ∀ ip, 0 < (cache ip).ref → (cache ip).valid = true →
    (cache ip).node = v.node (cache ip).inum
  loaded : ∀ ip, 0 < (cache ip).ref → (cache ip).valid = true → (cache ip).inum ∉ torn →
    (v.node (cache ip).inum).type ≠ 0

/-- Disk and cache represent a sound volume. -/
structure Inv (sb : Superblock) (s : State) (v : Volume) (stale torn : Set Nat) : Prop where
  disk : OnDisk sb s.disk v stale
  cache : Cached sb s.inode v torn
  sound : Sound sb v torn

/-- The entry is referenced and holds inode `n`. -/
structure Open (s : State) (ip : Slot) (n : Nat) : Prop where
  ref : 0 < (s.inode ip).ref
  valid : (s.inode ip).valid = true
  inum : (s.inode ip).inum = n

attribute [local simp] State.setInode

theorem setInode_inode {s : State} {ip : Slot} {change : Inode → Inode} :
    (s.setInode ip change).inode = update s.inode ip (change (s.inode ip)) := rfl

/-- Only the contents of inodes have changed in the cache. -/
structure Keyed (s t : State) : Prop where
  ref : ∀ ip, (t.inode ip).ref = (s.inode ip).ref
  inum : ∀ ip, (t.inode ip).inum = (s.inode ip).inum
  valid : ∀ ip, (t.inode ip).valid = (s.inode ip).valid

namespace Keyed

variable {s t u : State}

theorem refl (s : State) : Keyed s s := ⟨fun _ => rfl, fun _ => rfl, fun _ => rfl⟩

theorem of_inode_eq (same : t.inode = s.inode) : Keyed s t := by
  constructor <;> intros <;> rw [same]

theorem trans (first : Keyed s t) (second : Keyed t u) : Keyed s u where
  ref ip := (second.ref ip).trans (first.ref ip)
  inum ip := (second.inum ip).trans (first.inum ip)
  valid ip := (second.valid ip).trans (first.valid ip)

theorem setInode (s : State) (ip : Slot) {change : Inode → Inode}
    (ref : ∀ i, (change i).ref = i.ref) (inum : ∀ i, (change i).inum = i.inum)
    (valid : ∀ i, (change i).valid = i.valid) : Keyed s (s.setInode ip change) := by
  constructor
  all_goals
    intro jp
    by_cases same : jp = ip
    · subst same
      simp [ref, inum, valid]
    · simp [same]

end Keyed

/-- Entries that are referenced stay those of their inodes. -/
structure Stays (s t : State) : Prop where
  inum : ∀ ip, 0 < (s.inode ip).ref → (t.inode ip).inum = (s.inode ip).inum
  valid : ∀ ip, 0 < (s.inode ip).ref → (s.inode ip).valid = true → (t.inode ip).valid = true

theorem Keyed.stays {s t : State} (keyed : Keyed s t) : Stays s t :=
  ⟨fun ip _ => keyed.inum ip, fun ip _ valid => (keyed.valid ip).trans valid⟩

theorem Open.keyed {s t : State} {ip : Slot} {n : Nat} (entry : Open s ip n) (keyed : Keyed s t) :
    Open t ip n where
  ref := (keyed.ref ip).symm ▸ entry.ref
  valid := (keyed.valid ip).trans entry.valid
  inum := (keyed.inum ip).trans entry.inum

namespace Inv

variable {sb : Superblock} {s : State} {v : Volume} {stale torn : Set Nat} {ip : Slot} {n : Nat}

theorem open_inside (inv : Inv sb s v stale torn) (entry : Open s ip n) : n < sb.ninodes :=
  entry.inum ▸ inv.cache.inside ip entry.ref

theorem open_node (inv : Inv sb s v stale torn) (entry : Open s ip n) :
    (s.inode ip).node = v.node n :=
  entry.inum ▸ inv.cache.node ip entry.ref entry.valid

end Inv

section Steps

variable {α : Type} {safe : Stop → Prop} {s : State} {b : Nat}

theorem benign_bread {post : Block → State → Prop}
    (holds : post (s.disk b) { s with held := b :: s.held }) : Ensures Benign (bread b) s post := by
  simp only [bread, ensures_bind, ensures_get]
  split
  · exact (ensures_throw ..).2 (by simp [Benign])
  · simpa using holds

variable {post : Unit → State → Prop}

theorem benign_brelse (holds : post () { s with held := s.held.erase b }) :
    Ensures Benign (brelse b) s post := by
  simp only [brelse, ensures_bind, ensures_get]
  split
  · simpa using holds
  · exact (ensures_throw ..).2 (by simp [Benign])

@[simp]
theorem ensures_inode (ip : Slot) (post : Inode → State → Prop) :
    Ensures safe (inode ip) s post ↔ post (s.inode ip) s :=
  ensures_of_ok rfl

@[simp]
theorem ensures_setInode (ip : Slot) (change : Inode → Inode) (post : Unit → State → Prop) :
    Ensures safe (setInode ip change) s post ↔ post () (s.setInode ip change) :=
  ensures_of_ok rfl

@[simp]
theorem ensures_setNode (ip : Slot) (change : Dinode → Dinode) (post : Unit → State → Prop) :
    Ensures safe (setNode ip change) s post ↔
      post () (s.setInode ip fun i => { i with node := change i.node }) :=
  ensures_of_ok rfl

end Steps

/-- A block of the free map in which one bit is written. -/
theorem volumeOf_used_setBit {sb : Superblock} {disk : Nat → Block} {b : Nat} {block : Block}
    {flag : Bool} (bits : ∀ bi, isFree block bi =
      if bi = b % bpb then !flag else isFree (disk (sb.bblock b)) bi) (c : Nat) :
    (volumeOf sb (update disk (sb.bblock b) block)).used c =
      if c = b then flag else (volumeOf sb disk).used c := by
  simp only [volumeOf]
  by_cases same : sb.bblock c = sb.bblock b
  · rw [same, update_self, bits]
    have quotient : c / bpb = b / bpb := by simpa [Superblock.bblock] using same
    have offset : c % bpb = b % bpb ↔ c = b := by
      refine ⟨fun offset => ?_, fun equal => by rw [equal]⟩
      rw [← Nat.div_add_mod c bpb, ← Nat.div_add_mod b bpb, quotient, offset]
    simp only [offset]
    split <;> simp
  · have other : c ≠ b := by
      rintro rfl
      exact same rfl
    rw [update_of_ne same, if_neg other]

namespace OnDisk

variable {sb : Superblock} {disk : Nat → Block} {v : Volume} {stale : Set Nat}

section

variable (onDisk : OnDisk sb disk v stale)
include onDisk

theorem setBlock (valid : sb.Valid) {b : Nat} (area : sb.InData b) (block : Block) :
    OnDisk sb (update disk b block) (v.setBlock b block) stale where
  used c inside := by
    rw [show (v.setBlock b block).used = v.used from rfl, ← onDisk.used c inside]
    simp only [volumeOf, update_of_ne (valid.bblock_ne_data inside area)]
  block c inData := by
    simp only [Volume.setBlock, update_apply]
    split
    · rfl
    · exact onDisk.block c inData
  clean m inside fresh := by
    rw [show (v.setBlock b block).node = v.node from rfl, ← onDisk.clean m inside fresh]
    simp only [volumeOf, update_of_ne (valid.iblock_ne_data inside area)]

theorem setBit (valid : sb.Valid) {b : Nat}
    (inside : b < sb.size) (block : Block) (flag : Bool)
    (bits : ∀ bi, isFree block bi =
      if bi = b % bpb then !flag else isFree (disk (sb.bblock b)) bi) :
    OnDisk sb (update disk (sb.bblock b) block) (v.mark b flag) stale where
  used c below := by
    rw [volumeOf_used_setBit bits, Volume.mark]
    simp only [update_apply]
    split
    · rfl
    · exact onDisk.used c below
  block c inData := by
    rw [update_of_ne (valid.bblock_ne_data inside inData).symm]
    exact onDisk.block c inData
  clean m below fresh := by
    rw [show (v.mark b flag).node = v.node from rfl, ← onDisk.clean m below fresh]
    simp only [volumeOf, update_of_ne (valid.iblock_ne_bblock below)]

theorem setNode (valid : sb.Valid) {n : Nat} (inside : n < sb.ninodes) (node : Dinode) :
    OnDisk sb (update disk (sb.iblock n) (node.store (disk (sb.iblock n)) (n % ipb)))
      (v.setNode n node) (stale \ {n}) where
  used c below := by
    rw [show (v.setNode n node).used = v.used from rfl, ← onDisk.used c below]
    simp only [volumeOf, update_of_ne (valid.iblock_ne_bblock inside).symm]
  block c inData := by
    rw [update_of_ne (valid.iblock_ne_data inside inData).symm]
    exact onDisk.block c inData
  clean m below fresh := by
    simp only [volumeOf, Volume.setNode, sb.load_store]
    rw [update_apply]
    split
    · rfl
    · next equal => exact onDisk.clean m below fun old => fresh ⟨old, equal⟩

/-- Agreement with a volume whose inodes differ in a stale one only. -/
theorem setStale (n : Nat) (node : Dinode) :
    OnDisk sb disk (v.setNode n node) (insert n stale) where
  used := onDisk.used
  block := onDisk.block
  clean m below fresh := by
    rw [Set.mem_insert_iff, not_or] at fresh
    rw [onDisk.clean m below fresh.2]
    exact (update_of_ne fresh.1 ..).symm

end

end OnDisk

theorem Volume.setNode_self (v : Volume) (n : Nat) : v.setNode n (v.node n) = v := by
  simp [Volume.setNode]

namespace Cached

variable {sb : Superblock} {cache other : Slot → Inode} {v : Volume} {torn : Set Nat}

section

variable (cached : Cached sb cache v torn)
include cached

theorem mono
    (same : ∀ jp, 0 < (other jp).ref → 0 < (cache jp).ref ∧ (other jp).inum = (cache jp).inum ∧
      ((other jp).valid = true → (cache jp).valid = true ∧ (other jp).node = (cache jp).node)) :
    Cached sb other v torn where
  inside jp live := (same jp live).2.1 ▸ cached.inside jp (same jp live).1
  distinct jp kp live live' agree := by
    rw [(same jp live).2.1, (same kp live').2.1] at agree
    exact cached.distinct jp kp (same jp live).1 (same kp live').1 agree
  node jp live valid := by
    obtain ⟨before, inum, fields⟩ := same jp live
    rw [(fields valid).2, inum]
    exact cached.node jp before (fields valid).1
  loaded jp live valid whole := by
    obtain ⟨before, inum, fields⟩ := same jp live
    rw [inum] at whole ⊢
    exact cached.loaded jp before (fields valid).1 whole

theorem relax {more : Set Nat} (le : torn ⊆ more) : Cached sb cache v more :=
  ⟨cached.inside, cached.distinct, cached.node,
    fun ip live valid whole => cached.loaded ip live valid fun old => whole (le old)⟩

section

variable {ip : Slot} (live : 0 < (cache ip).ref)
include live

theorem set {i : Inode} {w : Volume} (inum : i.inum = (cache ip).inum)
    (others : ∀ m, m ≠ (cache ip).inum → w.node m = v.node m) (node : i.node = w.node i.inum)
    (type : i.inum ∉ torn → (w.node i.inum).type ≠ 0) : Cached sb (update cache ip i) w torn := by
  have key : ∀ jp, 0 < (update cache ip i jp).ref →
      0 < (cache jp).ref ∧ (update cache ip i jp).inum = (cache jp).inum := fun jp =>
    update_cases rfl jp (fun _ => ⟨live, inum⟩) fun jp _ live => ⟨live, rfl⟩
  have same : ∀ jp, jp ≠ ip → 0 < (cache jp).ref →
      w.node (cache jp).inum = v.node (cache jp).inum := fun jp other live' =>
    others _ fun agree => other (cached.distinct jp ip live' live agree)
  refine ⟨fun jp live' => ?_, fun jp kp live' live'' agree => ?_, fun jp =>
    update_cases rfl jp (fun _ _ => node) fun jp other live' valid => ?_, fun jp =>
    update_cases rfl jp (fun _ _ => type) fun jp other live' valid whole => ?_⟩
  · rw [(key jp live').2]
    exact cached.inside jp (key jp live').1
  · rw [(key jp live').2, (key kp live'').2] at agree
    exact cached.distinct jp kp (key jp live').1 (key kp live'').1 agree
  · rw [same jp other live']
    exact cached.node jp live' valid
  · rw [same jp other live']
    exact cached.loaded jp live' valid whole

theorem setNode (node : Dinode) (type : (cache ip).inum ∉ torn → node.type ≠ 0) :
    Cached sb (update cache ip { cache ip with node := node })
      (v.setNode (cache ip).inum node) torn :=
  cached.set live rfl (fun _ other => update_of_ne other ..) (by simp [Volume.setNode])
    fun whole => by simpa [Volume.setNode] using type whole

theorem fill {i : Inode} (inum : i.inum = (cache ip).inum) (node : i.node = v.node i.inum)
    (type : i.node.type ≠ 0) : Cached sb (update cache ip i) v torn :=
  cached.set live inum (fun _ _ => rfl) node fun _ => node ▸ type

end

end

end Cached

section Entries

variable {sb : Superblock} {s : State} {v : Volume} {stale torn : Set Nat} {ip : Slot} {n : Nat}

theorem Inv.setNode (inv : Inv sb s v stale torn) (entry : Open s ip n) (change : Dinode → Dinode)
    (type : n ∉ torn → (change (v.node n)).type ≠ 0)
    (sound : Sound sb (v.setNode n (change (v.node n))) torn) :
    Inv sb (s.setInode ip fun i => { i with node := change i.node })
      (v.setNode n (change (v.node n))) (insert n stale) torn := by
  have node := inv.open_node entry
  refine ⟨inv.disk.setStale n _, ?_, sound⟩
  have cached := inv.cache.setNode entry.ref (change (v.node n)) (by rwa [entry.inum])
  rw [entry.inum, ← node] at cached
  rw [← node]
  exact cached

theorem keyed_setNode (s : State) (ip : Slot) (change : Dinode → Dinode) :
    Keyed s (s.setInode ip fun i => { i with node := change i.node }) :=
  Keyed.setInode s ip (fun _ => rfl) (fun _ => rfl) fun _ => rfl

theorem Inv.setLock (inv : Inv sb s v stale torn) (holder : Option Pslot) :
    Inv sb (s.setInode ip fun i => { i with lock := holder }) v stale torn := by
  refine ⟨inv.disk, inv.cache.mono fun jp => ?_, inv.sound⟩
  exact update_cases setInode_inode jp (fun live => ⟨live, rfl, fun valid => ⟨valid, rfl⟩⟩)
    fun _ _ live => ⟨live, rfl, fun valid => ⟨valid, rfl⟩⟩

theorem keyed_setLock (s : State) (ip : Slot) (holder : Option Pslot) :
    Keyed s (s.setInode ip fun i => { i with lock := holder }) :=
  Keyed.setInode s ip (fun _ => rfl) (fun _ => rfl) fun _ => rfl

theorem acquiresleep_spec {me : Pslot} (inv : Inv sb s v stale torn) :
    Ensures Benign (acquiresleep me ip) s fun _ t =>
      Inv sb t v stale torn ∧ Keyed s t ∧ t.disk = s.disk := by
  rw [acquiresleep, ensures_bind, ensures_inode]
  split
  · exact (ensures_setInode ..).2 ⟨inv.setLock _, keyed_setLock s ip _, rfl⟩
  · exact (ensures_throw ..).2 (by simp [Benign])

/-- `ilock` of an entry whose inode is not stale fills it. -/
theorem ilock_spec {me : Pslot} (inv : Inv sb s v stale torn) (clean : (s.inode ip).inum ∉ stale) :
    Ensures Benign (ilock sb me ip) s fun _ t =>
      Open t ip (s.inode ip).inum ∧ Stays s t ∧ t.disk = s.disk ∧ Inv sb t v stale torn := by
  rw [ilock, ensures_bind, ensures_inode]
  split
  · exact (ensures_throw ..).2 (by simp [Benign])
  rename_i live
  replace live : 0 < (s.inode ip).ref := by omega
  rw [ensures_bind]
  refine (acquiresleep_spec inv).mono fun _ t ⟨locked, keyed, disk⟩ => ?_
  have live' : 0 < (t.inode ip).ref := (keyed.ref ip).symm ▸ live
  split
  · rename_i valid
    refine (ensures_pure ..).2 ⟨⟨live', ?_, keyed.inum ip⟩, keyed.stays, disk, locked⟩
    rw [keyed.valid, valid]
  simp only [ensures_bind]
  refine benign_bread (benign_brelse ((ensures_setInode ..).2 ?_))
  dsimp only
  split
  · exact (ensures_throw ..).2 (by simp [Benign])
  rename_i typed
  have inside : (s.inode ip).inum < sb.ninodes := inv.cache.inside ip live
  have loaded := locked.disk.clean _ inside clean
  refine (ensures_pure ..).2 ⟨⟨?_, ?_, ?_⟩, ⟨fun jp live => ?_, fun jp live valid => ?_⟩, disk,
    locked.disk, ?_, locked.sound⟩
  · simpa using live'
  · simp
  · simpa using keyed.inum ip
  · exact update_cases setInode_inode jp (keyed.inum ip) fun jp _ => keyed.inum jp
  · revert valid
    exact update_cases setInode_inode jp (fun _ => rfl) fun jp _ => (keyed.valid jp).trans
  · refine locked.cache.fill live' rfl ?_ typed
    rw [keyed.inum ip]
    exact loaded

end Entries

end OsLab.Fs
