import OsLab.Mkfs.Append

/-!
# The image that `mkfs` writes

After each file of the command line the image represents a volume with the root directory and the
files so far.  `mkfs` ends by `exit(0)` if and only if no name is improper, no file too long and the
image large enough; the results here are for up to 208 inodes.
-/

namespace OsLab.Mkfs

open Fs Act Function List

def Input.bytes (file : Input) : List Byte :=
  (file.chunks.getD []).flatMap fun chunk => chunk.val

/-- The entries of the root directory. -/
def entriesOf (files : List Input) : List (Nat × Name) :=
  (rootino, [dot]) :: (rootino, [dot, dot]) :: files.mapIdx fun i file => (i + 2, file.name)

def entryBytes (entries : List (Nat × Name)) : List Byte :=
  entries.flatMap fun entry => direntBytes entry.1 entry.2

def contentsOf (files : List Input) (n : Nat) : List Byte :=
  if n = rootino then entryBytes (entriesOf files)
  else if n < 2 then []
  else (files.map Input.bytes).getD (n - 2) []

def typeOf (files : List Input) (n : Nat) : BitVec 16 :=
  if n = rootino then tDir else if 2 ≤ n ∧ n < files.length + 2 then tFile else 0

/-- The number of data blocks that the files and the root directory take. -/
def total (files : List Input) : Nat :=
  need (direntSize * (files.length + 2)) + (files.map fun file => need file.bytes.length).sum

/-- The files can be opened, have proper names, and fit into the image. -/
structure Fits (files : List Input) : Prop where
  proper : ∀ file ∈ files, slash ∉ file.shortname
  opened : ∀ file ∈ files, file.chunks ≠ none
  inodes : files.length + 2 ≤ area.ninodes
  short : ∀ file ∈ files, file.bytes.length ≤ maxfile * bsize
  blocks : nmeta + total files ≤ fssize

theorem length_direntBytes (inum : Nat) (name : Name) :
    (direntBytes inum name).length = direntSize := by simp [direntBytes]

theorem length_entryBytes (entries : List (Nat × Name)) :
    (entryBytes entries).length = direntSize * entries.length := by
  induction entries with
  | nil => rfl
  | cons entry rest ih =>
    rw [entryBytes, flatMap_cons, length_append, length_direntBytes, ← entryBytes, ih, length_cons]
    ring

theorem length_entriesOf (files : List Input) : (entriesOf files).length = files.length + 2 := by
  simp [entriesOf]

theorem entriesOf_concat (files : List Input) (file : Input) :
    entriesOf (files ++ [file]) = entriesOf files ++ [(files.length + 2, file.name)] := by
  simp [entriesOf, mapIdx_append]

theorem length_contentsOf_root (files : List Input) :
    (contentsOf files rootino).length = direntSize * (files.length + 2) := by
  rw [contentsOf, if_pos rfl, length_entryBytes, length_entriesOf]

variable {files : List Input}

theorem contentsOf_unused {n : Nat} (above : files.length + 2 ≤ n) : contentsOf files n = [] := by
  have other : n ≠ rootino := by
    simp only [rootino]
    omega
  rw [contentsOf, if_neg other, if_neg (by omega)]
  simp [List.getElem?_eq_none (show (files.map Input.bytes).length ≤ n - 2 by
    rw [length_map]; omega)]

theorem contentsOf_concat (files : List Input) (file : Input) :
    contentsOf (files ++ [file]) = update (update (contentsOf files) rootino
          (contentsOf files rootino ++ direntBytes (files.length + 2) file.name))
        (files.length + 2) file.bytes := by
  funext n
  rcases eq_or_ne n (files.length + 2) with rfl | other
  · have differ : files.length + 2 ≠ rootino := by
      simp only [rootino]
      omega
    rw [update_self, contentsOf, if_neg differ, if_neg (by omega)]
    simp
  · rw [update_of_ne other]
    rcases eq_or_ne n rootino with rfl | differ
    · rw [update_self, contentsOf, if_pos rfl, contentsOf, if_pos rfl, entriesOf_concat]
      simp [entryBytes]
    rw [update_of_ne differ, contentsOf, contentsOf, if_neg differ, if_neg differ]
    by_cases low : n < 2
    · rw [if_pos low, if_pos low]
    rw [if_neg low, if_neg low, map_append]
    simp only [getD_eq_getElem?_getD]
    rcases lt_or_ge (n - 2) (files.map Input.bytes).length with below | above
    · rw [List.getElem?_append_left below]
    have past : (files.map Input.bytes ++ [file].map Input.bytes).length ≤ n - 2 := by
      simp only [length_append, length_map, length_singleton] at above ⊢
      omega
    rw [List.getElem?_eq_none above, List.getElem?_eq_none past]

theorem total_concat (files : List Input) (file : Input) :
    total (files ++ [file]) + need (direntSize * (files.length + 2)) =
      total files + need (direntSize * (files.length + 3)) + need file.bytes.length := by
  simp only [total, length_append, length_singleton, map_append, sum_append,
    map_singleton, sum_singleton, add_right_comm _ 1 2]
  omega

theorem total_le_append (files more : List Input) : total files ≤ total (files ++ more) := by
  unfold total
  rw [map_append, sum_append, length_append]
  have entries : need (direntSize * (files.length + 2)) ≤
      need (direntSize * (files.length + more.length + 2)) :=
    need_mono (Nat.mul_le_mul_left _ (by omega))
  omega

variable {safe : Exit → Prop} {t : Image} {v : Volume} {n : Nat} {contents : Nat → List Byte}

theorem Overflows.mono {freeblock later len count more : Nat}
    (past : Overflows later (len + count) more)
    (grows : later + need len = freeblock + need (len + count)) :
    Overflows freeblock len (count + more) := by
  unfold Overflows at *
  rw [← add_assoc]
  omega

theorem appendAll_spec (inside : n < area.ninodes) (chunks : List Chunk) :
    ∀ {t : Image} {v : Volume} {contents : Nat → List Byte}, Wrote t v contents →
      (v.node n).type ≠ 0 →
      Ensures (fun _ => Overflows t.freeblock (contents n).length
          (chunks.flatMap fun chunk => chunk.val).length) (appendAll n chunks) t fun _ u =>
        ∃ w, Appended t v n contents (chunks.flatMap fun chunk => chunk.val) u w := by
  induction chunks with
  | nil =>
    intro t v contents wrote allocated
    refine (ensures_pure ..).mpr ⟨v, ?_, fun _ _ => rfl, rfl, .refl t, rfl⟩
    simpa [update_eq_self] using wrote
  | cons chunk rest ih =>
    intro t v contents wrote allocated
    rw [appendAll, ensures_bind]
    simp only [flatMap_cons, length_append]
    refine ((iappend_spec wrote inside allocated chunk.val).mono
      fun _ u ⟨w, first⟩ => ?_).weaken fun stop past => ?_
    · unfold Overflows at past ⊢
      have more := need_mono (show (contents n).length + chunk.val.length ≤ (contents n).length +
        (chunk.val.length + (rest.flatMap fun chunk => chunk.val).length) by omega)
      omega
    · have type : (w.node n).type ≠ 0 := by
        rw [first.fields]
        exact allocated
      refine ((ih first.wrote type).mono fun _ u' ⟨w', second⟩ => ?_).weaken fun stop past => ?_
      · rw [update_self, length_append] at past
        exact past.mono first.grows
      have wrote' := second.wrote
      have grows := second.grows
      simp only [update_self, update_idem, append_assoc, length_append] at wrote' grows
      refine ⟨w', wrote', fun m other => (second.others m other).trans (first.others m other),
        ?_, first.kept.trans second.kept, ?_⟩
      · rw [second.fields, first.fields]
      · have before := first.grows
        rw [length_append, ← add_assoc]
        omega

theorem ialloc_spec (wrote : Wrote t v contents) (inside : t.freeinode < area.ninodes)
    (blank : v.node t.freeinode = .fresh 0) {type : BitVec 16} :
    Ensures safe (ialloc type) t fun inum u =>
      inum = t.freeinode ∧ u.freeinode = t.freeinode + 1 ∧ u.inums = t.freeinode :: t.inums ∧
        u.freeblock = t.freeblock ∧
        Wrote u (v.setNode t.freeinode { Dinode.fresh type with nlink := 1 }) contents := by
  simp only [ialloc, ensures_bind, ensures_get, ensures_modify]
  have unheld : ∀ k, v.held area (t.freeinode, k) = 0 := fun k =>
    if_neg fun allocated => allocated.2 (by rw [blank]; rfl)
  have held : (v.setNode t.freeinode { Dinode.fresh type with nlink := 1 }).held area =
      v.held area := Volume.held_setNode_empty (fun _ => rfl) unheld
  have shows : Shows { t with freeinode := t.freeinode + 1 }
      (v.setNode t.freeinode { Dinode.fresh type with nlink := 1 }) {t.freeinode} :=
    ⟨wrote.shows.count, wrote.shows.block, fun m below other =>
      (wrote.shows.node m below id).trans (update_of_ne other ..).symm,
      wrote.shows.header, wrote.shows.inodeBlocks⟩
  have empty : (contents t.freeinode).length = 0 := by
    rw [← wrote.sizes _ inside, blank]
    rfl
  refine (winode_spec shows subset_rfl inside (update_self ..)).mono fun _ u stored => ?_
  obtain ⟨shows', kept, freeblock⟩ := stored
  rw [ensures_pure]
  refine ⟨rfl, kept.freeinode, by rw [kept.inums], freeblock, ⟨⟨shows'.count, shows'.block,
    shows'.node, shows'.header, shows'.inodeBlocks⟩, ?_, ?_, ?_, fun m below => ?_,
    wrote.bounded⟩⟩
  · exact freeblock ▸ wrote.placed.congr held fun _ _ => rfl
  · intro m j mapped
    rw [held] at mapped
    rw [Volume.byte, held]
    exact wrote.filled m j mapped
  · exact freeblock ▸ wrote.room
  · rcases eq_or_ne m t.freeinode with rfl | other
    · rw [empty]
      simp [Volume.setNode, Dinode.fresh]
    · simp only [Volume.setNode, update_of_ne other]
      exact wrote.sizes m below

/-- The root directory and these files have been written. -/
structure Built (t : Image) (v : Volume) (files : List Input) : Prop where
  wrote : Wrote t v (contentsOf files)
  freeinode : t.freeinode = files.length + 2
  inums : t.inums = ((List.range (files.length + 1)).map (· + 1)).reverse
  freeblock : t.freeblock = nmeta + total files
  type : ∀ m, m < area.ninodes → (v.node m).type = typeOf files m
  blank : ∀ m, m < area.ninodes → typeOf files m = 0 → v.node m = .fresh 0

theorem root_inside : rootino < area.ninodes := by decide

theorem typeOf_root (files : List Input) : typeOf files rootino = tDir := if_pos rfl

theorem ne_root {m : Nat} (none : typeOf files m = 0) : m ≠ rootino := by
  rintro rfl
  rw [typeOf_root] at none
  exact absurd none (by decide)

theorem typeOf_unused (files : List Input) : typeOf files (files.length + 2) = 0 := by
  have other : files.length + 2 ≠ rootino := by
    simp only [rootino]
    omega
  rw [typeOf, if_neg other, if_neg (by omega)]

theorem typeOf_concat (files : List Input) (file : Input) :
    typeOf (files ++ [file]) = update (typeOf files) (files.length + 2) tFile := by
  funext m
  rcases eq_or_ne m (files.length + 2) with rfl | other
  · have differ : files.length + 2 ≠ rootino := by
      simp only [rootino]
      omega
    rw [update_self, typeOf, if_neg differ, if_pos (by simp)]
  · rw [update_of_ne other, typeOf, typeOf, length_append, length_singleton]
    refine if_congr .rfl rfl (if_congr ?_ rfl rfl)
    omega

theorem addFile_spec (refused : Prop) (built : Built t v files) {file : Input} {chunks : List Chunk}
    (opened : file.chunks = some chunks) (inside : files.length + 2 < area.ninodes) {α : Type}
    {rest : MkfsM α} {post : α → Image → Prop}
    (next : ∀ u w, Built u w (files ++ [file]) → Ensures (fun _ => refused) rest u post)
    (exceeds : maxfile * bsize < file.bytes.length ∨ fssize < nmeta + total (files ++ [file]) →
      refused) :
    Ensures (fun _ => refused) (do
      let inum ← ialloc tFile
      iappend rootino (direntBytes inum file.name)
      appendAll inum chunks
      rest) t post := by
  have root : (v.node rootino).type ≠ 0 := by
    rw [built.type _ (by decide), typeOf_root]
    decide
  have bytes : file.bytes = chunks.flatMap fun chunk => chunk.val := by
    rw [Input.bytes, opened, Option.getD_some]
  have differ : files.length + 2 ≠ rootino := by
    simp only [rootino]
    omega
  have length := length_contentsOf_root files
  have count := total_concat files file
  have three : direntSize * (files.length + 2) + direntSize = direntSize * (files.length + 3) := by
    simp only [direntSize]
    omega
  rw [ensures_bind]
  refine (ialloc_spec built.wrote (by rw [built.freeinode]; exact inside) (by
    rw [built.freeinode]
    exact built.blank _ inside (typeOf_unused files))).mono
    fun inum u made => ?_
  obtain ⟨number, freeinode, inums, freeblock, wrote⟩ := made
  rw [built.freeinode] at number wrote freeinode inums
  subst number
  have node : ∀ m, m ≠ files.length + 2 → (v.setNode (files.length + 2)
      { Dinode.fresh tFile with nlink := 1 }).node m = v.node m := fun m other =>
    update_of_ne other ..
  rw [ensures_bind]
  refine ((iappend_spec wrote (by decide) (by rw [node _ differ.symm]; exact root)
    (direntBytes (files.length + 2) file.name)).mono fun _ u' appended => ?_).weaken
    fun stop past => exceeds ?_
  swap
  · right
    rw [length, length_direntBytes, freeblock, built.freeblock] at past
    rcases past with long | full
    · rw [three] at long
      simp only [direntSize, maxfile, ndirect, nindirect, bsize, area_ninodes] at long inside
      omega
    · rw [three] at full
      omega
  · obtain ⟨w, first⟩ := appended
    have type : (w.node (files.length + 2)).type ≠ 0 := by
      rw [first.others _ differ]
      simp [Volume.setNode, Dinode.fresh, tFile]
    have empty : update (contentsOf files) rootino (contentsOf files rootino ++
        direntBytes (files.length + 2) file.name) (files.length + 2) = [] := by
      rw [update_of_ne differ]
      exact contentsOf_unused le_rfl
    have grows := first.grows
    rw [length, length_direntBytes, freeblock, built.freeblock, three] at grows
    rw [ensures_bind]
    refine ((appendAll_spec inside chunks first.wrote type).mono
      fun _ u'' appended => ?_).weaken fun stop past => exceeds ?_
    swap
    · rw [empty, ← bytes, length_nil, Overflows, zero_add] at past
      have zero : need 0 = 0 := rfl
      rcases past with long | full
      · exact .inl long
      · right
        omega
    · obtain ⟨w', second⟩ := appended
      refine next u'' w' ⟨?_, ?_, ?_, ?_, fun m below => ?_, fun m below none => ?_⟩
      · have wrote' := second.wrote
        rwa [empty, nil_append, ← bytes, ← contentsOf_concat] at wrote'
      · rw [second.kept.freeinode, first.kept.freeinode, freeinode, length_append]
        rfl
      · have longer : List.range (files.length + 1 + 1) =
            List.range (files.length + 1) ++ [files.length + 1] := range_succ
        rw [second.kept.inums, first.kept.inums, inums, built.inums, length_append,
          length_singleton, longer, map_append, reverse_append]
        rfl
      · have later := second.grows
        have zero : need 0 = 0 := rfl
        rw [empty, ← bytes, length_nil, zero_add] at later
        omega
      · rw [typeOf_concat]
        rcases eq_or_ne m (files.length + 2) with rfl | other
        · rw [second.fields, first.others _ differ, update_self]
          simp [Volume.setNode, Dinode.fresh]
        · rw [second.others m other, update_of_ne other]
          rcases eq_or_ne m rootino with rfl | apart
          · rw [first.fields, node _ other]
            exact built.type _ below
          · rw [first.others m apart, node m other]
            exact built.type m below
      · have other : m ≠ files.length + 2 := by
          rintro rfl
          rw [typeOf_concat, update_self] at none
          exact absurd none (by decide)
        rw [typeOf_concat, update_of_ne other] at none
        rw [second.others m other, first.others m (ne_root none), node m other]
        exact built.blank m below none

theorem addFiles_spec (rest : List Input) :
    ∀ {t : Image} {v : Volume} {files : List Input}, Built t v files →
      files.length + rest.length + 2 ≤ area.ninodes →
      Ensures (fun _ => ¬ Fits (files ++ rest)) (addFiles rootino rest) t fun _ u =>
        ∃ w, Built u w (files ++ rest) := by
  induction rest with
  | nil =>
    intro t v files built _
    rw [append_nil]
    exact (ensures_pure ..).mpr ⟨v, built⟩
  | cons file rest ih =>
    intro t v files built inside
    have member : file ∈ files ++ file :: rest := by simp
    rw [length_cons] at inside
    rw [addFiles]
    split
    · rename_i improper
      exact (ensures_throw ..).mpr fun fits => fits.proper file member improper
    cases opened : file.chunks with
    | none => exact (ensures_throw ..).mpr fun fits => fits.opened file member opened
    | some chunks =>
      have whole : files ++ file :: rest = files ++ [file] ++ rest := by simp
      refine addFile_spec (¬ Fits (files ++ file :: rest)) built opened (by omega)
        (fun u w later => ?_) fun past fits => ?_
      · rw [whole]
        exact ih later (by
          rw [length_append, length_singleton]
          omega)
      · rcases past with long | full
        · exact absurd (fits.short file member) long.not_ge
        have blocks := fits.blocks
        rw [whole] at blocks
        have part := total_le_append (files ++ [file]) rest
        omega

theorem wipe_spec (count : Nat) (small : count < 2 ^ 22) :
    Ensures safe (wipe count) start fun _ u => u = { start with count := count } := by
  induction count with
  | zero => exact (ensures_pure ..).mpr rfl
  | succ count ih =>
    rw [wipe, ensures_bind]
    refine (ih (Nat.lt_of_succ_lt small)).mono fun _ u same => ?_
    subst same
    have sectors : update start.sector count (fun _ => 0) = start.sector :=
      update_eq_self count start.sector
    rw [ensures_wsect, seek_of_lt (Nat.lt_of_succ_lt small)]
    dsimp only
    rw [sectors, max_eq_right (Nat.le_succ count)]

theorem load_zero (slot : Nat) : Dinode.load (fun _ => 0) slot = .fresh 0 := by
  simp only [Dinode.load, Dinode.fresh, Bytes.getLE_zero]
  rfl

def blankVolume : Volume := ⟨fun _ => .fresh 0, fun _ => false, fun _ _ => 0⟩

theorem held_blankVolume (p : Nat × Nat) : blankVolume.held area p = 0 :=
  if_neg fun allocated => allocated.2 rfl

theorem blank_wrote : Wrote { start with
    count := fssize
    sector := update start.sector 1 superblock } blankVolume fun _ => [] where
  shows := by
    refine ⟨rfl, fun b data => ?_, fun m below _ => ?_, ?_, by simp [start]⟩
    · have other : b ≠ 1 := by
        rw [nmeta_eq] at data
        omega
      exact update_of_ne other ..
    · have other : sb.iblock m ≠ 1 := by
        have high := (iblock_area below).1
        have start : sb.inodestart = 32 := rfl
        omega
      dsimp only
      rw [update_of_ne other]
      exact load_zero _
    · dsimp only
      rw [update_self]
  placed := by
    refine ⟨fun p => ?_, ⟨by decide, fun p holds => absurd (held_blankVolume p) holds,
      fun p holds => absurd (held_blankVolume p) holds,
      fun p _ holds => absurd (held_blankVolume p) holds, fun b data used => ?_⟩, le_rfl,
      fun _ _ => rfl⟩
    · simp [held_blankVolume, Spans, Occupies]
    · have below : b < nmeta := of_decide_eq_true used
      exact absurd below data.not_gt
  filled n j holds := absurd (held_blankVolume _) holds
  room := nmeta_lt_fssize.le
  sizes _ _ := rfl
  bounded _ := Nat.zero_le _

/-- The image is complete; the root directory has a size of whole blocks. -/
structure Finished (t : Image) (v : Volume) (files : List Input) : Prop where
  shows : Shows t v ∅
  placed : Placed v (Spans fun m => (contentsOf files m).length) t.freeblock
  filled : Filled v (contentsOf files)
  room : t.freeblock ≤ fssize
  sizes : ∀ m, m < area.ninodes → m ≠ rootino → (v.node m).size.toNat = (contentsOf files m).length
  rootSize : (v.node rootino).size.toNat = ((contentsOf files rootino).length / bsize + 1) * bsize
  bounded : ∀ m, (contentsOf files m).length ≤ maxfile * bsize
  freeinode : t.freeinode = files.length + 2
  inums : t.inums = ((List.range (files.length + 1)).map (· + 1)).reverse
  freeblock : t.freeblock = nmeta + total files
  type : ∀ m, m < area.ninodes → (v.node m).type = typeOf files m
  blank : ∀ m, m < area.ninodes → typeOf files m = 0 → v.node m = .fresh 0
  map : t.sector sb.bmapstart = bitmap t.freeblock

theorem isFree_bitmap {used : Nat} (le : used ≤ bpb) (b : Nat) :
    isFree (bitmap used) b = decide (used ≤ b) := by
  induction used with
  | zero =>
    rw [isFree_eq]
    simp [bitmap, Bytes.byteAt]
  | succ used ih =>
    have grown : bitmap (used + 1) = markUsed (bitmap used) used := by
      simp [bitmap, range_succ]
    rw [grown, isFree_markUsed _ (Nat.lt_of_succ_le le), ih (Nat.le_of_succ_le le)]
    split
    · rename_i same
      simp [same]
    · exact decide_eq_decide.mpr (by omega)

theorem fixSize_spec (built : Built t v files) (inside : files.length + 2 ≤ area.ninodes) :
    Ensures safe (do
      fixSize rootino
      balloc (← get).freeblock) t fun _ u => ∃ w, Finished u w files := by
  have length := length_contentsOf_root files
  have size := built.wrote.sizes rootino root_inside
  have value : (BitVec.ofNat 32 (((contentsOf files rootino).length / bsize + 1) * bsize)).toNat =
      ((contentsOf files rootino).length / bsize + 1) * bsize := by
    rw [BitVec.toNat_ofNat, Nat.mod_eq_of_lt]
    rw [length]
    simp only [direntSize, bsize, area_ninodes] at inside ⊢
    omega
  obtain ⟨w, block, root, others, held⟩ : ∃ w : Volume, w.block = v.block ∧
      w.node rootino = { v.node rootino with
        size := .ofNat 32 (((contentsOf files rootino).length / bsize + 1) * bsize) } ∧
      (∀ m, m ≠ rootino → w.node m = v.node m) ∧ w.held area = v.held area :=
    ⟨v.setNode rootino { v.node rootino with
        size := .ofNat 32 (((contentsOf files rootino).length / bsize + 1) * bsize) }, rfl,
      update_self rootino _ v.node, fun m other => update_of_ne other ..,
      Volume.held_setNode_same rfl .rfl⟩
  have shows : Shows t w {rootino} :=
    ⟨built.wrote.shows.count, fun b data => by rw [block]; exact built.wrote.shows.block b data,
      fun m below other => (built.wrote.shows.node m below id).trans (others m other).symm,
      built.wrote.shows.header, built.wrote.shows.inodeBlocks⟩
  simp only [fixSize, bind_assoc]
  rw [ensures_bind]
  refine (rinode_spec built.wrote.shows root_inside id).mono fun din t' same => ?_
  obtain ⟨rfl, rfl⟩ := same
  rw [size, ensures_bind]
  refine (winode_spec shows subset_rfl root_inside root).mono fun _ u stored => ?_
  obtain ⟨shows', kept, freeblock⟩ := stored
  have room : u.freeblock ≤ fssize := freeblock ▸ built.wrote.room
  have position : seek sb.bmapstart = sb.bmapstart := seek_of_lt (by decide)
  simp only [ensures_bind, ensures_get, balloc]
  rw [if_pos (room.trans_lt (by decide)), ensures_wsect, position]
  refine ⟨w, ⟨?_, fun b data => ?_, fun m below _ => ?_, ?_, shows'.inodeBlocks⟩, ?_, ?_, room,
    fun m below other => ?_, ?_, built.wrote.bounded, kept.freeinode.trans built.freeinode,
    kept.inums.trans built.inums, freeblock.trans built.freeblock, fun m below => ?_,
    fun m below none => ?_, ?_⟩
  · exact (max_eq_left (by rw [shows'.count]; decide)).trans shows'.count
  · exact (update_of_ne (bmapstart_lt_nmeta.trans_le data).ne' ..).trans (shows'.block b data)
  · dsimp only
    rw [update_of_ne (iblock_area below).2.ne]
    exact shows'.node m below id
  · dsimp only
    rw [update_of_ne (show 1 ≠ sb.bmapstart by decide)]
    exact shows'.header
  · dsimp only
    rw [freeblock]
    exact built.wrote.placed.congr held fun b _ => by rw [block]
  · intro m j mapped
    rw [held] at mapped
    rw [Volume.byte, held, block]
    exact built.wrote.filled m j mapped
  · rw [others m other]
    exact built.wrote.sizes m below
  · rw [root]
    exact value
  · rcases eq_or_ne m rootino with rfl | other
    · rw [root]
      exact built.type _ below
    · rw [others m other]
      exact built.type m below
  · rw [others m (ne_root none)]
    exact built.blank m below none
  · dsimp only
    rw [update_self]

theorem dots_spec (wrote : Wrote t (blankVolume.setNode rootino
      { Dinode.fresh tDir with nlink := 1 }) fun _ => []) (freeinode : t.freeinode = 2)
    (inums : t.inums = [1]) (freeblock : t.freeblock = nmeta) {α : Type} {rest : MkfsM α}
    {post : α → Image → Prop} (next : ∀ u w, Built u w [] → Ensures safe rest u post) :
    Ensures safe (do
      iappend rootino (direntBytes rootino [dot])
      iappend rootino (direntBytes rootino [dot, dot])
      rest) t post := by
  have node : (blankVolume.setNode rootino { Dinode.fresh tDir with nlink := 1 }).node rootino =
      { Dinode.fresh tDir with nlink := 1 } := update_self rootino _ blankVolume.node
  rw [ensures_bind]
  refine ((iappend_spec wrote root_inside (by rw [node]; decide) (direntBytes rootino [dot])).mono
    fun _ u ⟨w, first⟩ => ?_).weaken fun stop past => ?_
  · rw [length_direntBytes, freeblock] at past
    exact absurd past (by unfold Overflows; decide)
  have type : (w.node rootino).type = tDir := by
    rw [first.fields, node]
    rfl
  have grows := first.grows
  rw [length_direntBytes, freeblock] at grows
  have one : u.freeblock = nmeta + 1 := by
    have zero : need 0 = 0 := rfl
    have sixteen : need (0 + direntSize) = 1 := rfl
    simp only [length_nil] at grows
    omega
  rw [ensures_bind]
  refine ((iappend_spec first.wrote root_inside (by rw [type]; decide)
    (direntBytes rootino [dot, dot])).mono fun _ u' ⟨w', second⟩ => ?_).weaken fun stop past => ?_
  · rw [update_self, nil_append, length_direntBytes, length_direntBytes, one] at past
    exact absurd past (by unfold Overflows; decide)
  have later := second.grows
  rw [update_self, nil_append, length_direntBytes, length_direntBytes, one] at later
  refine next u' w' ⟨?_, ?_, ?_, ?_, fun m below => ?_, fun m below none => ?_⟩
  · have wrote' := second.wrote
    rw [update_self, nil_append, update_idem] at wrote'
    have same : update (fun _ => []) rootino
        (direntBytes rootino [dot] ++ direntBytes rootino [dot, dot]) = contentsOf [] := by
      funext m
      rcases eq_or_ne m rootino with rfl | other
      · rw [update_self, contentsOf, if_pos rfl]
        simp [entriesOf, entryBytes]
      · rw [update_of_ne other, contentsOf, if_neg other]
        simp
    rwa [same] at wrote'
  · rw [second.kept.freeinode, first.kept.freeinode, freeinode]
    rfl
  · rw [second.kept.inums, first.kept.inums, inums]
    rfl
  · have sixteen : need direntSize = 1 := rfl
    have more : need (direntSize + direntSize) = 1 := rfl
    have all : total [] = 1 := rfl
    omega
  · rcases eq_or_ne m rootino with rfl | other
    · rw [second.fields, typeOf_root]
      exact type
    · rw [second.others m other, first.others m other, typeOf, if_neg other,
        if_neg (by simp only [length_nil]; omega), Volume.setNode]
      dsimp only
      rw [update_of_ne other]
      rfl
  · rw [second.others m (ne_root none), first.others m (ne_root none)]
    exact update_of_ne (ne_root none) ..

/-- `mkfs` completes the image, or the files do not fit. -/
theorem main_spec (inside : files.length + 2 ≤ area.ninodes) :
    Ensures (fun _ => ¬ Fits files) (main files) start fun _ u => ∃ w, Finished u w files := by
  rw [main, ensures_bind]
  refine (wipe_spec fssize fssize_lt).mono fun _ t same => ?_
  subst same
  rw [ensures_bind, ensures_wsect, seek_of_lt (by decide)]
  rw [ensures_bind]
  refine (ialloc_spec blank_wrote (by decide) rfl).mono
    fun root u ⟨number, freeinode, inums, freeblock, wrote⟩ => ?_
  subst number
  rw [if_pos (by rfl)]
  refine dots_spec wrote freeinode inums freeblock fun u' w built => ?_
  rw [ensures_bind]
  refine (addFiles_spec files built (by simpa using inside)).mono fun _ u'' ⟨w', built'⟩ => ?_
  exact fixSize_spec built' (by simpa using inside)

end OsLab.Mkfs
