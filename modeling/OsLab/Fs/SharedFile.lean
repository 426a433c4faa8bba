import OsLab.Fs.WriteUser
import OsLab.Lib.Run

/-!
# Writers that share an open file

Processes that share a `struct file` write chunk by chunk.  The offset is read and advanced under
the lock of the inode, so each chunk goes to the end of the file that the chunk before it has
left, whichever process wrote that one.
-/

namespace OsLab.Fs

open Act Function List

/-- The data of the writes of a process that are not over, and the `i` of the first. -/
structure Writer where
  writes : List (List Byte)
  i : Nat

namespace Writer

/-- The data of the write in progress. -/
def data (writer : Writer) : List Byte := writer.writes.headD []

/-- The size of the next chunk. -/
def n1 (writer : Writer) : Nat := min (writer.data.length - writer.i) writeMax

/-- User memory from `addr + i` on. -/
def memory (writer : Writer) (j : Nat) : Option Byte := writer.data[writer.i + j]?

end Writer

/-- The processes with their open file. -/
structure Sharing where
  fs : State
  file : File
  writer : Pslot → Writer

/-- A process writes its next chunk, or returns from a write. -/
inductive Turn
  | chunk (p : Pslot) (cached : Bool)
  | ret (p : Pslot)

section Code

variable (sb : Superblock) (ip : Slot)

/-- The part of the loop of `filewrite` between `begin_op` and `end_op`. -/
def Sharing.chunk (s : Sharing) (p : Pslot) (cached : Bool) : Except Stop (Option Nat × State) :=
  filewriteChunk sb p ip (.user (s.writer p).memory cached) s.file.off (s.writer p).n1 s.fs

def Sharing.after (s : Sharing) : Turn → Sharing
  | .chunk p cached =>
    match s.chunk sb ip p cached with
    | .ok (some r, t) =>
      { fs := t
        file := { s.file with off := (s.file.off + r) % 2 ^ 32 }
        writer := update s.writer p { s.writer p with i := (s.writer p).i + r } }
    | .ok (none, t) => { s with fs := t }
    | .error _ => s
  | .ret p => { s with writer := update s.writer p ⟨(s.writer p).writes.tail, 0⟩ }

/-- All interleavings of the chunks of writes that succeed. -/
def sharing : System Sharing Turn where
  Enabled s
    | .chunk p cached => (s.writer p).i < (s.writer p).data.length ∧
        ∃ t, s.chunk sb ip p cached = .ok (some (s.writer p).n1, t)
    | .ret p => (s.writer p).i = (s.writer p).data.length
  next := Sharing.after sb ip

end Code

/-- The chunks of a write. -/
def pieces (data : List Byte) : List (List Byte) :=
  (List.range (chunks data.length)).map fun k => (data.drop (k * writeMax)).take writeMax

theorem pieces_nil : pieces [] = [] := rfl

theorem pieces_of_ne_nil {data : List Byte} (some : data ≠ []) :
    pieces data = data.take writeMax :: pieces (data.drop writeMax) := by
  have pos := length_pos_of_ne_nil some
  have count : chunks data.length = chunks (data.drop writeMax).length + 1 := by
    rw [chunks, chunks, length_drop, writeMax_literal]
    omega
  rw [pieces, count, range_succ_eq_map, map_cons, map_map, zero_mul, drop_zero, pieces]
  refine congrArg (_ :: ·) (map_congr_left fun k _ => ?_)
  rw [comp_apply, drop_drop, Nat.succ_mul, add_comm]

namespace Writer

/-- The chunks that the process has still to write. -/
def left (writer : Writer) : List (List Byte) :=
  pieces (writer.data.drop writer.i) ++ writer.writes.tail.flatMap pieces

/-- The next chunk. -/
def piece (writer : Writer) : List Byte := (writer.data.drop writer.i).take writeMax

variable {writer : Writer}

theorem length_piece (writer : Writer) : writer.piece.length = writer.n1 := by
  rw [piece, n1, length_take, length_drop, min_comm]

theorem memory_eq_piece {j : Nat} (inside : j < writer.piece.length) :
    writer.memory j = some (writer.piece.getD j 0) := by
  rw [getD_eq_getElem _ _ inside, memory]
  rw [length_piece, n1] at inside
  rw [List.getElem?_eq_getElem (by omega)]
  simp [piece]

theorem left_advance (more : writer.i < writer.data.length) :
    writer.left = writer.piece :: left { writer with i := writer.i + writer.n1 } := by
  have some : writer.data.drop writer.i ≠ [] := by simpa using more
  have rest : (writer.data.drop writer.i).drop writeMax =
      writer.data.drop (writer.i + writer.n1) := by
    rw [drop_drop, n1]
    rcases le_total (writer.data.length - writer.i) writeMax with short | long
    · rw [min_eq_left short, drop_of_length_le (by omega), drop_of_length_le (by omega)]
    · rw [min_eq_right long]
  rw [left, pieces_of_ne_nil some, rest, cons_append]
  rfl

theorem left_ret (ended : writer.i = writer.data.length) :
    writer.left = left ⟨writer.writes.tail, 0⟩ := by
  rw [left, ended, drop_length, pieces_nil, nil_append, left, data, drop_zero]
  cases writer.writes.tail with
  | nil => rfl
  | cons first rest => rfl

end Writer

variable {sb : Superblock} {ip : Slot} {n : Nat} {v w : Volume} {s start : Sharing}

/-- The file is what it was with the chunks of `order` behind, and the offset is at its end. -/
structure Appended (sb : Superblock) (ip : Slot) (n : Nat) (v : Volume) (start s : Sharing)
    (order : List (Pslot × List Byte)) (w : Volume) : Prop where
  settled : Settled sb ip n s.fs w
  contents : contents sb w n = Fs.contents sb v n ++ (order.map Prod.snd).flatten
  off : s.file.off = (w.node n).size.toNat
  small : ∀ chunk ∈ order, chunk.2.length ≤ writeMax
  /-- The chunks of a process come in program order. -/
  program : ∀ p, ((order.filter (·.1 = p)).map Prod.snd) ++ (s.writer p).left =
    (start.writer p).left

namespace Appended

variable {order : List (Pslot × List Byte)}

theorem chunk (valid : sb.Valid) (appended : Appended sb ip n v start s order w) {p : Pslot}
    {cached : Bool} (enabled : (sharing sb ip).Enabled s (.chunk p cached)) :
    ∃ x, Appended sb ip n v start ((sharing sb ip).next s (.chunk p cached))
      (order ++ [(p, (s.writer p).piece)]) x := by
  obtain ⟨more, t, done⟩ := enabled
  have small : (s.writer p).n1 ≤ writeMax := min_le_right ..
  have word : (s.writer p).n1 < 2 ^ 32 := small.trans_lt (by decide)
  obtain ⟨refused, taken⟩ := (appended.settled.chunk valid p
    (.user (s.writer p).memory cached) word (spanned_chunk_le ..)).returns _ t done
  have accepts : Accepts (w.node n).size.toNat s.file.off (s.writer p).n1 := by
    by_contra not
    cases (refused not).1
  obtain ⟨-, x, c, s', t', settled, writes⟩ := taken accepts
  have fits := accepts.2
  rw [maxfile_mul_bsize] at fits
  have word : (s.file.off + (s.writer p).n1) % 2 ^ 32 = s.file.off + (s.writer p).n1 :=
    Nat.mod_eq_of_lt (by omega)
  have next : (sharing sb ip).next s (.chunk p cached) =
      { fs := t
        file := { s.file with off := s.file.off + (s.writer p).n1 }
        writer := update s.writer p
          { s.writer p with i := (s.writer p).i + (s.writer p).n1 } } := by
    simp only [sharing, Sharing.after, done, word]
  rw [← Writer.length_piece] at writes
  have grown : Fs.contents sb x n = Fs.contents sb w n ++ (s.writer p).piece := by
    rw [writes.contents (fun j inside => Writer.memory_eq_piece inside) appended.settled.gapless
      appended.off.le, overwrite, take_of_length_le (by rw [length_contents, appended.off]),
      drop_of_length_le (by rw [length_contents, appended.off]; omega), append_nil]
  rw [next]
  refine ⟨x, settled, ?_, ?_, ?_, fun q => ?_⟩
  · rw [grown, appended.contents, map_append, flatten_append, append_assoc]
    simp
  · have length := congrArg List.length grown
    rw [length_append, length_contents, length_contents, Writer.length_piece] at length
    rw [length, ← appended.off]
  · intro chunk listed
    rcases mem_append.mp listed with old | new
    · exact appended.small chunk old
    · rw [mem_singleton.mp new, Writer.length_piece]
      exact small
  · rw [← appended.program q]
    dsimp only
    rcases eq_or_ne q p with rfl | other
    · rw [update_self, Writer.left_advance more]
      simp
    · rw [update_of_ne other]
      simp [other.symm]

theorem ret (appended : Appended sb ip n v start s order w) {p : Pslot}
    (enabled : (sharing sb ip).Enabled s (.ret p)) :
    Appended sb ip n v start ((sharing sb ip).next s (.ret p)) order w := by
  refine ⟨appended.settled, appended.contents, appended.off, appended.small, fun q => ?_⟩
  rw [← appended.program q]
  simp only [sharing, Sharing.after]
  rcases eq_or_ne q p with rfl | other
  · rw [update_self, Writer.left_ret enabled]
  · rw [update_of_ne other]

end Appended

/-- Two processes that write a byte each at the end of the sample file. -/
def twoWriters : Sharing where
  fs := sampleState 0
  file := { openFile with off := 3 }
  writer p := ⟨[[.ofNat 8 (97 + p.val)]], 0⟩

end OsLab.Fs
