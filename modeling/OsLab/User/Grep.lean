import Mathlib

/-!
# The program `grep`

A string is a list with its terminator, and a read behind the terminator has no result.  What the
matcher answers is compared with the language of the pattern, and what the loop over the input
writes with the lines that match.
-/

namespace OsLab.Grep

open Computability List

/-- The terminator of a string. -/
def nul : Char := '\x00'

/-- `do { if (here(text)) return 1; } while (more(*text++)); return 0;` -/
def search (here : List Char → Option Bool) (more : Char → Bool) (text : List Char) :
    Option Bool := do
  let found ← here text
  if found then return true else
  match text with
  | [] => none
  | c :: text => if more c then search here more text else return false

/-- `matchstar`, with `matchhere(re, ·)` for its pattern. -/
def matchstar (c : Char) (here : List Char → Option Bool) : List Char → Option Bool :=
  search here fun t => t ≠ nul ∧ (t = c ∨ c = '.')

def matchhere : (re text : List Char) → Option Bool
  | [], _ => none
  | [r], _ => if r = nul then some true else none
  | r :: next :: re, text =>
    if r = nul then some true
    else if next = '*' then matchstar r (matchhere re) text
    else if r = '$' ∧ next = nul then do return (← text.head?) = nul
    else do
      let t ← text.head?
      if t ≠ nul ∧ (r = '.' ∨ r = t) then matchhere (next :: re) text.tail else return false

/-- `match`. -/
def matchRe (re text : List Char) : Option Bool := do
  if (← re.head?) = '^' then matchhere re.tail text
  else search (matchhere re) (· ≠ nul) text

/-- The words that a character of a pattern stands for. -/
def single (c : Char) : Language Char := {w | ∃ d, (c = '.' ∨ c = d) ∧ w = [d]}

inductive Item where
  | one (c : Char)
  | star (c : Char)

def Item.language : Item → Language Char
  | .one c => single c
  | .star c => (single c)∗

/-- The items of a pattern behind `^`, and whether `$` closes it. -/
def parse : List Char → List Item × Bool
  | [] => ([], false)
  | [c] => if c = '$' then ([], true) else ([.one c], false)
  | c :: next :: re =>
    if next = '*' then (.star c :: (parse re).1, (parse re).2)
    else (.one c :: (parse (next :: re)).1, (parse (next :: re)).2)

/-- The text begins with a word of the items, which is all of it if the pattern is closed. -/
def Begins (pattern : List Item × Bool) (text : List Char) : Prop :=
  ∃ w b, text = w ++ b ∧ w ∈ (pattern.1.map Item.language).prod ∧ (pattern.2 = true → b = [])

/-- The text has a word of the pattern at its beginning, with `^`, or somewhere. -/
def Matches (re text : List Char) : Prop :=
  if re.head? = some '^' then Begins (parse re.tail) text
  else ∃ a b, text = a ++ b ∧ Begins (parse re) b

variable {c : Char} {text : List Char} {items : List Item} {closed : Bool}

theorem mem_kstar_single {w : List Char} : w ∈ (single c)∗ ↔ ∀ d ∈ w, d = c ∨ c = '.' := by
  rw [Language.mem_kstar]
  constructor
  · rintro ⟨words, rfl, each⟩ d listed
    obtain ⟨word, here, inside⟩ := mem_flatten.mp listed
    obtain ⟨e, stands, rfl⟩ := each word here
    obtain rfl := mem_singleton.mp inside
    exact stands.symm.imp_left Eq.symm
  · intro each
    refine ⟨w.map fun d => [d], by simp [← flatMap_def], fun word listed => ?_⟩
    obtain ⟨d, here, rfl⟩ := mem_map.mp listed
    exact ⟨d, (each d here).symm.imp_right Eq.symm, rfl⟩

theorem begins_cons {i : Item} : Begins (i :: items, closed) text ↔
    ∃ a b, text = a ++ b ∧ a ∈ i.language ∧ Begins (items, closed) b := by
  constructor
  · rintro ⟨w, b, rfl, inside, ends⟩
    obtain ⟨a, first, later, rest, rfl⟩ := Language.mem_mul.mp inside
    exact ⟨a, later ++ b, append_assoc .., first, later, b, rfl, rest, ends⟩
  · rintro ⟨a, b, rfl, first, later, rest, rfl, inside, ends⟩
    exact ⟨a ++ later, rest, (append_assoc ..).symm,
      Language.mem_mul.mpr ⟨a, first, later, inside, rfl⟩, ends⟩

theorem begins_one {t : Char} : Begins (.one c :: items, closed) (t :: text) ↔
    (c = '.' ∨ c = t) ∧ Begins (items, closed) text := by
  rw [begins_cons]
  constructor
  · rintro ⟨_, b, split, ⟨d, stands, rfl⟩, later⟩
    cases split
    exact ⟨stands, later⟩
  · rintro ⟨stands, later⟩
    exact ⟨[t], text, rfl, ⟨t, stands, rfl⟩, later⟩

theorem not_begins_one : ¬ Begins (.one c :: items, closed) [] := by
  rw [begins_cons]
  rintro ⟨_, b, split, ⟨d, -, rfl⟩, -⟩
  cases split

/-- The code returns, and its answer tells whether `p` holds. -/
def Decides (run : Option Bool) (p : Prop) : Prop := ∃ found, run = some found ∧ (found = true ↔ p)

section

variable {here : List Char → Option Bool} {more : Char → Bool} {p : List Char → Prop}

theorem splits_cons : (∃ a b, c :: text = a ++ b ∧ (∀ d ∈ a, more d = true) ∧ p b) ↔
    p (c :: text) ∨ more c = true ∧ ∃ a b, text = a ++ b ∧ (∀ d ∈ a, more d = true) ∧ p b := by
  constructor
  · rintro ⟨a, b, split, skips, later⟩
    rcases cons_eq_append_iff.mp split with ⟨rfl, rfl⟩ | ⟨a, rfl, rfl⟩
    · exact .inl later
    · exact .inr ⟨skips c mem_cons_self, a, b, rfl,
        fun d listed => skips d (mem_cons_of_mem c listed), later⟩
  · rintro (now | ⟨skip, a, b, rfl, skips, later⟩)
    · exact ⟨[], _, rfl, by simp, now⟩
    · exact ⟨c :: a, b, rfl, by simpa [skip] using skips, later⟩

/-- The loop tries every suffix that it reaches. -/
theorem search_decides (more : Char → Bool)
    (tries : ∀ text, nul ∉ text → Decides (here (text ++ [nul])) (p text))
    (last : more nul = false) (plain : nul ∉ text) : Decides (search here more (text ++ [nul]))
      (∃ a b, text = a ++ b ∧ (∀ d ∈ a, more d = true) ∧ p b) := by
  obtain ⟨now, run, tells⟩ := tries text plain
  induction text generalizing now with
  | nil =>
    rw [nil_append] at run ⊢
    refine ⟨now, ?_, tells.trans ⟨fun holds => ⟨[], [], rfl, by simp, holds⟩, ?_⟩⟩
    · rw [search, run]
      cases now <;> simp [last]
    · rintro ⟨a, b, split, -, later⟩
      obtain ⟨-, rfl⟩ := append_eq_nil_iff.mp split.symm
      exact later
  | cons c text ih =>
    have rest : nul ∉ text := fun listed => plain (mem_cons_of_mem c listed)
    obtain ⟨next, run', tells'⟩ := tries text rest
    obtain ⟨found, later, decides⟩ := ih rest next run' tells'
    rw [cons_append] at run ⊢
    refine ⟨now || (more c && found), ?_, ?_⟩
    · rw [search, run]
      cases now <;> cases more c <;> simp [later]
    · rw [splits_cons, ← decides, ← tells]
      simp

end

theorem matchhere_one {next : Char} {re : List Char} (proper : c ≠ nul) (notStar : next ≠ '*')
    (notEnd : ¬ (c = '$' ∧ next = nul)) (rest : ∀ text, nul ∉ text →
      Decides (matchhere (next :: re) (text ++ [nul])) (Begins (items, closed) text))
    (plain : nul ∉ text) : Decides (matchhere (c :: next :: re) (text ++ [nul]))
      (Begins (.one c :: items, closed) text) := by
  rw [matchhere, if_neg proper, if_neg notStar, if_neg notEnd]
  cases text with
  | nil => exact ⟨false, by simp, iff_of_false (by simp) not_begins_one⟩
  | cons t text =>
    rw [mem_cons, not_or] at plain
    rw [begins_one]
    by_cases stands : c = '.' ∨ c = t
    · obtain ⟨found, run, tells⟩ := rest text plain.2
      exact ⟨found, by simp [stands, Ne.symm plain.1, run], by simp [stands, tells]⟩
    · exact ⟨false, by simp [stands], by simp [stands]⟩

theorem matchstar_decides {pattern : List Item × Bool} {here : List Char → Option Bool}
    (tries : ∀ text, nul ∉ text → Decides (here (text ++ [nul])) (Begins pattern text))
    (plain : nul ∉ text) : Decides (matchstar c here (text ++ [nul]))
      (Begins (.star c :: pattern.1, pattern.2) text) := by
  obtain ⟨found, run, tells⟩ := search_decides (fun t => t ≠ nul ∧ (t = c ∨ c = '.')) tries
    (by simp) plain
  refine ⟨found, run, tells.trans ?_⟩
  rw [begins_cons]
  refine exists_congr fun a => exists_congr fun b => and_congr_right fun split => ?_
  refine and_congr_left' ((forall₂_congr fun d listed => ?_).trans mem_kstar_single.symm)
  have proper : d ≠ nul := fun same => plain (split ▸ mem_append_left b (same ▸ listed))
  simp [proper]

theorem matchhere_decides (re : List Char) : nul ∉ re → ∀ text, nul ∉ text →
    Decides (matchhere (re ++ [nul]) (text ++ [nul])) (Begins (parse re) text) := by
  have empty : ∀ text, Decides (matchhere [nul] (text ++ [nul])) (Begins ([], false) text) :=
    fun text => ⟨true, rfl, iff_of_true rfl ⟨[], text, rfl, rfl, nofun⟩⟩
  induction re using parse.induct with
  | case1 => exact fun _ text _ => empty text
  | case2 =>
    intro _ text plain
    have whole : Begins (parse ['$']) text ↔ text = [] := by
      constructor
      · rintro ⟨w, b, rfl, rfl, ends⟩
        exact ends rfl
      · rintro rfl
        exact ⟨[], [], rfl, rfl, fun _ => rfl⟩
    refine ⟨decide (text = []), ?_, by rw [decide_eq_true_iff, whole]⟩
    cases text with
    | nil => rfl
    | cons t text =>
      rw [mem_cons, not_or] at plain
      have stop : nul ≠ '*' ∧ '$' ≠ nul := by decide
      simp [matchhere, stop, Ne.symm plain.1]
  | case3 c other =>
    intro proper text plain
    rw [parse, if_neg other]
    exact matchhere_one (by simpa [eq_comm] using proper) (by decide) (fun both => other both.1)
      (fun text _ => empty text) plain
  | case4 c re ih =>
    intro proper text plain
    simp only [mem_cons, not_or] at proper
    rw [parse, if_pos rfl, cons_append, cons_append, matchhere, if_neg (Ne.symm proper.1),
      if_pos rfl]
    exact matchstar_decides (ih proper.2.2) plain
  | case5 c next re other ih =>
    intro proper text plain
    have later : nul ∉ next :: re := fun listed => proper (mem_cons_of_mem c listed)
    rw [parse, if_neg other]
    exact matchhere_one (fun same => proper (same ▸ mem_cons_self)) other
      (fun both => later (both.2 ▸ mem_cons_self)) (ih later) plain

theorem matchRe_decides {re : List Char} (proper : nul ∉ re) (plain : nul ∉ text) :
    Decides (matchRe (re ++ [nul]) (text ++ [nul])) (Matches re text) := by
  by_cases anchored : re.head? = some '^'
  · obtain ⟨re, rfl⟩ := List.head?_eq_some_iff.mp anchored
    exact matchhere_decides re (fun listed => proper (mem_cons_of_mem _ listed)) text plain
  have free : matchRe (re ++ [nul]) (text ++ [nul]) =
      search (matchhere (re ++ [nul])) (· ≠ nul) (text ++ [nul]) := by
    cases re with
    | nil => rfl
    | cons r re => exact if_neg fun same => anchored (congrArg some same)
  obtain ⟨found, run, tells⟩ :=
    search_decides (· ≠ nul) (matchhere_decides re proper) (by simp) plain
  rw [free, Matches, if_neg anchored]
  refine ⟨found, run, tells.trans (exists_congr fun a => exists_congr fun b => ?_)⟩
  refine and_congr_right fun split => and_iff_right fun d listed => ?_
  exact decide_eq_true fun same => plain (split ▸ mem_append_left b (same ▸ listed))

/-- For every pattern and every text `match` returns without a read behind a terminator and tells
whether the text has a word of the pattern; so do `matchhere` and `matchstar`. -/
theorem match_decides (re text : List Char) (proper : nul ∉ re) (plain : nul ∉ text) :
    Decides (matchRe (re ++ [nul]) (text ++ [nul])) (Matches re text) ∧
      Decides (matchhere (re ++ [nul]) (text ++ [nul])) (Begins (parse re) text) ∧
      ∀ c, Decides (matchstar c (matchhere (re ++ [nul])) (text ++ [nul]))
        (Begins (.star c :: (parse re).1, (parse re).2) text) := by
  have tries := matchhere_decides re proper
  exact ⟨matchRe_decides proper plain, tries text plain, fun c => matchstar_decides tries plain⟩

theorem match_decides_inner :
    Decides (matchRe ("a*b$".toList ++ [nul]) ("xaab".toList ++ [nul]))
      (Matches "a*b$".toList "xaab".toList) :=
  (match_decides "a*b$".toList "xaab".toList (by decide) (by decide)).1

/-- The most that `buf` takes beside its terminator. -/
def room : Nat := 1023

/-- The inner loop: what it writes, and what is left behind the last newline. -/
def scan (re : List Char) : (line buf : List Char) → Option (List Char × List Char)
  | line, [] => some ([], line)
  | line, c :: buf =>
    if c = '\n' then do
      let found ← matchRe re (line ++ [nul])
      let (out, rest) ← scan re [] buf
      return (if found then line ++ c :: out else out, rest)
    else scan re (line ++ [c]) buf

/-- What `grep` writes, and what it leaves of the stream.  `read` returns any number of bytes up to
what is asked for, and 0 only if none are left or asked for. -/
def grep (re : List Char) (pick : Nat → Nat) (left stream : List Char) :
    Option (List Char × List Char) :=
  let n := min (pick stream.length + 1) (min (room - left.length) stream.length)
  if n = 0 then some ([], stream)
  else do
    let (out, left) ← scan re [] (left ++ stream.take n)
    let (more, rest) ← grep re pick left (stream.drop n)
    return (out ++ more, rest)
termination_by stream.length
decreasing_by
  rw [length_drop]
  omega

/-- The lines of a stream, of which the first has begun, and what follows the last newline. -/
def splitLines : (line stream : List Char) → List (List Char) × List Char
  | line, [] => ([], line)
  | line, c :: stream =>
    if c = '\n' then (line :: (splitLines [] stream).1, (splitLines [] stream).2)
    else splitLines (line ++ [c]) stream

open Classical in
/-- The lines that match, with their newlines. -/
noncomputable def printed (re : List Char) (lines : List (List Char)) : List Char :=
  (lines.filter fun line => Matches re line).flatMap (· ++ ['\n'])

/-- Every line fits into the buffer with its newline, and so does what follows the last one. -/
def Short (split : List (List Char) × List Char) : Prop :=
  (∀ line ∈ split.1, line.length < room) ∧ split.2.length ≤ room

section

variable {line a b stream : List Char}

theorem splitLines_append : splitLines line (a ++ b) =
    ((splitLines line a).1 ++ (splitLines (splitLines line a).2 b).1,
      (splitLines (splitLines line a).2 b).2) := by
  induction a generalizing line with
  | nil => rfl
  | cons c a ih =>
    simp only [cons_append, splitLines, ih]
    split <;> rfl

theorem splitLines_plain (plain : '\n' ∉ a) : splitLines line a = ([], line ++ a) := by
  induction a generalizing line with
  | nil => simp [splitLines]
  | cons c a ih =>
    rw [mem_cons, not_or] at plain
    rw [splitLines, if_neg (Ne.symm plain.1), ih plain.2, append_assoc, singleton_append]

theorem splitLines_bounds : (∀ l ∈ (splitLines line a).1, l.length < line.length + a.length) ∧
    (splitLines line a).2.length ≤ line.length + a.length ∧ (splitLines line a).2 ⊆ line ++ a ∧
    ('\n' ∉ line → '\n' ∉ (splitLines line a).2) := by
  induction a generalizing line with
  | nil => simp [splitLines]
  | cons c a ih =>
    rw [splitLines, length_cons]
    split
    · obtain ⟨short, last, within, plain⟩ := @ih []
      simp only [length_nil, zero_add] at short last
      refine ⟨fun l listed => ?_, last.trans (by omega), fun d listed => ?_, fun _ => plain nofun⟩
      · rcases mem_cons.mp listed with rfl | later
        · omega
        · have := short l later
          omega
      · have := within listed
        simp_all
    · rename_i other
      obtain ⟨short, last, within, plain⟩ := @ih (line ++ [c])
      simp only [length_append, length_singleton, append_assoc,
        singleton_append] at short last within
      refine ⟨fun l listed => ?_, last.trans (by omega), within, fun none => plain ?_⟩
      · have := short l listed
        omega
      · simp [none, Ne.symm other]

theorem not_short (full : room ≤ line.length) (more : stream ≠ []) :
    ¬ Short (splitLines line stream) := by
  induction stream generalizing line with
  | nil => exact absurd rfl more
  | cons c stream ih =>
    rw [splitLines]
    split
    · exact fun short => absurd (short.1 line mem_cons_self) full.not_gt
    by_cases rest : stream = []
    · subst rest
      exact fun short => absurd short.2 (by simp [splitLines]; omega)
    · exact ih (by simp; omega) rest

variable {re : List Char} (proper : nul ∉ re)
include proper

theorem scan_eq (first : nul ∉ line) (rest : nul ∉ a) : scan (re ++ [nul]) line a =
    some (printed re (splitLines line a).1, (splitLines line a).2) := by
  induction a generalizing line with
  | nil => simp [scan, splitLines, printed]
  | cons c a ih =>
    rw [mem_cons, not_or] at rest
    rw [scan, splitLines]
    split
    · rename_i newline
      obtain ⟨found, run, tells⟩ := matchRe_decides proper first
      rw [run, ih (by simp) rest.2, newline]
      by_cases here : Matches re line
      · simp [printed, here, tells.mpr here]
      · simp [printed, here, mt tells.mp here]
    · exact ih (by simp [first, rest.1]) rest.2

theorem grep_iff (pick : Nat → Nat) {left : List Char} (line : '\n' ∉ left)
    (small : left.length ≤ room) (first : nul ∉ left) (rest : nul ∉ stream) :
    grep (re ++ [nul]) pick left stream = some (printed re (splitLines left stream).1, []) ↔
      Short (splitLines left stream) := by
  induction size : stream.length using Nat.strong_induction_on generalizing left stream with
  | _ size ih =>
  rw [grep]
  dsimp only
  generalize taken : min (pick stream.length + 1) (min (room - left.length) stream.length) = n
  split
  · rename_i none
    rcases eq_or_ne stream [] with rfl | more
    · simp [splitLines, printed, Short, small]
    · have positive := length_pos_of_ne_nil more
      have full : room ≤ left.length := by omega
      exact iff_of_false (by simp [more]) (not_short full more)
  · rename_i some
    have shorter : left.length + (stream.take n).length ≤ room := by
      rw [length_take]
      omega
    obtain ⟨lines, last, within, plain⟩ := @splitLines_bounds left (stream.take n)
    have bytes : nul ∉ left ++ stream.take n := fun listed =>
      (mem_append.mp listed).elim first fun listed => rest (mem_of_mem_take listed)
    have whole : splitLines [] (left ++ stream.take n) = splitLines left (stream.take n) := by
      rw [splitLines_append, splitLines_plain line]
      rfl
    have later := ih (stream.drop n).length (by rw [length_drop]; omega) (plain line)
      (last.trans shorter) (fun listed => bytes (within listed))
      (fun listed => rest (mem_of_mem_drop listed)) rfl
    have split := @splitLines_append left (stream.take n) (stream.drop n)
    rw [take_append_drop] at split
    rw [scan_eq proper (by simp) bytes, whole, split]
    generalize splitLines left (stream.take n) = done at lines later ⊢
    have short : Short (done.1 ++ (splitLines done.2 (stream.drop n)).1,
        (splitLines done.2 (stream.drop n)).2) ↔ Short (splitLines done.2 (stream.drop n)) := by
      rw [Short, forall_mem_append, and_assoc]
      exact and_iff_right fun l listed => (lines l listed).trans_le shorter
    rw [short, ← later]
    simp only [printed, filter_append, flatMap_append, Option.bind_eq_bind, Option.bind_some]
    cases grep (re ++ [nul]) pick done.2 (stream.drop n) <;> simp [Prod.ext_iff]

end

/-- `grep` writes the lines that match and reads the whole stream exactly if no line fills the
buffer. -/
theorem grep_exact_iff (re stream : List Char) (pick : Nat → Nat) (proper : nul ∉ re)
    (plain : nul ∉ stream) :
    grep (re ++ [nul]) pick [] stream = some (printed re (splitLines [] stream).1, []) ↔
      Short (splitLines [] stream) :=
  grep_iff proper pick (by simp) (Nat.zero_le _) (by simp) plain

theorem grep_exact_line :
    grep ("b".toList ++ [nul]) (fun _ => 0) [] "abc\n".toList =
      some (printed "b".toList (splitLines [] "abc\n".toList).1, []) :=
  (grep_exact_iff _ _ _ (by decide) (by decide)).mpr (by simp [Short, splitLines, room])

/-- A line that fills the buffer. -/
def longLine : List Char := List.replicate room 'a' ++ ['\n']

/-- `read` is asked for no byte behind the line, and `grep` ends. -/
theorem longLine_lost : grep ("a".toList ++ [nul]) (fun _ => room) [] longLine ≠
    some (printed "a".toList (splitLines [] longLine).1, []) := by
  have proper : nul ∉ longLine := by simp [longLine, nul]
  rw [Ne, grep_iff (by decide) _ (by simp) (Nat.zero_le _) (by simp) proper, longLine,
    splitLines_append, splitLines_plain (by simp)]
  simp [Short, splitLines]

end OsLab.Grep
