import OsLab.Shell.Parses

/-!
# The strings of a parsed command

`nulterminate` writes a terminator behind each word of the tree.  Words do not touch, so no
terminator falls into another word, and each string of the tree is the text of its token.
-/

namespace OsLab.Shell

open Act List

def Span.text (a : Span) : List Char := a.q.take (a.q.length - a.eq.length)

/-- A maximal run of characters that are neither blanks nor symbols. -/
structure IsWord (s : Ptr) (a : Span) : Prop where
  inside : a.q <:+ s
  text : a.q = a.text ++ a.eq
  ordinary : ∀ c ∈ a.text, ordinary c = true
  maximal : ∀ c rest, a.eq = c :: rest → Shell.ordinary c = false

theorem IsWord.mono {s t : Ptr} {a : Span} (word : IsWord s a) (longer : s <:+ t) : IsWord t a :=
  { word with inside := word.inside.trans longer }

variable {s : Ptr} {a : Span}

theorem isWord_dropWhile {c : Char} (plain : ordinary c = true) :
    IsWord (c :: s) ⟨c :: s, s.dropWhile ordinary⟩ := by
  have split : (c :: s) = (c :: s).takeWhile ordinary ++ s.dropWhile ordinary := by
    rw [← dropWhile_cons_of_pos (l := s) plain]
    exact (takeWhile_append_dropWhile ..).symm
  have text : (⟨c :: s, s.dropWhile ordinary⟩ : Span).text = (c :: s).takeWhile ordinary := by
    have lengths := congrArg List.length split
    rw [length_append] at lengths
    rw [Span.text]
    dsimp only
    rw [show (c :: s).length - (s.dropWhile ordinary).length =
      ((c :: s).takeWhile ordinary).length by omega]
    nth_rewrite 2 [split]
    exact take_left
  refine ⟨suffix_refl _, text.symm ▸ split, fun d listed => ?_, fun d rest same => ?_⟩
  · rw [text] at listed
    exact mem_takeWhile_imp listed
  · have stops := List.head?_dropWhile_not ordinary s
    rw [show s.dropWhile ordinary = d :: rest from same] at stops
    simpa using stops

theorem isWord_of_mem (listed : .word a ∈ tokens s) : IsWord s a := by
  induction s using tokens.induct with
  | case1 => rw [tokens] at listed; contradiction
  | case2 c s blank ih =>
    rw [tokens, if_pos blank] at listed
    exact (ih listed).mono (suffix_cons ..)
  | case3 c s other tok symbol ih =>
    rw [tokens, if_neg other, symbol] at listed
    rcases mem_cons.mp listed with same | later
    · exact absurd same.symm ((symbolTok_eq_some symbol).2.2.2 a)
    · exact (ih later).mono (suffix_cons ..)
  | case4 s double other symbol ih =>
    rw [tokens, if_neg other, symbol] at listed
    simp only [if_true, double, mem_cons, reduceCtorEq, false_or] at listed
    exact (ih listed).mono ((tail_suffix s).trans (suffix_cons ..))
  | case5 s single other symbol ih =>
    rw [tokens, if_neg other, symbol] at listed
    simp only [if_true, single, if_false, mem_cons, reduceCtorEq, false_or] at listed
    exact (ih listed).mono (suffix_cons ..)
  | case6 c s other symbol greater ih =>
    rw [tokens, if_neg other, symbol] at listed
    simp only [greater, if_false, mem_cons, Tok.word.injEq] at listed
    rcases listed with rfl | later
    · exact isWord_dropWhile (ordinary_of_other other (letter_of_no_symbol symbol greater))
    · exact (ih later).mono ((dropWhile_suffix _).trans (suffix_cons ..))

theorem IsWord.apart {b : Span} (word : IsWord s a) (other : IsWord s b) {i : Nat}
    (inside : i < a.text.length) : b.eq.length + i ≠ a.q.length := by
  intro same
  have ends : b.eq <:+ s :=
    (suffix_append b.text b.eq).trans (other.text ▸ other.inside)
  have rest := suffix_of_suffix_length_le ends word.inside (by omega)
  have drop : b.eq = a.q.drop i := by
    rw [suffix_iff_eq_drop.mp rest]
    congr 1
    omega
  have first : a.q.drop i = a.text.get ⟨i, inside⟩ :: (a.text.drop (i + 1) ++ a.eq) := by
    rw [word.text, drop_append_of_le_length inside.le, drop_eq_getElem_cons inside]
    rfl
  have letter := word.ordinary _ (getElem_mem inside)
  exact Bool.false_ne_true ((other.maximal _ _ (drop.trans first)).symm.trans letter)

namespace Cmd

variable {S : Type}

/-- The strings of a tree, in the order in which `nulterminate` comes to them. -/
def strings : Cmd S → List S
  | .exec argv => argv
  | .redir cmd file _ _ => cmd.strings ++ [file]
  | .pipe left right | .list left right => left.strings ++ right.strings
  | .back cmd => cmd.strings

end Cmd

theorem strings_backs (n : Nat) (cmd : Cmd Span) : (backs n cmd).strings = cmd.strings := by
  induction n generalizing cmd with
  | zero => rfl
  | succ n ih => exact ih (.back cmd)

theorem mem_strings_wrapAll {cmd : Cmd Span} {rs : List Redir}
    (listed : a ∈ (wrapAll cmd rs).strings) :
    a ∈ cmd.strings ∨ .word a ∈ rs.flatMap Redir.tokens := by
  induction rs generalizing cmd with
  | nil => exact .inl listed
  | cons r rs ih =>
    rw [flatMap_cons, mem_append]
    rcases ih listed with inner | later
    · cases r <;> simp_all [Redir.wrap, Cmd.strings, Redir.tokens]
      all_goals tauto
    · exact .inr (.inr later)

variable {items : List Item}

theorem mem_wordsOf (listed : a ∈ wordsOf items) : .word a ∈ items.flatMap Item.tokens := by
  obtain ⟨item, member, same⟩ := mem_filterMap.mp listed
  cases item with
  | word b =>
    cases same
    exact mem_flatMap.mpr ⟨_, member, mem_singleton.mpr rfl⟩
  | redir r => contradiction

theorem redirsOf_tokens {tok : Tok} (listed : tok ∈ (redirsOf items).flatMap Redir.tokens) :
    tok ∈ items.flatMap Item.tokens := by
  obtain ⟨r, member, inside⟩ := mem_flatMap.mp listed
  obtain ⟨item, member', same⟩ := mem_filterMap.mp member
  cases item with
  | word b => contradiction
  | redir r' =>
    cases same
    exact mem_flatMap.mpr ⟨_, member', inside⟩

variable {tree : Cmd Span}

theorem Derives.strings {phrase : Phrase} {ts : List Tok} (derives : Derives phrase ts tree)
    (listed : a ∈ tree.strings) : .word a ∈ ts := by
  induction derives with
  | lastLine n _ ih =>
    rw [strings_backs] at listed
    exact mem_append_left _ (ih listed)
  | moreLines n _ _ ih later =>
    rw [Cmd.strings, strings_backs, mem_append] at listed
    simp only [mem_append, mem_cons]
    exact listed.imp (fun first => .inl (ih first)) fun rest => .inr (later rest)
  | lastPipe _ ih => exact ih listed
  | morePipes _ _ ih later =>
    rw [Cmd.strings, mem_append] at listed
    simp only [mem_append, mem_cons]
    exact listed.imp ih fun rest => .inr (later rest)
  | block rs _ ih =>
    simp only [mem_append, mem_cons]
    rcases mem_strings_wrapAll listed with inner | redir
    · exact .inl (.inr (ih inner))
    · exact .inr (.inr redir)
  | simple items few =>
    rcases mem_strings_wrapAll listed with word | redir
    · exact mem_wordsOf word
    · exact redirsOf_tokens redir

theorem nulterminate_eq (buf : Buffer) (tree : Cmd Span) :
    nulterminate buf tree = tree.strings.foldl (fun buf a => buf.terminate a.eq) buf := by
  induction tree generalizing buf with
  | exec argv => rfl
  | redir cmd file mode fd ih =>
    rw [nulterminate, ih, Cmd.strings, foldl_append]
    rfl
  | pipe left right first second =>
    rw [nulterminate, first, second, Cmd.strings, foldl_append]
  | list left right first second =>
    rw [nulterminate, first, second, Cmd.strings, foldl_append]
  | back cmd ih => exact ih buf

section Terminated

variable {spans : List Span} {buf : Buffer} {i : Nat}

def terminateAll (spans : List Span) (buf : Buffer) : Buffer :=
  spans.foldl (fun buf a => buf.terminate a.eq) buf

theorem length_terminateAll : (terminateAll spans buf).length = buf.length := by
  induction spans generalizing buf with
  | nil => rfl
  | cons a spans ih => exact ih.trans (length_set ..)

/-- Elsewhere the memory is as it was. -/
theorem terminateAll_other (apart : ∀ a ∈ spans, Ptr.index buf a.eq ≠ i) :
    (terminateAll spans buf)[i]? = buf[i]? := by
  induction spans generalizing buf with
  | nil => rfl
  | cons a spans ih =>
    have same : (buf.terminate a.eq).length = buf.length := length_set ..
    refine (ih fun b later => ?_).trans (List.getElem?_set_ne (apart a mem_cons_self))
    rw [Ptr.index, same]
    exact apart b (mem_cons_of_mem a later)

theorem terminateAll_stays (spans : List Span) (buf : Buffer) (terminated : buf[i]? = some '\x00') :
    (terminateAll spans buf)[i]? = some '\x00' := by
  induction spans generalizing buf with
  | nil => exact terminated
  | cons a spans ih =>
    have inside := (List.getElem?_eq_some_iff.mp terminated).1
    refine ih (buf.terminate a.eq) ?_
    by_cases here : Ptr.index buf a.eq = i
    · rw [Buffer.terminate, here, List.getElem?_set_self inside]
    · rw [Buffer.terminate, List.getElem?_set_ne here, terminated]

/-- Behind each of the spans there is a terminator. -/
theorem terminateAll_end (buf : Buffer) (listed : a ∈ spans)
    (inside : Ptr.index buf a.eq < buf.length) :
    (terminateAll spans buf)[Ptr.index buf a.eq]? = some '\x00' := by
  induction spans generalizing buf with
  | nil => contradiction
  | cons b spans ih =>
    have same : (buf.terminate b.eq).length = buf.length := length_set ..
    have index : Ptr.index (buf.terminate b.eq) a.eq = Ptr.index buf a.eq := by
      rw [Ptr.index, same]
      rfl
    rcases mem_cons.mp listed with rfl | later
    · exact terminateAll_stays spans (buf.terminate a.eq) (List.getElem?_set_self inside)
    · have found := ih (buf.terminate b.eq) later (by rw [index, same]; exact inside)
      rwa [index] at found

theorem takeWhile_of_getElem? {α : Type} {p : α → Bool} {word l : List α} (stop : α)
    (same : ∀ i < word.length, l[i]? = word[i]?) (ends : l[word.length]? = some stop)
    (inside : ∀ c ∈ word, p c = true) (outside : p stop = false) : l.takeWhile p = word := by
  induction word generalizing l with
  | nil =>
    cases l with
    | nil => rfl
    | cons c l =>
      cases ends
      exact takeWhile_cons_of_neg (by rw [outside]; exact Bool.false_ne_true)
  | cons c word ih =>
    cases l with
    | nil => contradiction
    | cons d l =>
      obtain rfl : d = c := Option.some.inj (same 0 (Nat.succ_pos _))
      rw [takeWhile_cons_of_pos (inside d mem_cons_self)]
      congr 1
      exact ih (fun i below => same (i + 1) (Nat.succ_lt_succ below)) ends
        fun e listed => inside e (mem_cons_of_mem d listed)

variable {input : Ptr}

theorem string_terminateAll (nul : '\x00' ∉ input) (words : ∀ b ∈ spans, IsWord input b)
    (listed : a ∈ spans) : (terminateAll spans (input ++ ['\x00'])).string a.q = a.text := by
  have word := words a listed
  obtain ⟨front, whole⟩ := word.inside
  have lengths : front.length + a.q.length = input.length := by
    rw [← whole, length_append]
  have parts : a.text.length + a.eq.length = a.q.length := by
    rw [← length_append, ← word.text]
  have size : (input ++ ['\x00']).length = input.length + 1 := by simp
  have start : Ptr.index (terminateAll spans (input ++ ['\x00'])) a.q = front.length := by
    rw [Ptr.index, length_terminateAll, size]
    omega
  have end_ : Ptr.index (input ++ ['\x00']) a.eq = front.length + a.text.length := by
    rw [Ptr.index, size]
    omega
  rw [Buffer.string, start]
  refine takeWhile_of_getElem? '\x00' (fun i below => ?_) ?_ (fun c within => ?_) rfl
  · rw [List.getElem?_drop, terminateAll_other fun b other => ?_]
    · rw [← whole, append_assoc, List.getElem?_append_right (by omega),
        Nat.add_sub_cancel_left, word.text, append_assoc, List.getElem?_append_left below]
    have apart := word.apart (words b other) below
    have ends : b.eq.length ≤ input.length := by
      have longer := (words b other).inside.length_le
      rw [(words b other).text, length_append] at longer
      omega
    rw [Ptr.index, size]
    omega
  · rw [List.getElem?_drop, ← end_]
    refine terminateAll_end _ listed ?_
    rw [end_, size]
    omega
  · have member : c ∈ input := by
      rw [← whole, word.text]
      exact mem_append_right _ (mem_append_left _ within)
    exact decide_eq_true fun same => nul (same ▸ member)

end Terminated

theorem ensures_peek_any {safe : Stop → Prop} {toks : List Char} {post : Bool → Ptr → Prop}
    (next : ∀ found, post found (skip s)) : Ensures safe (peek toks) s post := by
  rw [peek]
  simp only [ensures_bind, ensures_modify, ensures_get]
  split <;> exact (ensures_pure ..).2 (next _)

theorem parseAll_sound {fuel : Nat} (enough : 4 * s.length + 4 ≤ fuel) :
    Ensures (· ≠ .fuel) (parseAll fuel) s fun tree _ => Derives .line (tokens s) tree := by
  rw [parseAll, ensures_bind]
  refine ((sound fuel).line enough).mono fun tree t found => ?_
  obtain ⟨_, ts, at_, derives⟩ := found
  rw [ensures_bind]
  refine ensures_peek_any fun _ => ?_
  rw [ensures_bind, ensures_get]
  split
  · rename_i rest
    refine (ensures_pure ..).2 ?_
    rw [← tokens_skip t, rest, tokens, append_nil] at at_
    exact at_ ▸ derives
  · exact (ensures_throw ..).2 (by simp)

theorem parseAll_complete {fuel : Nat} (derives : Derives .line (tokens s) tree) :
    Ensures (· = .fuel) (parseAll fuel) s fun result _ => result = tree := by
  rw [parseAll, ensures_bind]
  refine (derives.finds (append_nil _).symm (follows_nil _)).mono ?_
  rintro result t ⟨rfl, none⟩
  rw [ensures_bind]
  refine ensures_peek_any fun _ => ?_
  rw [ensures_bind, ensures_get, skip_eq_nil none, if_pos rfl, ensures_pure]

/-- **The parser of the shell accepts its grammar**: it returns the tree of the derivation of the
input, or panics if there is none, and the strings of the tree are the texts of its words. -/
theorem parsecmd_accepts (input : Ptr) (nul : '\x00' ∉ input) :
    (∀ tree, (∃ buf, parsecmd input = .ok (tree, buf)) ↔ Derives .line (tokens input) tree) ∧
      (∀ stop, parsecmd input = .error stop → ∃ message, stop = .panic message) ∧
      ∀ tree buf, parsecmd input = .ok (tree, buf) → ∀ a ∈ tree.strings,
        .word a ∈ tokens input ∧ IsWord input a ∧ buf.string a.q = a.text := by
  have sound := parseAll_sound (s := input) le_rfl
  cases outcome : (parseAll (4 * input.length + 4)).run input with
  | ok result =>
    obtain ⟨tree, t⟩ := result
    have derives := sound.returns tree t outcome
    have parsed : parsecmd input = .ok (tree, nulterminate (input ++ ['\x00']) tree) := by
      rw [parsecmd, outcome]
      rfl
    refine ⟨fun other => ⟨?_, fun derives' => ?_⟩, fun stop stopped => ?_, ?_⟩
    · rintro ⟨buf, same⟩
      rw [parsed] at same
      cases same
      exact derives
    · obtain rfl := (parseAll_complete derives').returns tree t outcome
      exact ⟨_, parsed⟩
    · rw [parsed] at stopped
      contradiction
    · intro other buf same a listed
      rw [parsed] at same
      cases same
      have words : ∀ b ∈ tree.strings, IsWord input b := fun b listed' =>
        isWord_of_mem (derives.strings listed')
      refine ⟨derives.strings listed, words a listed, ?_⟩
      rw [nulterminate_eq]
      exact string_terminateAll nul words listed
  | error stop =>
    have safe := sound.stops stop outcome
    have parsed : parsecmd input = .error stop := by
      rw [parsecmd, outcome]
      rfl
    refine ⟨fun tree => ⟨?_, fun derives => ?_⟩, fun other stopped => ?_, ?_⟩
    · rintro ⟨buf, same⟩
      rw [parsed] at same
      contradiction
    · exact absurd ((parseAll_complete derives).stops stop outcome) safe
    · rw [parsed] at stopped
      cases stopped
      cases stop with
      | panic message => exact ⟨message, rfl⟩
      | fuel => contradiction
    · intro tree buf same
      rw [parsed] at same
      contradiction

def sampleInput : Ptr := ['a', '|', 'b']

def sampleTree : Cmd Span := .pipe (.exec [⟨sampleInput, ['|', 'b']⟩]) (.exec [⟨['b'], []⟩])

theorem sampleInput_accepted :
    '\x00' ∉ sampleInput ∧ Derives .line (tokens sampleInput) sampleTree := by
  have nul : '\x00' ∉ sampleInput := by decide
  exact ⟨nul, ((parsecmd_accepts sampleInput nul).1 sampleTree).mp
    ⟨['a', '\x00', 'b', '\x00'], rfl⟩⟩

end OsLab.Shell
