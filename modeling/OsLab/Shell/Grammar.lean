import OsLab.Shell.Parser

/-!
# The grammar of the shell

The tokens of an input, the grammar over them with the tree of each derivation, and how `peek` and
`gettoken` go along the tokens.
-/

namespace OsLab.Shell

open Act List

/-- A token; a word with where it stands in the input. -/
inductive Tok where
  | word (a : Span)
  | lt
  | gt
  | gtgt
  | bar
  | amp
  | semi
  | lpar
  | rpar
deriving DecidableEq, Repr

/-- The tokens of a symbol on its own. -/
def symbolTok : Char → Option Tok
  | '|' => some .bar
  | '(' => some .lpar
  | ')' => some .rpar
  | ';' => some .semi
  | '&' => some .amp
  | '<' => some .lt
  | _ => none

theorem length_dropWhile_le {α : Type} (p : α → Bool) (s : List α) :
    (s.dropWhile p).length ≤ s.length :=
  (dropWhile_suffix p).length_le

/-- The tokens of an input: blanks separate, `>>` is one token, and words are as long as can be. -/
def tokens : Ptr → List Tok
  | [] => []
  | c :: s =>
    if c ∈ whitespace then tokens s
    else
      match symbolTok c with
      | some tok => tok :: tokens s
      | none =>
        if c = '>' then
          if s.head? = some '>' then .gtgt :: tokens s.tail else .gt :: tokens s
        else .word ⟨c :: s, s.dropWhile ordinary⟩ :: tokens (s.dropWhile ordinary)
termination_by s => s.length
decreasing_by
  all_goals simp only [length_cons, length_tail]
  all_goals first | omega | exact Nat.lt_succ_of_le (length_dropWhile_le ordinary s)

/-- What `gettoken` returns for a token. -/
def Tok.kind : Tok → Char
  | .word _ => 'a'
  | .lt => '<'
  | .gt => '>'
  | .gtgt => '+'
  | .bar => '|'
  | .amp => '&'
  | .semi => ';'
  | .lpar => '('
  | .rpar => ')'

/-- The symbol that a token begins with. -/
def Tok.first : Tok → Option Char
  | .word _ => none
  | .gtgt => some '>'
  | tok => some tok.kind

/-- `redir ::= ('<' | '>' | '>>') word`. -/
inductive Redir where
  | input (file : Span)
  | output (file : Span)
  | append (file : Span)

def Redir.tokens : Redir → List Tok
  | .input file => [.lt, .word file]
  | .output file => [.gt, .word file]
  | .append file => [.gtgt, .word file]

/-- The node that a redirection puts around a command. -/
def Redir.wrap (cmd : Cmd Span) : Redir → Cmd Span
  | .input file => .redir cmd file oRdonly 0
  | .output file => .redir cmd file (oWronly ||| oCreate ||| oTrunc) 1
  | .append file => .redir cmd file (oWronly ||| oCreate) 1

/-- What a simple command consists of. -/
inductive Item where
  | word (a : Span)
  | redir (r : Redir)

def Item.tokens : Item → List Tok
  | .word a => [.word a]
  | .redir r => r.tokens

/-- The words of a simple command. -/
def wordsOf (items : List Item) : List Span :=
  items.filterMap fun
    | .word a => some a
    | .redir _ => none

/-- The redirections of a simple command. -/
def redirsOf (items : List Item) : List Redir :=
  items.filterMap fun
    | .word _ => none
    | .redir r => some r

/-- Later redirections wrap earlier ones. -/
def wrapAll (cmd : Cmd Span) (rs : List Redir) : Cmd Span := rs.foldl Redir.wrap cmd

/-- `BACK` nests for each `&`. -/
def backs (n : Nat) (cmd : Cmd Span) : Cmd Span := Cmd.back^[n] cmd

/-- The symbols of the grammar that have trees. -/
inductive Phrase where
  | line
  | pipe
  | cmd

/-- The tokens derive from the phrase, with this tree. -/
inductive Derives : Phrase → List Tok → Cmd Span → Prop where
  /-- `line ::= pipe '&'*`. -/
  | lastLine {ts c} (n : Nat) (first : Derives .pipe ts c) :
      Derives .line (ts ++ List.replicate n .amp) (backs n c)
  /-- `line ::= pipe '&'* ';' line`. -/
  | moreLines {ts us c d} (n : Nat) (first : Derives .pipe ts c) (rest : Derives .line us d) :
      Derives .line (ts ++ List.replicate n .amp ++ .semi :: us) (.list (backs n c) d)
  /-- `pipe ::= cmd`. -/
  | lastPipe {ts c} (first : Derives .cmd ts c) : Derives .pipe ts c
  /-- `pipe ::= cmd '|' pipe`. -/
  | morePipes {ts us c d} (first : Derives .cmd ts c) (rest : Derives .pipe us d) :
      Derives .pipe (ts ++ .bar :: us) (.pipe c d)
  /-- `cmd ::= '(' line ')' redir*`. -/
  | block {ts c} (rs : List Redir) (inner : Derives .line ts c) :
      Derives .cmd (.lpar :: ts ++ .rpar :: rs.flatMap Redir.tokens) (wrapAll c rs)
  /-- `cmd ::= redir* (word redir*)*`, with at most `MAXARGS - 1` words. -/
  | simple (items : List Item) (few : (wordsOf items).length ≤ maxargs - 1) :
      Derives .cmd (items.flatMap Item.tokens) (wrapAll (.exec (wordsOf items)) (redirsOf items))

variable {c : Char}

theorem skip_cons_blank (blank : c ∈ whitespace) (s : Ptr) : skip (c :: s) = skip s := by
  simp [skip, blank]

theorem skip_cons_other (other : c ∉ whitespace) (s : Ptr) : skip (c :: s) = c :: s := by
  simp [skip, other]

theorem length_skip_le (s : Ptr) : (skip s).length ≤ s.length := length_dropWhile_le _ s

@[simp]
theorem tokens_skip (s : Ptr) : tokens (skip s) = tokens s := by
  induction s with
  | nil => rfl
  | cons c s ih =>
    by_cases blank : c ∈ whitespace
    · rw [skip_cons_blank blank, ih, tokens, if_pos blank]
    · rw [skip_cons_other blank]

theorem skip_cases (s : Ptr) : skip s = [] ∨ ∃ c t, skip s = c :: t ∧ c ∉ whitespace := by
  cases rest : skip s with
  | nil => exact .inl rfl
  | cons c t =>
    refine .inr ⟨c, t, rfl, ?_⟩
    have other := List.head?_dropWhile_not (· ∈ whitespace) s
    rw [show s.dropWhile (· ∈ whitespace) = c :: t from rest] at other
    simpa using other

theorem symbolTok_eq_some {tok : Tok} (symbol : symbolTok c = some tok) :
    c ∈ ['|', '(', ')', ';', '&', '<'] ∧ tok.kind = c ∧ tok.first = some c ∧
      ∀ a, tok ≠ .word a := by
  unfold symbolTok at symbol
  split at symbol
  all_goals first | contradiction | skip
  all_goals
    cases symbol
    exact ⟨by decide, rfl, rfl, nofun⟩

theorem symbolTok_eq_none (symbol : symbolTok c = none) : c ∉ ['|', '(', ')', ';', '&', '<'] := by
  unfold symbolTok at symbol
  split at symbol
  all_goals first | contradiction | skip
  simp only [mem_cons, not_mem_nil, or_false]
  tauto

theorem letter_of_no_symbol (symbol : symbolTok c = none) (single : c ≠ '>') : c ∉ symbols := by
  have absent := symbolTok_eq_none symbol
  simp only [symbols, mem_cons, not_mem_nil, or_false] at absent ⊢
  tauto

theorem ordinary_of_other (other : c ∉ whitespace) (letter : c ∉ symbols) : ordinary c = true := by
  simp [ordinary, other, letter]

/-- The first token of an input without leading blanks. -/
theorem scan_spec {t : Ptr} (other : c ∉ whitespace) :
    ∃ tok, tokens (c :: t) = tok :: tokens (scan (c :: t)).2 ∧ (scan (c :: t)).1 = tok.kind ∧
      (scan (c :: t)).2.length ≤ t.length ∧
      (∀ a, tok = .word a → a = ⟨c :: t, (scan (c :: t)).2⟩) ∧
      (tok.first = none ∧ c ∉ symbols ∨ tok.first = some c) := by
  cases symbol : symbolTok c with
  | some tok =>
    obtain ⟨listed, kind, first, noWord⟩ := symbolTok_eq_some symbol
    have scanned : scan (c :: t) = (c, t) := if_pos listed
    refine ⟨tok, ?_, ?_, ?_, fun a same => absurd same (noWord a), .inr first⟩
    · rw [tokens, if_neg other, symbol, scanned]
    · rw [scanned, kind]
    · rw [scanned]
  | none =>
    have absent := symbolTok_eq_none symbol
    by_cases greater : c = '>'
    · subst greater
      by_cases double : t.head? = some '>'
      · have scanned : scan ('>' :: t) = ('+', t.tail) := if_pos double
        refine ⟨.gtgt, ?_, by rw [scanned]; rfl, ?_, nofun, .inr rfl⟩
        · rw [tokens, if_neg other, symbol, scanned]
          exact if_pos double
        · rw [scanned, length_tail]
          omega
      · have scanned : scan ('>' :: t) = ('>', t) := if_neg double
        refine ⟨.gt, ?_, by rw [scanned]; rfl, by rw [scanned], nofun, .inr rfl⟩
        rw [tokens, if_neg other, symbol, scanned]
        exact if_neg double
    · have letter := letter_of_no_symbol symbol greater
      have plain := ordinary_of_other other letter
      have scanned : scan (c :: t) = ('a', t.dropWhile ordinary) := by
        rw [scan, if_neg absent, if_neg greater, dropWhile_cons_of_pos plain]
      refine ⟨.word ⟨c :: t, t.dropWhile ordinary⟩, ?_, by rw [scanned]; rfl, ?_, ?_,
        .inl ⟨rfl, letter⟩⟩
      · rw [tokens, if_neg other, symbol, scanned]
        exact if_neg greater
      · rw [scanned]
        exact length_dropWhile_le ordinary t
      · rw [scanned]
        exact fun a same => (Tok.word.inj same).symm

theorem skip_eq_nil {s : Ptr} (none : tokens s = []) : skip s = [] := by
  rcases skip_cases s with rest | ⟨c, t, rest, other⟩
  · exact rest
  · obtain ⟨tok, first, _⟩ := scan_spec (t := t) other
    rw [← tokens_skip, rest, first] at none
    contradiction

section Moves

variable {safe : Stop → Prop} {s : Ptr} {tok : Tok} {ts : List Tok}
  {post : Char × Span → Ptr → Prop}

theorem ensures_gettoken_nil (none : tokens s = []) (next : ∀ a, post ('\x00', a) []) :
    Ensures safe gettoken s post := by
  rw [gettoken]
  simp only [ensures_bind, ensures_get, ensures_set, ensures_pure, skip_eq_nil none]
  exact next _

theorem ensures_gettoken (some_ : tokens s = tok :: ts)
    (next : ∀ a t, tokens t = ts → t.length < s.length → (∀ b, tok = .word b → a = b) →
      post (tok.kind, a) t) : Ensures safe gettoken s post := by
  rcases skip_cases s with rest | ⟨c, t, rest, other⟩
  · rw [← tokens_skip, rest, tokens] at some_
    contradiction
  obtain ⟨tok', first, kind, shorter, word, _⟩ := scan_spec (t := t) other
  rw [← tokens_skip, rest, first] at some_
  cases some_
  rw [gettoken]
  simp only [ensures_bind, ensures_get, ensures_set, ensures_pure, rest]
  rw [kind]
  refine next _ _ (tokens_skip _) ?_ fun b same => (word b same).symm
  have whole := length_skip_le s
  rw [rest, length_cons] at whole
  have last := length_skip_le (scan (c :: t)).2
  omega

/-- What `peek` finds in front of some tokens. -/
def startsWith (toks : List Char) : List Tok → Bool
  | [] => false
  | tok :: _ => tok.first.any (· ∈ toks)

theorem ensures_peek {toks : List Char} {post : Bool → Ptr → Prop} (among : ∀ c ∈ toks, c ∈ symbols)
    (next : ∀ t, tokens t = tokens s → t.length ≤ s.length → post (startsWith toks (tokens s)) t) :
    Ensures safe (peek toks) s post := by
  have found := next (skip s) (tokens_skip s) (length_skip_le s)
  rw [peek]
  simp only [ensures_bind, ensures_modify, ensures_get]
  rcases skip_cases s with rest | ⟨c, t, rest, other⟩
  · rw [← tokens_skip, rest] at found
    rw [rest]
    exact (ensures_pure ..).2 (by simpa [tokens, startsWith] using found)
  obtain ⟨tok, first, _, _, _, begins⟩ := scan_spec (t := t) other
  rw [← tokens_skip, rest, first] at found
  rw [rest]
  refine (ensures_pure ..).2 ?_
  rcases begins with ⟨word, letter⟩ | symbol
  · have absent : c ∉ toks := fun listed => letter (among c listed)
    simpa [startsWith, word, absent] using found
  · simpa [startsWith, symbol] using found

end Moves

end OsLab.Shell
