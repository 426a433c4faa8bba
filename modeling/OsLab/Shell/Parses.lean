import OsLab.Shell.Grammar

/-!
# The parser accepts its grammar

Each function of the parser has rules for what it does with the next token.  From them follow, by
induction on the fuel, that what is returned derives from the grammar and that fuel does not run
out, and, by induction on derivations, that every derivation is found.
-/

namespace OsLab.Shell

open Act List

variable {safe : Stop → Prop} {s : Ptr} {ts us : List Tok} {fuel : Nat}
  {cmd ret : Cmd Span} {post : Cmd Span → Ptr → Prop}

/-- The tokens that redirections begin with. -/
inductive Redirects : Tok → (Span → Redir) → Prop where
  | lt : Redirects .lt .input
  | gt : Redirects .gt .output
  | gtgt : Redirects .gtgt .append

variable {tok : Tok} {make : Span → Redir}

theorem Redirects.tokens (begins : Redirects tok make) (a : Span) :
    (make a).tokens = [tok, .word a] := by
  cases begins <;> rfl

theorem Redir.begins (r : Redir) : ∃ tok make a, Redirects tok make ∧ r = make a := by
  cases r with
  | input a => exact ⟨_, _, a, .lt, rfl⟩
  | output a => exact ⟨_, _, a, .gt, rfl⟩
  | append a => exact ⟨_, _, a, .gtgt, rfl⟩

/-- A list of tokens begins with a redirection or `peek(ps, es, "<>")` fails. -/
theorem redirects_cases (ts : List Tok) : startsWith ['<', '>'] ts = false ∨
    ∃ tok make us, Redirects tok make ∧ ts = tok :: us := by
  cases ts with
  | nil => exact .inl rfl
  | cons tok us =>
    cases tok with
    | lt => exact .inr ⟨_, _, us, .lt, rfl⟩
    | gt => exact .inr ⟨_, _, us, .gt, rfl⟩
    | gtgt => exact .inr ⟨_, _, us, .gtgt, rfl⟩
    | _ => exact .inl rfl

theorem word_cases (ts : List Tok) : (∃ a us, ts = .word a :: us) ∨
    ts = [] ∨ ∃ tok us, ts = tok :: us ∧ tok.kind ≠ 'a' := by
  cases ts with
  | nil => exact .inr (.inl rfl)
  | cons tok us =>
    cases tok with
    | word a => exact .inl ⟨a, us, rfl⟩
    | _ => exact .inr (.inr ⟨_, us, rfl, by decide⟩)

theorem ensures_redir (begins : Redirects tok make) (at_ : tokens s = tok :: ts)
    (missing : (∀ a us, ts ≠ .word a :: us) → safe (.panic "missing file for redirection"))
    (next : ∀ a us t, ts = .word a :: us → tokens t = us → t.length < s.length →
      Ensures safe (parseredirs fuel ((make a).wrap cmd)) t post) :
    Ensures safe (parseredirs (fuel + 1) cmd) s post := by
  have peeked : startsWith ['<', '>'] (tok :: ts) = true := by cases begins <;> rfl
  rw [parseredirs, ensures_bind]
  refine ensures_peek (by simp [symbols]) fun t same shorter => ?_
  rw [at_] at same
  rw [at_, peeked, if_pos rfl, ensures_bind]
  refine ensures_gettoken same fun _ t' rest shorter' _ => ?_
  dsimp only
  rw [ensures_bind]
  rcases word_cases ts with ⟨a, us, word⟩ | none | ⟨other, us, first, noWord⟩
  · refine ensures_gettoken (rest.trans word) fun a' t'' last shorter'' same' => ?_
    obtain rfl : a' = a := same' a rfl
    have goes := next a' us t'' word last (by omega)
    cases begins <;> exact goes
  · refine ensures_gettoken_nil (rest.trans none) fun a' => ?_
    exact (ensures_throw ..).2 (missing fun a us word => by simp [none] at word)
  · refine ensures_gettoken (rest.trans first) fun a' t'' _ _ _ => ?_
    dsimp only
    rw [if_pos noWord]
    refine (ensures_throw ..).2 (missing fun a us word => ?_)
    obtain rfl := (List.cons.inj (first.symm.trans word)).1
    exact noWord rfl

theorem ensures_redirs_end (ends : startsWith ['<', '>'] (tokens s) = false)
    (next : ∀ t, tokens t = tokens s → t.length ≤ s.length → post cmd t) :
    Ensures safe (parseredirs (fuel + 1) cmd) s post := by
  rw [parseredirs, ensures_bind]
  refine ensures_peek (by simp [symbols]) fun t same shorter => ?_
  rw [ends, if_neg Bool.false_ne_true, ensures_pure]
  exact next t same shorter

@[simp]
theorem wrapAll_cons (cmd : Cmd Span) (r : Redir) (rs : List Redir) :
    wrapAll cmd (r :: rs) = wrapAll (r.wrap cmd) rs :=
  rfl

theorem wrapAll_snoc (cmd : Cmd Span) (r : Redir) (rs : List Redir) :
    wrapAll cmd (rs ++ [r]) = r.wrap (wrapAll cmd rs) :=
  foldl_append ..

theorem parseredirs_sound (enough : s.length < fuel) :
    Ensures (· ≠ .fuel) (parseredirs fuel cmd) s fun tree t => t.length ≤ s.length ∧
      ∃ rs : List Redir, tokens s = rs.flatMap Redir.tokens ++ tokens t ∧
        tree = wrapAll cmd rs := by
  induction fuel generalizing s cmd with
  | zero => omega
  | succ fuel ih =>
    rcases redirects_cases (tokens s) with ends | ⟨tok, make, us, begins, at_⟩
    · exact ensures_redirs_end ends fun t same shorter => ⟨shorter, [], same.symm, rfl⟩
    refine ensures_redir begins at_ (fun _ => nofun) fun a us' t word rest shorter => ?_
    refine (ih (by omega)).mono fun tree t' ⟨shorter', rs, more, built⟩ => ?_
    refine ⟨by omega, make a :: rs, ?_, built⟩
    rw [at_, word, ← rest, more, flatMap_cons, begins.tokens]
    rfl

variable (rs : List Redir)

theorem parseredirs_complete (at_ : tokens s = rs.flatMap Redir.tokens ++ us)
    (ends : startsWith ['<', '>'] us = false) :
    Ensures (· = .fuel) (parseredirs fuel cmd) s fun tree t =>
      tree = wrapAll cmd rs ∧ tokens t = us := by
  induction rs generalizing s cmd fuel with
  | nil =>
    obtain _ | fuel := fuel
    · exact (ensures_throw ..).2 rfl
    refine ensures_redirs_end ?_ fun t same _ => ⟨rfl, same.trans at_⟩
    rw [at_]
    exact ends
  | cons r rs ih =>
    obtain _ | fuel := fuel
    · exact (ensures_throw ..).2 rfl
    obtain ⟨tok, make, a, begins, rfl⟩ := r.begins
    rw [flatMap_cons, begins.tokens] at at_
    refine ensures_redir begins at_ (fun missing => absurd rfl (missing a _)) ?_
    intro a' us' t word rest _
    obtain ⟨first, rfl⟩ := List.cons.inj word
    cases first
    exact ih rest

theorem Tok.kind_ne_nul (tok : Tok) : tok.kind ≠ '\x00' := by
  cases tok <;> simp [Tok.kind]

variable {argc : Nat}

theorem ensures_word {a : Span} (at_ : tokens s = .word a :: ts)
    (many : maxargs ≤ argc + 1 → safe (.panic "too many args"))
    (next : ∀ t, argc + 1 < maxargs → tokens t = ts → t.length < s.length →
      Ensures safe (parseredirs fuel (ret.addArg a)) t fun ret' t' => Ensures safe (parseargs fuel
      (argc + 1) ret') t' post) :
    Ensures safe (parseargs (fuel + 1) argc ret) s post := by
  rw [parseargs, ensures_bind]
  refine ensures_peek (by simp [symbols]) fun t same shorter => ?_
  rw [at_] at same
  rw [at_, show startsWith ['|', ')', '&', ';'] (.word a :: ts) = false from rfl,
    if_neg Bool.false_ne_true, ensures_bind]
  refine ensures_gettoken same fun a' t' rest shorter' same' => ?_
  obtain rfl : a' = a := same' a rfl
  dsimp only
  rw [if_neg (Tok.kind_ne_nul _), if_neg (show ¬ (Tok.word a').kind ≠ 'a' from not_not.mpr rfl)]
  by_cases full : maxargs ≤ argc + 1
  · rw [if_pos full, ensures_throw]
    exact many full
  · rw [if_neg full, ensures_bind]
    exact next t' (Nat.lt_of_not_le full) rest (by omega)

/-- The tokens at which `parseargs` ends. -/
def endsArgs (ts : List Tok) : Prop := ts = [] ∨ startsWith ['|', ')', '&', ';'] ts = true

theorem ensures_args_end (ends : endsArgs (tokens s))
    (next : ∀ t, tokens t = tokens s → t.length ≤ s.length → post ret t) :
    Ensures safe (parseargs (fuel + 1) argc ret) s post := by
  rw [parseargs, ensures_bind]
  refine ensures_peek (by simp [symbols]) fun t same shorter => ?_
  rcases ends with none | stops
  · rw [none, show startsWith ['|', ')', '&', ';'] [] = false from rfl,
      if_neg Bool.false_ne_true, ensures_bind]
    refine ensures_gettoken_nil (same.trans none) fun a => ?_
    dsimp only
    rw [if_pos rfl, ensures_pure]
    exact next [] (none.symm ▸ (by rw [tokens])) (Nat.zero_le _)
  · rw [stops, if_pos rfl, ensures_pure]
    exact next t same shorter

theorem ensures_args_syntax {argc : Nat} (at_ : tokens s = tok :: ts)
    (stays : startsWith ['|', ')', '&', ';'] (tok :: ts) = false) (noWord : tok.kind ≠ 'a')
    (stop : safe (.panic "syntax")) : Ensures safe (parseargs (fuel + 1) argc ret) s post := by
  rw [parseargs, ensures_bind]
  refine ensures_peek (by simp [symbols]) fun t same shorter => ?_
  rw [at_] at same
  rw [at_, stays, if_neg Bool.false_ne_true, ensures_bind]
  refine ensures_gettoken same fun _ t' _ _ _ => ?_
  dsimp only
  rw [if_neg (Tok.kind_ne_nul _), if_pos noWord, ensures_throw]
  exact stop

/-- A command with more words and redirections. -/
def extend (cmd : Cmd Span) (items : List Item) : Cmd Span :=
  items.foldl (fun cmd item =>
    match item with
    | .word a => cmd.addArg a
    | .redir r => r.wrap cmd) cmd

theorem extend_append (cmd : Cmd Span) (first second : List Item) :
    extend cmd (first ++ second) = extend (extend cmd first) second :=
  foldl_append ..

theorem extend_redirs : extend cmd (rs.map .redir) = wrapAll cmd rs :=
  foldl_map ..

theorem addArg_wrapAll (a : Span) (rs : List Redir) :
    (wrapAll cmd rs).addArg a = wrapAll (cmd.addArg a) rs := by
  induction rs generalizing cmd with
  | nil => rfl
  | cons r rs ih =>
    rw [wrapAll_cons, ih]
    cases r <;> rfl

theorem extend_exec (ws : List Span) (rs : List Redir) (items : List Item) :
    extend (wrapAll (.exec ws) rs) items =
      wrapAll (.exec (ws ++ wordsOf items)) (rs ++ redirsOf items) := by
  induction items generalizing ws rs with
  | nil => simp [extend, wordsOf, redirsOf]
  | cons item items ih =>
    cases item with
    | word a =>
      have next := ih (ws ++ [a]) rs
      rw [append_assoc] at next
      refine Eq.trans ?_ next
      exact congrArg (extend · items) (addArg_wrapAll a rs)
    | redir r =>
      have next := ih ws (rs ++ [r])
      rw [append_assoc] at next
      refine Eq.trans ?_ next
      exact congrArg (extend · items) (wrapAll_snoc _ r rs).symm

theorem wordsOf_redirs (items : List Item) :
    wordsOf (rs.map .redir ++ items) = wordsOf items := by
  induction rs with
  | nil => rfl
  | cons r rs ih => exact ih

theorem flatMap_redirs :
    (rs.map Item.redir).flatMap Item.tokens = rs.flatMap Redir.tokens := by
  rw [flatMap_map]
  rfl

/-- A list of items that does not begin with a redirection. -/
def WordFirst (items : List Item) : Prop := items = [] ∨ ∃ a rest, items = .word a :: rest

theorem leading_redirs (items : List Item) :
    ∃ (rs : List Redir) (rest : List Item), items = rs.map .redir ++ rest ∧ WordFirst rest := by
  induction items with
  | nil => exact ⟨[], [], rfl, .inl rfl⟩
  | cons item items ih =>
    cases item with
    | word a => exact ⟨[], _, rfl, .inr ⟨a, items, rfl⟩⟩
    | redir r =>
      obtain ⟨rs, rest, rfl, first⟩ := ih
      exact ⟨r :: rs, rest, rfl, first⟩

theorem endsArgs.no_redir (ends : endsArgs ts) : startsWith ['<', '>'] ts = false := by
  rcases ends with rfl | stops
  · rfl
  · cases ts with
    | nil => rfl
    | cons tok ts => cases tok <;> first | rfl | contradiction

variable {items : List Item}

theorem WordFirst.no_redir (first : WordFirst items) (ends : endsArgs us) :
    startsWith ['<', '>'] (items.flatMap Item.tokens ++ us) = false := by
  rcases first with rfl | ⟨a, rest, rfl⟩
  · exact ends.no_redir
  · rfl

theorem parseargs_sound (enough : s.length < fuel) (few : argc ≤ maxargs - 1) :
    Ensures (· ≠ .fuel) (parseargs fuel argc ret) s fun tree t => t.length ≤ s.length ∧
      ∃ items : List Item, tokens s = items.flatMap Item.tokens ++ tokens t ∧
        tree = extend ret items ∧ argc + (wordsOf items).length ≤ maxargs - 1 := by
  induction fuel generalizing s argc ret with
  | zero => omega
  | succ fuel ih =>
    rcases word_cases (tokens s) with ⟨a, us, word⟩ | none | ⟨tok, us, first, noWord⟩
    · refine ensures_word word (fun _ => nofun) fun t space rest shorter => ?_
      refine (parseredirs_sound (by omega)).mono fun ret' t' ⟨shorter', rs, redirs, built⟩ => ?_
      refine (ih (by omega) (by omega)).mono fun tree t'' ⟨last, items, more, tree_, fits⟩ => ?_
      refine ⟨by omega, .word a :: (rs.map .redir ++ items), ?_, ?_, ?_⟩
      · rw [word, flatMap_cons, flatMap_append, flatMap_redirs, ← rest, redirs, more]
        simp [Item.tokens]
      · rw [tree_, built]
        refine Eq.symm ((extend_append (ret.addArg a) _ _).trans ?_)
        rw [extend_redirs]
      · change argc + (wordsOf (rs.map .redir ++ items)).length.succ ≤ _
        rw [wordsOf_redirs]
        omega
    · exact ensures_args_end (.inl none) fun t same shorter =>
        ⟨shorter, [], same.symm, rfl, few⟩
    · by_cases stops : startsWith ['|', ')', '&', ';'] (tokens s) = true
      · exact ensures_args_end (.inr stops) fun t same shorter =>
          ⟨shorter, [], same.symm, rfl, few⟩
      · rw [first, Bool.not_eq_true] at stops
        exact ensures_args_syntax first stops noWord nofun

theorem parseargs_complete (first : WordFirst items)
    (at_ : tokens s = items.flatMap Item.tokens ++ us) (ends : endsArgs us)
    (few : argc + (wordsOf items).length ≤ maxargs - 1) :
    Ensures (· = .fuel) (parseargs fuel argc ret) s fun tree t =>
      tree = extend ret items ∧ tokens t = us := by
  induction fuel generalizing s argc ret items with
  | zero => exact (ensures_throw ..).2 rfl
  | succ fuel ih =>
    rcases first with rfl | ⟨a, rest, rfl⟩
    · refine ensures_args_end ?_ fun t same _ => ⟨rfl, same.trans at_⟩
      rw [at_]
      exact ends
    have count : (wordsOf (.word a :: rest)).length = (wordsOf rest).length + 1 := rfl
    have small : maxargs - 1 < maxargs := by decide
    obtain ⟨rs, later, rfl, first⟩ := leading_redirs rest
    rw [wordsOf_redirs] at count
    rw [flatMap_cons, flatMap_append, flatMap_redirs, append_assoc, append_assoc] at at_
    change tokens s = .word a :: (rs.flatMap Redir.tokens ++ (later.flatMap Item.tokens ++ us))
      at at_
    refine ensures_word at_ (fun full => by omega) fun t _ more _ => ?_
    refine (parseredirs_complete rs more (first.no_redir ends)).mono ?_
    rintro ret' t' ⟨rfl, left⟩
    refine (ih first left (by omega)).mono ?_
    rintro tree t'' ⟨rfl, last⟩
    refine ⟨?_, last⟩
    refine Eq.symm ((extend_append (ret.addArg a) _ _).trans ?_)
    rw [extend_redirs]

variable {c : Char}

theorem first_eq_iff (symbol : symbolTok c = some tok) (other : Tok) :
    other.first = some c ↔ other = tok := by
  unfold symbolTok at symbol
  split at symbol
  all_goals first | contradiction | skip
  all_goals
    cases symbol
    cases other <;> simp [Tok.first, Tok.kind]

theorem startsWith_symbol (symbol : symbolTok c = some tok) :
    startsWith [c] ts = true ↔ ∃ us, ts = tok :: us := by
  cases ts with
  | nil => simp [startsWith]
  | cons other us =>
    rw [startsWith, Option.any_eq_true]
    simp only [mem_singleton, decide_eq_true_eq, exists_eq_right, first_eq_iff symbol,
      List.cons.injEq, exists_and_left, exists_eq', and_true]

/-- `if (peek(ps, es, "c")) { gettoken(ps, es, 0, 0); taken } else { other }`. -/
theorem ensures_symbol (tok : Tok) (symbol : symbolTok c = some tok)
    {taken other : Parse (Cmd Span)}
    (yes : ∀ ts t, tokens s = tok :: ts → tokens t = ts → t.length < s.length →
      Ensures safe taken t post)
    (no : (∀ ts, tokens s ≠ tok :: ts) → ∀ t, tokens t = tokens s → t.length ≤ s.length →
      Ensures safe other t post) :
    Ensures safe
      (peek [c] >>= fun found => if found = true then gettoken >>= fun _ => taken else other)
      s post := by
  have among : ∀ d ∈ [c], d ∈ symbols := by
    intro d here
    obtain rfl := mem_singleton.mp here
    have listed := (symbolTok_eq_some symbol).1
    simp only [symbols, mem_cons, not_mem_nil, or_false] at listed ⊢
    tauto
  rw [ensures_bind]
  refine ensures_peek among fun t same shorter => ?_
  cases found : startsWith [c] (tokens s) with
  | true =>
    obtain ⟨ts, at_⟩ := (startsWith_symbol symbol).mp found
    rw [if_pos rfl, ensures_bind]
    exact ensures_gettoken (same.trans at_) fun _ t' rest shorter' _ =>
      yes ts t' at_ rest (by omega)
  | false =>
    rw [if_neg Bool.false_ne_true]
    refine no (fun ts at_ => ?_) t same shorter
    rw [(startsWith_symbol symbol).mpr ⟨ts, at_⟩] at found
    contradiction

theorem parsebacks_sound (enough : s.length < fuel) :
    Ensures (· ≠ .fuel) (parsebacks fuel cmd) s fun tree t => t.length ≤ s.length ∧
      ∃ n, tokens s = List.replicate n .amp ++ tokens t ∧ tree = backs n cmd := by
  induction fuel generalizing s cmd with
  | zero => omega
  | succ fuel ih =>
    rw [parsebacks]
    refine ensures_symbol .amp rfl (fun ts t at_ rest shorter => ?_)
      fun _ t same shorter => (ensures_pure ..).2 ⟨shorter, 0, same.symm, rfl⟩
    refine (ih (by omega)).mono fun tree t' ⟨shorter', n, amps, built⟩ => ?_
    refine ⟨by omega, n + 1, ?_, built⟩
    rw [at_, ← rest, amps]
    rfl

theorem parsebacks_complete (n : Nat) (at_ : tokens s = List.replicate n .amp ++ us)
    (ends : ∀ ts, us ≠ .amp :: ts) :
    Ensures (· = .fuel) (parsebacks fuel cmd) s fun tree t =>
      tree = backs n cmd ∧ tokens t = us := by
  induction fuel generalizing s cmd n with
  | zero => exact (ensures_throw ..).2 rfl
  | succ fuel ih =>
    rw [parsebacks]
    cases n with
    | zero =>
      refine ensures_symbol .amp rfl (fun ts t more _ _ => ?_)
        fun _ t same _ => (ensures_pure ..).2 ⟨rfl, same.trans at_⟩
      exact absurd (at_.symm.trans more) (ends ts)
    | succ n =>
      refine ensures_symbol .amp rfl (fun ts t more rest _ => ?_) fun none => absurd at_ (none _)
      obtain ⟨-, rfl⟩ := List.cons.inj (more.symm.trans at_)
      exact ih n rest

/-- The parser has gone from `s` to `t` over tokens that derive from the phrase. -/
def Parsed (phrase : Phrase) (s : Ptr) (tree : Cmd Span) (t : Ptr) : Prop :=
  t.length ≤ s.length ∧ ∃ ts, tokens s = ts ++ tokens t ∧ Derives phrase ts tree

/-- With enough fuel the functions end, and what they return derives. -/
structure Sound (fuel : Nat) : Prop where
  line : ∀ {s}, 4 * s.length + 4 ≤ fuel → Ensures (· ≠ .fuel) (parseline fuel) s (Parsed .line s)
  pipe : ∀ {s}, 4 * s.length + 3 ≤ fuel → Ensures (· ≠ .fuel) (parsepipe fuel) s (Parsed .pipe s)
  exec : ∀ {s}, 4 * s.length + 2 ≤ fuel → Ensures (· ≠ .fuel) (parseexec fuel) s (Parsed .cmd s)
  block : ∀ {s}, 4 * s.length + 1 ≤ fuel → Ensures (· ≠ .fuel) (parseblock fuel) s (Parsed .cmd s)

section

variable (sound : Sound fuel)
include sound

theorem Sound.parseline (enough : 4 * s.length + 4 ≤ fuel + 1) :
    Ensures (· ≠ .fuel) (parseline (fuel + 1)) s (Parsed .line s) := by
  rw [Shell.parseline, ensures_bind]
  refine (sound.pipe (by omega)).mono fun first t ⟨shorter, ts, at_, derives⟩ => ?_
  rw [ensures_bind]
  refine (parsebacks_sound (by omega)).mono fun cmd t' ⟨shorter', n, amps, built⟩ => ?_
  subst built
  rw [amps, ← append_assoc] at at_
  refine ensures_symbol .semi rfl (fun us t'' more rest last => ?_)
    fun _ t'' same last => (ensures_pure ..).2 ⟨by omega, _, ?_, Derives.lastLine n derives⟩
  · rw [ensures_bind]
    refine (sound.line (by omega)).mono fun tree u ⟨shortest, us', later, line⟩ => ?_
    refine (ensures_pure ..).2 ⟨by omega, _, ?_, Derives.moreLines n derives line⟩
    rw [at_, more, ← rest, later, append_assoc (ts ++ _)]
    rfl
  · rw [at_, same]

theorem Sound.parsepipe (enough : 4 * s.length + 3 ≤ fuel + 1) :
    Ensures (· ≠ .fuel) (parsepipe (fuel + 1)) s (Parsed .pipe s) := by
  rw [Shell.parsepipe, ensures_bind]
  refine (sound.exec (by omega)).mono fun first t ⟨shorter, ts, at_, derives⟩ => ?_
  refine ensures_symbol .bar rfl (fun us t' more rest last => ?_)
    fun _ t' same last => (ensures_pure ..).2 ⟨by omega, ts, ?_, .lastPipe derives⟩
  · rw [ensures_bind]
    refine (sound.pipe (by omega)).mono fun tree u ⟨shortest, us', later, pipe⟩ => ?_
    refine (ensures_pure ..).2 ⟨by omega, _, ?_, .morePipes derives pipe⟩
    rw [at_, more, ← rest, later, append_assoc]
    rfl
  · rw [at_, same]

theorem Sound.parseexec (enough : 4 * s.length + 2 ≤ fuel + 1) :
    Ensures (· ≠ .fuel) (parseexec (fuel + 1)) s (Parsed .cmd s) := by
  rw [Shell.parseexec, ensures_bind]
  refine ensures_peek (by simp [symbols]) fun t same shorter => ?_
  split
  · refine (sound.block (by omega)).mono fun tree u found => ?_
    obtain ⟨shortest, ts, at_, derives⟩ := found
    exact ⟨by omega, ts, same.symm.trans at_, derives⟩
  rw [ensures_bind]
  refine (parseredirs_sound (by omega)).mono fun ret t' found => ?_
  obtain ⟨shorter', rs, redirs, built⟩ := found
  refine (parseargs_sound (by omega) (Nat.zero_le _)).mono fun tree u found => ?_
  obtain ⟨shortest, items, words, tree_, few⟩ := found
  refine ⟨by omega, (rs.map Item.redir ++ items).flatMap Item.tokens, ?_, ?_⟩
  · rw [← same, redirs, words, flatMap_append, flatMap_redirs, append_assoc]
  have simple := Derives.simple (rs.map Item.redir ++ items) (by rw [wordsOf_redirs]; omega)
  have whole := extend_exec [] [] (rs.map Item.redir ++ items)
  rw [extend_append, extend_redirs] at whole
  rw [tree_, built]
  exact whole ▸ simple

theorem Sound.parseblock (enough : 4 * s.length + 1 ≤ fuel + 1) :
    Ensures (· ≠ .fuel) (parseblock (fuel + 1)) s (Parsed .cmd s) := by
  rw [Shell.parseblock]
  refine ensures_symbol .lpar rfl (fun ts t at_ rest shorter => ?_)
    fun _ _ _ _ => (ensures_throw ..).2 nofun
  rw [ensures_bind]
  refine (sound.line (by omega)).mono fun first t' ⟨shorter', ts', inside, derives⟩ => ?_
  refine ensures_symbol .rpar rfl (fun us u more rest' shorter'' => ?_)
    fun _ _ _ _ => (ensures_throw ..).2 nofun
  refine (parseredirs_sound (by omega)).mono fun tree u' ⟨shortest, rs, redirs, built⟩ => ?_
  subst built
  refine ⟨by omega, _, ?_, Derives.block rs derives⟩
  rw [at_, ← rest, inside, more, ← rest', redirs]
  simp

end

theorem sound (fuel : Nat) : Sound fuel := by
  induction fuel with
  | zero => exact ⟨by omega, by omega, by omega, by omega⟩
  | succ fuel ih => exact ⟨ih.parseline, ih.parsepipe, ih.parseexec, ih.parseblock⟩

/-- The tokens that may come behind a phrase. -/
def follow : Phrase → List Tok
  | .line => [.rpar]
  | .pipe => [.rpar, .amp, .semi]
  | .cmd => [.rpar, .amp, .semi, .bar]

/-- The tokens that are left can come behind the phrase. -/
def Follows (phrase : Phrase) (us : List Tok) : Prop :=
  ∀ tok vs, us = tok :: vs → tok ∈ follow phrase

theorem follows_nil (phrase : Phrase) : Follows phrase [] := nofun

variable {phrase : Phrase}

theorem follows_cons (listed : tok ∈ follow phrase) (us : List Tok) :
    Follows phrase (tok :: us) := by
  intro other vs same
  exact (List.cons.inj same).1 ▸ listed

/-- Behind a phrase that ends in another one comes what may come behind that one. -/
theorem Follows.mono {outer inner : Phrase} (follows : Follows outer us)
    (more : ∀ tok ∈ follow outer, tok ∈ follow inner) : Follows inner us :=
  fun tok vs same => more tok (follows tok vs same)

theorem Follows.endsArgs (follows : Follows .cmd us) : endsArgs us := by
  cases us with
  | nil => exact .inl rfl
  | cons tok vs =>
    have listed := follows tok vs rfl
    simp only [follow, mem_cons, not_mem_nil, or_false] at listed
    rcases listed with rfl | rfl | rfl | rfl <;> exact .inr rfl

theorem Follows.ne (follows : Follows phrase us) (absent : tok ∉ follow phrase) (vs : List Tok) :
    us ≠ tok :: vs :=
  fun same => absent (follows tok vs same)

theorem follows_amps (n : Nat) (follows : Follows .pipe us) :
    Follows .pipe (List.replicate n .amp ++ us) := by
  cases n with
  | zero => exact follows
  | succ n => exact follows_cons (by decide) _

/-- The function for a phrase. -/
def parse : Phrase → Nat → Parse (Cmd Span)
  | .line => parseline
  | .pipe => parsepipe
  | .cmd => parseexec

/-- The function for the phrase finds this derivation, unless fuel runs out. -/
def Finds (phrase : Phrase) (ts : List Tok) (tree : Cmd Span) : Prop :=
  ∀ {fuel s us}, tokens s = ts ++ us → Follows phrase us →
    Ensures (· = .fuel) (parse phrase fuel) s fun c t => c = tree ∧ tokens t = us

variable {first rest : Cmd Span}

theorem finds_lastLine (n : Nat) (found : Finds .pipe ts first) :
    Finds .line (ts ++ List.replicate n .amp) (backs n first) := by
  intro fuel s us at_ follows
  obtain _ | fuel := fuel
  · exact (ensures_throw ..).2 rfl
  rw [append_assoc] at at_
  rw [parse, parseline, ensures_bind]
  refine (found at_ (follows_amps n (follows.mono (by decide)))).mono ?_
  rintro c t ⟨rfl, amps⟩
  rw [ensures_bind]
  refine (parsebacks_complete n amps (follows.ne (by decide))).mono ?_
  rintro c' t' ⟨rfl, left⟩
  refine ensures_symbol .semi rfl (fun vs _ more _ _ => ?_) fun _ _ same _ =>
    (ensures_pure ..).2 ⟨rfl, same.trans left⟩
  exact absurd (left.symm.trans more) (follows.ne (by decide) vs)

theorem finds_moreLines (n : Nat) (found : Finds .pipe ts first)
    {ts' : List Tok} (later : Finds .line ts' rest) :
    Finds .line (ts ++ List.replicate n .amp ++ .semi :: ts') (.list (backs n first) rest) := by
  intro fuel s us at_ follows
  obtain _ | fuel := fuel
  · exact (ensures_throw ..).2 rfl
  rw [append_assoc, append_assoc] at at_
  rw [parse, parseline, ensures_bind]
  refine (found at_ (follows_amps n (follows_cons (by decide) _))).mono ?_
  rintro c t ⟨rfl, amps⟩
  rw [ensures_bind]
  refine (parsebacks_complete n amps (fun _ => nofun)).mono ?_
  rintro c' t' ⟨rfl, left⟩
  refine ensures_symbol .semi rfl (fun vs u more more' _ => ?_) fun none =>
    absurd left (none _)
  obtain ⟨-, rfl⟩ := List.cons.inj (left.symm.trans more)
  rw [ensures_bind]
  refine (later more' follows).mono ?_
  rintro d u' ⟨rfl, last⟩
  exact (ensures_pure ..).2 ⟨rfl, last⟩

theorem finds_lastPipe (found : Finds .cmd ts first) : Finds .pipe ts first := by
  intro fuel s us at_ follows
  obtain _ | fuel := fuel
  · exact (ensures_throw ..).2 rfl
  rw [parse, parsepipe, ensures_bind]
  refine (found at_ (follows.mono (by decide))).mono ?_
  rintro c t ⟨rfl, left⟩
  refine ensures_symbol .bar rfl (fun vs _ more _ _ => ?_) fun _ _ same _ =>
    (ensures_pure ..).2 ⟨rfl, same.trans left⟩
  exact absurd (left.symm.trans more) (follows.ne (by decide) vs)

theorem finds_morePipes (found : Finds .cmd ts first) {ts' : List Tok}
    (later : Finds .pipe ts' rest) : Finds .pipe (ts ++ .bar :: ts') (.pipe first rest) := by
  intro fuel s us at_ follows
  obtain _ | fuel := fuel
  · exact (ensures_throw ..).2 rfl
  rw [append_assoc] at at_
  rw [parse, parsepipe, ensures_bind]
  refine (found at_ (follows_cons (by decide) _)).mono ?_
  rintro c t ⟨rfl, left⟩
  refine ensures_symbol .bar rfl (fun vs u more more' _ => ?_) fun none =>
    absurd left (none _)
  obtain ⟨-, rfl⟩ := List.cons.inj (left.symm.trans more)
  rw [ensures_bind]
  refine (later more' follows).mono ?_
  rintro d u' ⟨rfl, last⟩
  exact (ensures_pure ..).2 ⟨rfl, last⟩

theorem finds_block (found : Finds .line ts first) :
    Finds .cmd (.lpar :: ts ++ .rpar :: rs.flatMap Redir.tokens) (wrapAll first rs) := by
  intro fuel s us at_ follows
  have listed : tokens s = .lpar :: (ts ++ .rpar :: (rs.flatMap Redir.tokens ++ us)) := by
    rw [at_]
    simp
  obtain _ | fuel := fuel
  · exact (ensures_throw ..).2 rfl
  rw [parse, parseexec, ensures_bind]
  refine ensures_peek (by simp [symbols]) fun t same _ => ?_
  rw [listed, show startsWith ['('] (.lpar :: _) = true from rfl, if_pos rfl]
  obtain _ | fuel := fuel
  · exact (ensures_throw ..).2 rfl
  rw [parseblock]
  refine ensures_symbol .lpar rfl (fun vs u more more' _ => ?_) fun none =>
    absurd (same.trans listed) (none _)
  obtain ⟨-, rfl⟩ := List.cons.inj ((same.trans listed).symm.trans more)
  rw [ensures_bind]
  refine (found more' (follows_cons (by decide) _)).mono ?_
  rintro c u' ⟨rfl, closed⟩
  refine ensures_symbol .rpar rfl (fun vs v more'' left _ => ?_) fun none =>
    absurd closed (none _)
  obtain ⟨-, rfl⟩ := List.cons.inj (closed.symm.trans more'')
  exact parseredirs_complete rs left follows.endsArgs.no_redir

theorem startsWith_items (ends : endsArgs us) :
    startsWith ['('] (items.flatMap Item.tokens ++ us) = false := by
  cases items with
  | nil =>
    rcases ends with rfl | stops
    · rfl
    · cases us with
      | nil => rfl
      | cons tok us => cases tok <;> first | rfl | contradiction
  | cons item items =>
    cases item with
    | word a => rfl
    | redir r => cases r <;> rfl

theorem finds_simple (items : List Item) (few : (wordsOf items).length ≤ maxargs - 1) :
    Finds .cmd (items.flatMap Item.tokens) (wrapAll (.exec (wordsOf items)) (redirsOf items)) := by
  intro fuel s us at_ follows
  have ends := follows.endsArgs
  obtain _ | fuel := fuel
  · exact (ensures_throw ..).2 rfl
  rw [parse, parseexec, ensures_bind]
  refine ensures_peek (by simp [symbols]) fun t same _ => ?_
  rw [at_, startsWith_items ends, if_neg Bool.false_ne_true, ensures_bind]
  have whole := extend_exec [] [] items
  obtain ⟨rs, later, rfl, word⟩ := leading_redirs items
  rw [wordsOf_redirs] at few
  rw [flatMap_append, flatMap_redirs, append_assoc] at at_
  refine (parseredirs_complete rs (same.trans at_) (word.no_redir ends)).mono ?_
  rintro ret u ⟨rfl, left⟩
  refine (parseargs_complete word left ends (by omega)).mono ?_
  rintro tree v ⟨rfl, last⟩
  rw [extend_append, extend_redirs] at whole
  exact ⟨whole, last⟩

theorem Derives.finds {tree : Cmd Span} (derives : Derives phrase ts tree) :
    Finds phrase ts tree := by
  induction derives with
  | lastLine n _ ih => exact finds_lastLine n ih
  | moreLines n _ _ ih later => exact finds_moreLines n ih later
  | lastPipe _ ih => exact finds_lastPipe ih
  | morePipes _ _ ih later => exact finds_morePipes ih later
  | block rs _ ih => exact finds_block rs ih
  | simple items few => exact finds_simple items few

end OsLab.Shell
