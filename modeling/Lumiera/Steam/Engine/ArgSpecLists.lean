import Lumiera.Steam.Engine.ArgSpec

/-! # Reading back the argument lists (`steam/engine/proc-node.cpp`)

The lists of terms are rendered with commas in between, and each list is enclosed into parentheses.
They are read back when all the terms are readable, and when there are not more of them than the
syntax accepts. -/

namespace Lumiera.Steam.Engine

open List Lib.Parse

/-- A list of terms in parentheses, with commas in between. -/
def renderedList (terms : List StrView) : StrView := '(' :: ([','].intercalate terms ++ [')'])

/-- The two lists of argument terms, as specification. -/
def rendered (list1 list2 : List StrView) : StrView := renderedList list1 ++ renderedList list2

/-! ## A single term -/

variable {text : StrView} {n : ℕ}

section Term

variable {depth : ℕ} {term rest : StrView} {c : Char}

/-- The parse function for a term. -/
def termTextConnex (depth : ℕ) : Connex StrView := specTermSyntax.connex (nodeSpec.resolve depth)

theorem termTextConnex_eq (depth : ℕ) :
    termTextConnex depth = Syntax.bindMatch
      (repeatedConnex 1 (2 ^ 32 - 1) nullConnex (partConnex depth)) := by
  rfl

theorem isSpace_false_of_not_content (hc : isSpecContent c = false) : isSpace c = false := by
  cases hspace : isSpace c with
  | false => rfl
  | true => rw [isSpecContent_of_isSpace hspace] at hc; exact hc

theorem rejects_part {ws : StrView} (hc : c = ',' ∨ c = ')') (hws : isBlank ws = true) :
    Rejects (partConnex (depth + 1)) (ws ++ c :: rest) := by
  have hplain : isSpecContent c = false := by rcases hc with rfl | rfl <;> decide
  have hspace := isSpace_false_of_not_content hplain
  have hescape : c ≠ '\\' := by rcases hc with rfl | rfl <;> decide
  have hquote : c ≠ '"' := by rcases hc with rfl | rfl <;> decide
  have hope : ∀ kind : Bracket, c ≠ kind.ope := by
    intro kind
    rcases hc with rfl | rfl <;> cases kind <;> decide
  have hcontent : Rejects (contentConnex (depth + 1)) (ws ++ c :: rest) :=
    Rejects.branched (Rejects.branched (rejects_run hws hspace hplain) (rejects_escape hws hspace hescape))
      (rejects_quote hws hspace hquote)
  have hbrackets : ∀ kind : Bracket, Rejects (nodeSpec.resolve (depth + 1) kind.index) (ws ++ c :: rest) :=
    fun kind => rejects_brackets hws hspace (hope kind)
  exact rejects_altBrackets (rejects_altBrackets
    (rejects_altBrackets (rejects_altBrackets hcontent (hbrackets .round))
    (hbrackets .angle)) (hbrackets .square)) (hbrackets .curly)

/-- A readable term is read back. -/
theorem parse_term (hterm : Readable term) (hc : c = ',' ∨ c = ')') (hdepth : term.length ≤ depth)
    (hlt : (term ++ c :: rest).length < 2 ^ 32) :
    (termTextConnex (depth + 2)).parse (term ++ c :: rest) = some (.result term term.length) := by
  have hplain : isSpecContent c = false := by rcases hc with rfl | rfl <;> decide
  have hstop : ∀ ws', isBlank ws' = true → Rejects (partConnex (depth + 2)) (ws' ++ c :: rest) :=
    fun ws' hws' => rejects_part hc hws'
  have hrest : ∀ x ∈ (c :: rest).head?, isSpecContent x = false := by
    rintro x ⟨rfl⟩
    exact hplain
  have hsize := hlt
  rw [length_append, length_cons] at hsize
  obtain ⟨n, ws', ⟨model, hparse⟩, -, hle, hsum, -⟩ :=
      repeatedConnex_chunks separated_term (accepts_term depth)
    hterm.chunks hterm.ne_nil hdepth (rfl : isBlank [] = true) hrest hstop hlt
      (show term.length < 2 ^ 32 - 1 by omega)
  obtain rfl : n = term.length := by
    rw [length_nil] at hle hsum
    omega
  have hskipped : leadingWhitespace (term ++ c :: rest) = 0 := by
    refine leadingWhitespace_append (rfl : isBlank [] = true) ?_
    obtain ⟨x, xs, heq⟩ := exists_cons_of_ne_nil hterm.ne_nil
    have hhead := hterm.head
    rw [heq] at hhead ⊢
    exact hhead
  rw [nil_append] at hparse
  have hresult := bindMatch_eq _ (by omega) hparse
  rw [hskipped, if_pos (Nat.zero_le _), acceptedPart, hskipped, Nat.zero_min, drop_zero,
    take_left] at hresult
  rw [termTextConnex_eq]
  exact hresult

theorem readable_dropWhile (h : Chunks isSpecContent WithinTerm text) (hne : text ≠ []) :
    Readable (text.dropWhile isSpace) := by
  cases h with
  | nil => exact absurd rfl hne
  | @run ws run rest c hws hc hspace hrun hrest =>
    rw [dropWhile_append_of_pos (all_eq_true.mp hws), cons_append,
      dropWhile_cons_of_neg (by rw [hspace]; decide)]
    exact ⟨.run (rfl : isBlank [] = true) hc hspace hrun hrest,
      cons_ne_nil _ _, by rintro x ⟨rfl⟩; exact hspace⟩
  | @special ws part rest hws hpart hrest =>
    obtain ⟨c, cs, rfl, hc⟩ := separated_term.special hpart
    have hspace := isSpace_false_of_not_content hc
    rw [dropWhile_append_of_pos (all_eq_true.mp hws), cons_append,
      dropWhile_cons_of_neg (by rw [hspace]; decide)]
    exact ⟨.special (rfl : isBlank [] = true) hpart hrest,
      cons_ne_nil _ _, by rintro x ⟨rfl⟩; exact hspace⟩

/-- Only readable terms are read. -/
theorem readable_of_parse {model : StrView} (hlt : text.length < 2 ^ 32)
    (hparse : (termTextConnex depth).parse text = some (.result model n)) : Readable model := by
  obtain ⟨m, hparse', -⟩ := Connex.map_parse_eq_result hparse
  obtain ⟨hchunks, hne⟩ := Yields.repeated (yields_part depth) _ _ _ hlt hparse'
  have hreadable := readable_dropWhile hchunks hne
  -- the whitespace ends within the text consumed
  have hskipped : leadingWhitespace text = ((text.take n).takeWhile isSpace).length := by
    have htext := take_append_drop n text
    have hless : ((text.take n).takeWhile isSpace).length ≠ (text.take n).length := by
      intro hall
      apply hreadable.ne_nil
      rw [← drop_length_takeWhile, hall, drop_length]
    rw [leadingWhitespace]
    conv_lhs => rw [← htext]
    rw [takeWhile_append, if_neg hless]
  have hle : leadingWhitespace text ≤ n := by
    rw [hskipped]
    exact ( takeWhile_prefix isSpace).length_le.trans (length_take_le n text)
  have hresult := bindMatch_eq _ (by omega) hparse'
  rw [if_pos hle, acceptedPart, min_eq_left hle, hskipped, drop_length_takeWhile] at hresult
  have heq := hparse.symm.trans hresult
  cases heq
  exact hreadable

end Term

/-! ## The list of terms -/

section Terms

variable {depth : ℕ} {terms : List StrView} {rest : StrView}

/-- The terms behind the first one, each of them behind a comma. -/
def furtherTerms (terms : List StrView) : StrView := terms.flatMap (',' :: ·)

theorem intercalate_eq (term : StrView) (terms : List StrView) :
    [','].intercalate (term :: terms) = term ++ furtherTerms terms := by
  induction terms generalizing term with
  | nil => rw [intercalate_singleton, furtherTerms, flatMap_nil, append_nil]
  | cons next terms ih =>
    rw [intercalate_cons_cons, ih, furtherTerms, furtherTerms, flatMap_cons, append_assoc,
      singleton_append, cons_append]

theorem exists_furtherTerms (terms : List StrView) (rest : StrView) :
    ∃ c rest', furtherTerms terms ++ ')' :: rest = c :: rest' ∧ (c = ',' ∨ c = ')') := by
  cases terms with
  | nil => exact ⟨')', rest, rfl, Or.inr rfl⟩
  | cons term terms => exact ⟨',', _, rfl, Or.inl rfl⟩

theorem repeatLoop_closing (rounds : ℕ) (within : Bool) (hlt : (')' :: rest).length < 2 ^ 32) :
    repeatLoop (termConnex COMMA) (termTextConnex (depth + 2)) rounds within (')' :: rest) = some ([], 0) := by
  cases rounds with
  | zero => rfl
  | succ rounds =>
    rw [repeatLoop]
    cases within with
    | true =>
      have hcomma : Rejects (termConnex COMMA) ([] ++ ')' :: rest) :=
          rejects_char rfl (by decide) (by decide)
      have hdelim : repeatDelim (termConnex COMMA) true (')' :: rest) = some .nullopt :=
        Option.map_eq_some_iff.mpr ⟨_, hcomma, rfl⟩
      rw [repeatRound, hdelim]
      rfl
    | false =>
      have hpart : Rejects (partConnex (depth + 2)) ([] ++ ')' :: rest) := rejects_part (Or.inr rfl) rfl
      have hterm : Rejects (termTextConnex (depth + 2)) (')' :: rest) := by
        rw [termTextConnex_eq]
        exact Rejects.map (hpart.repeated hlt _)
      have hdelim : repeatDelim (termConnex COMMA) false (')' :: rest) = some (.result () 0) := rfl
      rw [repeatRound, hdelim, Option.bind_some]
      dsimp only
      rw [drop_zero, (hterm : _ = _)]
      rfl

/-- A round which reads a term. -/
theorem repeatLoop_term {term : StrView} {c : Char} (hterm : Readable term) (hc : c = ',' ∨ c = ')')
    (hdepth : term.length ≤ depth) {within : Bool} {delim : StrView}
    (hdelim : delim = if within then [','] else [])
    (hlt : (delim ++ (term ++ c :: rest)).length < 2 ^ 32) (rounds : ℕ) :
    repeatLoop (termConnex COMMA) (termTextConnex (depth + 2)) (rounds + 1) within
      (delim ++ (term ++ c :: rest)) =
      (repeatLoop (termConnex COMMA) (termTextConnex (depth + 2)) rounds true (c :: rest)).map
      fun (results, consumed) =>
        (term :: results, delim.length + term.length + consumed) := by
  have hsize : (term ++ c :: rest).length < 2 ^ 32 := by
    rw [length_append] at hlt
    omega
  have hsep : repeatDelim (termConnex COMMA) within (delim ++ (term ++ c :: rest)) = some
      (.result () delim.length) := by
    cases within with
    | false =>
      rw [hdelim]
      rfl
    | true =>
      rw [hdelim]
      obtain ⟨mat, hcomma⟩ : AcceptsAt (termConnex COMMA) ([] ++ ',' :: (term ++ c :: rest)) (0 + 1) :=
        acceptsAt_char rfl (by decide) (by decide)
      exact Option.map_eq_some_iff.mpr ⟨_, hcomma, rfl⟩
  have hround : repeatRound (termConnex COMMA) (termTextConnex (depth + 2)) within
      (delim ++ (term ++ c :: rest)) =
      some (.result term (delim.length + term.length)) := by
    rw [repeatRound, hsep, Option.bind_some]
    dsimp only
    rw [drop_left, parse_term hterm hc hdepth hsize, Option.map_some, Eval.map, uint_of_lt]
    rw [length_append, length_append] at hlt
    omega
  rw [repeatLoop, hround, Option.bind_some]
  dsimp only
  rw [← drop_drop, drop_left, drop_left]

/-- The terms behind the first one are read back. -/
theorem repeatLoop_further (hterms : ∀ term ∈ terms, Readable term)
    (hdepth : (furtherTerms terms).length ≤ depth)
    (hlt : (furtherTerms terms ++ ')' :: rest).length < 2 ^ 32) {rounds : ℕ}
    (hrounds : terms.length ≤ rounds) :
    repeatLoop (termConnex COMMA) (termTextConnex (depth + 2)) rounds true
      (furtherTerms terms ++ ')' :: rest) =
      some (terms, (furtherTerms terms).length) := by
  induction terms generalizing rounds with
  | nil =>
    refine repeatLoop_closing rounds true ?_
    simpa [furtherTerms] using hlt
  | cons term terms ih =>
    obtain ⟨rounds, rfl⟩ : ∃ k, rounds = k + 1 :=
        Nat.exists_eq_add_one.mpr (Nat.lt_of_lt_of_le (Nat.succ_pos _) hrounds)
    have htext : furtherTerms (term :: terms) ++ ')' :: rest =
        [','] ++ (term ++ (furtherTerms terms ++ ')' :: rest)) := by
      simp [furtherTerms]
    have hlength : (furtherTerms (term :: terms)).length = 1 + term.length +
        (furtherTerms terms).length := by
      rw [furtherTerms, furtherTerms, flatMap_cons, length_append, length_cons]
      omega
    rw [htext] at hlt ⊢
    obtain ⟨c, rest', heq, hc⟩ := exists_furtherTerms terms rest
    have hrest := ih (fun t ht => hterms t (mem_cons_of_mem term ht)) (by omega)
      (by rw [length_append, length_append] at hlt; omega) (Nat.le_of_succ_le_succ hrounds)
    rw [heq] at hlt hrest ⊢
    have hdelim : [','] = if true then [','] else [] := rfl
    have hround := repeatLoop_term (hterms term mem_cons_self) hc
        (show term.length ≤ depth by omega) hdelim hlt
      rounds
    rw [hround, hrest, hlength]
    rfl

/-- The list of terms is read back. -/
theorem parse_terms (hterms : ∀ term ∈ terms, Readable term)
    (hdepth : ([','].intercalate terms).length ≤ depth)
    (hlt : ([','].intercalate terms ++ ')' :: rest).length < 2 ^ 32) {max : ℕ} (hmax : terms.length ≤ max) :
    (repeatedConnex 0 max (termConnex COMMA) (termTextConnex (depth + 2))).parse
    ([','].intercalate terms ++ ')' :: rest) =
      some (.result terms ([','].intercalate terms).length) := by
  have hloop : repeatLoop (termConnex COMMA) (termTextConnex (depth + 2)) (Nat.max 1 max) false
      ([','].intercalate terms ++ ')' :: rest) = some (terms, ([','].intercalate terms).length) := by
    cases terms with
    | nil => exact repeatLoop_closing _ false (by simpa using hlt)
    | cons term terms =>
      obtain ⟨rounds, hrounds⟩ : ∃ k, Nat.max 1 max = k + 1 :=
        Nat.exists_eq_add_one.mpr (Nat.le_max_left 1 max)
      have hle : terms.length + 1 ≤ rounds + 1 := hrounds ▸ hmax.trans (Nat.le_max_right 1 max)
      rw [intercalate_eq, length_append] at hdepth
      rw [intercalate_eq, append_assoc] at hlt
      rw [hrounds, intercalate_eq, append_assoc, length_append]
      have hrest := repeatLoop_further (fun t ht => hterms t (mem_cons_of_mem term ht))
          (show _ ≤ depth by omega)
        (show (furtherTerms terms ++ ')' :: rest).length < 2 ^ 32 by rw [length_append] at hlt; omega)
        (Nat.le_of_succ_le_succ hle)
      obtain ⟨c, rest', heq, hc⟩ := exists_furtherTerms terms rest
      rw [heq] at hlt hrest ⊢
      have hdelim : [] = if false then [','] else [] := rfl
      have hround := repeatLoop_term (hterms term mem_cons_self) hc
          (show term.length ≤ depth by omega) hdelim hlt
        rounds
      rw [nil_append] at hround
      rw [hround, hrest, Option.map_some, length_nil, Nat.zero_add]
  rw [repeatedConnex]
  dsimp only
  rw [hloop]
  rfl

/-- Only readable terms are in the list, and no more than the limit. -/
theorem readable_of_parse_terms {max : ℕ} (hlt : text.length < 2 ^ 32) (hmax : 1 ≤ max)
    (hparse : (repeatedConnex 0 max (termConnex COMMA) (termTextConnex depth)).parse text = some (.result terms n)) :
    (∀ term ∈ terms, Readable term) ∧ terms.length ≤ max := by
  obtain ⟨-, hloop⟩ := repeatedConnex_eq_result hparse
  rw [show Nat.max 1 max = max from Nat.max_eq_right hmax] at hloop
  have hrounds : ∀ {rounds : ℕ} {within : Bool} {text : StrView} {terms : List StrView} {n : ℕ},
      text.length < 2 ^ 32 →
      repeatLoop (termConnex COMMA) (termTextConnex depth) rounds within text = some (terms, n) →
      (∀ term ∈ terms, Readable term) ∧ terms.length ≤ rounds := by
    intro rounds within text terms n hlt h
    induction terms generalizing rounds within text n with
    | nil => exact ⟨fun _ h => absurd h not_mem_nil, Nat.zero_le _⟩
    | cons term terms ih =>
      obtain ⟨rounds, offset, n', rfl, hround, hrest, -⟩ := repeatLoop_eq_cons h
      obtain ⟨hterms, hle⟩ := ih (by rw [length_drop]; omega) hrest
      obtain ⟨delim, -, hbody⟩ := Option.bind_eq_some_iff.mp hround
      refine ⟨?_, Nat.succ_le_succ hle⟩
      cases delim with
      | nullopt => cases hbody
      | result m offset' =>
        obtain ⟨eval, hparse, heval⟩ := Option.map_eq_some_iff.mp hbody
        obtain ⟨model, n'', rfl, rfl, -⟩ := Eval.map_eq_result_iff.mp heval
        have hterm := readable_of_parse (by rw [length_drop]; omega) hparse
        intro t ht
        rcases mem_cons.mp ht with rfl | ht
        · exact hterm
        · exact hterms t ht
  exact hrounds hlt hloop

end Terms

/-! ## Both lists -/

section Lists

variable {depth : ℕ} {list1 list2 : List StrView} {rest : StrView}

/-- The parse function for a list of terms in parentheses. -/
def argListConnex (depth : ℕ) : Connex (List StrView) := argListSyntax.connex (nodeSpec.resolve depth)

theorem argListConnex_eq (depth : ℕ) : argListConnex depth = bracketedConnex (termConnex (.char (· == '(')))
    (termConnex (.char (· == ')'))) (repeatedConnex 0 500 (termConnex COMMA) (termTextConnex depth)) false := by
  rfl

/-- A list in parentheses is read back. -/
theorem parse_argList (hterms : ∀ term ∈ list1, Readable term) (hmax : list1.length ≤ 500)
    (hdepth : (renderedList list1).length ≤ depth) (hlt : (renderedList list1 ++ rest).length < 2 ^ 32) :
    (argListConnex (depth + 2)).parse (renderedList list1 ++ rest) =
      some (.result list1 (renderedList list1).length) := by
  have htext : renderedList list1 ++ rest = '(' :: ([','].intercalate list1 ++ ')' :: rest) := by
    rw [renderedList, cons_append, append_assoc, singleton_append]
  have hlength : (renderedList list1).length = 1 + ([','].intercalate list1).length + 1 := by
    rw [renderedList, length_cons, length_append, length_singleton]
    omega
  rw [htext, length_cons] at hlt
  obtain ⟨m, hopen⟩ : AcceptsAt (termConnex (.char (· == '(')))
      ([] ++ '(' :: ([','].intercalate list1 ++ ')' :: rest))
      (0 + 1) := acceptsAt_char rfl (by decide) (by decide)
  obtain ⟨m', hclose⟩ : AcceptsAt (termConnex (.char (· == ')'))) ([] ++ ')' :: rest) (0 + 1) :=
    acceptsAt_char rfl (by decide) (by decide)
  have hbody := parse_terms hterms (show _ ≤ depth by omega)
    (show ([','].intercalate list1 ++ ')' :: rest).length < 2 ^ 32 by omega) hmax
  have hbehind : ('(' :: ([','].intercalate list1 ++ ')' :: rest)).drop
      (1 + ([','].intercalate list1).length) =
      ')' :: rest := by
    rw [Nat.add_comm, drop_succ_cons, drop_left]
  rw [argListConnex_eq, htext, hlength, bracketedConnex]
  dsimp only
  rw [nil_append] at hopen hclose
  rw [hopen]
  simp only [Eval.isSuccess, Eval.consumed, Bool.true_or, if_true, drop_succ_cons, drop_zero, hbody,
    Option.bind_some, hbehind, hclose, Option.map_some, Eval.map]

theorem readable_of_parse_argList (hlt : text.length < 2 ^ 32)
    (hparse : (argListConnex depth).parse text = some (.result list1 n)) :
    (∀ term ∈ list1, Readable term) ∧ list1.length ≤ 500 := by
  rcases bracketedConnex_eq_result hparse with ⟨m, n, inner, m', n', -, hbody, -, -⟩ | ⟨hbad, -⟩
  · exact readable_of_parse_terms (by rw [length_drop]; omega) (by decide) hbody
  · cases hbad

/-- The rendered lists are read back. -/
theorem parseArgLists_rendered (hread1 : ∀ term ∈ list1, Readable term) (hread2 : ∀ term ∈ list2, Readable term)
    (hmax1 : list1.length ≤ 500) (hmax2 : list2.length ≤ 500) (hlt : (rendered list1 list2).length < 2 ^ 32) : ∃ n,
    parseArgLists (rendered list1 list2) = some (.result (list1, some list2) n) := by
  have hlength : (rendered list1 list2).length = (renderedList list1).length + (renderedList list2).length :=
    length_append
  have hsize : (rendered list1 list2).length * nodeSpec.size + nodeSpec.size =
      (rendered list1 list2).length * 4 + 2 + 2 := rfl
  have hdef : parseArgLists (rendered list1 list2) = (sequenceConnex
      (argListConnex ((rendered list1 list2).length * nodeSpec.size + nodeSpec.size))
      (optionalConnex (argListConnex ((rendered list1 list2).length * nodeSpec.size + nodeSpec.size)))).parse
        (rendered list1 list2) := rfl
  have hfirst := parse_argList hread1 hmax1 (show _ ≤ (rendered list1 list2).length * 4 + 2 by omega) hlt
  have hlt2 : (renderedList list2 ++ []).length < 2 ^ 32 := by
    rw [append_nil]
    omega
  have hsecond := parse_argList hread2 hmax2 (show _ ≤ (rendered list1 list2).length * 4 + 2 by omega) hlt2
  rw [append_nil] at hsecond
  refine ⟨uint ((renderedList list1).length + (renderedList list2).length), ?_⟩
  rw [hdef, hsize, sequenceConnex]
  dsimp only
  have hdrop : (rendered list1 list2).drop (renderedList list1).length = renderedList list2 := drop_left
  rw [show renderedList list1 ++ renderedList list2 = rendered list1 list2 from rfl] at hfirst
  rw [hfirst, Option.bind_some]
  dsimp only
  rw [hdrop, optionalConnex]
  dsimp only
  rw [hsecond]
  rfl

/-- All terms read from a specification are readable. -/
theorem readable_of_parseArgLists (hlt : text.length < 2 ^ 32)
    (hparse : parseArgLists text = some (.result (list1, some list2) n)) :
    ((∀ term ∈ list1, Readable term) ∧ list1.length ≤ 500) ∧
      (∀ term ∈ list2, Readable term) ∧ list2.length ≤ 500 := by
  obtain ⟨n1, n2, hfirst, hsecond, -⟩ := sequenceConnex_eq_result hparse
  refine ⟨readable_of_parse_argList hlt hfirst, ?_⟩
  obtain ⟨eval, heval, heq⟩ := Option.map_eq_some_iff.mp hsecond
  cases eval with
  | nullopt => cases heq
  | result model n' =>
    cases heq
    exact readable_of_parse_argList (by rw [length_drop]; omega) heval

end Lists

end Lumiera.Steam.Engine
