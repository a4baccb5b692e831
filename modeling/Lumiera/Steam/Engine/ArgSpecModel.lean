import Lumiera.Steam.Engine.ArgSpecLists

/-! # The argument model given back from a rendered specification (`steam/engine/proc-node.cpp`)

The intended grammar for argument terms admits quoted text also within brackets, where it protects
all the brackets it contains. Given two lists of such terms, the rendered specification shall yield
exactly these terms, and a trailing `/N` shall be replaced by `N` copies of the term without this
suffix. -/

namespace Lumiera.Steam.Engine

open List Lib.Parse

/-! ## The intended grammar -/

/-- The text within quotes. -/
inductive QuotedText : StrView → Prop
  | nil : QuotedText []
  | plain {c : Char} {rest : StrView} : isNonQuote c = true → QuotedText rest → QuotedText (c :: rest)
  | escape {c : Char} {rest : StrView} : QuotedText rest → QuotedText ('\\' :: c :: rest)

/-- The text within brackets of some kind. Brackets of each kind can be nested, and quoted text is
protected. -/
inductive BracketText : Bracket → StrView → Prop
  | nil {kind : Bracket} : BracketText kind []
  | plain {kind : Bracket} {c : Char} {rest : StrView} :
    isNonParen kind c = true → c ≠ '"' → BracketText kind rest →
      BracketText kind (c :: rest)
  | escape {kind : Bracket} {c : Char} {rest : StrView} :
    BracketText kind rest → BracketText kind ('\\' :: c :: rest)
  | quoted {kind : Bracket} {content rest : StrView} : QuotedText content → BracketText kind rest →
      BracketText kind ('"' :: (content ++ '"' :: rest))
  | nested {kind inner : Bracket} {content rest : StrView} :
    BracketText inner content → BracketText kind rest →
      BracketText kind (inner.ope :: (content ++ inner.clo :: rest))

/-- The text of a term. -/
inductive TermText : StrView → Prop
  | nil : TermText []
  | plain {c : Char} {rest : StrView} : isSpecContent c = true → TermText rest → TermText (c :: rest)
  | escape {c : Char} {rest : StrView} : TermText rest → TermText ('\\' :: c :: rest)
  | quoted {content rest : StrView} : QuotedText content → TermText rest → TermText
    ('"' :: (content ++ '"' :: rest))
  | bracketed {kind : Bracket} {content rest : StrView} : BracketText kind content → TermText rest →
      TermText (kind.ope :: (content ++ kind.clo :: rest))

/-- **An argument term** of the intended grammar. -/
structure ArgTerm where
  text : StrView
  ne_nil : text ≠ []
  isTerm : TermText text

/-- The text ends with a backslash which escapes the next character. -/
def endsInEscape (text : StrView) : Bool := (text.reverse.takeWhile (· == '\\')).length % 2 == 1

/-- A trailing `/N`, with the term in front of it. -/
def repetition (text : StrView) : Option (StrView × ℕ) := do
  let (base, behind) ← splitLastSlash text
  let digits ← digitsOf behind
  if base ≠ [] ∧ endsInEscape base = false then some (base, decimal digits) else none

/-- What a term stands for: `N` copies of the term without the trailing `/N`. -/
def expanded (text : StrView) : List StrView :=
  match repetition text with
  | some (base, num) => List.replicate num base
  | none => [text]

/-- The text of both lists. -/
def specOf (list1 list2 : List ArgTerm) : StrView :=
    rendered (list1.map ArgTerm.text) (list2.map ArgTerm.text)

/-- **Both lists of terms are given back**, with repetitions expanded. -/
structure GivenBack (list1 list2 : List ArgTerm) : Prop where
  terms : ∃ n, parseArgLists (specOf list1 list2) =
    some (.result (list1.map ArgTerm.text, some (list2.map ArgTerm.text)) n)
  copies : ∀ term ∈ list1 ++ list2, EvaluatesArgSeq [term.text] (expanded term.text)
  model : GeneratesArgModel (specOf list1 list2)
    ⟨(list1.map ArgTerm.text).flatMap expanded, (list2.map ArgTerm.text).flatMap expanded⟩

/-- The term with a trailing `/N` is of one line only, and `N` is neither zero nor too large; while
no suffix is found in other terms, where the slash may be escaped. -/
def Repeatable (text : StrView) : Prop :=
  match repetition text with
  | some (base, num) => (∀ c ∈ base, isAnyChar c = true) ∧ 1 ≤ num ∧ num < 2 ^ 32
  | none => matchRepeatSpec text = none

/-- **The lists which can be given back.** -/
structure Recoverable (list1 list2 : List ArgTerm) : Prop where
  size : (specOf list1 list2).length < 2 ^ 32
  limit : list1.length ≤ MAX_NODE_ARG.toNat ∧ list2.length ≤ MAX_NODE_ARG.toNat
  readable : ∀ term ∈ list1 ++ list2, Readable term.text
  repeatable : ∀ term ∈ list1 ++ list2, Repeatable term.text

/-! ## Expansion of repetitions -/

section Expansion

variable {text base behind term digits mat : StrView} {terms args : List StrView}

theorem splitLastSlash_eq (h : splitLastSlash text = some (base, behind)) : text = base ++ '/' :: behind := by
  unfold splitLastSlash at h
  split at h
  · cases h
  · next c before hdrop =>
      cases h
      have hslash : c = '/' := by
        have hhead := head?_dropWhile_not (· != '/') text.reverse
        rw [hdrop] at hhead
        simpa using hhead
      have hsplit := takeWhile_append_dropWhile (p := (· != '/')) (l := text.reverse)
      rw [hdrop, hslash] at hsplit
      have htext := congrArg List.reverse hsplit
      rw [reverse_append, reverse_cons, reverse_reverse, append_assoc,
        singleton_append] at htext
      exact htext.symm

theorem matchRepeatSpec_eq (h : splitLastSlash text = some (base, behind)) :
    matchRepeatSpec text = (digitsOf behind).bind fun digits =>
      if base.takeWhile isAnyChar ≠ [] ∧ isBlank (base.dropWhile isAnyChar) = true then
        some (base.takeWhile isAnyChar, digits) else none := by
  rw [matchRepeatSpec, h]
  rfl

theorem length_of_matchRepeatSpec (h : matchRepeatSpec text = some (term, digits)) : term.length < text.length := by
  cases hsplit : splitLastSlash text with
  | none =>
    rw [matchRepeatSpec, hsplit] at h
    cases h
  | some split =>
    obtain ⟨base, behind⟩ := split
    rw [matchRepeatSpec_eq hsplit] at h
    obtain ⟨digits', -, hite⟩ := Option.bind_eq_some_iff.mp h
    obtain ⟨-, heq⟩ := Option.ite_none_right_eq_some.mp hite
    cases heq
    rw [splitLastSlash_eq hsplit, length_append, length_cons]
    have hle := ( takeWhile_prefix isAnyChar (l := base)).length_le
    omega

/-- What the expander delivers for a single term, when it does not fail. -/
def delivered (text : StrView) : Option (List StrView) :=
  match matchRepeatSpec text with
  | none => some [text]
  | some (term, digits) => (lexicalCast digits).map fun num => List.replicate (max num 1) term

theorem delivers_repeat (num : ℕ) : RepetitionExpander.core.Delivers ⟨term :: terms, num + 1, mat⟩ args ↔ ∃ rest,
    args = List.replicate (num + 1) mat ++ rest ∧ RepetitionExpander.core.Delivers ⟨terms, 0, mat⟩ rest := by
  induction num generalizing args with
  | zero =>
    rw [StateCore.delivers_of_valid rfl]
    constructor
    · rintro ⟨a, t, rest, ha, ht, hrest, rfl⟩
      cases ha
      cases ht
      exact ⟨rest, rfl, hrest⟩
    · rintro ⟨rest, rfl, hrest⟩
      exact ⟨mat, _, rest, rfl, rfl, hrest, rfl⟩
  | succ num ih =>
    rw [StateCore.delivers_of_valid rfl]
    constructor
    · rintro ⟨a, t, rest, ha, ht, hrest, rfl⟩
      cases ha
      cases ht
      obtain ⟨rest', rfl, hrest'⟩ := ih.mp hrest
      exact ⟨rest', rfl, hrest'⟩
    · rintro ⟨rest, rfl, hrest⟩
      exact ⟨mat, _, _, rfl, rfl, ih.mpr ⟨rest, rfl, hrest⟩, rfl⟩

/-- The match which is left behind by a term. -/
def matBehind (term mat : StrView) : StrView := ((matchRepeatSpec term).map Prod.fst).getD mat

/-- The next term, and thereafter the following ones. -/
theorem delivers_cons :
    RepetitionExpander.core.Delivers ⟨term :: terms, 0, mat⟩ args ↔
      ∃ copies rest, delivered term = some copies ∧ args = copies ++ rest ∧
        RepetitionExpander.core.Delivers ⟨terms, 0, matBehind term mat⟩ rest := by
  have hvalid : RepetitionExpander.core.checkPoint ⟨term :: terms, 0, mat⟩ = true := rfl
  have hyield : RepetitionExpander.yield ⟨term :: terms, 0, mat⟩ =
      (matchRepeatSpec term).elim (some (term, ⟨term :: terms, 0, mat⟩)) fun spec =>
        (lexicalCast spec.2).map fun num => (spec.1, ⟨term :: terms, num, spec.1⟩) := by
    simp only [RepetitionExpander.yield, List.head?_cons, Option.bind_some]
    cases matchRepeatSpec term <;> rfl
  have hcore : RepetitionExpander.core.yield ⟨term :: terms, 0, mat⟩ =
      (RepetitionExpander.yield ⟨term :: terms, 0, mat⟩).map Prod.fst := rfl
  have hnext : RepetitionExpander.core.iterNext ⟨term :: terms, 0, mat⟩ =
      (RepetitionExpander.yield ⟨term :: terms, 0, mat⟩).map fun p => p.2.iterNext := rfl
  rw [StateCore.delivers_of_valid hvalid, hcore, hnext, hyield, delivered, matBehind]
  cases matchRepeatSpec term with
  | none =>
    constructor
    · rintro ⟨a, t, rest, ha, ht, hrest, rfl⟩
      cases ha
      cases ht
      exact ⟨[term], rest, rfl, rfl, hrest⟩
    · rintro ⟨copies, rest, heq, rfl, hrest⟩
      cases heq
      exact ⟨term, _, rest, rfl, rfl, hrest, rfl⟩
  | some spec =>
    obtain ⟨base, digits⟩ := spec
    dsimp only [Option.elim_some]
    cases lexicalCast digits with
    | none =>
      constructor
      · rintro ⟨a, t, rest, ha, -⟩
        cases ha
      · rintro ⟨copies, rest, heq, -⟩
        cases heq
    | some num =>
      -- the first copy is delivered in any case, and further ones while the count is not used up
      cases num with
      | zero =>
        constructor
        · rintro ⟨a, t, rest, ha, ht, hrest, rfl⟩
          cases ha
          cases ht
          exact ⟨[base], rest, rfl, rfl, hrest⟩
        · rintro ⟨copies, rest, heq, rfl, hrest⟩
          cases heq
          exact ⟨base, _, rest, rfl, rfl, hrest, rfl⟩
      | succ num =>
        have hmax : max (num + 1) 1 = num + 1 := max_eq_left (Nat.succ_pos num)
        have hrepeat : RepetitionExpander.iterNext ⟨term :: terms, num + 1, base⟩ =
            ⟨if num = 0 then terms else term :: terms, num, base⟩ := rfl
        rw [Option.map_some, Option.map_some, Option.map_some, Option.map_some, hmax,
          Option.map_some, hrepeat]
        have hbehind : ∀ rest, RepetitionExpander.core.Delivers
            ⟨if num = 0 then terms else term :: terms, num, base⟩ rest ↔
              ∃ rest', rest = List.replicate num base ++
              rest' ∧ RepetitionExpander.core.Delivers ⟨terms, 0, base⟩ rest' := by
          intro rest
          cases num with
          | zero => simp
          | succ num => exact delivers_repeat num
        constructor
        · rintro ⟨a, t, rest, ha, ht, hrest, rfl⟩
          cases ha
          cases ht
          obtain ⟨rest', rfl, hrest'⟩ := (hbehind rest).mp hrest
          exact ⟨_, rest', rfl, rfl, hrest'⟩
        · rintro ⟨copies, rest, heq, rfl, hrest⟩
          cases heq
          exact ⟨base, _, _, rfl, rfl, (hbehind _).mpr ⟨rest, rfl, hrest⟩, rfl⟩

/-- What is delivered for a sequence of terms is put together from the single terms. -/
theorem delivers_iff :
    RepetitionExpander.core.Delivers ⟨terms, 0, mat⟩ args ↔
      ∃ copies, List.Forall₂ (fun term copies => delivered term = some copies) terms copies ∧
        args = copies.flatten := by
  induction terms generalizing mat args with
  | nil =>
    rw [StateCore.delivers_of_exhausted rfl]
    constructor
    · rintro rfl
      exact ⟨[], .nil, rfl⟩
    · rintro ⟨copies, hcopies, rfl⟩
      cases hcopies
      rfl
  | cons term terms ih =>
    rw [delivers_cons]
    constructor
    · rintro ⟨copies, rest, hterm, rfl, hrest⟩
      obtain ⟨further, hfurther, rfl⟩ := ih.mp hrest
      exact ⟨copies :: further, .cons hterm hfurther, rfl⟩
    · rintro ⟨all, hall, rfl⟩
      cases hall with
      | cons hterm hfurther => exact ⟨_, _, hterm, rfl, ih.mpr ⟨_, hfurther, rfl⟩⟩

theorem evaluatesArgSeq_singleton : EvaluatesArgSeq [text] args ↔ delivered text = some args := by
  rw [EvaluatesArgSeq, delivers_iff]
  constructor
  · rintro ⟨copies, hcopies, rfl⟩
    obtain ⟨copies, rest, hterm, hrest, rfl⟩ := List.forall₂_cons_left_iff.mp hcopies
    cases hrest
    rw [hterm, flatten_singleton]
  · intro h
    exact ⟨[args], .cons h .nil, flatten_singleton.symm⟩

theorem evaluatesArgSeq_flatMap (h : ∀ term ∈ terms, EvaluatesArgSeq [term] (expanded term)) :
    EvaluatesArgSeq terms (terms.flatMap expanded) := by
  rw [EvaluatesArgSeq, delivers_iff]
  refine ⟨terms.map expanded, ?_, flatMap_def⟩
  rw [List.forall₂_map_right_iff, List.forall₂_same]
  exact fun term hterm => evaluatesArgSeq_singleton.mp (h term hterm)

theorem replicate_ne_singleton {num : ℕ} (hlt : base.length < text.length) : List.replicate num base ≠ [text] := by
  intro heq
  have hmem : text ∈ List.replicate num base := by
    rw [heq]
    exact mem_singleton_self text
  rw [(mem_replicate.mp hmem).2] at hlt
  exact Nat.lt_irrefl _ hlt

/-- A term is expanded as intended exactly under this condition. -/
theorem delivered_eq_expanded_iff (text : StrView) : delivered text = some (expanded text) ↔ Repeatable text := by
  rw [expanded, Repeatable]
  cases hrepeat : repetition text with
  | none =>
    rw [delivered]
    cases hmatch : matchRepeatSpec text with
    | none => exact iff_of_true rfl rfl
    | some spec =>
      refine iff_of_false ?_ (Option.some_ne_none _)
      intro h
      obtain ⟨num, -, heq⟩ := Option.map_eq_some_iff.mp h
      exact replicate_ne_singleton (length_of_matchRepeatSpec hmatch) heq
  | some spec =>
    obtain ⟨base, num⟩ := spec
    obtain ⟨⟨base', behind⟩, hsplit, h⟩ := Option.bind_eq_some_iff.mp hrepeat
    obtain ⟨digits, hdigits, h⟩ := Option.bind_eq_some_iff.mp h
    obtain ⟨⟨hne, -⟩, heq⟩ := Option.ite_none_right_eq_some.mp h
    cases heq
    have hshort : base.length < text.length := by
      rw [splitLastSlash_eq hsplit, length_append, length_cons]
      omega
    rw [delivered, matchRepeatSpec_eq hsplit, hdigits, Option.bind_some]
    split_ifs with hmatched
    · dsimp only
      rw [lexicalCast]
      constructor
      · intro h
        obtain ⟨num, hnum, heq⟩ := Option.map_eq_some_iff.mp h
        obtain ⟨hlt, hdecimal⟩ := Option.ite_none_right_eq_some.mp hnum
        cases hdecimal
        -- at least one copy was delivered
        have hcount := congrArg List.length heq
        rw [length_replicate, length_replicate] at hcount
        have hone : 1 ≤ decimal digits := hcount ▸ le_max_right _ _
        have hterm : base.takeWhile isAnyChar = base := by
          have hmem : base.takeWhile isAnyChar ∈ List.replicate (decimal digits) base := by
            rw [← heq]
            exact mem_replicate.mpr ⟨by omega, rfl⟩
          exact (mem_replicate.mp hmem).2
        exact ⟨takeWhile_eq_self_iff.mp hterm, hone, hlt⟩
      · rintro ⟨hline, hone, hlt⟩
        rw [if_pos hlt, Option.map_some, max_eq_left hone, takeWhile_eq_self_iff.mpr hline]
    · refine iff_of_false ?_ ?_
      · intro h
        exact replicate_ne_singleton hshort (Option.some.inj h).symm
      · rintro ⟨hline, -, -⟩
        apply hmatched
        rw [takeWhile_eq_self_iff.mpr hline, dropWhile_eq_nil_iff.mpr hline]
        exact ⟨hne, rfl⟩

end Expansion

/-! ## The lists given back -/

/-- **The lists of terms are given back under this condition**, and for a specification of less than
2^32 characters it is also required. -/
theorem givenBack_iff (list1 list2 : List ArgTerm) : (Recoverable list1 list2 → GivenBack list1 list2) ∧
    (GivenBack list1 list2 → (specOf list1 list2).length < 2 ^ 32 → Recoverable list1 list2) := by
  have hmax : MAX_NODE_ARG.toNat = 500 := by decide
  constructor
  · rintro ⟨hsize, ⟨hmax1, hmax2⟩, hreadable, hrepeatable⟩
    have hread : ∀ {list}, list ⊆ list1 ++ list2 → ∀ text ∈ list.map ArgTerm.text, Readable text := by
      intro list hsub text htext
      obtain ⟨term, hterm, rfl⟩ := mem_map.mp htext
      exact hreadable term (hsub hterm)
    have hcopies : ∀ term ∈ list1 ++ list2, EvaluatesArgSeq [term.text] (expanded term.text) :=
        fun term hterm =>
      evaluatesArgSeq_singleton.mpr ((delivered_eq_expanded_iff _).mpr (hrepeatable term hterm))
    have heval : ∀ {list}, list ⊆ list1 ++ list2 →
        EvaluatesArgSeq (list.map ArgTerm.text) ((list.map ArgTerm.text).flatMap expanded) := by
      intro list hsub
      apply evaluatesArgSeq_flatMap
      intro text htext
      obtain ⟨term, hterm, rfl⟩ := mem_map.mp htext
      exact hcopies term (hsub hterm)
    have hleft := subset_append_left list1 list2
    have hright := subset_append_right list1 list2
    obtain ⟨n, hparse⟩ := parseArgLists_rendered (hread hleft) (hread hright) (by rw [length_map]; omega)
      (by rw [length_map]; omega) hsize
    refine ⟨⟨n, hparse⟩, hcopies, ?_⟩
    rw [GeneratesArgModel, specOf, hparse]
    exact ⟨heval hleft, heval hright⟩
  · rintro ⟨⟨n, hparse⟩, hcopies, -⟩ hsize
    obtain ⟨⟨hread1, hmax1⟩, hread2, hmax2⟩ := readable_of_parseArgLists hsize hparse
    rw [length_map] at hmax1 hmax2
    refine ⟨hsize, ⟨by omega, by omega⟩, ?_, ?_⟩
    · intro term hterm
      rcases mem_append.mp hterm with hterm | hterm
      · exact hread1 _ (mem_map_of_mem hterm)
      · exact hread2 _ (mem_map_of_mem hterm)
    · intro term hterm
      exact (delivered_eq_expanded_iff _).mp (evaluatesArgSeq_singleton.mp (hcopies term hterm))

/-- A term with a comma, to be repeated. -/
def pairTwice : ArgTerm where
  text := ['(', 'x', ',', 'y', ')', '/', '2']
  ne_nil := by decide
  isTerm := by
    have hinner : BracketText .round ['x', ',', 'y'] :=
      .plain (by decide) (by decide) (.plain (by decide) (by decide) (.plain (by decide) (by decide) .nil))
    exact .bracketed hinner (.plain (by decide) (.plain (by decide) .nil))

theorem readable_pairTwice : Readable pairTwice.text := by
  have hcontent : Chunks (isNonParen .round) (WithinBrackets .round) ([] ++ (['x', ',', 'y'] ++ [])) :=
    .run rfl (by decide) (by decide) (all_eq_true.mp rfl) .nil
  have hpair : Bracketed .round ['(', 'x', ',', 'y', ')'] :=
      .intro hcontent (by decide) (rfl : isBlank [] = true)
  have hsuffix : Chunks isSpecContent WithinTerm ([] ++ (['/', '2'] ++ [])) :=
    .run rfl (by decide) (by decide) (all_eq_true.mp rfl) .nil
  have hterm : Chunks isSpecContent WithinTerm
      ([] ++ (['(', 'x', ',', 'y', ')'] ++ ([] ++ (['/', '2'] ++ [])))) :=
    .special rfl (Or.inr (Or.inr ⟨.round, hpair⟩)) hsuffix
  refine ⟨hterm, by decide, ?_⟩
  intro c hc
  obtain rfl : '(' = c := Option.some.inj hc
  rfl

/-- Two copies of the term are given back. -/
theorem givenBack_pairTwice : GivenBack [] [pairTwice] ∧
    expanded pairTwice.text = [['(', 'x', ',', 'y', ')'], ['(', 'x', ',', 'y', ')']] := by
  have hrepeatable : Repeatable pairTwice.text := ⟨all_eq_true.mp rfl, by decide, by decide⟩
  refine ⟨(givenBack_iff [] [pairTwice]).1 ⟨by decide, ⟨by decide, by decide⟩, ?_, ?_⟩, by decide⟩
  · intro term hterm
    rw [mem_singleton.mp hterm]
    exact readable_pairTwice
  · intro term hterm
    rw [mem_singleton.mp hterm]
    exact hrepeatable

/-- A quoted parenthesis within parentheses. -/
def quotedParen : ArgTerm where
  text := ['(', '"', ')', '"', ')']
  ne_nil := by decide
  isTerm := by
    have hquoted : QuotedText [')'] := .plain (by decide) .nil
    have hinner : BracketText .round ['"', ')', '"'] := .quoted hquoted .nil
    exact .bracketed hinner .nil

/-- A term to be repeated zero times. -/
def zeroTimes : ArgTerm where
  text := ['a', '/', '0']
  ne_nil := by decide
  isTerm := .plain (by decide) (.plain (by decide) (.plain (by decide) .nil))

/-- The quoted parenthesis closes the brackets, and then the second list is not recognised; while a
single copy is delivered for a term to be repeated zero times. -/
theorem not_givenBack_quotedParen : ¬ GivenBack [] [quotedParen] ∧ ¬ GivenBack [] [zeroTimes] := by
  constructor
  · rintro ⟨⟨n, hparse⟩, -, -⟩
    cases hparse
  · rintro ⟨-, hcopies, -⟩
    have hcopy := evaluatesArgSeq_singleton.mp (hcopies zeroTimes (by simp))
    cases hcopy

end Lumiera.Steam.Engine
