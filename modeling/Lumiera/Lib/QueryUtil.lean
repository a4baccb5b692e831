import Lumiera.Base.Pattern
import Lumiera.Lib.Parse

/-! # Helpers for query terms (`lib/query-util.cpp`)

A query is a text: predicates with a literal argument, joined by commas. The helpers look for the term
with a given symbol by searching for a regular expression, built from the symbol and the pattern of an
argument; this expression is not anchored, and thus the symbol is found also where another symbol ends
with it. The predicates of a text are those found in turn by the expression used to count them. -/

namespace Lumiera.Lib.Query

open Function List

open Parse (isSpace)

abbrev Text := List Char

/-- `\w` -/
def isWord (c : Char) : Bool := c.isAlphanum || c == '_'

/-- `[\w_\.\-]` -/
def isArgument (c : Char) : Bool := isWord c || c == '.' || c == '-'

/-- `\(\s*([\w_\.\-]+)\s*\),?\s*`, where the group has this number -/
def matchArgument (n : ℕ) : Pattern :=
  .seq (.one (· == '(')) (.seq (.many isSpace) (.seq (.group n (.seq (.one isArgument) (.many isArgument)))
    (.seq (.many isSpace) (.seq (.one (· == ')'))
      (.seq (.alt (.one (· == ',')) (.many fun _ => false)) (.many isSpace))))))

/-- `(\w+)`, followed by an argument -/
def findPredicate : Pattern := .seq (.group 1 (.seq (.one isWord) (.many isWord))) (matchArgument 2)

/-- The characters of a symbol, each of which stands for itself. -/
def literal : Text → Pattern
  | [] => .many fun _ => false
  | c :: sym => .seq (.one (· == c)) (literal sym)

def getTermRegex (sym : Text) : Pattern := .seq (literal sym) (matchArgument 1)

/-- The literal argument behind the predicate symbol. -/
def extractID (sym termString : Text) : Text :=
  match (getTermRegex sym).search termString true 0 with
  | some mat => (mat.groups 1).getD []
  | none => []

/-- Cut the term with this symbol: the term, and the text which remains. -/
def removeTerm (sym queryString : Text) : Text × Text :=
  match (getTermRegex sym).search queryString true 0 with
  | some mat =>
    (sym ++ '(' :: (mat.groups 1).getD [] ++ [')'],
      queryString.take mat.position ++ queryString.drop (mat.position + mat.length))
  | none => ([], queryString)

def hasTerm (sym queryString : Text) : Bool := ((getTermRegex sym).search queryString true 0).isSome

/-- The loop over the matches; the counter is an `uint`. -/
def countMatches : ℕ → Pattern.SearchIter → ℕ → ℕ
  | 0, _, cnt => cnt
  | fuel + 1, i, cnt =>
    match i.current with
    | none => cnt
    | some _ => countMatches fuel i.next ((cnt + 1) % 2 ^ 32)

/-- Each match takes some characters, and so their number is bounded by the length of the text. -/
def countPred (q : Text) : ℕ := countMatches (q.length + 1) (.begin findPredicate q) 0

/-- A conjunction of the predicates. -/
def appendTerms (pred1 pred2 : Text) : Text :=
  if pred1.isEmpty then pred2
  else if pred2.isEmpty then pred1
  else pred1 ++ ',' :: ' ' :: pred2

/-! ## The predicates of a text -/

structure Predicate where
  sym : Text
  arg : Text
  deriving DecidableEq, Repr

/-- A word identifier. -/
def IsSymbol (sym : Text) : Prop := sym ≠ [] ∧ ∀ c ∈ sym, isWord c = true

instance (sym : Text) : Decidable (IsSymbol sym) :=
  decidable_of_iff (sym ≠ [] ∧ sym.all isWord) (by rw [IsSymbol, all_eq_true])

namespace Predicate

/-- The symbol is a word identifier, and the argument a literal. -/
def WellFormed (p : Predicate) : Prop := IsSymbol p.sym ∧ p.arg ≠ [] ∧ ∀ c ∈ p.arg, isArgument c = true

instance (p : Predicate) : Decidable p.WellFormed :=
  decidable_of_iff (IsSymbol p.sym ∧ p.arg ≠ [] ∧ p.arg.all isArgument) (by rw [WellFormed, all_eq_true])

def term (p : Predicate) : Text := p.sym ++ '(' :: p.arg ++ [')']

/-- The predicate found by a match. -/
def ofMatch (mat : Pattern.Match) : Predicate := ⟨(mat.groups 1).getD [], (mat.groups 2).getD []⟩

end Predicate

/-- The predicates from this match on. -/
def predicatesFrom : ℕ → Pattern.SearchIter → List Predicate
  | 0, _ => []
  | fuel + 1, i =>
    match i.current with
    | none => []
    | some mat => .ofMatch mat :: predicatesFrom fuel i.next

/-- **What a query text denotes**: the predicates found in it, one after the other. -/
def predicates (q : Text) : List Predicate := predicatesFrom (q.length + 1) (.begin findPredicate q)

/-- The text of a list of predicates. -/
def render (ps : List Predicate) : Text := (ps.map Predicate.term).foldr appendTerms []

theorem countMatches_eq (fuel : ℕ) (i : Pattern.SearchIter) (cnt : ℕ) :
    countMatches fuel i cnt % 2 ^ 32 = (cnt + (predicatesFrom fuel i).length) % 2 ^ 32 := by
  induction fuel generalizing i cnt with
  | zero => rfl
  | succ fuel ih =>
    rw [countMatches, predicatesFrom]
    cases i.current with
    | none => rfl
    | some mat =>
      rw [ih, length_cons, Nat.mod_add_mod, Nat.add_assoc, Nat.add_comm 1]

theorem countMatches_lt (fuel : ℕ) (i : Pattern.SearchIter) {cnt : ℕ} (h : cnt < 2 ^ 32) :
    countMatches fuel i cnt < 2 ^ 32 := by
  induction fuel generalizing i cnt with
  | zero => exact h
  | succ fuel ih =>
    rw [countMatches]
    cases i.current with
    | none => exact h
    | some mat => exact ih _ (Nat.mod_lt _ (by decide))

/-- The predicates are counted, as far as an `uint` can hold this number. -/
theorem countPred_eq (q : Text) : countPred q = (predicates q).length % 2 ^ 32 := by
  have h := countMatches_eq (q.length + 1) (.begin findPredicate q) 0
  rwa [Nat.mod_eq_of_lt (countMatches_lt _ _ (by decide)), Nat.zero_add] at h

/-! ## Matching a term -/

/-- Behind a term: an optional comma, and white space. -/
def afterTerm : Text → Text
  | ',' :: rest => rest.dropWhile isSpace
  | rest => rest.dropWhile isSpace

theorem afterTerm_of_ne {rest : Text} (h : rest.head? ≠ some ',') : afterTerm rest = rest.dropWhile isSpace := by
  unfold afterTerm
  split
  · exact absurd rfl h
  · rfl

section Matching

open Pattern

variable {α : Type} {c : Cursor} {k : Cursor → Option α} {sym arg rest : Text}

theorem run_literal (h : c.rest = sym ++ rest) : ∃ b, run (literal sym) c k = k ⟨rest, b, c.groups⟩ := by
  induction sym generalizing c with
  | nil =>
    obtain rfl : c.rest = rest := h
    exact ⟨c.atStart, run_many_of_head fun _ _ => rfl⟩
  | cons x sym ih =>
    obtain ⟨b, hb⟩ := ih (c := c.moved (sym ++ rest)) rfl
    refine ⟨b, ?_⟩
    rw [literal, run_seq, run_one_cons h, if_pos (beq_self_eq_true x)]
    exact hb

theorem run_literal_of_not_prefix (h : ¬ sym <+: c.rest) : run (literal sym) c k = none := by
  induction sym generalizing c with
  | nil => exact absurd nil_prefix h
  | cons x sym ih =>
    rw [literal, run_seq]
    cases hrest : c.rest with
    | nil => exact run_one_nil hrest
    | cons y rest =>
      rw [run_one_cons hrest]
      split
      · rename_i hxy
        obtain rfl := beq_iff_eq.mp hxy
        apply ih
        rwa [hrest, cons_prefix_cons, and_iff_right rfl] at h
      · rfl

theorem run_matchArgument_of_head {n : ℕ} (h : ∀ x ∈ c.rest.head?, x ≠ '(') : run (matchArgument n) c k = none := by
  rw [matchArgument, run_seq]
  exact run_one_of_head fun x hx => beq_eq_false_iff_ne.mpr (h x hx)

theorem toNat_of_isArgument {x : Char} (h : isArgument x = true) : 44 < x.toNat := by
  delta isArgument isWord Char.isAlphanum Char.isAlpha Char.isUpper Char.isLower Char.isDigit at h
  simp only [Bool.or_eq_true, Bool.and_eq_true, decide_eq_true_eq, beq_iff_eq, ge_iff_le,
    UInt32.le_iff_toNat_le] at h
  rcases h with ((((⟨h, -⟩ | ⟨h, -⟩) | ⟨h, -⟩) | rfl) | rfl) | rfl
  all_goals first | decide | exact lt_of_lt_of_le (by decide) h

theorem isSpace_of_isArgument {x : Char} (h : isArgument x = true) : isSpace x = false := by
  rw [Bool.eq_false_iff]
  intro hspace
  have hle : x.toNat ≤ 32 := by
    simp only [isSpace, Bool.or_eq_true, Bool.and_eq_true, beq_iff_eq, decide_eq_true_eq] at hspace
    obtain rfl | ⟨-, h⟩ := hspace
    · decide
    · exact (show x.toNat ≤ 13 from h).trans (by decide)
  exact absurd (toNat_of_isArgument h) (by omega)

theorem dropWhile_append_of_all {p : Char → Bool} {taken rest : Text} (htaken : ∀ x ∈ taken, p x = true)
    (hrest : ∀ x ∈ rest.head?, p x = false) : (taken ++ rest).dropWhile p = rest := by
  rw [dropWhile_append_of_pos htaken]
  cases rest with
  | nil => rfl
  | cons x rest => exact dropWhile_cons_of_neg (by rw [hrest x rfl]; decide)

theorem run_group_of_some {n : ℕ} {p : Char → Bool} {x : Char} {a : α} (h : c.rest = x :: sym ++ rest)
    (hsym : ∀ y ∈ x :: sym, p y = true) (hrest : ∀ y ∈ rest.head?, p y = false)
    (hk : ∀ b, k ⟨rest, b, update c.groups n (some (x :: sym))⟩ = some a) :
    run (.group n (.seq (.one p) (.many p))) c k = some a := by
  rw [forall_mem_cons] at hsym
  have hcons : c.rest = x :: (sym ++ rest) := h
  rw [run_group, run_seq, run_one_cons hcons, if_pos hsym.1]
  apply run_many_of_some
  have hskip : (((c.moved (sym ++ rest)).skip p).rest) = rest := dropWhile_append_of_all hsym.2 hrest
  have htaken : c.rest.take (c.rest.length - rest.length) = x :: sym := by
    rw [h, length_append, Nat.add_sub_cancel, take_left]
  rw [hskip, htaken]
  have h' := hk ((c.moved (sym ++ rest)).skip p).atStart
  rw [← hskip] at h'
  exact h'

/-- The argument of a term, and what follows it up to the next one. -/
theorem run_matchArgument {n : ℕ} (harg : arg ≠ [] ∧ ∀ x ∈ arg, isArgument x = true)
    (h : c.rest = '(' :: arg ++ ')' :: rest) :
    run (matchArgument n) c some = some ⟨afterTerm rest, false, update c.groups n (some arg)⟩ := by
  obtain ⟨x, arg, rfl⟩ := exists_cons_of_ne_nil harg.1
  have hx : isSpace x = false := isSpace_of_isArgument (harg.2 x mem_cons_self)
  -- behind the argument all is certain
  have hclose (b : Bool) : run (.seq (.many isSpace) (.seq (.one (· == ')'))
      (.seq (.alt (.one (· == ',')) (.many fun _ => false)) (.many isSpace))))
      ⟨')' :: rest, b, update c.groups n (some (x :: arg))⟩ some =
        some ⟨afterTerm rest, false, update c.groups n (some (x :: arg))⟩ := by
    rw [run_seq, run_many_of_head fun y hy => by cases hy; rfl, run_seq, run_one_cons rfl,
      if_pos (beq_self_eq_true ')'), run_seq, run_alt]
    cases rest with
    | nil => rfl
    | cons y rest =>
      by_cases hy : y = ','
      · subst hy
        rw [run_one_cons rfl, run_many_of_some rfl]
        rfl
      · rw [run_one_of_head fun z hz => by cases hz; exact beq_eq_false_iff_ne.mpr hy, Option.none_or,
          run_many_of_head fun _ _ => rfl, run_many_of_some rfl, afterTerm_of_ne (by simpa using hy)]
        rfl
  rw [matchArgument, run_seq, run_one_cons h, if_pos (beq_self_eq_true '('), run_seq,
    run_many_of_head fun y hy => by cases hy; exact hx, run_seq]
  exact run_group_of_some rfl harg.2 (fun y hy => by cases hy; decide) hclose

end Matching

/-! ## Texts of terms -/

/-- **A text of terms**, each of which is followed by a comma and a blank; but not necessarily the last. -/
inductive Spells : List Predicate → Text → Prop
  | nil : Spells [] []
  | last {p : Predicate} (hp : p.WellFormed) : Spells [p] p.term
  | cons {p : Predicate} {ps : List Predicate} {rest : Text} (hp : p.WellFormed) (hps : Spells ps rest) :
      Spells (p :: ps) (p.term ++ ',' :: ' ' :: rest)

theorem Predicate.term_append (p : Predicate) (rest : Text) :
    p.term ++ rest = p.sym ++ '(' :: p.arg ++ ')' :: rest := by
  simp [Predicate.term]

theorem Predicate.term_ne_nil (p : Predicate) : p.term ≠ [] := by
  simp [Predicate.term]

theorem spells_render {ps : List Predicate} (h : ∀ p ∈ ps, p.WellFormed) : Spells ps (render ps) := by
  induction ps with
  | nil => exact .nil
  | cons p ps ih =>
    rw [forall_mem_cons] at h
    have hp : p.term.isEmpty = false := by simpa using p.term_ne_nil
    change Spells (p :: ps) (appendTerms p.term (render ps))
    rw [appendTerms, hp]
    cases ps with
    | nil => exact .last h.1
    | cons q ps =>
      have hrender : (render (q :: ps)).isEmpty = false := by
        change (appendTerms q.term (render ps)).isEmpty = false
        rw [appendTerms]
        split
        · rename_i hq
          exact absurd (isEmpty_iff.mp hq) q.term_ne_nil
        · split
          · simpa using q.term_ne_nil
          · simp
      rw [hrender]
      exact .cons h.1 (ih h.2)

namespace Spells

variable {p : Predicate} {ps : List Predicate} {text : Text}

theorem dropWhile_isSpace (h : Spells ps text) : text.dropWhile isSpace = text := by
  have hterm {p : Predicate} (hp : p.WellFormed) (rest : Text) :
      (p.term ++ rest).dropWhile isSpace = p.term ++ rest := by
    obtain ⟨x, sym, hsym⟩ := exists_cons_of_ne_nil hp.1.1
    have hx : isSpace x = false := by
      apply isSpace_of_isArgument
      rw [isArgument, hp.1.2 x (hsym ▸ mem_cons_self)]
      rfl
    rw [p.term_append, hsym]
    exact dropWhile_cons_of_neg (Bool.not_eq_true _ ▸ hx)
  cases h with
  | nil => rfl
  | last hp => simpa using hterm hp []
  | cons hp hps => exact hterm hp _

theorem uncons (h : Spells (p :: ps) text) : ∃ tail, p.WellFormed ∧
    text = p.sym ++ '(' :: p.arg ++ ')' :: tail ∧ Spells ps (afterTerm tail) := by
  cases h with
  | last hp => exact ⟨[], hp, by simpa using p.term_append [], .nil⟩
  | @cons _ _ rest hp hps =>
    have hafter : afterTerm (',' :: ' ' :: rest) = rest := hps.dropWhile_isSpace
    refine ⟨',' :: ' ' :: rest, hp, p.term_append _, ?_⟩
    rwa [hafter]

theorem prepend {u : Text} (hu : ∀ c ∈ u, isWord c = true) (h : Spells (p :: ps) text) :
    Spells ({ p with sym := u ++ p.sym } :: ps) (u ++ text) := by
  have hwell (hp : p.WellFormed) : Predicate.WellFormed { p with sym := u ++ p.sym } := by
    refine ⟨⟨?_, ?_⟩, hp.2⟩
    · exact append_ne_nil_of_right_ne_nil u hp.1.1
    · exact forall_mem_append.mpr ⟨hu, hp.1.2⟩
  have hterm : Predicate.term { p with sym := u ++ p.sym } = u ++ p.term := by
    simp [Predicate.term]
  cases h with
  | last hp => exact hterm ▸ .last (hwell hp)
  | cons hp hps =>
    rw [← append_assoc, ← hterm]
    exact .cons (hwell hp) hps

theorem length_le (h : Spells ps text) : ps.length ≤ text.length := by
  induction h with
  | nil => exact le_rfl
  | @last p hp => exact length_pos_iff.mpr p.term_ne_nil
  | @cons p ps rest hp _ ih =>
    rw [length_append, length_cons, length_cons, length_cons]
    omega

end Spells

theorem exists_afterTerm (tail : Text) : ∃ delim, tail = delim ++ afterTerm tail := by
  unfold afterTerm
  split
  · rename_i rest
    exact ⟨',' :: rest.takeWhile isSpace, congrArg _ takeWhile_append_dropWhile.symm⟩
  · exact ⟨_, takeWhile_append_dropWhile.symm⟩

section Reading

variable {p : Predicate} {ps : List Predicate} {text tail : Text} {b : Bool} {pos : ℕ}

theorem search_findPredicate (hp : p.WellFormed) (htext : text = p.sym ++ '(' :: p.arg ++ ')' :: tail) :
    ∃ d : Pattern.Cursor, findPredicate.search text b pos = some (.upTo pos text d) ∧
      d.rest = afterTerm tail ∧ d.groups 1 = some p.sym ∧ d.groups 2 = some p.arg := by
  obtain ⟨⟨hne, hword⟩, harg⟩ := hp
  obtain ⟨x, sym, hsym⟩ := exists_cons_of_ne_nil hne
  have hargument (b : Bool) :
      (matchArgument 2).run ⟨'(' :: p.arg ++ ')' :: tail, b, update (fun _ => none) 1 (some (x :: sym))⟩
        some = some ⟨afterTerm tail, false, update (update (fun _ => none) 1 (some (x :: sym)))
          2 (some p.arg)⟩ := run_matchArgument harg rfl
  have hcursor : text = x :: sym ++ ('(' :: p.arg ++ ')' :: tail) := by
    rw [htext, hsym]
    exact append_assoc _ _ _
  have hmatch : findPredicate.matchAt text b false = some ⟨afterTerm tail, false,
      update (update (fun _ => none) 1 (some (x :: sym))) 2 (some p.arg)⟩ := by
    change findPredicate.run ⟨text, b, fun _ => none⟩ some = _
    rw [findPredicate, Pattern.run_seq]
    exact run_group_of_some hcursor (hsym ▸ hword) (fun y hy => by cases hy; decide) hargument
  refine ⟨_, Pattern.search_of_matchAt hmatch, rfl, ?_, rfl⟩
  rw [hsym]
  rfl

/-- The terms are found one after the other. -/
theorem predicatesFrom_of_spells {fuel : ℕ} {line : Text} {it : Pattern.SearchIter}
    (hpattern : it.pattern = findPredicate) (hline : it.text = line)
    (hcurrent : it.current = findPredicate.search (line.drop pos) b pos) (hpos : pos ≤ line.length)
    (h : Spells ps (line.drop pos)) (hfuel : ps.length < fuel) : predicatesFrom fuel it = ps := by
  induction ps generalizing fuel it pos b with
  | nil =>
    obtain ⟨fuel, rfl⟩ := Nat.exists_eq_succ_of_ne_zero hfuel.ne'
    have hnil : line.drop pos = [] := by
      generalize line.drop pos = text at h
      cases h
      rfl
    rw [hnil] at hcurrent
    rw [predicatesFrom, hcurrent]
    rfl
  | cons p ps ih =>
    obtain ⟨fuel, rfl⟩ := Nat.exists_eq_succ_of_ne_zero (Nat.zero_lt_of_lt hfuel).ne'
    obtain ⟨tail, hp, htext, hps⟩ := h.uncons
    obtain ⟨d, hsearch, hrest, hsym, harg⟩ := @search_findPredicate p _ tail b pos hp htext
    obtain ⟨delim, hdelim⟩ := exists_afterTerm tail
    have hsplit : line.drop pos = (p.term ++ delim) ++ afterTerm tail := by
      rw [htext, append_assoc p.term, ← hdelim, p.term_append]
    obtain ⟨hlength, hdrop, hle⟩ := Pattern.Match.upTo_spec rfl hpos hsplit hrest
    have hne : (Pattern.Match.upTo pos (line.drop pos) d).length ≠ 0 := by
      rw [hlength, length_append]
      have := length_pos_iff.mpr p.term_ne_nil
      omega
    rw [hsearch] at hcurrent
    have hfirst : Predicate.ofMatch (.upTo pos (line.drop pos) d) = p := by
      change (⟨(d.groups 1).getD [], (d.groups 2).getD []⟩ : Predicate) = p
      rw [hsym, harg]
      rfl
    have hnext : it.next.current = findPredicate.search (line.drop (pos + (p.term ++ delim).length)) false
        (pos + (p.term ++ delim).length) := by
      rw [Pattern.SearchIter.next_of_length_ne hcurrent hne, hpattern, hline, hlength]
      rfl
    have hthere := ih (it.next_pattern.trans hpattern) (it.next_text.trans hline) hnext hle
      (by rwa [hdrop]) (Nat.lt_of_succ_lt_succ hfuel)
    rw [predicatesFrom, hcurrent]
    change _ :: _ = _
    rw [hfirst, hthere]

/-- A text of terms denotes these terms. -/
theorem predicates_of_spells (h : Spells ps text) : predicates text = ps :=
  @predicatesFrom_of_spells ps true 0 _ text _ rfl rfl rfl (Nat.zero_le _) h (Nat.lt_succ_of_le h.length_le)

end Reading

/-! ## Searching for a symbol -/

section Searching

variable {sym text rest : Text} {b : Bool} {pos : ℕ}

theorem takeWhile_isWord {w : Text} (hw : ∀ c ∈ w, isWord c = true)
    (hrest : ∀ x ∈ rest.head?, isWord x = false) : (w ++ rest).takeWhile isWord = w := by
  have h := takeWhile_append_dropWhile (p := isWord) (l := w ++ rest)
  rw [dropWhile_append_of_all hw hrest] at h
  exact append_cancel_right h

theorem matchAt_getTermRegex_none (hsym : IsSymbol sym)
    (h : text.takeWhile isWord = sym → (text.dropWhile isWord).head? ≠ some '(') :
    (getTermRegex sym).matchAt text b false = none := by
  change (getTermRegex sym).run ⟨text, b, fun _ => none⟩ some = none
  rw [getTermRegex, Pattern.run_seq]
  by_cases hprefix : sym <+: text
  · obtain ⟨rest, rfl⟩ := hprefix
    obtain ⟨b', hliteral⟩ := run_literal (c := ⟨sym ++ rest, b, fun _ => none⟩)
      (k := fun d => (matchArgument 1).run d some) rfl
    rw [hliteral]
    apply run_matchArgument_of_head
    rintro x hx rfl
    have hrest : ∀ y ∈ rest.head?, isWord y = false := by
      intro y hy
      obtain rfl := Option.some.inj (hx.symm.trans hy)
      decide
    apply h (takeWhile_isWord hsym.2 hrest)
    rw [dropWhile_append_of_all hsym.2 hrest]
    exact hx
  · exact run_literal_of_not_prefix hprefix

theorem search_skip {junk : Text}
    (h : ∀ l, l <:+ junk → l ≠ [] → ∀ b, (getTermRegex sym).matchAt (l ++ rest) b false = none) :
    ∃ b', (getTermRegex sym).search (junk ++ rest) b pos
      = (getTermRegex sym).search rest b' (pos + junk.length) := by
  induction junk generalizing b pos with
  | nil => exact ⟨b, rfl⟩
  | cons x junk ih =>
    obtain ⟨b', hb⟩ := @ih false (pos + 1) fun l hl => h l (hl.trans (suffix_cons x junk))
    refine ⟨b', ?_⟩
    have hnone := h (x :: junk) suffix_rfl (cons_ne_nil _ _) b
    rw [cons_append] at hnone ⊢
    rw [Pattern.search_of_matchAt_none hnone, hb, length_cons, Nat.add_assoc, Nat.add_comm 1]

theorem search_skip_word (hsym : IsSymbol sym) {u w : Text} (hu : ∀ c ∈ u, isWord c = true)
    (hw : ∀ c ∈ w, isWord c = true) (h : ∀ l, l <:+ u → l ≠ [] → l ++ w ≠ sym) :
    ∃ b', (getTermRegex sym).search (u ++ (w ++ '(' :: rest)) b pos
      = (getTermRegex sym).search (w ++ '(' :: rest) b' (pos + u.length) := by
  apply search_skip
  intro l hl hne b
  apply matchAt_getTermRegex_none hsym
  intro htake
  have hword : ∀ c ∈ l ++ w, isWord c = true :=
    forall_mem_append.mpr ⟨fun c hc => hu c (hl.subset hc), hw⟩
  rw [← append_assoc, takeWhile_isWord hword fun x hx => by cases hx; decide] at htake
  exact absurd htake (h l hl hne)

/-- Behind the symbol of a term, nothing is found up to the end of the term. -/
theorem search_skip_argument (hsym : IsSymbol sym) {arg : Text} (harg : ∀ c ∈ arg, isArgument c = true) :
    ∃ b', (getTermRegex sym).search ('(' :: arg ++ ')' :: rest) b pos
      = (getTermRegex sym).search rest b' (pos + arg.length + 2) := by
  have hbracket : ∀ l rest : Text, (∀ x ∈ l, x ≠ '(') →
      ((l ++ ')' :: rest).dropWhile isWord).head? ≠ some '(' := by
    intro l rest hl
    induction l with
    | nil => exact fun h => absurd (Option.some.inj h) (by decide)
    | cons x l ih =>
      rw [forall_mem_cons] at hl
      rw [cons_append, dropWhile_cons]
      split
      · exact ih hl.2
      · exact fun h => hl.1 (Option.some.inj h)
  have hskip : ∃ b', (getTermRegex sym).search (('(' :: arg ++ [')']) ++ rest) b pos
      = (getTermRegex sym).search rest b' (pos + ('(' :: arg ++ [')']).length) := by
    apply search_skip
    intro l hl hne b
    apply matchAt_getTermRegex_none hsym
    rcases suffix_cons_iff.mp hl with rfl | ⟨before, hbefore⟩
    · exact fun htake => absurd htake.symm hsym.1
    · rcases eq_nil_or_concat l with rfl | ⟨l, c, rfl⟩
      · exact absurd rfl hne
      · rw [concat_eq_append, ← append_assoc] at hbefore
        obtain ⟨harg', hc⟩ := append_inj' hbefore rfl
        obtain rfl := singleton_inj.mp hc
        rw [concat_eq_append, append_assoc]
        refine fun _ => hbracket l rest fun x hx => ?_
        have hx : isArgument x = true := by
          apply harg x
          rw [← harg']
          exact mem_append_right _ hx
        rintro rfl
        exact absurd hx (by decide)
  obtain ⟨b', hb⟩ := hskip
  refine ⟨b', ?_⟩
  rw [length_append, length_cons, length_singleton, Nat.add_assoc, ← Nat.add_assoc] at hb
  rw [← hb, append_assoc]
  rfl

theorem search_skip_term (hsym : IsSymbol sym) {p : Predicate} (hp : p.WellFormed) (h : ¬ sym <:+ p.sym) : ∃ b',
    (getTermRegex sym).search (p.term ++ rest) b pos = (getTermRegex sym).search rest b' (pos + p.term.length) := by
  obtain ⟨b₁, h₁⟩ := @search_skip_word sym ('(' :: p.arg ++ ')' :: rest).tail b pos hsym p.sym [] hp.1.2
    (fun c hc => absurd hc not_mem_nil) fun l hl _ heq => h (heq ▸ (append_nil l).symm ▸ hl)
  obtain ⟨b₂, h₂⟩ := @search_skip_argument sym rest b₁ (pos + p.sym.length) hsym p.arg hp.2.2
  refine ⟨b₂, ?_⟩
  have hlength : pos + p.term.length = pos + p.sym.length + p.arg.length + 2 := by
    simp only [Predicate.term, length_append, length_cons, length_nil]
    omega
  rw [hlength, ← h₂, p.term_append, append_assoc]
  exact h₁

/-- A term is found within the text: what precedes it, what follows it, and its argument. -/
def Finds (sym text : Text) (b : Bool) (pos : ℕ) (before rest arg : Text) : Prop :=
  ∃ mat taken, text = before ++ (taken ++ rest) ∧ (getTermRegex sym).search text b pos = some mat ∧
    mat.position = pos + before.length ∧ mat.length = taken.length ∧ mat.groups 1 = some arg

theorem Finds.skip {junk before arg : Text} {b' : Bool} (h : Finds sym text b' (pos + junk.length) before rest arg)
    (hskip : (getTermRegex sym).search (junk ++ text) b pos = (getTermRegex sym).search text b' (pos + junk.length)) :
    Finds sym (junk ++ text) b pos (junk ++ before) rest arg := by
  obtain ⟨mat, taken, htext, hsearch, hposition, hlength, harg⟩ := h
  refine ⟨mat, taken, ?_, hskip.trans hsearch, ?_, hlength, harg⟩
  · rw [htext, append_assoc]
  · rw [hposition, length_append, Nat.add_assoc]

/-- The symbol is found where the symbol of the first term ends with it. -/
theorem Spells.finds (hsym : IsSymbol sym) {p : Predicate} {ps : List Predicate} {u : Text}
    (h : Spells (p :: ps) text) (hp : p.sym = u ++ sym) :
    ∃ rest, Finds sym text b pos u rest p.arg ∧ Spells ps rest := by
  obtain ⟨tail, hwell, htext, hps⟩ := h.uncons
  have hword := hwell.1.2
  rw [hp, forall_mem_append] at hword
  refine ⟨afterTerm tail, ?_, hps⟩
  have hu : ∀ l, l <:+ u → l ≠ [] → l ++ sym ≠ sym := by
    intro l _ hne heq
    exact hne (append_left_eq_self.mp heq)
  obtain ⟨b', hb⟩ := @search_skip_word sym (p.arg ++ ')' :: tail) b pos hsym u sym hword.1 hword.2 hu
  have hsplit : text = u ++ (sym ++ '(' :: (p.arg ++ ')' :: tail)) := by
    rw [htext, hp]
    simp
  rw [hsplit]
  have hmatch : (getTermRegex sym).matchAt (sym ++ '(' :: (p.arg ++ ')' :: tail)) b' false =
      some ⟨afterTerm tail, false, update (fun _ => none) 1 (some p.arg)⟩ := by
    change (getTermRegex sym).run _ some = _
    rw [getTermRegex, Pattern.run_seq]
    obtain ⟨b'', hliteral⟩ := @run_literal _ ⟨sym ++ '(' :: (p.arg ++ ')' :: tail), b', fun _ => none⟩
      (fun d => (matchArgument 1).run d some) sym _ rfl
    rw [hliteral]
    exact run_matchArgument hwell.2 rfl
  obtain ⟨delim, hdelim⟩ := exists_afterTerm tail
  generalize afterTerm tail = rest at *
  have hhere : Finds sym (sym ++ '(' :: (p.arg ++ ')' :: tail)) b' (pos + u.length) [] rest p.arg := by
    refine ⟨_, sym ++ '(' :: (p.arg ++ ')' :: delim), ?_, Pattern.search_of_matchAt hmatch, rfl, ?_, rfl⟩
    · rw [hdelim]
      simp
    · change List.length _ - rest.length = _
      rw [hdelim]
      simp
      omega
  have hthere := hhere.skip hb
  rwa [append_nil] at hthere

theorem search_nil (hsym : IsSymbol sym) : (getTermRegex sym).search [] b pos = none := by
  have hnone : (getTermRegex sym).matchAt [] b false = none :=
    matchAt_getTermRegex_none hsym fun htake => absurd htake.symm hsym.1
  rw [Pattern.search, hnone]
  rfl

theorem search_skip_delimiter (hsym : IsSymbol sym) :
    ∃ b', (getTermRegex sym).search ([',', ' '] ++ rest) b pos = (getTermRegex sym).search rest b' (pos + 2) := by
  apply search_skip
  intro l hl hne b
  apply matchAt_getTermRegex_none hsym
  rcases suffix_cons_iff.mp hl with rfl | hl
  · exact fun htake => absurd htake.symm hsym.1
  · rcases suffix_cons_iff.mp hl with rfl | hl
    · exact fun htake => absurd htake.symm hsym.1
    · exact absurd (suffix_nil.mp hl) hne

/-- The first term whose symbol ends in this way is the one found. -/
theorem search_getTermRegex (hsym : IsSymbol sym) {ps : List Predicate} (h : Spells ps text) :
    ((∀ p ∈ ps, ¬ sym <:+ p.sym) ∧ (getTermRegex sym).search text b pos = none) ∨
    ∃ pre p post u before rest, ps = pre ++ p :: post ∧ (∀ q ∈ pre, ¬ sym <:+ q.sym) ∧ p.sym = u ++ sym ∧
      Finds sym text b pos (before ++ u) rest p.arg ∧ Spells post rest ∧
      ∀ ps' text', Spells ps' text' → Spells (pre ++ ps') (before ++ text') := by
  induction h generalizing b pos with
  | nil => exact Or.inl ⟨fun p hp => absurd hp not_mem_nil, search_nil hsym⟩
  | @last p hp =>
    by_cases hends : sym <:+ p.sym
    · obtain ⟨u, hu⟩ := hends
      obtain ⟨rest, hfinds, hps⟩ := (Spells.last hp).finds (b := b) hsym hu.symm
      exact Or.inr ⟨[], p, [], u, [], rest, rfl, fun q hq => absurd hq not_mem_nil, hu.symm, hfinds, hps,
        fun ps' text' h => h⟩
    · obtain ⟨b', hb⟩ := @search_skip_term sym [] b pos hsym p hp hends
      rw [append_nil, search_nil hsym] at hb
      exact Or.inl ⟨fun q hq => mem_singleton.mp hq ▸ hends, hb⟩
  | @cons p ps rest hp hps ih =>
    by_cases hends : sym <:+ p.sym
    · obtain ⟨u, hu⟩ := hends
      obtain ⟨rest', hfinds, hps'⟩ := (Spells.cons hp hps).finds (b := b) hsym hu.symm
      exact Or.inr ⟨[], p, ps, u, [], rest', rfl, fun q hq => absurd hq not_mem_nil, hu.symm, hfinds, hps',
        fun ps' text' h => h⟩
    · obtain ⟨b₁, h₁⟩ := @search_skip_term sym (',' :: ' ' :: rest) b pos hsym p hp hends
      obtain ⟨b₂, h₂⟩ := @search_skip_delimiter sym rest b₁ (pos + p.term.length) hsym
      rcases @ih b₂ (pos + p.term.length + 2) with
        ⟨hno, hnone⟩ | ⟨pre, q, post, u, before, rest', hsplit, hpre, hq, hfinds, hpost, hclosed⟩
      · exact Or.inl ⟨forall_mem_cons.mpr ⟨hends, hno⟩, h₁.trans (h₂.trans hnone)⟩
      · refine Or.inr ⟨p :: pre, q, post, u, p.term ++ ([',', ' '] ++ before), rest', by rw [hsplit]; rfl,
          forall_mem_cons.mpr ⟨hends, hpre⟩, hq, ?_, hpost, fun ps' text' h => ?_⟩
        · rw [append_assoc]
          exact (hfinds.skip h₂).skip h₁
        · rw [append_assoc]
          exact .cons hp (hclosed ps' text' h)

end Searching

/-! ## The helpers on a list of predicates -/

/-- **The helpers do what they say** for a query made from these predicates. -/
structure HelpersAgree (sym : Text) (ps : List Predicate) : Prop where
  hasTerm : hasTerm sym (render ps) = true ↔ ∃ p ∈ ps, p.sym = sym
  extractID : extractID sym (render ps) = ((ps.find? (·.sym = sym)).map Predicate.arg).getD []
  removed : (removeTerm sym (render ps)).1 = ((ps.find? (·.sym = sym)).map Predicate.term).getD []
  remains : predicates (removeTerm sym (render ps)).2 = ps.eraseP (·.sym = sym)
  countPred : countPred (render ps) = ps.length

/-- The first symbol which ends in this way is the symbol itself; or else the symbol follows at once, and
with the same argument. -/
def Unambiguous (sym : Text) : List Predicate → Prop
  | [] => True
  | p :: ps =>
    if sym <:+ p.sym then p.sym = sym ∨ ∃ q ∈ ps.head?, q.sym = sym ∧ q.arg = p.arg
    else Unambiguous sym ps

section Helpers

variable {sym : Text} {ps pre post : List Predicate} {p : Predicate}

theorem unambiguous_of_forall_not (h : ∀ p ∈ ps, ¬ sym <:+ p.sym) : Unambiguous sym ps := by
  induction ps with
  | nil => trivial
  | cons p ps ih =>
    rw [forall_mem_cons] at h
    rw [Unambiguous, if_neg h.1]
    exact ih h.2

theorem unambiguous_append (hpre : ∀ q ∈ pre, ¬ sym <:+ q.sym) (hp : sym <:+ p.sym) :
    Unambiguous sym (pre ++ p :: post) ↔ p.sym = sym ∨ ∃ q ∈ post.head?, q.sym = sym ∧ q.arg = p.arg := by
  induction pre with
  | nil => rw [nil_append, Unambiguous, if_pos hp]
  | cons q pre ih =>
    rw [forall_mem_cons] at hpre
    rw [cons_append, Unambiguous, if_neg hpre.1]
    exact ih hpre.2

theorem find?_append_of_not (hpre : ∀ q ∈ pre, ¬ sym <:+ q.sym) :
    (pre ++ post).find? (·.sym = sym) = post.find? (·.sym = sym) := by
  have hnone : pre.find? (·.sym = sym) = none := by
    rw [find?_eq_none]
    intro q hq heq
    exact hpre q hq (of_decide_eq_true heq ▸ suffix_rfl)
  rw [find?_append, hnone, Option.none_or]

theorem eraseP_append_of_not (hpre : ∀ q ∈ pre, ¬ sym <:+ q.sym) :
    (pre ++ post).eraseP (·.sym = sym) = pre ++ post.eraseP (·.sym = sym) := by
  apply eraseP_append_right
  intro q hq heq
  exact hpre q hq (of_decide_eq_true heq ▸ suffix_rfl)

theorem Finds.helpers {text before rest arg : Text} (h : Finds sym text true 0 before rest arg) :
    hasTerm sym text = true ∧ extractID sym text = arg ∧
      removeTerm sym text = (Predicate.term ⟨sym, arg⟩, before ++ rest) := by
  obtain ⟨mat, taken, htext, hsearch, hposition, hlength, harg⟩ := h
  rw [Nat.zero_add] at hposition
  refine ⟨by rw [hasTerm, hsearch]; rfl, by rw [extractID, hsearch]; exact congrArg (·.getD []) harg, ?_⟩
  rw [removeTerm, hsearch]
  dsimp only
  rw [harg, hposition, hlength, htext, take_left, ← drop_drop, drop_left, drop_left]
  rfl

theorem helpers_of_none {text : Text} (h : (getTermRegex sym).search text true 0 = none) :
    hasTerm sym text = false ∧ extractID sym text = [] ∧ removeTerm sym text = ([], text) := by
  refine ⟨?_, ?_, ?_⟩
  · rw [hasTerm, h]
    rfl
  · rw [extractID, h]
  · rw [removeTerm, h]

theorem countPred_render (hps : ∀ p ∈ ps, p.WellFormed) : countPred (render ps) = ps.length ↔ ps.length < 2 ^ 32 := by
  rw [countPred_eq, predicates_of_spells (spells_render hps), Nat.mod_eq_iff_lt (by decide)]

/-- **The helpers agree with the list of predicates** just when the symbol is not taken for the end of
another one, and when the predicates can be counted. -/
theorem helpersAgree_iff (hsym : IsSymbol sym) (hps : ∀ p ∈ ps, p.WellFormed) :
    HelpersAgree sym ps ↔ Unambiguous sym ps ∧ ps.length < 2 ^ 32 := by
  have hspells := spells_render hps
  rcases @search_getTermRegex sym (render ps) true 0 hsym ps hspells with
    ⟨hno, hnone⟩ | ⟨pre, p, post, u, before, rest, rfl, hpre, hp, hfinds, hpost, hclosed⟩
  · obtain ⟨hhas, hextract, hremove⟩ := helpers_of_none hnone
    have hnot : ∀ p ∈ ps, ¬ p.sym = sym := fun p hp heq => hno p hp (heq ▸ suffix_rfl)
    have hfind : ps.find? (·.sym = sym) = none :=
      find?_eq_none.mpr fun p hp heq => hnot p hp (of_decide_eq_true heq)
    refine ⟨fun h => ⟨unambiguous_of_forall_not hno, (countPred_render hps).mp h.countPred⟩, fun h => ?_⟩
    refine ⟨?_, ?_, ?_, ?_, (countPred_render hps).mpr h.2⟩
    · rw [hhas]
      exact ⟨fun h => absurd h Bool.false_ne_true, fun ⟨p, hp, heq⟩ => absurd heq (hnot p hp)⟩
    · rw [hextract, hfind]
      rfl
    · rw [hremove, hfind]
      rfl
    · rw [hremove, predicates_of_spells hspells, eraseP_of_forall_not]
      exact fun p hp heq => hnot p hp (of_decide_eq_true heq)
  · obtain ⟨hhas, hextract, hremove⟩ := hfinds.helpers
    rw [unambiguous_append hpre ⟨u, hp.symm⟩, ← countPred_render hps]
    by_cases heq : p.sym = sym
    · -- the term found is the first one with this symbol
      have hu : u = [] := append_left_eq_self.mp (hp.symm.trans heq)
      have hterm : (⟨sym, p.arg⟩ : Predicate) = p := by rw [← heq]
      have hfind : (pre ++ p :: post).find? (·.sym = sym) = some p := by
        rw [find?_append_of_not hpre]
        exact find?_cons_of_pos (decide_eq_true heq)
      refine ⟨fun h => ⟨Or.inl heq, h.countPred⟩, fun h => ⟨?_, ?_, ?_, ?_, h.2⟩⟩
      · exact ⟨fun _ => ⟨p, mem_append_right _ mem_cons_self, heq⟩, fun _ => hhas⟩
      · rw [hextract, hfind]
        rfl
      · rw [hremove, hfind, hterm]
        rfl
      · rw [hremove, hu, append_nil, predicates_of_spells (hclosed post rest hpost), eraseP_append_of_not hpre,
          eraseP_cons_of_pos (by simpa using heq)]
    · have hword : ∀ c ∈ u, isWord c = true := by
        have h := (hps p (mem_append_right _ mem_cons_self)).1.2
        rw [hp, forall_mem_append] at h
        exact h.1
      have hremains {q : Predicate} {post' : List Predicate} (hq : post = q :: post') :
          predicates (before ++ u ++ rest) = pre ++ { q with sym := u ++ q.sym } :: post' := by
        rw [append_assoc]
        exact predicates_of_spells (hclosed _ _ (Spells.prepend hword (hq ▸ hpost)))
      have herase : (pre ++ p :: post).eraseP (·.sym = sym) = pre ++ p :: post.eraseP (·.sym = sym) := by
        rw [eraseP_append_of_not hpre, eraseP_cons_of_neg (by simpa using heq)]
      constructor
      · intro h
        refine ⟨Or.inr ?_, h.countPred⟩
        -- some later term must have the symbol, and its remains stand where the term found was
        obtain ⟨r, hr, hrsym⟩ := h.hasTerm.mp hhas
        have hne : post ≠ [] := by
          rintro rfl
          rcases mem_append.mp hr with hr | hr
          · exact hpre r hr (hrsym ▸ suffix_rfl)
          · exact heq (mem_singleton.mp hr ▸ hrsym)
        obtain ⟨q, post', hq⟩ := exists_cons_of_ne_nil hne
        have hlist := h.remains
        rw [hremove, hremains hq, herase] at hlist
        obtain ⟨hfirst, -⟩ := List.cons.inj (append_cancel_left hlist)
        have hqsym : u ++ q.sym = p.sym := congrArg Predicate.sym hfirst
        have hqarg : q.arg = p.arg := by rw [← hfirst]
        exact ⟨q, by rw [hq]; rfl, append_cancel_left (hqsym.trans hp), hqarg⟩
      · rintro ⟨heq' | ⟨q, hq, hqsym, hqarg⟩, hcount⟩
        · exact absurd heq' heq
        · obtain ⟨post', rfl⟩ := head?_eq_some_iff.mp hq
          have hterm : (⟨sym, p.arg⟩ : Predicate) = q := by rw [← hqsym, ← hqarg]
          have hfind : (pre ++ p :: q :: post').find? (·.sym = sym) = some q := by
            rw [find?_append_of_not hpre, find?_cons_of_neg (by simpa using heq)]
            exact find?_cons_of_pos (decide_eq_true hqsym)
          have hfirst : ({ q with sym := u ++ q.sym } : Predicate) = p := by
            rw [hqsym, hqarg, ← hp]
          refine ⟨?_, ?_, ?_, ?_, hcount⟩
          · exact ⟨fun _ => ⟨q, by simp, hqsym⟩, fun _ => hhas⟩
          · rw [hextract, hfind]
            exact hqarg.symm
          · rw [hremove, hfind, hterm]
            rfl
          · rw [hremove, hremains rfl, herase, hfirst, eraseP_cons_of_pos (by simpa using hqsym)]

/-- The argument is looked for as that of an `ame`, and found with a `name`. -/
theorem not_helpersAgree_ame : IsSymbol "ame".toList ∧ Predicate.WellFormed ⟨"name".toList, ['x']⟩ ∧
    ¬ HelpersAgree "ame".toList [⟨"name".toList, ['x']⟩] := by
  refine ⟨by decide, by decide, fun h => ?_⟩
  have hhas : hasTerm "ame".toList (render [⟨"name".toList, ['x']⟩]) = true := by decide
  exact absurd (h.hasTerm.mp hhas) (by decide)

theorem helpersAgree_name : HelpersAgree "name".toList [⟨"rate".toList, ['x']⟩, ⟨"name".toList, ['y']⟩] :=
  (helpersAgree_iff (by decide) (by decide)).mpr <| by
    refine ⟨?_, by decide⟩
    exact Or.inl rfl

end Helpers

end Lumiera.Lib.Query
