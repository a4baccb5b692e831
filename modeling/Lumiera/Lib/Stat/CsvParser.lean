import Lumiera.Lib.Stat.Csv

/-! # The fields visited by the CSV parser (`lib/stat/csv.hpp`)

The regular expression matches one field, whatever the text: a quoted one if possible, otherwise a
single token, which may be empty. Thus the parser always stands at a field; it can go on when a
delimiter follows or the line is at its end, and reports anything else. -/

namespace Lumiera.Lib.Stat

open List

open Parse (isSpace)

/-! ## Matching a field -/

open Pattern

variable {s : Text} {x : Char}

section Matching

variable {c : Cursor} {k : Cursor → Option Cursor}

/-- The match ends behind a field with this content. -/
def Accepted (found : Option Cursor) (field : Text × Text) : Prop :=
  ∃ d, found = some d ∧ d.rest = field.2 ∧ fieldContent d.groups = field.1

theorem run_blanks (hk : ∀ d : Cursor, d.rest.length ≤ c.rest.length → k d = some d) :
    run (.many isSpace) c k = some (c.skip isSpace) :=
  run_many_of_some (hk _ (length_dropWhile_le isSpace c.rest))

theorem takeWhile_eq_take (p : Char → Bool) (s : Text) :
    s.takeWhile p = s.take (s.length - (s.dropWhile p).length) := by
  have hsplit := congrArg List.length (takeWhile_append_dropWhile (p := p) (l := s))
  rw [length_append] at hsplit
  rw [← hsplit, Nat.add_sub_cancel]
  exact prefix_iff_eq_take.mp ( takeWhile_prefix p)

theorem run_matchSingleToken (hk : ∀ d : Cursor, d.rest.length ≤ c.rest.length → k d = some d) :
    Accepted (run matchSingleToken c k) (tokenField c.rest) := by
  have hlength := length_dropWhile_le isTokenChar c.rest
  let d := (c.skip isTokenChar).capture 2 (c.rest.take (c.rest.length - (c.skip isTokenChar).rest.length))
  have hrun : run matchSingleToken c k = some (d.skip isSpace) := by
    exact run_many_of_some (run_blanks fun e he => hk e (he.trans hlength))
  refine ⟨_, hrun, rfl, ?_⟩
  simp [d, fieldContent, tokenField, takeWhile_eq_take]

theorem run_matchQuotedToken_cons (hrest : c.rest = x :: s) (hx : (x == '"') = true) :
    run matchQuotedToken c k = run (.seq (.one (· == '"')) (.many isSpace))
      (((c.moved s).skip isUnquoted).capture 1 (s.take (s.length - (s.dropWhile isUnquoted).length))) k := by
  rw [matchQuotedToken, run_seq, run_one_cons hrest, if_pos hx, run_seq, run_group]
  -- the closing quote can not be among the characters in between
  apply run_many_of_stuck
  intro d y hy hquoted
  rw [run_seq]
  refine run_one_of_head fun z hz => ?_
  obtain rfl : y = z := Option.some.inj (hy.symm.trans hz)
  simpa [isUnquoted] using hquoted

theorem run_matchQuotedToken_none (h : quotedField c.rest = none) : run matchQuotedToken c k = none := by
  cases hrest : c.rest with
  | nil =>
    rw [matchQuotedToken, run_seq]
    exact run_one_nil hrest
  | cons x s =>
    by_cases hx : (x == '"') = true
    · rw [hrest, quotedField, if_pos hx] at h
      have hdrop : s.dropWhile isUnquoted = [] := by
        cases hdrop : s.dropWhile isUnquoted with
        | nil => rfl
        | cons q rest => simp [hdrop] at h
      rw [run_matchQuotedToken_cons hrest hx, run_seq]
      exact run_one_nil hdrop
    · rw [matchQuotedToken, run_seq, run_one_cons hrest, if_neg hx]

/-- A quoted field is matched where there is one. -/
theorem run_matchQuotedToken (hgroups : c.groups 2 = none)
    (hk : ∀ d : Cursor, d.rest.length ≤ c.rest.length → k d = some d) {field : Text × Text}
    (h : quotedField c.rest = some field) : Accepted (run matchQuotedToken c k) field := by
  cases hrest : c.rest with
  | nil => simp [hrest, quotedField] at h
  | cons x s =>
    rw [hrest, quotedField] at h
    split at h
    case isFalse => cases h
    case isTrue hx =>
      cases hdrop : s.dropWhile isUnquoted with
      | nil => simp [hdrop] at h
      | cons q rest =>
        rw [hdrop] at h
        obtain rfl := (Option.some.inj h).symm
        have hq : (q == '"') = true := by
          have hhead := head_dropWhile isUnquoted s q (by rw [hdrop]; rfl)
          simpa [isUnquoted] using hhead
        have hlength : rest.length ≤ c.rest.length := by
          have hle := length_dropWhile_le isUnquoted s
          rw [hdrop, length_cons] at hle
          rw [hrest, length_cons]
          omega
        rw [run_matchQuotedToken_cons hrest hx, run_seq, run_one_cons hdrop, if_pos hq]
        refine ⟨_, run_blanks fun e he => hk e (he.trans hlength), rfl, ?_⟩
        simp [fieldContent, hgroups, takeWhile_eq_take]

/-- One field is matched, whatever the text. -/
theorem run_field (hgroups : c.groups 2 = none) (hk : ∀ d : Cursor, d.rest.length ≤ c.rest.length → k d = some d) :
    Accepted (run (.many isSpace) c fun d => run (.alt matchQuotedToken matchSingleToken) d k)
    (leadingField c.rest) := by
  have hk' : ∀ d : Cursor, d.rest.length ≤ (c.skip isSpace).rest.length → k d = some d := fun d hd =>
    hk d (hd.trans (length_dropWhile_le isSpace c.rest))
  have hfound : Accepted (run (.alt matchQuotedToken matchSingleToken) (c.skip isSpace) k)
      (leadingField c.rest) := by
    rw [leadingField, run_alt]
    cases hfield : quotedField (c.rest.dropWhile isSpace) with
    | none =>
      rw [run_matchQuotedToken_none hfield]
      exact run_matchSingleToken hk'
    | some field =>
      obtain ⟨d, hd, hrest⟩ := run_matchQuotedToken (c := c.skip isSpace) hgroups hk' hfield
      rw [hd]
      exact ⟨d, rfl, hrest⟩
  obtain ⟨d, hd, hrest⟩ := hfound
  exact ⟨d, run_many_of_some hd, hrest⟩

end Matching

/-! ## The matches within a line -/

theorem matchAt_start (s : Text) : Accepted (acceptField.matchAt s true false) (leadingField s) := by
  obtain ⟨d, hd, hfound⟩ := run_field (c := ⟨s, true, fun _ => none⟩) rfl (k := fun d =>
    if false && d.rest.length == s.length then none else some d) (fun d _ => rfl)
  refine ⟨d, ?_, hfound⟩
  rw [matchAt, acceptField, run_seq, matchDelimiter, run_seq, run_alt, run_start, hd]
  rfl

/-- A field after a delimiter. -/
theorem matchAt_delimiter (hx : isDelimiter x = true) (rest : Text) (notNull : Bool) :
    Accepted (acceptField.matchAt (x :: rest) false notNull) (leadingField rest) := by
  obtain ⟨d, hd, hfound⟩ := run_field (c := Cursor.moved ⟨x :: rest, false, fun _ => none⟩ rest) rfl
    (k := fun d => if notNull && d.rest.length == (x :: rest).length then none else some d) (by
      intro d hd
      have hne : (d.rest.length == (x :: rest).length) = false := by
        simp only [Cursor.moved_rest] at hd
        simp
        omega
      simp only [hne, Bool.and_false, Bool.false_eq_true, if_false])
  refine ⟨d, ?_, hfound⟩
  rw [matchAt, acceptField, run_seq, matchDelimiter, run_seq, run_alt, run_start, if_neg Bool.false_ne_true,
    Option.none_or, run_alt, run_one_cons rfl, run_one_cons rfl]
  obtain hcomma | hsemicolon := Bool.or_eq_true_iff.mp hx
  · rw [if_pos hcomma, hd, Option.some_or]
  · have hcomma : (x == ',') = false := by
      rw [eq_of_beq hsemicolon]
      decide
    rw [hcomma, if_neg Bool.false_ne_true, Option.none_or, if_pos hsemicolon, hd]

theorem matchAt_of_head (h : ∀ x ∈ s.head?, isDelimiter x = false) (notNull : Bool) :
    acceptField.matchAt s false notNull = none := by
  have hone (x : Char) (hx : isDelimiter x = false) : (x == ',') = false ∧ (x == ';') = false :=
    Bool.or_eq_false_iff.mp hx
  rw [matchAt, acceptField, run_seq, matchDelimiter, run_seq, run_alt, run_start, if_neg Bool.false_ne_true,
    Option.none_or, run_alt, run_one_of_head fun x hx => (hone x (h x hx)).1,
    run_one_of_head fun x hx => (hone x (h x hx)).2]
  rfl

theorem length_quotedField_lt {field : Text × Text} (h : quotedField s = some field) : field.2.length < s.length := by
  cases s with
  | nil => cases h
  | cons c s =>
    rw [quotedField] at h
    split at h
    case isFalse => cases h
    case isTrue =>
      cases hdrop : s.dropWhile isUnquoted with
      | nil => simp [hdrop] at h
      | cons q rest =>
        rw [hdrop] at h
        cases h
        have hle := length_dropWhile_le isUnquoted s
        have hblanks := length_dropWhile_le isSpace rest
        rw [hdrop, length_cons] at hle
        change (rest.dropWhile isSpace).length < s.length + 1
        omega

theorem length_leadingField_le (s : Text) : (leadingField s).2.length ≤ (s.dropWhile isSpace).length := by
  rw [leadingField]
  cases hfield : quotedField (s.dropWhile isSpace) with
  | none =>
    have htoken := length_dropWhile_le isTokenChar (s.dropWhile isSpace)
    exact (length_dropWhile_le isSpace _).trans htoken
  | some field => exact (length_quotedField_lt hfield).le

theorem head_of_leadingField (hs : leadingField s = ([], s)) :
    (∀ x ∈ s.head?, isSpace x = false) ∧ quotedField s = none ∧ ∀ x ∈ s.head?, isTokenChar x = false := by
  have hspace : ∀ x ∈ s.head?, isSpace x = false := by
    intro x hx
    by_contra hblank
    have hle := length_leadingField_le s
    cases s with
    | nil => cases hx
    | cons y s =>
      obtain rfl : y = x := Option.some.inj hx
      rw [hs, dropWhile_cons_of_pos (by simpa using hblank), length_cons] at hle
      have := length_dropWhile_le isSpace s
      omega
  rw [leadingField, dropWhile_of_head hspace] at hs
  have hquoted : quotedField s = none := by
    cases hfield : quotedField s with
    | none => rfl
    | some field =>
      rw [hfield] at hs
      have hlt := length_quotedField_lt hfield
      rw [show field = ([], s) from hs] at hlt
      exact absurd hlt (lt_irrefl _)
  refine ⟨hspace, hquoted, fun x hx => ?_⟩
  rw [hquoted] at hs
  have htake : s.takeWhile isTokenChar = [] := congrArg Prod.fst hs
  by_contra htoken
  cases s with
  | nil => cases hx
  | cons y s =>
    obtain rfl : y = x := Option.some.inj hx
    rw [takeWhile_cons_of_pos (by simpa using htoken)] at htake
    cases htake

theorem matchAt_start_notNull (hs : leadingField s = ([], s)) :
    acceptField.matchAt s true true = acceptField.matchAt s false true := by
  obtain ⟨hspace, hquoted, htoken⟩ := head_of_leadingField hs
  have hblanks (k : Cursor → Option Cursor) : run (.many isSpace) ⟨s, true, fun _ => none⟩ k =
      k ⟨s, true, fun _ => none⟩ := run_many_of_head hspace
  have hsingle : run matchSingleToken ⟨s, true, fun _ => none⟩ (fun d =>
      if true && d.rest.length == s.length then none else some d) = none := by
    rw [matchSingleToken, run_seq, run_group, run_many_of_head htoken, run_many_of_head hspace]
    simp
  let accept := fun d : Cursor => if true && d.rest.length == s.length then none else some d
  let field := fun d => run (.many isSpace) d fun e => run (.alt matchQuotedToken matchSingleToken) e accept
  have hsplit (b : Bool) : acceptField.matchAt s b true = (if b then field ⟨s, b, fun _ => none⟩ else none).or
      (run (.alt (.one (· == ',')) (.one (· == ';'))) ⟨s, b, fun _ => none⟩ field) := rfl
  have hnone : field ⟨s, true, fun _ => none⟩ = none := by
    change run (.many isSpace) _ _ = none
    rw [hblanks, run_alt, run_matchQuotedToken_none hquoted, hsingle, Option.none_or]
  rw [hsplit, hnone]
  rfl

/-! ## The iterator -/

theorem search_nil (position : ℕ) : acceptField.search [] false position = none := by
  rfl

theorem lt_position_of_search (h : ∀ x ∈ s.head?, isDelimiter x = false) {position : ℕ} {mat : Match}
    (hmat : acceptField.search s false position = some mat) : position < mat.position := by
  cases s with
  | nil =>
    cases hmat
  | cons x s =>
    rw [search_of_matchAt_none (matchAt_of_head h false)] at hmat
    exact le_position_of_search hmat

section Next

variable {it : SearchIter} {mat : Match} {rest : Text} (hpattern : it.pattern = acceptField)
  (hcurrent : it.current = some mat) (hrest : it.text.drop (mat.position + mat.length) = rest)
  (hempty : mat.length = 0 → it.prevAvail = false ∧ leadingField rest = ([], rest))

include hpattern hcurrent hrest

theorem next_current_nil (hnil : rest = []) : it.next.current = none := by
  subst hnil
  by_cases hlength : mat.length = 0
  · rw [SearchIter.next_of_length_zero_nil hcurrent hlength hrest]
  · rw [SearchIter.next_of_length_ne hcurrent hlength, hrest, hpattern]
    exact search_nil (mat.position + mat.length)

include hempty

/-- The next field is matched just behind the preceding one. -/
theorem next_current_delimiter {d : Char} {others : Text} (hcons : rest = d :: others) (hd : isDelimiter d = true) :
    ∃ e : Cursor, e.rest = (leadingField others).2 ∧ fieldContent e.groups = (leadingField others).1 ∧
    it.next.current = some (.upTo (mat.position + mat.length) (d :: others) e) := by
  subst hcons
  by_cases hlength : mat.length = 0
  · obtain ⟨hprev, hlead⟩ := hempty hlength
    obtain ⟨e, he, hfound⟩ := matchAt_delimiter hd others true
    refine ⟨e, hfound.1, hfound.2, ?_⟩
    rw [SearchIter.next_of_length_zero hcurrent hlength hrest, hpattern, hprev, Bool.not_false,
      matchAt_start_notNull hlead, he]
  · obtain ⟨e, he, hfound⟩ := matchAt_delimiter hd others false
    refine ⟨e, hfound.1, hfound.2, ?_⟩
    rw [SearchIter.next_of_length_ne hcurrent hlength, hrest, hpattern]
    exact search_of_matchAt he

theorem next_current_garbage {others : Text} (hcons : rest = x :: others) (hx : isDelimiter x = false)
    {mat' : Match} (hmat : it.next.current = some mat') : mat.position + mat.length < mat'.position := by
  subst hcons
  have hhead : ∀ y ∈ (x :: others).head?, isDelimiter y = false := fun y hy => by
    obtain rfl : x = y := Option.some.inj hy
    exact hx
  by_cases hlength : mat.length = 0
  · obtain ⟨hprev, hlead⟩ := hempty hlength
    rw [SearchIter.next_of_length_zero hcurrent hlength hrest, hpattern, hprev, Bool.not_false,
      matchAt_start_notNull hlead, matchAt_of_head hhead] at hmat
    exact le_position_of_search hmat
  · rw [SearchIter.next_of_length_ne hcurrent hlength, hrest, hpattern] at hmat
    exact lt_position_of_search hhead hmat

end Next

/-! ## The parser -/

namespace CsvParser

/-- **The parser stands at the field** which the text given begins with. -/
structure Standing (csv : CsvParser) (s : Text) : Prop where
  pattern : csv.curr.pattern = acceptField
  text : csv.curr.text = csv.line_
  current : ∃ mat, csv.curr.current = some mat ∧ mat.position = csv.pos_ ∧
    fieldContent mat.groups = (leadingField s).1 ∧
    csv.line_.drop (mat.position + mat.length) = (leadingField s).2 ∧
    mat.position + mat.length ≤ csv.line_.length ∧
    (mat.length = 0 → csv.curr.prevAvail = false ∧
      leadingField (leadingField s).2 = ([], (leadingField s).2))

/-- All the fields have been visited. -/
def Finished (csv : CsvParser) : Prop := csv.curr.current = none

variable {csv : CsvParser} {s : Text}

theorem Standing.isValid (h : Standing csv s) : csv.isValid = true := by
  obtain ⟨mat, hcurrent, hposition, -⟩ := h.current
  simp [CsvParser.isValid, hcurrent, hposition]

theorem Standing.field (h : Standing csv s) : csv.field = .ok (leadingField s).1 := by
  obtain ⟨mat, hcurrent, hposition, hcontent, -⟩ := h.current
  rw [CsvParser.field, hcurrent]
  dsimp only
  rw [if_pos h.isValid, hcontent]

theorem Finished.isValid (h : Finished csv) : csv.isValid = false := by
  rw [CsvParser.isValid, h]

theorem Finished.isParseFail (h : Finished csv) : csv.isParseFail = false := by
  rw [CsvParser.isParseFail, h]
  rfl

theorem leadingField_of_length {before : Text} (hs : s = before ++ (leadingField s).2)
    (hfield : Field before (leadingField s).1) (hlength : before.length = 0) : leadingField s = ([], s) := by
  obtain rfl := eq_nil_of_length_eq_zero hlength
  have hrest : s = (leadingField s).2 := hs
  have hcontent : (leadingField s).1 = [] := by
    generalize hbefore : ([] : Text) = before at hfield
    cases hfield with
    | quoted => simp at hbefore
    | token =>
      have hrest := (append_eq_nil_iff.mp hbefore.symm).2
      exact (append_eq_nil_iff.mp hrest).1.trans hbefore
  exact Prod.ext hcontent hrest.symm

/-- At first, the parser stands at the start of the line. -/
theorem standing_ofLine (line : Text) : Standing (ofLine line) line := by
  obtain ⟨e, he, hrest, hcontent⟩ := matchAt_start line
  obtain ⟨before, hfield, hline⟩ := exists_leading line
  have hcurrent : (ofLine line).curr.current = some (.upTo 0 line e) := search_of_matchAt he
  obtain ⟨hlength, hdrop, hle⟩ := Match.upTo_spec (drop_zero (l := line)) (Nat.zero_le _) hline hrest
  refine ⟨rfl, rfl, .upTo 0 line e, hcurrent, rfl, hcontent, ?_⟩
  rw [hlength]
  refine ⟨hdrop, hle, fun hzero => ⟨rfl, ?_⟩⟩
  have hlead := leadingField_of_length hline hfield hzero
  rw [hlead]
  exact hlead

/-- At the end of the line, all the fields have been visited. -/
theorem Standing.next_nil (h : Standing csv s) (hend : (leadingField s).2 = []) :
    ∃ csv', csv.next = .ok csv' ∧ csv'.Finished := by
  obtain ⟨mat, hcurrent, hposition, hcontent, hdrop, hle, hempty⟩ := h.current
  have htext : csv.curr.text.drop (mat.position + mat.length) = (leadingField s).2 := h.text ▸ hdrop
  have hnone := next_current_nil h.pattern hcurrent htext hend
  have hlength : csv.line_.length ≤ mat.position + mat.length := by
    rw [hend] at hdrop
    exact drop_eq_nil_iff.mp hdrop
  refine ⟨{ csv with
    pos_ := mat.position + mat.length, curr := csv.curr.next, field_ := csv.field_ + 1 }, ?_, hnone⟩
  rw [next, hcurrent]
  dsimp only
  rw [if_pos h.isValid, decide_eq_false (Nat.not_lt.mpr hlength), Bool.false_and, if_neg Bool.false_ne_true]

/-- Behind a delimiter there is the next field. -/
theorem Standing.next_delimiter (h : Standing csv s) {d : Char} {rest : Text} (hrest : (leadingField s).2 = d :: rest)
    (hd : isDelimiter d = true) : ∃ csv', csv.next = .ok csv' ∧ csv'.Standing rest := by
  obtain ⟨mat, hcurrent, hposition, hcontent, hdrop, hle, hempty⟩ := h.current
  have htext : csv.curr.text.drop (mat.position + mat.length) = (leadingField s).2 := h.text ▸ hdrop
  obtain ⟨e, herest, hecontent, hnext⟩ := next_current_delimiter h.pattern hcurrent htext hempty hrest hd
  obtain ⟨before, -, hbefore⟩ := exists_leading rest
  have hsplit : d :: rest = (d :: before) ++ (leadingField rest).2 := congrArg (List.cons d) hbefore
  obtain ⟨hlength, hafter, hle'⟩ := Match.upTo_spec (hdrop.trans hrest) hle hsplit herest
  have hvalid : ({ csv with pos_ := mat.position + mat.length, curr := csv.curr.next } : CsvParser).isValid =
      true := by
    simp [CsvParser.isValid, hnext, Match.upTo]
  refine ⟨{ csv with
    pos_ := mat.position + mat.length, curr := csv.curr.next, field_ := csv.field_ + 1 }, ?_, ?_⟩
  · rw [next, hcurrent]
    dsimp only
    rw [if_pos h.isValid, hvalid, Bool.not_true, Bool.and_false, if_neg Bool.false_ne_true]
  · refine ⟨(SearchIter.next_pattern _).trans h.pattern, (SearchIter.next_text _).trans h.text, _,
      hnext, rfl, hecontent, ?_⟩
    rw [hlength]
    exact ⟨hafter, hle', fun hzero => by simp at hzero⟩

/-- Anything else is reported. -/
theorem Standing.next_garbage (h : Standing csv s) {rest : Text}
    (hrest : (leadingField s).2 = x :: rest) (hx : isDelimiter x = false) : ∃ e, csv.next = .error e := by
  obtain ⟨mat, hcurrent, hposition, hcontent, hdrop, hle, hempty⟩ := h.current
  have htext : csv.curr.text.drop (mat.position + mat.length) = (leadingField s).2 := h.text ▸ hdrop
  have hbehind {mat' : Match} (hmat : csv.curr.next.current = some mat') :
      mat.position + mat.length < mat'.position :=
    next_current_garbage h.pattern hcurrent htext hempty hrest hx hmat
  have hlength : mat.position + mat.length < csv.line_.length := by
    by_contra hge
    rw [drop_eq_nil_of_le (Nat.not_lt.mp hge), hrest] at hdrop
    cases hdrop
  have hvalid : ({ csv with pos_ := mat.position + mat.length, curr := csv.curr.next } : CsvParser).isValid =
      false := by
    cases hnext : csv.curr.next.current with
    | none => simp [CsvParser.isValid, hnext]
    | some mat' =>
      have hlt := hbehind hnext
      simp [CsvParser.isValid, hnext]
      omega
  rw [next, hcurrent]
  dsimp only
  rw [if_pos h.isValid, hvalid, Bool.not_false, Bool.and_true, if_pos (decide_eq_true hlength)]
  exact ⟨_, rfl⟩

end CsvParser

end Lumiera.Lib.Stat
