import Mathlib.Data.List.TakeWhile

/-! # Regular expressions, with backtracking

A **pattern** is matched against a text in the way of an ECMAScript regular expression: alternatives are
tried in their order, a repetition takes as many characters as possible and gives back one after the
other, and the first way through the pattern is the match. Groups record the text they matched.

Repetition is confined to character classes. `Pattern.SearchIter` visits all the matches within a text,
one after the other, like `std::sregex_iterator` does. -/

namespace Lumiera

universe u

/-- A regular expression. -/
inductive Pattern
  /-- `^`, the start of the text -/
  | start
  /-- a single character of a class -/
  | one (p : Char → Bool)
  /-- any number of characters of a class -/
  | many (p : Char → Bool)
  | seq (a b : Pattern)
  | alt (a b : Pattern)
  /-- a group, with its number -/
  | group (n : ℕ) (a : Pattern)

namespace Pattern

/-- The text matched by each group, if any. -/
abbrev Groups := ℕ → Option (List Char)

/-- How far a match has got: the text ahead, whether `^` matches here, the groups so far. -/
structure Cursor where
  rest : List Char
  atStart : Bool
  groups : Groups

namespace Cursor

/-- Some characters further. -/
def moved (c : Cursor) (rest : List Char) : Cursor := ⟨rest, false, c.groups⟩

def capture (c : Cursor) (n : ℕ) (text : List Char) : Cursor :=
  { c with groups := Function.update c.groups n (some text) }

/-- After all the characters of a class found here. -/
def skip (p : Char → Bool) (c : Cursor) : Cursor :=
  ⟨c.rest.dropWhile p, c.atStart && !c.rest.head?.any p, c.groups⟩

@[simp] theorem moved_rest (c : Cursor) (rest : List Char) : (c.moved rest).rest = rest := rfl

@[simp] theorem moved_groups (c : Cursor) (rest : List Char) : (c.moved rest).groups = c.groups := rfl

@[simp] theorem capture_rest (c : Cursor) (n : ℕ) (text : List Char) : (c.capture n text).rest = c.rest := rfl

@[simp] theorem capture_groups (c : Cursor) (n : ℕ) (text : List Char) :
    (c.capture n text).groups = Function.update c.groups n (some text) := rfl

@[simp] theorem skip_rest (p : Char → Bool) (c : Cursor) : (c.skip p).rest = c.rest.dropWhile p := rfl

@[simp] theorem skip_groups (p : Char → Bool) (c : Cursor) : (c.skip p).groups = c.groups := rfl

end Cursor

variable {α : Type u} {p q : Char → Bool} {c : Cursor} {k : Cursor → Option α}

/-! ## Matching -/

/-- Take the characters of a class from the text ahead, and give back one after the other until the
continuation succeeds. -/
def runMany (p : Char → Bool) (groups : Groups) (k : Cursor → Option α) : List Char → Bool → Option α
  | [], atStart => k ⟨[], atStart, groups⟩
  | x :: rest, atStart =>
    if p x then (runMany p groups k rest false).or (k ⟨x :: rest, atStart, groups⟩)
    else k ⟨x :: rest, atStart, groups⟩

/-- **Match a pattern** and continue from there; the first way which succeeds is taken. -/
def run : Pattern → Cursor → (Cursor → Option α) → Option α
  | start, c, k => if c.atStart then k c else none
  | one p, c, k =>
    match c.rest with
    | [] => none
    | x :: rest => if p x then k (c.moved rest) else none
  | many p, c, k => runMany p c.groups k c.rest c.atStart
  | seq a b, c, k => run a c fun d => run b d k
  | alt a b, c, k => (run a c k).or (run b c k)
  | group n a, c, k => run a c fun d => k (d.capture n (c.rest.take (c.rest.length - d.rest.length)))

@[simp] theorem run_start : run start c k = if c.atStart then k c else none := rfl

@[simp] theorem run_seq (a b : Pattern) : run (seq a b) c k = run a c fun d => run b d k := rfl

@[simp] theorem run_alt (a b : Pattern) : run (alt a b) c k = (run a c k).or (run b c k) := rfl

@[simp] theorem run_group (n : ℕ) (a : Pattern) : run (group n a) c k =
    run a c fun d => k (d.capture n (c.rest.take (c.rest.length - d.rest.length))) := rfl

theorem run_one_nil (h : c.rest = []) : run (one p) c k = none := by
  rw [run, h]

variable {rest : List Char}

theorem run_one_cons {x : Char} (h : c.rest = x :: rest) :
    run (one p) c k = if p x then k (c.moved rest) else none := by
  rw [run, h]

theorem run_one_of_head (h : ∀ x ∈ c.rest.head?, p x = false) : run (one p) c k = none := by
  cases hrest : c.rest with
  | nil => exact run_one_nil hrest
  | cons x rest =>
    have hx : p x = false := h x (by rw [hrest]; rfl)
    rw [run_one_cons hrest, hx]
    rfl

theorem run_many_of_some {a : α} (h : k (c.skip p) = some a) : run (many p) c k = some a := by
  obtain ⟨rest, atStart, groups⟩ := c
  change runMany p groups k rest atStart = some a
  induction rest generalizing atStart with
  | nil => simpa [runMany, Cursor.skip] using h
  | cons x rest ih =>
    by_cases hx : p x = true
    · have hrest : k (Cursor.skip p ⟨rest, false, groups⟩) = some a := by
        simpa [Cursor.skip, hx] using h
      rw [runMany, if_pos hx, ih false hrest]
      rfl
    · simpa [runMany, Cursor.skip, hx] using h

/-- No character can be given back, when the continuation does not accept one from this class. -/
theorem run_many_of_stuck (hk : ∀ d x, d.rest.head? = some x → p x = true → k d = none) :
    run (many p) c k = k (c.skip p) := by
  obtain ⟨rest, atStart, groups⟩ := c
  change runMany p groups k rest atStart = _
  induction rest generalizing atStart with
  | nil => simp [runMany, Cursor.skip]
  | cons x rest ih =>
    by_cases hx : p x = true
    · rw [runMany, ih, hk ⟨x :: rest, atStart, groups⟩ x rfl hx]
      simp [Cursor.skip, hx]
    · simp [runMany, Cursor.skip, hx]

theorem run_many_of_head (h : ∀ x ∈ c.rest.head?, p x = false) : run (many p) c k = k c := by
  obtain ⟨rest, atStart, groups⟩ := c
  cases rest with
  | nil => rfl
  | cons x rest =>
    have hx : p x = false := h x rfl
    change runMany p groups k (x :: rest) atStart = _
    rw [runMany, hx]
    rfl

/-! ## Searching -/

/-- A match found: where it is, how long it is, and its groups. -/
structure Match where
  position : ℕ
  length : ℕ
  groups : Groups

/-- The match which ends at this cursor, in a text which begins at the position given. -/
def Match.upTo (position : ℕ) (text : List Char) (d : Cursor) : Match :=
  ⟨position, text.length - d.rest.length, d.groups⟩

variable {position : ℕ} {text : List Char}

theorem Match.upTo_spec {line before : List Char} {d : Cursor}
    (htext : line.drop position = text) (hposition : position ≤ line.length) (hsplit : text = before ++ rest)
    (hd : d.rest = rest) : (Match.upTo position text d).length = before.length ∧
      line.drop (position + before.length) = rest ∧ position + before.length ≤ line.length := by
  have hlength : (Match.upTo position text d).length = before.length := by
    rw [Match.upTo, hd, hsplit, List.length_append, Nat.add_sub_cancel]
  have hrest : line.drop (position + before.length) = rest := by
    rw [← List.drop_drop, htext, hsplit, List.drop_left]
  have hle : before.length ≤ line.length - position := by
    rw [← List.length_drop, htext, hsplit, List.length_append]
    exact Nat.le_add_right _ _
  exact ⟨hlength, hrest, by omega⟩

/-- Match at the start of a text; optionally without the empty match. -/
def matchAt (a : Pattern) (text : List Char) (atStart notNull : Bool) : Option Cursor :=
  a.run ⟨text, atStart, fun _ => none⟩ fun d =>
    if notNull && d.rest.length == text.length then none else some d

/-- `std::regex_search`: the first place with a match. Only the very first place can be the start. -/
def search (a : Pattern) : List Char → Bool → ℕ → Option Match
  | [], atStart, position => (a.matchAt [] atStart false).map (.upTo position [])
  | x :: rest, atStart, position =>
    ((a.matchAt (x :: rest) atStart false).map (.upTo position (x :: rest))).or
      (a.search rest false (position + 1))

/-- `std::regex_match`: the pattern matches the complete text. -/
def fullMatch (a : Pattern) (text : List Char) : Bool :=
  (a.run ⟨text, true, fun _ => none⟩ fun d => if d.rest.isEmpty then some () else none).isSome

variable {atStart : Bool}

theorem search_of_matchAt {a : Pattern} {d : Cursor}
    (h : a.matchAt text atStart false = some d) : a.search text atStart position = some (.upTo position text d) := by
  cases text with
  | nil => rw [search, h]; rfl
  | cons x rest => rw [search, h]; rfl

theorem search_of_matchAt_none {a : Pattern} {x : Char} (h : a.matchAt (x :: rest) atStart false = none) :
    a.search (x :: rest) atStart position = a.search rest false (position + 1) := by
  rw [search, h]
  rfl

theorem le_position_of_search {a : Pattern} {mat : Match}
    (h : a.search text atStart position = some mat) : position ≤ mat.position := by
  induction text generalizing atStart position with
  | nil =>
    obtain ⟨d, -, rfl⟩ := Option.map_eq_some_iff.mp h
    exact le_rfl
  | cons x rest ih =>
    rw [search, Option.or_eq_some_iff] at h
    obtain h | ⟨-, h⟩ := h
    · obtain ⟨d, -, rfl⟩ := Option.map_eq_some_iff.mp h
      exact le_rfl
    · exact (Nat.le_succ position).trans (ih h)

/-! ## All the matches in turn -/

/-- `std::sregex_iterator`: the current match within the text, if any. -/
structure SearchIter where
  pattern : Pattern
  text : List Char
  current : Option Match
  /-- the flag `match_prev_avail`: the next search does not begin at the start of the text -/
  prevAvail : Bool

namespace SearchIter

def begin (a : Pattern) (text : List Char) : SearchIter := ⟨a, text, a.search text true 0, false⟩

/-- Go on to the next match. After an empty match, one which is not empty is tried at the same place. -/
def next (it : SearchIter) : SearchIter :=
  match it.current with
  | none => it
  | some mat =>
    let after := mat.position + mat.length
    let rest := it.text.drop after
    if mat.length = 0 then
      match rest with
      | [] => { it with current := none }
      | x :: others =>
        match it.pattern.matchAt (x :: others) (!it.prevAvail) true with
        | some d => { it with current := some (.upTo after (x :: others) d) }
        | none => { it with current := it.pattern.search others false (after + 1), prevAvail := true }
    else { it with current := it.pattern.search rest false after, prevAvail := true }

variable {it : SearchIter} {mat : Match}

@[simp] theorem next_pattern (it : SearchIter) : it.next.pattern = it.pattern := by
  rw [next]
  split
  · rfl
  · dsimp only
    split
    · split
      · rfl
      · split <;> rfl
    · rfl

@[simp] theorem next_text (it : SearchIter) : it.next.text = it.text := by
  rw [next]
  split
  · rfl
  · dsimp only
    split
    · split
      · rfl
      · split <;> rfl
    · rfl

theorem next_of_length_ne (hcurrent : it.current = some mat) (hlength : mat.length ≠ 0) :
    it.next = { it with
      current := it.pattern.search (it.text.drop (mat.position + mat.length)) false
        (mat.position + mat.length),
      prevAvail := true } := by
  rw [next, hcurrent]
  dsimp only
  rw [if_neg hlength]

theorem next_of_length_zero_nil (hcurrent : it.current = some mat) (hlength : mat.length = 0)
    (hrest : it.text.drop (mat.position + mat.length) = []) : it.next = { it with current := none } := by
  rw [next, hcurrent]
  dsimp only
  rw [if_pos hlength, hrest]

theorem next_of_length_zero {x : Char} (hcurrent : it.current = some mat)
    (hlength : mat.length = 0) (hrest : it.text.drop (mat.position + mat.length) = x :: rest) :
    it.next =
      match it.pattern.matchAt (x :: rest) (!it.prevAvail) true with
      | some d => { it with current := some (.upTo (mat.position + mat.length) (x :: rest) d) }
      | none => { it with
          current := it.pattern.search rest false (mat.position + mat.length + 1), prevAvail := true } := by
  rw [next, hcurrent]
  dsimp only
  rw [if_pos hlength, hrest]

end SearchIter

end Pattern

end Lumiera
