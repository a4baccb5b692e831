import Lumiera.Base.Pattern

/-! # The ways through a pattern

What a pattern matches, without regard to the order in which alternatives are tried: there is a match
whenever there is a way through the pattern, and the match found is one of these ways. Thus a search
finds the first place from which there is a way. -/

namespace Lumiera

open List

universe u

namespace Pattern

/-- **A way through the pattern**, from one place in the text to another. -/
def Ways : Pattern → Cursor → Cursor → Prop
  | start, c, d => c.atStart = true ∧ d = c
  | one p, c, d => ∃ x rest, c.rest = x :: rest ∧ p x = true ∧ d = c.moved rest
  | many p, c, d => ∃ taken, c.rest = taken ++ d.rest ∧ (∀ x ∈ taken, p x = true) ∧
      d.groups = c.groups ∧ d.atStart = (c.atStart && taken.isEmpty)
  | seq a b, c, d => ∃ e, a.Ways c e ∧ b.Ways e d
  | alt a b, c, d => a.Ways c d ∨ b.Ways c d
  | group n a, c, d => ∃ e, a.Ways c e ∧ d = e.capture n (c.rest.take (c.rest.length - e.rest.length))

variable {α : Type u} {a : Pattern} {p : Char → Bool} {k : Cursor → Option α}

/-! ## Matching -/

variable {atStart : Bool}

theorem ways_of_runMany {groups : Groups} {rest : List Char} {r : α} (h : runMany p groups k rest atStart = some r) :
    ∃ d, (many p).Ways ⟨rest, atStart, groups⟩ d ∧ k d = some r := by
  induction rest generalizing atStart with
  | nil =>
    refine ⟨⟨[], atStart, groups⟩, ⟨[], rfl, fun x hx => absurd hx not_mem_nil, rfl, ?_⟩, h⟩
    exact (Bool.and_true _).symm
  | cons x rest ih =>
    have hnone : (many p).Ways ⟨x :: rest, atStart, groups⟩ ⟨x :: rest, atStart, groups⟩ :=
      ⟨[], rfl, fun x hx => absurd hx not_mem_nil, rfl, (Bool.and_true _).symm⟩
    rw [runMany] at h
    split at h
    · rename_i hx
      rw [Option.or_eq_some_iff] at h
      obtain h | ⟨-, h⟩ := h
      · obtain ⟨d, ⟨taken, hsplit, htaken, hgroups, hstart⟩, hk⟩ := ih h
        refine ⟨d, ⟨x :: taken, congrArg (x :: ·) hsplit, ?_, hgroups, ?_⟩, hk⟩
        · rintro y (_ | ⟨_, hy⟩)
          · exact hx
          · exact htaken y hy
        · rw [hstart]
          exact (Bool.and_false _).symm
      · exact ⟨_, hnone, h⟩
    · exact ⟨_, hnone, h⟩

/-- What is found is a way through the pattern. -/
theorem ways_of_run {c : Cursor} {r : α} (h : run a c k = some r) : ∃ d, a.Ways c d ∧ k d = some r := by
  induction a generalizing c k with
  | start =>
    rw [run_start] at h
    split at h
    · rename_i hstart
      exact ⟨c, ⟨hstart, rfl⟩, h⟩
    · cases h
  | one p =>
    rw [run] at h
    split at h
    · cases h
    · rename_i x rest hrest
      split at h
      · rename_i hx
        exact ⟨_, ⟨x, rest, hrest, hx, rfl⟩, h⟩
      · cases h
  | many p => exact ways_of_runMany h
  | seq a b iha ihb =>
    obtain ⟨e, he, h⟩ := iha h
    obtain ⟨d, hd, h⟩ := ihb h
    exact ⟨d, ⟨e, he, hd⟩, h⟩
  | alt a b iha ihb =>
    rw [run_alt, Option.or_eq_some_iff] at h
    obtain h | ⟨-, h⟩ := h
    · obtain ⟨d, hd, h⟩ := iha h
      exact ⟨d, Or.inl hd, h⟩
    · obtain ⟨d, hd, h⟩ := ihb h
      exact ⟨d, Or.inr hd, h⟩
  | group n a ih =>
    obtain ⟨e, he, h⟩ := ih h
    exact ⟨_, ⟨e, he, rfl⟩, h⟩

theorem runMany_isSome {groups : Groups} {taken rest : List Char} (htaken : ∀ x ∈ taken, p x = true)
    (h : (k ⟨rest, atStart && taken.isEmpty, groups⟩).isSome = true) :
    (runMany p groups k (taken ++ rest) atStart).isSome = true := by
  induction taken generalizing atStart with
  | nil =>
    rw [isEmpty_nil, Bool.and_true] at h
    rw [nil_append]
    cases rest with
    | nil => exact h
    | cons x rest =>
      rw [runMany]
      split
      · rw [Option.isSome_or, h, Bool.or_true]
      · exact h
  | cons x taken ih =>
    rw [forall_mem_cons] at htaken
    rw [cons_append, runMany, if_pos htaken.1, Option.isSome_or, ih htaken.2, Bool.true_or]
    rwa [isEmpty_cons, Bool.and_false] at h

variable {d : Cursor}

/-- There is a match whenever there is a way which leads further. -/
theorem run_isSome {c : Cursor} (hway : a.Ways c d) (h : (k d).isSome = true) : (run a c k).isSome = true := by
  induction a generalizing c d k with
  | start =>
    obtain ⟨hstart, rfl⟩ := hway
    rwa [run_start, if_pos hstart]
  | one p =>
    obtain ⟨x, rest, hrest, hx, rfl⟩ := hway
    rwa [run_one_cons hrest, if_pos hx]
  | many p =>
    obtain ⟨taken, hsplit, htaken, hgroups, hstart⟩ := hway
    obtain ⟨rest, atStart, groups⟩ := d
    dsimp only at hsplit hgroups hstart
    rw [hgroups, hstart] at h
    rw [run, hsplit]
    exact runMany_isSome htaken h
  | seq a b iha ihb =>
    obtain ⟨e, he, hd⟩ := hway
    exact iha he (ihb hd h)
  | alt a b iha ihb =>
    rw [run_alt, Option.isSome_or, Bool.or_eq_true]
    exact hway.imp (fun hway => iha hway h) fun hway => ihb hway h
  | group n a ih =>
    obtain ⟨e, he, rfl⟩ := hway
    exact ih he h

variable {text : List Char}

theorem ways_of_matchAt (h : a.matchAt text atStart false = some d) : a.Ways ⟨text, atStart, fun _ => none⟩ d := by
  obtain ⟨e, he, heq⟩ := ways_of_run h
  cases heq
  exact he

theorem not_ways_of_matchAt (h : a.matchAt text atStart false = none) (d : Cursor) :
    ¬ a.Ways ⟨text, atStart, fun _ => none⟩ d := by
  intro hway
  have hfound := run_isSome (k := fun d => if false && d.rest.length == text.length then none else some d)
    hway rfl
  rw [matchAt] at h
  rw [h] at hfound
  cases hfound

/-! ## Searching -/

/-- There is a way through the pattern at this place of the text. -/
def WaysAt (a : Pattern) (text : List Char) (atStart : Bool) (n : ℕ) (d : Cursor) : Prop :=
  a.Ways ⟨text.drop n, atStart && n == 0, fun _ => none⟩ d

theorem waysAt_zero : a.WaysAt text atStart 0 d ↔ a.Ways ⟨text, atStart, fun _ => none⟩ d := by
  have hstart : (atStart && (0 : ℕ) == 0) = atStart := Bool.and_true atStart
  rw [WaysAt, drop_zero, hstart]

theorem waysAt_succ {x : Char} {n : ℕ} : a.WaysAt (x :: text) atStart (n + 1) d ↔ a.WaysAt text false n d := by
  have hstart : (atStart && n + 1 == 0) = (false && n == 0) := by simp
  rw [WaysAt, WaysAt, drop_succ_cons, hstart]

/-- A search finds the first place with a way through the pattern. -/
theorem search_eq_some {position : ℕ} {mat : Match}
    (h : a.search text atStart position = some mat) :
    ∃ n d, a.WaysAt text atStart n d ∧ mat = .upTo (position + n) (text.drop n) d ∧
      ∀ m < n, ∀ e, ¬ a.WaysAt text atStart m e := by
  induction text generalizing atStart position with
  | nil =>
    obtain ⟨d, hd, rfl⟩ := Option.map_eq_some_iff.mp h
    exact ⟨0, d, waysAt_zero.mpr (ways_of_matchAt hd), rfl, fun m hm => absurd hm (Nat.not_lt_zero m)⟩
  | cons x text ih =>
    cases hmatch : a.matchAt (x :: text) atStart false with
    | some d =>
      rw [search_of_matchAt hmatch] at h
      cases h
      exact ⟨0, d, waysAt_zero.mpr (ways_of_matchAt hmatch), rfl, fun m hm => absurd hm (Nat.not_lt_zero m)⟩
    | none =>
      rw [search_of_matchAt_none hmatch] at h
      obtain ⟨n, d, hd, rfl, hfirst⟩ := ih h
      refine ⟨n + 1, d, waysAt_succ.mpr hd, ?_, fun m hm e he => ?_⟩
      · rw [Nat.add_assoc, Nat.add_comm 1 n, drop_succ_cons]
      · cases m with
        | zero => exact not_ways_of_matchAt hmatch e (waysAt_zero.mp he)
        | succ m => exact hfirst m (Nat.lt_of_succ_lt_succ hm) e (waysAt_succ.mp he)

/-- A search fails when there is no way through the pattern at any place. -/
theorem search_eq_none {position : ℕ} (h : a.search text atStart position = none) {n : ℕ}
    (hn : n ≤ text.length) (d : Cursor) : ¬ a.WaysAt text atStart n d := by
  induction text generalizing atStart position n with
  | nil =>
    obtain rfl : n = 0 := Nat.le_zero.mp hn
    rw [waysAt_zero]
    exact not_ways_of_matchAt (Option.map_eq_none_iff.mp h) d
  | cons x text ih =>
    rw [search, Option.or_eq_none_iff] at h
    cases n with
    | zero =>
      rw [waysAt_zero]
      exact not_ways_of_matchAt (Option.map_eq_none_iff.mp h.1) d
    | succ n =>
      rw [waysAt_succ]
      exact ih h.2 (Nat.le_of_succ_le_succ hn)

/-! ## Tokens within a text

A token may be searched for in such a way that certain characters must not stand in front of it. When
each token begins with such a character itself, the first match of the pattern is the first token. -/

/-- `(?:^|[^…])`: the start of the text, or a character which is not in the class. -/
def leadIn (stops : Char → Bool) : Pattern := alt start (one fun c => !stops c)

/-- A token can begin at this place of the text. -/
def Stands (stops : Char → Bool) (text : List Char) (n : ℕ) : Prop :=
  n = 0 ∨ ∃ x, text[n - 1]? = some x ∧ stops x = false

/-- **The first token** in a text, and what it stands for. -/
def Leftmost {σ : Type u} (stops : Char → Bool) (Form : List Char → σ → Prop) (text : List Char) (v : σ) : Prop :=
  ∃ n token rest, text.drop n = token ++ rest ∧ Stands stops text n ∧ Form token v ∧
    ∀ m < n, ∀ token' rest' v', text.drop m = token' ++ rest' → Stands stops text m → ¬ Form token' v'

/-- A token is not read in two ways. -/
def Deterministic {σ : Type u} (Form : List Char → σ → Prop) : Prop :=
  ∀ {token rest token' rest' v v'}, token ++ rest = token' ++ rest' → Form token v → Form token' v' → v = v'

theorem Leftmost.unique {σ : Type u} {stops : Char → Bool} {Form : List Char → σ → Prop} {v v' : σ}
    (hform : Deterministic Form) (h : Leftmost stops Form text v) (h' : Leftmost stops Form text v') : v = v' := by
  obtain ⟨n, token, rest, hsplit, hstands, htoken, hfirst⟩ := h
  obtain ⟨n', token', rest', hsplit', hstands', htoken', hfirst'⟩ := h'
  rcases lt_trichotomy n n' with hlt | rfl | hlt
  · exact absurd htoken (hfirst' n hlt token rest v hsplit hstands)
  · exact hform (hsplit.symm.trans hsplit') htoken htoken'
  · exact absurd htoken' (hfirst n' hlt token' rest' v' hsplit' hstands')

/-- **The pattern of a token**: its ways are just the tokens of this form, the groups tell what the
token stands for, and it begins with a character of the class. -/
structure Token {σ : Type u} (a : Pattern) (stops : Char → Bool) (Form : List Char → σ → Prop)
    (Carries : Groups → σ → Prop) : Prop where
  sound : ∀ {c d}, a.Ways c d → c.groups = (fun _ => none) →
    ∃ token v, c.rest = token ++ d.rest ∧ Form token v ∧ Carries d.groups v
  complete : ∀ {token v}, Form token v → ∀ {c : Cursor} {rest}, c.rest = token ++ rest → ∃ d, a.Ways c d
  begins : ∀ {token v}, Form token v → ∃ x ∈ token.head?, stops x = true

section Token

variable {σ : Type u} {stops : Char → Bool} {Form : List Char → σ → Prop} {Carries : Groups → σ → Prop}
  {text : List Char}

theorem stands_of_leadIn {n : ℕ} {e : Cursor}
    (h : (leadIn stops).Ways ⟨text.drop n, true && n == 0, fun _ => none⟩ e) :
    ∃ q, (q = 0 ∧ n = 0 ∨ q = n + 1 ∧ ∃ x ∈ text[n]?, stops x = false) ∧ Stands stops text q ∧
      e.rest = text.drop q ∧ e.groups = fun _ => none := by
  obtain ⟨hstart, rfl⟩ | ⟨x, rest, hrest, hx, rfl⟩ := h
  · obtain rfl : n = 0 := by simpa using hstart
    exact ⟨0, Or.inl ⟨rfl, rfl⟩, Or.inl rfl, rfl, rfl⟩
  · dsimp only at hrest
    have hget : text[n]? = some x := by
      rw [← head?_drop, hrest]
      rfl
    have hstops : stops x = false := by simpa using hx
    refine ⟨n + 1, Or.inr ⟨rfl, x, hget, hstops⟩, Or.inr ⟨x, hget, hstops⟩, ?_, rfl⟩
    rw [← tail_drop, hrest]
    rfl

theorem exists_leadIn {q : ℕ} (h : Stands stops text q) : ∃ n e, n ≤ q ∧ (q = 0 ∨ n + 1 = q) ∧ n ≤ text.length ∧
    (leadIn stops).Ways ⟨text.drop n, true && n == 0, fun _ => none⟩ e ∧ e.rest = text.drop q ∧ e.groups = fun _ =>
    none := by
  obtain rfl | ⟨x, hget, hx⟩ := h
  · exact ⟨0, _, le_rfl, Or.inl rfl, Nat.zero_le _, Or.inl ⟨rfl, rfl⟩, rfl, rfl⟩
  · cases q with
    | zero => exact ⟨0, _, le_rfl, Or.inl rfl, Nat.zero_le _, Or.inl ⟨rfl, rfl⟩, rfl, rfl⟩
    | succ n =>
      rw [Nat.add_sub_cancel] at hget
      obtain ⟨hlt, hx'⟩ := List.getElem?_eq_some_iff.mp hget
      have hdrop : text.drop n = x :: text.drop (n + 1) := by
        rw [drop_eq_getElem_cons hlt, hx']
      refine ⟨n, _, Nat.le_succ n, Or.inr rfl, hlt.le,
        Or.inr ⟨x, _, hdrop, Bool.not_eq_true' _ ▸ hx, rfl⟩, rfl, rfl⟩

theorem Token.waysAt (ht : Token a stops Form Carries) {q : ℕ} {token rest : List Char} {v : σ}
    (hstands : Stands stops text q) (hsplit : text.drop q = token ++ rest) (hform : Form token v) :
    ∃ n d, (q = 0 ∧ n = 0 ∨ n + 1 = q) ∧ n ≤ text.length ∧ (seq (leadIn stops) a).WaysAt text true n d := by
  obtain ⟨n, e, hle, hn, hlength, hlead, hrest, -⟩ := exists_leadIn hstands
  obtain ⟨d, hd⟩ := ht.complete hform (hrest.trans hsplit)
  exact ⟨n, d, by omega, hlength, e, hlead, hd⟩

/-- The match found is the first token, and the groups tell what it stands for. -/
theorem Token.leftmost_of_search (ht : Token a stops Form Carries) {mat : Match}
    (h : (seq (leadIn stops) a).search text true 0 = some mat) :
    ∃ v, Leftmost stops Form text v ∧ Carries mat.groups v := by
  obtain ⟨n, d, ⟨e, hlead, hway⟩, rfl, hfirst⟩ := search_eq_some h
  obtain ⟨q, hq, hstands, hrest, hgroups⟩ := stands_of_leadIn hlead
  obtain ⟨token, v, hsplit, hform, hcarries⟩ := ht.sound hway hgroups
  refine ⟨v, ⟨q, token, d.rest, hrest.symm.trans hsplit, hstands, hform, ?_⟩, hcarries⟩
  intro m hm token' rest' v' hsplit' hstands' hform'
  obtain ⟨n', d', hn', -, hway'⟩ := ht.waysAt hstands' hsplit' hform'
  have hle : n ≤ n' := by
    by_contra hlt
    exact hfirst n' (Nat.lt_of_not_le hlt) d' hway'
  -- a token at the start of the text begins with a character which can not stand before another one
  obtain ⟨rfl, rfl⟩ : m = 0 ∧ n = 0 := by omega
  obtain ⟨x, hhead, hx⟩ := ht.begins hform'
  rcases hq with ⟨rfl, -⟩ | ⟨rfl, y, hy, hstops⟩
  · exact absurd hm (Nat.lt_irrefl 0)
  · have hfirstChar : text[0]? = some x := by
      rw [← head?_drop, hsplit', head?_append, hhead]
      rfl
    rw [hfirstChar] at hy
    cases hy
    rw [hx] at hstops
    cases hstops

/-- No match is found when there is no token. -/
theorem Token.not_leftmost_of_search (ht : Token a stops Form Carries)
    (h : (seq (leadIn stops) a).search text true 0 = none) (v : σ) : ¬ Leftmost stops Form text v := by
  rintro ⟨q, token, rest, hsplit, hstands, hform, -⟩
  obtain ⟨n, d, -, hlength, hway⟩ := ht.waysAt hstands hsplit hform
  exact search_eq_none h hlength d hway

end Token

end Pattern

end Lumiera
