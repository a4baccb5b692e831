import Lumiera.Lib.Parse

/-! # Repetition of alternatives (`lib/parse.hpp`)

A common form of syntax is the repetition of some alternatives, where the first one is a run of
plain characters, and each other one begins with a character which is not plain. Whitespace is
skipped ahead of each alternative, yet it is also part of the run of plain characters; so it belongs
to the text accepted, unless nothing follows behind it. -/

namespace Lumiera.Lib.Parse

open List

/-- **A text composed of runs of plain characters and of special parts**, each of them maybe behind
whitespace. -/
inductive Chunks (plain : Char → Bool) (Special : StrView → Prop) : StrView → Prop
  | nil : Chunks plain Special []
  | run {ws run rest : StrView} {c : Char} : isBlank ws = true → plain c = true → isSpace c = false →
      (∀ x ∈ run, plain x = true) → Chunks plain Special rest → Chunks plain Special
      (ws ++ (c :: run ++ rest))
  | special {ws part rest : StrView} : isBlank ws = true → Special part → Chunks plain Special rest →
      Chunks plain Special (ws ++ (part ++ rest))

/-- Whitespace is plain, and special parts begin with a character which is not. -/
structure Separated (plain : Char → Bool) (Special : StrView → Prop) : Prop where
  space : ∀ {c : Char}, isSpace c = true → plain c = true
  special : ∀ {part : StrView}, Special part → ∃ c rest, part = c :: rest ∧ plain c = false

/-- The parse function accepts this number of characters. -/
def AcceptsAt {A : Type} (con : Connex A) (text : StrView) (n : ℕ) : Prop :=
    ∃ model, con.parse text = some (.result model n)

/-- The parse function does not accept the text. -/
def Rejects {A : Type} (con : Connex A) (text : StrView) : Prop := con.parse text = some .nullopt

/-- The alternatives accept a run of plain characters and the special parts, up to some length. -/
structure Accepts {B : Type} (body : Connex B) (plain : Char → Bool) (Special : StrView → Prop)
    (limit : ℕ) : Prop where
  run : ∀ {ws rest : StrView} {c : Char}, isBlank ws = true → plain c = true → isSpace c = false →
    (ws ++ c :: rest).length < 2 ^ 32 → AcceptsAt body (ws ++ c :: rest)
    ((ws ++ c :: rest).takeWhile plain).length
  special : ∀ {ws part rest : StrView}, isBlank ws = true → Special part → part.length ≤ limit →
    (ws ++ (part ++ rest)).length < 2 ^ 32 → AcceptsAt body (ws ++ (part ++ rest)) (ws.length + part.length)

section Blank

variable {ws rest : StrView}

theorem leadingWhitespace_append (hws : isBlank ws = true) (hrest : ∀ c ∈ rest.head?, isSpace c = false) :
    leadingWhitespace (ws ++ rest) = ws.length := by
  have hnone : rest.takeWhile isSpace = [] := by
    cases rest with
    | nil => rfl
    | cons c rest => exact takeWhile_cons_of_neg (by rw [hrest c rfl]; decide)
  rw [isBlank, all_eq_true] at hws
  rw [leadingWhitespace, takeWhile_append_of_pos hws, hnone, append_nil]

theorem exists_blank (text : StrView) :
    ∃ ws rest, text = ws ++ rest ∧ isBlank ws = true ∧ ∀ c ∈ rest.head?, isSpace c = false := by
  refine ⟨text.takeWhile isSpace, text.dropWhile isSpace, takeWhile_append_dropWhile.symm, ?_, ?_⟩
  · rw [isBlank, all_eq_true]
    exact fun c hc => mem_takeWhile_imp hc
  · intro c hc
    have h := head?_dropWhile_not isSpace text
    rw [hc] at h
    simpa using h

/-- A terminal symbol is looked for behind the whitespace. -/
theorem termConnex_append (regEx : Regex) (hws : isBlank ws = true)
    (hrest : ∀ c ∈ rest.head?, isSpace c = false) :
    (termConnex regEx).parse (ws ++ rest) =
      some ((regEx.matchAtStart rest).elim .nullopt fun mat => .result mat (ws.length + mat.length)) := by
  unfold termConnex
  dsimp only
  rw [leadingWhitespace_append hws hrest, drop_left]
  cases regEx.matchAtStart rest <;> rfl

end Blank

variable {text : StrView} {max : ℕ}

section Loop

variable {B : Type} {body : Connex B} {plain : Char → Bool} {Special : StrView → Prop} {limit : ℕ}

theorem repeatRound_null (within : Bool) (hlt : text.length < 2 ^ 32) :
    repeatRound nullConnex body within text = (body.parse text).map fun eval => eval := by
  have hdelim : repeatDelim nullConnex within text = some (.result () 0) := by
    cases within <;> rfl
  rw [repeatRound, hdelim, Option.bind_some]
  dsimp only
  rw [drop_zero]
  cases hparse : body.parse text with
  | none => rfl
  | some eval =>
    cases eval with
    | nullopt => rfl
    | result model consumed =>
      have hle : consumed ≤ text.length := body.consumed_le hparse
      rw [Option.map_some, Option.map_some, Eval.map, Nat.zero_add, uint_of_lt (by omega)]

theorem drop_length_takeWhile (p : Char → Bool) (text : StrView) :
    text.drop (text.takeWhile p).length = text.dropWhile p := by
  calc text.drop (text.takeWhile p).length
      = (text.takeWhile p ++ text.dropWhile p).drop (text.takeWhile p).length := by
        rw [takeWhile_append_dropWhile]
    _ = text.dropWhile p := drop_left

section Separated

variable (hsep : Separated plain Special)

include hsep

theorem Separated.plain_of_blank {ws : StrView} (hws : isBlank ws = true) :
    ∀ c ∈ ws, plain c = true :=
  fun c hc => hsep.space (all_eq_true.mp hws c hc)

theorem Separated.dropWhile_run {ws run rest : StrView} {c : Char}
    (hws : isBlank ws = true) (hc : plain c = true) (hrun : ∀ x ∈ run, plain x = true) :
    (ws ++ (c :: run ++ rest)).dropWhile plain = rest.dropWhile plain := by
  have hall : ∀ x ∈ ws ++ c :: run, plain x = true := by
    intro x hx
    rcases mem_append.mp hx with hx | hx
    · exact hsep.plain_of_blank hws x hx
    · rcases mem_cons.mp hx with rfl | hx
      · exact hc
      · exact hrun x hx
  have hsplit : ws ++ (c :: run ++ rest) = (ws ++ c :: run) ++ rest := by
    rw [append_assoc]
  rw [hsplit, dropWhile_append_of_pos hall]

/-- What follows behind a run of plain characters. -/
theorem Chunks.dropWhile {ws rest : StrView}
    (h : Chunks plain Special text)
    (hws : isBlank ws = true) (hrest : ∀ c ∈ rest.head?, plain c = false) :
    ∃ text' ws', (text ++ (ws ++ rest)).dropWhile plain = text' ++ (ws' ++ rest) ∧
      Chunks plain Special text' ∧
      isBlank ws' = true ∧ ws'.length ≤ ws.length ∧ text'.length ≤ text.length := by
  induction h with
  | nil =>
    refine ⟨[], [], ?_, .nil, rfl, Nat.zero_le _, le_rfl⟩
    rw [nil_append, dropWhile_append_of_pos (hsep.plain_of_blank hws), nil_append,
      nil_append]
    cases rest with
    | nil => rfl
    | cons c rest => exact dropWhile_cons_of_neg (by rw [hrest c rfl]; decide)
  | @run ws₁ run rest₁ c hws₁ hc hspace hrun htext ih =>
    obtain ⟨text', ws', heq, htext', hws', hle, hle'⟩ := ih
    refine ⟨text', ws', ?_, htext', hws', hle, ?_⟩
    · rw [append_assoc, append_assoc, hsep.dropWhile_run hws₁ hc hrun, heq]
    · simp only [length_append]
      omega
  | @special ws₁ part rest₁ hws₁ hpart htext ih =>
    have hspecial : Chunks plain Special ([] ++ (part ++ rest₁)) := .special rfl hpart htext
    obtain ⟨c, cs, rfl, hc⟩ := hsep.special hpart
    refine ⟨c :: cs ++ rest₁, ws, ?_, hspecial, hws, le_rfl, ?_⟩
    · rw [append_assoc, dropWhile_append_of_pos (hsep.plain_of_blank hws₁), cons_append,
        cons_append, dropWhile_cons_of_neg (by rw [hc]; decide)]
    · simp only [length_append]
      omega

/-- The repetition accepts the complete text, up to whitespace in front of the end. -/
theorem repeatLoop_chunks (hbody : Accepts body plain Special limit)
    {ws rest : StrView} (htext : Chunks plain Special text) (hlimit : text.length ≤ limit) (hws : isBlank ws = true)
    (hrest : ∀ c ∈ rest.head?, plain c = false) (hstop : ∀ ws', isBlank ws' = true → Rejects body (ws' ++ rest))
    (hlt : (text ++ (ws ++ rest)).length < 2 ^ 32) {rounds : ℕ} (hrounds : text.length < rounds) (within : Bool) :
    ∃ results n ws', repeatLoop nullConnex body rounds within (text ++ (ws ++ rest)) = some (results, n) ∧
    isBlank ws' = true ∧ ws'.length ≤ ws.length ∧ n + ws'.length = text.length + ws.length ∧
    (text ++ (ws ++ rest)).drop n = ws' ++ rest ∧ (results = [] ↔ text = []) := by
  induction hsize : text.length using Nat.strong_induction_on generalizing text ws rounds within with
  | _ size ih =>
    subst hsize
    obtain ⟨rounds, rfl⟩ : ∃ k, rounds = k + 1 := Nat.exists_eq_add_one.mpr (by omega)
    -- one round, and what follows behind it
    have hnext : ∀ {model : B} {n : ℕ} {text' ws' : StrView},
        body.parse (text ++ (ws ++ rest)) = some (.result model n) →
        (text ++ (ws ++ rest)).drop n = text' ++ (ws' ++ rest) → Chunks plain Special text' →
        isBlank ws' = true → ws'.length ≤ ws.length → text'.length < text.length → text ≠ [] →
        ∃ results n ws', repeatLoop nullConnex body (rounds + 1) within (text ++ (ws ++ rest)) =
          some (results, n) ∧ isBlank ws' = true ∧ ws'.length ≤ ws.length ∧
          n + ws'.length = text.length + ws.length ∧ (text ++ (ws ++ rest)).drop n = ws' ++ rest ∧
          (results = [] ↔ text = []) := by
      intro model n text' ws' hparse hdrop htext' hws' hle hless hne
      have hn : n ≤ (text ++ (ws ++ rest)).length := body.consumed_le hparse
      have hlength := congrArg List.length hdrop
      rw [length_drop] at hlength
      simp only [length_append] at hlength hn hlt
      obtain ⟨results, n', ws'', hloop, hws'', hle'', hsum, hdrop'', -⟩ :=
          ih text'.length hless htext' (by omega)
        hws'
        (by simp only [length_append]; omega) (show text'.length < rounds by omega) true rfl
      refine ⟨model :: results, n + n', ws'', ?_, hws'', hle''.trans hle, by omega, ?_, ?_⟩
      · rw [repeatLoop, repeatRound_null within (by simp only [length_append]; omega),
          hparse, Option.map_some,
          Option.bind_some]
        dsimp only
        rw [hdrop, hloop]
        rfl
      · rw [← drop_drop, hdrop, hdrop'']
      · exact iff_of_false (cons_ne_nil _ _) hne
    cases htext with
    | nil =>
      refine ⟨[], 0, ws, ?_, hws, le_rfl, rfl, rfl, iff_of_true rfl rfl⟩
      rw [nil_append] at hlt ⊢
      rw [repeatLoop, repeatRound_null within hlt, (hstop ws hws : _ = _)]
      rfl
    | @run ws₁ run rest₁ c hws₁ hc hspace hrun htext' =>
      obtain ⟨text', ws', heq, hchunks, hws', hle, hle'⟩ := htext'.dropWhile hsep hws hrest
      have hsplit : ws₁ ++ (c :: run ++ rest₁) ++ (ws ++ rest) = ws₁ ++ c ::
          (run ++ (rest₁ ++ (ws ++ rest))) := by
        simp only [append_assoc, cons_append]
      obtain ⟨model, hparse⟩ := hbody.run hws₁ hc hspace (hsplit ▸ hlt)
      rw [← hsplit] at hparse
      refine hnext hparse ?_ hchunks hws' hle ?_ (by simp)
      · rw [drop_length_takeWhile, append_assoc, append_assoc,
          hsep.dropWhile_run hws₁ hc hrun, heq]
      · simp only [length_append, length_cons]
        omega
    | @special ws₁ part rest₁ hws₁ hpart htext' =>
      have hsplit : ws₁ ++ (part ++ rest₁) ++ (ws ++ rest) = ws₁ ++
          (part ++ (rest₁ ++ (ws ++ rest))) := by
        simp only [append_assoc]
      have hne := hsep.special hpart
      simp only [length_append] at hlimit
      obtain ⟨model, hparse⟩ := hbody.special hws₁ hpart (by omega) (hsplit ▸ hlt)
      rw [← hsplit] at hparse
      obtain ⟨c, cs, rfl, -⟩ := hne
      refine hnext hparse ?_ htext' hws le_rfl ?_ (by simp)
      · rw [hsplit, ← append_assoc, ← length_append, drop_left]
      · simp only [length_append, length_cons]
        omega

theorem repeatedConnex_chunks (hbody : Accepts body plain Special limit)
    {ws rest : StrView} (htext : Chunks plain Special text) (hne : text ≠ [])
    (hlimit : text.length ≤ limit)
    (hws : isBlank ws = true) (hrest : ∀ c ∈ rest.head?, plain c = false)
    (hstop : ∀ ws', isBlank ws' = true → Rejects body (ws' ++ rest))
    (hlt : (text ++ (ws ++ rest)).length < 2 ^ 32) (hmax : text.length < max) :
    ∃ n ws', AcceptsAt (repeatedConnex 1 max nullConnex body) (text ++ (ws ++ rest)) n ∧
      isBlank ws' = true ∧ ws'.length ≤ ws.length ∧ n + ws'.length = text.length + ws.length ∧
      (text ++ (ws ++ rest)).drop n = ws' ++ rest := by
  have hrounds : Nat.max 1 max = max := Nat.max_eq_right (by omega)
  obtain ⟨results, n, ws', hloop, hws', hle, hsum, hdrop, hempty⟩ :=
    repeatLoop_chunks hsep hbody htext hlimit hws hrest hstop hlt hmax false
  refine ⟨n, ws', ⟨results, ?_⟩, hws', hle, hsum, hdrop⟩
  have hresults : results.length ≥ 1 := length_pos_iff.mpr fun h => hne (hempty.mp h)
  rw [repeatedConnex]
  dsimp only
  rw [hrounds, hloop, Option.map_some]
  rw [if_pos hresults]

end Separated

theorem Rejects.repeated (h : Rejects body text) (hlt : text.length < 2 ^ 32) (max : ℕ) :
    Rejects (repeatedConnex 1 max nullConnex body) text := by
  obtain ⟨rounds, hrounds⟩ : ∃ k, Nat.max 1 max = k + 1 := Nat.exists_eq_add_one.mpr (Nat.le_max_left 1 max)
  have hloop : repeatLoop nullConnex body (rounds + 1) false text = some ([], 0) := by
    rw [repeatLoop, repeatRound_null false hlt, (h : _ = _)]
    rfl
  unfold Rejects
  rw [repeatedConnex]
  dsimp only
  rw [hrounds, hloop]
  rfl

end Loop

/-! ## Alternatives and brackets -/

variable {body : Connex C} {opening : Connex A} {closing : Connex B} {regEx : Regex}

section Alternatives

variable {A B C : Type} {ws text rest : StrView} {c : Char} {n : ℕ}

variable {f : StrView → A → ℕ → B}

theorem AcceptsAt.map {con : Connex A} (h : AcceptsAt con text n) : AcceptsAt (con.map f) text n := by
  obtain ⟨model, hparse⟩ := h
  exact ⟨_, Option.map_eq_some_iff.mpr ⟨_, hparse, rfl⟩⟩

theorem Rejects.map {con : Connex A} (h : Rejects con text) : Rejects (con.map f) text :=
  Option.map_eq_some_iff.mpr ⟨_, h, rfl⟩

variable {conL : Connex A} {conR : Connex B}

theorem AcceptsAt.branched_left (h : AcceptsAt conL text n) (hlt : text.length < 2 ^ 32) :
    AcceptsAt (branchedConnex conL conR) text n := by
  obtain ⟨model, hparse⟩ := h
  have hle : n ≤ text.length := conL.consumed_le hparse
  refine ⟨.inl model, ?_⟩
  rw [branchedConnex]
  dsimp only
  rw [hparse, Option.bind_some]
  dsimp only
  rw [uint_of_lt (by omega)]

theorem AcceptsAt.branched_right (hleft : Rejects conL text) (h : AcceptsAt conR text n)
    (hlt : text.length < 2 ^ 32) : AcceptsAt (branchedConnex conL conR) text n := by
  obtain ⟨model, hparse⟩ := h
  have hle : n ≤ text.length := conR.consumed_le hparse
  refine ⟨.inr model, ?_⟩
  rw [branchedConnex]
  dsimp only
  rw [hleft, Option.bind_some]
  rw [hparse, Option.map_some, Eval.map, uint_of_lt (by omega)]

theorem Rejects.branched (hleft : Rejects conL text) (hright : Rejects conR text) :
    Rejects (branchedConnex conL conR) text := by
  unfold Rejects at *
  rw [branchedConnex]
  dsimp only
  rw [hleft]
  rw [hright]
  rfl

theorem acceptsAt_term {mat : SMatch} (hws : isBlank ws = true) (hc : isSpace c = false)
    (hmatch : regEx.matchAtStart (c :: rest) = some mat) :
    AcceptsAt (termConnex regEx) (ws ++ c :: rest) (ws.length + mat.length) := by
  refine ⟨mat, ?_⟩
  rw [termConnex_append regEx hws (by rintro x ⟨rfl⟩; exact hc), hmatch]
  rfl

theorem rejects_term (hws : isBlank ws = true) (hc : isSpace c = false)
    (hmatch : regEx.matchAtStart (c :: rest) = none) : Rejects (termConnex regEx) (ws ++ c :: rest) := by
  unfold Rejects
  rw [termConnex_append regEx hws (by rintro x ⟨rfl⟩; exact hc), hmatch]
  rfl

variable {p : Char → Bool}

theorem acceptsAt_char (hws : isBlank ws = true) (hc : isSpace c = false) (hp : p c = true) :
    AcceptsAt (termConnex (.char p)) (ws ++ c :: rest) (ws.length + 1) :=
  acceptsAt_term hws hc (show _ = some (⟨[[c]]⟩ : SMatch) from Option.map_eq_some_iff.mpr ⟨1, if_pos hp, rfl⟩)

theorem rejects_char (hws : isBlank ws = true) (hc : isSpace c = false) (hp : p c = false) :
    Rejects (termConnex (.char p)) (ws ++ c :: rest) :=
  rejects_term hws hc (Option.map_eq_none_iff.mpr (if_neg (by rw [hp]; decide)))

theorem acceptsAt_run (hspace : ∀ c, isSpace c = true → p c = true) (hws : isBlank ws = true) (hc : isSpace c = false)
    (hp : p c = true) : AcceptsAt (termConnex (.run p)) (ws ++ c :: rest) ((ws ++ c :: rest).takeWhile p).length := by
  have hne : (c :: rest).takeWhile p ≠ [] := by
    rw [takeWhile_cons_of_pos hp]
    exact cons_ne_nil _ _
  have hmatch : (Regex.run p).matchAtStart (c :: rest) = some ⟨[(c :: rest).takeWhile p]⟩ := by
    refine Option.map_eq_some_iff.mpr ⟨((c :: rest).takeWhile p).length, if_neg hne, ?_⟩
    rw [← prefix_iff_eq_take.mp ( takeWhile_prefix p)]
  have hplain : ∀ x ∈ ws, p x = true := fun x hx => hspace x (all_eq_true.mp hws x hx)
  have h := acceptsAt_term hws hc hmatch
  rwa [SMatch.length, SMatch.str, getD_cons_zero, ← length_append,
    ← takeWhile_append_of_pos hplain] at h

theorem rejects_run (hws : isBlank ws = true) (hc : isSpace c = false) (hp : p c = false) :
    Rejects (termConnex (.run p)) (ws ++ c :: rest) := by
  have hnone : (c :: rest).takeWhile p = [] := takeWhile_cons_of_neg (by rw [hp]; decide)
  exact rejects_term hws hc (Option.map_eq_none_iff.mpr (if_pos hnone))

theorem AcceptsAt.bracketed {inner n' : ℕ}
    (hopen : AcceptsAt opening text n) (hbody : AcceptsAt body (text.drop n) inner)
    (hclose : AcceptsAt closing (text.drop (n + inner)) n') :
    AcceptsAt (bracketedConnex opening closing body false) text (n + inner + n') := by
  obtain ⟨m, hopen⟩ := hopen
  obtain ⟨model, hbody⟩ := hbody
  obtain ⟨m', hclose⟩ := hclose
  refine ⟨model, ?_⟩
  rw [bracketedConnex]
  dsimp only
  rw [hopen]
  simp only [Eval.isSuccess, Eval.consumed, Bool.true_or, if_true, hbody, Option.bind_some, hclose,
    Option.map_some,
    Eval.map]

theorem Rejects.bracketed (hopen : Rejects opening text) :
    Rejects (bracketedConnex opening closing body false) text := by
  unfold Rejects at *
  rw [bracketedConnex]
  dsimp only
  rw [hopen]
  rfl

/-- **Text enclosed into a pair of characters**, with something in it. -/
inductive Enclosed (ope clo : Char) (plain : Char → Bool) (Special : StrView → Prop) : StrView → Prop
  | intro {content ws : StrView} : Chunks plain Special content → content ≠ [] → isBlank ws = true →
      Enclosed ope clo plain Special (ope :: (content ++ (ws ++ [clo])))

/-- Enclosed text is accepted completely. -/
theorem acceptsAt_enclosed {plain : Char → Bool} {Special : StrView → Prop} {limit : ℕ}
    {ope clo : Char} (hsep : Separated plain Special) (hbody : Accepts body plain Special limit)
    (hope : isSpace ope = false) (hclo : plain clo = false)
    (hstop : ∀ {ws rest : StrView}, isBlank ws = true → Rejects body (ws ++ clo :: rest))
    {part : StrView} (hpart : Enclosed ope clo plain Special part) (hws : isBlank ws = true)
    (hlimit : part.length ≤ limit + 1) (hmax : part.length ≤ max)
    (hlt : (ws ++ (part ++ rest)).length < 2 ^ 32) :
    AcceptsAt (bracketedConnex (termConnex (.char (· == ope))) (termConnex (.char (· == clo)))
      (repeatedConnex 1 max nullConnex body) false) (ws ++ (part ++ rest)) (ws.length + part.length) := by
  obtain ⟨hcontent, hne, hws₁⟩ := hpart
  rename_i content ws₁
  have hspaceClo : isSpace clo = false := by
    cases hspace : isSpace clo with
    | false => rfl
    | true => rw [hsep.space hspace] at hclo; exact hclo
  have htext : ws ++ (ope :: (content ++ (ws₁ ++ [clo])) ++ rest) =
      (ws ++ [ope]) ++ (content ++ (ws₁ ++ clo :: rest)) := by
    simp only [append_assoc, cons_append, nil_append]
  have hopen : AcceptsAt (termConnex (.char (· == ope))) (ws ++ ope :: (content ++ (ws₁ ++ clo :: rest)))
      (ws.length + 1) := acceptsAt_char hws hope (beq_self_eq_true ope)
  have hbehind : ((ws ++ [ope]) ++ (content ++ (ws₁ ++ clo :: rest))).drop (ws.length + 1) =
      content ++ (ws₁ ++ clo :: rest) := by
    have hlength : (ws ++ [ope]).length = ws.length + 1 := length_append
    rw [← hlength, drop_left]
  simp only [length_append, length_cons] at hlimit hmax hlt
  have hrest : ∀ x ∈ (clo :: rest).head?, plain x = false := by
    rintro x ⟨rfl⟩
    exact hclo
  have hlt' : (content ++ (ws₁ ++ clo :: rest)).length < 2 ^ 32 := by
    simp only [length_append, length_cons]
    omega
  obtain ⟨n, ws', hinner, hws', -, hsum, hdrop⟩ := repeatedConnex_chunks hsep hbody hcontent hne (by omega)
    hws₁ hrest (fun ws' hws' => hstop hws') hlt' (show content.length < max by omega)
  have hclose : AcceptsAt (termConnex (.char (· == clo))) (ws' ++ clo :: rest) (ws'.length + 1) :=
    acceptsAt_char hws' hspaceClo (beq_self_eq_true clo)
  rw [append_cons] at hopen
  rw [← hbehind] at hinner
  rw [← hdrop, ← hbehind, drop_drop] at hclose
  have hcount : ws.length + (ope :: (content ++ (ws₁ ++ [clo]))).length = ws.length + 1 + n +
      (ws'.length + 1) := by
    simp only [length_append, length_cons, length_nil]
    omega
  rw [htext, hcount]
  exact hopen.bracketed hinner hclose

end Alternatives

/-! ## The text which was accepted -/

section Yields

variable {A B C : Type} {plain : Char → Bool} {Special : StrView → Prop} {Q Q' Q'' : StrView → Prop}

/-- **What is accepted from a text**, as a property of the part consumed. -/
def Yields (con : Connex A) (Q : StrView → Prop) : Prop :=
  ∀ (text : StrView) (model : A) (n : ℕ), text.length < 2 ^ 32 → con.parse text = some
    (.result model n) → Q (text.take n)

theorem Yields.mono {con : Connex A} (h : Yields con Q) (himp : ∀ text, Q text → Q' text) : Yields con Q' :=
  fun text model n hlt hparse => himp _ (h text model n hlt hparse)

theorem Yields.map {con : Connex A} {f : StrView → A → ℕ → B} (h : Yields con Q) : Yields (con.map f) Q := by
  intro text model n hlt hparse
  obtain ⟨m, hparse', -⟩ := Connex.map_parse_eq_result hparse
  exact h _ _ _ hlt hparse'

theorem yields_term (h : ∀ {text : StrView} {mat : SMatch},
    regEx.matchAtStart text = some mat →
    (∀ c ∈ text.head?, isSpace c = false) → Q (mat.str 0)) :
    Yields (termConnex regEx) fun text => ∃ ws part, text = ws ++ part ∧ isBlank ws = true ∧ Q part := by
  intro text mat n _ hparse
  obtain ⟨ws, rest, rfl, hws, hrest⟩ := exists_blank text
  rw [termConnex_append regEx hws hrest] at hparse
  cases hmatch : regEx.matchAtStart rest with
  | none =>
    rw [hmatch] at hparse
    cases hparse
  | some mat' =>
    rw [hmatch] at hparse
    cases hparse
    refine ⟨ws, mat.str 0, ?_, hws, h hmatch hrest⟩
    obtain ⟨rest', rfl⟩ := regEx.matched hmatch
    rw [take_append, take_of_length_le (Nat.le_add_right _ _), Nat.add_sub_cancel_left,
      SMatch.length,
      take_left]

theorem Yields.branched_of_rejects {conL : Connex A} {conR : Connex B} (hleft : Yields conL Q)
    (hright : ∀ (text : StrView) (model : B) (n : ℕ), text.length < 2 ^ 32 → Rejects conL text →
      conR.parse text = some (.result model n) → Q (text.take n)) : Yields (branchedConnex conL conR) Q := by
  intro text model n hlt hparse
  rcases branchedConnex_eq_result hparse with ⟨m, n', hparse', rfl⟩ | ⟨hnone, m, n', hparse', rfl⟩
  · have hle : n' ≤ text.length := conL.consumed_le hparse'
    rw [uint_of_lt (by omega)]
    exact hleft _ _ _ hlt hparse'
  · have hle : n' ≤ text.length := conR.consumed_le hparse'
    rw [uint_of_lt (by omega)]
    exact hright _ _ _ hlt hnone hparse'

theorem Yields.branched {conL : Connex A} {conR : Connex B} (hleft : Yields conL Q) (hright : Yields conR Q) :
    Yields (branchedConnex conL conR) Q :=
  hleft.branched_of_rejects fun text model n hlt _ hparse => hright text model n hlt hparse

theorem Yields.bracketed
    (hopen : Yields opening Q)
    (hbody : Yields body Q') (hclose : Yields closing Q'') :
    Yields (bracketedConnex opening closing body false) fun text =>
      ∃ left inner right, text = left ++ (inner ++ right) ∧ Q left ∧ Q' inner ∧ Q'' right := by
  intro text model consumed hlt hparse
  rcases bracketedConnex_eq_result hparse with ⟨m, n, inner, m', n', hleft, hinner, hright, rfl⟩ | ⟨hbad, -⟩
  · refine ⟨text.take n, (text.drop n).take inner, (text.drop (n + inner)).take n', ?_,
      hopen _ _ _ hlt hleft, hbody _ _ _ (by rw [length_drop]; omega) hinner,
      hclose _ _ _ (by rw [length_drop]; omega) hright⟩
    rw [Nat.add_assoc, take_add, take_add, drop_drop]
  · cases hbad

theorem Chunks.append {text' : StrView} (h : Chunks plain Special text) (h' : Chunks plain Special text') :
    Chunks plain Special (text ++ text') := by
  induction h with
  | nil => exact h'
  | run hws hc hspace hrun _ ih =>
    have hcons := Chunks.run hws hc hspace hrun ih
    rwa [append_assoc, append_assoc]
  | special hws hpart _ ih =>
    have hcons := Chunks.special hws hpart ih
    rwa [append_assoc, append_assoc]

theorem yields_run {p : Char → Bool} (Special : StrView → Prop) :
    Yields (termConnex (.run p)) fun text => Chunks p Special text ∧ text ≠ [] := by
  have hmatch : ∀ {text : StrView} {mat : SMatch}, (Regex.run p).matchAtStart text = some mat →
      (∀ c ∈ text.head?, isSpace c = false) →
      ∃ c run, mat.str 0 = c :: run ∧ p c = true ∧ isSpace c = false ∧ ∀ x ∈ run, p x = true := by
    intro text mat hmatch hhead
    obtain ⟨n, hn, rfl⟩ := Option.map_eq_some_iff.mp hmatch
    obtain ⟨hne, heq⟩ := Option.ite_none_left_eq_some.mp hn
    cases heq
    cases text with
    | nil => exact absurd rfl hne
    | cons c text =>
      have hc : p c = true := by
        by_contra hc
        exact hne (takeWhile_cons_of_neg hc)
      refine ⟨c, text.takeWhile p, ?_, hc, hhead c rfl, fun x hx => mem_takeWhile_imp hx⟩
      rw [SMatch.str, getD_cons_zero, ← prefix_iff_eq_take.mp ( takeWhile_prefix p),
        takeWhile_cons_of_pos hc]
  have hterm : Yields (termConnex (.run p)) fun text => ∃ ws part, text = ws ++ part ∧ isBlank ws = true ∧
      ∃ c run, part = c :: run ∧ p c = true ∧ isSpace c = false ∧ ∀ x ∈ run, p x = true := yields_term hmatch
  refine hterm.mono ?_
  rintro text ⟨ws, part, rfl, hws, c, run, rfl, hc, hspace, hrun⟩
  have hchunks : Chunks p Special (ws ++ (c :: run ++ [])) := .run hws hc hspace hrun .nil
  rw [append_nil] at hchunks
  exact ⟨hchunks, by simp⟩

theorem Yields.special {con : Connex A} {Special' : StrView → Prop} (hsep : Separated plain Special)
    (h : Yields con fun text => ∃ ws part, text = ws ++ part ∧ isBlank ws = true ∧ Special' part)
    (himp : ∀ part, Special' part → Special part) : Yields con fun text => Chunks plain Special text ∧ text ≠ [] := by
  refine h.mono ?_
  rintro text ⟨ws, part, rfl, hws, hpart⟩
  obtain ⟨c, rest, rfl, -⟩ := hsep.special (himp part hpart)
  have hchunks : Chunks plain Special (ws ++ (c :: rest ++ [])) := .special hws (himp _ hpart) .nil
  rw [append_nil] at hchunks
  exact ⟨hchunks, by simp⟩

/-- The repetition accepts only such texts. -/
theorem Yields.repeated {body : Connex B} (hbody : Yields body fun text => Chunks plain Special text ∧ text ≠ []) :
    Yields (repeatedConnex 1 max nullConnex body) fun text => Chunks plain Special text ∧ text ≠ [] := by
  have hloop : ∀ {rounds : ℕ} {within : Bool} {text : StrView} {results : List B} {n : ℕ},
      text.length < 2 ^ 32 →
      repeatLoop nullConnex body rounds within text = some (results, n) →
      Chunks plain Special (text.take n) ∧ (results ≠ [] → text.take n ≠ []) := by
    intro rounds within text results n hlt h
    induction rounds generalizing within text results n with
    | zero =>
      cases h
      exact ⟨.nil, fun hne => absurd rfl hne⟩
    | succ rounds ih =>
      cases results with
      | nil =>
        rw [repeatLoop_eq_nil h]
        exact ⟨.nil, fun hne => absurd rfl hne⟩
      | cons model results =>
        obtain ⟨rounds', offset, n', heq, hround, hrest, rfl⟩ := repeatLoop_eq_cons h
        cases heq
        rw [repeatRound_null within hlt] at hround
        obtain ⟨eval, hparse, rfl⟩ := Option.map_eq_some_iff.mp hround
        obtain ⟨hchunks, hne⟩ := hbody _ _ _ hlt hparse
        obtain ⟨hchunks', -⟩ := ih (by rw [length_drop]; omega) hrest
        rw [take_add]
        exact ⟨hchunks.append hchunks', fun _ h => hne (append_eq_nil_iff.mp h).1⟩
  intro text results n hlt hparse
  obtain ⟨hmin, hresults⟩ := repeatedConnex_eq_result hparse
  obtain ⟨hchunks, hne⟩ := hloop hlt hresults
  exact ⟨hchunks, hne (length_pos_iff.mp hmin)⟩

/-- Only enclosed text is accepted. -/
theorem yields_enclosed {ope clo : Char}
    (hbody : Yields body fun text => Chunks plain Special text ∧ text ≠ []) :
    Yields (bracketedConnex (termConnex (.char (· == ope))) (termConnex (.char (· == clo)))
      (repeatedConnex 1 max nullConnex body) false)
      fun text => ∃ ws part, text = ws ++ part ∧ isBlank ws = true ∧ Enclosed ope clo plain Special part := by
  have hchar : ∀ x : Char, Yields (termConnex (.char (· == x))) fun text =>
      ∃ ws part, text = ws ++ part ∧ isBlank ws = true ∧ part = [x] := by
    intro x
    apply yields_term
    intro text mat hmatch _
    obtain ⟨n, hn, rfl⟩ := Option.map_eq_some_iff.mp hmatch
    cases text with
    | nil => cases hn
    | cons c text =>
      obtain ⟨hc, heq⟩ := Option.ite_none_right_eq_some.mp hn
      cases heq
      rw [eq_of_beq hc]
      rfl
  refine (Yields.bracketed (hchar ope) (Yields.repeated hbody) (hchar clo)).mono ?_
  rintro text ⟨left, inner, right, rfl, ⟨ws, part, rfl, hws, rfl⟩, ⟨hchunks, hne⟩,
    ⟨ws', part', rfl, hws', rfl⟩⟩
  refine ⟨ws, ope :: (inner ++ (ws' ++ [clo])), ?_, hws, .intro hchunks hne hws'⟩
  rw [append_assoc, singleton_append]

end Yields

end Lumiera.Lib.Parse
