import Lumiera.Lib.ParseSyntax
import Mathlib.Data.Set.Card

/-! # Termination of the parse (`lib/parse.hpp`)

The repetition ends at the latest after the maximum number of rounds, whether or not anything is
consumed; so the parse can only fail to return by calling a reference again and again. Without left
recursion this needs more and more of the text, as long as the number of characters consumed is
reported properly. Yet a number which passes through a `uint` becomes zero again at 2^32, and a
clause is then called at the same point of the text. -/

namespace Lumiera.Lib.Parse

open List

/-- Nothing at all was seen of the text: it is blank, or it is short and nothing of it was consumed. -/
def Unseen (text : StrView) (consumed : ℕ) : Prop :=
  isBlank text = true ∨ text.length < 2 ^ 32 ∧ consumed = 0

/-- Texts on which each step is reported properly. -/
def Manageable (text : StrView) : Prop := text.length < 2 ^ 32 ∨ isBlank text = true

variable {text : StrView}

theorem isBlank_drop (h : isBlank text = true) (n : ℕ) : isBlank (text.drop n) = true := by
  rw [isBlank, all_eq_true] at *
  exact fun c hc => h c (mem_of_mem_drop hc)

theorem Manageable.drop (h : Manageable text) (n : ℕ) : Manageable (text.drop n) := by
  rcases h with hlt | hblank
  · exact Or.inl (by rw [length_drop]; omega)
  · exact Or.inr (isBlank_drop hblank n)

theorem Manageable.unseen_of_same {n : ℕ} (h : Manageable text) (hle : n ≤ text.length)
    (hsame : n = 0 ∨ text = []) : Unseen text n := by
  rcases h with hlt | hblank
  · refine Or.inr ⟨hlt, ?_⟩
    rcases hsame with hzero | rfl
    · exact hzero
    · exact Nat.le_zero.mp hle
  · exact Or.inl hblank

variable {sep : Connex A}

section Nullable

variable {A B C : Type} {text : StrView} {consumed : ℕ}

theorem Unseen.drop {n m : ℕ} (h : Unseen text n) (hm : text.length < 2 ^ 32 → n = 0 → m = 0) (k : ℕ) :
    Unseen (text.drop k) m := by
  rcases h with hblank | ⟨hlt, hzero⟩
  · exact Or.inl (isBlank_drop hblank k)
  · exact Or.inr ⟨by rw [length_drop]; omega, hm hlt hzero⟩

theorem Unseen.mono {n m : ℕ} (h : Unseen text n) (hm : text.length < 2 ^ 32 → n = 0 → m = 0) : Unseen text m :=
  h.imp_right fun ⟨hlt, hzero⟩ => ⟨hlt, hm hlt hzero⟩

theorem termConnex_unseen {regEx : Regex} {mat : SMatch}
    (h : (termConnex regEx).parse text = some (.result mat consumed)) (hunseen : Unseen text consumed) :
    ∃ text mat, regEx.matchAtStart text = some mat ∧ mat.length = 0 := by
  unfold termConnex at h
  dsimp only at h
  split at h
  · next mat' hmatch =>
      cases h
      refine ⟨_, mat, hmatch, ?_⟩
      rcases hunseen with hblank | ⟨-, hzero⟩
      · have hlength := (regEx.matched hmatch).length_le
        rw [length_drop, (leadingWhitespace_eq_length_iff text).mpr hblank, Nat.sub_self] at hlength
        exact Nat.le_zero.mp hlength
      · omega
  · cases h

theorem repeatRound_first_eq {body : Connex B} {model : B} {offset : ℕ}
    (h : repeatRound sep body false text = some (.result model offset)) :
    ∃ consumed, body.parse text = some (.result model consumed) ∧ uint consumed = offset := by
  obtain ⟨eval, heval, h⟩ := Option.map_eq_some_iff.mp h
  obtain ⟨model', consumed, rfl, rfl, rfl⟩ := Eval.map_eq_result_iff.mp h
  exact ⟨consumed, heval, by rw [Nat.zero_add]⟩

/-- A clause which accepts without seeing anything of the text can accept the empty sequence. -/
theorem Clause.nullable_of_unseen {ι : Type} {Res : ι → Type} {resolve : ∀ i, Connex (Res i)}
    {refs : ι → Prop}
    (hresolve : ∀ i text model consumed, (resolve i).parse text = some (.result model consumed) →
      Unseen text consumed → refs i)
    (clause : Clause Res A) {consumed : ℕ} {model : A}
    (h : (clause.connex resolve).parse text = some (.result model consumed))
    (hunseen : Unseen text consumed) :
    clause.Nullable refs := by
  induction clause generalizing text consumed with
  | null => trivial
  | term regEx => exact termConnex_unseen h hunseen
  | forward i => exact hresolve i text model consumed h hunseen
  | bind clause modelAdapt ih =>
    obtain ⟨m, hparse, -⟩ := Connex.map_parse_eq_result h
    exact ih hparse hunseen
  | bindGroup clause group ih =>
    obtain ⟨m, hparse, -⟩ := Connex.map_parse_eq_result h
    exact ih hparse hunseen
  | bindMatch clause ih =>
    obtain ⟨m, hparse, -⟩ := Connex.map_parse_eq_result h
    exact ih hparse hunseen
  | seq clause clauseDef ih ih' =>
    obtain ⟨posAfter1, consumed2, hleft, hright, rfl⟩ := sequenceConnex_eq_result h
    have hle : posAfter1 ≤ _ := (clause.connex resolve).consumed_le hleft
    have hle' : consumed2 ≤ _ := (clauseDef.connex resolve).consumed_le hright
    rw [length_drop] at hle'
    -- the sum is not truncated in a short text
    have hsum : text.length < 2 ^ 32 → uint (posAfter1 + consumed2) = 0 → posAfter1 = 0 ∧
        consumed2 = 0 := by
      intro hlt hzero
      rw [uint_of_lt (by omega)] at hzero
      omega
    exact ⟨ih hleft (hunseen.mono fun hlt hzero => (hsum hlt hzero).1),
      ih' hright (hunseen.drop (fun hlt hzero => (hsum hlt hzero).2) posAfter1)⟩
  | alt clause clauseDef ih ih' =>
    rcases branchedConnex_eq_result h with ⟨m, n, hparse, rfl⟩ | ⟨-, m, n, hparse, rfl⟩
    · have hle : n ≤ _ := (clause.connex resolve).consumed_le hparse
      refine Or.inl (ih hparse (hunseen.mono fun hlt hzero => ?_))
      rwa [uint_of_lt (by omega)] at hzero
    · have hle : n ≤ _ := (clauseDef.connex resolve).consumed_le hparse
      refine Or.inr (ih' hparse (hunseen.mono fun hlt hzero => ?_))
      rwa [uint_of_lt (by omega)] at hzero
  | repeated min max delimDef clauseDef ih ih' =>
    obtain ⟨hmin, hloop⟩ := repeatedConnex_eq_result h
    cases model with
    | nil => exact Or.inl (UInt32.toNat_inj.mp (Nat.le_zero.mp hmin))
    | cons item results =>
      obtain ⟨rounds', offset, consumed', -, hround, -, rfl⟩ := repeatLoop_eq_cons hloop
      obtain ⟨n, hparse, rfl⟩ := repeatRound_first_eq hround
      have hle : n ≤ _ := (clauseDef.connex resolve).consumed_le hparse
      refine Or.inr (ih' hparse (hunseen.mono fun hlt hzero => ?_))
      rw [uint_of_lt (by omega)] at hzero
      omega
  | opt clauseDef => trivial
  | bracket openDef closeDef bodyDef isOptional ih ih' ih'' =>
    rcases bracketedConnex_eq_result h with ⟨m, n, inner, m', n', hopen, hbody, hclose, rfl⟩ | ⟨hopt, hbody⟩
    · refine ⟨ih'' hbody (hunseen.drop (fun _ hzero => by omega) n), Or.inr ⟨ih hopen ?_, ih' hclose ?_⟩⟩
      · exact hunseen.mono fun _ hzero => by omega
      · exact hunseen.drop (fun _ hzero => by omega) (n + inner)
    · exact ⟨ih'' hbody hunseen, Or.inl hopt⟩

end Nullable

section Returns

variable {A B C : Type} {text : StrView}

/-- The parse function has an evaluation for this text. -/
def Returns (con : Connex A) (text : StrView) : Prop := (con.parse text).isSome = true

theorem returns_iff {con : Connex A} : Returns con text ↔ ∃ eval, con.parse text = some eval :=
    Option.isSome_iff_exists

theorem Returns.map {con : Connex A} {f : StrView → A → ℕ → B} (h : Returns con text) : Returns (con.map f) text := by
  obtain ⟨eval, heval⟩ := returns_iff.mp h
  exact returns_iff.mpr ⟨_, Option.map_eq_some_iff.mpr ⟨eval, heval, rfl⟩⟩

theorem Returns.sequence {conL : Connex A} {conR : Connex B} (hleft : Returns conL text)
    (hright : ∀ model1 posAfter1, conL.parse text = some (.result model1 posAfter1) →
      Returns conR (text.drop posAfter1)) : Returns (sequenceConnex conL conR) text := by
  obtain ⟨eval1, heval1⟩ := returns_iff.mp hleft
  refine returns_iff.mpr ?_
  cases eval1 with
  | nullopt => exact ⟨.nullopt, by simp [sequenceConnex, heval1]⟩
  | result model1 posAfter1 =>
    obtain ⟨eval2, heval2⟩ := returns_iff.mp (hright model1 posAfter1 heval1)
    exact ⟨_, by simp only [sequenceConnex, heval1, heval2, Option.bind_some, Option.map_some]; rfl⟩

theorem Returns.branched {conL : Connex A} {conR : Connex B} (hleft : Returns conL text)
    (hright : Returns conR text) : Returns (branchedConnex conL conR) text := by
  obtain ⟨eval1, heval1⟩ := returns_iff.mp hleft
  obtain ⟨eval2, heval2⟩ := returns_iff.mp hright
  refine returns_iff.mpr ?_
  cases eval1 with
  | nullopt =>
    exact ⟨_, by
      simp only [branchedConnex, heval1, heval2]
      rfl⟩
  | result model endBranch1 =>
    exact ⟨_, by
      simp only [branchedConnex, heval1]
      rfl⟩

theorem Returns.optional {body : Connex A} (h : Returns body text) : Returns (optionalConnex body) text := by
  obtain ⟨eval, heval⟩ := returns_iff.mp h
  exact returns_iff.mpr ⟨_, Option.map_eq_some_iff.mpr ⟨eval, heval, rfl⟩⟩

theorem Returns.bracketed {opening : Connex A} {closing : Connex B} {body : Connex C} {isOptional : Bool}
    (hopen : Returns opening text)
    (hbody : ∀ bracket, opening.parse text = some bracket → (bracket.isSuccess || isOptional) = true →
      Returns body (text.drop bracket.consumed))
    (hclose : ∀ m n model inner, opening.parse text = some (.result m n) →
      body.parse (text.drop n) = some (.result model inner) → Returns closing (text.drop (n + inner))) :
    Returns (bracketedConnex opening closing body isOptional) text := by
  obtain ⟨bracket, hbracket⟩ := returns_iff.mp hopen
  refine returns_iff.mpr ?_
  simp only [bracketedConnex, hbracket, Option.bind_some]
  by_cases hsuccess : (bracket.isSuccess || isOptional) = true
  · obtain ⟨eval, heval⟩ := returns_iff.mp (hbody bracket hbracket hsuccess)
    rw [if_pos hsuccess, heval]
    cases eval with
    | nullopt => exact ⟨_, rfl⟩
    | result model inner =>
      cases bracket with
      | nullopt => exact ⟨_, rfl⟩
      | result m n =>
        obtain ⟨closed, hclosed⟩ := returns_iff.mp (hclose m n model inner hbracket heval)
        exact ⟨_, Option.map_eq_some_iff.mpr ⟨closed, hclosed, rfl⟩⟩
  · exact ⟨_, if_neg hsuccess⟩

/-- **The loop returns** when the delimiter and the body return on all texts which may be left over:
at the latest, it ends with the maximum number of rounds. -/
theorem isSome_repeatLoop {body : Connex B} (P : StrView → Prop) (hdrop : ∀ text n, P text → P (text.drop n))
    (hsep : ∀ text, P text → Returns sep text) (hbody : ∀ text, P text → Returns body text) (htext : P text)
    (rounds : ℕ) (within : Bool) : ∃ outcome, repeatLoop sep body rounds within text = some outcome := by
  induction rounds generalizing text within with
  | zero => exact ⟨_, rfl⟩
  | succ rounds ih =>
    have hround : ∃ item, repeatRound sep body within text = some item := by
      have hdelim : ∃ delim, repeatDelim sep within text = some delim := by
        unfold repeatDelim
        split_ifs
        · obtain ⟨delim, hdelim⟩ := returns_iff.mp (hsep text htext)
          exact ⟨_, Option.map_eq_some_iff.mpr ⟨delim, hdelim, rfl⟩⟩
        · exact ⟨_, rfl⟩
      obtain ⟨delim, hdelim⟩ := hdelim
      rw [repeatRound, hdelim]
      cases delim with
      | nullopt => exact ⟨_, rfl⟩
      | result _ offset =>
        obtain ⟨eval, heval⟩ := returns_iff.mp (hbody _ (hdrop text offset htext))
        exact ⟨_, Option.map_eq_some_iff.mpr ⟨eval, heval, rfl⟩⟩
    obtain ⟨item, hitem⟩ := hround
    rw [repeatLoop, hitem]
    cases item with
    | nullopt => exact ⟨_, rfl⟩
    | result model offset =>
      obtain ⟨rest, hrest⟩ := ih (hdrop text offset htext) true
      exact ⟨_, Option.map_eq_some_iff.mpr ⟨rest, hrest, rfl⟩⟩

/-- The same for a repetition, where the delimiter is needed only behind the first item. -/
theorem Returns.repeated {body : Connex B} {min max : ℕ}
    (hbody : ∀ n, Returns body (text.drop n))
    (hsep : ∀ model consumed, body.parse text = some (.result model consumed) →
      ∀ n, Returns sep (text.drop (uint consumed + n))) : Returns (repeatedConnex min max sep body) text := by
  have hloop : ∃ outcome, repeatLoop sep body (Nat.max 1 max) false text = some outcome := by
    obtain ⟨rounds, hrounds⟩ : ∃ rounds, Nat.max 1 max = rounds + 1 :=
      Nat.exists_eq_add_one.mpr (Nat.le_max_left 1 max)
    obtain ⟨eval, heval⟩ := returns_iff.mp (hbody 0)
    have hround : repeatRound sep body false text =
        some (eval.map (fun model _ => model) fun consumed => uint (0 + consumed)) :=
      Option.map_eq_some_iff.mpr ⟨eval, heval, rfl⟩
    rw [hrounds, repeatLoop, hround]
    cases eval with
    | nullopt => exact ⟨_, rfl⟩
    | result model consumed =>
      -- what is left over is the text behind the first item, or less
      obtain ⟨rest, hrest⟩ : ∃ outcome, repeatLoop sep body rounds true (text.drop (uint (0 + consumed))) =
          some outcome := isSome_repeatLoop
        (fun rest => ∃ n, rest = text.drop (uint consumed + n))
        (by
          rintro rest k ⟨n, rfl⟩
          exact ⟨n + k, by rw [drop_drop, Nat.add_assoc]⟩)
        (by
          rintro rest ⟨n, rfl⟩
          exact hsep model consumed heval n)
        (by
          rintro rest ⟨n, rfl⟩
          exact hbody _)
        ⟨0, by rw [Nat.zero_add, Nat.add_zero]⟩ rounds true
      exact ⟨_, Option.map_eq_some_iff.mpr ⟨rest, hrest, rfl⟩⟩
  obtain ⟨outcome, houtcome⟩ := hloop
  exact returns_iff.mpr ⟨_, Option.map_eq_some_iff.mpr ⟨outcome, houtcome, rfl⟩⟩

end Returns

section Recursion

variable {ι : Type} {Res : ι → Type} {resolve : ∀ i, Connex (Res i)} {refs : ι → Prop} {A : Type}

/-- **A clause returns** when all references return on shorter texts, and those it may call first on
the text itself. -/
theorem Clause.returns
    (hresolve : ∀ i text model consumed, (resolve i).parse text = some (.result model consumed) →
      Unseen text consumed → refs i)
    (clause : Clause Res A) (hgood : Manageable text)
    (hshort : ∀ i text', Manageable text' → text'.length < text.length → Returns (resolve i) text')
    (hfirst : ∀ i, clause.StartsWith refs i → Returns (resolve i) text) :
    Returns (clause.connex resolve) text := by
  -- a clause further behind is called on a shorter text, unless nothing was consumed so far
  have hbehind : ∀ {B : Type} {clause : Clause Res B} {text : StrView} (n : ℕ), Manageable text →
      (∀ {text : StrView}, Manageable text →
        (∀ i text', Manageable text' → text'.length < text.length → Returns (resolve i) text') →
        (∀ i, clause.StartsWith refs i → Returns (resolve i) text) → Returns (clause.connex resolve) text) →
      (∀ i text', Manageable text' → text'.length < text.length → Returns (resolve i) text') →
      (n = 0 ∨ text = [] → ∀ i, clause.StartsWith refs i → Returns (resolve i) text) →
      Returns (clause.connex resolve) (text.drop n) := by
    intro B clause text n hgood ih hshort hfirst
    by_cases hsame : n = 0 ∨ text = []
    · have heq : text.drop n = text := by
        rcases hsame with rfl | rfl
        · exact drop_zero
        · exact drop_nil
      rw [heq]
      exact ih hgood hshort (hfirst hsame)
    · rw [not_or] at hsame
      have hpos := length_pos_iff.mpr hsame.2
      have hlt : (text.drop n).length < text.length := by
        rw [length_drop]
        omega
      exact ih (hgood.drop n) (fun i text' hgood' hlt' => hshort i text' hgood' (hlt'.trans hlt))
        fun i _ => hshort i _ (hgood.drop n) hlt
  induction clause generalizing text with
  | null => rfl
  | term regEx =>
    unfold Returns Clause.connex termConnex
    dsimp only
    split <;> rfl
  | forward i => exact hfirst i rfl
  | bind clause modelAdapt ih => exact (ih hgood hshort hfirst).map
  | bindGroup clause group ih => exact (ih hgood hshort hfirst).map
  | bindMatch clause ih => exact (ih hgood hshort hfirst).map
  | seq clause clauseDef ih ih' =>
    refine (ih hgood hshort fun i h => hfirst i (Or.inl h)).sequence fun model1 posAfter1 hleft => ?_
    refine hbehind posAfter1 hgood ih' hshort fun hsame i h => hfirst i (Or.inr ⟨?_, h⟩)
    exact clause.nullable_of_unseen hresolve hleft
      (hgood.unseen_of_same ((clause.connex resolve).consumed_le hleft) hsame)
  | alt clause clauseDef ih ih' =>
    exact (ih hgood hshort fun i h => hfirst i (Or.inl h)).branched
      (ih' hgood hshort fun i h => hfirst i (Or.inr h))
  | repeated min max delimDef clauseDef ih ih' =>
    refine .repeated (fun n => hbehind n hgood ih' hshort fun _ i h => hfirst i (Or.inl h)) ?_
    intro model consumed hbody n
    refine hbehind _ hgood ih hshort fun hsame i h => hfirst i (Or.inr ⟨?_, h⟩)
    have hle : consumed ≤ _ := (clauseDef.connex resolve).consumed_le hbody
    refine clauseDef.nullable_of_unseen hresolve hbody ?_
    rcases hgood with hlt | hblank
    · rw [uint_of_lt (by omega)] at hsame
      refine (Manageable.unseen_of_same (Or.inl hlt) hle ?_)
      exact hsame.imp_left fun h => by omega
    · exact Or.inl hblank
  | opt clauseDef ih => exact (ih hgood hshort hfirst).optional
  | bracket openDef closeDef bodyDef isOptional ih ih' ih'' =>
    refine .bracketed (ih hgood hshort fun i h => hfirst i (Or.inl h)) ?_ ?_
    · intro bracket hopen hsuccess
      refine hbehind _ hgood ih'' hshort fun hsame i h => hfirst i (Or.inr (Or.inl ⟨?_, h⟩))
      cases bracket with
      | nullopt => exact Or.inl hsuccess
      | result m n =>
        exact Or.inr (openDef.nullable_of_unseen hresolve hopen
          (hgood.unseen_of_same ((openDef.connex resolve).consumed_le hopen) hsame))
    · intro m n model inner hopen hbody
      refine hbehind _ hgood ih' hshort fun hsame i h => hfirst i (Or.inr (Or.inr ⟨?_, ?_, h⟩))
      · refine openDef.nullable_of_unseen hresolve hopen (hgood.unseen_of_same
          ((openDef.connex resolve).consumed_le hopen) ?_)
        exact hsame.imp_left fun h => by omega
      · have hle : inner ≤ _ := (bodyDef.connex resolve).consumed_le hbody
        refine bodyDef.nullable_of_unseen hresolve hbody ((hgood.drop n).unseen_of_same hle ?_)
        rcases hsame with hzero | rfl
        · exact Or.inl (by omega)
        · exact Or.inr drop_nil

end Recursion

namespace Grammar

variable (g : Grammar)

end Grammar

/-! ## Truncated lengths -/

/-- A number of letters, as in `a{1024}`. -/
def Regex.letters (k : ℕ) : Regex :=
  .ofLength fun toParse => if List.replicate k 'a' <+: toParse then some k else none

/-- 2^32 letters and then the same syntax again:
`R = accept(accept_repeated(4194304, "a{1024}").seq(NullType)).seq(R)`. -/
def repeatedly : Grammar where
  size := 1
  Res := fun _ => Unit
  defs := fun _ => .bind (.seq (.seq (.repeated 4194304 4194304 .null (.term (.letters 1024))) .null)
    (.forward 0)) fun _ => ()

section Truncated

end Truncated

end Lumiera.Lib.Parse
