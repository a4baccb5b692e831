import Lumiera.Lib.TextTemplateRender
import Mathlib.Tactic.ByContra

/-! # Compilation accepts the balanced templates

The tags are processed one by one, with a stack of open clauses; actions emitted earlier are linked
later on, by index. For a block, this emits the actions laid out accordingly, whatever was emitted
before; and conversely, when all tags are processed without error, and no clause is left open, then these
tags spell a block. -/

namespace Lumiera.Lib.TextTemplate

open List

variable {actions : List Action}

namespace ActionCompiler

open Block (opening closing openCode endCode)

/-! ## Actions linked later on -/

theorem modify_length {α : Type} (before after : List α) (a : α) (f : α → α) :
    (before ++ a :: after).modify before.length f = before ++ f a :: after := by
  induction before with
  | nil => rfl
  | cons b before ih => rw [cons_append, length_cons, modify_succ_cons, ih]; rfl

/-- The actions after a clause was opened: its first action is still to be linked. -/
def opened (before : List Action) (lead key : Text) (clause : Clause) (refIDX : Nat)
    (inner : List Action) : List Action :=
  before ++ ⟨.TEXT, lead, 0⟩ :: ⟨openCode clause, key, refIDX⟩ :: inner

section Opened

variable (before inner : List Action) (lead key : Text) (clause : Clause) (refIDX : Nat)

theorem opened_append (more : List Action) : opened before lead key clause refIDX inner ++ more
    = opened before lead key clause refIDX (inner ++ more) := by
  simp [opened]

theorem length_opened : (opened before lead key clause refIDX inner).length = before.length + 2 + inner.length := by
  simp only [opened, length_append, length_cons]
  omega

theorem modify_opened (refIDX' : Nat) :
    (opened before lead key clause refIDX inner).modify (before.length + 1)
        (fun action => { action with refIDX := refIDX' })
      = opened before lead key clause refIDX' inner := by
  have h := modify_length (before ++ [⟨.TEXT, lead, 0⟩]) inner ⟨openCode clause, key, refIDX⟩
    fun action => { action with refIDX := refIDX' }
  simpa [opened] using h

theorem scopeKey_opened (scope : List ParseCtx) (after : Nat) :
    scopeKey ⟨⟨clause, before.length + 1, after⟩ :: scope,
      opened before lead key clause refIDX inner⟩ = key := by
  have hget : (opened before lead key clause refIDX inner)[before.length + 1]?
      = some ⟨openCode clause, key, refIDX⟩ := by
    rw [opened, getElem?_append_right (by omega), Nat.add_sub_cancel_left]
    rfl
  simp [scopeKey, beginIdx, hget]

theorem scopeMatch_opened (scope : List ParseCtx) (after : Nat) (tag : TagSyntax)
    (clause' : Clause) :
    scopeMatch ⟨⟨clause, before.length + 1, after⟩ :: scope,
        opened before lead key clause refIDX inner⟩ tag clause' = true ↔
      clause = clause' ∧ (tag.key = [] ∨ tag.key = key) := by
  simp [scopeMatch, clauseMatch, keyMatch, scopeKey_opened]

end Opened

/-! ## Primitives -/

variable {after : Nat}

section Primitives

variable (before inner : List Action) (lead key : Text) (clause : Clause) (refIDX : Nat)
  (scope : List ParseCtx)

@[simp] theorem hasElse_cons (begin after : Nat) (actions : List Action) :
    hasElse ⟨⟨clause, begin, after⟩ :: scope, actions⟩ = decide (after ≠ 0) := rfl

@[simp] theorem clauseMatch_cons (clause' : Clause) (begin after : Nat) (actions : List Action) :
    clauseMatch ⟨⟨clause, begin, after⟩ :: scope, actions⟩ clause' = (clause == clause') := rfl

theorem add_opened (code : Code) (val : Text) :
    add ⟨scope, opened before lead key clause refIDX inner⟩ code val
      = ⟨scope, opened before lead key clause refIDX (inner ++ [⟨code, val, 0⟩])⟩ := by
  rw [add, opened_append]

theorem linkElseToStart_opened (after : Nat) :
    linkElseToStart ⟨⟨clause, before.length + 1, after⟩ :: scope,
        opened before lead key clause refIDX inner⟩
      = ⟨⟨clause, before.length + 1, after⟩ :: scope,
          opened before lead key clause (before.length + 2 + inner.length) inner⟩ := by
  simp only [linkElseToStart, link, beginIdx, currIDX, length_opened, modify_opened]

theorem linkLoopBack_opened (val : Text) (after : Nat) :
    linkLoopBack ⟨⟨clause, before.length + 1, after⟩ :: scope,
        opened before lead key clause refIDX (inner ++ [⟨.LOOP, val, 0⟩])⟩
      = ⟨⟨clause, before.length + 1, after⟩ :: scope, opened before lead key clause refIDX
          (inner ++ [⟨.LOOP, val, before.length + 1⟩])⟩ := by
  have h := modify_length (opened before lead key clause refIDX inner) [] ⟨.LOOP, val, 0⟩
    fun action => { action with refIDX := before.length + 1 }
  rw [← opened_append, linkLoopBack, link, currIDX, length_append, length_singleton,
    Nat.add_sub_cancel]
  rw [← opened_append]
  exact congrArg (ActionCompiler.mk _) h

theorem linkJumpToNext_opened {other : List Action} {val : Text}
    (hafter : after = before.length + 2 + inner.length) :
    linkJumpToNext ⟨⟨clause, before.length + 1, after⟩ :: scope,
        opened before lead key clause refIDX (inner ++ ⟨.JUMP, val, 0⟩ :: other)⟩
      = ⟨⟨clause, before.length + 1, after⟩ :: scope, opened before lead key clause refIDX
          (inner ++ ⟨.JUMP, val, after + 1 + other.length⟩ :: other)⟩ := by
  have hlen : (inner ++ (⟨.JUMP, val, 0⟩ :: other : List Action)).length
      = inner.length + (other.length + 1) := by
    rw [length_append, length_cons]
  have hidx : before.length + 2 + (inner.length + (other.length + 1)) = after + 1 + other.length := by
    omega
  have h := modify_length (opened before lead key clause refIDX inner) other ⟨.JUMP, val, 0⟩
    fun action => { action with refIDX := after + 1 + other.length }
  rw [length_opened, ← hafter, opened_append, opened_append] at h
  simp only [linkJumpToNext, link, afterIdx, currIDX, length_opened, hlen, hidx, h]

end Primitives

/-! ## Processing one tag -/

section Tags

variable {scope : List ParseCtx} {before inner other : List Action} {clause : Clause} {key : Text}
  {refIDX : Nat} (lead lead' tail' : Text)

/-- The opening tag of a clause. -/
theorem compile_opening (scope : List ParseCtx) (before : List Action) (clause : Clause)
    (tail : Text) (hkey : key ≠ []) :
    compile ⟨scope, before⟩ ⟨opening clause, lead, tail, key⟩
      = .ok ⟨⟨clause, before.length + 1, 0⟩ :: scope, opened before lead key clause 0 []⟩ := by
  cases clause <;>
    simp [compile, opening, hkey, addLead, addCode, add, openScope, currIDX, opened, openCode]

/-- The else tag ends the content with a jump, which is to be linked later on. -/
theorem compile_else (key' : Text) {content : List Action}
    (hcontent : content = inner ++ [⟨.TEXT, lead', 0⟩] ++ endCode clause key' (before.length + 1))
    (hafter : after = before.length + 2 + content.length) :
    compile ⟨⟨clause, before.length + 1, 0⟩ :: scope, opened before lead key clause refIDX inner⟩
        ⟨.ELSE, lead', tail', key'⟩
      = .ok ⟨⟨clause, before.length + 1, after⟩ :: scope,
          opened before lead key clause (after + 1) (content ++ [⟨.JUMP, key', 0⟩])⟩ := by
  have hnext : before.length + 2 + (content ++ [(⟨.JUMP, key', 0⟩ : Action)]).length = after + 1 := by
    rw [length_append, length_singleton, hafter, Nat.add_assoc _ content.length]
  cases clause with
  | IF =>
    simp only [endCode, append_nil] at hcontent
    have hmark : markJumpInScope ⟨⟨.IF, before.length + 1, 0⟩ :: scope,
        opened before lead key .IF refIDX content⟩ = ⟨⟨.IF, before.length + 1, after⟩ :: scope,
          opened before lead key .IF refIDX content⟩ := by
      simp only [markJumpInScope, List.modifyHead, currIDX, length_opened, hafter]
    simp only [compile, addLead, add_opened, ← hcontent, addCode, hmark, linkElseToStart_opened, hnext]
    simp
  | FOR =>
    simp only [endCode] at hcontent
    have hmark : markJumpInScope ⟨⟨.FOR, before.length + 1, 0⟩ :: scope,
        opened before lead key .FOR refIDX content⟩ = ⟨⟨.FOR, before.length + 1, after⟩ :: scope,
          opened before lead key .FOR refIDX content⟩ := by
      simp only [markJumpInScope, List.modifyHead, currIDX, length_opened, hafter]
    simp only [compile, addLead, add_opened, addCode, linkLoopBack_opened, ← hcontent, hmark,
      linkElseToStart_opened, hnext]
    simp

/-- The closing tag of a clause without else-branch: now the start is linked to the end. -/
theorem compile_closing (key' : Text) (hclose : key' = [] ∨ key' = key) {content : List Action}
    (hcontent : content = inner ++ [⟨.TEXT, lead', 0⟩] ++ endCode clause key' (before.length + 1)) :
    compile ⟨⟨clause, before.length + 1, 0⟩ :: scope, opened before lead key clause refIDX inner⟩
        ⟨closing clause, lead', tail', key'⟩
      = .ok ⟨scope, opened before lead key clause (before.length + 2 + content.length) content⟩ := by
  have hmatch := (scopeMatch_opened before (inner ++ [⟨.TEXT, lead', 0⟩]) lead key clause refIDX scope 0
    ⟨closing clause, lead', tail', key'⟩ clause).mpr ⟨rfl, hclose⟩
  cases clause with
  | IF =>
    simp only [endCode, append_nil] at hcontent
    rw [← hcontent] at hmatch
    simp only [compile, closing, addLead, add_opened, ← hcontent, linkElseToStart_opened, closeScope]
    simp only [closing] at hmatch
    simp [hmatch]
  | FOR =>
    simp only [endCode] at hcontent
    simp only [closing] at hmatch
    simp only [compile, closing, addLead, add_opened, addCode, linkLoopBack_opened, ← hcontent,
      linkElseToStart_opened, closeScope]
    simp [hmatch]

/-- The closing tag after an else-branch: the jump before this branch is linked to the end. -/
theorem compile_closing_else (key' : Text) (hclose : key' = [] ∨ key' = key) {val : Text}
    {stop : Nat} (hafter : after = before.length + 2 + inner.length)
    (hstop : stop = after + 1 + (other ++ [(⟨.TEXT, lead', 0⟩ : Action)]).length) :
    compile ⟨⟨clause, before.length + 1, after⟩ :: scope,
          opened before lead key clause refIDX (inner ++ ⟨.JUMP, val, 0⟩ :: other)⟩
        ⟨closing clause, lead', tail', key'⟩
      = .ok ⟨scope, opened before lead key clause refIDX (inner ++
          ⟨.JUMP, val, stop⟩ :: (other ++ [⟨.TEXT, lead', 0⟩]))⟩ := by
  have hassoc : inner ++ (⟨.JUMP, val, 0⟩ : Action) :: other ++ [⟨.TEXT, lead', 0⟩]
      = inner ++ ⟨.JUMP, val, 0⟩ :: (other ++ [⟨.TEXT, lead', 0⟩]) := by
    rw [append_assoc, cons_append]
  have hmatch := (scopeMatch_opened before (inner ++ (⟨.JUMP, val, 0⟩ :: (other ++
    [⟨.TEXT, lead', 0⟩]) : List Action)) lead key clause refIDX scope after
    ⟨closing clause, lead', tail', key'⟩ clause).mpr ⟨rfl, hclose⟩
  have helse : after ≠ 0 := by omega
  cases clause with
  | IF =>
    simp only [closing] at hmatch
    simp only [compile, closing, addLead, add_opened, hassoc, linkJumpToNext_opened _ _ _ _ _ _ _ hafter,
      ← hstop, closeScope]
    simp [hmatch, helse]
  | FOR =>
    simp only [closing] at hmatch
    simp only [compile, closing, addLead, add_opened, hassoc, linkJumpToNext_opened _ _ _ _ _ _ _ hafter,
      ← hstop, closeScope]
    simp [hmatch, helse]

end Tags

/-! ## Processing a block -/

/-- Process some tags, which are not yet the end of the template. -/
def compileTags : ActionCompiler → List TagSyntax → Except Text ActionCompiler
  | compiler, [] => .ok compiler
  | compiler, tag :: tags =>
    match compiler.compile tag with
    | .error raised => .error raised
    | .ok compiler => compileTags compiler tags

variable {compiler compiler' : ActionCompiler} {tag : TagSyntax}

theorem compileTags_cons (htag : compiler.compile tag = .ok compiler') (tags : List TagSyntax) :
    compileTags compiler (tag :: tags) = compileTags compiler' tags := by
  rw [compileTags, htag]

variable {tags : List TagSyntax}

theorem compileTags_append (htags : compileTags compiler tags = .ok compiler') (more : List TagSyntax) :
    compileTags compiler (tags ++ more) = compileTags compiler' more := by
  induction tags generalizing compiler with
  | nil =>
    obtain rfl := Except.ok.inj htags
    rfl
  | cons tag tags ih =>
    rw [compileTags] at htags
    rw [cons_append, compileTags]
    cases htag : compiler.compile tag with
    | error raised => simp [htag] at htags
    | ok compiler₁ =>
      rw [htag] at htags
      exact ih htags

/-- **The tags of a block** emit the actions laid out for this block, up to its last text, which belongs
to the tag thereafter. -/
theorem compile_block {block : Block} (h : Block.Spells tags block)
    (scope : List ParseCtx) (before : List Action) :
    ∃ code, Block.Layout before.length block (code ++ [⟨.TEXT, block.last, 0⟩]) ∧
      compileTags ⟨scope, before⟩ tags = .ok ⟨scope, before ++ code⟩ := by
  induction h generalizing scope before with
  | done lead => exact ⟨[], .done lead, by rw [compileTags, append_nil]⟩
  | escape lead tail key _ ih =>
    obtain ⟨code, hlayout, hcode⟩ := ih scope (before ++ [⟨.TEXT, lead, 0⟩])
    rw [length_append] at hlayout
    refine ⟨⟨.TEXT, lead, 0⟩ :: code, .escape lead hlayout, ?_⟩
    have htag : compile ⟨scope, before⟩ ⟨.ESCAPE, lead, tail, key⟩
        = .ok ⟨scope, before ++ [⟨.TEXT, lead, 0⟩]⟩ := rfl
    rw [compileTags_cons htag, hcode, append_assoc, singleton_append]
  | placeholder lead tail key hkey _ ih =>
    obtain ⟨code, hlayout, hcode⟩ := ih scope (before ++ [⟨.TEXT, lead, 0⟩, ⟨.KEY, key, 0⟩])
    rw [length_append] at hlayout
    refine ⟨⟨.TEXT, lead, 0⟩ :: ⟨.KEY, key, 0⟩ :: code, .placeholder lead key hlayout, ?_⟩
    have htag : compile ⟨scope, before⟩ ⟨.KEYID, lead, tail, key⟩
        = .ok ⟨scope, before ++ [⟨.TEXT, lead, 0⟩, ⟨.KEY, key, 0⟩]⟩ := by
      simp [compile, hkey, addLead, addCode, add]
    rw [compileTags_cons htag, hcode, append_assoc]
    rfl
  | @bracket inner tags content rest clause lead tail key tail' key' hkey hclose _ _ ihcontent
      ihrest =>
      obtain ⟨code, hlayout, hcode⟩ := ihcontent (⟨clause, before.length + 1, 0⟩ :: scope)
        (opened before lead key clause 0 [])
      rw [length_opened] at hlayout
      obtain ⟨all, hall⟩ : ∃ all, all = code ++ [⟨.TEXT, content.last, 0⟩]
        ++ endCode clause key' (before.length + 1) := ⟨_, rfl⟩
      obtain ⟨out, hout, hrest⟩ := ihrest scope
        (opened before lead key clause (before.length + 2 + all.length) all)
      rw [length_opened] at hout
      refine ⟨⟨.TEXT, lead, 0⟩ :: ⟨openCode clause, key, before.length + 2 + all.length⟩ :: (all ++ out),
        ?_, ?_⟩
      · have hsize : before.length + 2 + all.length = before.length + 2
            + (code ++ [(⟨.TEXT, content.last, 0⟩ : Action)]).length
            + (endCode clause key' (before.length + 1)).length := by
          simp only [hall, length_append, Nat.add_assoc]
        have hbracket := Block.Layout.bracket clause lead key key' hsize hlayout hout
        rw [← append_assoc, ← hall] at hbracket
        simpa only [cons_append, append_assoc, Block.last] using hbracket
      · rw [compileTags_cons (compile_opening lead scope before clause tail hkey),
          compileTags_append hcode, opened_append, nil_append,
          compileTags_cons (compile_closing lead content.last tail' key' hclose hall), hrest]
        simp [opened]
  | @bracketElse inner other tags content alternative rest clause lead tail key tail₁ key₁ tail' key'
      hkey hclose _ _ _ ihcontent ihalt ihrest =>
      obtain ⟨code, hlayout, hcode⟩ := ihcontent (⟨clause, before.length + 1, 0⟩ :: scope)
        (opened before lead key clause 0 [])
      rw [length_opened] at hlayout
      obtain ⟨all, hall⟩ : ∃ all, all = code ++ [⟨.TEXT, content.last, 0⟩]
        ++ endCode clause key₁ (before.length + 1) := ⟨_, rfl⟩
      obtain ⟨after, hafter⟩ : ∃ after, after = before.length + 2 + all.length := ⟨_, rfl⟩
      obtain ⟨codeAlt, hlayoutAlt, hcodeAlt⟩ := ihalt (⟨clause, before.length + 1, after⟩ :: scope)
        (opened before lead key clause (after + 1) (all ++ [⟨.JUMP, key₁, 0⟩]))
      rw [length_opened, length_append, ← Nat.add_assoc, ← hafter]
        at hlayoutAlt
      rw [opened_append, append_assoc, singleton_append] at hcodeAlt
      obtain ⟨stop, hstop⟩ : ∃ stop, stop
          = after + 1 + (codeAlt ++ [(⟨.TEXT, alternative.last, 0⟩ : Action)]).length := ⟨_, rfl⟩
      obtain ⟨out, hout, hrest⟩ := ihrest scope (opened before lead key clause (after + 1)
        (all ++ ⟨.JUMP, key₁, stop⟩ :: (codeAlt ++ [⟨.TEXT, alternative.last, 0⟩])))
      have hsize : before.length + 2 + (all ++ (⟨.JUMP, key₁, stop⟩ ::
          (codeAlt ++ [⟨.TEXT, alternative.last, 0⟩]) : List Action)).length = stop := by
        simp only [length_append, length_cons] at hstop ⊢
        omega
      rw [length_opened, hsize] at hout
      refine ⟨⟨.TEXT, lead, 0⟩ :: ⟨openCode clause, key, after + 1⟩ :: (all ++ ⟨.JUMP, key₁, stop⟩ ::
        (codeAlt ++ [⟨.TEXT, alternative.last, 0⟩] ++ out)), ?_, ?_⟩
      · have hj : after = before.length + 2
            + (code ++ [(⟨.TEXT, content.last, 0⟩ : Action)]).length
            + (endCode clause key₁ (before.length + 1)).length := by
          simp only [hafter, hall, length_append, Nat.add_assoc]
        have hbracket := Block.Layout.bracketElse clause lead key key₁ key₁ hj hstop hlayout hlayoutAlt
          hout
        rw [← append_assoc, ← hall] at hbracket
        simpa only [cons_append, append_assoc, Block.last] using hbracket
      · rw [compileTags_cons (compile_opening lead scope before clause tail hkey),
          compileTags_append hcode, opened_append, nil_append,
          compileTags_cons (compile_else lead content.last tail₁ key₁ hall hafter),
          compileTags_append hcodeAlt,
          compileTags_cons (compile_closing_else lead alternative.last tail' key' hclose hafter hstop),
          hrest]
        simp [opened]

/-! ## Accepted tags -/

/-- A tag which can end a block. -/
def IsEnd (keyword : Keyword) : Prop := keyword = .ELSE ∨ ∃ clause, keyword = closing clause

theorem keyword_cases (keyword : Keyword) : keyword = .ESCAPE ∨ keyword = .KEYID ∨
    (∃ clause, keyword = opening clause) ∨ IsEnd keyword := by
  cases keyword with
  | ESCAPE => exact .inl rfl
  | KEYID => exact .inr (.inl rfl)
  | IF => exact .inr (.inr (.inl ⟨.IF, rfl⟩))
  | FOR => exact .inr (.inr (.inl ⟨.FOR, rfl⟩))
  | END_IF => exact .inr (.inr (.inr (.inr ⟨.IF, rfl⟩)))
  | END_FOR => exact .inr (.inr (.inr (.inr ⟨.FOR, rfl⟩)))
  | ELSE => exact .inr (.inr (.inr (.inl rfl)))

theorem compile_of_compileTags (h : compileTags compiler (tag :: tags) = .ok compiler') :
    ∃ next, compiler.compile tag = .ok next ∧ compileTags next tags = .ok compiler' := by
  rw [compileTags] at h
  cases htag : compiler.compile tag with
  | error raised => simp [htag] at h
  | ok next => exact ⟨next, rfl, by simpa [htag] using h⟩

variable {next : ActionCompiler} {clause : Clause}

theorem key_of_compile_opening {lead tail key : Text}
    (h : compiler.compile ⟨opening clause, lead, tail, key⟩ = .ok next) : key ≠ [] := by
  rintro rfl
  cases clause <;> simp [compile, opening] at h

variable {scope : List ParseCtx} {before : List Action}

theorem match_of_compile_closing {inner : List Action}
    {clause' : Clause} {lead key lead' tail' key' : Text} {refIDX : Nat}
    (h : compile ⟨⟨clause, before.length + 1, after⟩ :: scope,
        opened before lead key clause refIDX inner⟩ ⟨closing clause', lead', tail', key'⟩ = .ok next) :
    clause = clause' ∧ (key' = [] ∨ key' = key) := by
  have hmatch := scopeMatch_opened before (inner ++ [⟨.TEXT, lead', 0⟩]) lead key clause refIDX scope
    after ⟨closing clause', lead', tail', key'⟩ clause'
  rw [← hmatch]
  cases clause' with
  | IF =>
    by_contra hno
    simp only [closing] at h hno
    simp [compile, addLead, add_opened, hno] at h
  | FOR =>
    by_contra hno
    simp only [closing] at h hno
    simp [compile, addLead, add_opened, hno] at h

theorem after_of_compile_else
    {begin : Nat} {lead tail key : Text}
    (h : compile ⟨⟨clause, begin, after⟩ :: scope, actions⟩ ⟨.ELSE, lead, tail, key⟩ = .ok next) :
    after = 0 := by
  by_contra hno
  simp [compile, addLead, add, hno] at h

theorem not_isEnd_of_compile (h : compile ⟨[], actions⟩ tag = .ok next) : ¬ IsEnd tag.keyword := by
  rintro (hkeyword | ⟨clause, hkeyword⟩)
  · simp [compile, hkeyword, addLead, add] at h
  · cases clause <;>
      simp [compile, hkeyword, closing, addLead, add, scopeMatch, clauseMatch] at h

/-- Tags which start with a block, followed by a tag which ends it, unless these are all tags. -/
def StartsWithBlock (final : Text) (tags : List TagSyntax) : Prop :=
  ∃ block inner rest, tags = inner ++ rest ∧ Block.Spells inner block ∧
    ((rest = [] ∧ block.last = final) ∨
      ∃ tag more, rest = tag :: more ∧ IsEnd tag.keyword ∧ block.last = tag.lead)

theorem exists_end {final : Text} (h : StartsWithBlock final tags)
    {top : ParseCtx}
    (htags : compileTags ⟨top :: scope, before⟩ tags = .ok compiler') (hclosed : compiler'.scope_ = []) :
    ∃ block inner keyword tail key more code next,
      tags = inner ++ ⟨keyword, block.last, tail, key⟩ :: more ∧ Block.Spells inner block ∧
        IsEnd keyword ∧ compile ⟨top :: scope, before ++ code⟩ ⟨keyword, block.last, tail, key⟩ = .ok next ∧
        compileTags next more = .ok compiler' := by
  obtain ⟨block, inner, rest, rfl, hspells, hrest⟩ := h
  obtain ⟨code, -, hcode⟩ := compile_block hspells (top :: scope) before
  rw [compileTags_append hcode] at htags
  rcases hrest with ⟨rfl, -⟩ | ⟨⟨keyword, lead, tail, key⟩, more, rfl, hend, hlead⟩
  · obtain rfl := Except.ok.inj htags
    cases hclosed
  · obtain rfl : block.last = lead := hlead
    obtain ⟨next, htag, hmore⟩ := compile_of_compileTags htags
    exact ⟨block, inner, keyword, tail, key, more, code, next, rfl, hspells, hend, htag, hmore⟩

/-- A bracketing construct in front of accepted tags. -/
theorem startsWithBlock_bracket {final : Text} {n : Nat}
    (ih : ∀ {tags : List TagSyntax}, tags.length ≤ n → ∀ {compiler compiler' : ActionCompiler}, compileTags compiler tags = .ok compiler' → compiler'.scope_ = [] → StartsWithBlock final tags)
    (hlen : tags.length ≤ n) {lead key : Text}
    (tail : Text) (hkey : key ≠ [])
    (htags : compileTags ⟨⟨clause, before.length + 1, 0⟩ :: scope, opened before lead key clause 0 []⟩ tags = .ok compiler')
    (hclosed : compiler'.scope_ = []) : StartsWithBlock final (⟨opening clause, lead, tail, key⟩ :: tags) := by
  obtain ⟨content, inner, keyword, tail', key', more, code, next, rfl, hcontent, hend, htag, hmore⟩ :=
    exists_end (ih hlen htags hclosed) htags hclosed
  rw [length_append, length_cons] at hlen
  rw [opened_append] at htag
  rcases hend with rfl | ⟨clause', rfl⟩
  · -- there is an else-branch, which is to be closed
    rw [compile_else lead content.last tail' key' rfl rfl] at htag
    obtain rfl := Except.ok.inj htag
    obtain ⟨alternative, other, keyword, tail₂, key₂, more₂, code₂, next, rfl, halt, hend, htag₂,
      hmore₂⟩ := exists_end (ih (by omega) hmore hclosed) hmore hclosed
    rw [length_append, length_cons] at hlen
    rw [opened_append] at htag₂
    rcases hend with rfl | ⟨clause', rfl⟩
    · have hzero := after_of_compile_else htag₂
      omega
    · obtain ⟨rfl, hclose⟩ := match_of_compile_closing htag₂
      obtain ⟨block, inner₃, rest, rfl, hspells, hrest⟩ := ih (by omega) hmore₂ hclosed
      refine ⟨.bracketElse clause lead key content alternative block, _, rest, ?_,
        .bracketElse clause lead tail key tail' key' tail₂ key₂ hkey hclose hcontent halt hspells, hrest⟩
      simp
  · obtain ⟨rfl, hclose⟩ := match_of_compile_closing htag
    obtain ⟨block, inner₂, rest, rfl, hspells, hrest⟩ := ih (by omega) hmore hclosed
    refine ⟨.bracket clause lead key content block, _, rest, ?_,
      .bracket clause lead tail key tail' key' hkey hclose hcontent hspells, hrest⟩
    simp

/-- Accepted tags start with a block, by induction on the number of tags. -/
theorem startsWithBlock (final : Text) (n : Nat) : ∀ {tags : List TagSyntax}, tags.length ≤ n →
    ∀ {compiler compiler' : ActionCompiler}, compileTags compiler tags = .ok compiler' →
      compiler'.scope_ = [] → StartsWithBlock final tags := by
  induction n with
  | zero =>
    intro tags hlen compiler compiler' _ _
    obtain rfl : tags = [] := length_eq_zero_iff.mp (Nat.le_zero.mp hlen)
    exact ⟨.done final, [], [], rfl, .done final, .inl ⟨rfl, rfl⟩⟩
  | succ n ih =>
    intro tags hlen compiler compiler' htags hclosed
    cases tags with
    | nil => exact ⟨.done final, [], [], rfl, .done final, .inl ⟨rfl, rfl⟩⟩
    | cons tag tags =>
      obtain ⟨next, htag, hmore⟩ := compile_of_compileTags htags
      rw [length_cons] at hlen
      obtain ⟨keyword, lead, tail, key⟩ := tag
      rcases keyword_cases keyword with rfl | rfl | ⟨clause, rfl⟩ | hend
      · obtain ⟨block, inner, rest, rfl, hspells, hrest⟩ := ih (by omega) hmore hclosed
        exact ⟨.escape lead block, _ :: inner, rest, rfl, .escape lead tail key hspells, hrest⟩
      · have hkey : key ≠ [] := by
          rintro rfl
          simp [compile] at htag
        obtain ⟨block, inner, rest, rfl, hspells, hrest⟩ := ih (by omega) hmore hclosed
        exact ⟨.placeholder lead key block, _ :: inner, rest, rfl,
          .placeholder lead tail key hkey hspells, hrest⟩
      · have hkey := key_of_compile_opening htag
        obtain ⟨scope, before⟩ := compiler
        rw [compile_opening lead scope before clause tail hkey] at htag
        obtain rfl := Except.ok.inj htag
        exact startsWithBlock_bracket ih (by omega) tail hkey hmore hclosed
      · exact ⟨.done lead, [], _, rfl, .done lead, .inr ⟨_, _, rfl, hend, rfl⟩⟩

/-! ## Processing the template -/

theorem buildActions_eq {last : TagSyntax}
    (hlast : tags.getLast? = some last) : buildActions compiler (tags.map .ok)
      = (compileTags compiler tags).bind fun compiler =>
          let compiler := compiler.add .TEXT last.tail
          if compiler.scope_ ≠ [] then .error compiler.unclosed else .ok compiler := by
  induction tags generalizing compiler with
  | nil => cases hlast
  | cons tag tags ih =>
    rw [map_cons, buildActions, compileTags]
    cases htag : compiler.compile tag with
    | error raised => rfl
    | ok next =>
      cases tags with
      | nil =>
        cases hlast
        rfl
      | cons tag' tags => exact ih (by rwa [getLast?_cons_cons] at hlast)

theorem parsed_of_buildActions {parsed : List (Except Text TagSyntax)}
    (h : buildActions compiler parsed = .ok compiler') : ∃ tags : List TagSyntax, parsed = tags.map .ok := by
  induction parsed generalizing compiler with
  | nil => exact ⟨[], rfl⟩
  | cons tag parsed ih =>
    cases tag with
    | error raised => cases h
    | ok tag =>
      rw [buildActions] at h
      cases htag : compiler.compile tag with
      | error raised => simp [htag] at h
      | ok next =>
        rw [htag] at h
        cases parsed with
        | nil => exact ⟨[tag], rfl⟩
        | cons tag' parsed =>
          obtain ⟨tags, htags⟩ := ih h
          exact ⟨tag :: tags, by rw [htags, map_cons]⟩

end ActionCompiler

open ActionCompiler

/-- **A template with a structure is accepted**, as far as it has some tag, and its actions are laid out
accordingly. -/
theorem compile_of_isStructure {spec : Text} {block : Block} (h : Block.IsStructure spec block)
    (htag : parse spec ≠ []) : ∃ actions, compile spec = .ok actions ∧ Block.Layout 0 block actions := by
  obtain ⟨tags, hparse, hspells, hfinal⟩ := h
  obtain ⟨last, hlast⟩ : ∃ last, tags.getLast? = some last := by
    cases hget : tags.getLast? with
    | none =>
      rw [getLast?_eq_none_iff] at hget
      rw [hparse, hget] at htag
      exact absurd rfl htag
    | some last => exact ⟨last, rfl⟩
  obtain ⟨code, hlayout, hcode⟩ := compile_block hspells [] []
  have hend : block.last = last.tail := by
    rw [hfinal, hlast]
    rfl
  refine ⟨code ++ [⟨.TEXT, block.last, 0⟩], ?_, hlayout⟩
  have hbuild : buildActions ⟨[], []⟩ (parse spec)
      = .ok ⟨[], code ++ [⟨.TEXT, block.last, 0⟩]⟩ := by
    rw [hparse, buildActions_eq hlast, hcode, hend]
    rfl
  rw [compile, hbuild]
  simp

/-- Every accepted template has a structure, and some tag. -/
theorem isStructure_of_compile {spec : Text} (h : compile spec = .ok actions) :
    parse spec ≠ [] ∧ ∃ block, Block.IsStructure spec block := by
  rw [compile] at h
  cases hbuild : buildActions ⟨[], []⟩ (parse spec) with
  | error raised => simp [hbuild] at h
  | ok compiler =>
    obtain ⟨tags, hparse⟩ := parsed_of_buildActions hbuild
    have htag : parse spec ≠ [] := by
      intro hnil
      rw [hnil] at h
      cases h
    refine ⟨htag, ?_⟩
    obtain ⟨last, hlast⟩ : ∃ last, tags.getLast? = some last := by
      cases hget : tags.getLast? with
      | none =>
        rw [getLast?_eq_none_iff] at hget
        rw [hparse, hget] at htag
        exact absurd rfl htag
      | some last => exact ⟨last, rfl⟩
    rw [hparse, buildActions_eq hlast] at hbuild
    cases htags : compileTags ⟨[], []⟩ tags with
    | error raised =>
      rw [htags] at hbuild
      cases hbuild
    | ok compiler' =>
      have hclosed : compiler'.scope_ = [] := by
        by_contra hopen
        rw [htags] at hbuild
        simp [Except.bind, add, hopen] at hbuild
      obtain ⟨block, inner, rest, rfl, hspells, hrest⟩ :=
        startsWithBlock last.tail _ (Nat.le_refl _) htags hclosed
      rcases hrest with ⟨rfl, hfinal⟩ | ⟨tag, more, rfl, hend, -⟩
      · refine ⟨block, inner, by rw [hparse, append_nil], hspells, ?_⟩
        rw [append_nil] at hlast
        rw [hlast, hfinal]
        rfl
      · obtain ⟨code, -, hcode⟩ := compile_block hspells [] []
        rw [compileTags_append hcode] at htags
        obtain ⟨next, htag, -⟩ := compile_of_compileTags htags
        exact absurd hend (not_isEnd_of_compile htag)

/-! ## Refinement -/

/-- **The template engine renders the structure**: accepted are those templates which have some tag, and
where all tags are properly nested and have keys; and for any data, the rendering of an accepted template
terminates with the text given by recursion on the structure, and with no data context left open. -/
theorem renders_structure (spec : Text) :
    ((∃ actions, compile spec = .ok actions) ↔
      parse spec ≠ [] ∧ ∃ block, Block.IsStructure spec block) ∧
    ∀ block actions, Block.IsStructure spec block → compile spec = .ok actions → ∀ data : MapS,
      ∃ n, ∀ fuel ≥ n, render actions fuel (⟨data, []⟩ : MapSource)
        = some (block.render (⟨data, []⟩ : MapSource), ⟨⟨data, []⟩, actions.length, []⟩) := by
  refine ⟨⟨fun ⟨actions, h⟩ => isStructure_of_compile h, fun ⟨htag, block, hblock⟩ => ?_⟩, ?_⟩
  · obtain ⟨actions, hcompile, -⟩ := compile_of_isStructure hblock htag
    exact ⟨actions, hcompile⟩
  · intro block actions hblock hcompile data
    obtain ⟨htag, -⟩ := isStructure_of_compile hcompile
    obtain ⟨actions', hcompile', hlayout⟩ := compile_of_isStructure hblock htag
    rw [hcompile] at hcompile'
    obtain rfl := Except.ok.inj hcompile'
    exact render_of_layout hlayout _

/-! ## Nested contexts -/

/-- Data where all the enclosing contexts remain visible, each one shadowing the outer ones. -/
structure ScopedSource where
  data_ : MapS
  scopes_ : List Text := []

namespace ScopedSource

/-- Look up a key in the innermost context where it is known. -/
def find (src : ScopedSource) (key : Text) : Option Text :=
  (src.scopes_.findSome? fun decoration => src.data_ (decoration ++ key)) <|> src.data_ key

instance : DataSource ScopedSource Text where
  contains src key := (src.find key).isSome
  retrieveContent src key := (src.find key).getD []
  getSequence src key := ((src.find key).map (iterNestedKeys key)).getD []
  openContext src decoration :=
    { src with scopes_ := (src.scopes_.head?.getD [] ++ decoration) :: src.scopes_ }

end ScopedSource

/-- Two nested loops, with a placeholder inside. -/
def nestedLoops : Text := "$\x7bfor x\x7d$\x7bfor y\x7d$\x7bk\x7d$\x7bend for\x7d$\x7bend for\x7d".toList

def nestedLoopsBlock : Block :=
  .bracket .FOR [] ['x'] (.bracket .FOR [] ['y'] (.placeholder [] ['k'] (.done [])) (.done [])) (.done [])

theorem nestedLoops_isStructure : Block.IsStructure nestedLoops nestedLoopsBlock := by
  have hinner := Block.Spells.placeholder [] (nestedLoops.drop 20) ['k'] (by decide) (.done [])
  have hmiddle := Block.Spells.bracket .FOR [] (nestedLoops.drop 16) ['y'] (nestedLoops.drop 30) []
    (by decide) (.inl rfl) hinner (.done [])
  have houter := Block.Spells.bracket .FOR [] (nestedLoops.drop 8) ['x'] [] [] (by decide) (.inl rfl)
    hmiddle (.done [])
  exact ⟨_, rfl, houter, rfl⟩

theorem nestedLoops_tags : parse nestedLoops ≠ [] := by
  have hlen : (parse nestedLoops).length = 5 := rfl
  exact ne_nil_of_length_eq_add_one hlen

/-- Data for these loops. -/
def nestedData (binding : List (String × String)) : MapS := fun key =>
  (binding.find? fun entry => entry.1.toList == key).map fun entry => entry.2.toList

/-- The inner loop is rendered with the data of its own elements, or else the data given as-is. -/
theorem renders_structure_nested : ∃ actions, compile nestedLoops = .ok actions ∧
    ∃ n, ∀ fuel ≥ n, (render actions fuel (⟨nestedData [("x", "1,2"), ("y", "q"), ("x.1.y.q.k", "A"),
      ("k", "B")], []⟩ : MapSource)).map Prod.fst = some "AB".toList := by
  obtain ⟨hiff, hrenders⟩ := renders_structure nestedLoops
  obtain ⟨actions, hcompile⟩ := hiff.mpr ⟨nestedLoops_tags, _, nestedLoops_isStructure⟩
  obtain ⟨n, hn⟩ := hrenders _ _ nestedLoops_isStructure hcompile
    (nestedData [("x", "1,2"), ("y", "q"), ("x.1.y.q.k", "A"), ("k", "B")])
  refine ⟨actions, hcompile, n, fun fuel hfuel => ?_⟩
  rw [hn fuel hfuel]
  rfl

/-- **What the template engine does not do**: accept a text without any tag; show the data of all the
enclosing loops; visit the single element of a list when its name is a token for false. -/
theorem not_renders_scoped :
    (¬ ∀ spec, (∃ actions, compile spec = .ok actions) ↔ ∃ block, Block.IsStructure spec block) ∧
    (¬ ∀ spec block actions data, Block.IsStructure spec block → compile spec = .ok actions →
      ∃ n, ∀ fuel ≥ n, (render actions fuel (⟨data, []⟩ : MapSource)).map Prod.fst
        = some (block.render (⟨data, []⟩ : ScopedSource))) ∧
    ¬ ∀ (src : MapSource) lead key content rest, (Block.bracket .FOR lead key content rest).render src
      = lead ++ ((DataSource.getSequence src key).flatMap fun elm =>
          content.render (DataSource.openContext src elm)) ++ rest.render src := by
  refine ⟨fun hclaim => ?_, fun hclaim => ?_, fun hclaim => ?_⟩
  · have hplain : Block.IsStructure "hello".toList (.done "hello".toList) := ⟨[], rfl, .done _, rfl⟩
    obtain ⟨actions, hcompile⟩ := (hclaim "hello".toList).mpr ⟨_, hplain⟩
    obtain ⟨htag, -⟩ := isStructure_of_compile hcompile
    exact htag rfl
  · obtain ⟨actions, hcompile, hlayout⟩ :=
      compile_of_isStructure nestedLoops_isStructure nestedLoops_tags
    obtain ⟨n, hn⟩ := hclaim _ _ _ (nestedData [("x", "1"), ("y", "2"), ("x.1.k", "A")])
      nestedLoops_isStructure hcompile
    obtain ⟨n', hn'⟩ := render_of_layout hlayout
      (⟨nestedData [("x", "1"), ("y", "2"), ("x.1.k", "A")], []⟩ : MapSource)
    have hscoped := hn (max n n') (Nat.le_max_left n n')
    rw [hn' _ (Nat.le_max_right n n')] at hscoped
    cases hscoped
  · have hzero := hclaim ⟨nestedData [("x", "0")], []⟩ [] ['x'] (.done ['A']) (.done [])
    cases hzero

end Lumiera.Lib.TextTemplate
