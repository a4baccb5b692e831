import Lumiera.Base.Machine

/-! # Text template engine (`lib/text-template.hpp`)

A template text with tags `${key}`, `${if key} .. ${else} .. ${end if}` and
`${for key} .. ${else} .. ${end for}` is parsed by a regular expression, and compiled into a sequence
of actions, with indices to jump to. Instantiation then processes these actions, with data retrieved
from a data source, and a stack of data contexts suspended while in a loop.

Characters stand for bytes. -/

namespace Lumiera.Lib.TextTemplate

/-- `string` and `string_view`. -/
abbrev Text := List Char

/-! ## Matching the markup -/

/-- `\s` -/
def isSpace (c : Char) : Bool :=
  c ∈ [' ', '\t', '\n', '\x0b', '\x0c', '\r']

/-- A character within a key path: `\w` or the dot. -/
def isKeyChar (c : Char) : Bool := c.isAlphanum || c == '_' || c == '.'

def skipSpace (s : Text) : Text := s.dropWhile isSpace

/-- The text after a token, when it starts with this token. -/
def afterToken (token : String) (s : Text) : Option Text :=
  if token.toList.isPrefixOf s then some (s.drop token.toList.length) else none

/-- `[A-Za-z_]+\w*(?:\.[A-Za-z_]+\w*)*` for the whole of this text. -/
def isKeyPath (s : Text) : Bool :=
  (s.splitOn '.').all fun single => single.head?.any fun c => c.isAlpha || c == '_'

/-- `std::smatch` for the markup: the sub-matches, the `length()` and the `suffix()`. -/
structure SMatch where
  escape : Bool
  else_ : Bool
  end_ : Bool
  logic : Option Text
  key : Option Text
  length : Nat
  suffix : Text
  deriving DecidableEq, Repr

/-- `\}` after space. -/
def matchClose (s : Text) : Option Text :=
  match skipSpace s with
  | '\x7d' :: suffix => some suffix
  | _ => none

/-- An optional key path, and the end of the field. Characters of a key path can not be followed by
space or bracket unless all of them are matched. -/
def matchKey (s : Text) : Option (Option Text × Text) :=
  let path := s.takeWhile isKeyChar
  if path = [] ∨ isKeyPath path then
    (matchClose (s.dropWhile isKeyChar)).map fun suffix =>
      (if path = [] then none else some path, suffix)
  else none

/-- `(if|for)\s*` -/
def matchLogicToken (s : Text) : Option (Text × Text) :=
  ((afterToken "if" s).map fun s => ("if".toList, skipSpace s)) <|>
    (afterToken "for" s).map fun s => ("for".toList, skipSpace s)

/-- `(end\s*)?(if|for)\s*` -/
def matchLogic (s : Text) : Option (Bool × Text × Text) :=
  ((afterToken "end" s).bind fun s => (matchLogicToken (skipSpace s)).map fun m => (true, m)) <|>
    (matchLogicToken s).map fun m => (false, m)

/-- `MATCH_FIELD`, as far as possible with a preceding alternative. -/
def matchField (s : Text) : Option SMatch :=
  (afterToken "$\x7b" s).bind fun field =>
    let field := skipSpace field
    ((afterToken "else" field).bind matchClose).map
        (fun suffix => ⟨false, true, false, none, none, s.length - suffix.length, suffix⟩) <|>
      ((matchLogic field).bind fun (end_, logic, rest) => (matchKey rest).map fun (key, suffix) =>
        ⟨false, false, end_, some logic, key, s.length - suffix.length, suffix⟩) <|>
      (matchKey field).map fun (key, suffix) =>
        ⟨false, false, false, none, key, s.length - suffix.length, suffix⟩

/-- `ACCEPT_MARKUP` at the start of this text. -/
def matchMarkup (s : Text) : Option SMatch :=
  ((afterToken "\x5c$" s).map fun suffix => ⟨true, false, false, none, none, 2, suffix⟩) <|>
    matchField s

/-- Search the leftmost match. -/
def search : Text → Option SMatch
  | [] => none
  | c :: s => matchMarkup (c :: s) <|> search s

/-- `RegexSearchIter`: all matches, one after the other, each of which takes some characters. -/
def searchIter : Nat → Text → List SMatch
  | 0, _ => []
  | fuel + 1, s =>
    match search s with
    | none => []
    | some mat => mat :: searchIter fuel mat.suffix

/-! ## Tags -/

inductive Keyword
  | ESCAPE
  | KEYID
  | IF
  | END_IF
  | FOR
  | END_FOR
  | ELSE
  deriving DecidableEq, Repr

/-- A tag, with the static text in front of it, and all the text behind. -/
structure TagSyntax where
  keyword : Keyword
  lead : Text
  tail : Text
  key : Text
  deriving DecidableEq, Repr

/-- The keyword of an active field. -/
def classifyField (mat : SMatch) (lead : Text) : Except Text Keyword :=
  match mat.logic with
  | some logic =>
    if logic = "if".toList then .ok (if mat.end_ then .END_IF else .IF)
    else if logic = "for".toList then .ok (if mat.end_ then .END_FOR else .FOR)
    else .error ("unexpected keyword \"".toList ++ logic ++ "\"".toList)
  | none =>
    if mat.else_ then .ok .ELSE
    else if mat.key = some "end".toList then
      .error ("unqualified \"end\" without logic-keyword: ...".toList ++ lead
        ++ "$\x7bend |↯|\x7d".toList)
    else .ok .KEYID

/-- Classify a match, with the `rest` of the text not yet consumed, where escapes are stripped. -/
def classify (rest : Text) (mat : SMatch) : Except Text TagSyntax :=
  let restAhead := mat.length + mat.suffix.length
  let lead := rest.take (rest.length - restAhead)
  let rest := rest.drop lead.length
  let key := mat.key.getD []
  if mat.escape then .ok ⟨.ESCAPE, lead, rest.drop 1, key⟩
  else (classifyField mat lead).map fun keyword => ⟨keyword, lead, rest.drop mat.length, key⟩

/-- Classify all matches in turn; an exception ends the sequence. -/
def classifyAll : Text → List SMatch → List (Except Text TagSyntax)
  | _, [] => []
  | rest, mat :: mats =>
    match classify rest mat with
    | .error raised => [.error raised]
    | .ok tag => .ok tag :: classifyAll tag.tail mats

/-- **`parse`**: the tags of a template, one for each match. -/
def parse (input : Text) : List (Except Text TagSyntax) :=
  classifyAll input (searchIter input.length input)

/-! ## Actions -/

inductive Clause
  | IF
  | FOR
  deriving DecidableEq, Repr

inductive Code
  | TEXT
  | KEY
  | COND
  | JUMP
  | ITER
  | LOOP
  deriving DecidableEq, Repr

/-- An action token, possibly with a reference to another one, by index. -/
structure Action where
  code : Code
  val : Text
  refIDX : Nat
  deriving DecidableEq, Repr

/-- A logic clause which is still open: the indices of its opening action, and of the jump in front of
its else-branch (zero if there is none). -/
structure ParseCtx where
  clause : Clause
  begin : Nat
  after : Nat
  deriving DecidableEq, Repr

/-- The parser pipeline, together with the actions emitted so far. -/
structure ActionCompiler where
  scope_ : List ParseCtx
  actions : List Action
  deriving DecidableEq, Repr

namespace ActionCompiler

variable (compiler : ActionCompiler) (tag : TagSyntax)

def currIDX : Nat := compiler.actions.length

def clause : Clause → Text
  | .IF => "if".toList
  | .FOR => "for".toList

def scopeClause : Text :=
  match compiler.scope_ with
  | [] => "??".toList
  | top :: _ => clause top.clause

/-- Index of the action where the scope was opened. -/
def beginIdx : Nat :=
  match compiler.scope_ with
  | [] => 0
  | top :: _ => top.begin

/-- Index of the jump before the else-branch. -/
def afterIdx : Nat :=
  match compiler.scope_ with
  | [] => 0
  | top :: _ => top.after

/-- Key controlling the scope. -/
def scopeKey : Text :=
  if 0 < compiler.beginIdx then (compiler.actions[compiler.beginIdx]?.map Action.val).getD [] else []

/-- Key matches in opening and closing tag. -/
def keyMatch : Bool := tag.key = [] ∨ tag.key = compiler.scopeKey

/-- Kind of closing tag matches innermost scope. -/
def clauseMatch (clause : Clause) : Bool := compiler.scope_.head?.any (·.clause == clause)

def scopeMatch (clause : Clause) : Bool := compiler.clauseMatch clause && compiler.keyMatch tag

def hasElse : Bool := compiler.afterIdx ≠ 0

/-- Shorten the lead to 15 characters. -/
def abbrev_ (s : Text) : Text := if s.length < 16 then s else s.drop (s.length - 15)

def tagWithoutKey (descr : String) : Text :=
  "Tag without key: ...".toList ++ abbrev_ tag.lead ++ "$\x7b".toList ++ descr.toList
    ++ " |↯|\x7d".toList

def unbalanced (found : Clause) : Text :=
  "Unbalanced Logic: expect $\x7bend ".toList ++ compiler.scopeClause ++ " ".toList
    ++ compiler.scopeKey ++ "\x7d -- found ...".toList ++ abbrev_ tag.lead
    ++ "$\x7bend |↯|".toList ++ clause found ++ " ".toList ++ tag.key ++ "\x7d".toList

def misplaced : Text :=
  "Misplaced ...".toList ++ abbrev_ tag.lead ++ "|↯|$\x7belse\x7d".toList

def conflicting : Text :=
  let clashLead := (compiler.actions[compiler.afterIdx - 1]?.map Action.val).getD []
  "Conflicting ...".toList ++ abbrev_ clashLead ++ "$\x7belse\x7d ⟷ ...".toList
    ++ abbrev_ tag.lead ++ "|↯|$\x7belse\x7d".toList

def unclosed : Text :=
  "Unclosed Logic tags: |↯|$\x7bend ".toList ++ compiler.scopeClause ++ " ".toList
    ++ compiler.scopeKey ++ "\x7d missing".toList

/-! Primitives used for code generation -/

def add (code : Code) (val : Text) : ActionCompiler :=
  { compiler with actions := compiler.actions ++ [⟨code, val, 0⟩] }

def addCode (code : Code) : ActionCompiler := compiler.add code tag.key

def addLead : ActionCompiler := compiler.add .TEXT tag.lead

def openScope (clause : Clause) : ActionCompiler :=
  { compiler with scope_ := ⟨clause, compiler.currIDX, 0⟩ :: compiler.scope_ }

def closeScope : ActionCompiler := { compiler with scope_ := compiler.scope_.tail }

/-- Set the reference index of an action. -/
def link (idx refIDX : Nat) : ActionCompiler :=
  { compiler with actions := compiler.actions.modify idx fun action => { action with refIDX := refIDX } }

/-- Link the start position of the else-branch into the opening logic code. -/
def linkElseToStart : ActionCompiler := compiler.link compiler.beginIdx compiler.currIDX

/-- Memorise the jump before the else-branch for later linkage. -/
def markJumpInScope : ActionCompiler :=
  { compiler with scope_ := compiler.scope_.modifyHead fun top => { top with after := compiler.currIDX } }

/-- Fill in the back-jump position at loop end. -/
def linkLoopBack : ActionCompiler := compiler.link (compiler.currIDX - 1) compiler.beginIdx

/-- Link the jump to the position after the end of the logic bracket. -/
def linkJumpToNext : ActionCompiler := compiler.link compiler.afterIdx compiler.currIDX

/-- Process a tag. -/
def compile : Except Text ActionCompiler :=
  match tag.keyword with
  | .ESCAPE => .ok (compiler.addLead tag)
  | .KEYID =>
    if tag.key = [] then .error (tagWithoutKey tag "<placeholder>")
    else .ok ((compiler.addLead tag).addCode tag .KEY)
  | .IF =>
    if tag.key = [] then .error (tagWithoutKey tag "if <conditional>")
    else .ok (((compiler.addLead tag).openScope .IF).addCode tag .COND)
  | .END_IF =>
    let compiler := compiler.addLead tag
    if !compiler.scopeMatch tag .IF then .error (compiler.unbalanced tag .IF)
    else if compiler.hasElse then .ok compiler.linkJumpToNext.closeScope
    else .ok compiler.linkElseToStart.closeScope
  | .FOR =>
    if tag.key = [] then .error (tagWithoutKey tag "for <data-id>")
    else .ok (((compiler.addLead tag).openScope .FOR).addCode tag .ITER)
  | .END_FOR =>
    let compiler := compiler.addLead tag
    if !compiler.scopeMatch tag .FOR then .error (compiler.unbalanced tag .FOR)
    else if compiler.hasElse then .ok compiler.linkJumpToNext.closeScope
    -- no else-branch; end the active loop here
    else .ok ((compiler.addCode tag .LOOP).linkLoopBack.linkElseToStart).closeScope
  | .ELSE =>
    let compiler := compiler.addLead tag
    if compiler.scope_ = [] then .error (misplaced tag)
    else if compiler.hasElse then .error (compiler.conflicting tag)
    else if compiler.clauseMatch .IF then
      .ok (compiler.markJumpInScope.addCode tag .JUMP).linkElseToStart
    else
      .ok (((compiler.addCode tag .LOOP).linkLoopBack.markJumpInScope).addCode tag .JUMP).linkElseToStart

/-- Process all tags, and finally the text after the last one. -/
def buildActions (compiler : ActionCompiler) :
    List (Except Text TagSyntax) → Except Text ActionCompiler
  | [] => .ok compiler
  | .error raised :: _ => .error raised
  | .ok tag :: rest =>
    match compiler.compile tag with
    | .error raised => .error raised
    | .ok compiler =>
      match rest with
      | [] =>
        let compiler := compiler.add .TEXT tag.tail
        if compiler.scope_ ≠ [] then .error compiler.unclosed else .ok compiler
      | rest => buildActions compiler rest

end ActionCompiler

/-- **`compile`** a template, which is required to have some tag. -/
def compile (spec : Text) : Except Text (List Action) :=
  match ActionCompiler.buildActions ⟨[], []⟩ (parse spec) with
  | .error raised => .error raised
  | .ok compiler =>
    if compiler.actions = [] then .error "TextTemplate spec without active placeholders.".toList
    else .ok compiler.actions

/-! ## Data binding -/

/-- **The data access protocol**: contents retrieved by key, and sequences of elements, each of which
can be opened as a nested data context. -/
class DataSource (SRC : Type) (Elm : outParam Type) where
  contains : SRC → Text → Bool
  retrieveContent : SRC → Text → Text
  getSequence : SRC → Text → List Elm
  openContext : SRC → Elm → SRC

/-- `std::map<string,string>` -/
abbrev MapS := Text → Option Text

/-- `[^,;"\s]` -/
def isDataChar (c : Char) : Bool := !(c ∈ [',', ';', '\x22']) && !isSpace c

def isDelimiter (c : Char) : Bool := c ∈ [',', ';']

/-- The data tokens: one at the start, and one after each delimiter, up to the first character which
does not belong to it. -/
def dataTokens : Nat → Text → List Text
  | 0, _ => []
  | fuel + 1, s =>
    let s := skipSpace s
    s.takeWhile isDataChar ::
      match s.dropWhile fun c => !isDelimiter c with
      | [] => []
      | _ :: s => dataTokens fuel s

/-- The key decoration for each element of the list given as value. -/
def iterNestedKeys (key iterDef : Text) : List Text :=
  (dataTokens (iterDef.length + 1) iterDef).map fun elm => key ++ ".".toList ++ elm ++ ".".toList

/-- **Data binding for a map of strings.** In a nested context, each lookup is first tried with the
decoration, and then with the key as-is. -/
structure MapSource where
  data_ : MapS
  keyPrefix_ : Text := []

namespace MapSource

variable (src : MapSource)

def isSubScope : Bool := src.keyPrefix_ ≠ []

def contains (key : Text) : Bool :=
  (src.isSubScope && (src.data_ (src.keyPrefix_ ++ key)).isSome) || (src.data_ key).isSome

/-- The content, which is required to exist. -/
def retrieveContent (key : Text) : Text :=
  let elm :=
    if src.isSubScope then (src.data_ (src.keyPrefix_ ++ key)) <|> src.data_ key else src.data_ key
  elm.getD []

def getSequence (key : Text) : List Text :=
  if !src.contains key then [] else iterNestedKeys key (src.retrieveContent key)

def openContext (decoration : Text) : MapSource :=
  { src with keyPrefix_ := src.keyPrefix_ ++ decoration }

instance : DataSource MapSource Text where
  contains := contains
  retrieveContent := retrieveContent
  getSequence := getSequence
  openContext := openContext

end MapSource

/-! ## Instantiation -/

/-- `util::isNo`: nothing, or one of the tokens for `false`, in any case. -/
def isNo (textForm : Text) : Bool :=
  let trimmed := (skipSpace (skipSpace textForm).reverse).reverse
  textForm = [] ∨ (trimmed.map Char.toLower) ∈
    ["false".toList, "no".toList, "off".toList, "0".toList, "-".toList]

section Instantiation

variable {SRC Elm : Type} [DataSource SRC Elm]

/-- Retrieve a data value from the data source. -/
def getContent (src : SRC) (key : Text) : Text :=
  if DataSource.contains src key then DataSource.retrieveContent src key else []

/-- Retrieve a data value and interpret it as boolean expression. -/
def conditional (src : SRC) (key : Text) : Bool := !isNo (getContent src key)

/-- **The state of instantiation**: the data source for the current context, the index of the current
action, and a stack of the contexts suspended, each with the data elements still to be visited. -/
structure InstanceCore (SRC Elm : Type) where
  dataSrc_ : SRC
  actionIter_ : Nat
  ctxStack_ : List (List Elm × SRC)

namespace InstanceCore

variable (core : InstanceCore SRC Elm)

/-- Step down into the innermost data item; there is none when no iteration is open, or at its end. -/
def focusNested : Option (InstanceCore SRC Elm) :=
  match core.ctxStack_ with
  | (currentDataItem :: _, parentDataSrc) :: _ =>
    some { core with dataSrc_ := DataSource.openContext parentDataSrc currentDataItem }
  | _ => none

/-- Attempt to open a data sequence. -/
def openIteration (key : Text) : Option (Bool × InstanceCore SRC Elm) :=
  if conditional core.dataSrc_ key then
    match DataSource.getSequence core.dataSrc_ key with
    | [] => some (false, core)
    | dataIter =>
      (focusNested { core with ctxStack_ := (dataIter, core.dataSrc_) :: core.ctxStack_ }).map
        fun core => (true, core)
  else some (false, core)

/-- Possibly continue the iteration, or else reinstate the enclosing context. -/
def loopFurther : Option (Bool × InstanceCore SRC Elm) :=
  match core.ctxStack_ with
  | (_ :: [], src) :: rest => some (false, { core with dataSrc_ := src, ctxStack_ := rest })
  | (_ :: dataIter, src) :: rest =>
    (focusNested { core with ctxStack_ := (dataIter, src) :: rest }).map fun core => (true, core)
  | _ => none

/-- Go to another action token: the next one, if not given by index. The index is required to be
valid. -/
def relocate (size : Nat) : Option Nat → Option (InstanceCore SRC Elm)
  | none => some { core with actionIter_ := core.actionIter_ + 1 }
  | some nextCode => if nextCode < size then some { core with actionIter_ := nextCode } else none

end InstanceCore

/-- What follows from interpreting an action: some rendered text, or the instantiation is continued at
another action. -/
inductive Outcome
  | rendered (value : Text)
  | reInstantiate (nextCode : Option Nat)

/-- Interpret an action token. -/
def Action.instantiate (action : Action) (core : InstanceCore SRC Elm) :
    Option (Outcome × InstanceCore SRC Elm) :=
  match action.code with
  | .TEXT => some (.rendered action.val, core)
  | .KEY => some (.rendered (getContent core.dataSrc_ action.val), core)
  | .COND =>
    some (.reInstantiate (if conditional core.dataSrc_ action.val then none else some action.refIDX),
      core)
  | .JUMP => some (.reInstantiate (some action.refIDX), core)
  | .ITER =>
    (core.openIteration action.val).map fun (opened, core) =>
      (.reInstantiate (if opened then none else some action.refIDX), core)
  | .LOOP =>
    core.loopFurther.map fun (further, core) =>
      (.reInstantiate (if further then some (action.refIDX + 1) else none), core)

/-- Instantiate the next action, until there is some rendering; nothing is rendered at the end of the
actions. -/
def instantiateNext (actions : List Action) :
    Nat → InstanceCore SRC Elm → Option (Text × InstanceCore SRC Elm)
  | 0, _ => none
  | fuel + 1, core =>
    match actions[core.actionIter_]? with
    | none => some ([], core)
    | some action =>
      match action.instantiate core with
      | none => none
      | some (.rendered value, core) => some (value, core)
      | some (.reInstantiate nextCode, core) =>
        (core.relocate actions.length nextCode).bind (instantiateNext actions fuel)

/-- Pull the renderings one after the other, until the actions are exhausted. -/
def submit (actions : List Action) :
    Nat → InstanceCore SRC Elm → Option (List Text × InstanceCore SRC Elm)
  | 0, _ => none
  | fuel + 1, core =>
    match instantiateNext actions fuel core with
    | none => none
    | some (rendered, core) =>
      if core.actionIter_ < actions.length then
        (submit actions fuel { core with actionIter_ := core.actionIter_ + 1 }).map
          fun (renderings, core) => (rendered :: renderings, core)
      else some ([], core)

/-- **`render`**: join the renderings into a single text. -/
def render (actions : List Action) (fuel : Nat) (src : SRC) : Option (Text × InstanceCore SRC Elm) :=
  (submit actions fuel ⟨src, 0, []⟩).map fun (renderings, core) => (renderings.flatten, core)

end Instantiation

/-! ## The structure of a text template

The abstract side of the template engine: a **block** of nested sections, the tags which spell it, the
text it renders to, by recursion on the structure, and the layout of the actions generated for it. Each
block ends with the static text in front of the closing tag, or at the end of the template. -/

/-- A block, as sequence of placeholders and nested sections, each with its static lead text. -/
inductive Block
  /-- The end of the block. -/
  | done (lead : Text)
  /-- An escaped tag, the text of which continues in the rest. -/
  | escape (lead : Text) (rest : Block)
  | placeholder (lead key : Text) (rest : Block)
  /-- A bracketing construct, to include the content conditionally, or for each data element. -/
  | bracket (clause : Clause) (lead key : Text) (content rest : Block)
  /-- Likewise, with an else-branch. -/
  | bracketElse (clause : Clause) (lead key : Text) (content alternative rest : Block)
  deriving DecidableEq, Repr

namespace Block

/-- The static text at the end of the block. -/
def last : Block → Text
  | done lead => lead
  | escape _ rest => rest.last
  | placeholder _ _ rest => rest.last
  | bracket _ _ _ _ rest => rest.last
  | bracketElse _ _ _ _ _ rest => rest.last

/-! ## Meaning -/

section Meaning

variable {SRC Elm : Type} [DataSource SRC Elm]

/-- The data elements designated by a key; there are none when the key is missing, or its value is empty
or false. -/
def elements (src : SRC) (key : Text) : List Elm :=
  if conditional src key then DataSource.getSequence src key else []

/-- **The text rendered**, by recursion on the structure. -/
def render (src : SRC) : Block → Text
  | done lead => lead
  | escape lead rest => lead ++ rest.render src
  | placeholder lead key rest => lead ++ getContent src key ++ rest.render src
  | bracket .IF lead key content rest =>
    lead ++ (if conditional src key then content.render src else []) ++ rest.render src
  | bracket .FOR lead key content rest =>
    lead ++ ((elements src key).flatMap fun elm => content.render (DataSource.openContext src elm))
      ++ rest.render src
  | bracketElse .IF lead key content alternative rest =>
    lead ++ (if conditional src key then content.render src else alternative.render src)
      ++ rest.render src
  | bracketElse .FOR lead key content alternative rest =>
    lead ++ (if (elements src key).isEmpty then alternative.render src
        else (elements src key).flatMap fun elm => content.render (DataSource.openContext src elm))
      ++ rest.render src

end Meaning

/-! ## Tags -/

/-- The keyword to open a clause. -/
def opening : Clause → Keyword
  | .IF => .IF
  | .FOR => .FOR

/-- The keyword to close it. -/
def closing : Clause → Keyword
  | .IF => .END_IF
  | .FOR => .END_FOR

/-- **The tags which spell a block**: a bracketing construct is closed by a tag of the same kind, which
may repeat the key. The tag closing the block itself is not included. -/
inductive Spells : List TagSyntax → Block → Prop
  | done (lead : Text) : Spells [] (.done lead)
  | escape {tags : List TagSyntax} {rest : Block} (lead tail key : Text) :
      Spells tags rest → Spells (⟨.ESCAPE, lead, tail, key⟩ :: tags) (.escape lead rest)
  | placeholder {tags : List TagSyntax} {rest : Block} (lead tail key : Text) (hkey : key ≠ []) :
      Spells tags rest → Spells (⟨.KEYID, lead, tail, key⟩ :: tags) (.placeholder lead key rest)
  | bracket {inner tags : List TagSyntax} {content rest : Block} (clause : Clause)
      (lead tail key tail' key' : Text) (hkey : key ≠ []) (hclose : key' = [] ∨ key' = key) :
      Spells inner content → Spells tags rest →
      Spells (⟨opening clause, lead, tail, key⟩ :: (inner ++
          ⟨closing clause, content.last, tail', key'⟩ :: tags))
        (.bracket clause lead key content rest)
  | bracketElse {inner other tags : List TagSyntax} {content alternative rest : Block}
      (clause : Clause) (lead tail key tail₁ key₁ tail' key' : Text) (hkey : key ≠ [])
      (hclose : key' = [] ∨ key' = key) :
      Spells inner content → Spells other alternative → Spells tags rest →
      Spells (⟨opening clause, lead, tail, key⟩ :: (inner ++ ⟨.ELSE, content.last, tail₁, key₁⟩ ::
          (other ++ ⟨closing clause, alternative.last, tail', key'⟩ :: tags)))
        (.bracketElse clause lead key content alternative rest)

/-- **A template with this structure**: its tags are properly nested and have keys, and its last text is
what remains after the last tag. -/
def IsStructure (spec : Text) (block : Block) : Prop :=
  ∃ tags, parse spec = tags.map .ok ∧ Spells tags block ∧
    block.last = (tags.getLast?.map TagSyntax.tail).getD spec

/-! ## Actions -/

/-- The action at the start of a bracketing construct. -/
def openCode : Clause → Code
  | .IF => .COND
  | .FOR => .ITER

/-- The action at the end of its content: only a loop is linked back to the start. -/
def endCode (clause : Clause) (val : Text) (begin : Nat) : List Action :=
  match clause with
  | .IF => []
  | .FOR => [⟨.LOOP, val, begin⟩]

/-- **The layout of the actions** generated for a block, when the first of them is at this index. Any
values of the jump and loop actions are not used. -/
inductive Layout : Nat → Block → List Action → Prop
  | done {i : Nat} (lead : Text) : Layout i (.done lead) [⟨.TEXT, lead, 0⟩]
  | escape {i : Nat} {rest : Block} {out : List Action} (lead : Text) :
      Layout (i + 1) rest out → Layout i (.escape lead rest) (⟨.TEXT, lead, 0⟩ :: out)
  | placeholder {i : Nat} {rest : Block} {out : List Action} (lead key : Text) :
      Layout (i + 2) rest out →
      Layout i (.placeholder lead key rest) (⟨.TEXT, lead, 0⟩ :: ⟨.KEY, key, 0⟩ :: out)
  | bracket {i m : Nat} {content rest : Block} {inner out : List Action} (clause : Clause)
      (lead key val : Text) (hm : m = i + 2 + inner.length + (endCode clause val (i + 1)).length) :
      Layout (i + 2) content inner → Layout m rest out →
      Layout i (.bracket clause lead key content rest)
        (⟨.TEXT, lead, 0⟩ :: ⟨openCode clause, key, m⟩ ::
          (inner ++ (endCode clause val (i + 1) ++ out)))
  | bracketElse {i j m : Nat} {content alternative rest : Block} {inner other out : List Action}
      (clause : Clause) (lead key val val' : Text)
      (hj : j = i + 2 + inner.length + (endCode clause val (i + 1)).length)
      (hm : m = j + 1 + other.length) :
      Layout (i + 2) content inner → Layout (j + 1) alternative other → Layout m rest out →
      Layout i (.bracketElse clause lead key content alternative rest)
        (⟨.TEXT, lead, 0⟩ :: ⟨openCode clause, key, j + 1⟩ ::
          (inner ++ (endCode clause val (i + 1) ++ ⟨.JUMP, val', m⟩ :: (other ++ out))))

theorem Layout.length_pos {i : Nat} {block : Block} {out : List Action} (h : Layout i block out) :
    0 < out.length := by
  cases h <;> simp

end Block

end Lumiera.Lib.TextTemplate
