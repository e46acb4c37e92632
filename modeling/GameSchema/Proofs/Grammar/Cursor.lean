import GameSchema.Grammar.File
import Mathlib

/-!
# The grammar on a cursor

The rules of the grammar as loops over a cursor, an index into the list of tokens. Every token is
looked up by its index, nothing keeps the cursor inside the list, and nothing bounds the loops:
`none` stands for a look-up outside the list and for a loop without end. That neither happens, and
that these rules read what the rules on the tokens left read, has to be proved.
-/

namespace GameSchema

/-- The tokens that a cursor moves over. -/
abbrev Cursor := List Token

namespace Cursor
open Grammar

/-- A rule that moves a cursor and adds to a draft. It fails with a diagnostic, and it can come to
no result at all. -/
abbrev Rule (α : Type) := ExceptT Diagnostic (StateT (Draft × Nat) Option) α

section Tokens

variable (v : Cursor)

def place : Rule Nat := do return (← get).2

def moveTo (i : Nat) : Rule Unit := modify fun s => (s.1, i)

def edit (f : Draft → Draft) : Rule Unit := modify fun s => (f s.1, s.2)

/-- An addition to the draft that can fail. -/
def tryEdit (f : Draft → Except Diagnostic Draft) : Rule Unit := do
  match f (← get).1 with
  | .ok d => edit fun _ => d
  | .error x => throw x

/-- Runs a rule and gives its failure as a value. -/
def attempt {α : Type} (r : Rule α) : Rule (Except Diagnostic α) := fun s => do
  let (x, s) ← r.run.run s
  some (.ok x, s)

/-- The token at an index. -/
def look (i : Nat) : Rule Token := ExceptT.lift (StateT.lift v[i]?)

/-- The token at the cursor. Beyond the last token it is the last one. -/
def peek : Rule Token := do look v (min (← place) (v.length - 1))

/-- Moves over a token, unless it is the end of the file, and gives the token before the cursor. -/
def advance : Rule Token := do
  let i ← place
  let j := if (← peek v).kind = .eof then i else i + 1
  moveTo j
  look v (j - 1)

def check (kind : TokenKind) : Rule Bool := do return (← peek v).kind == kind

/-- Whether the token at the cursor is one of a kind and not the end of the file. -/
def sees (kind : TokenKind) : Rule Bool := do
  return (← check v kind) && !(← check v .eof)

def matchToken (kind : TokenKind) : Rule Bool := do
  if ← sees v kind then
    let _ ← advance v
    return true
  else return false

def failHere {α : Type} (wanted : Expectation) (inBlock : Bool) : Rule α := do
  throw (.parse wanted (← peek v) inBlock)

def consume (kind : TokenKind) (wanted : Expectation) (inBlock : Bool) : Rule Token := do
  if ← sees v kind then advance v else failHere v wanted inBlock

def comments (v : Cursor) (found : List String) : Rule (List String) := do
  if ← check v .comment then
    let t ← advance v
    v |>.comments (found ++ [t.lexeme])
  else return found
partial_fixpoint

/-- The index of the first token from an index on that is no comment. -/
def pastComments (v : Cursor) (i : Nat) : Rule Nat := do
  if (← look v i).kind = .comment then v |>.pastComments (i + 1) else return i
partial_fixpoint

def peekPastComments : Rule Token := do look v (← pastComments v (← place))

/-- Moves over comments that stand before a closing brace or the end of the file. -/
def skipDangling : Rule Unit := do
  let i ← place
  let j ← pastComments v i
  let t ← look v j
  if j ≠ i ∧ (t.kind = .closeCurly ∨ t.kind = .eof) then moveTo j else return ()

end Tokens

section Recovery

variable (v : Cursor)

/-- Moves to the brace that opens a block and tells whether there is one: a keyword behind `start`
and the end of the file come first. -/
def findBlock (v : Cursor) (start : Nat) : Rule Bool := do
  let t ← peek v
  if t.kind = .eof then return false
  else if t.kind = .openCurly then return true
  else if t.kind.startsDeclaration ∧ start < (← place) then return false
  else
    let _ ← advance v
    v |>.findBlock start
partial_fixpoint

/-- Moves out of `depth` open blocks. -/
def leaveBlocks (v : Cursor) (depth : Nat) : Rule Unit := do
  if (← peek v).kind = .eof then return ()
  else
    match (← advance v).kind with
    | .openCurly => v |>.leaveBlocks (depth + 1)
    | .closeCurly => if depth - 1 = 0 then return () else v |>.leaveBlocks (depth - 1)
    | _ => v |>.leaveBlocks depth
partial_fixpoint

def skipBlock (inBlock : Bool) (start : Nat) : Rule Unit := do
  if inBlock then leaveBlocks v 1
  else if ← findBlock v start then leaveBlocks v 0
  else return ()

def skipItem (v : Cursor) (depth : Nat) : Rule Unit := do
  match (← peek v).kind with
  | .eof => return ()
  | .comma =>
    let _ ← advance v
    if depth = 0 then return () else v |>.skipItem depth
  | .closeCurly =>
    if depth = 0 then return ()
    else
      let _ ← advance v
      v |>.skipItem (depth - 1)
  | .openCurly =>
    let _ ← advance v
    v |>.skipItem (depth + 1)
  | .declaration k =>
    if depth = 0 ∧ k.isType = false then return ()
    else
      let _ ← advance v
      v |>.skipItem depth
  | _ =>
    let _ ← advance v
    v |>.skipItem depth
partial_fixpoint

end Recovery

section Blocks

variable (v : Cursor)

def heading (kind : DeclarationKind) (keyword : Token) (inBlock : Bool) : Rule Token := do
  if kind = .config then
    tryEdit fun d => d.declareConfig keyword
    return keyword
  else
    let name ← consume v .identifier (.identifierAfter kind) inBlock
    tryEdit fun d => d.declare kind name
    return name

def opening (kind : DeclarationKind) (keyword : Token) (inBlock : Bool) : Rule Token := do
  let name ← heading v kind keyword inBlock
  let _ ← consume v .openCurly (.blockAfter kind) inBlock
  return name

/-- What one turn of the loop over the items of a block does: the item that it adds, and the fault
or success with which it ends the block, if it does. -/
structure Turn where
  item? : Option Property
  ending? : Option (Option Diagnostic)

/-- A turn that reads an item or skips it. -/
def Turn.goOn (item? : Option Property) : Turn := ⟨item?, none⟩

/-- The end of a turn, behind an item. -/
def separation (p : Property) : Rule Turn := do
  if ← matchToken v .comma then return .goOn (some p)
  else if ← check v .closeCurly then return .goOn (some p)
  else if ← check v .eof then return .goOn (some p)
  else
    match (← peekPastComments v).kind with
    | .identifier =>
      let t ← peek v
      edit fun d => d.report (.parse .commaBetween t true)
      return .goOn (some p)
    | .closeCurly | .eof | .declaration _ => return .goOn (some p)
    | _ =>
      let t ← peek v
      return ⟨some p, some (some (.parse .commaOrEnd t true))⟩

/-- Reports the fault of a block that stands in a type and skips the rest of the block. -/
def leaveFaulty : Option Diagnostic → Rule Unit
  | none => return ()
  | some x => do
    edit fun d => d.report x
    skipBlock v x.inBlock (← place)

/-- Adds a declaration to the draft and gives its index. -/
def hoist (x : Declaration) : Rule Nat := do
  let n := (← get).1.declarations.length
  edit fun d => d.push x
  return n

mutual

def type (v : Cursor) (mark : Char) (cs : List String) : Rule PropertyType := do
  let t ← peek v
  match t.kind with
  | .scalar _ =>
    let _ ← advance v
    return .plain t none
  | .identifier =>
    let _ ← advance v
    edit fun d => d.refer t
    return .plain t none
  | .container _ =>
    let _ ← advance v
    let _ ← consume v .less (.less t.lexeme) true
    let e ← v |>.type '<' []
    let _ ← consume v .greater .greater true
    return .generic t none e
  | .declaration .type =>
    let _ ← advance v
    v |>.inlineDeclaration .type t cs
  | .declaration .enum =>
    let _ ← advance v
    v |>.inlineDeclaration .enum t cs
  | _ => throw (.parse (.typeAfter mark) t true)
partial_fixpoint

def inlineDeclaration (v : Cursor) (kind : DeclarationKind) (keyword : Token)
    (cs : List String) : Rule PropertyType := do
  let name ← opening v kind keyword true
  let b ← v |>.items kind []
  leaveFaulty v b.fault?
  let n ← hoist ⟨kind, name.lexeme, some name, cs, b.items⟩
  return .plain name (some n)
partial_fixpoint

/-- An item from after its name. -/
def itemBody (v : Cursor) (kind : DeclarationKind) (cs : List String) (name : Token) :
    Rule Property := do
  if kind = .enum then return untypedItem name cs
  else
    let _ ← consume v .colon .colon true
    let t ← v |>.type ':' cs
    return typedItem name cs t
partial_fixpoint

def item (v : Cursor) (kind : DeclarationKind) : Rule Property := do
  let cs ← comments v []
  let name ← consume v .identifier (itemExpectation kind) true
  v |>.itemBody kind cs name
partial_fixpoint

/-- An item, or its failure as a value. -/
def tryItem (v : Cursor) (kind : DeclarationKind) : Rule (Except Diagnostic Property) := fun s => do
  let (x, s) ← (v |>.item kind).run.run s
  some (.ok x, s)
partial_fixpoint

/-- A turn at an item, or at what stands in its place: `ahead` comes behind the comments. -/
def itemTurn (v : Cursor) (kind : DeclarationKind) (ahead : Token) : Rule Turn := do
  if ahead.kind.startsDeclaration then
    edit fun d => d.report (.parse .blockEnd ahead true)
    return ⟨none, some none⟩
  else
    match ← v |>.tryItem kind with
    | .ok p => separation v p
    | .error x =>
      edit fun d => d.report x
      skipItem v 0
      return .goOn none
partial_fixpoint

/-- One turn of the loop over the items of a block. -/
def turn (v : Cursor) (kind : DeclarationKind) : Rule Turn := do
  skipDangling v
  if ← matchToken v .closeCurly then return ⟨none, some none⟩
  else if ← check v .eof then
    let t ← peek v
    return ⟨none, some (some (.parse .blockEnd t true))⟩
  else
    v |>.itemTurn kind (← peekPastComments v)
partial_fixpoint

def items (v : Cursor) (kind : DeclarationKind) (found : List Property) : Rule Block := do
  let t ← v |>.turn kind
  match t.ending? with
  | none => v |>.items kind (found ++ t.item?.toList)
  | some fault? => return ⟨found ++ t.item?.toList, fault?⟩
partial_fixpoint

end

end Blocks

section Files

variable (v : Cursor)

def entry (keyword value : TokenKind) (keywordWanted valueWanted : Expectation) : Rule Token := do
  let _ ← consume v keyword keywordWanted false
  consume v value valueWanted false

def header (compiler : String) : Rule Metadata := do
  let cs ← comments v []
  let name ← attempt (entry v .name .identifier .nameKeyword .gameName)
  edit fun d => d.reportError name
  let version ← attempt (entry v .version .versionNumber .versionKeyword .languageVersion)
  edit fun d => checkVersion compiler d version
  return ⟨entryText name, cs, entryText version⟩

def declaration : Rule Declaration := do
  let cs ← comments v []
  let t ← peek v
  match t.kind with
  | .declaration kind =>
    let _ ← advance v
    let name ← opening v kind t false
    let b ← items v kind []
    match blockDeclaration kind name cs b with
    | .ok x => return x
    | .error x => throw x
  | _ => throw (.parse .declaration t false)

/-- Ends a turn at the top level that started at `start`. -/
def settle (start : Nat) : Except Diagnostic Declaration → Rule Unit
  | .ok x => edit fun d => d.push x
  | .error x => do
    edit fun d => d.report x
    skipBlock v x.inBlock start
    if (← place) = start then
      let _ ← advance v
      return ()
    else return ()

/-- One turn of the loop over the declarations; tells whether the loop goes on. -/
def round : Rule Bool := do
  skipDangling v
  if ← check v .eof then return false
  else
    let start ← place
    settle v start (← attempt (declaration v))
    return true

def declarations (v : Cursor) : Rule Unit := do
  if ← round v then v |>.declarations else return ()
partial_fixpoint

def file (compiler : String) : Rule Metadata := do
  let m ← header v compiler
  declarations v
  return m

/-- The list of tokens with an end of file at its end. -/
def complete (tokens : List Token) : List Token :=
  if tokens.getLast?.any fun t => t.kind == .eof then tokens
  else tokens ++ [TokenStream.missingEnd tokens]

/-- Reads a list of tokens as a file; also tells where the cursor is in the end. -/
def parse (compiler : String) (tokens : List Token) : Option (Parse × Nat) := do
  match ← (file (complete tokens) compiler).run.run (.empty, 0) with
  | (.ok m, d, i) =>
    some (⟨m, finishDeclarations d.declarations, d.diagnostics ++ d.scope.finish⟩, i)
  | (.error _, _) => none

end Files

end Cursor

end GameSchema
