import GameSchema.Compilation

/-!
# Schemas and diagnostics as JSON

A JSON value keeps the order of its fields. It is written with two blanks for each level of nesting
and one item or field a line, but an empty array or object in place. In strings only quotes,
backslashes and the characters below U+0020 are escaped.

The fields of every object come in a fixed order, and what is missing is null. A diagnostic starts
with the stage that found it.
-/

namespace GameSchema

/-- A JSON value whose numbers are natural numbers. -/
inductive Json where
  | null
  | bool (value : Bool)
  | nat (value : Nat)
  | string (value : String)
  | array (items : List Json)
  | object (fields : List (String × Json))
deriving Inhabited

namespace Json

def hex4 (n : Nat) : List Char :=
  let digits := Nat.toDigits 16 n
  List.replicate (4 - digits.length) '0' ++ digits

/-- How a character is written inside a string. -/
def escape (c : Char) : List Char :=
  match c with
  | '"' => ['\\', '"']
  | '\\' => ['\\', '\\']
  | '\n' => ['\\', 'n']
  | '\r' => ['\\', 'r']
  | '\t' => ['\\', 't']
  | '\x08' => ['\\', 'b']
  | '\x0c' => ['\\', 'f']
  | c => if c.toNat < 0x20 then '\\' :: 'u' :: hex4 c.toNat else [c]

def quote (s : String) : String := String.ofList ('"' :: s.toList.flatMap escape ++ ['"'])

/-- The start of a line at a level of nesting. -/
def newline (level : Nat) : String := String.ofList ('\n' :: List.replicate (2 * level) ' ')

/-- Lines in brackets, or the brackets alone when there are none. -/
def bracket (opening closing : String) (level : Nat) (items : List String) : String :=
  match items with
  | [] => opening ++ closing
  | items =>
    opening ++ newline (level + 1) ++ String.intercalate ("," ++ newline (level + 1)) items ++
      newline level ++ closing

mutual

/-- The text of a value at a level of nesting. -/
def render (level : Nat) : Json → String
  | null => "null"
  | bool b => if b then "true" else "false"
  | nat n => toString n
  | string s => quote s
  | array items => bracket "[" "]" level (renderItems (level + 1) items)
  | object fields => bracket "\x7b" "\x7d" level (renderFields (level + 1) fields)

def renderItems (level : Nat) : List Json → List String
  | [] => []
  | j :: js => render level j :: renderItems level js

def renderFields (level : Nat) : List (String × Json) → List String
  | [] => []
  | (k, j) :: fs => (quote k ++ ": " ++ render level j) :: renderFields level fs

end

def ofOption {α : Type} (f : α → Json) : Option α → Json
  | none => null
  | some a => f a

def ofList {α : Type} (f : α → Json) (as : List α) : Json := array (as.map f)

end Json

def Token.toJson (t : Token) : Json :=
  .object [("kind", .string t.kind.tag), ("lexeme", .string t.lexeme),
    ("line", .nat t.start.line), ("column", .nat t.start.column)]

def PropertyType.toJson : PropertyType → Json
  | plain t i =>
    .object [("token", t.toJson), ("generic", .null), ("declaration", .ofOption .nat i)]
  | generic t i e =>
    .object [("token", t.toJson), ("generic", e.toJson), ("declaration", .ofOption .nat i)]

def Property.toJson (p : Property) : Json :=
  .object [("name", .string p.name), ("name_token", p.nameToken.toJson),
    ("comments", .ofList .string p.comments), ("type", .ofOption PropertyType.toJson p.type)]

def Declaration.toJson (d : Declaration) : Json :=
  .object [("kind", .string d.kind.word), ("name", .string d.name),
    ("name_token", .ofOption Token.toJson d.nameToken),
    ("comments", .ofList .string d.comments),
    ("properties", .ofList Property.toJson d.properties)]

def Metadata.toJson (m : Metadata) : Json :=
  .object [("name", .string m.name), ("comments", .ofList .string m.comments),
    ("version", .string m.version)]

def Diagnostic.toJson (d : Diagnostic) : Json :=
  match d with
  | scan e =>
    .object [("stage", .string "scan"), ("line", .nat e.position.line),
      ("column", .nat e.position.column), ("message", .string d.message)]
  | parse _ t inBlock =>
    .object [("stage", .string "parse"), ("token", t.toJson), ("message", .string d.message),
      ("in_block", .bool inBlock)]
  | semantic f t =>
    .object [("stage", .string "semantic"), ("kind", .string f.tag), ("token", t.toJson),
      ("message", .string d.message)]
  | version compiler t =>
    .object [("stage", .string "version"), ("token", t.toJson),
      ("file_version", .string t.lexeme), ("compiler_version", .string compiler),
      ("message", .string d.message)]

/-- What a source compiles to, as JSON. -/
def Compilation.toJson (c : Compilation) : Json :=
  .object [("metadata", c.metadata.toJson),
    ("objects", .ofList Declaration.toJson c.declarations),
    ("diagnostics", .ofList Diagnostic.toJson c.diagnostics)]

end GameSchema
