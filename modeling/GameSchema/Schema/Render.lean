import GameSchema.Schema.Basic
import GameSchema.Text.Hidden

/-!
# Schemas as text

A declaration is written as source text with one comment a line above it and one item a line inside
it, each followed by a comma. Comments of items are not written.

A listing shows a value as a tree, one part a line and four blanks for each level of nesting.
Records name their fields, every part is followed by a comma, and an empty list stands in place.
-/

namespace GameSchema

section Source

def PropertyType.render : PropertyType → String
  | plain t _ => t.lexeme
  | generic t _ e => t.lexeme ++ "<" ++ e.render ++ ">"

def Property.render (p : Property) : String :=
  match p.type with
  | some t => p.name ++ ": " ++ t.render
  | none => p.name

def Declaration.title (d : Declaration) : String :=
  if d.name = "" then d.kind.word else d.kind.word ++ " " ++ d.name

def Declaration.render (d : Declaration) : String :=
  String.join (d.comments.map fun c => "// " ++ c ++ "\n") ++ d.title ++ " \x7b" ++
    String.join (d.properties.map fun p => "\n\t" ++ p.render ++ ",") ++ "\n\x7d"

end Source

section Listings

inductive Listing where
  | word (value : String)
  | text (value : String)
  | record (label : String) (fields : List (String × Listing))
  | wrapped (label : String) (content : Listing)
  | list (items : List Listing)

namespace Listing

/-- How a character is written inside a quoted text. -/
def escape (c : Char) : List Char :=
  match c with
  | '\x00' => ['\\', '0']
  | '\t' => ['\\', 't']
  | '\n' => ['\\', 'n']
  | '\r' => ['\\', 'r']
  | '"' => ['\\', '"']
  | '\\' => ['\\', '\\']
  | c =>
    if Text.isHidden c then ['\\', 'u', '{'] ++ Nat.toDigits 16 c.toNat ++ ['}'] else [c]

def quote (s : String) : String := String.ofList ('"' :: s.toList.flatMap escape ++ ['"'])

/-- The start of a line at a level of nesting. -/
def newline (level : Nat) : String := String.ofList ('\n' :: List.replicate (4 * level) ' ')

/-- Parts between brackets, one a line, or the brackets alone when there are none. -/
def enclose (opening closing : String) (level : Nat) (parts : List String) : String :=
  if parts = [] then opening ++ closing
  else
    opening ++ String.join (parts.map fun p => newline (level + 1) ++ p ++ ",") ++
      newline level ++ closing

mutual

/-- The text of a listing at a level of nesting. -/
def render (level : Nat) : Listing → String
  | word s => s
  | text s => quote s
  | record label fields => enclose (label ++ " \x7b") "\x7d" level (renderFields (level + 1) fields)
  | wrapped label content => enclose (label ++ "(") ")" level [render (level + 1) content]
  | list items => enclose "[" "]" level (renderItems (level + 1) items)

def renderFields (level : Nat) : List (String × Listing) → List String
  | [] => []
  | (name, value) :: fs => (name ++ ": " ++ render level value) :: renderFields level fs

def renderItems (level : Nat) : List Listing → List String
  | [] => []
  | x :: xs => render level x :: renderItems level xs

end

def ofNat (n : Nat) : Listing := word (toString n)

def ofOption {α : Type} (f : α → Listing) : Option α → Listing
  | none => word "None"
  | some a => wrapped "Some" (f a)

def ofList {α : Type} (f : α → Listing) (as : List α) : Listing := list (as.map f)

end Listing

def Token.listing (t : Token) : Listing :=
  .record "Token" [("kind", .word t.kind.title), ("lexeme", .text t.lexeme),
    ("line", .ofNat t.start.line), ("column", .ofNat t.start.column)]

def targetListing (i : Nat) : Listing := .wrapped "ObjectId" (.ofNat i)

def PropertyType.listing : PropertyType → Listing
  | plain t i =>
    .record "PropertyType" [("token", t.listing), ("generic", .word "None"),
      ("declaration", .ofOption targetListing i)]
  | generic t i e =>
    .record "PropertyType" [("token", t.listing), ("generic", .wrapped "Some" e.listing),
      ("declaration", .ofOption targetListing i)]

def Property.listing (p : Property) : Listing :=
  .record "Property" [("name", .text p.name), ("name_token", p.nameToken.listing),
    ("comments", .ofList .text p.comments), ("ty", .ofOption PropertyType.listing p.type)]

def Declaration.listing (d : Declaration) : Listing :=
  .record "Object" [("kind", .word (capitalized d.kind.word)), ("name", .text d.name),
    ("name_token", .ofOption Token.listing d.nameToken),
    ("comments", .ofList .text d.comments),
    ("properties", .ofList Property.listing d.properties)]

def Metadata.listing (m : Metadata) : Listing :=
  .record "Metadata" [("name", .text m.name), ("comments", .ofList .text m.comments),
    ("version", .text m.version)]

end Listings

end GameSchema
