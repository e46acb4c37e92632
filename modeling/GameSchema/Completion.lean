import GameSchema.Schema.Basic
import GameSchema.Version

/-!
# Completion

What can be typed at a place of a source: keywords, built-in types, declared types and snippets, as
far as they start with the word that stands before the cursor.
-/

namespace GameSchema

namespace Completion

inductive Kind where
  | keyword | type | reference | snippet
deriving DecidableEq

def Kind.tag : Kind → String
  | keyword => "keyword"
  | type => "type"
  | reference => "reference"
  | snippet => "snippet"

structure Item where
  label : String
  kind : Kind
  detail : Option String
  documentation : Option String
  insertText : Option String
deriving DecidableEq

def keywords : List String := ["name", "version", "config", "command", "event", "type", "enum"]

def builtinTypes : List String :=
  ["string", "bool", "int", "int32", "int64", "float", "float32", "float64", "list", "map"]

def plain (kind : Kind) (label : String) : Item := ⟨label, kind, none, none, none⟩

/-- The item of a declared type; its comments are its documentation. -/
def reference (d : Declaration) : Item :=
  ⟨d.name, .reference, some (d.kind.word ++ " " ++ d.name),
    if d.comments = [] then none else some (String.intercalate "\n" d.comments), none⟩

/-- An item that inserts a piece of source with places to fill in. -/
def snippet (label detail insertText : String) : Item :=
  ⟨label, .snippet, some detail, none, some insertText⟩

/-- The snippet of a declaration with a name and an empty block. -/
def blockSnippet (kind : DeclarationKind) : Item :=
  snippet kind.word (kind.word ++ " declaration")
    (kind.word ++ " $\x7b1:name\x7d \x7b\n\t$0\n\x7d")

/-- The snippet of a version entry. It proposes the compiler's own version, and 0.0 to a compiler
that accepts every file and has no number. -/
def versionSnippet (compiler : String) : Item :=
  let (major, minor) :=
    if compiler = Version.development then (['0'], ['0']) else Version.parts compiler
  snippet "version" "language version"
    ("version $\x7b1:" ++ String.ofList major ++ "\x7d.$\x7b2:" ++ String.ofList minor ++ "\x7d")

def snippets (compiler : String) : List Item :=
  [snippet "config" "config block" "config \x7b\n\t$0\n\x7d",
   blockSnippet .event, blockSnippet .command, blockSnippet .type, blockSnippet .enum,
   snippet "name" "game name" "name $\x7b1:game\x7d",
   versionSnippet compiler]

/-- Everything that is offered where nothing has been typed. -/
def all (compiler : String) (ds : List Declaration) : List Item :=
  keywords.map (plain .keyword) ++ builtinTypes.map (plain .type) ++
    (ds.filter (·.isType)).map reference ++ snippets compiler

/-- The characters that end the word before a cursor. -/
def isSeparator (c : Char) : Bool :=
  c == ' ' || c == '\t' || c == '<' || c == '>' || c == ':' || c == ','

/-- The word before the cursor: what follows the last separator of the first `character` characters
of a line. -/
def wordBefore (line : List Char) (character : Nat) : List Char :=
  ((line.take character).reverse.takeWhile fun c => !isSeparator c).reverse

/-- The items whose label starts with `word`. -/
def items (compiler : String) (ds : List Declaration) (word : List Char) : List Item :=
  (all compiler ds).filter fun i => word.isPrefixOf i.label.toList

/-- The word before a place of a source; there is none on a line that the source does not have. -/
def wordAt (source : String) (line character : Nat) : List Char :=
  wordBefore ((Text.lines source.toList).getD line []) character

def itemsAt (compiler : String) (ds : List Declaration) (source : String) (line character : Nat) :
    List Item :=
  items compiler ds (wordAt source line character)

theorem mem_items_iff {compiler : String} {ds : List Declaration} {word : List Char} {i : Item} :
    i ∈ items compiler ds word ↔ i ∈ all compiler ds ∧ word <+: i.label.toList := by
  simp [items]

end Completion

end GameSchema
