import GameSchema.Text.Basic

/-!
# Tokens

The vocabulary of the schema language: the scalar and container types that are built in, the kinds
of declaration, and the kinds of token made of them. Every kind has a text for people and a tag for
machines.

The words that the language reserves are matched exactly, so `Event` is an ordinary identifier, and
`int` and `float` are second spellings of the 32-bit types.

A token is a word of the source with its kind and the place where it starts.
-/

namespace GameSchema

/-- The built-in types that hold one value. -/
inductive Scalar where
  | string | bool | int32 | int64 | float32 | float64
deriving DecidableEq

/-- The built-in types that hold many values of one element type; the keys of a map are strings. -/
inductive Container where
  | list | map
deriving DecidableEq

inductive DeclarationKind where
  | config | command | event | type | enum
deriving DecidableEq, Inhabited

/-- The three scopes of declared names. -/
inductive Namespace where
  | commands | events | types
deriving DecidableEq

inductive TokenKind where
  | openCurly | closeCurly | colon | comma | less | greater
  | scalar (type : Scalar)
  | container (type : Container)
  | name | version
  | declaration (kind : DeclarationKind)
  | identifier | comment | versionNumber
  | eof
deriving DecidableEq, Inhabited

namespace Scalar

def word : Scalar → String
  | string => "string"
  | bool => "bool"
  | int32 => "int32"
  | int64 => "int64"
  | float32 => "float32"
  | float64 => "float64"

end Scalar

namespace Container

def word : Container → String
  | list => "list"
  | map => "map"

end Container

namespace DeclarationKind

def word : DeclarationKind → String
  | config => "config"
  | command => "command"
  | event => "event"
  | type => "type"
  | enum => "enum"

/-- The scope in which the declared name has to be unique. Types and enums share one, and the
config has no name. -/
def scope? : DeclarationKind → Option Namespace
  | config => none
  | command => some .commands
  | event => some .events
  | type | enum => some .types

/-- Whether a declaration of this kind can be named as the type of a property. -/
def isType (k : DeclarationKind) : Bool := k.scope? == some .types

theorem ne_config_of_scope {k : DeclarationKind} {n : Namespace} (h : k.scope? = some n) :
    k ≠ .config := by
  rintro rfl
  cases h

theorem exists_scope {k : DeclarationKind} (h : k ≠ .config) : ∃ n, k.scope? = some n := by
  cases k <;> first | exact absurd rfl h | exact ⟨_, rfl⟩

end DeclarationKind

namespace Namespace

def word : Namespace → String
  | commands => "Commands"
  | events => "Events"
  | types => "Types"

end Namespace

/-- The lower-case form of a capitalised name, with an underscore before every capital letter but
the first character: `VersionNumber` gives `version_number`, and `EOF` gives `e_o_f`. -/
def snakeCase (title : String) : String :=
  match title.toList with
  | [] => ""
  | c :: cs =>
    String.ofList (c.toLower :: cs.flatMap fun d => if d.isUpper then ['_', d.toLower] else [d])

def capitalized (word : String) : String :=
  match word.toList with
  | [] => ""
  | c :: cs => String.ofList (c.toUpper :: cs)

namespace TokenKind

/-- How messages and listings name the kind. -/
def text : TokenKind → String
  | openCurly => "\x7b"
  | closeCurly => "\x7d"
  | colon => ":"
  | comma => ","
  | less => "<"
  | greater => ">"
  | scalar t => t.word
  | container t => t.word
  | name => "name"
  | version => "version"
  | declaration k => k.word
  | identifier => "identifier"
  | comment => "comment"
  | versionNumber => "version number"
  | eof => "end of file"

/-- The capitalised name of the kind, as the tree listing writes it. -/
def title : TokenKind → String
  | openCurly => "OpenCurly"
  | closeCurly => "CloseCurly"
  | colon => "Colon"
  | comma => "Comma"
  | less => "Less"
  | greater => "Greater"
  | scalar t => capitalized t.word
  | container t => capitalized t.word
  | name => "Name"
  | version => "Version"
  | declaration k => capitalized k.word
  | identifier => "Identifier"
  | comment => "Comment"
  | versionNumber => "VersionNumber"
  | eof => "EOF"

/-- The tag that stands for the kind in data. -/
def tag (k : TokenKind) : String := snakeCase k.title

def all : List TokenKind :=
  [openCurly, closeCurly, colon, comma, less, greater] ++
  [Scalar.string, .bool, .int32, .int64, .float32, .float64].map scalar ++
  [Container.list, .map].map container ++
  [name, version] ++
  [DeclarationKind.config, .command, .event, .type, .enum].map declaration ++
  [identifier, comment, versionNumber, eof]

def ofTag? (t : String) : Option TokenKind := all.find? fun k => k.tag == t

def isScalar : TokenKind → Bool
  | scalar _ => true
  | _ => false

def isContainer : TokenKind → Bool
  | container _ => true
  | _ => false

/-- The kind of declaration that a keyword opens. -/
def declaration? : TokenKind → Option DeclarationKind
  | declaration k => some k
  | _ => none

/-- Whether the kind is a keyword that opens a declaration. -/
def startsDeclaration (k : TokenKind) : Bool := k.declaration?.isSome

end TokenKind

/-- The reserved words with the kind of token that each one is. -/
def keywords : List (String × TokenKind) :=
  [("string", .scalar .string), ("bool", .scalar .bool),
   ("int", .scalar .int32), ("int32", .scalar .int32), ("int64", .scalar .int64),
   ("float", .scalar .float32), ("float32", .scalar .float32), ("float64", .scalar .float64),
   ("list", .container .list), ("map", .container .map),
   ("name", .name), ("version", .version),
   ("config", .declaration .config), ("command", .declaration .command),
   ("event", .declaration .event), ("type", .declaration .type), ("enum", .declaration .enum)]

/-- The kind of a reserved word, or `none` for every other word. -/
def keyword? (word : String) : Option TokenKind := keywords.lookup word

def wordKind (word : String) : TokenKind := (keyword? word).getD .identifier

structure Token where
  kind : TokenKind
  lexeme : String
  start : Position
deriving DecidableEq, Inhabited

namespace Token

def length (t : Token) : Nat := t.lexeme.length

def stop (t : Token) : Position := t.start.shift t.length

def endOfFile (p : Position) : Token := ⟨.eof, "", p⟩

/-- How listings show a token: its text, then its place counted from zero. -/
def display (t : Token) : String :=
  let shown := match t.kind with
    | .identifier => "Identifier('" ++ t.lexeme ++ "')"
    | .comment => "Comment(\"" ++ t.lexeme ++ "\")"
    | .versionNumber => "Version(" ++ t.lexeme ++ ")"
    | k => k.text
  shown ++ " @" ++ toString t.start.line ++ ":" ++ toString t.start.column

end Token

end GameSchema
