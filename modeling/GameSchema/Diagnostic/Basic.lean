import GameSchema.Schema.Basic
import GameSchema.Token.Scan

/-!
# Diagnostics

What can be wrong with a source, as causes at tokens. The wording of every cause stands in one
function, and so does the place that is reported for it.
-/

namespace GameSchema

/-- What the grammar wants where a source has something else. -/
inductive Expectation where
  | nameKeyword | gameName | versionKeyword | languageVersion
  | declaration
  | identifierAfter (kind : DeclarationKind)
  | blockAfter (kind : DeclarationKind)
  | blockEnd | commaBetween | commaOrEnd
  | propertyName | colon | enumValue
  | less (lexeme : String) | greater
  | typeAfter (mark : Char)
deriving DecidableEq

def Expectation.message : Expectation → String
  | nameKeyword => "Expected 'name' keyword"
  | gameName => "Expected name of game after 'name'"
  | versionKeyword => "Expected 'version' keyword"
  | languageVersion => "Expected CGE version after 'version'"
  | declaration => "Expected 'config', 'command', 'event', 'type' or 'enum' declaration"
  | identifierAfter k => "Expected identifier after '" ++ k.word ++ "' keyword"
  | blockAfter .config => "Expected block after 'config'"
  | blockAfter k => "Expected block after " ++ k.word ++ " name"
  | blockEnd => "Expected '\x7d' after block"
  | commaBetween => "Expected ',' between properties"
  | commaOrEnd => "Expected ',' or '\x7d' after property"
  | propertyName => "Expected property name"
  | colon => "Expected ':' after property name"
  | enumValue => "Expected enum value"
  | less lexeme => "Expected '<' after '" ++ lexeme ++ "'"
  | greater => "Expected '>' after generic type"
  | typeAfter mark => "Expected type after '" ++ mark.toString ++ "'"

inductive SemanticFault where
  | duplicateIdentifier | multipleConfig | undefinedType
  | declarationCycle (path : List String)
deriving DecidableEq

def SemanticFault.tag : SemanticFault → String
  | duplicateIdentifier => "duplicate_identifier"
  | multipleConfig => "multiple_config"
  | undefinedType => "undefined_type"
  | declarationCycle _ => "declaration_cycle"

def SemanticFault.message (lexeme : String) : SemanticFault → String
  | duplicateIdentifier => "'" ++ lexeme ++ "' already defined"
  | multipleConfig => "Only one config object is allowed"
  | undefinedType => "Undefined type '" ++ lexeme ++ "'"
  | declarationCycle path => "Declaration cycle detected: " ++ String.intercalate "->" path

inductive Severity where
  | error | warning
deriving DecidableEq

def Severity.word : Severity → String
  | error => "error"
  | warning => "warning"

/-- Something that is wrong with a source, by the stage that finds it. -/
inductive Diagnostic where
  /-- The text cannot be cut into tokens. -/
  | scan (error : ScanError)
  /-- The grammar wants something else at a token; `inBlock` tells whether a block is open there. -/
  | parse (expected : Expectation) (token : Token) (inBlock : Bool)
  /-- The meaning is wrong at a token. -/
  | semantic (fault : SemanticFault) (token : Token)
  /-- The version that a token writes does not fit a compiler of version `compiler`. -/
  | version (compiler : String) (token : Token)
deriving DecidableEq

namespace Diagnostic

/-- Only a version that does not fit is a warning. -/
def severity : Diagnostic → Severity
  | version _ _ => .warning
  | _ => .error

/-- Whether the diagnostic makes a source unusable. -/
def isError (d : Diagnostic) : Bool := d.severity == .error

def token? : Diagnostic → Option Token
  | scan _ => none
  | parse _ t _ => some t
  | semantic _ t => some t
  | version _ t => some t

def message : Diagnostic → String
  | scan e => e.fault.message
  | parse e _ _ => e.message
  | semantic f t => f.message t.lexeme
  | version compiler t =>
    "CGE version mismatch: input file v" ++ t.lexeme ++ ", compiler v" ++ compiler ++
      "; there might be parsing issues"

def start : Diagnostic → Position
  | scan e => e.position
  | parse _ t _ => t.start
  | semantic _ t => t.start
  | version _ t => t.start

/-- The number of characters that the diagnostic points at. It is never zero, so that the end of a
file can be pointed at too. -/
def length (d : Diagnostic) : Nat :=
  match d.token? with
  | none => 1
  | some t => max t.length 1

def range (d : Diagnostic) : Range := ⟨d.start, d.start.shift d.length⟩

/-- Whether the grammar failed inside an open block. -/
def inBlock : Diagnostic → Bool
  | parse _ _ b => b
  | _ => false

def fault? : Diagnostic → Option SemanticFault
  | semantic f _ => some f
  | _ => none

/-- A diagnostic in one line, with its place counted from one. -/
def display (d : Diagnostic) : String :=
  d.message ++ " at " ++ toString (d.start.line + 1) ++ ":" ++ toString (d.start.column + 1)

end Diagnostic

end GameSchema
