import GameSchema.Grammar.File
import GameSchema.Schema.CycleSearch

/-!
# Compiling a source

A source is cut into tokens, read as a file and searched for declaration cycles. When it cannot be
cut into tokens, that is its only diagnostic and it declares nothing.
-/

namespace GameSchema

/-- What a source declares and what is wrong with it, together with its lines. -/
structure Compilation where
  metadata : Metadata
  declarations : List Declaration
  diagnostics : List Diagnostic
  lines : List String

def sourceLines (source : String) : List String := (Text.lines source.toList).map String.ofList

def compile (version source : String) : Compilation :=
  match scan source with
  | .error e => ⟨.empty, [], [.scan e], sourceLines source⟩
  | .ok tokens =>
    let p := parse version tokens
    ⟨p.metadata, p.declarations, p.diagnostics ++ Cycle.diagnostics p.declarations,
      sourceLines source⟩

/-- What is said of bytes that are not UTF-8. -/
def invalidText : String := "stream did not contain valid UTF-8"

/-- Compiles a source given as bytes; `none` when they are not UTF-8. -/
def compileBytes (version : String) (bytes : ByteArray) : Option Compilation :=
  (String.fromUTF8? bytes).map (compile version)

namespace Compilation

/-- Whether a diagnostic makes the source unusable. -/
def hasErrors (c : Compilation) : Bool := c.diagnostics.any (·.isError)

def errors (c : Compilation) : List Diagnostic := c.diagnostics.filter (·.severity == .error)

def warnings (c : Compilation) : List Diagnostic := c.diagnostics.filter (·.severity == .warning)

/-- The config of the schema; a source that cannot be cut into tokens has none. -/
def config? (c : Compilation) : Option Declaration := c.declarations.find? (·.kind == .config)

def declaredTypes (c : Compilation) : List Declaration := c.declarations.filter (·.isType)

@[simp] theorem lines_compile (version source : String) :
    (compile version source).lines = sourceLines source := by
  simp only [compile]
  split <;> rfl

end Compilation

end GameSchema
