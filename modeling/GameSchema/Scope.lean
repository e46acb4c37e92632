import GameSchema.Diagnostic.Basic

/-!
# Names in scope

While a source is read, its scope collects the declared names, the referenced types and whether the
config has been declared. A name is declared once in its namespace, and the config once. References
are resolved only when the whole source is known, so a type may be used before it is declared.

In the end a property type that is an identifier is bound to the first type or enum of that name. A
type that is bound already stays as it is, and so does one whose name nothing declares.
-/

namespace GameSchema

/-- The names of a source, as far as it has been read. -/
structure Scope where
  declared : List (Namespace × String)
  references : List Token
  configSeen : Bool
deriving DecidableEq

namespace Scope

def empty : Scope := ⟨[], [], false⟩

def isDeclared (s : Scope) (n : Namespace) (name : String) : Bool := s.declared.contains (n, name)

/-- Declares a name, unless its namespace has it already. A config has no namespace. -/
def declare (s : Scope) (kind : DeclarationKind) (name : Token) : Except Diagnostic Scope :=
  match kind.scope? with
  | none => .ok s
  | some n =>
    if s.isDeclared n name.lexeme then .error (.semantic .duplicateIdentifier name)
    else .ok { s with declared := s.declared ++ [(n, name.lexeme)] }

/-- Declares the config, unless there is one already. -/
def declareConfig (s : Scope) (keyword : Token) : Except Diagnostic Scope :=
  if s.configSeen then .error (.semantic .multipleConfig keyword)
  else .ok { s with configSeen := true }

def refer (s : Scope) (t : Token) : Scope := { s with references := s.references ++ [t] }

/-- The tokens that are the first of their lexeme. -/
def firstByLexeme : List Token → List Token
  | [] => []
  | t :: ts => t :: (firstByLexeme ts).filter fun u => u.lexeme != t.lexeme

/-- The first reference to each type that is not declared, in the order of the source. -/
def undefined (s : Scope) : List Token :=
  firstByLexeme (s.references.filter fun t => !s.isDeclared .types t.lexeme)

/-- The faults that show once the whole source is known. -/
def finish (s : Scope) : List Diagnostic := s.undefined.map (.semantic .undefinedType)

@[simp] theorem isDeclared_empty (n : Namespace) (name : String) :
    empty.isDeclared n name = false := rfl

end Scope

def typeIndex? (ds : List Declaration) (name : String) : Option Nat :=
  ds.findIdx? fun d => d.isType && d.name == name

/-- The declaration that a type token is bound to once names are resolved by `find`. -/
def Token.bind (find : String → Option Nat) (t : Token) (target : Option Nat) : Option Nat :=
  if t.kind = .identifier ∧ target = none then find t.lexeme else target

/-- Binds the references of a type, at every depth. -/
def PropertyType.link (find : String → Option Nat) : PropertyType → PropertyType
  | plain t i => plain t (t.bind find i)
  | generic t i e => generic t (t.bind find i) (e.link find)

def Property.link (find : String → Option Nat) (p : Property) : Property :=
  { p with type := p.type.map (·.link find) }

def Declaration.link (find : String → Option Nat) (d : Declaration) : Declaration :=
  { d with properties := d.properties.map (·.link find) }

/-- Binds every reference in a list of declarations to the types and enums of that list. -/
def linkAll (ds : List Declaration) : List Declaration := ds.map (·.link (typeIndex? ds))

@[simp] theorem linkAll_length (ds : List Declaration) : (linkAll ds).length = ds.length := by
  simp [linkAll]

@[simp] theorem Declaration.link_mk (find : String → Option Nat) (k : DeclarationKind)
    (name : String) (token : Option Token) (comments : List String) (ps : List Property) :
    Declaration.link find ⟨k, name, token, comments, ps⟩ =
      ⟨k, name, token, comments, ps.map (·.link find)⟩ := rfl

@[simp] theorem Declaration.link_kind (find : String → Option Nat) (d : Declaration) :
    (d.link find).kind = d.kind := rfl

@[simp] theorem Declaration.link_name (find : String → Option Nat) (d : Declaration) :
    (d.link find).name = d.name := rfl

@[simp] theorem PropertyType.link_token (find : String → Option Nat) (t : PropertyType) :
    (t.link find).token = t.token := by
  cases t <;> rfl

/-- The list with an empty config at its end when it has no config. -/
def withConfig (ds : List Declaration) : List Declaration :=
  if ds.any fun d => d.kind == .config then ds else ds ++ [.emptyConfig]

/-- The finished form of a list of declarations: references bound, and a config present. -/
def finishDeclarations (ds : List Declaration) : List Declaration := withConfig (linkAll ds)

end GameSchema
