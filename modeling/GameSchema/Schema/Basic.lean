import GameSchema.Token.Basic

/-!
# Schemas

What a source declares: a header and a flat list of declarations with their properties. A type that
names a declaration can carry the index of that declaration in the list.
-/

namespace GameSchema

/-- The type of a property: a token, the index of the declaration that it is bound to, and for a
list or a map the type of its elements. -/
inductive PropertyType where
  | plain (token : Token) (target : Option Nat)
  | generic (token : Token) (target : Option Nat) (element : PropertyType)
deriving DecidableEq, Inhabited

namespace PropertyType

def token : PropertyType → Token
  | plain t _ => t
  | generic t _ _ => t

/-- The index of the declaration that the outermost token is bound to. -/
def target : PropertyType → Option Nat
  | plain _ i => i
  | generic _ i _ => i

def element? : PropertyType → Option PropertyType
  | plain _ _ => none
  | generic _ _ e => some e

/-- The type and the types nested in it, from the outside in. -/
def chain : PropertyType → List PropertyType
  | plain t i => [plain t i]
  | generic t i e => generic t i e :: e.chain

def innermost : PropertyType → PropertyType
  | plain t i => plain t i
  | generic _ _ e => e.innermost

/-- Whether the outermost token is an identifier, which names a declaration. -/
def isReference (t : PropertyType) : Bool := t.token.kind == .identifier

theorem mem_chain_self (t : PropertyType) : t ∈ t.chain := by cases t <;> simp [chain]

end PropertyType

/-- An item of a declaration: a property, or a value of an enum, which has no type. -/
structure Property where
  name : String
  nameToken : Token
  comments : List String
  type : Option PropertyType
deriving DecidableEq, Inhabited

/-- A declaration of a schema. The config has the empty name; its token is the keyword, and a config
that no source wrote has none. -/
structure Declaration where
  kind : DeclarationKind
  name : String
  nameToken : Option Token
  comments : List String
  properties : List Property
deriving DecidableEq, Inhabited

namespace Declaration

/-- The config of a schema that declares none. -/
def emptyConfig : Declaration := ⟨.config, "", none, [], []⟩

/-- Whether the declaration can be named as the type of a property. -/
def isType (d : Declaration) : Bool := d.kind.isType

def property? (d : Declaration) (name : String) : Option Property :=
  d.properties.find? fun p => p.name == name

end Declaration

/-- The header of a source: the name of the game, the language version, and the comments above. -/
structure Metadata where
  name : String
  comments : List String
  version : String
deriving DecidableEq, Inhabited

/-- The header of a source that cannot be read. -/
def Metadata.empty : Metadata := ⟨"", [], ""⟩

end GameSchema
