import GameSchema.Grammar.File

/-!
# Syntax trees

The trees of the grammar, the token lists that spell them, and the schema that a tree describes.
Spelling is a relation, since one tree has many spellings: a block may end with a comma, and
comments may stand before a closing brace and before the end of the file. A tree keeps the tokens
that its schema shows, which are its names, scalars, containers and comments.

```text
file        := comment* "name" identifier "version" version-number declaration* comment* eof
declaration := comment* ("config" | ("command" | "event" | "type" | "enum") identifier) "{" block
block       := comment* "}" | item comment* "}" | item "," block
item        := comment* identifier ":" type          in every block but that of an enum
item        := comment* identifier                   in the block of an enum
type        := scalar | identifier | ("list" | "map") "<" type ">"
             | ("type" | "enum") identifier "{" block
```
-/

namespace GameSchema.Grammar
open Token

mutual

/-- The type of a property. -/
inductive TypeTree where
  | scalar (word : Token)
  | reference (name : Token)
  | generic (container : Token) (element : TypeTree)
  | inline (kind : DeclarationKind) (name : Token) (items : ItemsTree)

/-- An item of a block: a value of an enum, or a field. -/
inductive ItemTree where
  | value (comments : List Token) (name : Token)
  | field (comments : List Token) (name : Token) (type : TypeTree)

/-- The items of a block. -/
inductive ItemsTree where
  | nil
  | cons (item : ItemTree) (rest : ItemsTree)

end

/-- A declaration at the top level. The config keeps its keyword in the place of a name. -/
structure DeclarationTree where
  comments : List Token
  kind : DeclarationKind
  name : Token
  items : ItemsTree

structure FileTree where
  comments : List Token
  name : Token
  version : Token
  declarations : List DeclarationTree

section Spelling

mutual

/-- The tokens of the first list spell a type and go on with the second list. -/
inductive SpellsType : TypeTree → List Token → List Token → Prop
  | scalar {w s us} (hw : w.kind = .scalar s) : SpellsType (.scalar w) (w :: us) us
  | reference {w us} (hw : w.kind = .identifier) : SpellsType (.reference w) (w :: us) us
  | generic {w c l e ts g us} (hw : w.kind = .container c) (hl : l.kind = .less)
      (he : SpellsType e ts (g :: us)) (hg : g.kind = .greater) :
      SpellsType (.generic w e) (w :: l :: ts) us
  | inline {w k name o is ts us} (hw : w.kind = .declaration k) (hk : k.isType = true)
      (hn : name.kind = .identifier) (ho : o.kind = .openCurly) (hb : SpellsItems k is ts us) :
      SpellsType (.inline k name is) (w :: name :: o :: ts) us

inductive SpellsItem : DeclarationKind → ItemTree → List Token → List Token → Prop
  | value {cs name us} (hcs : AllComments cs) (hn : name.kind = .identifier) :
      SpellsItem .enum (.value cs name) (cs ++ name :: us) us
  | field {k cs name c t ts us} (hk : k ≠ .enum) (hcs : AllComments cs)
      (hn : name.kind = .identifier) (hc : c.kind = .colon) (ht : SpellsType t ts us) :
      SpellsItem k (.field cs name t) (cs ++ name :: c :: ts) us

/-- Items and the brace that closes their block. -/
inductive SpellsItems : DeclarationKind → ItemsTree → List Token → List Token → Prop
  | close {k cs c us} (hcs : AllComments cs) (hc : c.kind = .closeCurly) :
      SpellsItems k .nil (cs ++ c :: us) us
  | last {k i ts cs c us} (hi : SpellsItem k i ts (cs ++ c :: us)) (hcs : AllComments cs)
      (hc : c.kind = .closeCurly) : SpellsItems k (.cons i .nil) ts us
  | comma {k i is ts c us vs} (hi : SpellsItem k i ts (c :: us)) (hc : c.kind = .comma)
      (hr : SpellsItems k is us vs) : SpellsItems k (.cons i is) ts vs

end

inductive SpellsDeclaration : DeclarationTree → List Token → List Token → Prop
  | config {cs w o is ts us} (hcs : AllComments cs) (hw : w.kind = .declaration .config)
      (ho : o.kind = .openCurly) (hb : SpellsItems .config is ts us) :
      SpellsDeclaration ⟨cs, .config, w, is⟩ (cs ++ w :: o :: ts) us
  | named {cs w k name o is ts us} (hcs : AllComments cs) (hw : w.kind = .declaration k)
      (hk : k ≠ .config) (hn : name.kind = .identifier) (ho : o.kind = .openCurly)
      (hb : SpellsItems k is ts us) :
      SpellsDeclaration ⟨cs, k, name, is⟩ (cs ++ w :: name :: o :: ts) us

inductive SpellsDeclarations : List DeclarationTree → List Token → Prop
  | done {cs} (hcs : AllComments cs) : SpellsDeclarations [] cs
  | cons {t ts us ds} (ht : SpellsDeclaration t ts us) (h : SpellsDeclarations ds us) :
      SpellsDeclarations (t :: ds) ts

/-- The tokens spell a file, its end included. -/
inductive SpellsFile : FileTree → List Token → Prop
  | mk {cs n name v version ds ts e} (hcs : AllComments cs) (hn : n.kind = .name)
      (hname : name.kind = .identifier) (hv : v.kind = .version)
      (hversion : version.kind = .versionNumber) (hds : SpellsDeclarations ds ts)
      (he : e.kind = .eof) :
      SpellsFile ⟨cs, name, version, ds⟩ (cs ++ n :: name :: v :: version :: (ts ++ [e]))

theorem SpellsFile.declarations {f : FileTree} {ts : List Token} (h : SpellsFile f ts) :
    ∃ us, SpellsDeclarations f.declarations us := by
  cases h with
  | mk hcs hn hname hv hversion hds he => exact ⟨_, hds⟩

section End

variable {p : Token}

theorem mem_of_mem_cons {t : Token} {ts : List Token} (hp : p ∈ t :: ts) (he : p.kind = .eof)
    (ht : t.kind ≠ .eof) : p ∈ ts := by
  rcases List.mem_cons.1 hp with rfl | hp
  · exact absurd he ht
  · exact hp

theorem mem_of_mem_comments {cs ts : List Token} (hcs : AllComments cs)
    (hp : p ∈ cs ++ ts) (he : p.kind = .eof) : p ∈ ts := by
  rcases List.mem_append.1 hp with hp | hp
  · have hcomment := hcs p hp
    simp [isComment, he] at hcomment
  · exact hp

mutual

/-- The end of a file spells nothing. -/
theorem SpellsType.mem_rest {t : TypeTree} {ts us : List Token} (h : SpellsType t ts us)
    (hp : p ∈ ts) (he : p.kind = .eof) : p ∈ us := by
  match h with
  | .scalar hw => exact mem_of_mem_cons hp he (by simp [hw])
  | .reference hw => exact mem_of_mem_cons hp he (by simp [hw])
  | .generic hw hl hi hg =>
    have hp := mem_of_mem_cons (mem_of_mem_cons hp he (by simp [hw])) he (by simp [hl])
    exact mem_of_mem_cons (hi.mem_rest hp he) he (by simp [hg])
  | .inline hw hk hn ho hb =>
    have hp := mem_of_mem_cons (mem_of_mem_cons hp he (by simp [hw])) he (by simp [hn])
    exact hb.mem_rest (mem_of_mem_cons hp he (by simp [ho])) he

theorem SpellsItem.mem_rest {k : DeclarationKind} {i : ItemTree} {ts us : List Token}
    (h : SpellsItem k i ts us) (hp : p ∈ ts) (he : p.kind = .eof) : p ∈ us := by
  match h with
  | .value hcs hn => exact mem_of_mem_cons (mem_of_mem_comments hcs hp he) he (by simp [hn])
  | .field hk hcs hn hc ht =>
    have hp := mem_of_mem_cons (mem_of_mem_comments hcs hp he) he (by simp [hn])
    exact ht.mem_rest (mem_of_mem_cons hp he (by simp [hc])) he

theorem SpellsItems.mem_rest {k : DeclarationKind} {is : ItemsTree} {ts us : List Token}
    (h : SpellsItems k is ts us) (hp : p ∈ ts) (he : p.kind = .eof) : p ∈ us := by
  match h with
  | .close hcs hc => exact mem_of_mem_cons (mem_of_mem_comments hcs hp he) he (by simp [hc])
  | .last hi hcs hc =>
    exact mem_of_mem_cons (mem_of_mem_comments hcs (hi.mem_rest hp he) he) he (by simp [hc])
  | .comma hi hc hr => exact hr.mem_rest (mem_of_mem_cons (hi.mem_rest hp he) he (by simp [hc])) he

end

theorem SpellsDeclaration.mem_rest {t : DeclarationTree} {ts us : List Token}
    (h : SpellsDeclaration t ts us) (hp : p ∈ ts) (he : p.kind = .eof) : p ∈ us := by
  cases h with
  | config hcs hw ho hb =>
    have hp := mem_of_mem_cons (mem_of_mem_comments hcs hp he) he (by simp [hw])
    exact hb.mem_rest (mem_of_mem_cons hp he (by simp [ho])) he
  | named hcs hw hk hn ho hb =>
    have hp := mem_of_mem_cons (mem_of_mem_comments hcs hp he) he (by simp [hw])
    have hp := mem_of_mem_cons hp he (by simp [hn])
    exact hb.mem_rest (mem_of_mem_cons hp he (by simp [ho])) he

theorem SpellsDeclarations.kind_ne_eof {ds : List DeclarationTree} {ts : List Token}
    (h : SpellsDeclarations ds ts) (hp : p ∈ ts) : p.kind ≠ .eof := by
  intro he
  induction h with
  | done hcs =>
    have hcomment := hcs p hp
    simp [isComment, he] at hcomment
  | cons ht h ih => exact ih (ht.mem_rest hp he)

/-- A spelled file ends with its end of file, whatever comes after it. -/
theorem SpellsFile.ofList_append {f : FileTree} {ts : List Token} (h : SpellsFile f ts)
    (us : List Token) : (TokenStream.ofList (ts ++ us)).toList = ts := by
  cases h with
  | @mk cs n name v version ds ts e hcs hn hname hv hversion hds he =>
    have hno : ∀ p ∈ cs ++ n :: name :: v :: version :: ts, p.kind ≠ .eof := by
      intro p hp hend
      have hp := mem_of_mem_cons (mem_of_mem_comments hcs hp hend) hend (by simp [hn])
      have hp := mem_of_mem_cons (mem_of_mem_cons hp hend (by simp [hname])) hend (by simp [hv])
      exact hds.kind_ne_eof (mem_of_mem_cons hp hend (by simp [hversion])) hend
    have hof := TokenStream.ofList_append hno he us
    have happend : cs ++ n :: name :: v :: version :: (ts ++ [e]) ++ us =
        cs ++ n :: name :: v :: version :: ts ++ e :: us := by simp
    rw [happend, hof]
    simp [TokenStream.toList]

end End

end Spelling

section Names

mutual

/-- The names that a tree declares, with their namespaces, in the order of the tokens. -/
def TypeTree.names : TypeTree → List (Namespace × String)
  | .scalar _ | .reference _ => []
  | .generic _ e => e.names
  | .inline _ name is => (.types, name.lexeme) :: is.names

def ItemTree.names : ItemTree → List (Namespace × String)
  | .value _ _ => []
  | .field _ _ t => t.names

def ItemsTree.names : ItemsTree → List (Namespace × String)
  | .nil => []
  | .cons i is => i.names ++ is.names

end

def DeclarationTree.names (t : DeclarationTree) : List (Namespace × String) :=
  t.kind.scope?.toList.map (·, t.name.lexeme) ++ t.items.names

def FileTree.names (f : FileTree) : List (Namespace × String) :=
  f.declarations.flatMap (·.names)

/-- The number of configs. -/
def FileTree.configs (f : FileTree) : Nat := f.declarations.countP fun t => t.kind == .config

mutual

/-- The references to types, in the order of the tokens. -/
def TypeTree.references : TypeTree → List Token
  | .scalar _ => []
  | .reference name => [name]
  | .generic _ e => e.references
  | .inline _ _ is => is.references

def ItemTree.references : ItemTree → List Token
  | .value _ _ => []
  | .field _ _ t => t.references

def ItemsTree.references : ItemsTree → List Token
  | .nil => []
  | .cons i is => i.references ++ is.references

end

def FileTree.references (f : FileTree) : List Token :=
  f.declarations.flatMap (·.items.references)

end Names

section Schema

mutual

/-- The number of declarations inside a tree. -/
def TypeTree.inlined : TypeTree → Nat
  | .scalar _ | .reference _ => 0
  | .generic _ e => e.inlined
  | .inline _ _ is => is.inlined + 1

def ItemTree.inlined : ItemTree → Nat
  | .value _ _ => 0
  | .field _ _ t => t.inlined

def ItemsTree.inlined : ItemsTree → Nat
  | .nil => 0
  | .cons i is => i.inlined + is.inlined

end

/-- The texts of comments. -/
def texts (cs : List Token) : List String := cs.map (·.lexeme)

variable (find : String → Option Nat)

/-- The type that a tree describes when `n` declarations stand before it: references are bound by
`find`, and a declaration in the tree to the place where it will stand. -/
def TypeTree.type (n : Nat) : TypeTree → PropertyType
  | .scalar w => .plain w none
  | .reference name => .plain name (find name.lexeme)
  | .generic c e => .generic c none (e.type n)
  | .inline _ name is => .plain name (some (n + is.inlined))

def ItemTree.property (n : Nat) : ItemTree → Property
  | .value cs name => ⟨name.lexeme, name, texts cs, none⟩
  | .field cs name t => ⟨name.lexeme, name, texts cs, some (t.type find n)⟩

def ItemsTree.properties (n : Nat) : ItemsTree → List Property
  | .nil => []
  | .cons i is => i.property find n :: is.properties (n + i.inlined)

mutual

/-- The declarations inside a tree, each after those inside of it, when `n` declarations stand
before the tree. Comments go to a declaration that is the type of an item itself. -/
def TypeTree.hoisted (n : Nat) (comments : List Token) : TypeTree → List Declaration
  | .scalar _ | .reference _ => []
  | .generic _ e => e.hoisted n []
  | .inline k name is =>
    is.hoisted n ++ [⟨k, name.lexeme, some name, texts comments, is.properties find n⟩]

def ItemTree.hoisted (n : Nat) : ItemTree → List Declaration
  | .value _ _ => []
  | .field cs _ t => t.hoisted n cs

def ItemsTree.hoisted (n : Nat) : ItemsTree → List Declaration
  | .nil => []
  | .cons i is => i.hoisted n ++ is.hoisted (n + i.inlined)

end

/-- The declarations inside a tree and the tree's own declaration. -/
def DeclarationTree.flatten (n : Nat) (t : DeclarationTree) : List Declaration :=
  t.items.hoisted find n ++ [⟨t.kind, if t.kind = .config then "" else t.name.lexeme, some t.name,
    texts t.comments, t.items.properties find n⟩]

def flattenAll (n : Nat) : List DeclarationTree → List Declaration
  | [] => []
  | t :: ds => t.flatten find n ++ flattenAll (n + (t.items.inlined + 1)) ds

end Schema

namespace FileTree

/-- The place of the type or enum of a given name among the declarations of a file. -/
def place? (f : FileTree) (name : String) : Option Nat :=
  (flattenAll (fun _ => none) 0 f.declarations).findIdx? fun d => d.isType && d.name == name

/-- The declarations that a file describes, an empty config included if the file has none. -/
def objects (f : FileTree) : List Declaration :=
  let ds := flattenAll f.place? 0 f.declarations
  if f.configs = 0 then ds ++ [.emptyConfig] else ds

def metadata (f : FileTree) : Metadata := ⟨f.name.lexeme, texts f.comments, f.version.lexeme⟩

end FileTree

end GameSchema.Grammar
