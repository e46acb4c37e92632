import GameSchema.Grammar.Draft
import GameSchema.Grammar.Recovery

/-!
# Blocks

The rules for the inside of a declaration.

```text
block   := item ("," item)* ","? "}"
item    := comment* identifier ":" type          in every block but that of an enum
item    := comment* identifier                   in the block of an enum
type    := scalar | identifier | ("list" | "map") "<" type ">"
         | ("type" | "enum") identifier "{" block
```

A declaration inside a type is hoisted: it joins the list of declarations before the one that
contains it, and the type becomes its name, bound to its place in the list. A bad item is reported
and left out, and reading goes on with the next one. Every rule takes the token at the end of the
file, at which it reports what is missing there.
-/

namespace GameSchema.Grammar

open Token Recovery

theorem lex_of_lt {m n j k : Nat} (h : m < n) :
    Prod.Lex (· < ·) (· < ·) (m, j) (n, k) := Prod.Lex.left _ _ h

theorem lex_of_le {m n j k : Nat} (h : m ≤ n) (hj : j < k) :
    Prod.Lex (· < ·) (· < ·) (m, j) (n, k) := by
  rcases Nat.lt_or_eq_of_le h with h | rfl
  · exact Prod.Lex.left _ _ h
  · exact Prod.Lex.right _ hj

/-- The items of a block and, when the block has no end, what is wrong with it. -/
structure Block where
  items : List Property
  fault? : Option Diagnostic

namespace Block

def cons (p : Property) (b : Block) : Block := { b with items := p :: b.items }

end Block

/-- What the grammar wants where an item of a block should start. -/
def itemExpectation : DeclarationKind → Expectation
  | .enum => .enumValue
  | _ => .propertyName

/-- Reads what follows the keyword of a declaration and names it: an identifier that is declared
here, or for a config nothing, the keyword itself standing for the name. -/
def heading (eof : Token) (kind : DeclarationKind) (keyword : Token) (inBlock : Bool) (d : Draft)
    (ts : List Token) : Reading (Except Diagnostic Token) ts :=
  if kind = .config then
    match d.declareConfig keyword with
    | .error x => .fail x d ts
    | .ok d => ⟨.ok keyword, d, ts, List.suffix_refl ts⟩
  else if startsWith .identifier ts then
    match d.declare kind (here eof ts) with
    | .error x => ⟨.error x, d, ts.tail, List.tail_suffix ts⟩
    | .ok d => ⟨.ok (here eof ts), d, ts.tail, List.tail_suffix ts⟩
  else .fail (.parse (.identifierAfter kind) (here eof ts) inBlock) d ts

/-- Reads the heading of a declaration and the brace that opens its block. -/
def opening (eof : Token) (kind : DeclarationKind) (keyword : Token) (inBlock : Bool) (d : Draft)
    (ts : List Token) : Reading (Except Diagnostic Token) ts :=
  let r := heading eof kind keyword inBlock d ts
  r.andThen fun name =>
    if startsWith .openCurly r.rest then ⟨.ok name, r.draft, r.rest.tail, List.tail_suffix r.rest⟩
    else .fail (.parse (.blockAfter kind) (here eof r.rest) inBlock) r.draft r.rest

/-- Reads the bracket that closes the element type of a container. -/
def closeElement {ts : List Token} (eof container : Token)
    (r : Reading (Except Diagnostic PropertyType) ts) :
    Reading (Except Diagnostic PropertyType) ts :=
  r.andThen fun element =>
    if startsWith .greater r.rest then
      ⟨.ok (.generic container none element), r.draft, r.rest.tail, List.tail_suffix r.rest⟩
    else .fail (.parse .greater (here eof r.rest) true) r.draft r.rest

/-- Hoists the declaration of a block that has been read: a fault of the block is reported and the
rest of the block skipped, and the declaration joins the list. -/
def hoist {ts : List Token} (kind : DeclarationKind) (name : Token) (comments : List String)
    (r : Reading Block ts) : Reading PropertyType ts :=
  let declaration : Declaration := ⟨kind, name.lexeme, some name, comments, r.value.items⟩
  let type := PropertyType.plain name (some r.draft.declarations.length)
  match r.value.fault? with
  | none => ⟨type, r.draft.push declaration, r.rest, r.suffix⟩
  | some x =>
    ⟨type, (r.draft.report x).push declaration, skipBody 0 r.rest,
      (skipBody_suffix 0 r.rest).trans r.suffix⟩

def typedItem (name : Token) (comments : List String) (t : PropertyType) : Property :=
  ⟨name.lexeme, name, comments, some t⟩

def untypedItem (name : Token) (comments : List String) : Property :=
  ⟨name.lexeme, name, comments, none⟩

mutual

/-- Reads a type after `mark`; a declaration inside it gets the given comments. -/
def typeAt (eof : Token) (mark : Char) (comments : List String) (d : Draft) (ts : List Token) :
    Reading (Except Diagnostic PropertyType) ts :=
  match ts with
  | [] => .fail (.parse (.typeAfter mark) eof true) d []
  | t :: us =>
    match t.kind with
    | .scalar _ => ⟨.ok (.plain t none), d, us, List.suffix_cons t us⟩
    | .identifier => ⟨.ok (.plain t none), d.refer t, us, List.suffix_cons t us⟩
    | .container _ => (elementType eof t d us).weaken (List.suffix_cons t us)
    | .declaration .type =>
      (inlineDeclaration eof .type comments (opening eof .type t true d us)).weaken
        (List.suffix_cons t us)
    | .declaration .enum =>
      (inlineDeclaration eof .enum comments (opening eof .enum t true d us)).weaken
        (List.suffix_cons t us)
    | _ => .fail (.parse (.typeAfter mark) t true) d (t :: us)
termination_by (ts.length, 0)

/-- Reads the element type of the container `container` in its angle brackets. -/
def elementType (eof : Token) (container : Token) (d : Draft) (ts : List Token) :
    Reading (Except Diagnostic PropertyType) ts :=
  if startsWith .less ts then
    (closeElement eof container (typeAt eof '<' [] d ts.tail)).weaken (List.tail_suffix ts)
  else .fail (.parse (.less container.lexeme) (here eof ts) true) d ts
termination_by (ts.length, 1)
decreasing_by exact lex_of_le (List.tail_suffix ts).length_le Nat.zero_lt_one

/-- Reads the block of a declaration that stands as a type, once it has been opened, and hoists the
declaration. -/
def inlineDeclaration {ts : List Token} (eof : Token) (kind : DeclarationKind)
    (comments : List String) (r : Reading (Except Diagnostic Token) ts) :
    Reading (Except Diagnostic PropertyType) ts :=
  r.andThen fun name => (hoist kind name comments (items eof kind r.draft r.rest)).map .ok
termination_by (ts.length, 1)
decreasing_by exact lex_of_le r.rest_length_le Nat.zero_lt_one

/-- Reads one item of a block, from after its name. -/
def item (eof : Token) (kind : DeclarationKind) (comments : List String) (name : Token) (d : Draft)
    (ts : List Token) : Reading (Except Diagnostic Property) ts :=
  if kind = .enum then ⟨.ok (untypedItem name comments), d, ts, List.suffix_refl ts⟩
  else if startsWith .colon ts then
    ((typeAt eof ':' comments d ts.tail).map (·.map (typedItem name comments))).weaken
      (List.tail_suffix ts)
  else .fail (.parse .colon (here eof ts) true) d ts
termination_by (ts.length, 1)
decreasing_by exact lex_of_le (List.tail_suffix ts).length_le Nat.zero_lt_one

/-- Reads the items of a block and the brace that closes it. A keyword where an item should start
means that the brace is missing; the keyword and its comments are left to the next declaration. -/
def items (eof : Token) (kind : DeclarationKind) (d : Draft) (ts : List Token) : Reading Block ts :=
  match h : afterComments ts with
  | [] => ⟨⟨[], some (.parse .blockEnd eof true)⟩, d, [], List.nil_suffix⟩
  | t :: us =>
    have hu := suffix_of_afterComments h
    match t.kind with
    | .closeCurly => ⟨⟨[], none⟩, d, us, hu⟩
    | .declaration _ =>
      ⟨⟨[], none⟩, d.report (.parse .blockEnd t true), ts, List.suffix_refl ts⟩
    | .identifier =>
      (itemsAfter eof kind (item eof kind (leadingComments ts) t d us)).weaken hu
    | _ =>
      (items eof kind (d.report (.parse (itemExpectation kind) t true)) (skipStray t us)).weaken
        ((skipStray_suffix t us).trans hu)
termination_by (ts.length, 0)
decreasing_by
  all_goals have hl := length_lt_of_afterComments h
  · exact lex_of_lt hl
  · exact lex_of_lt hl
  · exact lex_of_lt (Nat.lt_of_le_of_lt (skipStray_suffix t us).length_le hl)

/-- Goes on behind an item that has been read. A bad item is reported and skipped. Behind a good one
comes a comma or the end of the block; a comma that is missing before the next item is reported, and
anything else is a fault of the block. -/
def itemsAfter {ts : List Token} (eof : Token) (kind : DeclarationKind)
    (r : Reading (Except Diagnostic Property) ts) : Reading Block ts :=
  match r.value with
  | .error x =>
    (items eof kind (r.draft.report x) (skipItem 0 r.rest)).weaken
      ((skipItem_suffix 0 r.rest).trans r.suffix)
  | .ok p =>
    if startsWith .comma r.rest then
      ((items eof kind r.draft r.rest.tail).map (.cons p)).weaken
        ((List.tail_suffix r.rest).trans r.suffix)
    else
      match (here eof (afterComments r.rest)).kind with
      | .closeCurly | .eof | .declaration _ =>
        ((items eof kind r.draft r.rest).map (.cons p)).weaken r.suffix
      | .identifier =>
        ((items eof kind (r.draft.report (.parse .commaBetween (here eof r.rest) true))
          r.rest).map (.cons p)).weaken r.suffix
      | _ => r.map fun _ => ⟨[p], some (.parse .commaOrEnd (here eof r.rest) true)⟩
termination_by (ts.length, 1)
decreasing_by
  · exact lex_of_le ((skipItem_suffix 0 r.rest).trans r.suffix).length_le Nat.zero_lt_one
  · exact lex_of_le ((List.tail_suffix r.rest).trans r.suffix).length_le Nat.zero_lt_one
  · exact lex_of_le r.rest_length_le Nat.zero_lt_one
  · exact lex_of_le r.rest_length_le Nat.zero_lt_one

end

variable {eof t : Token} {kind : DeclarationKind} {d : Draft} {ts us : List Token}

theorem items_of_nil (h : afterComments ts = []) :
    items eof kind d ts = ⟨⟨[], some (.parse .blockEnd eof true)⟩, d, [], List.nil_suffix⟩ := by
  rw [items]
  split
  · rfl
  · next heq => rw [h] at heq; cases heq

theorem items_of_cons (h : afterComments ts = t :: us) (hu : us <:+ ts) :
    items eof kind d ts =
      match t.kind with
      | .closeCurly => ⟨⟨[], none⟩, d, us, hu⟩
      | .declaration _ =>
        ⟨⟨[], none⟩, d.report (.parse .blockEnd t true), ts, List.suffix_refl ts⟩
      | .identifier =>
        (itemsAfter eof kind (item eof kind (leadingComments ts) t d us)).weaken hu
      | _ =>
        (items eof kind (d.report (.parse (itemExpectation kind) t true)) (skipStray t us)).weaken
          ((skipStray_suffix t us).trans hu) := by
  rw [items]
  split
  · next heq => rw [h] at heq; cases heq
  · next heq => rw [h] at heq; cases heq; rfl

theorem items_of_stray (h : afterComments ts = t :: us) (hu : us <:+ ts)
    (hc : t.kind ≠ .closeCurly) (hd : t.kind.startsDeclaration = false)
    (hi : t.kind ≠ .identifier) :
    items eof kind d ts =
      (items eof kind (d.report (.parse (itemExpectation kind) t true)) (skipStray t us)).weaken
        ((skipStray_suffix t us).trans hu) := by
  rw [items_of_cons h hu]
  cases hk : t.kind <;> rw [hk] at hc hd hi <;>
    first | rfl | exact absurd rfl hc | exact absurd rfl hi | cases hd

theorem typeAt_of_isType {mark : Char} {cs : List String} {k : DeclarationKind}
    (h : t.kind = .declaration k) (hk : k.isType = true) :
    typeAt eof mark cs d (t :: us) =
      (inlineDeclaration eof k cs (opening eof k t true d us)).weaken (List.suffix_cons t us) := by
  cases k with
  | type => rw [typeAt, h]
  | enum => rw [typeAt, h]
  | _ => cases hk

end GameSchema.Grammar
