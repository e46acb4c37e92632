import GameSchema.Compilation
import GameSchema.Proofs.Token.Rescan
import GameSchema.Schema.Render

/-!
# Printed schemas

The text that a compiled source is printed as, and what of its declarations that text holds: all
but the places of the tokens, the comments of properties, and whether a config was written at all.
A printed text is written line by line, and each line is scanned as the tokens that spell it.
-/

namespace GameSchema

/-- The header, with its comments above it, and the declarations, as a source. -/
def Compilation.render (c : Compilation) : String :=
  String.intercalate "\n" ((c.metadata.comments.map ("// " ++ ·)) ++
    ["name " ++ c.metadata.name, "version " ++ c.metadata.version] ++
    c.declarations.map (·.render))

section Held

/-- A type without the places of its tokens. -/
def PropertyType.unplaced : PropertyType → PropertyType
  | plain t i => plain t.unplaced i
  | generic t i e => generic t.unplaced i e.unplaced

def Property.unplaced (p : Property) : Property :=
  { p with nameToken := p.nameToken.unplaced, type := p.type.map (·.unplaced) }

def Declaration.unplaced (x : Declaration) : Declaration :=
  { x with nameToken := x.nameToken.map (·.unplaced), properties := x.properties.map (·.unplaced) }

/-- What of a property its text holds. -/
def Property.printed (p : Property) : Property := { p.unplaced with comments := [] }

/-- What of a declaration its text holds. A config is always written with its keyword. -/
def Declaration.printed (x : Declaration) : Declaration :=
  { x with
    nameToken := some (x.nameToken.getD (.symbol (.declaration .config))).unplaced
    properties := x.properties.map (·.printed) }

theorem PropertyType.render_unplaced (t : PropertyType) : t.unplaced.render = t.render := by
  induction t with
  | plain t i => rfl
  | generic t i e ih => simp [unplaced, render, ih]

theorem Property.render_unplaced (p : Property) : p.unplaced.render = p.render := by
  cases h : p.type <;> simp [render, unplaced, h, PropertyType.render_unplaced]

theorem Property.render_printed (p : Property) : p.printed.render = p.render :=
  p.render_unplaced

/-- What a text does not hold of a declaration does not change the text. -/
theorem Declaration.render_unplaced (x : Declaration) : x.unplaced.render = x.render := by
  have htitle : x.unplaced.title = x.title := rfl
  simp only [render, htitle]
  simp [unplaced, Function.comp_def, Property.render_unplaced]

theorem Declaration.render_printed (x : Declaration) : x.printed.render = x.render := by
  have htitle : x.printed.title = x.title := rfl
  simp only [render, htitle]
  simp [printed, Function.comp_def, Property.render_printed]

/-- Schemas of which the texts hold the same are printed as the same. -/
theorem Compilation.render_congr {c d : Compilation} (hmetadata : d.metadata = c.metadata)
    (h : d.declarations.map (·.unplaced) = c.declarations.map (·.printed)) :
    d.render = c.render := by
  have htexts : d.declarations.map (·.render) = c.declarations.map (·.render) := by
    have hmap := congrArg (List.map (·.render)) h
    simpa [Function.comp_def, Declaration.render_unplaced, Declaration.render_printed] using hmap
  rw [render, render, hmetadata, htexts]

end Held

section Printable

/-- A name that no keyword has taken. -/
def IsIdentifier (s : String) : Prop := IsWord s ∧ wordKind s = .identifier

/-- A type of words in which the containers, and only those, have an element type. -/
def PropertyType.Printable : PropertyType → Prop
  | plain t _ => (t.kind.isScalar = true ∨ t.kind = .identifier) ∧ t.Lexical
  | generic t _ e => t.kind.isContainer = true ∧ t.Lexical ∧ e.Printable

/-- An item of a declaration of a given kind with a name and a type that can be written. -/
structure Property.Printable (kind : DeclarationKind) (p : Property) : Prop where
  name : IsIdentifier p.name
  nameToken : p.nameToken.unplaced = ⟨.identifier, p.name, .origin⟩
  typed : p.type = none ↔ kind = .enum
  type : ∀ t, p.type = some t → t.Printable

structure Declaration.Printable (x : Declaration) : Prop where
  comments : ∀ c ∈ x.comments, IsCommentText c
  properties : ∀ p ∈ x.properties, p.Printable x.kind
  config : x.kind = .config → x.name = "" ∧
    ∀ t ∈ x.nameToken, t.unplaced = .symbol (.declaration .config)
  named : x.kind ≠ .config → IsIdentifier x.name ∧
    ∃ t, x.nameToken = some t ∧ t.unplaced = ⟨.identifier, x.name, .origin⟩

/-- A compiled source whose names, version and comments can be written. -/
structure Compilation.Printable (c : Compilation) : Prop where
  comments : ∀ t ∈ c.metadata.comments, IsCommentText t
  name : IsIdentifier c.metadata.name
  version : IsVersionNumber c.metadata.version
  declarations : ∀ x ∈ c.declarations, x.Printable

end Printable

section Spelling

/-- The tokens that a type is written with. -/
def PropertyType.spelling : PropertyType → List Token
  | plain t _ => [t.unplaced]
  | generic t _ e => t.unplaced :: .symbol .less :: (e.spelling ++ [.symbol .greater])

def Property.typeSpelling (p : Property) : List Token :=
  match p.type with
  | none => []
  | some t => .symbol .colon :: t.spelling

def Property.spelling (p : Property) : List Token :=
  ⟨.identifier, p.name, .origin⟩ :: (p.typeSpelling ++ [.symbol .comma])

def commentToken (c : String) : Token := ⟨.comment, c, .origin⟩

/-- The keyword of a declaration and its name, if it has one. -/
def Declaration.heading (x : Declaration) : List Token :=
  .symbol (.declaration x.kind) ::
    if x.kind = .config then [] else [⟨.identifier, x.name, .origin⟩]

def Declaration.spelling (x : Declaration) : List Token :=
  x.comments.map commentToken ++ (x.heading ++ .symbol .openCurly ::
    (x.properties.flatMap (·.spelling) ++ [.symbol .closeCurly]))

def Compilation.spelling (c : Compilation) : List Token :=
  c.metadata.comments.map commentToken ++
    .symbol .name :: ⟨.identifier, c.metadata.name, .origin⟩ ::
    .symbol .version :: ⟨.versionNumber, c.metadata.version, .origin⟩ ::
    c.declarations.flatMap (·.spelling)

end Spelling

section Lines
open Text

def commentLine (c : String) : List Char := '/' :: '/' :: ' ' :: c.toList

/-- The lines that a declaration is written on. -/
def Declaration.textLines (x : Declaration) : List (List Char) :=
  x.comments.map commentLine ++ (x.title.toList ++ [' ', '{']) ::
    (x.properties.map (fun p => '\t' :: p.render.toList ++ [',']) ++ [['}']])

def Compilation.textLines (c : Compilation) : List (List Char) :=
  c.metadata.comments.map commentLine ++
    ("name ".toList ++ c.metadata.name.toList) ::
    ("version ".toList ++ c.metadata.version.toList) ::
    c.declarations.flatMap (·.textLines)

/-- Newlines before texts are newlines behind the texts before them. -/
theorem newline_cons_unlines (ls : List (List Char)) :
    '\n' :: unlines ls = ls.flatMap ('\n' :: ·) ++ ['\n'] := by
  induction ls with
  | nil => rfl
  | cons l ls ih => simp [ih]

theorem unlines_commentLine (cs : List String) :
    unlines (cs.map commentLine) =
      (String.join (cs.map fun c => "// " ++ c ++ "\n")).toList := by
  simp [unlines, String.toList_join, List.flatMap_map, commentLine]

theorem Declaration.unlines_textLines (x : Declaration) :
    unlines x.textLines = x.render.toList ++ ['\n'] := by
  have hbody := newline_cons_unlines (x.properties.map fun p => '\t' :: p.render.toList ++ [','])
  simp only [List.flatMap_map] at hbody
  simp only [textLines, unlines_append, unlines_commentLine, unlines_cons, List.append_assoc,
    ← List.cons_append, hbody]
  simp [render, String.toList_join, List.flatMap_map]

theorem unlines_flatMap {α : Type} (f : α → List (List Char)) (xs : List α) :
    unlines (xs.flatMap f) = xs.flatMap fun x => unlines (f x) := by
  simp [unlines, List.flatMap_assoc]

/-- Texts with newlines between them lack the newline of the last one. -/
theorem intercalate_append_newline {ls : List (List Char)} (h : ls ≠ []) :
    ['\n'].intercalate ls ++ ['\n'] = unlines ls := by
  induction ls with
  | nil => exact absurd rfl h
  | cons l ls ih =>
    cases ls with
    | nil => simp
    | cons m ls =>
      rw [List.intercalate_cons_cons, List.append_assoc, ih (by simp)]
      simp

theorem Compilation.unlines_textLines (c : Compilation) :
    unlines c.textLines = c.render.toList ++ ['\n'] := by
  have hdeclarations : unlines (c.declarations.flatMap (·.textLines)) =
      unlines (c.declarations.map fun x => x.render.toList) := by
    simp only [unlines_flatMap, Declaration.unlines_textLines]
    simp [unlines, List.flatMap_map]
  have hcomments : c.metadata.comments.map commentLine =
      c.metadata.comments.map fun t => ("// " ++ t).toList := by
    apply List.map_congr_left
    intro t _
    simp [commentLine]
  have hnewline : "\n".toList = ['\n'] := rfl
  rw [render, String.toList_intercalate, hnewline, intercalate_append_newline (by simp)]
  simp [textLines, hdeclarations, hcomments, Function.comp_def]

end Lines

end GameSchema
