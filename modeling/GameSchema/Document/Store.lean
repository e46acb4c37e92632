import GameSchema.Compilation
import GameSchema.Completion

/-!
# Open documents

An edit replaces the part of a text between two places, or the whole text. Only newlines end a line
here, so a carriage return counts as a character. A place beyond the end of its line means that end,
and a place below the last line means the end of the text.

The documents that an editor has open are kept by their uri. Each keeps its text, what the text
compiles to, and the declarations of its last text that compiled without errors, which completion
uses while the text is broken. The edits of one change are made all together or not at all.
-/

namespace GameSchema

namespace Text

/-- The number of characters before a place. On the bytes of a text the place is where these
characters end (`Utf8.offset?_eq`). -/
def offset : List Char → Position → Nat
  | [], _ => 0
  | c :: cs, ⟨0, column⟩ =>
    match column with
    | 0 => 0
    | column + 1 => if c = '\n' then 0 else offset cs ⟨0, column⟩ + 1
  | c :: cs, ⟨line + 1, column⟩ =>
    offset cs (if c = '\n' then ⟨line, column⟩ else ⟨line + 1, column⟩) + 1

/-- The text with the characters from `start` up to `stop` replaced. -/
def splice (cs : List Char) (start stop : Nat) (new : List Char) : List Char :=
  cs.take start ++ new ++ cs.drop stop

theorem offset_le_length (cs : List Char) (p : Position) : offset cs p ≤ cs.length := by
  fun_induction offset cs p <;> simp_all

end Text

/-- An edit: the new text, and the part that it replaces, or nothing for the whole text. -/
structure Edit where
  range : Option Range
  text : String

/-- The text after an edit; `none` when the part to replace ends before it starts. Cutting the bytes
of the text gives the same (`Utf8.perform?_eq`). -/
def Edit.perform? (e : Edit) (source : String) : Option String :=
  match e.range with
  | none => some e.text
  | some r =>
    let start := Text.offset source.toList r.start
    let stop := Text.offset source.toList r.stop
    if stop < start then none
    else some (String.ofList (Text.splice source.toList start stop e.text.toList))

/-- The text after edits that are made one after another, each one where the one before it left the
text. -/
def Edit.performAll? (es : List Edit) (source : String) : Option String :=
  es.foldlM (fun s e => e.perform? s) source

@[simp] theorem Edit.performAll?_nil (source : String) :
    Edit.performAll? [] source = some source := rfl

@[simp] theorem Edit.performAll?_cons (e : Edit) (es : List Edit) (source : String) :
    Edit.performAll? (e :: es) source = (e.perform? source).bind (Edit.performAll? es) := rfl

structure Document where
  text : String
  compilation : Compilation
  lastGood : List Declaration

inductive DocumentError where
  | notOpen (uri : String)
  | invalidRange
deriving DecidableEq

def DocumentError.message : DocumentError → String
  | notOpen uri => "document '" ++ uri ++ "' is not open"
  | invalidRange => "edit range ends before it starts"

/-- A diagnostic as an editor shows it. -/
structure DocumentDiagnostic where
  range : Range
  severity : Severity
  message : String

namespace Document

/-- The document of a text, given the declarations that completion has so far. -/
def ofText (version : String) (previous : List Declaration) (text : String) : Document :=
  let c := compile version text
  ⟨text, c, if c.hasErrors then previous else c.declarations⟩

def diagnostics (d : Document) : List DocumentDiagnostic :=
  d.compilation.diagnostics.map fun x => ⟨x.range, x.severity, x.message⟩

def completions (version : String) (d : Document) (p : Position) : List Completion.Item :=
  Completion.itemsAt version d.lastGood d.text p.line p.column

end Document

/-- The open documents, with the language version that they are compiled for. -/
structure DocumentStore where
  version : String
  entries : List (String × Document)

namespace DocumentStore

def empty (version : String) : DocumentStore := ⟨version, []⟩

def get? (s : DocumentStore) (uri : String) : Option Document :=
  (s.entries.find? fun e => e.1 == uri).map (·.2)

def isOpen (s : DocumentStore) (uri : String) : Bool := (s.get? uri).isSome

def erase (s : DocumentStore) (uri : String) : DocumentStore :=
  { s with entries := s.entries.filter fun e => e.1 != uri }

/-- The store with a document put in place of the one its uri had. -/
def insert (s : DocumentStore) (uri : String) (d : Document) : DocumentStore :=
  { s with entries := (uri, d) :: (s.erase uri).entries }

/-- Opens a document, or opens it anew with nothing kept from before. -/
def openText (s : DocumentStore) (uri text : String) : DocumentStore :=
  s.insert uri (.ofText s.version [] text)

/-- Makes the edits of a change one after another and compiles the result. -/
def change (s : DocumentStore) (uri : String) (edits : List Edit) :
    Except DocumentError DocumentStore :=
  match s.get? uri with
  | none => .error (.notOpen uri)
  | some d =>
    match Edit.performAll? edits d.text with
    | none => .error .invalidRange
    | some text => .ok (s.insert uri (.ofText s.version d.lastGood text))

/-- Closes a document; also tells whether it was open. -/
def close (s : DocumentStore) (uri : String) : Bool × DocumentStore := (s.isOpen uri, s.erase uri)

def text? (s : DocumentStore) (uri : String) : Option String := (s.get? uri).map (·.text)

def diagnostics? (s : DocumentStore) (uri : String) : Option (List DocumentDiagnostic) :=
  (s.get? uri).map (·.diagnostics)

def completions? (s : DocumentStore) (uri : String) (p : Position) :
    Option (List Completion.Item) :=
  (s.get? uri).map (·.completions s.version p)

@[simp] theorem get?_empty (version uri : String) : (empty version).get? uri = none := rfl

@[simp] theorem get?_erase (s : DocumentStore) (uri other : String) :
    (s.erase uri).get? other = if other = uri then none else s.get? other := by
  simp only [get?, erase]
  induction s.entries with
  | nil => simp
  | cons e es ih =>
    by_cases hk : e.1 = uri <;> by_cases ho : e.1 = other <;> grind

@[simp] theorem get?_insert (s : DocumentStore) (uri other : String) (d : Document) :
    (s.insert uri d).get? other = if other = uri then some d else s.get? other := by
  have he := get?_erase s uri other
  by_cases h : other = uri
  · simp [get?, insert, h]
  · simp only [h, if_false] at he ⊢
    simpa [get?, insert, Ne.symm h] using he

end DocumentStore

end GameSchema
