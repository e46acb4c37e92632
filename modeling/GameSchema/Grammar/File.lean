import GameSchema.Grammar.Block
import GameSchema.Version

/-!
# Files

The rules for a whole file.

```text
file        := comment* "name" identifier "version" version-number declaration* comment* eof
declaration := comment* ("config" | ("command" | "event" | "type" | "enum") identifier) "{" block
```

A header entry that is missing is reported and leaves its field empty. A bad declaration is reported
and left out, and reading goes on behind its block. When everything is read, references to types are
resolved and a config is supplied if there is none.
-/

namespace GameSchema

namespace Grammar

open Token Recovery

/-- Reads a keyword and the value after it, or reports the one that is missing. -/
def entry (eof : Token) (keyword value : TokenKind) (keywordWanted valueWanted : Expectation)
    (d : Draft) (ts : List Token) : Reading (Except Diagnostic Token) ts :=
  if startsWith keyword ts then
    if startsWith value ts.tail then
      ⟨.ok (here eof ts.tail), d, ts.tail.tail,
        (List.tail_suffix ts.tail).trans (List.tail_suffix ts)⟩
    else
      ⟨.error (.parse valueWanted (here eof ts.tail) false), d, ts.tail, List.tail_suffix ts⟩
  else .fail (.parse keywordWanted (here eof ts) false) d ts

/-- The lexeme of a token that was read, or nothing where it is missing. -/
def entryText : Except Diagnostic Token → String
  | .ok t => t.lexeme
  | .error _ => ""

/-- Warns when a file's version does not fit the compiler. -/
def checkVersion (compiler : String) (d : Draft) : Except Diagnostic Token → Draft
  | .ok t => if Version.compatible t.lexeme compiler then d else d.report (.version compiler t)
  | .error x => d.report x

def header (eof : Token) (compiler : String) (ts : List Token) : Reading Metadata ts :=
  let name := (entry eof .name .identifier .nameKeyword .gameName .empty (afterComments ts)).weaken
    (afterComments_suffix ts)
  let version := (entry eof .version .versionNumber .versionKeyword .languageVersion
    (name.draft.reportError name.value) name.rest).weaken name.suffix
  ⟨⟨entryText name.value, leadingComments ts, entryText version.value⟩,
    checkVersion compiler version.draft version.value, version.rest, version.suffix⟩

/-- The declaration of a block that has been read, unless the block has a fault. -/
def blockDeclaration (kind : DeclarationKind) (name : Token) (comments : List String) (b : Block) :
    Except Diagnostic Declaration :=
  match b.fault? with
  | some x => .error x
  | none => .ok ⟨kind, if kind = .config then "" else name.lexeme, some name, comments, b.items⟩

/-- Reads the block of a declaration at the top level, once it has been opened. -/
def declarationBlock {ts : List Token} (eof : Token) (kind : DeclarationKind)
    (comments : List String) (r : Reading (Except Diagnostic Token) ts) :
    Reading (Except Diagnostic Declaration) ts :=
  r.andThen fun name =>
    (items eof kind r.draft r.rest).map (blockDeclaration kind name comments)

def declaration (eof : Token) (kind : DeclarationKind) (keyword : Token) (comments : List String)
    (d : Draft) (ts : List Token) : Reading (Except Diagnostic Declaration) ts :=
  declarationBlock eof kind comments (opening eof kind keyword false d ts)

/-- The tokens behind a declaration that failed, from where it failed. -/
def recover (x : Diagnostic) (ts : List Token) : List Token :=
  if x.inBlock then skipBody 0 ts else skipDeclaration ts

theorem recover_suffix (x : Diagnostic) (ts : List Token) : recover x ts <:+ ts := by
  simp only [recover]
  split
  · exact skipBody_suffix 0 ts
  · exact skipDeclaration_suffix ts

/-- Ends a round at the top level: a declaration joins the draft, and a bad one is reported and
skipped. -/
def settle {ts : List Token} (r : Reading (Except Diagnostic Declaration) ts) : Reading Unit ts :=
  match r.value with
  | .ok x => ⟨(), r.draft.push x, r.rest, r.suffix⟩
  | .error x => ⟨(), r.draft.report x, recover x r.rest, (recover_suffix x r.rest).trans r.suffix⟩

/-- The tokens behind a token `t` where no declaration can start, given the tokens after it. -/
def skipForeign (t : Token) (ts : List Token) : List Token :=
  if t.kind = .openCurly then skipBody 0 ts else skipDeclaration ts

theorem skipForeign_suffix (t : Token) (ts : List Token) : skipForeign t ts <:+ ts := by
  simp only [skipForeign]
  split
  · exact skipBody_suffix 0 ts
  · exact skipDeclaration_suffix ts

/-- At a token that opens no declaration, skipping starts with that token. -/
theorem skipDeclaration_eq_skipForeign {t : Token} {ts : List Token}
    (h : t.kind.startsDeclaration = false) : skipDeclaration (t :: ts) = skipForeign t ts := by
  cases hk : t.kind <;>
    simp_all [skipDeclaration, skipForeign, TokenKind.startsDeclaration, TokenKind.declaration?]

/-- What a round at the top level makes of the token `t` with its comments: a declaration is read,
and anything else is reported and skipped. -/
def topLevel (eof : Token) (comments : List String) (t : Token) (d : Draft) (ts : List Token) :
    Reading Unit ts :=
  match t.kind with
  | .declaration kind => settle (declaration eof kind t comments d ts)
  | _ => ⟨(), d.report (.parse .declaration t false), skipForeign t ts, skipForeign_suffix t ts⟩

/-- One round at the top level, at the first token that is no comment. `none` when there is none. -/
def round (eof : Token) (d : Draft) (ts : List Token) : Option (Reading Unit ts) :=
  match h : afterComments ts with
  | [] => none
  | t :: us =>
    some ((topLevel eof (leadingComments ts) t d us).weaken
      (suffix_of_afterComments h))

theorem round_of_nil {eof : Token} {d : Draft} {ts : List Token} (h : afterComments ts = []) :
    round eof d ts = none := by
  rw [round]
  split
  · rfl
  · next heq => rw [h] at heq; cases heq

theorem round_of_cons {eof t : Token} {d : Draft} {ts us : List Token}
    (h : afterComments ts = t :: us) :
    round eof d ts = some ((topLevel eof (leadingComments ts) t d us).weaken
      (suffix_of_afterComments h)) := by
  rw [round]
  split
  · next heq => rw [h] at heq; cases heq
  · next heq => rw [h] at heq; cases heq; rfl

theorem length_lt_of_round {eof : Token} {d : Draft} {ts : List Token} {r : Reading Unit ts}
    (h : round eof d ts = some r) : r.rest.length < ts.length := by
  cases hc : afterComments ts with
  | nil => rw [round_of_nil hc] at h; cases h
  | cons t us =>
    rw [round_of_cons hc] at h
    cases h
    exact Nat.lt_of_le_of_lt (topLevel eof (leadingComments ts) t d us).rest_length_le
      (length_lt_of_afterComments hc)

def declarations (eof : Token) (d : Draft) (ts : List Token) : Draft :=
  match _h : round eof d ts with
  | none => d
  | some r => declarations eof r.draft r.rest
termination_by ts.length
decreasing_by exact length_lt_of_round _h

theorem declarations_of_none {eof : Token} {d : Draft} {ts : List Token}
    (h : round eof d ts = none) : declarations eof d ts = d := by
  rw [declarations]
  split
  · rfl
  · next heq => rw [h] at heq; cases heq

theorem declarations_of_some {eof : Token} {d : Draft} {ts : List Token} {r : Reading Unit ts}
    (h : round eof d ts = some r) :
    declarations eof d ts = declarations eof r.draft r.rest := by
  rw [declarations]
  split
  · next heq => rw [h] at heq; cases heq
  · next heq => rw [h] at heq; cases heq; rfl

end Grammar

/-- What a list of tokens declares, and what is wrong with it. -/
structure Parse where
  metadata : Metadata
  declarations : List Declaration
  diagnostics : List Diagnostic

/-- Reads a stream as a file, for a compiler of the given version. -/
def parseStream (compiler : String) (s : TokenStream) : Parse :=
  let h := Grammar.header s.eof compiler s.tokens
  let d := Grammar.declarations s.eof h.draft h.rest
  ⟨h.value, finishDeclarations d.declarations, d.diagnostics ++ d.scope.finish⟩

/-- Reads a list of tokens as a file, for a compiler of the given version. -/
def parse (compiler : String) (tokens : List Token) : Parse :=
  parseStream compiler (.ofList tokens)

end GameSchema
