import GameSchema.Token.Basic

/-!
# From text to tokens

A source is read as its lines, each ended by one newline, and is cut from left to right into lexical
elements: layout characters, punctuation, words, version numbers and comments. Each element gives
the tokens it holds, none for layout. A character that starts no element, a version number that
stops after a dot, and a comment that is never closed end the reading.

A line comment runs to the end of its line. Block comments nest: one ends at the `*/` that brings
the count of openings less closings back to zero, where markers are read from left to right and an
opening is looked for first. A block comment gives one token for each of its lines that still holds
text once the nested markers, the blanks around it and one leading star are gone.
-/

namespace GameSchema

namespace Comment

/-- The part of a text up to and including the `*/` that closes a comment inside which `depth`
further comments are open, and the text after it. `none` when the comment is never closed. -/
def extent : Nat → List Char → Option (List Char × List Char)
  | _, [] => none
  | depth, '/' :: '*' :: cs => (extent (depth + 1) cs).map fun r => ('/' :: '*' :: r.1, r.2)
  | 0, '*' :: '/' :: cs => some (['*', '/'], cs)
  | depth + 1, '*' :: '/' :: cs => (extent depth cs).map fun r => ('*' :: '/' :: r.1, r.2)
  | depth, c :: cs => (extent depth cs).map fun r => (c :: r.1, r.2)

/-- The text of a comment without its opening and closing markers, read from left to right. -/
def unmarked : List Char → List Char
  | [] => []
  | '/' :: '*' :: cs => unmarked cs
  | '*' :: '/' :: cs => unmarked cs
  | c :: cs => c :: unmarked cs

/-- The token of a piece of comment that starts at `p`: the trimmed text, at its own place. -/
def token (p : Position) (raw : List Char) : Token :=
  ⟨.comment, String.ofList (Text.trim raw), p.shift (Text.indent raw)⟩

/-- The token of one line of a block comment, or `none` for a line without text. A leading star is
decoration and is dropped together with the blanks around it. -/
def lineToken? (p : Position) (raw : List Char) : Option Token :=
  let t := match Text.trimStart raw with
    | '*' :: cs => token (p.shift (Text.indent raw + 1)) cs
    | _ => token p raw
  if t.lexeme = "" then none else some t

/-- The tokens of a block comment whose text, markers removed, starts at `p`. Its first line starts
there and each further line at column zero. -/
def blockTokens (p : Position) (text : List Char) : List Token :=
  match Text.pieces '\n' text with
  | [] => []
  | first :: more =>
    ((p, first) :: more.mapIdx fun i raw => (⟨p.line + 1 + i, 0⟩, raw)).filterMap fun l =>
      lineToken? l.1 l.2

theorem extent_append {depth : Nat} {cs taken rest : List Char}
    (h : extent depth cs = some (taken, rest)) : taken ++ rest = cs := by
  fun_induction extent depth cs generalizing taken rest with
  | case1 => simp at h
  | case2 depth cs ih | case4 depth cs ih | case5 depth c cs _ _ _ ih =>
    obtain ⟨⟨t, r⟩, hr, he⟩ := Option.map_eq_some_iff.1 h
    simp only [Prod.mk.injEq] at he
    obtain ⟨rfl, rfl⟩ := he
    simp [ih hr]
  | case3 cs =>
    simp only [Option.some.injEq, Prod.mk.injEq] at h
    obtain ⟨rfl, rfl⟩ := h
    rfl

end Comment

inductive ScanFault where
  | unexpected (c : Char)
  | missingDigit
  | unterminatedComment
deriving DecidableEq

def ScanFault.message : ScanFault → String
  | unexpected c => "Unexpected character '" ++ c.toString ++ "'"
  | missingDigit => "Expected digit after '.' in version number"
  | unterminatedComment => "Unterminated block comment"

structure ScanError where
  fault : ScanFault
  position : Position
deriving DecidableEq

namespace Scan

/-- A lexical element: the tokens that it holds, its characters and the text after it. -/
structure Element where
  tokens : List Token
  taken : List Char
  rest : List Char

/-- The characters between tokens: blanks, tabs, line ends and the byte order mark. -/
def isLayout (c : Char) : Bool :=
  c == ' ' || c == '\t' || c == '\r' || c == '\n' || c == '\uFEFF'

def isWordStart (c : Char) : Bool := c == '_' || c.isAlpha

def isWordPart (c : Char) : Bool := c == '_' || c.isAlphanum

/-- The kind of token that a single character makes. -/
def punctuation? (c : Char) : Option TokenKind :=
  match c with
  | '{' => some .openCurly
  | '}' => some .closeCurly
  | ':' => some .colon
  | ',' => some .comma
  | '<' => some .less
  | '>' => some .greater
  | _ => none

/-- Reads at most `n` further parts of a version number, each a dot and digits: the characters read
and the text after them. Fails with the characters up to a dot that no digit follows. -/
def versionParts : Nat → List Char → Except (List Char) (List Char × List Char)
  | n + 1, '.' :: cs =>
    match cs.takeWhile Char.isDigit with
    | [] => .error ['.']
    | d :: ds =>
      match versionParts n (cs.dropWhile Char.isDigit) with
      | .ok (more, rest) => .ok ('.' :: d :: ds ++ more, rest)
      | .error more => .error ('.' :: d :: ds ++ more)
  | _, cs => .ok ([], cs)

/-- The element of a version number: digits, then up to two parts of a dot and digits. -/
def versionNumber (p : Position) (cs : List Char) : Except ScanError Element :=
  let major := cs.takeWhile Char.isDigit
  match versionParts 2 (cs.dropWhile Char.isDigit) with
  | .ok (more, rest) =>
    .ok ⟨[⟨.versionNumber, String.ofList (major ++ more), p⟩], major ++ more, rest⟩
  | .error more => .error ⟨.missingDigit, p.after (major ++ more)⟩

/-- The element of a word, which is a keyword or an identifier. -/
def word (p : Position) (cs : List Char) : Element :=
  let w := String.ofList (cs.takeWhile isWordPart)
  ⟨[⟨wordKind w, w, p⟩], cs.takeWhile isWordPart, cs.dropWhile isWordPart⟩

/-- The element of a line comment; `cs` is the text after its two slashes. -/
def lineComment (p : Position) (cs : List Char) : Element :=
  let raw := cs.takeWhile (· ≠ '\n')
  ⟨[Comment.token (p.shift 2) raw], '/' :: '/' :: raw, cs.dropWhile (· ≠ '\n')⟩

/-- The element of a block comment; `cs` is the text after its opening marker. -/
def blockComment (p : Position) (cs : List Char) : Except ScanError Element :=
  match Comment.extent 0 cs with
  | some (body, rest) =>
    .ok ⟨Comment.blockTokens (p.shift 2) (Comment.unmarked body), '/' :: '*' :: body, rest⟩
  | none => .error ⟨.unterminatedComment, p⟩

/-- The lexical element that starts at `p` with the character `c`, which `cs` follows. -/
def element (p : Position) (c : Char) (cs : List Char) : Except ScanError Element :=
  if isLayout c then .ok ⟨[], [c], cs⟩
  else match punctuation? c with
    | some k => .ok ⟨[⟨k, c.toString, p⟩], [c], cs⟩
    | none =>
      if c.isDigit then versionNumber p (c :: cs)
      else if isWordStart c then .ok (word p (c :: cs))
      else match c, cs with
        | '/', '/' :: cs => .ok (lineComment p cs)
        | '/', '*' :: cs => blockComment p cs
        | _, _ => .error ⟨.unexpected c, p⟩

theorem versionParts_append {n : Nat} {cs more rest : List Char}
    (h : versionParts n cs = .ok (more, rest)) : more ++ rest = cs := by
  fun_induction versionParts n cs generalizing more rest with
  | case1 => simp at h
  | case2 n cs d ds hd m r hr ih =>
    simp only [Except.ok.injEq, Prod.mk.injEq] at h
    obtain ⟨rfl, rfl⟩ := h
    simp only [List.cons_append, List.append_assoc, ih hr, List.cons.injEq, true_and]
    rw [← List.cons_append, ← hd, List.takeWhile_append_dropWhile]
  | case3 => simp at h
  | case4 => simp_all

theorem isWordPart_of_isWordStart {c : Char} (h : isWordStart c = true) : isWordPart c = true := by
  simp only [isWordStart, isWordPart, Char.isAlphanum, Bool.or_eq_true] at *
  exact h.imp_right .inl

theorem versionNumber_append {p : Position} {cs : List Char} {e : Element}
    (h : versionNumber p cs = .ok e) : e.taken ++ e.rest = cs := by
  simp only [versionNumber] at h
  split at h
  · next more rest hv =>
    simp only [Except.ok.injEq] at h
    subst h
    simp only [List.append_assoc, versionParts_append hv, List.takeWhile_append_dropWhile]
  · simp at h

theorem blockComment_append {p : Position} {cs : List Char} {e : Element}
    (h : blockComment p cs = .ok e) : e.taken ++ e.rest = '/' :: '*' :: cs := by
  simp only [blockComment] at h
  split at h
  · next body rest hb =>
    simp only [Except.ok.injEq] at h
    subst h
    simp [Comment.extent_append hb]
  · simp at h

theorem versionNumber_taken_ne_nil {p : Position} {c : Char} {cs : List Char} {e : Element}
    (hc : c.isDigit = true) (h : versionNumber p (c :: cs) = .ok e) : e.taken ≠ [] := by
  simp only [versionNumber] at h
  split at h
  · simp only [Except.ok.injEq] at h
    subst h
    simp [hc]
  · simp at h

theorem blockComment_taken_ne_nil {p : Position} {cs : List Char} {e : Element}
    (h : blockComment p cs = .ok e) : e.taken ≠ [] := by
  simp only [blockComment] at h
  split at h <;> simp_all
  subst h
  simp

/-- An element is the beginning of the text that it was read from. -/
theorem element_append {p : Position} {c : Char} {cs : List Char} {e : Element}
    (h : element p c cs = .ok e) : e.taken ++ e.rest = c :: cs := by
  simp only [element] at h
  split at h
  · cases h; rfl
  split at h
  · cases h; rfl
  split at h
  · exact versionNumber_append h
  split at h
  · cases h; simp [word, List.takeWhile_append_dropWhile]
  split at h
  · cases h; simp [lineComment, List.takeWhile_append_dropWhile]
  · exact blockComment_append h
  · simp at h

/-- An element has at least one character. -/
theorem element_taken_ne_nil {p : Position} {c : Char} {cs : List Char} {e : Element}
    (h : element p c cs = .ok e) : e.taken ≠ [] := by
  simp only [element] at h
  split at h
  · cases h; simp
  split at h
  · cases h; simp
  split at h
  · next hd => exact versionNumber_taken_ne_nil hd h
  split at h
  · next hw => cases h; simp [word, isWordPart_of_isWordStart hw]
  split at h
  · cases h; simp [lineComment]
  · exact blockComment_taken_ne_nil h
  · simp at h

theorem element_rest_length {p : Position} {c : Char} {cs : List Char} {e : Element}
    (h : element p c cs = .ok e) : e.rest.length < (c :: cs).length := by
  have hl := congrArg List.length (element_append h)
  have hp := List.length_pos_iff.2 (element_taken_ne_nil h)
  simp only [List.length_append] at hl
  omega

end Scan

/-- The tokens of a text that starts at `p`, without the final end of file. -/
def scanFrom (p : Position) (cs : List Char) : Except ScanError (List Token) :=
  match cs with
  | [] => .ok []
  | c :: cs =>
    match _h : Scan.element p c cs with
    | .error e => .error e
    | .ok e =>
      match scanFrom (p.after e.taken) e.rest with
      | .error e => .error e
      | .ok tokens => .ok (e.tokens ++ tokens)
termination_by cs.length
decreasing_by exact Scan.element_rest_length _h

/-- The end of a source: the end of its last line. -/
def sourceEnd (source : List Char) : Position :=
  match (Text.lines source).getLast? with
  | none => .origin
  | some l => ⟨(Text.lines source).length - 1, l.length⟩

/-- The tokens of a source; the last one is the end of file. -/
def scan (source : String) : Except ScanError (List Token) :=
  match scanFrom .origin (Text.normalized source.toList) with
  | .error e => .error e
  | .ok tokens => .ok (tokens ++ [Token.endOfFile (sourceEnd source.toList)])

end GameSchema
