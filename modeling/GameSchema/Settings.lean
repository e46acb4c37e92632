/-!
# Settings

The settings that a file can hold. Each is optional: a switch that is not set is off, and a text or
a choice that is not set leaves the decision to others.

A settings file is a TOML document whose keys are single names and whose values are booleans or
strings; settings have no other values, so every other document is refused. A key is bare or quoted,
a string is basic or literal, on one line or on several, and an assignment ends with its line. Of
the control characters only the tab may stand in strings and comments. A carriage return before a
newline belongs to it.
-/

namespace GameSchema

structure Settings where
  compilerVersion : Option String
  prettyErrors : Bool
  color : Option Bool
  logLevel : Option String
  warningsAsErrors : Bool
deriving DecidableEq

namespace Settings

def default : Settings := ⟨none, false, none, none, false⟩

inductive Value where
  | bool (value : Bool)
  | text (value : String)
deriving DecidableEq

/-- The settings with one more set; `none` for a name that is no setting and for a value of the
wrong kind. -/
def assign? (s : Settings) (name : String) (value : Value) : Option Settings :=
  match name, value with
  | "compiler_version", .text v => some { s with compilerVersion := some v }
  | "pretty_errors", .bool b => some { s with prettyErrors := b }
  | "color", .bool b => some { s with color := some b }
  | "log_level", .text v => some { s with logLevel := some v }
  | "warnings_as_errors", .bool b => some { s with warningsAsErrors := b }
  | _, _ => none

/-- The settings that a list of assignments makes; `none` when one of them is refused or a name
occurs twice. -/
def ofAssignments? (as : List (String × Value)) : Option Settings :=
  if (as.map (·.1)).Nodup then as.foldlM (fun s a => s.assign? a.1 a.2) default else none

@[simp] theorem ofAssignments?_nil : ofAssignments? [] = some default := rfl

end Settings

namespace Settings.Toml

/-- The text with carriage returns before newlines left out. -/
def normalizeNewlines : List Char → List Char
  | [] => []
  | '\r' :: '\n' :: cs => '\n' :: normalizeNewlines cs
  | c :: cs => c :: normalizeNewlines cs

/-- The blanks inside a line. -/
def isSpace (c : Char) : Bool := c == ' ' || c == '\t'

/-- The blanks inside a line and the newline. -/
def isGap (c : Char) : Bool := isSpace c || c == '\n'

/-- The characters that strings and comments can hold: all but control characters, and the tab. -/
def isPlain (c : Char) : Bool := c == '\t' || (0x20 ≤ c.toNat && c.toNat ≠ 0x7F)

def isBare (c : Char) : Bool := c.isAlphanum || c == '-' || c == '_'

def hexValue? (c : Char) : Option Nat :=
  if c.isDigit then some (c.toNat - '0'.toNat)
  else if 'a' ≤ c ∧ c ≤ 'f' then some (c.toNat - 'a'.toNat + 10)
  else if 'A' ≤ c ∧ c ≤ 'F' then some (c.toNat - 'A'.toNat + 10)
  else none

/-- The character with the code point that hexadecimal digits write; surrogates are not
characters. -/
def codePoint? (digits : List Char) : Option Char := do
  let n ← digits.foldlM (fun n d => (hexValue? d).map (n * 16 + ·)) 0
  if n.isValidChar then some (Char.ofNat n) else none

/-- The character that a backslash and a letter write. -/
def escaped? (c : Char) : Option Char :=
  match c with
  | 'b' => some '\x08'
  | 't' => some '\t'
  | 'n' => some '\n'
  | 'f' => some '\x0c'
  | 'r' => some '\r'
  | '"' => some '"'
  | '\\' => some '\\'
  | _ => none

def push (c : Char) (r : List Char × List Char) : List Char × List Char := (c :: r.1, r.2)

/-- Reads a basic string from after its opening quote: its characters and the text behind its
closing quote. -/
def basic? : List Char → Option (List Char × List Char)
  | [] => none
  | '"' :: cs => some ([], cs)
  | '\\' :: 'u' :: c₁ :: c₂ :: c₃ :: c₄ :: cs =>
    (codePoint? [c₁, c₂, c₃, c₄]).bind fun x => (basic? cs).map (push x)
  | '\\' :: 'U' :: c₁ :: c₂ :: c₃ :: c₄ :: c₅ :: c₆ :: c₇ :: c₈ :: cs =>
    (codePoint? [c₁, c₂, c₃, c₄, c₅, c₆, c₇, c₈]).bind fun x => (basic? cs).map (push x)
  | '\\' :: c :: cs => (escaped? c).bind fun x => (basic? cs).map (push x)
  | c :: cs => if isPlain c then (basic? cs).map (push c) else none

/-- Reads a literal string from after its opening quote. -/
def literal? : List Char → Option (List Char × List Char)
  | [] => none
  | '\'' :: cs => some ([], cs)
  | c :: cs => if isPlain c then (literal? cs).map (push c) else none

/-- The end of a string of several lines, from after the first three quotes that can close it: up to
two more quotes belong to the string. -/
def closing (quote : Char) : List Char → List Char × List Char
  | c :: d :: cs =>
    if c = quote then if d = quote then ([quote, quote], cs) else ([quote], d :: cs)
    else ([], c :: d :: cs)
  | [c] => if c = quote then ([quote], []) else ([], [c])
  | [] => ([], [])

def endsLine (cs : List Char) : Bool := (cs.dropWhile isSpace).head? == some '\n'

/-- Reads a basic string of several lines from after its opening quotes. A backslash at the end of a
line leaves out everything up to the next character that is no blank and no newline; `skipping`
tells that this is under way. -/
def multiBasic? (skipping : Bool) : List Char → Option (List Char × List Char)
  | [] => none
  | c :: cs =>
    if skipping ∧ isGap c then multiBasic? true cs
    else match c, cs with
      | '"', '"' :: '"' :: cs => some (closing '"' cs)
      | '\\', 'u' :: c₁ :: c₂ :: c₃ :: c₄ :: cs =>
        (codePoint? [c₁, c₂, c₃, c₄]).bind fun x => (multiBasic? false cs).map (push x)
      | '\\', 'U' :: c₁ :: c₂ :: c₃ :: c₄ :: c₅ :: c₆ :: c₇ :: c₈ :: cs =>
        (codePoint? [c₁, c₂, c₃, c₄, c₅, c₆, c₇, c₈]).bind fun x =>
          (multiBasic? false cs).map (push x)
      | '\\', d :: cs =>
        if endsLine (d :: cs) then multiBasic? true cs
        else (escaped? d).bind fun x => (multiBasic? false cs).map (push x)
      | c, cs =>
        if isPlain c ∨ c = '\n' then (multiBasic? false cs).map (push c) else none

/-- Reads a literal string of several lines from after its opening quotes. -/
def multiLiteral? : List Char → Option (List Char × List Char)
  | [] => none
  | '\'' :: '\'' :: '\'' :: cs => some (closing '\'' cs)
  | c :: cs => if isPlain c ∨ c = '\n' then (multiLiteral? cs).map (push c) else none

/-- The text without the newline at its start: one that follows the opening quotes directly is not
part of a string of several lines. -/
def dropNewline : List Char → List Char
  | '\n' :: cs => cs
  | cs => cs

def text? (r : Option (List Char × List Char)) : Option (Value × List Char) :=
  r.map fun r => (.text (String.ofList r.1), r.2)

def value? : List Char → Option (Value × List Char)
  | 't' :: 'r' :: 'u' :: 'e' :: cs => some (.bool true, cs)
  | 'f' :: 'a' :: 'l' :: 's' :: 'e' :: cs => some (.bool false, cs)
  | '"' :: '"' :: '"' :: cs => text? (multiBasic? false (dropNewline cs))
  | '\'' :: '\'' :: '\'' :: cs => text? (multiLiteral? (dropNewline cs))
  | '"' :: cs => text? (basic? cs)
  | '\'' :: cs => text? (literal? cs)
  | _ => none

def key? : List Char → Option (List Char × List Char)
  | '"' :: cs => basic? cs
  | '\'' :: cs => literal? cs
  | cs => if cs.takeWhile isBare = [] then none else some (cs.takeWhile isBare, cs.dropWhile isBare)

/-- Reads the rest of a line, which can hold a comment and nothing else. -/
def lineEnd? (cs : List Char) : Option (List Char) :=
  let rest := match cs.dropWhile isSpace with
    | '#' :: cs => cs.dropWhile isPlain
    | cs => cs
  match rest with
  | [] => some []
  | '\n' :: cs => some cs
  | _ => none

/-- Reads the equals sign between a key and its value, with the blanks around it. -/
def equals? (cs : List Char) : Option (List Char) :=
  match cs.dropWhile isSpace with
  | '=' :: cs => some (cs.dropWhile isSpace)
  | _ => none

/-- Whether a line holds nothing but blanks and a comment. -/
def isEmptyLine (cs : List Char) : Bool :=
  match cs.dropWhile isSpace with
  | [] => true
  | c :: _ => c == '\n' || c == '#'

/-- Reads an assignment and the end of its line. -/
def assignment? (cs : List Char) : Option ((String × Value) × List Char) := do
  let (key, cs) ← key? (cs.dropWhile isSpace)
  let cs ← equals? cs
  let (value, cs) ← value? cs
  let cs ← lineEnd? cs
  return ((String.ofList key, value), cs)

/-- Reads one line, which holds an assignment or none; the line of a string of several lines is all
of its lines. -/
def line? (cs : List Char) : Option (Option (String × Value) × List Char) :=
  if isEmptyLine cs then (lineEnd? cs).map fun rest => (none, rest)
  else (assignment? cs).map fun r => (some r.1, r.2)

theorem length_lt_of_push {o : Option (List Char × List Char)} {c : Char} {n : Nat}
    {r : List Char × List Char} (h : o.map (push c) = some r)
    (ho : ∀ {q}, o = some q → q.2.length < n) : r.2.length < n := by
  obtain ⟨q, hq, rfl⟩ := Option.map_eq_some_iff.1 h
  have hl := ho hq
  exact hl

theorem length_lt_of_basic? {cs : List Char} {r : List Char × List Char} (h : basic? cs = some r) :
    r.2.length < cs.length := by
  fun_induction basic? cs generalizing r with
  | case1 => simp at h
  | case2 cs => grind
  | case3 _ _ _ _ cs ih | case4 _ _ _ _ _ _ _ _ cs ih | case5 _ cs _ _ ih =>
    obtain ⟨x, -, h⟩ := Option.bind_eq_some_iff.1 h
    have := length_lt_of_push h ih
    simp only [List.length_cons]
    omega
  | case6 c cs _ _ _ _ _ ih =>
    have := length_lt_of_push h ih
    simp only [List.length_cons]
    omega
  | case7 => simp at h

theorem length_lt_of_literal? {cs : List Char} {r : List Char × List Char}
    (h : literal? cs = some r) : r.2.length < cs.length := by
  fun_induction literal? cs generalizing r <;> grind [push, Option.map_eq_some_iff]

theorem length_closing_le (quote : Char) (cs : List Char) :
    (closing quote cs).2.length ≤ cs.length := by
  fun_cases closing quote cs <;> grind

theorem length_lt_of_multiBasic? {skipping : Bool} {cs : List Char} {r : List Char × List Char}
    (h : multiBasic? skipping cs = some r) : r.2.length < cs.length := by
  fun_induction multiBasic? skipping cs generalizing r with
  | case4 _ _ _ _ _ cs _ ih | case5 _ _ _ _ _ _ _ _ _ cs _ ih =>
    obtain ⟨x, -, h⟩ := Option.bind_eq_some_iff.1 h
    have := length_lt_of_push h ih
    simp only [List.length_cons]
    omega
  | _ => grind [push, length_closing_le, Option.map_eq_some_iff, Option.bind_eq_some_iff]

theorem length_lt_of_multiLiteral? {cs : List Char} {r : List Char × List Char}
    (h : multiLiteral? cs = some r) : r.2.length < cs.length := by
  fun_induction multiLiteral? cs generalizing r <;>
    grind [push, length_closing_le, Option.map_eq_some_iff]

theorem length_dropNewline_le (cs : List Char) : (dropNewline cs).length ≤ cs.length := by
  fun_cases dropNewline cs <;> grind

theorem length_lt_of_text? {o : Option (List Char × List Char)} {n : Nat} {r : Value × List Char}
    (h : text? o = some r) (ho : ∀ {r}, o = some r → r.2.length < n) : r.2.length < n := by
  obtain ⟨q, hq, rfl⟩ := Option.map_eq_some_iff.1 h
  have hl := ho hq
  exact hl

theorem length_lt_of_value? {cs : List Char} {r : Value × List Char} (h : value? cs = some r) :
    r.2.length < cs.length := by
  unfold value? at h
  split at h
  · cases h; simp; omega
  · cases h; simp; omega
  · next cs =>
    have := length_lt_of_text? h length_lt_of_multiBasic?
    have := length_dropNewline_le cs
    simp only [List.length_cons]
    omega
  · next cs =>
    have := length_lt_of_text? h length_lt_of_multiLiteral?
    have := length_dropNewline_le cs
    simp only [List.length_cons]
    omega
  · exact Nat.lt_succ_of_lt (length_lt_of_text? h length_lt_of_basic?)
  · exact Nat.lt_succ_of_lt (length_lt_of_text? h length_lt_of_literal?)
  · simp at h

theorem length_dropWhile_le (p : Char → Bool) (cs : List Char) :
    (cs.dropWhile p).length ≤ cs.length :=
  (List.dropWhile_suffix p).length_le

theorem length_le_of_key? {cs : List Char} {r : List Char × List Char} (h : key? cs = some r) :
    r.2.length ≤ cs.length := by
  unfold key? at h
  split at h
  · exact Nat.le_of_lt (Nat.lt_succ_of_lt (length_lt_of_basic? h))
  · exact Nat.le_of_lt (Nat.lt_succ_of_lt (length_lt_of_literal? h))
  · split at h
    · simp at h
    · cases h
      exact length_dropWhile_le isBare cs

theorem length_le_of_equals? {cs rest : List Char} (h : equals? cs = some rest) :
    rest.length ≤ cs.length := by
  unfold equals? at h
  split at h
  · next ds hd =>
    cases h
    have h₁ := length_dropWhile_le isSpace cs
    have h₂ := length_dropWhile_le isSpace ds
    simp only [hd, List.length_cons] at h₁
    omega
  · simp at h

theorem length_lt_of_lineEnd? {c : Char} {cs rest : List Char}
    (h : lineEnd? (c :: cs) = some rest) : rest.length < (c :: cs).length := by
  have hs := length_dropWhile_le isSpace (c :: cs)
  simp only [lineEnd?] at h
  split at h
  · cases h; simp
  · next ds hd =>
    cases h
    split at hd
    · next es he =>
      have hp := length_dropWhile_le isPlain es
      simp only [he, hd, List.length_cons] at hs hp ⊢
      omega
    · simp only [hd, List.length_cons] at hs ⊢
      omega
  · simp at h

theorem length_le_of_lineEnd? {cs rest : List Char} (h : lineEnd? cs = some rest) :
    rest.length ≤ cs.length := by
  cases cs with
  | nil => cases h; simp
  | cons c cs => exact Nat.le_of_lt (length_lt_of_lineEnd? h)

theorem length_lt_of_assignment? {cs : List Char} {r : (String × Value) × List Char}
    (h : assignment? cs = some r) : r.2.length < cs.length := by
  simp only [assignment?, bind, Option.bind_eq_some_iff, pure, Option.some.injEq] at h
  obtain ⟨k, hk, ds, he, v, hv, rest, hr, rfl⟩ := h
  have hs := length_dropWhile_le isSpace cs
  have hk := length_le_of_key? hk
  have he := length_le_of_equals? he
  have hv := length_lt_of_value? hv
  have hr := length_le_of_lineEnd? hr
  simp only at *
  omega

/-- A line has at least one character, unless the document is at its end. -/
theorem length_lt_of_line? {c : Char} {cs : List Char} {r : Option (String × Value) × List Char}
    (h : line? (c :: cs) = some r) : r.2.length < (c :: cs).length := by
  simp only [line?] at h
  split at h
  · obtain ⟨rest, hr, rfl⟩ := Option.map_eq_some_iff.1 h
    exact length_lt_of_lineEnd? hr
  · obtain ⟨q, hq, rfl⟩ := Option.map_eq_some_iff.1 h
    exact length_lt_of_assignment? hq

def assignments? (cs : List Char) : Option (List (String × Value)) :=
  match cs with
  | [] => some []
  | c :: cs =>
    match _h : line? (c :: cs) with
    | none => none
    | some r => (assignments? r.2).map (r.1.toList ++ ·)
termination_by cs.length
decreasing_by exact length_lt_of_line? _h

/-- The text without the byte order mark that may stand at its start. -/
def dropMark : List Char → List Char
  | '\uFEFF' :: cs => cs
  | cs => cs

end Settings.Toml

/-- The settings of a settings file; `none` for a document that is malformed or sets anything
else. -/
def Settings.read? (text : String) : Option Settings :=
  (Settings.Toml.assignments?
    (Settings.Toml.dropMark (Settings.Toml.normalizeNewlines text.toList))).bind
    Settings.ofAssignments?

end GameSchema
