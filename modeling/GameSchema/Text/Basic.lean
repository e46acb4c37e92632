/-!
# Places, lines and blanks

Lines and columns are counted from zero, and columns count characters. Reading a newline moves the
cursor to the start of the next line; every other character moves it one column on.

A line ends at a newline, which is not part of it; one carriage return directly before that newline
goes with it. Text after the last newline is a line of its own and keeps a final carriage return. A
text that ends in a newline has no empty line after it, and the empty text has no lines.

A character is blank when Unicode gives it the property `White_Space`. The zero-width characters
U+200B, U+180E and U+FEFF do not have it.
-/

namespace GameSchema

/-- A place in a text, before the character that stands there. -/
structure Position where
  line : Nat
  column : Nat
deriving DecidableEq, Inhabited

namespace Position

def origin : Position := ⟨0, 0⟩

/-- The place reached from `p` by reading one character. -/
def next (p : Position) (c : Char) : Position :=
  if c = '\n' then ⟨p.line + 1, 0⟩ else ⟨p.line, p.column + 1⟩

/-- The place reached from `p` by reading a text. -/
def after (p : Position) (cs : List Char) : Position := cs.foldl next p

/-- The place `n` columns further on the same line. -/
def shift (p : Position) (n : Nat) : Position := ⟨p.line, p.column + n⟩

@[simp] theorem next_newline (p : Position) : p.next '\n' = ⟨p.line + 1, 0⟩ := rfl

theorem next_of_ne (p : Position) {c : Char} (h : c ≠ '\n') : p.next c = p.shift 1 := by
  simp [next, shift, h]

@[simp] theorem after_nil (p : Position) : p.after [] = p := rfl

@[simp] theorem after_cons (p : Position) (c : Char) (cs : List Char) :
    p.after (c :: cs) = (p.next c).after cs := rfl

@[simp] theorem after_append (p : Position) (cs ds : List Char) :
    p.after (cs ++ ds) = (p.after cs).after ds := by
  simp [after]

/-- A text without a newline moves the cursor along its line. -/
theorem after_eq_shift (p : Position) {cs : List Char} (h : '\n' ∉ cs) :
    p.after cs = p.shift cs.length := by
  induction cs generalizing p with
  | nil => rfl
  | cons c cs ih =>
    simp only [List.mem_cons, not_or] at h
    rw [after_cons, next_of_ne p (Ne.symm h.1), ih _ h.2]
    simp [shift, Nat.add_comm, Nat.add_left_comm]

end Position

structure Range where
  start : Position
  stop : Position
deriving DecidableEq, Inhabited

namespace Text

section Lines

/-- Puts a character in front of the first line, or makes it the only line. -/
def pushFirst (c : Char) : List (List Char) → List (List Char)
  | [] => [[c]]
  | l :: ls => (c :: l) :: ls

def lines : List Char → List (List Char)
  | [] => []
  | '\n' :: cs => [] :: lines cs
  | '\r' :: '\n' :: cs => [] :: lines cs
  | c :: cs => pushFirst c (lines cs)

/-- The text with every line, the last one too, ended by a single newline. -/
def normalized (cs : List Char) : List Char := (lines cs).flatMap (· ++ ['\n'])

/-- The pieces of a text between the occurrences of a separator; there is always at least one. -/
def pieces (separator : Char) : List Char → List (List Char)
  | [] => [[]]
  | c :: cs =>
    if c = separator then [] :: pieces separator cs else pushFirst c (pieces separator cs)

@[simp] theorem lines_nil : lines [] = [] := rfl

@[simp] theorem pieces_nil (separator : Char) : pieces separator [] = [[]] := rfl

@[simp] theorem pieces_separator (separator : Char) (cs : List Char) :
    pieces separator (separator :: cs) = [] :: pieces separator cs := by
  simp [pieces]

theorem pieces_ne_nil (separator : Char) (cs : List Char) : pieces separator cs ≠ [] := by
  cases cs with
  | nil => simp
  | cons c cs =>
    by_cases h : c = separator
    · simp [pieces, h]
    · cases hs : pieces separator cs <;> simp [pieces, h, hs, pushFirst]

end Lines

section Blanks

/-- The code points with the property `White_Space`, as closed ranges in increasing order. -/
def blankRanges : List (Nat × Nat) :=
  [(0x9, 0xD), (0x20, 0x20), (0x85, 0x85), (0xA0, 0xA0), (0x1680, 0x1680), (0x2000, 0x200A),
   (0x2028, 0x2029), (0x202F, 0x202F), (0x205F, 0x205F), (0x3000, 0x3000)]

def isBlank (c : Char) : Bool :=
  blankRanges.any fun r => r.1 ≤ c.toNat && c.toNat ≤ r.2

def trimStart (cs : List Char) : List Char := cs.dropWhile isBlank

def trimEnd (cs : List Char) : List Char := (cs.reverse.dropWhile isBlank).reverse

def trim (cs : List Char) : List Char := trimEnd (trimStart cs)

def indent (cs : List Char) : Nat := (cs.takeWhile isBlank).length

@[simp] theorem trim_nil : trim [] = [] := rfl

end Blanks

end Text

end GameSchema
