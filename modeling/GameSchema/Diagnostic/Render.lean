import GameSchema.Diagnostic.Basic

/-!
# Diagnostics for people

A diagnostic is written in one line, or with the line of the source that it is about and carets
under the place. The parts of the long form can be coloured: a coloured part stands between an
escape sequence that sets its colours and one that resets them.
-/

namespace GameSchema

namespace Style

def reset : String := "\x1b[0m"

/-- The sequence that sets a colour, given its codes. -/
def set (codes : String) : String := "\x1b[" ++ codes ++ "m"

/-- The text with a colour sequence put behind every reset inside it, so that the colour goes on. -/
def restored (again : List Char) : List Char → List Char
  | '\x1b' :: '[' :: '0' :: 'm' :: cs => '\x1b' :: '[' :: '0' :: 'm' :: again ++ restored again cs
  | c :: cs => c :: restored again cs
  | [] => []

/-- The text in a colour when colours are on, and the bare text when they are off. -/
def paint (colored : Bool) (codes text : String) : String :=
  if colored then
    set codes ++ String.ofList (restored (set codes).toList text.toList) ++ reset
  else text

end Style

namespace Severity

def code : Severity → String
  | error => "91"
  | warning => "93"

def titleCodes (s : Severity) : String := "1;" ++ s.code

end Severity

namespace Diagnostic

/-- A place of a file, counted from one. -/
def location (file : String) (d : Diagnostic) : String :=
  file ++ ":" ++ toString (d.start.line + 1) ++ ":" ++ toString (d.start.column + 1)

def renderPlain (file : String) (d : Diagnostic) : String :=
  d.location file ++ ": " ++ d.severity.word ++ ": " ++ d.message

/-- The number of a line, counted from one, to the right of a column of at least four places. -/
def gutter (d : Diagnostic) : String :=
  let digits := (toString (d.start.line + 1)).toList
  String.ofList (List.replicate (4 - digits.length) ' ' ++ digits)

/-- The carets under the place, with the blanks before them. -/
def underline (d : Diagnostic) : String :=
  String.ofList (List.replicate d.start.column ' ' ++ List.replicate d.length '^')

/-- The diagnostic with the line of the source that it is about. A line that the source does not
have is shown empty. -/
def renderPretty (colored : Bool) (file : String) (lines : List String) (d : Diagnostic) : String :=
  let paint := Style.paint colored
  let margin := String.ofList (List.replicate d.gutter.length ' ')
  let bar := paint "2" "|"
  String.join
    [paint d.severity.titleCodes (d.severity.word ++ ":"), " ", paint "97" d.message, "\n",
     paint "94" "-->", " ", paint "97" (d.location file), "\n",
     margin, " ", bar, "\n",
     paint "2" d.gutter, " ", bar, " ", lines.getD d.start.line "", "\n",
     margin, " ", bar, " ", paint d.severity.code d.underline, "\n"]

def render (pretty colored : Bool) (file : String) (lines : List String) (d : Diagnostic) :
    String :=
  if pretty then d.renderPretty colored file lines else d.renderPlain file

end Diagnostic

end GameSchema
