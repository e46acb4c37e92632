import GameSchema.Text.Basic

/-!
# Numbers and language versions

A number is written with ASCII digits and at most one plus sign before them. Its value has to be
below 2⁶⁴.

A version is a major and a minor part, separated by a dot; what follows a second dot does not count.
A file fits a compiler with the same major whose minor is not smaller. Major zero makes no promise
between minors, so there the minors have to be spelled alike.
-/

namespace GameSchema

namespace Text

/-- The first number that is too large, which is 2⁶⁴. -/
def wordLimit : Nat := 18446744073709551616

def digitsValue (ds : List Char) : Nat :=
  ds.foldl (fun n d => n * 10 + (d.toNat - '0'.toNat)) 0

/-- The digits of a written number, without its plus sign. -/
def unsigned : List Char → List Char
  | '+' :: ds => ds
  | ds => ds

/-- The number that a text writes, or `none` when it writes none or too large a one. -/
def readNat? (cs : List Char) : Option Nat :=
  let ds := unsigned cs
  if ds ≠ [] ∧ ds.all Char.isDigit ∧ digitsValue ds < wordLimit then some (digitsValue ds) else none

end Text

namespace Version

def current : String := "0.4"

/-- The compiler version that accepts every file. -/
def development : String := "dev"

/-- The major and the minor part of a version; a missing minor is zero. -/
def parts (version : String) : List Char × List Char :=
  match Text.pieces '.' version.toList with
  | major :: minor :: _ => (major, minor)
  | [major] => (major, ['0'])
  | [] => ([], ['0'])

/-- Whether a compiler of version `compiler` understands a file of version `file`. Minors that are
not numbers below 2⁶⁴ fit nothing. -/
def compatible (file compiler : String) : Bool :=
  if compiler = development then true
  else
    let (fileMajor, fileMinor) := parts file
    let (major, minor) := parts compiler
    if fileMajor ≠ major then false
    else if major = ['0'] ∧ fileMinor ≠ minor then false
    else match Text.readNat? fileMinor, Text.readNat? minor with
      | some needed, some offered => needed ≤ offered
      | _, _ => false

theorem compatible_development (file : String) : compatible file development = true := by
  simp [compatible]

end Version

end GameSchema
