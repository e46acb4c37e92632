import GameSchema.Text.Basic

/-!
# Files for commands

What a command can read: files by their path, one input stream that is empty once it has been read,
and the settings file of the user. A folder is a set of files held in memory, whose paths are looked
up the way a file system does it.
-/

namespace GameSchema.Command

inductive ReadFault where
  | notFound | notDirectory | isDirectory | notText
deriving DecidableEq

def ReadFault.message : ReadFault → String
  | notFound => "No such file or directory (os error 2)"
  | notDirectory => "Not a directory (os error 20)"
  | isDirectory => "Is a directory (os error 21)"
  | notText => "stream did not contain valid UTF-8"

def textOf (bytes : Except ReadFault ByteArray) : Except ReadFault String :=
  match bytes with
  | .error e => .error e
  | .ok b =>
    match String.fromUTF8? b with
    | none => .error .notText
    | some s => .ok s

/-- What a command can read. The settings file comes with the path under which it is named in
messages; without a home there is none. -/
structure Surroundings where
  read : String → Except ReadFault ByteArray
  input : ByteArray
  settingsFile : Option (String × Except ReadFault ByteArray)

/-- A folder: the contents of its files by the names on their paths. A folder inside it is there
when a file is. -/
abbrev Folder := List (List (List Char) × ByteArray)

namespace Folder

/-- The names on a path. Empty names and single dots lead nowhere. -/
def names (path : List Char) : List (List Char) :=
  (Text.pieces '/' path).filter fun n => n ≠ [] ∧ n ≠ ['.']

def ofFiles (files : List (String × ByteArray)) : Folder :=
  files.map fun f => (names f.1.toList, f.2)

/-- The contents of the file at a row of names. -/
def file? (f : Folder) (place : List (List Char)) : Option ByteArray := f.lookup place

/-- Whether there is a folder at a row of names. -/
def isFolder (f : Folder) (place : List (List Char)) : Bool :=
  place.isEmpty || f.any fun e => place.isPrefixOf e.1 && e.1 != place

/-- Follows the names of a path outside the folder, where nothing is known to exist. -/
def readOutside (path : List (List Char)) : ReadFault :=
  if path.all fun n => n = [] ∨ n = ['.'] ∨ n = ['.', '.'] then .isDirectory else .notFound

/-- Follows the names of a path from the folder at `place`. -/
def readFrom (f : Folder) (place : List (List Char)) : List (List Char) → Except ReadFault ByteArray
  | [] => .error .isDirectory
  | n :: ns =>
    if n = [] ∨ n = ['.'] then readFrom f place ns
    else if n = ['.', '.'] then
      if place = [] then .error (readOutside ns) else readFrom f place.dropLast ns
    else match f.file? (place ++ [n]) with
      | some bytes => if ns = [] then .ok bytes else .error .notDirectory
      | none => if f.isFolder (place ++ [n]) then readFrom f (place ++ [n]) ns else .error .notFound

def read (f : Folder) (path : String) : Except ReadFault ByteArray :=
  match path.toList with
  | '/' :: cs => .error (readOutside (Text.pieces '/' cs))
  | cs => readFrom f [] (Text.pieces '/' cs)

end Folder

end GameSchema.Command
