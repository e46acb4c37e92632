import GameSchema.Command.Arguments
import GameSchema.Command.Files
import GameSchema.Completion
import GameSchema.Diagnostic.Render
import GameSchema.Json.Encode
import GameSchema.Schema.Render
import GameSchema.Settings

/-!
# Running commands

What the commands print and how they end: with 0 when all is well, with 1 when a source has errors,
and with 2 when the command line is wrong or something cannot be read.
-/

namespace GameSchema.Command

/-- What a command has printed, and its exit code. -/
structure Outcome where
  code : Nat
  out : String
  err : String
deriving DecidableEq

/-- Why a command cannot go on. -/
inductive Failure where
  | settingsUnreadable (path : String) (fault : ReadFault)
  | settingsMalformed (path : String)
  | inputUnreadable (path : String) (fault : ReadFault)
  | streamUnreadable (fault : ReadFault)
deriving DecidableEq

def Failure.message : Failure → String
  | settingsUnreadable path fault => "Read config " ++ path ++ ": " ++ fault.message
  | settingsMalformed path => "Parse config " ++ path ++ ": TOML parse error"
  | inputUnreadable path fault => "Read " ++ path ++ ": " ++ fault.message
  | streamUnreadable fault => "Read source from stdin: " ++ fault.message

/-- The outcome of a command that fails after it has printed `err`. -/
def Outcome.failed (err : String) (f : Failure) : Outcome :=
  ⟨2, "", err ++ "error: " ++ f.message ++ "\n"⟩

def settingsIn (path : String) (bytes : Except ReadFault ByteArray) : Except Failure Settings :=
  match textOf bytes with
  | .error fault => .error (.settingsUnreadable path fault)
  | .ok text =>
    match Settings.read? text with
    | none => .error (.settingsMalformed path)
    | some s => .ok s

/-- The settings of a command. A file that is asked for has to exist, but the user's own settings
file may be missing. -/
def loadSettings (w : Surroundings) (path? : Option String) : Except Failure Settings :=
  match path?, w.settingsFile with
  | some path, _ => settingsIn path (w.read path)
  | none, none => .ok .default
  | none, some (_, .error .notFound) => .ok .default
  | none, some (_, .error .notDirectory) => .ok .default
  | none, some (path, bytes) => settingsIn path bytes

/-- What a command is run with, from its options and the settings; options win. -/
structure Manner where
  version : String
  pretty : Bool
  colored : Bool
  warningsAsErrors : Bool

/-- The manner of an invocation under given settings. Colours are off unless the settings ask for
them. -/
def Manner.of (i : Invocation) (s : Settings) : Manner :=
  ⟨(i.compilerVersion <|> s.compilerVersion).getD Version.current,
    i.prettyErrors || s.prettyErrors, s.color.getD false, s.warningsAsErrors⟩

/-- A source with the name under which it is reported. -/
structure Source where
  name : String
  text : String

/-- Reads a source: a file, or for a dash the input stream, which is empty from then on. -/
def readSource (w : Surroundings) (path : String) : Except Failure Source × Surroundings :=
  if path = "-" then
    ((textOf (.ok w.input)).mapError .streamUnreadable |>.map (⟨"<stdin>", ·⟩),
      { w with input := .empty })
  else ((textOf (w.read path)).mapError (.inputUnreadable path) |>.map (⟨path, ·⟩), w)

/-- The diagnostics of a source, each one ended by a newline. -/
def diagnosticsText (m : Manner) (name : String) (c : Compilation) : String :=
  String.join (c.diagnostics.map fun d => d.render m.pretty m.colored name c.lines ++ "\n")

def fails (m : Manner) (c : Compilation) : Bool :=
  c.hasErrors || (m.warningsAsErrors && !c.warnings.isEmpty)

/-- Checks files one after another: the number of those that do not pass, or the failure that ends
the check, with the diagnostics printed up to there. -/
def checkAll (m : Manner) (w : Surroundings) : List String → Except Failure Nat × String
  | [] => (.ok 0, "")
  | path :: paths =>
    match readSource w path with
    | (.error f, _) => (.error f, "")
    | (.ok source, w) =>
      let c := compile m.version source.text
      let (result, err) := checkAll m w paths
      (result.map fun n => if fails m c then n + 1 else n, diagnosticsText m source.name c ++ err)

/-- Checks files and says how many of them pass. -/
def check (m : Manner) (w : Surroundings) (paths : List String) : Outcome :=
  match checkAll m w paths with
  | (.error f, err) => .failed err f
  | (.ok 0, err) =>
    ⟨0, Style.paint m.colored "1;92" "ok:" ++ " " ++ toString paths.length ++
      " file(s) checked\n", err⟩
  | (.ok failed, err) =>
    ⟨1, "", err ++ Style.paint m.colored "1;91" "failed:" ++ " " ++ toString failed ++ " of " ++
      toString paths.length ++ " file(s) failed\n"⟩

def printTokens (source : Source) : Outcome :=
  match scan source.text with
  | .ok ts => ⟨0, String.join (ts.map fun t => t.display ++ "\n"), ""⟩
  | .error e => ⟨1, "", (Diagnostic.scan e).renderPlain source.name ++ "\n"⟩

/-- What a source declares, as a listing or as JSON. -/
def schemaText (json : Bool) (c : Compilation) : String :=
  if json then c.toJson.render 0 ++ "\n"
  else
    c.metadata.listing.render 0 ++ "\n" ++
      String.join (c.declarations.mapIdx fun i d =>
        "#" ++ toString i ++ " " ++ d.listing.render 0 ++ "\n")

def printSchema (m : Manner) (json : Bool) (source : Source) : Outcome :=
  let c := compile m.version source.text
  ⟨if c.hasErrors then 1 else 0, schemaText json c, diagnosticsText m source.name c⟩

def itemText (i : Completion.Item) : String :=
  i.label ++ "\t" ++ capitalized i.kind.tag ++
    (match i.detail with
      | none => ""
      | some detail => "\t" ++ detail) ++ "\n"

/-- Prints what can be typed at a place of a source. Declared types are offered only when the source
has no errors. -/
def printCompletions (m : Manner) (line character : Nat) (source : Source) : Outcome :=
  let c := compile m.version source.text
  let ds := if c.hasErrors then [] else c.declarations
  ⟨0, String.join ((Completion.itemsAt m.version ds source.text line character).map itemText), ""⟩

def withSource (w : Surroundings) (path : String) (f : Source → Outcome) : Outcome :=
  match (readSource w path).1 with
  | .error e => .failed "" e
  | .ok source => f source

def Invocation.run (w : Surroundings) (i : Invocation) : Outcome :=
  match loadSettings w i.config with
  | .error f => .failed "" f
  | .ok s =>
    let m := Manner.of i s
    match i.action with
    | .check paths strict =>
      check { m with warningsAsErrors := m.warningsAsErrors || strict } w paths
    | .tokens path => withSource w path printTokens
    | .ast path json => withSource w path (printSchema m json)
    | .complete path line character => withSource w path (printCompletions m line character)

def usage : String :=
  "Usage: cge [--pretty-errors] [--config FILE] [--compiler-version VERSION] [--debug] COMMAND\n" ++
  "\n" ++
  "Commands:\n" ++
  "  check FILE... [--warnings-as-errors]       Compile files and report diagnostics\n" ++
  "  tokens FILE                                Print the token stream\n" ++
  "  ast FILE [--json]                          Print metadata and declarations\n" ++
  "  complete FILE --line N --character N       Print completion candidates\n"

/-- The version of the program, or of one of its commands. -/
def versionText (c? : Option CommandName) : String :=
  "cge" ++ (match c? with
    | none => ""
    | some c => "-" ++ c.word) ++ " 0.4.0\n"

/-- Does what a command line asks for. -/
def Request.perform (w : Surroundings) : Request → Outcome
  | run i => i.run w
  | help => ⟨0, usage, ""⟩
  | version c? => ⟨0, versionText c?, ""⟩
  | misuse => ⟨2, "", usage⟩

end GameSchema.Command
