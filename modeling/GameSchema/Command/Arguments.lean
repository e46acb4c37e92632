import GameSchema.Version

/-!
# Command lines

The words of a command line, read from left to right: options of the program, the name of a command,
then options and operands of that command. The options of the program may also stand behind the
command's name, and there they win. The first word that does not fit ends the reading, and so does a
request for help or for the version.
-/

namespace GameSchema.Command

inductive OptionName where
  | prettyErrors | debug | config | compilerVersion | warningsAsErrors | json | line | character
deriving DecidableEq

namespace OptionName

/-- The word of an option, without its dashes. -/
def word : OptionName → String
  | prettyErrors => "pretty-errors"
  | debug => "debug"
  | config => "config"
  | compilerVersion => "compiler-version"
  | warningsAsErrors => "warnings-as-errors"
  | json => "json"
  | line => "line"
  | character => "character"

def takesValue : OptionName → Bool
  | config | compilerVersion | line | character => true
  | _ => false

/-- Whether a value fits the option: a file needs a name, and a place is a number. -/
def accepts (value : String) : OptionName → Bool
  | config => value != ""
  | line | character => (Text.readNat? value.toList).isSome
  | _ => true

def shared : List OptionName := [prettyErrors, config, compilerVersion, debug]

end OptionName

inductive CommandName where
  | check | tokens | ast | complete
deriving DecidableEq

namespace CommandName

def word : CommandName → String
  | check => "check"
  | tokens => "tokens"
  | ast => "ast"
  | complete => "complete"

def ofWord? (w : String) : Option CommandName :=
  [check, tokens, ast, complete].find? fun c => c.word == w

/-- The options that only this command has. -/
def own : CommandName → List OptionName
  | check => [.warningsAsErrors]
  | tokens => []
  | ast => [.json]
  | complete => [.line, .character]

/-- Whether the command can have one more operand after `n`. Only a check takes several files. -/
def allowsAfter (n : Nat) : CommandName → Bool
  | check => true
  | _ => n == 0

end CommandName

structure Given where
  options : List (OptionName × String)
  operands : List String

namespace Given

def empty : Given := ⟨[], []⟩

def has (g : Given) (o : OptionName) : Bool := g.options.any fun p => p.1 == o

def value? (g : Given) (o : OptionName) : Option String := g.options.lookup o

def number? (g : Given) (o : OptionName) : Option Nat :=
  (g.value? o).bind fun v => Text.readNat? v.toList

/-- One more option; `none` when it was given before or its value does not fit. -/
def addOption? (g : Given) (o : OptionName) (value : String) : Option Given :=
  if g.has o ∨ !o.accepts value then none
  else some { g with options := g.options ++ [(o, value)] }

/-- One more operand of a command; `none` when there are enough or it is empty. -/
def addOperand? (g : Given) (c : CommandName) (w : String) : Option Given :=
  if w = "" ∨ !c.allowsAfter g.operands.length then none
  else some { g with operands := g.operands ++ [w] }

/-- The options of two parts of a command line, of which the first wins. -/
def orElse (g h : Given) : Given := ⟨g.options ++ h.options, g.operands⟩

end Given

/-- How a part of a command line ends. -/
inductive Ending where
  /-- All words fit. -/
  | finished (given : Given)
  /-- A command is named, and the words after it are left. -/
  | command (given : Given) (name : CommandName) (rest : List String)
  | help | version | misuse

inductive Word where
  /-- Two dashes, after which every word is an operand. -/
  | dashes
  /-- An option with the value attached to it. -/
  | option (word : List Char) (value : Option (List Char))
  /-- A row of one-letter options, by its first letter. -/
  | letter (c : Char)
  /-- Any other word; a single dash is one. -/
  | operand

def Word.ofString (w : String) : Word :=
  match w.toList with
  | ['-', '-'] => dashes
  | '-' :: '-' :: cs =>
    match cs.dropWhile (· ≠ '=') with
    | [] => option cs none
    | _ :: value => option (cs.takeWhile (· ≠ '=')) (some value)
  | '-' :: c :: _ => letter c
  | _ => operand

/-- Whether a word can be the value of the option before it. -/
def isValue (w : String) : Bool :=
  match Word.ofString w with
  | .operand => true
  | _ => false

/-- Adds the operands of a command that stand behind two dashes. -/
def addOperands (c : CommandName) (g : Given) (ws : List String) : Ending :=
  match ws.foldlM (fun g w => g.addOperand? c w) g with
  | some g => .finished g
  | none => .misuse

/-- Reads the words of the program, or of the command that has been named. -/
def readWords (command? : Option CommandName) (g : Given) : List String → Ending
  | [] => .finished g
  | w :: ws =>
    match Word.ofString w with
    | .dashes =>
      match command? with
      | none => .misuse
      | some c => addOperands c g ws
    | .letter 'h' => .help
    | .letter 'V' => .version
    | .letter _ => .misuse
    | .operand =>
      match command? with
      | none =>
        match CommandName.ofWord? w with
        | none => .misuse
        | some c => .command g c ws
      | some c =>
        match g.addOperand? c w with
        | none => .misuse
        | some g => readWords command? g ws
    | .option ['h', 'e', 'l', 'p'] none => .help
    | .option ['v', 'e', 'r', 's', 'i', 'o', 'n'] none => .version
    | .option word attached? =>
      let known := OptionName.shared ++ (command?.map (·.own)).getD []
      match known.find? fun o => o.word.toList == word with
      | none => .misuse
      | some o =>
        match o.takesValue, attached? with
        | false, none =>
          match g.addOption? o "" with
          | none => .misuse
          | some g => readWords command? g ws
        | false, some _ => .misuse
        | true, some value =>
          match g.addOption? o (String.ofList value) with
          | none => .misuse
          | some g => readWords command? g ws
        | true, none =>
          match ws with
          | [] => .misuse
          | v :: vs =>
            if isValue v then
              match g.addOption? o v with
              | none => .misuse
              | some g => readWords command? g vs
            else .misuse

inductive Action where
  | check (files : List String) (warningsAsErrors : Bool)
  | tokens (file : String)
  | ast (file : String) (json : Bool)
  | complete (file : String) (line character : Nat)
deriving DecidableEq

/-- A command with the options of the program. -/
structure Invocation where
  prettyErrors : Bool
  config : Option String
  compilerVersion : Option String
  action : Action
deriving DecidableEq

def Action.operands : Action → List String
  | check files _ => files
  | tokens file | ast file _ | complete file _ _ => [file]

/-- The paths of the files that an invocation may read; a dash among its operands is none. -/
def Invocation.paths (i : Invocation) : List String :=
  i.config.toList ++ i.action.operands.filter (· ≠ "-")

/-- Whether an invocation reads the input stream. -/
def Invocation.readsInput (i : Invocation) : Bool := i.action.operands.contains "-"

inductive Request where
  | run (invocation : Invocation)
  | help
  /-- The version, for the program or for one of its commands. -/
  | version (command? : Option CommandName)
  | misuse
deriving DecidableEq

/-- The action of a command; `none` when an operand or an option is missing that it needs. -/
def action? (c : CommandName) (g : Given) : Option Action :=
  match c, g.operands with
  | _, [] => none
  | .check, files => some (.check files (g.has .warningsAsErrors))
  | .tokens, file :: _ => some (.tokens file)
  | .ast, file :: _ => some (.ast file (g.has .json))
  | .complete, file :: _ =>
    match g.number? .line, g.number? .character with
    | some line, some character => some (.complete file line character)
    | _, _ => none

/-- The request of a command once its words are read. -/
def requestOf (c : CommandName) (program g : Given) : Request :=
  match action? c g with
  | none => .misuse
  | some action =>
    let all := g.orElse program
    .run ⟨all.has .prettyErrors, all.value? .config, all.value? .compilerVersion, action⟩

def Request.ofArguments (args : List String) : Request :=
  match readWords none .empty args with
  | .finished _ | .misuse => .misuse
  | .help => .help
  | .version => .version none
  | .command program c rest =>
    match readWords (some c) .empty rest with
    | .finished g => requestOf c program g
    | .help => .help
    | .version => .version (some c)
    | .command _ _ _ | .misuse => .misuse

end GameSchema.Command
