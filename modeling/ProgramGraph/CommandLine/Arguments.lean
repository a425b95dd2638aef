import ProgramGraph.Number.Word
/-!
# Command line arguments

A call names a command and its options. An option that takes a value has
it as the next argument or behind an equals sign, and after a short name
also without one. The arguments are read from left to right: the first
thing that is wrong makes the call a misuse, and a request for help is
granted if nothing before it was wrong.
-/

namespace ProgramGraph.CommandLine

/-- The commands. -/
inductive Command
  /-- Evaluates the program of a file and prints the value. -/
  | run (file : String) (maxSteps : Option Nat) (sequential : Bool)
  /-- Checks the program of a file. -/
  | validate (file : String)
  deriving DecidableEq

/-- Why a call names no command to perform. -/
inductive Stop
  /-- It asks for help. -/
  | help
  /-- It is not a call that there is. -/
  | misuse
  deriving DecidableEq

/-- How an argument is spelled. -/
inductive Argument
  /-- Two hyphens: no option comes after them. -/
  | separator
  /-- A long name, perhaps with a value. -/
  | long (name : String) (value : Option String)
  /-- A letter for a short name, and what is written after it. -/
  | short (letter : Char) (rest : List Char)
  /-- Anything else. -/
  | plain (text : String)

/-- The name and the value of a long option. The value begins behind the
first equals sign. -/
def Argument.ofLong (text : List Char) : Argument :=
  let name := String.ofList (text.takeWhile (· != '='))
  match text.dropWhile (· != '=') with
  | [] => long name none
  | _ :: value => long name (some (String.ofList value))

/-- The spelling of an argument. -/
def Argument.ofText (text : String) : Argument :=
  match text.toList with
  | ['-', '-'] => separator
  | '-' :: '-' :: rest => ofLong rest
  | '-' :: letter :: rest => short letter rest
  | _ => plain text

/-- A natural of 64 bits in decimal digits; a plus sign may stand before
them. -/
def nat64? (text : String) : Option Nat :=
  let digits := match text.toList with
    | '+' :: rest => rest
    | all => all
  if digits.isEmpty || !digits.all Char.isDigit then none
  else
    let n := Nat.ofDigitChars 10 digits 0
    if n < Word.count64 then some n else none

/-- The options that take a value. -/
inductive Setting
  | file
  | maxSteps
  deriving DecidableEq

/-- The commands by name. -/
inductive Verb
  | run
  | validate
  deriving DecidableEq

/-- The options so far. -/
structure Options where
  file : Option String := none
  maxSteps : Option Nat := none
  sequential : Bool := false

namespace Options

/-- Gives an option a value. None may be given twice, and a file has to
have a name. -/
def set (options : Options) (setting : Setting) (value : String) : Except Stop Options :=
  match setting with
  | .file =>
    if options.file.isSome || value.isEmpty then .error .misuse
    else .ok { options with file := some value }
  | .maxSteps =>
    match options.maxSteps, nat64? value with
    | none, some n => .ok { options with maxSteps := some n }
    | _, _ => .error .misuse

/-- Sets the option that chooses the sequential parallel map. -/
def setSequential (options : Options) : Except Stop Options :=
  if options.sequential then .error .misuse else .ok { options with sequential := true }

end Options

/-- The option with a value that has a long name. -/
def Setting.ofLong? (verb : Verb) (name : String) : Option Setting :=
  match verb, name with
  | _, "file" => some file
  | .run, "max-steps" => some maxSteps
  | _, _ => none

/-- What one argument comes to: the options after it, and the option that
takes the next argument as its value. -/
abbrev Reading := Except Stop (Options × Option Setting)

/-- Reads a long option. -/
def readLong (verb : Verb) (options : Options) (name : String) (value : Option String) :
    Reading := do
  match Setting.ofLong? verb name, value with
  | some setting, some value => return (← options.set setting value, none)
  | some setting, none => return (options, some setting)
  | none, some _ => .error .misuse
  | none, none =>
    if name = "help" then .error .help
    else if verb = .run && name = "reference" then return (← options.setSequential, none)
    else .error .misuse

/-- Reads a short option. -/
def readShort (options : Options) (letter : Char) (rest : List Char) : Reading := do
  match letter, rest with
  | 'h', _ => .error .help
  | 'f', [] => return (options, some .file)
  | 'f', '=' :: value => return (← options.set .file (String.ofList value), none)
  | 'f', value => return (← options.set .file (String.ofList value), none)
  | _, _ => .error .misuse

/-- **Reads the options of a command.** An option that waits for its value
must not be followed by another option. -/
def readOptions (verb : Verb) : Options → Option Setting → List String → Except Stop Options
  | options, none, [] => .ok options
  | _, some _, [] => .error .misuse
  | options, waiting, text :: rest =>
    match waiting, Argument.ofText text with
    | some setting, .plain value => do
      readOptions verb (← options.set setting value) none rest
    | some _, _ => .error .misuse
    | none, .plain _ => .error .misuse
    | none, .separator => if rest.isEmpty then .ok options else .error .misuse
    | none, .long name value => do
      let (options, waiting) ← readLong verb options name value
      readOptions verb options waiting rest
    | none, .short letter more => do
      let (options, waiting) ← readShort options letter more
      readOptions verb options waiting rest

/-- The command of a verb with its options. A file has to be given. -/
def Verb.command (verb : Verb) (options : Options) : Except Stop Command :=
  match options.file with
  | none => .error .misuse
  | some file =>
    match verb with
    | run => .ok (.run file options.maxSteps options.sequential)
    | validate => .ok (.validate file)

/-- What comes of a question for help on some commands. -/
def helpOn : List String → Stop
  | [] => .help
  | [name] => if ["run", "validate", "help"].contains name then .help else .misuse
  | _ => .misuse

/-- **The command that a call names.** -/
def Command.ofArguments : List String → Except Stop Command
  | [] => .error .misuse
  | "run" :: rest => do Verb.run.command (← readOptions .run {} none rest)
  | "validate" :: rest => do Verb.validate.command (← readOptions .validate {} none rest)
  | "help" :: names => .error (helpOn names)
  | text :: _ =>
    match Argument.ofText text with
    | .long "help" none => .error .help
    | .short 'h' _ => .error .help
    | _ => .error .misuse

/-- The file that a command reads. -/
def Command.file : Command → String
  | run file _ _ => file
  | validate file => file

end ProgramGraph.CommandLine
