import ProgramGraph.CommandLine.Arguments
import ProgramGraph.Program
import ProgramGraph.Value.Text
/-!
# What a call comes to

A command loads the program of its file, which takes several steps that
may fail, and evaluates or describes it. A call is reported by an exit
status, what is printed, what went wrong and what is worth a warning.
-/

namespace ProgramGraph.CommandLine

/-- Why a command fails. -/
inductive Failure
  /-- The file cannot be read as text. -/
  | unreadable (file : String)
  /-- The text is not a program. -/
  | malformed (file : String)
  /-- The graph is not valid, or the evaluation has no value. -/
  | fold (error : EvalError)
  /-- The root is not in the graph. -/
  | missingEntry (node : NodeId)
  /-- The evaluation did not come to an end. -/
  | unfinished

/-- The message of a failure. -/
def Failure.message : Failure → String
  | unreadable file => "failed to read " ++ file
  | malformed file => "failed to parse " ++ file
  | fold error => error.message
  | missingEntry node => "entry " ++ toString node ++ " is not in the graph"
  | unfinished => "the evaluation does not end"

/-- The first line of the message. -/
def Failure.headline (failure : Failure) : String :=
  String.ofList (failure.message.toList.takeWhile (· != '\n'))

/-- Loads the program of a file from its text, if there is one. -/
def load (file : String) (text : Option String) : Except Failure Program :=
  match text with
  | none => .error (.unreadable file)
  | some text =>
    match Program.read text with
    | .error _ => .error (.malformed file)
    | .ok program =>
      match program.graph.validate with
      | .error error => .error (.fold error)
      | .ok () =>
        if program.hasTarget then .ok program else .error (.missingEntry program.target)

/-- Evaluates a program with the handlers of the library; the parallel map
may be the sequential one. -/
def evaluate (program : Program) (maxSteps : Option Nat) (sequential : Bool) :
    Except Failure Value :=
  let registry := if sequential then Registry.standardSequential else .standard
  let engine := program.engine registry { maxSteps }
  match engine.foldAnew? Engine.plenty program.entry () with
  | none => .error .unfinished
  | some outcome =>
    match outcome.result with
    | .ok value => .ok value
    | .error error => .error (.fold error)

/-- What a command prints, and the tags it warns of. -/
structure Output where
  text : String
  warnings : List String := []

/-- **Performs a command** on the text of its file. -/
def Command.perform (command : Command) (text : Option String) : Except Failure Output := do
  let program ← load command.file text
  match command with
  | run _ maxSteps sequential =>
    let value ← evaluate program maxSteps sequential
    return { text := value.indented 0 ++ "\n" }
  | validate file =>
    return {
      text := file ++ ": " ++ toString program.graph.size ++ " nodes, entry " ++
        toString program.target ++ "\n"
      warnings := program.uncoveredTags .standard }

/-- The report of a call. -/
structure Report where
  /-- Zero for success and help, one for a failure, two for a misuse. -/
  status : Nat
  /-- What is printed. -/
  output : String := ""
  /-- What went wrong. -/
  failure : Option Failure := none
  /-- The tags to be warned of. -/
  warnings : List String := []

/-- The report of what a command came to. -/
def Report.ofOutput : Except Failure Output → Report
  | .ok output => { status := 0, output := output.text, warnings := output.warnings }
  | .error failure => { status := 1, failure := some failure }

/-- The report of a call without a command. -/
def Report.ofStop : Stop → Report
  | .help => { status := 0 }
  | .misuse => { status := 2 }

/-- **The report of a call,** given the texts of the files. -/
def report (arguments : List String) (text : String → Option String) : Report :=
  match Command.ofArguments arguments with
  | .error stop => .ofStop stop
  | .ok command => .ofOutput (command.perform (text command.file))

end ProgramGraph.CommandLine
