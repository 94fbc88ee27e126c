import Lox.Command
import Lox.Command.Loaded
import Lox.Command.Repl
import Lox.Token.Json
import Lox.Tree.Render

/-!
# Running commands

What each command writes to the two output streams, and the code it exits with: 64 for a command
line that makes no sense, 65 after a mistake found before execution, 70 after a runtime error, 74 if
the file cannot be read.
-/

namespace Lox

/-- The outcome of a command. -/
structure CommandResult where
  code : Nat
  streams : Streams
  deriving DecidableEq

def Diagnostics.exitCode (d : Diagnostics) : Nat :=
  if d.hadError then 65 else if d.hadRuntimeError then 70 else 0

def versionText : String := "rox 0.1.0\n"

def helpText : String :=
  "Lox language interpreter\n\nUsage: rox [--log] [COMMAND]\n\nCommands:\n" ++
    "  tokenize [--json] FILE\n  parse FILE\n  evaluate FILE\n  run FILE\n  repl\n"

namespace FileTask

/-- List the tokens of a source, one a line or as JSON. -/
def tokenizeSource (source : String) (json : Bool) : CommandResult :=
  let errors := lexicalReports source
  let listing :=
    if json then tokensJson (tokens source) ++ "\n"
    else lineByLine ((tokens source).map Token.display)
  ⟨if errors.isEmpty then 0 else 65, listing, lineByLine (errors.map Report.text)⟩

/-- Print the tree of an expression, unless there is a mistake. -/
def parseSource (source : String) : CommandResult :=
  let parsed := ParsedExpr.ofTokens (tokens source) 0
  let mistakes := lexicalReports source ++ parsed.complaints.map Complaint.report
  match parsed.expr?, mistakes with
  | some e, [] => ⟨0, e.render ++ "\n", ""⟩
  | _, _ => ⟨65, "", lineByLine (mistakes.map Report.text)⟩

/-- Print the value of an expression. -/
def evaluateSource (fuel : Nat) (s : Session) (source : String) : Option CommandResult :=
  match s.evaluate fuel source with
  | some (answer, next) =>
    let shown := match answer.value with
      | some v => next.machine.heap.display v ++ "\n"
      | none => ""
    let messages := lineByLine answer.diagnostics.messages
    some ⟨answer.diagnostics.exitCode, next.machine.output.text ++ shown, messages⟩
  | none => none

/-- Run a program. -/
def runSource (fuel : Nat) (s : Session) (source : String) : Option CommandResult :=
  match s.run fuel source with
  | some (answer, next) =>
    let messages := lineByLine answer.diagnostics.messages
    some ⟨answer.diagnostics.exitCode, next.machine.output.text, messages⟩
  | none => none

/-- Do a task on a source, in a new session. -/
def onSource (fuel : Nat) (readings : Nat → Option Number) (task : FileTask) (source : String) :
    Option CommandResult :=
  match task with
  | tokenize json => some (tokenizeSource source json)
  | parse => some (parseSource source)
  | evaluate => evaluateSource fuel (Session.new readings false) source
  | run => runSource fuel (Session.new readings false) source

end FileTask

namespace Request

/-- Carry out a request, given what came of reading a file and the standard input. -/
def perform (fuel : Nat) (readings : Nat → Option Number) (load : String → Loaded)
    (input : List UInt8) :
    Request → Option CommandResult
  | version => some ⟨0, versionText, ""⟩
  | help => some ⟨0, helpText, ""⟩
  | usage => some ⟨64, "", helpText⟩
  | command (.onFile task file) _ =>
    match (load file).text file with
    | .ok source => task.onSource fuel readings source
    | .error message => some ⟨74, "", message⟩
  | command .repl _ =>
    match Repl.run fuel (input.length + 1) (Session.new readings false) input with
    | some (code, streams) => some ⟨code, streams⟩
    | none => none

end Request

end Lox
