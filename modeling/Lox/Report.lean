import Lox.Token.Scan

/-!
# Reports

What is said about a mistake in a program. A lexical report knows its line; a parsing or resolution
report blames a token; a runtime report blames a token and has a kind. `Report.text` is the full
message.

`Diagnostics` collects the reports of one run in order.
-/

namespace Lox

/-- The kinds of runtime errors. -/
inductive ErrorKind where
  | typeMismatch
  | undefinedVariable
  | undefinedProperty
  | notInstance
  | notCallable
  | arityMismatch
  | invalidSuperclass
  | native
  | internal
  deriving DecidableEq, Inhabited

namespace ErrorKind

def describe : ErrorKind → String
  | typeMismatch => "type mismatch"
  | undefinedVariable => "undefined variable"
  | undefinedProperty => "undefined property"
  | notInstance => "not an instance"
  | notCallable => "not callable"
  | arityMismatch => "arity mismatch"
  | invalidSuperclass => "invalid superclass"
  | native => "native failure"
  | internal => "internal error"

end ErrorKind

/-- A runtime error and the token it blames. -/
structure RuntimeError where
  kind : ErrorKind
  token : Token
  message : String
  deriving DecidableEq, Inhabited

/-- One mistake, with the stage that found it. -/
inductive Report where
  | lexical (line : Nat) (message : String)
  | parsing (token : Token) (message : String)
  | resolution (token : Token) (message : String)
  | runtime (error : RuntimeError)
  deriving DecidableEq

/-- How a static report points at a token. -/
def Token.location (t : Token) : String :=
  if t.isEof then " at end" else " at '" ++ t.lexeme ++ "'"

/-- The line of a message about the source, with its location. -/
def staticText (line : Nat) (location message : String) : String :=
  "[line " ++ toString line ++ "] Error" ++ location ++ ": " ++ message

namespace Report

def isRuntime : Report → Bool
  | runtime _ => true
  | _ => false

def message : Report → String
  | lexical _ message => message
  | parsing _ message => message
  | resolution _ message => message
  | runtime error => error.message

def line : Report → Nat
  | lexical line _ => line
  | parsing token _ => token.line
  | resolution token _ => token.line
  | runtime error => error.token.line

/-- The full message. -/
def text : Report → String
  | lexical line message => staticText line "" message
  | parsing token message => staticText token.line token.location message
  | resolution token message => staticText token.line token.location message
  | runtime error => error.message ++ "\n[line " ++ toString error.token.line ++ "]"

end Report

/-- The report of a scanned item, if it is an error. -/
def Item.report? : Item → Option Report
  | token _ => none
  | error line cause => some (.lexical line cause.message)

/-- The lexical reports of a source. -/
def lexicalReports (source : String) : List Report := (scan source).filterMap Item.report?

/-- The reports of one run, oldest first. -/
structure Diagnostics where
  reports : List Report := []
  deriving DecidableEq, Inhabited

namespace Diagnostics

def add (d : Diagnostics) (r : Report) : Diagnostics := ⟨d.reports ++ [r]⟩

def messages (d : Diagnostics) : List String := d.reports.map Report.text

/-- Some report comes from before execution. -/
def hadError (d : Diagnostics) : Bool := d.reports.any fun r => !r.isRuntime

def hadRuntimeError (d : Diagnostics) : Bool := d.reports.any Report.isRuntime

def isClean (d : Diagnostics) : Bool := !d.hadError && !d.hadRuntimeError

end Diagnostics

end Lox
