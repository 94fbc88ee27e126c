import Lox.Evaluation
import Lox.Grammar.Statement

/-!
# Sessions

A session runs sources one after the other on one machine, so that what one defines the next can
use. Every source is scanned, parsed and resolved first, and nothing of it is executed if that
brings up a report. Diagnostics are those of one source only.
-/

namespace Lox

/-- A machine and the number of nodes made so far. -/
structure Session where
  machine : Machine
  made : Nat

/-- What a session answers to a source. -/
structure Answer where
  diagnostics : Diagnostics
  /-- The value of an expression that was evaluated. -/
  value : Option Value := none

namespace Session

/-- A session that has run nothing. -/
def new (readings : Nat → Option Number) (brokenOutput : Bool) : Session :=
  ⟨Machine.new readings brokenOutput, 0⟩

/-- The same session with no output in store. -/
def withoutOutput (s : Session) : Session :=
  { s with machine := { s.machine with output := s.machine.output.cleared } }

/-- The same session with another clock. -/
def withClock (s : Session) (readings : Nat → Option Number) : Session :=
  { s with machine := { s.machine with clock := ⟨readings, 0⟩ } }

/-- Run a program. There is no answer if the fuel does not suffice. -/
def run (fuel : Nat) (s : Session) (source : String) : Option (Answer × Session) :=
  let program := Program.ofTokens (tokens source) s.made
  let mistakes := lexicalReports source ++ program.complaints.map Complaint.report
  if !mistakes.isEmpty then some (⟨⟨mistakes⟩, none⟩, ⟨s.machine, program.made⟩)
  else
    let findings := programFindings program.statements
    let violations := findingReports findings
    let machine := s.machine.resolved findings
    if !violations.isEmpty then some (⟨⟨violations⟩, none⟩, ⟨machine, program.made⟩)
    else
      match interpret fuel program.statements machine with
      | some (error, final) =>
        some (⟨⟨(error.map Report.runtime).toList⟩, none⟩, ⟨final, program.made⟩)
      | none => none

/-- Evaluate a single expression. There is no answer if the fuel does not suffice. -/
def evaluate (fuel : Nat) (s : Session) (source : String) : Option (Answer × Session) :=
  let parsed := ParsedExpr.ofTokens (tokens source) s.made
  let mistakes := lexicalReports source ++ parsed.complaints.map Complaint.report
  match parsed.expr?, mistakes with
  | some e, [] =>
    let findings := expressionFindings e
    let violations := findingReports findings
    let machine := s.machine.resolved findings
    if !violations.isEmpty then some (⟨⟨violations⟩, none⟩, ⟨machine, parsed.made⟩)
    else
      match Eval.evaluate fuel e machine with
      | .ok v final => some (⟨⟨[]⟩, some v⟩, ⟨final, parsed.made⟩)
      | .error error final => some (⟨⟨[.runtime error]⟩, none⟩, ⟨final, parsed.made⟩)
      | .returned _ v final => some (⟨⟨[]⟩, some v⟩, ⟨final, parsed.made⟩)
      | .outOfFuel => none
  | _, _ => some (⟨⟨mistakes⟩, none⟩, ⟨s.machine, parsed.made⟩)

end Session

end Lox
