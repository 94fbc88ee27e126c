import Lox.Proofs.Session.History

/-!
# Responses of sessions

What the outside sees of a step: the text that it printed, its diagnostics, and the value of an
expression as the heap shows it. Handles into the heap and identities of nodes stay inside.
-/

namespace Lox

/-- A value as it is shown. -/
structure Shown where
  text : String
  typeName : String
  truthy : Bool
  /-- How many arguments the value takes, if it can be called. -/
  arity? : Option Nat
  deriving DecidableEq

def Heap.shown (h : Heap) (v : Value) : Shown :=
  ⟨h.display v, v.typeName, v.isTruthy, h.arity? v⟩

/-- What is seen of one step. -/
structure Response where
  output : String
  diagnostics : Diagnostics
  value : Option Shown

namespace Session

/-- Take one step, with no output of past steps in store. -/
def respond (fuel : Nat) (s : Session) (step : Step) : Option (Response × Session) :=
  (s.withoutOutput.perform fuel step).map fun (answer, next) =>
    (⟨next.machine.output.text, answer.diagnostics, answer.value.map next.machine.heap.shown⟩, next)

/-- The responses to the steps of a history, up to the first that does not end. -/
def responses (s : Session) : History → List Response
  | [] => []
  | (fuel, step) :: rest =>
    match s.respond fuel step with
    | some (response, next) => response :: next.responses rest
    | none => []

variable {s next : Session} {fuel : Nat} {step : Step} {r : Response}

end Session

end Lox
