import Lox.Proofs.Evaluation.Lines
import Lox.Proofs.Session.Moments

/-!
# Output never feeds back

A session prints and never looks at what it has printed. With another output in place of its own,
also one in which nothing arrives, it gives the same answers and comes to the same machine, but for
the output. A step writes the lines of the print statements it executes, and nothing else
(`output_never_feeds_back`).
-/

namespace Lox

theorem interpret_withOutput (fuel : Nat) (statements : List Stmt) (m : Machine) (o : Output) :
    interpret fuel statements (m.withOutput o) =
      (interpret fuel statements m).map fun r =>
        (r.1, r.2.withOutput (o.writeAll (lines fuel (.stmts statements) m))) := by
  unfold interpret
  rw [(Eval.evaluation_writes fuel).stmts statements [] m o]
  cases Eval.executeAll fuel statements m <;> rfl

namespace Session

def withOutput (s : Session) (o : Output) : Session := { s with machine := s.machine.withOutput o }

/-- The lines of a step. A source with mistakes prints nothing, nor does one with violations. -/
def lines (fuel : Nat) (s : Session) (step : Step) : List Line :=
  match step.code? s.made with
  | none => []
  | some c =>
    if (findingReports c.findings).isEmpty then
      Lox.lines fuel c.task (s.machine.resolved c.findings)
    else []

/-- The lines of the steps of a history, as far as they end. -/
def allLines (s : Session) : History → List Line
  | [] => []
  | (fuel, step) :: rest =>
    match s.perform fuel step with
    | some (_, next) => s.lines fuel step ++ next.allLines rest
    | none => []

/-! ### Steps -/

theorem run_withOutput (fuel : Nat) (s : Session) (source : String) (o : Output) :
    (s.withOutput o).run fuel source =
      (s.run fuel source).map fun r =>
        (r.1, r.2.withOutput (o.writeAll (s.lines fuel (.run source)))) := by
  unfold Session.run Session.lines
  rw [Step.code?_run]
  dsimp only [Session.withOutput]
  generalize Program.ofTokens (tokens source) s.made = program
  generalize lexicalReports source ++ program.complaints.map Complaint.report = mistakes
  cases mistakes with
  | cons mistake rest => rfl
  | nil =>
    by_cases hclean : (findingReports (programFindings program.statements)).isEmpty
    · have hresolved : (s.machine.withOutput o).resolved (programFindings program.statements) =
          (s.machine.resolved (programFindings program.statements)).withOutput o := rfl
      simp only [List.isEmpty_nil, hclean, Code.findings, Code.task, hresolved,
        interpret_withOutput, if_true, Bool.not_true, Bool.false_eq_true, if_false]
      cases interpret fuel program.statements _ <;> rfl
    · simp only [List.isEmpty_nil, hclean, Code.findings, if_true, Bool.not_true,
        Bool.false_eq_true, Bool.not_false, if_false]
      rfl

theorem evaluate_withOutput (fuel : Nat) (s : Session) (source : String) (o : Output) :
    (s.withOutput o).evaluate fuel source =
      (s.evaluate fuel source).map fun r =>
        (r.1, r.2.withOutput (o.writeAll (s.lines fuel (.evaluate source)))) := by
  unfold Session.evaluate Session.lines
  rw [Step.code?_evaluate]
  dsimp only [Session.withOutput]
  generalize ParsedExpr.ofTokens (tokens source) s.made = parsed
  generalize lexicalReports source ++ parsed.complaints.map Complaint.report = mistakes
  cases mistakes with
  | cons mistake rest => cases parsed.expr? <;> rfl
  | nil =>
    cases parsed.expr? with
    | none => rfl
    | some e =>
      by_cases hclean : (findingReports (expressionFindings e)).isEmpty
      · have hresolved : (s.machine.withOutput o).resolved (expressionFindings e) =
            (s.machine.resolved (expressionFindings e)).withOutput o := rfl
        simp only [List.isEmpty_nil, hclean, Code.findings, Code.task, hresolved, Option.map_some,
          (Eval.evaluation_writes fuel).expr e [] _ o, if_true, Bool.not_true, Bool.false_eq_true,
          if_false]
        cases Eval.evaluate fuel e _ <;> rfl
      · simp only [List.isEmpty_nil, hclean, Code.findings, Option.map_some, if_true,
          Bool.not_false, Bool.false_eq_true, if_false]
        rfl

theorem perform_withOutput (fuel : Nat) (s : Session) (step : Step) (o : Output) :
    (s.withOutput o).perform fuel step =
      (s.perform fuel step).map fun r =>
        (r.1, r.2.withOutput (o.writeAll (s.lines fuel step))) := by
  cases step with
  | run source => exact run_withOutput fuel s source o
  | evaluate source => exact evaluate_withOutput fuel s source o

/-! ### Histories -/

theorem answers_withOutput (s : Session) (o : Output) (history : History) :
    (s.withOutput o).answers history = s.answers history := by
  induction history generalizing s o with
  | nil => rfl
  | cons entry rest ih =>
    obtain ⟨fuel, step⟩ := entry
    rw [answers, answers, perform_withOutput]
    cases s.perform fuel step with
    | none => rfl
    | some result => exact congrArg (result.1 :: ·) (ih result.2 _)

theorem play_withOutput (s : Session) (o : Output) (history : History) :
    (s.withOutput o).play history =
      (s.play history).map fun next => next.withOutput (o.writeAll (s.allLines history)) := by
  induction history generalizing s o with
  | nil => rfl
  | cons entry rest ih =>
    obtain ⟨fuel, step⟩ := entry
    rw [play, play, allLines, perform_withOutput]
    cases s.perform fuel step with
    | none => rfl
    | some result =>
      simp only [Option.map_some, Output.writeAll_append]
      exact ih result.2 _

end Session

/-- Output never feeds back. A program and each step of a session end in the same way with any
output `o`: with the same runtime error or the same answer, and with the same machine but for the
output. The output at the end is `o` with a line written for each print statement executed, in
order: `o` itself if it is broken, and else `o` followed by the displayed values, with a newline
after each. So do all steps of a history, one after the other. -/
theorem output_never_feeds_back :
    (∀ (fuel : Nat) (statements : List Stmt) (m : Machine) (o : Output),
      interpret fuel statements (m.withOutput o) =
        (interpret fuel statements m).map fun r =>
          (r.1, r.2.withOutput (o.writeAll (lines fuel (.stmts statements) m)))) ∧
    (∀ (fuel : Nat) (s : Session) (step : Step) (o : Output),
      (s.withOutput o).perform fuel step =
        (s.perform fuel step).map fun r =>
          (r.1, r.2.withOutput (o.writeAll (s.lines fuel step)))) ∧
    (∀ (s : Session) (o : Output) (history : History),
      (s.withOutput o).answers history = s.answers history ∧
      (s.withOutput o).play history =
        (s.play history).map fun next => next.withOutput (o.writeAll (s.allLines history))) ∧
    ∀ (o : Output) (ls : List Line),
      o.writeAll ls =
        if o.broken then o
        else { o with
          text := o.text ++ String.join (ls.map fun l => l.heap.display l.value ++ "\n") } :=
  ⟨interpret_withOutput, Session.perform_withOutput,
    fun s o history => ⟨s.answers_withOutput o history, s.play_withOutput o history⟩,
    Output.writeAll_eq⟩

end Lox
