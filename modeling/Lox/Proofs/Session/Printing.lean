import Lox.Proofs.Evaluation.Leaving
import Lox.Proofs.Grammar.Closing
import Lox.Proofs.Mirror.Joining
import Lox.Proofs.Session.Responses

/-!
# Printing what an expression evaluates to

An expression can be evaluated on its own, or by a program that prints it. Both ways scan, read,
resolve and evaluate the same tree: the keyword `print` and the blank behind it are scanned apart
from what follows, the semicolon on a line of its own is read after the expression has come to an
end (`Parse.expression_closed`), and at the top level no scope is open. No `return` leaves the
expression. So the two differ in what they do with the value, and in nothing else
(`evaluating_and_printing_agree`).
-/

namespace Lox

/-! ### Scanning -/

def printToken : Token := ⟨.keyword .print, "print", 1⟩

theorem nextPiece_print (cs : List Char) :
    nextPiece 'p' ("rint ".toList ++ cs) = (.token (.keyword .print) "print".toList, ' ' :: cs) :=
  rfl

theorem pieces_print (cs : List Char) :
    pieces ("print ".toList ++ cs) =
      .token (.keyword .print) "print".toList :: .blank [' '] :: pieces cs := by
  show pieces ('p' :: ("rint ".toList ++ cs)) = _
  rw [pieces, nextPiece_print, pieces]
  rfl

theorem scanOnly_print (source : String) :
    scanOnly ("print " ++ source) = .token printToken :: scanOnly source := by
  rw [scanOnly, String.toList_append, pieces_print]
  rfl

theorem tokensOnly_print (source : String) :
    tokensOnly ("print " ++ source) = printToken :: tokensOnly source := by
  rw [tokensOnly, scanOnly_print]
  rfl

section Source

variable {source : String} {made : Nat}

theorem printing_lines (source : String) :
    "print " ++ source ++ "\n;" = "print " ++ source ++ "\n" ++ ";" := by
  show ("print " ++ source) ++ ("\n" ++ ";") = _
  exact String.append_assoc.symm

theorem lexicalReports_print (h : lexicalReports source = []) :
    lexicalReports ("print " ++ source) = [] := by
  rw [lexicalReports, scan_eq, List.filterMap_append] at h ⊢
  rw [scanOnly_print]
  exact h

/-- The semicolon below a source, and the end of file after it. -/
def semicolonBelow (source : String) : Token :=
  ⟨.symbol .semicolon, ";", 1 + (1 + newlines ("print " ++ source).toList)⟩

def endBelow (source : String) : Token :=
  (endOf ";").later (1 + newlines ("print " ++ source).toList)

theorem Cursor.ofTokens_print (h : lexicalReports source = []) :
    Cursor.ofTokens (tokens ("print " ++ source ++ "\n;")) made =
      ⟨printToken :: (tokensOnly source ++ [semicolonBelow source]), endBelow source, made,
        []⟩ := by
  have hlast : tokensOnly ";" = [⟨.symbol .semicolon, ";", 1⟩] := by decide +kernel
  rw [printing_lines, Cursor.ofTokens_lines (lexicalReports_print h), tokensOnly_print, hlast]
  rfl

/-! ### Reading -/

theorem ParsedExpr.expression_of_clean {ts : List Token}
    (h : (ParsedExpr.ofTokens ts made).complaints = []) :
    ∃ e d, Parse.expression (Parse.fuelFor ts.length) (Cursor.ofTokens ts made) = .ok e d ∧
      d.ahead = [] ∧ d.complaints = [] ∧ ParsedExpr.ofTokens ts made = ⟨some e, [], d.made⟩ := by
  have hfuel := Cursor.length_ahead_ofTokens ts made
  have hread := Parse.wholeExpression_recognizes (n := Parse.fuelFor ts.length)
    (c := Cursor.ofTokens ts made) (by rw [Parse.fuelFor]; omega)
  unfold ParsedExpr.ofTokens at h ⊢
  split at h
  · rename_i e d hwhole
    obtain ⟨e', mid, hexpression, hlast⟩ := Parse.bind_eq_ok hwhole
    cases hahead : mid.ahead with
    | nil =>
      have hend : Reply.ok e' mid = Reply.ok e d := by
        rw [← hlast]
        simp only [Parse.atEnd, bind, Parse.bind, hahead]
        rfl
      cases hend
      exact ⟨e, d, hexpression, hahead, h, congrArg (ParsedExpr.mk _ · _) h⟩
    | cons t rest =>
      have hend : Reply.fail ⟨mid.peek, .expected .endOfInput⟩ mid = Reply.ok e d := by
        rw [← hlast]
        simp only [Parse.atEnd, bind, Parse.bind, hahead]
        rfl
      cases hend
  · simp [Cursor.complain] at h
  · rename_i hstarved
    exact absurd hstarved (Parse.Spec.ended hread)

theorem Parse.declaration_print {n : Nat} {ts : List Token} {eof : Token} {s : Stmt} {d : Cursor}
    (h : Parse.printStatement n ⟨ts, eof, made, []⟩ = .ok s d) :
    Parse.declaration (n + 2) ⟨printToken :: ts, eof, made, []⟩ = .ok (some s) d := by
  show Parse.recover (Parse.printStatement n) ⟨ts, eof, made, []⟩ = _
  rw [Parse.recover, h]

theorem fuelFor_print (h : lexicalReports source = []) :
    ∃ n, Parse.fuelFor (tokens source).length ≤ n ∧
      Parse.fuelFor (tokens ("print " ++ source ++ "\n;")).length = n + 3 := by
  have hfuel := (fuelFor_lines (b := ";") (lexicalReports_print h)).1
  rw [← printing_lines, tokens_eq ("print " ++ source), tokensOnly_print] at hfuel
  rw [tokens_eq source]
  simp only [Parse.fuelFor, List.length_append, List.length_cons, List.length_nil] at hfuel ⊢
  exact ⟨32 * ((tokens ("print " ++ source ++ "\n;")).length + 1) - 3, by omega, by omega⟩

theorem Program.ofTokens_print (h : lexicalReports source = [])
    (hclean : (ParsedExpr.ofTokens (tokens source) made).complaints = []) :
    ∃ e, ParsedExpr.ofTokens (tokens source) made =
        ⟨some e, [], (ParsedExpr.ofTokens (tokens source) made).made⟩ ∧
      Program.ofTokens (tokens ("print " ++ source ++ "\n;")) made =
        ⟨[.print e], [], (ParsedExpr.ofTokens (tokens source) made).made⟩ := by
  obtain ⟨e, d, hread, hahead, hcomplaints, hparsed⟩ := ParsedExpr.expression_of_clean hclean
  refine ⟨e, by rw [hparsed], ?_⟩
  rw [hparsed, Program.ofTokens, Cursor.ofTokens_print h]
  obtain ⟨n, hn, hfuel⟩ := fuelFor_print h
  rw [Cursor.ofTokens_tokens] at hread
  have hclosed : Parse.ClosedBy [semicolonBelow source] := by
    intro t ht
    cases ht
    rfl
  have hexpression := Parse.expression_closed hclosed (endBelow source) hn hread hcomplaints
  have hprint : Parse.printStatement n
      ⟨tokensOnly source ++ [semicolonBelow source], endBelow source, made, []⟩ =
        .ok (.print e) { d with ahead := [], eof := endBelow source } := by
    refine (Parse.bind_of_ok hexpression).trans ?_
    simp only [Cursor.followedBy, hahead]
    rfl
  rw [hfuel, Parse.declarations_step (by simp), Parse.bind_of_ok (Parse.declaration_print hprint),
    Parse.prepend, Parse.bind_of_ok (Parse.declarations_end rfl)]
  rw [← hcomplaints]
  rfl

end Source

/-! ### Resolving and executing -/

theorem programFindings_print (e : Expr) : programFindings [.print e] = expressionFindings e :=
  List.append_nil _

@[simp]
theorem Output.broken_write (o : Output) (text : String) : (o.write text).broken = o.broken := by
  unfold Output.write
  split_ifs <;> rfl

theorem Output.write_of_broken {o : Output} (h : o.broken = true) (text : String) :
    o.write text = o := if_pos h

theorem Output.text_write_of_not_broken {o : Output} (h : o.broken = false) (text : String) :
    (o.write text).text = o.text ++ text := by
  rw [Output.write, h]
  rfl

/-- All that evaluation does to the output is to write to it. -/
theorem Machine.Effects.output {m m' : Machine} (h : m.Effects m') :
    m'.output.broken = m.output.broken ∧ (m.output.broken = true → m'.output = m.output) := by
  refine h.keeps (P := fun m₁ => m₁.output.broken = m.output.broken ∧
    (m.output.broken = true → m₁.output = m.output)) ⟨rfl, fun _ => rfl⟩ ?_
  intro m₁ m₂ he h₁
  cases he with
  | print text =>
    refine ⟨(Output.broken_write _ _).trans h₁.1, fun hbroken => ?_⟩
    exact (Output.write_of_broken (h₁.1.trans hbroken) text).trans (h₁.2 hbroken)
  | _ => exact h₁

theorem interpret_print (fuel : Nat) (e : Expr) (m : Machine) :
    interpret (fuel + 2) [.print e] m =
      match Eval.evaluate fuel e m with
      | .ok v next =>
        some (none, { next with output := next.output.write (next.heap.display v ++ "\n") })
      | .error x next => some (some x, next)
      | .returned keyword _ next => some (some (Fault.escapedReturn.at_ keyword), next)
      | .outOfFuel => none := by
  have hrun : Eval.executeAll (fuel + 2) [.print e] m =
      Eval.bind (Eval.bind (Eval.evaluate fuel e) Eval.print) (fun _ => Eval.pure ()) m := rfl
  rw [interpret, hrun]
  unfold Eval.bind
  cases Eval.evaluate fuel e m <;> rfl

/-! ### Both ways -/

/-- The line that shows a value, if there is one. -/
def Response.line (r : Response) : String :=
  match r.value with
  | some v => v.text ++ "\n"
  | none => ""

/-- What is seen of a program that prints an expression and what it leaves, next to the expression
evaluated on its own. -/
structure Session.Prints (s : Session) (evaluated printed : Response × Session) : Prop where
  diagnostics : printed.1.diagnostics = evaluated.1.diagnostics
  output : s.machine.output.broken = false →
    printed.1.output = evaluated.1.output ++ evaluated.1.line
  /-- Neither arrives in a broken output. -/
  silent : s.machine.output.broken = true → printed.1.output = "" ∧ evaluated.1.output = ""
  value : printed.1.value = none
  session : printed.2.withoutOutput = evaluated.2.withoutOutput

variable {s : Session} {final : Machine} {made : Nat} {findings : List Finding}

theorem Session.prints_nothing
    (h : (s.withoutOutput.machine.resolved findings).Effects final) (reports : List Report) :
    s.Prints (⟨final.output.text, ⟨reports⟩, none⟩, ⟨final, made⟩)
      (⟨final.output.text, ⟨reports⟩, none⟩, ⟨final, made⟩) where
  diagnostics := rfl
  output _ := String.append_empty.symm
  silent hbroken := by
    rw [h.output.2 hbroken]
    exact ⟨rfl, rfl⟩
  value := rfl
  session := rfl

theorem Session.prints_value
    (h : (s.withoutOutput.machine.resolved findings).Effects final) (v : Value) :
    s.Prints (⟨final.output.text, ⟨[]⟩, some (final.heap.shown v)⟩, ⟨final, made⟩)
      (⟨(final.output.write (final.heap.display v ++ "\n")).text, ⟨[]⟩, none⟩,
        ⟨{ final with output := final.output.write (final.heap.display v ++ "\n") }, made⟩) where
  diagnostics := rfl
  output hwhole := Output.text_write_of_not_broken (h.output.1.trans hwhole) _
  silent hbroken := by
    rw [Output.write_of_broken (h.output.1.trans hbroken), h.output.2 hbroken]
    exact ⟨rfl, rfl⟩
  value := rfl
  session := by simp [Session.withoutOutput, Output.cleared]

/-- An expression evaluated on its own and a program that prints it come to the same, except that
the program prints the value. The program takes two steps more: for its list of statements and for
the statement. -/
theorem evaluating_and_printing_agree (s : Session) (source : String)
    (hscan : lexicalReports source = [])
    (hread : (ParsedExpr.ofTokens (tokens source) s.made).complaints = []) (fuel : Nat) :
    Option.Rel s.Prints (s.respond fuel (.evaluate source))
      (s.respond (fuel + 2) (.run ("print " ++ source ++ "\n;"))) := by
  obtain ⟨e, hparsed, hprogram⟩ := Program.ofTokens_print hscan hread
  have hlexical : lexicalReports ("print " ++ source ++ "\n;") = [] := by
    rw [printing_lines]
    exact lexicalReports_lines (lexicalReports_print hscan) (by decide +kernel)
  generalize (ParsedExpr.ofTokens (tokens source) s.made).made = made at hparsed hprogram
  have hs : s.withoutOutput.made = s.made := rfl
  simp only [Session.respond, Session.perform, Session.evaluate, Session.run, hs, hparsed, hprogram,
    hlexical, hscan, programFindings_print, interpret_print, List.map_nil, List.append_nil,
    List.isEmpty_nil, Bool.not_true, Bool.false_eq_true, if_false]
  have heffects := Eval.evaluate_effects fuel e
    (s.withoutOutput.machine.resolved (expressionFindings e))
  have hreturn := Eval.evaluate_ne_returned fuel e
    (s.withoutOutput.machine.resolved (expressionFindings e))
  split_ifs with hviolations
  · exact .some (Session.prints_nothing (Machine.Effects.refl _) _)
  · generalize Eval.evaluate fuel e _ = o at heffects hreturn
    cases o with
    | ok v final => exact .some (Session.prints_value heffects v)
    | error x final => exact .some (Session.prints_nothing heffects _)
    | returned keyword v final => exact absurd rfl (hreturn keyword v final)
    | outOfFuel => exact .none

/-- A session with a function that prints its argument and returns it with a mark. -/
def echoSession : Session :=
  let fresh := Session.new (Clock.readingsFrom 0) false
  (fresh.play [(40, .run "fun echo(x) \x7b print x; return x + \"!\"; \x7d")]).getD fresh

/-- A call over two lines, with a comment at its end. -/
def echoCall : String := "echo(\"a\nb\") // done;"

/-- The call prints, and the program prints what the call returns too. -/
theorem printed_call_agrees : ∃ evaluated printed,
    echoSession.respond 40 (.evaluate echoCall) = some evaluated ∧
      echoSession.respond 42 (.run ("print " ++ echoCall ++ "\n;")) = some printed ∧
      evaluated.1.output = "a\nb\n" ∧ printed.1.output = "a\nb\na\nb!\n" ∧
      echoSession.Prints evaluated printed := by
  have hagree := evaluating_and_printing_agree echoSession echoCall (by decide +kernel)
    (by decide +kernel) 40
  have houtput : ((echoSession.respond 40 (.evaluate echoCall)).map (·.1.output)) =
      some "a\nb\n" := by decide +kernel
  have hline : ((echoSession.respond 40 (.evaluate echoCall)).map (·.1.line)) =
      some "a\nb!\n" := by decide +kernel
  obtain ⟨evaluated, hevaluated, houtput⟩ := Option.map_eq_some_iff.mp houtput
  rw [hevaluated] at hagree hline
  rw [Option.map_some, Option.some.injEq] at hline
  generalize echoSession.respond 42 _ = o at hagree ⊢
  cases hagree with
  | some hprints =>
    refine ⟨evaluated, _, hevaluated, rfl, houtput, ?_, hprints⟩
    rw [hprints.output (by decide +kernel), houtput, hline]
    rfl

end Lox
