import Lox.Proofs.Mirror.Reading
import Lox.Proofs.Mirror.Runs
import Lox.Proofs.Session.Steps
import Lox.Proofs.Token.Lines

/-!
# Mirrored steps of sessions

Two sessions whose machines are mirrored are asked the same. If what they read is mirrored too, they
take the step alike: both answer, with corresponding reports and the same value, on machines that
are still mirrored, or the fuel suffices for neither (`Session.perform_mirrored`).
-/

namespace Lox

variable {μ : Mirror}

/-! ### Reports -/

/-- The same report, at a corresponding token. -/
inductive Report.Mirrored (μ : Mirror) : Report → Report → Prop where
  | lexical (line : Nat) (message : String) :
    Report.Mirrored μ (.lexical line message) (.lexical line message)
  | parsing {t t' : Token} (ht : μ.token t t') (message : String) :
    Report.Mirrored μ (.parsing t message) (.parsing t' message)
  | resolution {t t' : Token} (ht : μ.token t t') (message : String) :
    Report.Mirrored μ (.resolution t message) (.resolution t' message)
  | runtime {e e' : RuntimeError} (he : e.Mirrored μ e') :
    Report.Mirrored μ (.runtime e) (.runtime e')

/-- Answers with corresponding reports and the same value. -/
structure Answer.Mirrored (μ : Mirror) (a a' : Answer) : Prop where
  reports : List.Forall₂ (Report.Mirrored μ) a.diagnostics.reports a'.diagnostics.reports
  value : a'.value = a.value

theorem lexicalReports_mirrored (source : String) :
    List.Forall₂ (Report.Mirrored μ) (lexicalReports source) (lexicalReports source) := by
  refine List.forall₂_same.mpr fun r hr => ?_
  obtain ⟨item, -, hitem⟩ := List.mem_filterMap.mp hr
  cases item with
  | token t => simp [Item.report?] at hitem
  | error line cause =>
    rw [Item.report?, Option.some.injEq] at hitem
    rw [← hitem]
    exact .lexical line cause.message

theorem mistakes_mirrored (source : String) {xs xs' : List Complaint}
    (h : List.Forall₂ (Complaint.Mirrored μ) xs xs') :
    List.Forall₂ (Report.Mirrored μ) (lexicalReports source ++ xs.map Complaint.report)
      (lexicalReports source ++ xs'.map Complaint.report) := by
  refine List.rel_append (lexicalReports_mirrored source) ?_
  induction h with
  | nil => exact .nil
  | @cons x x' rest rest' hx hrest ih =>
    refine .cons ?_ ih
    rw [Complaint.report, Complaint.report, hx.error]
    exact .parsing hx.token _

theorem findingReports_mirrored {fs fs' : List Finding} (h : FindingsMirrored μ fs fs') :
    List.Forall₂ (Report.Mirrored μ) (findingReports fs) (findingReports fs') := by
  induction h with
  | nil => exact .nil
  | cons hf hrest ih =>
    cases hf with
    | violation ht rule => exact .cons (.resolution ht _) ih
    | distance hid steps => exact ih

theorem isEmpty_mirrored {α : Type} {r : α → α → Prop} {xs xs' : List α}
    (h : List.Forall₂ r xs xs') : xs'.isEmpty = xs.isEmpty := by
  cases h with
  | nil => rfl
  | cons hx hrest => rfl

/-! ### Programs -/

theorem MirroredAll.violations_iff {body body' : List Stmt} (h : MirroredAll μ body body') :
    findingReports (programFindings body') = [] ↔ findingReports (programFindings body) = [] := by
  have hreports := findingReports_mirrored (resolveAll_mirrored {} [] body h).findings
  rw [← List.isEmpty_iff, ← List.isEmpty_iff, programFindings, programFindings,
    isEmpty_mirrored hreports]

theorem Machine.Mirrored.resolved (hμ : μ.OneToOne) {m m' : Machine} (hm : m.Mirrored μ m')
    {fs fs' : List Finding} (hfs : FindingsMirrored μ fs fs') :
    (m.resolved fs).Mirrored μ (m'.resolved fs') :=
  { hm with distances := hm.distances.recordAll hμ hfs }

theorem interpret_mirrored {m m' : Machine} (hm : m.Mirrored μ m') {body body' : List Stmt}
    (h : MirroredAll μ body body') (fuel : Nat) :
    Option.Rel (fun r r' => Option.Rel (RuntimeError.Mirrored μ) r.1 r'.1 ∧ r.2.Mirrored μ r'.2)
      (interpret fuel body m) (interpret fuel body' m') := by
  have hrun := (Eval.mirroredRuns μ fuel).stmts h m m' hm
  unfold interpret
  generalize Eval.executeAll fuel body m = o, Eval.executeAll fuel body' m' = o' at hrun
  cases hrun with
  | ok ha hm => exact .some ⟨.none, hm⟩
  | error he hm => exact .some ⟨.some he, hm⟩
  | returned ht v hm => exact .some ⟨.some (Fault.mirrored ht _), hm⟩
  | outOfFuel => exact .none

/-! ### Steps -/

theorem find?_isEof_tokens (source : String) :
    ((tokens source).find? Token.isEof).isSome = true := by
  rw [tokens_eq, List.find?_append, Option.isSome_or]
  simp [Token.isEof]


namespace Step

/-- What is read for a step is mirrored in two sessions. -/
def Read (μ : Mirror) (made made' : Nat) : Step → Prop
  | .run source =>
    (Program.ofTokens (tokens source) made).Mirrored μ (Program.ofTokens (tokens source) made')
  | .evaluate source =>
    (ParsedExpr.ofTokens (tokens source) made).Mirrored μ
      (ParsedExpr.ofTokens (tokens source) made')

theorem read_mirrored {step : Step} (htokens : ∀ t ∈ tokens step.source, μ.token t t)
    {made made' : Nat} (hmade : μ.made made made') :
    step.Read μ made made' ∧ μ.made (step.madeAfter made) (step.madeAfter made') := by
  have hsame := List.forall₂_same.mpr htokens
  have heof := find?_isEof_tokens step.source
  cases step with
  | run source => exact Program.ofTokens_mirrored hsame heof hmade
  | evaluate source => exact ParsedExpr.ofTokens_mirrored hsame heof hmade

end Step

/-- Answers and machines after a step correspond. -/
structure StepMirrored (μ : Mirror) (r r' : Answer × Session) : Prop where
  answer : r.1.Mirrored μ r'.1
  machine : r.2.machine.Mirrored μ r'.2.machine

section Steps

variable {s s' : Session} (hμ : μ.OneToOne) (hm : s.machine.Mirrored μ s'.machine)

include hμ hm

theorem Session.run_mirrored {source : String} (hread : (Step.run source).Read μ s.made s'.made)
    (fuel : Nat) : Option.Rel (StepMirrored μ) (s.run fuel source) (s'.run fuel source) := by
  obtain ⟨hstatements, hcomplaints⟩ := hread
  have hmistakes := mistakes_mirrored source hcomplaints
  have hfindings := (resolveAll_mirrored {} [] _ hstatements).findings
  have hviolations := findingReports_mirrored hfindings
  have hresolved := hm.resolved hμ hfindings
  have hend := interpret_mirrored hresolved hstatements fuel
  unfold Session.run
  dsimp only
  rw [isEmpty_mirrored hmistakes, programFindings, programFindings, isEmpty_mirrored hviolations]
  split_ifs
  · exact .some ⟨⟨hmistakes, rfl⟩, hm⟩
  · exact .some ⟨⟨hviolations, rfl⟩, hresolved⟩
  · generalize interpret fuel _ (s.machine.resolved _) = o,
      interpret fuel _ (s'.machine.resolved _) = o' at hend
    cases hend with
    | none => exact .none
    | @some r r' hend =>
      obtain ⟨error, final⟩ := r
      obtain ⟨error', final'⟩ := r'
      obtain ⟨herror, hfinal⟩ := hend
      refine .some ⟨⟨?_, rfl⟩, hfinal⟩
      cases herror with
      | none => exact .nil
      | some he => exact .cons (.runtime he) .nil

theorem Session.evaluate_mirrored {source : String}
    (hread : (Step.evaluate source).Read μ s.made s'.made) (fuel : Nat) :
    Option.Rel (StepMirrored μ) (s.evaluate fuel source) (s'.evaluate fuel source) := by
  obtain ⟨hexpr, hcomplaints⟩ := hread
  have hmistakes := mistakes_mirrored source hcomplaints
  unfold Session.evaluate
  dsimp only
  generalize (ParsedExpr.ofTokens (tokens source) s.made).expr? = e,
    (ParsedExpr.ofTokens (tokens source) s'.made).expr? = e' at hexpr
  generalize lexicalReports source ++ List.map Complaint.report
      (ParsedExpr.ofTokens (tokens source) s.made).complaints = xs,
    lexicalReports source ++ List.map Complaint.report
      (ParsedExpr.ofTokens (tokens source) s'.made).complaints = xs' at hmistakes
  cases hexpr with
  | none => exact .some ⟨⟨hmistakes, rfl⟩, hm⟩
  | @some e e' he =>
    cases hmistakes with
    | cons hx hrest => exact .some ⟨⟨.cons hx hrest, rfl⟩, hm⟩
    | nil =>
      have hfindings := Expr.findings_mirrored {} [] e he
      have hviolations := findingReports_mirrored hfindings
      have hresolved := hm.resolved hμ hfindings
      have hend := (Eval.mirroredRuns μ fuel).expr he _ _ hresolved
      dsimp only
      rw [expressionFindings, expressionFindings, isEmpty_mirrored hviolations]
      split_ifs
      · exact .some ⟨⟨hviolations, rfl⟩, hresolved⟩
      · generalize Eval.evaluate fuel e _ = o, Eval.evaluate fuel e' _ = o' at hend
        cases hend with
        | ok hv hfinal =>
          subst hv
          exact .some ⟨⟨.nil, rfl⟩, hfinal⟩
        | error herror hfinal =>
          exact .some ⟨⟨.cons (.runtime herror) .nil, rfl⟩, hfinal⟩
        | returned ht v hfinal => exact .some ⟨⟨.nil, rfl⟩, hfinal⟩
        | outOfFuel => exact .none

theorem Session.perform_mirrored {step : Step} (hread : step.Read μ s.made s'.made)
    (fuel : Nat) : Option.Rel (StepMirrored μ) (s.perform fuel step) (s'.perform fuel step) := by
  cases step with
  | run source => exact Session.run_mirrored hμ hm hread fuel
  | evaluate source => exact Session.evaluate_mirrored hμ hm hread fuel

end Steps

end Lox
