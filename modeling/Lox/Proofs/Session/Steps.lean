import Lox.Proofs.Evaluation.Effects
import Lox.Proofs.Grammar.Trees
import Lox.Proofs.Scoping.Uses
import Lox.Proofs.Session.History

/-!
# Steps of a session

What a step of a session can come to, said once. Either a report stops it before anything runs; the
machine is then as before, except that distances may have been recorded for nodes of the rejected
source. Or it runs, and the machine has undergone the effects of evaluation. In both cases the nodes
that were read count among those made.
-/

namespace Lox

theorem mistakes_static (source : String) (complaints : List Complaint) :
    ∀ r ∈ lexicalReports source ++ complaints.map Complaint.report, r.isRuntime = false := by
  intro r hr
  rcases List.mem_append.mp hr with hr | hr
  · obtain ⟨i, -, hi⟩ := List.mem_filterMap.mp hr
    cases i with
    | token t => simp [Item.report?] at hi
    | error line cause =>
      rw [Item.report?, Option.some.injEq] at hi
      exact hi ▸ rfl
  · obtain ⟨c, -, rfl⟩ := List.mem_map.mp hr
    rfl

theorem violations_static (findings : List Finding) :
    ∀ r ∈ findingReports findings, r.isRuntime = false := by
  intro r hr
  obtain ⟨f, -, hf⟩ := List.mem_filterMap.mp hr
  cases f with
  | violation token rule =>
    rw [Finding.report?, Option.some.injEq] at hf
    exact hf ▸ rfl
  | distance id k => simp [Finding.report?] at hf

namespace Step

def source : Step → String
  | .run source => source
  | .evaluate source => source

/-- The number of nodes made after a step, where `made` nodes were made before it. -/
def madeAfter (made : Nat) : Step → Nat
  | .run source => (Program.ofTokens (tokens source) made).made
  | .evaluate source => (ParsedExpr.ofTokens (tokens source) made).made

theorem le_madeAfter (step : Step) (made : Nat) : made ≤ step.madeAfter made := by
  cases step with
  | run source => exact (program_made (P := fun _ => True) (fun _ _ => trivial) made).2.2
  | evaluate source => exact (parsedExpr_made (P := fun _ => True) (fun _ _ => trivial) made).2

end Step

/-- The number of nodes made after all steps of a history, however they end. -/
def History.madeAfter (made : Nat) : History → Nat
  | [] => made
  | entry :: rest => History.madeAfter (entry.2.madeAfter made) rest

theorem History.le_madeAfter (history : History) (made : Nat) : made ≤ history.madeAfter made := by
  induction history generalizing made with
  | nil => exact le_refl made
  | cons entry rest ih => exact le_trans (entry.2.le_madeAfter made) (ih _)

theorem programFindings_ids (source : String) (made : Nat) :
    Fresh made (Program.ofTokens (tokens source) made).made
      (findingIds (programFindings (Program.ofTokens (tokens source) made).statements)) := by
  obtain ⟨-, hfresh, -⟩ := program_made (P := fun _ => True)
    (fun t (_ : t ∈ tokens source) => trivial) made
  exact hfresh.sublist (resolveAll_ids {} [] _)

/-- What a step can come to. -/
inductive Session.Took (s : Session) (step : Step) : Answer → Session → Prop where
  | rejected {reports : List Report} {findings : List Finding}
    (hstatic : ∀ r ∈ reports, r.isRuntime = false)
    (hids : Fresh s.made (step.madeAfter s.made) (findingIds findings)) :
    s.Took step ⟨⟨reports⟩, none⟩ ⟨s.machine.resolved findings, step.madeAfter s.made⟩
  | ran {a : Answer} {findings : List Finding} {m : Machine}
    (hruntime : ∀ r ∈ a.diagnostics.reports, r.isRuntime = true)
    (hids : Fresh s.made (step.madeAfter s.made) (findingIds findings))
    (heffects : (s.machine.resolved findings).Effects m) :
    s.Took step a ⟨m, step.madeAfter s.made⟩

namespace Session

variable {s next : Session} {fuel : Nat} {a : Answer} {step : Step}

theorem took_unread {reports : List Report} (h : ∀ r ∈ reports, r.isRuntime = false) :
    s.Took step ⟨⟨reports⟩, none⟩ ⟨s.machine, step.madeAfter s.made⟩ := by
  show s.Took step _ ⟨s.machine.resolved [], step.madeAfter s.made⟩
  exact .rejected h (.nil _ _)

theorem took_run {source : String} (h : s.run fuel source = some (a, next)) :
    s.Took (.run source) a next := by
  have hids := programFindings_ids source s.made
  unfold Session.run at h
  dsimp only at h
  split_ifs at h with hmistakes hviolations
  · cases h
    exact took_unread (mistakes_static source _)
  · cases h
    exact .rejected (violations_static _) hids
  · have heffects := Eval.executeAll_effects fuel
      (Program.ofTokens (tokens source) s.made).statements (s.machine.resolved
        (programFindings (Program.ofTokens (tokens source) s.made).statements))
    unfold interpret at h
    generalize Eval.executeAll fuel _ _ = o at h heffects
    cases o with
    | ok _ final =>
      cases h
      exact .ran (by simp) hids heffects
    | error e final =>
      cases h
      exact .ran (by simp [Report.isRuntime]) hids heffects
    | returned t v final =>
      cases h
      exact .ran (by simp [Report.isRuntime]) hids heffects
    | outOfFuel => simp at h

theorem took_evaluate {source : String} (h : s.evaluate fuel source = some (a, next)) :
    s.Took (.evaluate source) a next := by
  obtain ⟨hmade, -⟩ := parsedExpr_made (P := fun _ => True)
    (fun t (_ : t ∈ tokens source) => trivial) s.made
  unfold Session.evaluate at h
  dsimp only at h
  split at h
  · rename_i e hexpr _
    have hids : Fresh s.made (Step.madeAfter s.made (.evaluate source))
        (findingIds (expressionFindings e)) :=
      (hmade e hexpr).2.sublist (e.findings_ids {} [])
    split_ifs at h with hviolations
    · cases h
      exact .rejected (violations_static _) hids
    · have heffects := Eval.evaluate_effects fuel e
        (s.machine.resolved (expressionFindings e))
      generalize Eval.evaluate fuel e _ = o at h heffects
      cases o with
      | ok v final =>
        cases h
        exact .ran (by simp) hids heffects
      | error error final =>
        cases h
        exact .ran (by simp [Report.isRuntime]) hids heffects
      | returned t v final =>
        cases h
        exact .ran (by simp) hids heffects
      | outOfFuel => simp at h
  · cases h
    exact took_unread (mistakes_static source _)

theorem took (h : s.perform fuel step = some (a, next)) : s.Took step a next := by
  cases step with
  | run source => exact took_run h
  | evaluate source => exact took_evaluate h

theorem made_of_perform (h : s.perform fuel step = some (a, next)) :
    next.made = step.madeAfter s.made := by
  cases took h with
  | rejected => rfl
  | ran => rfl

theorem globals_of_perform (h : s.perform fuel step = some (a, next)) :
    next.machine.globals = s.machine.globals := by
  cases took h with
  | rejected => rfl
  | ran _ _ heffects => exact heffects.globals

/-- Nothing gets recorded for nodes that are still to come. -/
theorem unrecorded_of_perform (h : s.perform fuel step = some (a, next))
    (hs : ∀ id : NodeId, s.made ≤ id.toNat → s.machine.distances.find? id = none) :
    ∀ id : NodeId, next.made ≤ id.toNat → next.machine.distances.find? id = none := by
  intro id hid
  rw [made_of_perform h] at hid
  have hresolved : ∀ findings : List Finding,
      Fresh s.made (step.madeAfter s.made) (findingIds findings) →
      (s.machine.resolved findings).distances.find? id = none := by
    intro findings hfindings
    rw [← hs id (le_trans (step.le_madeAfter s.made) hid)]
    refine Distances.find?_recordAll_of_notMem _ fun hmem => ?_
    exact absurd (hfindings.toNat_lt hmem) (not_lt.mpr hid)
  cases took h with
  | rejected _ hfindings => exact hresolved _ hfindings
  | ran _ hfindings heffects =>
    rw [heffects.distances]
    exact hresolved _ hfindings

/-! ### Sources without mistakes -/

end Session

/-- Nothing is reported of a source before it is run, where `made` nodes were made before it. -/
structure Accepted (source : String) (made : Nat) : Prop where
  lexical : lexicalReports source = []
  complaints : (Program.ofTokens (tokens source) made).complaints = []
  violations :
    findingReports (programFindings (Program.ofTokens (tokens source) made).statements) = []

end Lox
