import Lox.Proofs.Mirror.Reached
import Lox.Proofs.Session.Errors

/-!
# Diagnostics point at source text

A report of a parsing or resolution mistake blames a token of the source that is read. A runtime
error may blame older code, of a function that an earlier step has left behind: the token then stems
from the source of that step. In both cases its line is a line of the source
(`diagnostics_point_at_source_text`).

The evaluator makes up a token of its own in one place only, for the `this` that goes with `super`.
It never blames it, as `this` is bound wherever `super` is.
-/

namespace Lox

/-! ### Mistakes and violations -/

section Static

variable {μ : Mirror} {s next : Session} {fuel : Nat} {a : Answer} {r : Report}

theorem Session.run_blames {source : String} (hread : (Step.run source).Read μ s.made s.made)
    (h : s.run fuel source = some (a, next)) (hr : r ∈ a.diagnostics.reports)
    (hstatic : r.isRuntime = false) : r.Mirrored μ r := by
  obtain ⟨hstatements, hcomplaints⟩ := hread
  have hmistakes := List.forall₂_same.mp (mistakes_mirrored source hcomplaints)
  have hviolations := List.forall₂_same.mp
    (findingReports_mirrored (resolveAll_mirrored {} [] _ hstatements).findings)
  unfold Session.run at h
  dsimp only at h
  split_ifs at h
  · cases h
    exact hmistakes r hr
  · cases h
    exact hviolations r hr
  · split at h
    · cases h
      simp only [Option.mem_toList, Option.map_eq_some_iff] at hr
      obtain ⟨e, -, rfl⟩ := hr
      simp [Report.isRuntime] at hstatic
    · cases h

theorem Session.evaluate_blames {source : String}
    (hread : (Step.evaluate source).Read μ s.made s.made)
    (h : s.evaluate fuel source = some (a, next)) (hr : r ∈ a.diagnostics.reports)
    (hstatic : r.isRuntime = false) : r.Mirrored μ r := by
  obtain ⟨hexpr, hcomplaints⟩ := hread
  have hmistakes := List.forall₂_same.mp (mistakes_mirrored source hcomplaints)
  unfold Session.evaluate at h
  dsimp only at h
  generalize (ParsedExpr.ofTokens (tokens source) s.made).expr? = e at hexpr h
  generalize lexicalReports source ++ List.map Complaint.report
    (ParsedExpr.ofTokens (tokens source) s.made).complaints = xs at hmistakes h
  split at h
  · cases hexpr with
    | some he =>
    have hviolations := List.forall₂_same.mp
      (findingReports_mirrored (Expr.findings_mirrored {} [] _ he))
    split_ifs at h
    · cases h
      exact hviolations r hr
    · split at h
      all_goals cases h
      · simp at hr
      · rw [List.mem_singleton] at hr
        simp [hr, Report.isRuntime] at hstatic
      · simp at hr
  · cases h
    exact hmistakes r hr

theorem Session.perform_blames {step : Step} (h : s.perform fuel step = some (a, next))
    (hr : r ∈ a.diagnostics.reports) (hstatic : r.isRuntime = false) :
    r.Mirrored (.own (· ∈ tokens step.source) (·.toNat < step.madeAfter s.made)) r := by
  have hread := step.read_own (fun t (ht : t ∈ tokens step.source) => ht) s.made
  cases step with
  | run source => exact Session.run_blames hread h hr hstatic
  | evaluate source => exact Session.evaluate_blames hread h hr hstatic

end Static

/-! ### Runtime errors -/

namespace Session

theorem answers_take (s : Session) (history : History) (n : Nat) :
    s.answers (history.take n) = (s.answers history).take n := by
  induction history generalizing s n with
  | nil => simp [answers]
  | cons entry rest ih =>
    obtain ⟨fuel, step⟩ := entry
    cases n with
    | zero => rfl
    | succ n =>
      rw [List.take_succ_cons, answers, answers]
      cases s.perform fuel step with
      | none => rfl
      | some result => exact congrArg (result.1 :: ·) (ih result.2 n)

/-- A runtime error of a step blames a token of the source of that step or of an earlier one. -/
theorem runtime_token_of_answers (readings : Nat → Option Number) (brokenOutput : Bool)
    {history : History} {i : Nat} {a : Answer} {e : RuntimeError}
    (ha : ((Session.new readings brokenOutput).answers history)[i]? = some a)
    (he : .runtime e ∈ a.diagnostics.reports) :
    ∃ j ≤ i, ∃ entry, history[j]? = some entry ∧ e.token ∈ tokens entry.2.source := by
  let P (t : Token) : Prop :=
    ∃ j ≤ i, ∃ entry, history[j]? = some entry ∧ t ∈ tokens entry.2.source
  have hP : ∀ t, P t → t.Spelled := fun t ⟨_, _, entry, _, ht⟩ =>
    tokens_spelled entry.2.source t ht
  -- of the history, only the steps up to that one matter
  have hpast : ∀ entry ∈ history.take (i + 1), ∀ t ∈ tokens entry.2.source, P t := by
    intro entry hmem t ht
    obtain ⟨j, hj⟩ := List.mem_iff_getElem?.mp hmem
    rw [List.getElem?_take] at hj
    split_ifs at hj with hlt
    exact ⟨j, Nat.le_of_lt_succ hlt, entry, hj, ht⟩
  obtain ⟨-, -, hanswers⟩ := enduring_moments hP readings brokenOutput hpast
  refine (hanswers a ?_ e he).1
  rw [answers_take]
  refine List.mem_of_getElem? (i := i) ?_
  rw [List.getElem?_take_of_lt (Nat.lt_succ_self i), ha]

end Session

/-! ### Diagnostics -/

/-- In every session, a parsing or resolution report has the line and the location of a token of the
source that is run or evaluated. In every history of a new session, a runtime error blames a token
of the source of the step that it ends or of an earlier step, and is on a line of that source. -/
theorem diagnostics_point_at_source_text :
    (∀ (s next : Session) (fuel : Nat) (step : Step) (a : Answer),
      s.perform fuel step = some (a, next) →
      ∀ r ∈ a.diagnostics.reports, ∀ t message,
        r = .parsing t message ∨ r = .resolution t message →
        t ∈ tokens step.source ∧ r.line = t.line ∧ r.text = staticText t.line t.location message) ∧
    ∀ (readings : Nat → Option Number) (brokenOutput : Bool) (history : History) (i : Nat)
      (a : Answer), ((Session.new readings brokenOutput).answers history)[i]? = some a →
      ∀ e, .runtime e ∈ a.diagnostics.reports →
        ∃ j ≤ i, ∃ entry, history[j]? = some entry ∧ e.token ∈ tokens entry.2.source ∧
          1 ≤ e.token.line ∧ e.token.line ≤ 1 + newlines entry.2.source.toList := by
  refine ⟨fun s next fuel step a hstep r hr t message hstatic => ?_,
    fun readings brokenOutput history i a ha e he => ?_⟩
  · rcases hstatic with rfl | rfl
    · cases Session.perform_blames hstep hr rfl with
      | parsing ht => exact ⟨ht.1, rfl, rfl⟩
    · cases Session.perform_blames hstep hr rfl with
      | resolution ht => exact ⟨ht.1, rfl, rfl⟩
  · obtain ⟨j, hj, entry, hentry, ht⟩ :=
      Session.runtime_token_of_answers readings brokenOutput ha he
    exact ⟨j, hj, entry, hentry, ht, line_of_mem_tokens ht⟩

/-- A function that negates is kept by one step and called by a later one, after a source that
breaks a static rule. -/
def blamingHistory : History :=
  [(40, .run "fun negate(x) \x7b\n  return -x;\n\x7d"), (40, .run "print\nthis;"),
    (40, .evaluate "negate(nil)")]

/-- The second step of that history blames its second line, and so does the third one: the error is
in the function, which the source of the first step declares. -/
theorem kept_function_is_blamed_where_it_is_declared :
    (∃ a next, (Session.new (Clock.readingsFrom 0) false).perform 40 (.run "print\nthis;") =
        some (a, next) ∧
      .resolution ⟨.keyword .this, "this", 2⟩ "Can't use 'this' outside of a class." ∈
        a.diagnostics.reports ∧
      ⟨.keyword .this, "this", 2⟩ ∈ tokens "print\nthis;") ∧
    ∃ a e, ((Session.new (Clock.readingsFrom 0) false).answers blamingHistory)[2]? = some a ∧
      .runtime e ∈ a.diagnostics.reports ∧ e.token.line = 2 ∧
      ∃ j ≤ 2, ∃ entry, blamingHistory[j]? = some entry ∧ e.token ∈ tokens entry.2.source ∧
        1 ≤ e.token.line ∧ e.token.line ≤ 1 + newlines entry.2.source.toList := by
  constructor
  · have hreports : ((Session.new (Clock.readingsFrom 0) false).perform 40
        (.run "print\nthis;")).map (fun result => result.1.diagnostics.reports) =
          some [.resolution ⟨.keyword .this, "this", 2⟩
            "Can't use 'this' outside of a class."] := by
      decide +kernel
    obtain ⟨⟨a, next⟩, hstep, hreports⟩ := Option.map_eq_some_iff.mp hreports
    have hr := hreports ▸ List.mem_singleton_self _
    exact ⟨a, next, hstep, hr,
      (diagnostics_point_at_source_text.1 _ _ _ _ _ hstep _ hr _ _ (.inr rfl)).1⟩
  · have hreports : (((Session.new (Clock.readingsFrom 0) false).answers blamingHistory)[2]?.map
        fun a => a.diagnostics.reports) = some [.runtime ⟨.typeMismatch, ⟨.symbol .minus, "-", 2⟩,
          "Operand must be a number."⟩] := by
      decide +kernel
    obtain ⟨a, ha, hreports⟩ := Option.map_eq_some_iff.mp hreports
    have he := hreports ▸ List.mem_singleton_self _
    exact ⟨a, _, ha, he, rfl, diagnostics_point_at_source_text.2 _ _ _ _ _ ha _ he⟩

end Lox
