import Lox.Proofs.Scoping.Receivers
import Lox.Proofs.Session.Moments

/-!
# Runtime errors of sessions

In every history of a new session the heap is orderly at all moments, and each runtime error blames
a token of a source that has been read. No step ends with an internal error
(`no_step_ends_with_internal_error`): code is only run once the static walk has found nothing
against it, and what is recorded for its nodes is never removed.
-/

namespace Lox

variable {P : Token → Prop} {m : Machine} {c : Code} {step : Step} {made : Nat}

/-! ### Code that is read -/

theorem Step.formed_code? (htokens : ∀ t ∈ tokens step.source, P t)
    (h : step.code? made = some c) : c.task.Formed P := by
  have hread := Step.reading_of_code? h
  cases step with
  | run source =>
    cases hread
    exact (program_made htokens made).1
  | evaluate source =>
    obtain ⟨e, he, rfl⟩ := Option.map_eq_some_iff.mp hread
    exact ((parsedExpr_made htokens made).1 e he).1

theorem Session.formed_codes (s : Session) {history : History}
    (htokens : ∀ entry ∈ history, ∀ t ∈ tokens entry.2.source, P t) :
    ∀ c ∈ s.codes history, c.task.Formed P := by
  induction history generalizing s with
  | nil => exact List.forall_mem_nil _
  | cons entry rest ih =>
    obtain ⟨fuel, step⟩ := entry
    obtain ⟨hstep, hrest⟩ := List.forall_mem_cons.mp htokens
    rw [codes]
    refine List.forall_mem_append.mpr ⟨fun c hc => ?_, ?_⟩
    · exact Step.formed_code? hstep (Option.mem_toList.mp hc)
    · cases s.perform fuel step with
      | none => exact List.forall_mem_nil _
      | some result => exact ih result.2 hrest

theorem Code.passed (hspelled : c.task.Formed Token.Spelled) (hformed : c.task.Formed P)
    (hclean : Clean c.findings) (d : Distances) : c.task.Passed P (d.recordAll c.findings) := by
  cases c with
  | program statements =>
    exact ⟨hformed, ⟨{}, [], hclean⟩, recorded_program hspelled hclean d⟩
  | expression e => exact ⟨hformed, trivial, recorded_expression hspelled hclean d⟩

/-! ### Orderly sessions -/

theorem Machine.Orderly.resolved (ho : m.Orderly P) (findings : List Finding) :
    (m.resolved findings).Orderly P where
  heap :=
    { ho.heap with
      functions := fun id =>
        have hf := ho.heap.functions id
        ⟨hf.code.recordAll findings, hf.closure, hf.receiver⟩
      methods := fun c name f hf =>
        (ho.heap.methods c name f hf).imp_left (·.recordAll findings) }
  current := ho.current

theorem Machine.allSuit_nativeScope : Machine.nativeScope.values.AllSuit := by
  intro x v hv
  rcases Table.mem_of_find?_insertAll hv with hnone | hmem
  · simp at hnone
  · have hx : x = "clock" := by
      rw [Native.all, List.map_singleton, List.mem_singleton, Prod.mk.injEq] at hmem
      exact hmem.1
    subst hx
    exact Value.suits_of_not_implicit (not_or.mpr ⟨by decide, by decide⟩) v

theorem Machine.orderly_new (readings : Nat → Option Number) (brokenOutput : Bool) :
    (Machine.new readings brokenOutput).Orderly P where
  heap :=
    { functions := fun _ => ⟨FunDecl.passed_default, ⟨Nat.zero_lt_one, rfl⟩,
        fun hi => absurd hi Bool.false_ne_true⟩
      methods := fun _ _ _ hf => by cases hf
      values := by
        intro s x v hv
        cases s with
        | zero => exact allSuit_nativeScope x v hv
        | succ s =>
          rw [Heap.getLocal?_of_size_le _ (Nat.le_add_left 1 s)] at hv
          cases hv
      inside := by
        intro s outer houter
        cases s with
        | zero => cases houter
        | succ s =>
          rw [Heap.scope_of_size_le _ (Nat.le_add_left 1 s)] at houter
          cases houter }
  current := ⟨Nat.zero_lt_one, rfl⟩

/-- In all moments of a history the machine is orderly, and what exists endures. A runtime error is
no internal one and blames a token of the history. -/
theorem Session.enduring_moments (hP : ∀ t, P t → t.Spelled) (readings : Nat → Option Number)
    (brokenOutput : Bool) {history : History}
    (htokens : ∀ entry ∈ history, ∀ t ∈ tokens entry.2.source, P t) :
    let s := Session.new readings brokenOutput
    (∀ x ∈ s.moments history, x.machine.Orderly P) ∧
      (s.moments history).Pairwise (fun x y => x.machine.heap.Endures y.machine.heap) ∧
      ∀ a ∈ s.answers history, ∀ e, .runtime e ∈ a.diagnostics.reports →
        P e.token ∧ e.kind ≠ .internal := by
  intro s
  have hspelled := s.formed_codes fun entry (_ : entry ∈ history) => tokens_spelled entry.2.source
  have hformed := s.formed_codes htokens
  have hnew : s.machine.Orderly P ∧ Moment.Enduring [] s.machine :=
    ⟨Machine.orderly_new readings brokenOutput, List.Pairwise.nil, List.forall_mem_nil _⟩
  obtain ⟨halong, hanswers⟩ := along_moments (Rules.enduring P hP).invariant
    (fun _ m ho => ⟨ho.1.current, trivial, ⟨{}, [], rfl⟩, List.forall_mem_nil _⟩)
    (fun findings ho => ⟨ho.1.resolved findings, ho.2⟩) s history hnew
    (fun c hc hclean _ m ho =>
      ⟨ho.1.current, Code.passed (hspelled c hc) (hformed c hc) hclean m.distances⟩)
  refine ⟨fun x hx => ?_, ?_, hanswers⟩
  · obtain ⟨_, hat⟩ := halong.at_mem hx
    exact hat.shows.1
  · obtain ⟨m, hm⟩ := Invariant.Along.last halong
    exact hm.2.1

/-- In every history of a new session, no step ends with an internal error. -/
theorem no_step_ends_with_internal_error (readings : Nat → Option Number) (brokenOutput : Bool)
    (history : History) {a : Answer} {e : RuntimeError}
    (ha : a ∈ (Session.new readings brokenOutput).answers history)
    (he : Report.runtime e ∈ a.diagnostics.reports) : e.kind ≠ .internal := by
  obtain ⟨-, -, hanswers⟩ := Session.enduring_moments (fun _ ht => ht) readings brokenOutput
    fun entry (_ : entry ∈ history) => tokens_spelled entry.2.source
  exact (hanswers a ha e he).2

/-- An initializer that a later step runs into an error. -/
def failingHistory : History :=
  [(40, .run "class A \x7b init(n) \x7b if (n > 1) return; this.n = missing; \x7d \x7d"),
  (40, .evaluate "A(2)"), (40, .evaluate "A(1)")]

/-- The error at the end of that history is not an internal one. -/
theorem failing_initializer_is_no_internal_error : ∃ a e,
    a ∈ (Session.new (Clock.readingsFrom 0) false).answers failingHistory ∧
      Report.runtime e ∈ a.diagnostics.reports ∧ e.kind ≠ .internal := by
  have hreports : (((Session.new (Clock.readingsFrom 0) false).answers failingHistory)[2]?.map
      fun a => a.diagnostics.reports) = some [.runtime ⟨.undefinedVariable,
        ⟨.identifier, "missing", 1⟩, "Undefined variable 'missing'."⟩] := by
    decide +kernel
  obtain ⟨a, ha, hreports⟩ := Option.map_eq_some_iff.mp hreports
  have hmem := List.mem_of_getElem? ha
  have he := hreports ▸ List.mem_singleton_self _
  exact ⟨a, _, hmem, he, no_step_ends_with_internal_error (Clock.readingsFrom 0) false
    failingHistory hmem he⟩

end Lox
