import Mathlib.Data.List.Chain
import Lox.Proofs.Evaluation.Leaving
import Lox.Proofs.Evaluation.Soundness
import Lox.Proofs.Session.Steps

/-!
# The moments of a session

A source is read as `Code`, a program or an expression. `Session.after` says what becomes of a
session with a step in terms of the code of the step, in the same way for both kinds of steps
(`Session.perform_after`).

`Session.moments` lists the states that a session goes through with a history: those between the
steps and those in the middle of a step, also of a step that does not end. From one of them to the
next there is one change at most (`Session.covers_moments`). An invariant of evaluation that does
not mind findings being recorded holds at all of them (`Session.along_moments`); so all of them are
sound (`Session.sound_moments`).
-/

namespace Lox

/-! ### Code -/

/-- What a source is read as. -/
inductive Code where
  | program (statements : List Stmt)
  | expression (e : Expr)

namespace Code

/-- The task of running the code. -/
def task : Code → Task
  | program statements => .stmts statements
  | expression e => .expr e

def nodes (c : Code) : List Expr := c.task.nodes

/-- What the static walk finds out about the code. -/
def findings : Code → List Finding
  | program statements => programFindings statements
  | expression e => expressionFindings e

/-- The end of a run of the code, if it ends. -/
def ending (fuel : Nat) (m : Machine) : Code → Option (List Ref × Machine)
  | program statements => (Eval.executeAll fuel statements m).ending fun _ => []
  | expression e => (Eval.evaluate fuel e m).ending Value.refs

end Code

/-- Tokens to read. -/
inductive Reading where
  | program (ts : List Token)
  | expression (ts : List Token)

namespace Reading

/-- The code that is read, where `made` nodes were made before. -/
def code? (made : Nat) : Reading → Option Code
  | program ts => some (.program (Program.ofTokens ts made).statements)
  | expression ts => (ParsedExpr.ofTokens ts made).expr?.map .expression

def complaints (made : Nat) : Reading → List Complaint
  | program ts => (Program.ofTokens ts made).complaints
  | expression ts => (ParsedExpr.ofTokens ts made).complaints

/-- The number of nodes made after reading. -/
def madeAfter (made : Nat) : Reading → Nat
  | program ts => (Program.ofTokens ts made).made
  | expression ts => (ParsedExpr.ofTokens ts made).made

end Reading

namespace Step

def reading : Step → Reading
  | .run source => .program (tokens source)
  | .evaluate source => .expression (tokens source)

/-- What a step reads, if there are no mistakes in it. -/
def code? (made : Nat) (step : Step) : Option Code :=
  if (lexicalReports step.source ++
      (step.reading.complaints made).map Complaint.report).isEmpty then
    step.reading.code? made
  else none

/-- The findings that a step records. -/
def findings (made : Nat) (step : Step) : List Finding :=
  match step.code? made with
  | none => []
  | some c => c.findings

theorem code?_run (source : String) (made : Nat) :
    (Step.run source).code? made =
      let program := Program.ofTokens (tokens source) made
      if (lexicalReports source ++ program.complaints.map Complaint.report).isEmpty then
        some (.program program.statements)
      else none := rfl

theorem code?_evaluate (source : String) (made : Nat) :
    (Step.evaluate source).code? made =
      let parsed := ParsedExpr.ofTokens (tokens source) made
      if (lexicalReports source ++ parsed.complaints.map Complaint.report).isEmpty then
        parsed.expr?.map .expression
      else none := rfl

theorem madeAfter_eq (step : Step) (made : Nat) :
    step.madeAfter made = step.reading.madeAfter made := by
  cases step <;> rfl

theorem reading_of_code? {step : Step} {made : Nat} {c : Code} (h : step.code? made = some c) :
    step.reading.code? made = some c := by
  unfold code? at h
  split_ifs at h
  exact h

end Step

/-! ### Steps -/

namespace Session

/-- What becomes of a session with a step, if the step ends. -/
def after (fuel : Nat) (s : Session) (step : Step) : Option Session :=
  let next := step.madeAfter s.made
  match step.code? s.made with
  | none => some ⟨s.machine, next⟩
  | some c =>
    let m := s.machine.resolved c.findings
    if (findingReports c.findings).isEmpty then (c.ending fuel m).map fun q => ⟨q.2, next⟩
    else some ⟨m, next⟩

theorem run_after (fuel : Nat) (s : Session) (source : String) :
    (s.run fuel source).map Prod.snd = s.after fuel (.run source) := by
  unfold Session.run Session.after
  rw [Step.code?_run]
  dsimp only [Step.madeAfter]
  generalize Program.ofTokens (tokens source) s.made = program
  generalize lexicalReports source ++ program.complaints.map Complaint.report = mistakes
  cases mistakes with
  | cons mistake rest => rfl
  | nil =>
    by_cases hclean : (findingReports (programFindings program.statements)).isEmpty
    · simp only [List.isEmpty_nil, hclean, Code.findings, Code.ending, interpret, if_true]
      generalize Eval.executeAll fuel program.statements _ = o
      cases o <;> rfl
    · simp [hclean, Code.findings]

theorem evaluate_after (fuel : Nat) (s : Session) (source : String) :
    (s.evaluate fuel source).map Prod.snd = s.after fuel (.evaluate source) := by
  unfold Session.evaluate Session.after
  rw [Step.code?_evaluate]
  dsimp only [Step.madeAfter]
  generalize ParsedExpr.ofTokens (tokens source) s.made = parsed
  generalize lexicalReports source ++ parsed.complaints.map Complaint.report = mistakes
  cases parsed.expr? with
  | none => cases mistakes <;> rfl
  | some e =>
    cases mistakes with
    | cons mistake rest => rfl
    | nil =>
      by_cases hclean : (findingReports (expressionFindings e)).isEmpty
      · simp only [List.isEmpty_nil, hclean, Option.map_some, Code.findings, Code.ending, if_true]
        generalize Eval.evaluate fuel e _ = o
        cases o <;> rfl
      · simp [hclean, Code.findings]

theorem perform_after (fuel : Nat) (s : Session) (step : Step) :
    (s.perform fuel step).map Prod.snd = s.after fuel step := by
  cases step with
  | run source => exact s.run_after fuel source
  | evaluate source => exact s.evaluate_after fuel source

theorem after_of_perform {fuel : Nat} {s next : Session} {step : Step} {a : Answer}
    (h : s.perform fuel step = some (a, next)) : s.after fuel step = some next := by
  rw [← perform_after, h]
  rfl

/-! ### Moments -/

/-- The moments in the middle of a step. -/
def momentsOf (fuel : Nat) (s : Session) (step : Step) : List Moment :=
  match step.code? s.made with
  | none => []
  | some c =>
    if (findingReports c.findings).isEmpty then
      Lox.moments fuel c.task [] (s.machine.resolved c.findings)
    else []

/-- Between two steps there is nothing to do. -/
def resting (s : Session) : Moment := ⟨.rests, .stmts [], [], s.machine⟩

/-- The moments of a history, up to the first step that does not end. -/
def moments (s : Session) : History → List Moment
  | [] => [s.resting]
  | (fuel, step) :: rest =>
    s.resting :: (s.momentsOf fuel step ++
      match s.perform fuel step with
      | some (_, next) => next.moments rest
      | none => [])

/-- The code that a history has read, up to the first step that does not end. -/
def codes (s : Session) : History → List Code
  | [] => []
  | (fuel, step) :: rest =>
    (step.code? s.made).toList ++
      match s.perform fuel step with
      | some (_, next) => next.codes rest
      | none => []

/-- What holds of a session and the steps that it has ahead, and is kept by each of them, makes
something hold of all moments and all answers. -/
theorem along_history {P : List Moment → Session → History → Prop}
    {Q : List Moment → Moment → Prop} {R : Answer → Prop}
    (hrest : ∀ {past s ahead}, P past s ahead → Q past s.resting ∧ P (past ++ [s.resting]) s ahead)
    (hstep : ∀ {past s fuel step rest}, P past s ((fuel, step) :: rest) →
      EachAfter Q past (s.momentsOf fuel step) ∧
        ∀ a next, s.perform fuel step = some (a, next) →
          R a ∧ P (past ++ s.momentsOf fuel step) next rest)
    {past : List Moment} {s : Session} (history : History) (h : P past s history) :
    EachAfter Q past (s.moments history) ∧ ∀ a ∈ s.answers history, R a := by
  induction history generalizing s past with
  | nil => exact ⟨⟨(hrest h).1, trivial⟩, List.forall_mem_nil _⟩
  | cons entry rest ih =>
    obtain ⟨fuel, step⟩ := entry
    obtain ⟨hrests, hs⟩ := hrest h
    obtain ⟨halong, hends⟩ := hstep hs
    rw [moments, answers]
    cases hperform : s.perform fuel step with
    | none => exact ⟨⟨hrests, eachAfter_append.mpr ⟨halong, trivial⟩⟩, List.forall_mem_nil _⟩
    | some result =>
      obtain ⟨hanswer, hnext⟩ := hends result.1 result.2 hperform
      obtain ⟨hlater, hanswers⟩ := ih hnext
      exact ⟨⟨hrests, eachAfter_append.mpr ⟨halong, hlater⟩⟩,
        List.forall_mem_cons.mpr ⟨hanswer, hanswers⟩⟩

end Session

/-! ### Errors -/

/-- The runtime error that a computation ends with. -/
def Outcome.error? {α : Type} : Outcome α → Option RuntimeError
  | .error e _ => some e
  | _ => none

/-- The runtime error that a run of the code ends with. -/
def Code.error? (fuel : Nat) (m : Machine) : Code → Option RuntimeError
  | program statements => (Eval.executeAll fuel statements m).error?
  | expression e => (Eval.evaluate fuel e m).error?

section Errors

variable {s next : Session} {fuel : Nat} {a : Answer} {e : RuntimeError}

theorem Session.run_error {source : String} (h : s.run fuel source = some (a, next))
    (he : .runtime e ∈ a.diagnostics.reports) :
    ∃ c ∈ (Step.run source).code? s.made, Clean c.findings ∧
      c.error? fuel (s.machine.resolved c.findings) = some e := by
  have hmistakes := mistakes_static source (Program.ofTokens (tokens source) s.made).complaints
  unfold Session.run at h
  rw [Step.code?_run]
  dsimp only at h ⊢
  generalize Program.ofTokens (tokens source) s.made = program at h hmistakes ⊢
  split_ifs at h with hread hviolations
  · cases h
    cases hmistakes _ he
  · cases h
    cases violations_static _ _ he
  · have hclean : Clean (programFindings program.statements) :=
      List.isEmpty_iff.mp (by simpa using hviolations)
    rw [if_pos (by simpa using hread)]
    refine ⟨_, rfl, hclean, ?_⟩
    show (Eval.executeAll fuel program.statements _).error? = some e
    unfold interpret at h
    cases ho : Eval.executeAll fuel program.statements
        (s.machine.resolved (programFindings program.statements)) with
    | ok u final =>
      rw [ho] at h
      cases h
      cases he
    | error error final =>
      rw [ho] at h
      cases h
      cases List.mem_singleton.mp he
      exact congrArg Outcome.error? ho
    | returned keyword v final =>
      exact absurd ho (Eval.executeAll_ne_returned hclean _ keyword v final)
    | outOfFuel =>
      rw [ho] at h
      cases h

theorem Session.evaluate_error {source : String} (h : s.evaluate fuel source = some (a, next))
    (he : .runtime e ∈ a.diagnostics.reports) :
    ∃ c ∈ (Step.evaluate source).code? s.made, Clean c.findings ∧
      c.error? fuel (s.machine.resolved c.findings) = some e := by
  have hmistakes := mistakes_static source (ParsedExpr.ofTokens (tokens source) s.made).complaints
  unfold Session.evaluate at h
  rw [Step.code?_evaluate]
  dsimp only at h ⊢
  generalize ParsedExpr.ofTokens (tokens source) s.made = parsed at h hmistakes ⊢
  split at h
  · rename_i expr hexpr hnone
    split_ifs at h with hviolations
    · cases h
      cases violations_static _ _ he
    · rw [hnone, hexpr]
      have hclean : Clean (expressionFindings expr) :=
        List.isEmpty_iff.mp (by simpa using hviolations)
      refine ⟨.expression expr, rfl, hclean, ?_⟩
      show (Eval.evaluate fuel expr _).error? = some e
      cases ho : Eval.evaluate fuel expr (s.machine.resolved (expressionFindings expr)) with
      | ok v final =>
        rw [ho] at h
        cases h
        cases he
      | error error final =>
        rw [ho] at h
        cases h
        cases List.mem_singleton.mp he
        exact congrArg Outcome.error? ho
      | returned keyword v final =>
        exact absurd ho (Eval.evaluate_ne_returned fuel expr _ keyword v final)
      | outOfFuel =>
        rw [ho] at h
        cases h
  · cases h
    cases hmistakes _ he

/-- The runtime error in an answer is one that the code of the step has ended with. -/
theorem Session.error_of_perform {step : Step} (h : s.perform fuel step = some (a, next))
    (he : .runtime e ∈ a.diagnostics.reports) :
    ∃ c ∈ step.code? s.made, Clean c.findings ∧
      c.error? fuel (s.machine.resolved c.findings) = some e := by
  cases step with
  | run source => exact run_error h he
  | evaluate source => exact evaluate_error h he

end Errors

/-! ### Invariants -/

variable {I : Invariant} {N : Expr → Prop} {m : Machine} {s : Session} {step : Step} {fuel : Nat}
  {past : List Moment}

/-- What a run of code keeps. -/
structure Code.Keeps (I : Invariant) (past : List Moment) (fuel : Nat) (m : Machine) (c : Code) :
    Prop where
  along : I.Along past (moments fuel c.task [] m)
  ends : ∀ q ∈ c.ending fuel m, I.Leads past m (past ++ moments fuel c.task [] m) q.2
  fails : ∀ e ∈ c.error? fuel m, I.fails e

theorem Invariant.Keeps.fails {α : Type} {t : Task} {gives : α → List Fact} {xs : List Moment}
    {o : Outcome α} (h : I.Keeps t past m gives xs o) : ∀ e ∈ o.error?, I.fails e := by
  have hends := h.ends
  intro e he
  cases o with
  | error error next =>
    cases he
    exact hends.2
  | _ => cases he

theorem Code.keeps (fuel : Nat) {c : Code} (h : I.Ready c.task past [] m) :
    c.Keeps I past fuel m := by
  cases c with
  | program statements =>
    have hkeeps := (I.evaluation_keeps fuel).stmts statements h
    exact ⟨hkeeps.along, (Outcome.leaves_iff _).mp hkeeps.leaves, hkeeps.fails⟩
  | expression e =>
    have hkeeps := (I.evaluation_keeps fuel).expr e h
    exact ⟨hkeeps.along, (Outcome.leaves_iff _).mp hkeeps.leaves, hkeeps.fails⟩

/-- What a step of a session keeps, after it has recorded its findings. -/
structure Session.StepKeeps (I : Invariant) (past : List Moment) (fuel : Nat) (s : Session)
    (step : Step) : Prop where
  along : I.Along past (s.momentsOf fuel step)
  ends : ∀ a next, s.perform fuel step = some (a, next) →
    I.Leads past (s.machine.resolved (step.findings s.made)) (past ++ s.momentsOf fuel step)
      next.machine
  fails : ∀ a next, s.perform fuel step = some (a, next) →
    ∀ e, .runtime e ∈ a.diagnostics.reports → I.fails e

theorem Session.stepKeeps_idle (hs : I.holds past (s.machine.resolved (step.findings s.made)))
    (hidle : ∀ c ∈ step.code? s.made, ¬Clean c.findings) : StepKeeps I past fuel s step := by
  have hseen : s.momentsOf fuel step = [] := by
    unfold momentsOf
    cases hcode : step.code? s.made with
    | none => rfl
    | some c => exact if_neg fun hclean => hidle c hcode (List.isEmpty_iff.mp hclean)
  have hafter : s.after fuel step =
      some ⟨s.machine.resolved (step.findings s.made), step.madeAfter s.made⟩ := by
    unfold after Step.findings
    cases hcode : step.code? s.made with
    | none => rfl
    | some c => exact if_neg fun hclean => hidle c hcode (List.isEmpty_iff.mp hclean)
  refine ⟨hseen ▸ trivial, fun a next hstep => ?_, fun a next hstep e he => ?_⟩
  · have hnext := after_of_perform hstep
    rw [hafter] at hnext
    cases hnext
    rw [hseen, List.append_nil]
    exact .refl hs
  · obtain ⟨c, hc, hclean, -⟩ := error_of_perform hstep he
    exact absurd hclean (hidle c hc)

theorem Session.stepKeeps_clean {c : Code} (hcode : step.code? s.made = some c)
    (hclean : Clean c.findings)
    (hready : I.Ready c.task past [] (s.machine.resolved c.findings)) (fuel : Nat) :
    StepKeeps I past fuel s step := by
  have hnone : (findingReports c.findings).isEmpty = true := List.isEmpty_iff.mpr hclean
  have hfindings : step.findings s.made = c.findings := by simp [Step.findings, hcode]
  have hseen : s.momentsOf fuel step =
      Lox.moments fuel c.task [] (s.machine.resolved c.findings) := by
    simp [momentsOf, hcode, hnone]
  have hafter : s.after fuel step = (c.ending fuel (s.machine.resolved c.findings)).map
      fun q => ⟨q.2, step.madeAfter s.made⟩ := by
    simp [after, hcode, hnone]
  have hkeeps := Code.keeps fuel hready
  refine ⟨hseen ▸ hkeeps.along, fun a next hstep => ?_, fun a next hstep e he => ?_⟩
  · have hnext := after_of_perform hstep
    rw [hafter] at hnext
    obtain ⟨q, hend, rfl⟩ := Option.map_eq_some_iff.mp hnext
    rw [hseen, hfindings]
    exact hkeeps.ends q hend
  · obtain ⟨c', hc', -, herror⟩ := error_of_perform hstep he
    cases hcode.symm.trans hc'
    exact hkeeps.fails e herror

theorem Session.stepKeeps (fuel : Nat)
    (hs : I.holds past (s.machine.resolved (step.findings s.made)))
    (hc : ∀ c ∈ step.code? s.made, Clean c.findings →
      I.knows past (s.machine.resolved c.findings)
        (.task (displays past).top s.machine.current c.task)) :
    StepKeeps I past fuel s step := by
  by_cases hrun : ∃ c ∈ step.code? s.made, Clean c.findings
  · obtain ⟨c, hcode, hclean⟩ := hrun
    have hfindings : step.findings s.made = c.findings := by
      rw [Step.findings, show step.code? s.made = some c from hcode]
    rw [hfindings] at hs
    exact stepKeeps_clean hcode hclean
      ⟨hs, hc c hcode hclean, List.forall_mem_nil _⟩ fuel
  · exact stepKeeps_idle hs fun c hcode hclean => hrun ⟨c, hcode, hclean⟩

/-- Some code may be run wherever an invariant holds once its findings are recorded. -/
def Invariant.Admits (I : Invariant) (c : Code) : Prop :=
  ∀ (past : List Moment) (m : Machine), I.holds past (m.resolved c.findings) →
    I.knows past (m.resolved c.findings) (.task (displays past).top m.current c.task)

theorem Invariant.at_resting (hs : I.holds past s.machine)
    (hrests : I.knows past s.machine (.task (displays past).top s.machine.current (.stmts []))) :
    I.At past s.resting ∧ I.holds (past ++ [s.resting]) s.machine := by
  have hready : I.Ready (.stmts []) past [] s.machine :=
    ⟨hs, hrests, List.forall_mem_nil _⟩
  obtain ⟨hat, hleads, -⟩ := hready.change [] knowsAll_nil (.rests _) (by simp) fun _ hr => .inl hr
  exact ⟨hat, hleads.holds⟩

/-- An invariant holds along all moments of a session and of all runtime errors, if it does not mind
findings being recorded and admits the code that is run. -/
theorem Session.along_moments (I : Invariant) (hrests : I.Admits (.program []))
    (hresolved : ∀ {past m} findings, I.holds past m → I.holds past (m.resolved findings))
    (s : Session) (history : History) (hs : I.holds [] s.machine)
    (hc : ∀ c ∈ s.codes history, Clean c.findings → I.Admits c) :
    I.Along [] (s.moments history) ∧
      ∀ a ∈ s.answers history, ∀ e, .runtime e ∈ a.diagnostics.reports → I.fails e := by
  refine along_history (P := fun past s ahead => I.holds past s.machine ∧
    ∀ c ∈ s.codes ahead, Clean c.findings → I.Admits c) ?_ ?_ history ⟨hs, hc⟩
  · intro past s ahead h
    obtain ⟨hat, hrest⟩ := I.at_resting h.1 (hrests past s.machine h.1)
    exact ⟨hat, hrest, h.2⟩
  · intro past s fuel step rest h
    obtain ⟨hs, hc⟩ := h
    obtain ⟨hnow, hlater⟩ := List.forall_mem_append.mp hc
    have hkeeps := stepKeeps fuel (hresolved (step.findings s.made) hs) fun c hcode hclean =>
      hnow c (Option.mem_toList.mpr hcode) hclean past s.machine (hresolved c.findings hs)
    refine ⟨hkeeps.along, fun a next hstep => ⟨hkeeps.fails a next hstep, ?_, ?_⟩⟩
    · exact (hkeeps.ends a next hstep).holds
    · rw [hstep] at hlater
      exact hlater

theorem Invariant.Along.last {history : History} (h : I.Along past (s.moments history)) :
    ∃ m, I.shows (past ++ s.moments history) m := by
  have hne : s.moments history ≠ [] := by cases history <;> simp [Session.moments]
  exact ⟨_, h.at_last (List.getLast?_eq_getLast_of_ne_nil hne)⟩

/-! ### Soundness -/

theorem Machine.Sound.resolved (h : m.Sound N) (findings : List Finding) :
    (m.resolved findings).Sound N :=
  ⟨h.heap, h.current⟩

theorem Machine.sound_new (readings : Nat → Option Number) (brokenOutput : Bool) :
    (Machine.new readings brokenOutput).Sound N where
  current := Nat.zero_lt_one
  heap :=
    { root := Nat.zero_lt_one
      outermost := rfl
      inside := fun s hs hne => absurd (Nat.lt_one_iff.mp hs) hne
      values := by
        intro s x v hv
        cases s with
        | zero =>
          rcases Table.mem_of_find?_insertAll hv with hnone | hmem
          · cases hnone
          · obtain ⟨f, -, heq⟩ := List.mem_map.mp hmem
            cases heq
            exact Heap.hasAll_nil _
        | succ s =>
          rw [Heap.scope_of_size_le _ (Nat.le_add_left 1 s)] at hv
          cases hv
      functions := fun f hf => absurd hf (Nat.not_lt_zero f)
      parents := fun c parent hp => nomatch hp
      methods := fun c x f hf => nomatch hf
      classes := fun i hi => absurd hi (Nat.not_lt_zero i)
      fields := fun i x v hv => nomatch hv }

/-- All that a moment shows is in order. -/
structure Moment.Sound (N : Expr → Prop) (x : Moment) : Prop where
  machine : x.machine.Sound N
  held : x.machine.heap.HasAll x.held
  code : ∀ e ∈ x.task.nodes, N e

/-- Every moment of a session that starts sound is sound. -/
theorem Session.sound_moments (hs : s.machine.Sound N) (history : History)
    (hN : ∀ c ∈ s.codes history, ∀ e ∈ c.nodes, N e) : ∀ x ∈ s.moments history, x.Sound N := by
  obtain ⟨halong, -⟩ := along_moments (Rules.sound N).invariant
    (fun _ _ hm => ⟨hm.current, List.forall_mem_nil _⟩) (fun findings hm => hm.resolved findings)
    s history hs fun c hc _ _ _ hm => ⟨hm.current, hN c hc⟩
  intro x hx
  obtain ⟨_, hat⟩ := halong.at_mem hx
  obtain ⟨_, _, hcode, -⟩ := hat.code
  exact ⟨hat.shows, hat.held, hcode.2⟩

/-! ### Nothing is left out -/

/-- From one machine to the next there is one effect at most, after findings may have been
recorded. -/
def Machine.Passes (m m' : Machine) : Prop := ∃ findings, (m.resolved findings).Moves m'

/-- The last moment has led to a machine, but for the current scope and recorded findings. -/
def Moment.LeadsTo (past : List Moment) (m : Machine) : Prop :=
  ∀ last ∈ past.getLast?, ∃ findings, (last.machine.resolved findings).Same m

/-- From each moment to the next there is one effect at most, and the last one has led to `m`. -/
def Moment.Chained (past : List Moment) (m : Machine) : Prop :=
  (past.map Moment.machine).IsChain Machine.Passes ∧ Moment.LeadsTo past m

theorem Moment.Chained.concat {x : Moment} (h : Moment.Chained past m) (hx : m.Moves x.machine) :
    Moment.Chained (past ++ [x]) x.machine := by
  refine ⟨?_, fun last hlast => ?_⟩
  · rw [List.map_append, List.isChain_append]
    refine ⟨h.1, List.isChain_singleton _, fun last hlast y hy => ?_⟩
    rw [List.getLast?_map, Option.mem_map] at hlast
    obtain ⟨z, hz, rfl⟩ := hlast
    cases hy
    obtain ⟨findings, hsame⟩ := h.2 z hz
    exact ⟨findings, hx.of_same hsame⟩
  · rw [List.getLast?_concat] at hlast
    cases hlast
    exact ⟨[], rfl⟩

def Rules.chained : Rules :=
  anything.also Moment.Chained (fun _ _ _ _ hc hpast => hpast.concat hc.moves)
    (fun {_ m _ s _} _ _ _ hpast => hpast.concat (m.same_current s).moves)

theorem Machine.resolved_resolved (m : Machine) (findings findings' : List Finding) :
    (m.resolved findings).resolved findings' = m.resolved (findings ++ findings') := by
  simp [Machine.resolved, Distances.recordAll, List.foldl_append]

theorem Machine.Same.resolved {m m' : Machine} (h : m.Same m') (findings : List Finding) :
    (m.resolved findings).Same (m'.resolved findings) := by
  rw [Machine.Same] at h ⊢
  rw [h]
  rfl

theorem Session.isChain_moments (s : Session) (history : History) :
    ((s.moments history).map Moment.machine).IsChain Machine.Passes := by
  obtain ⟨halong, -⟩ := along_moments Rules.chained.invariant
    (fun _ _ _ => trivial) (fun findings hm => ⟨trivial, hm.2.1, fun last hlast => by
      obtain ⟨earlier, hsame⟩ := hm.2.2 last hlast
      refine ⟨earlier ++ findings, ?_⟩
      rw [← Machine.resolved_resolved]
      exact hsame.resolved findings⟩)
    s history ⟨trivial, List.isChain_nil, by simp [Moment.LeadsTo]⟩ fun _ _ _ _ _ _ => trivial
  obtain ⟨m, hm⟩ := Invariant.Along.last halong
  exact hm.2.1

theorem Session.head?_moments (s : Session) (history : History) :
    ((s.moments history).map Moment.machine).head? = some s.machine := by
  cases history <;> rfl

theorem Session.getLast?_moments {final : Session} {history : History}
    (h : s.play history = some final) :
    ((s.moments history).map Moment.machine).getLast? = some final.machine := by
  induction history generalizing s with
  | nil =>
    rw [play, Option.some.injEq] at h
    rw [← h]
    rfl
  | cons entry rest ih =>
    obtain ⟨fuel, step⟩ := entry
    rw [play] at h
    rw [moments]
    cases hperform : s.perform fuel step with
    | none => simp [hperform] at h
    | some result =>
      rw [hperform] at h
      have hlast := ih h
      simp only [List.map_cons, List.map_append]
      rw [← List.cons_append, List.getLast?_append, hlast]
      rfl

/-- The states that a session goes through with a history, from the first one on to the last one if
all steps end, with one change at most from each to the next. -/
structure Session.Covers (s : Session) (history : History) (states : List Machine) : Prop where
  starts : states.head? = some s.machine
  ends : ∀ final, s.play history = some final → states.getLast? = some final.machine
  steps : states.IsChain Machine.Passes

theorem Session.covers_moments (s : Session) (history : History) :
    s.Covers history ((s.moments history).map Moment.machine) :=
  ⟨s.head?_moments history, fun _ => getLast?_moments, s.isChain_moments history⟩

end Lox
