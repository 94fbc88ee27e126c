import Mathlib.Logic.Relation
import Lox.Proofs.Evaluation.Preservation

/-!
# The effects of evaluation

Whatever code does to a machine, it does by eight kinds of change: a new scope, function, class or
instance, a name bound in some scope, a field set in some instance, a line printed, and a reading of
the clock. `Machine.Effect` lists them, and `Machine.Effects` is a run of such changes.

Evaluation of an expression, execution of a statement and calls of any kind have no other effect on
the machine, whatever the fuel, the tree and the machine, and whatever their end
(`Eval.evaluate_effects` and those after it). So what every effect keeps, every run keeps. In
particular no effect changes which scope is the global one or which one is current: the only
computation that changes the latter is `Eval.withScope`, and it changes it back.
-/

namespace Lox

/-- One change that evaluation can make to a machine. -/
inductive Machine.Effect (m : Machine) : Machine → Prop where
  | newScope (s : Scope) : m.Effect { m with heap := (m.heap.newScope s).2 }
  | newFunction (f : Function) : m.Effect { m with heap := (m.heap.newFunction f).2 }
  | newClass (c : Class) : m.Effect { m with heap := (m.heap.newClass c).2 }
  | newInstance (i : Instance) : m.Effect { m with heap := (m.heap.newInstance i).2 }
  | define (s : ScopeId) (name : String) (v : Value) :
    m.Effect { m with heap := m.heap.define s name v }
  | setField (id : InstanceId) (name : String) (v : Value) :
    m.Effect { m with heap := m.heap.setField id name v }
  | print (text : String) : m.Effect { m with output := m.output.write text }
  | readClock : m.Effect m.ticked

/-- A run of changes. -/
def Machine.Effects : Machine → Machine → Prop := Relation.ReflTransGen Machine.Effect

variable {α : Type} {m m' m'' : Machine} {n : Nat}

namespace Machine

theorem Effects.refl (m : Machine) : m.Effects m := Relation.ReflTransGen.refl

theorem Effects.trans (h : m.Effects m') (h' : m'.Effects m'') : m.Effects m'' :=
  Relation.ReflTransGen.trans h h'

theorem Effect.effects (h : m.Effect m') : m.Effects m' := Relation.ReflTransGen.single h

theorem Effect.withCurrent (h : m.Effect m') (s : ScopeId) :
    Effect { m with current := s } { m' with current := s } := by
  cases h with
  | newScope scope => exact .newScope scope
  | newFunction f => exact .newFunction f
  | newClass c => exact .newClass c
  | newInstance i => exact .newInstance i
  | define scope name v => exact .define scope name v
  | setField id name v => exact .setField id name v
  | print text => exact .print text
  | readClock => exact .readClock

theorem Effects.keeps {P : Machine → Prop} (h : m.Effects m') (hm : P m)
    (hstep : ∀ m₁ m₂, m₁.Effect m₂ → P m₁ → P m₂) : P m' := by
  induction h with
  | refl => exact hm
  | tail _ he ih => exact hstep _ _ he ih

theorem Effects.distances (h : m.Effects m') : m'.distances = m.distances := by
  refine h.keeps (P := fun m₁ => m₁.distances = m.distances) rfl ?_
  intro m₁ m₂ he h₁
  cases he <;> exact h₁

theorem Effects.globals (h : m.Effects m') : m'.globals = m.globals := by
  refine h.keeps (P := fun m₁ => m₁.globals = m.globals) rfl ?_
  intro m₁ m₂ he h₁
  cases he <;> exact h₁

end Machine

/-! ### Moves -/

namespace Machine

/-- Two machines are the same but for the scope that is current. -/
def Same (m m' : Machine) : Prop := m' = { m with current := m'.current }

/-- From one machine to the next there is one effect at most, and another scope may be current. -/
def Moves (m m' : Machine) : Prop := ∃ m₁, Relation.ReflGen Effect m m₁ ∧ m₁.Same m'

theorem Same.refl (m : Machine) : m.Same m := rfl

theorem same_current (m : Machine) (s : ScopeId) : m.Same { m with current := s } := rfl

theorem Same.symm (h : m.Same m') : m'.Same m := by
  rw [Same] at h ⊢
  rw [h]

theorem Same.trans (h : m.Same m') (h' : m'.Same m'') : m.Same m'' := by
  rw [Same] at h h' ⊢
  rw [h', h]

theorem Same.moves (h : m.Same m') : m.Moves m' := ⟨m, .refl, h⟩

theorem Effect.moves (h : m.Effect m') : m.Moves m' := ⟨m', .single h, .refl m'⟩

theorem Moves.of_same (h : m.Same m') (hmoves : m'.Moves m'') : m.Moves m'' := by
  obtain ⟨m₁, hstep, hsame⟩ := hmoves
  cases hstep with
  | refl => exact (h.trans hsame).moves
  | single he =>
    have hback : m = { m' with current := m.current } := h.symm
    have he' := he.withCurrent m.current
    rw [← hback] at he'
    exact ⟨_, .single he', (same_current m₁ m.current).symm.trans hsame⟩

theorem Moves.effects (h : m.Moves m') (s : ScopeId) :
    Effects { m with current := s } { m' with current := s } := by
  obtain ⟨m₁, hstep, hsame⟩ := h
  have hlast : ({ m' with current := s } : Machine) = { m₁ with current := s } := by rw [hsame]
  rw [hlast]
  cases hstep with
  | refl => exact .refl _
  | single he => exact (he.withCurrent s).effects

end Machine

/-! ### Runs -/

/-- A change of the machine is one effect at most, and another scope may be current afterwards. -/
theorem Change.moves {past : List Moment} {t : Task} {act : Act} {needs gives : List Fact}
    (h : Change past m t act needs m' gives) : m.Moves m' := by
  cases h with
  | define ht v => exact (Machine.Effect.define _ _ v).moves
  | assign ht hs hx v => exact (Machine.Effect.define _ _ v).moves
  | writes t o x v => exact (Machine.Effect.setField o x v).moves
  | prints t v => exact (Machine.Effect.print _).moves
  | ticks t => exact Machine.Effect.readClock.moves
  | creates t c => exact (Machine.Effect.newInstance _).moves
  | closes t origin f => exact (Machine.Effect.newFunction f).moves
  | declares t d => exact (Machine.Effect.newClass _).moves
  | block body => exact ⟨_, .single (.newScope ⟨{}, some m.current⟩), rfl⟩
  | frame f origin vs => exact ⟨_, .single (.newScope ⟨_, some f.closure⟩), rfl⟩
  | receiver t d f o => exact (Machine.Effect.newScope _).moves
  | parent hc => exact (Machine.Effect.newScope _).moves
  | _ => exact (Machine.Same.refl m).moves

/-- All that happens to a machine is effects. -/
def Rules.effectsFrom (start : Machine) : Rules :=
  anything.also (fun _ m => start.Effects { m with current := start.current })
    (fun _ _ _ _ hc heffects => heffects.trans (hc.moves.effects start.current))
    (fun _ _ _ heffects => heffects)

namespace Machine

theorem ready_effectsFrom (m : Machine) (t : Task) :
    (Rules.effectsFrom m).invariant.Ready t [] [] m :=
  ⟨⟨trivial, .refl m⟩, trivial, fun _ _ => trivial⟩

theorem effects_of_leads {later : List Moment}
    (h : (Rules.effectsFrom m).invariant.Leads [] m later m') : m.Effects m' := by
  have heffects := h.holds.2
  rwa [← h.current] at heffects

end Machine

namespace Eval

theorem evaluate_effects (n : Nat) (e : Expr) (m : Machine) :
    (evaluate n e m).Leaves m.Effects :=
  ((Invariant.evaluation_keeps _ n).expr e (m.ready_effectsFrom _)).leaves.mono
    fun _ => Machine.effects_of_leads

theorem execute_effects (n : Nat) (s : Stmt) (m : Machine) :
    (execute n s m).Leaves m.Effects :=
  ((Invariant.evaluation_keeps _ n).stmt s (m.ready_effectsFrom _)).leaves.mono
    fun _ => Machine.effects_of_leads

theorem executeAll_effects (n : Nat) (body : List Stmt) (m : Machine) :
    (executeAll n body m).Leaves m.Effects :=
  ((Invariant.evaluation_keeps _ n).stmts body (m.ready_effectsFrom _)).leaves.mono
    fun _ => Machine.effects_of_leads

theorem call_effects (n : Nat) (paren : Token) (f : Value) (vs : List Value) (m : Machine) :
    (call n paren f vs m).Leaves m.Effects :=
  ((Invariant.evaluation_keeps _ n).call paren f vs (m.ready_effectsFrom _)
    (fun _ _ => trivial) fun _ _ => trivial).leaves.mono fun _ => Machine.effects_of_leads

theorem callFunction_effects (n : Nat) (f : Function) (vs : List Value) (m : Machine) :
    (callFunction n f vs m).Leaves m.Effects :=
  ((Invariant.evaluation_keeps _ n).body f .declaration vs (m.ready_effectsFrom _) trivial
    fun _ _ => trivial).leaves.mono fun _ => Machine.effects_of_leads

end Eval

end Lox
