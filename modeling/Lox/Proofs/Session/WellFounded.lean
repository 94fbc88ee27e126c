import Lox.Proofs.Session.Moments

/-!
# Walks through the heap end

A program can tie its values into cycles of any kind: closures in the scopes that they close over,
instances in their own fields, a class in the variable of its superclass. No such cycle gets in the
way of the walks that looking up a name or a method makes. They only ever go from a scope to the
scope around it and from a class to its superclass, which are older, in every state of every session
(`walks_end_in_every_state`).
-/

namespace Lox

/-- Where one can start to look around in the heap: the current scope, what the evaluator has in
hand, and anything else that has been created. -/
inductive Moment.Root (x : Moment) : Ref → Prop where
  | current : x.Root (.scope x.machine.current)
  | held {r : Ref} : r ∈ x.held → x.Root r
  | created {r : Ref} : x.machine.heap.Has r → x.Root r

/-- Something that can be got at in the state of a moment. -/
def Moment.Reachable (x : Moment) (r : Ref) : Prop :=
  ∃ root, x.Root root ∧ x.machine.heap.Reaches root r

/-- What holds of the walks through the heap in the state of a moment. Handles are given out in the
order of creation. -/
structure Moment.Grounded (x : Moment) : Prop where
  enclosing : ∀ s outer, (x.machine.heap.scope s).enclosing = some outer → outer < s
  superclass : ∀ c parent, (x.machine.heap.cls c).superclass = some parent → parent < c
  /-- The scopes around a scope are finitely many, and the last one is the global one. -/
  chain : ∀ s, x.Reachable (.scope s) →
    ∃ depth, x.machine.heap.ancestor? s depth = some x.machine.globals ∧
      ∀ k > depth, x.machine.heap.ancestor? s k = none
  /-- The search for a name, to read it or to change it, ends with the scope that `holder?`
  gives. -/
  search : ∀ s, x.Reachable (.scope s) → ∀ name found,
    x.machine.heap.Searches name s found ↔ x.machine.heap.holder? s name = found
  /-- The search for a method ends, with the method that `findMethod?` gives. -/
  inherit : ∀ c, x.Reachable (.cls c) → ∀ name found,
    x.machine.heap.Inherits name c found ↔ x.machine.heap.findMethod? c name = found

variable {N : Expr → Prop} {x : Moment}

/-- All that can be got at has been created. -/
theorem Moment.Sound.has (h : x.Sound N) {r : Ref} (hr : x.Reachable r) : x.machine.heap.Has r := by
  obtain ⟨root, hroot, hreach⟩ := hr
  refine h.machine.heap.has_of_reaches ?_ hreach
  cases hroot with
  | current => exact h.machine.current
  | held hmem => exact h.held root hmem
  | created hhas => exact hhas

theorem Moment.Sound.grounded (h : x.Sound N) : x.Grounded where
  enclosing _ _ ho := h.machine.heap.enclosing_lt ho
  superclass c parent hp := h.machine.heap.parents c parent hp
  chain s hs := h.machine.heap.exists_depth s (h.has hs)
  search _ _ _ _ := h.machine.heap.searches_iff
  inherit _ _ _ _ := h.machine.heap.inherits_iff

/-- In every state that a new session goes through with any history, between its steps and in the
middle of them, scopes and classes lie behind those that they refer to in the order of creation, all
scopes that can be got at end in the global one, and the searches for names and methods end. -/
theorem walks_end_in_every_state (readings : Nat → Option Number) (brokenOutput : Bool)
    (history : History) :
    (Session.new readings brokenOutput).Covers history
        (((Session.new readings brokenOutput).moments history).map Moment.machine) ∧
      ∀ x ∈ (Session.new readings brokenOutput).moments history, x.Grounded := by
  have hnew := Machine.sound_new (N := fun _ => True) readings brokenOutput
  refine ⟨Session.covers_moments _ history, fun x hx => ?_⟩
  exact (Session.sound_moments hnew history (fun _ _ _ _ => trivial) x hx).grounded

/-- A closure in the scope that it closes over, an instance in its own field, and a class in the
variable of its superclass. -/
def knottedHistory : History :=
  [(40, .run ("class A \x7b\x7d class B < A \x7b init() \x7b this.me = this; \x7d \x7d " ++
    "A = B; A(); \x7b fun k() \x7b\x7d \x7d"))]

/-- The cycles of `knottedHistory` have been closed. -/
def Moment.isKnotted (x : Moment) : Bool :=
  x.machine.heap.getLocal? 4 "k" == some (.function 0) &&
    (x.machine.heap.function 0).closure == 4 &&
    (x.machine.heap.inst 0).fields.find? "me" == some (.inst 0) &&
    x.machine.heap.getLocal? 0 "A" == some (.cls 1) &&
    (x.machine.heap.cls 1).superclass == some 0

/-- A state in the middle of a run, with cycles of all three kinds. -/
theorem knotted_heap_is_grounded :
    ∃ x ∈ (Session.new (Clock.readingsFrom 0) false).moments knottedHistory,
      x.machine.current = 4 ∧ x.isKnotted = true ∧ x.Grounded := by
  have hany : ((Session.new (Clock.readingsFrom 0) false).moments knottedHistory).any
      (fun x => x.machine.current == 4 && x.isKnotted) = true := by
    decide +kernel
  obtain ⟨x, hx, hknotted⟩ := List.any_eq_true.mp hany
  rw [Bool.and_eq_true, beq_iff_eq] at hknotted
  exact ⟨x, hx, hknotted.1, hknotted.2,
    (walks_end_in_every_state (Clock.readingsFrom 0) false knottedHistory).2 x hx⟩

end Lox
