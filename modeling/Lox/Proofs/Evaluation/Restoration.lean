import Lox.Proofs.Session.Steps

/-!
# The current scope is restored

Blocks and calls run in scopes of their own, and they may end at any depth with a runtime error or a
`return`. Still, whatever has been evaluated, executed or called, and whatever its end, afterwards
the same scope is current as before, and the global scope is the same. This holds of every tree,
whether or not it was resolved, on every machine, because no effect of evaluation touches either
scope. So between two steps of a session the global scope is the current one
(`current_scope_is_restored`).
-/

namespace Lox

variable {m m' : Machine} {s next : Session} {fuel : Nat} {a : Answer}

/-- The same scope is current as on `m`, and the same scope is global. -/
structure Machine.Restored (m m' : Machine) : Prop where
  current : m'.current = m.current
  globals : m'.globals = m.globals

namespace Machine

theorem Restored.refl (m : Machine) : m.Restored m := ⟨rfl, rfl⟩

theorem Effect.restored (h : m.Effect m') : m.Restored m' := by
  cases h <;> exact ⟨rfl, rfl⟩

theorem Effects.restored (h : m.Effects m') : m.Restored m' := by
  refine h.keeps (Restored.refl m) ?_
  intro m₁ m₂ he h₁
  have h₂ := he.restored
  exact ⟨h₂.current.trans h₁.current, h₂.globals.trans h₁.globals⟩

end Machine

theorem Outcome.Leaves.restored {α : Type} {o : Outcome α} (h : o.Leaves m.Effects) :
    o.Leaves m.Restored :=
  h.mono fun _ he => he.restored

/-- Inside, another scope is current; outside, nothing is seen of that. -/
theorem Eval.withScope_restored {α : Type} {p : Eval α} {s : ScopeId}
    (h : (p { m with current := s }).Leaves (Machine.Restored { m with current := s })) :
    (withScope s p m).Leaves m.Restored := by
  unfold withScope
  cases hp : p { m with current := s } with
  | ok a next => rw [hp] at h; exact ⟨rfl, h.globals⟩
  | error e next => rw [hp] at h; exact ⟨rfl, h.globals⟩
  | returned keyword v next => rw [hp] at h; exact ⟨rfl, h.globals⟩
  | outOfFuel => trivial

/-! ### Steps of a session -/

theorem Session.perform_restored {step : Step} (h : s.perform fuel step = some (a, next)) :
    s.machine.Restored next.machine := by
  cases Session.took h with
  | rejected => exact ⟨rfl, rfl⟩
  | ran _ _ heffects =>
    have hfinal := heffects.restored
    exact ⟨hfinal.current, hfinal.globals⟩

theorem Session.play_restored {history : History} (h : s.play history = some next) :
    s.machine.Restored next.machine := by
  refine Session.play_keeps (R := fun s' => s.machine.Restored s'.machine) h (.refl _) ?_
  intro entry _ s₁ a s₂ hbefore hstep
  have hafter := perform_restored hstep
  exact ⟨hafter.current.trans hbefore.current, hafter.globals.trans hbefore.globals⟩

/-- Whatever expression is evaluated, statement executed, list of statements executed in a given
scope, value called or function run, on whatever machine: if it ends, the current and the global
scope are those from before. So after every history of a new session its global scope is current. -/
theorem current_scope_is_restored :
    (∀ fuel m,
      (∀ e, (Eval.evaluate fuel e m).Leaves m.Restored) ∧
      (∀ s, (Eval.execute fuel s m).Leaves m.Restored) ∧
      (∀ scope body, (Eval.withScope scope (Eval.executeAll fuel body) m).Leaves m.Restored) ∧
      (∀ paren callee args, (Eval.call fuel paren callee args m).Leaves m.Restored) ∧
      (∀ f args, (Eval.callFunction fuel f args m).Leaves m.Restored)) ∧
    ∀ readings brokenOutput history s,
      (Session.new readings brokenOutput).play history = some s →
      s.machine.current = s.machine.globals ∧
        s.machine.globals = (Session.new readings brokenOutput).machine.globals := by
  refine ⟨fun fuel m => ?_, fun readings brokenOutput history s hplay => ?_⟩
  · refine ⟨fun e => ?_, fun s => ?_, fun scope body => ?_, fun paren callee args => ?_,
      fun f args => ?_⟩
    · exact (Eval.evaluate_effects fuel e m).restored
    · exact (Eval.execute_effects fuel s m).restored
    · exact Eval.withScope_restored (Eval.executeAll_effects fuel body _).restored
    · exact (Eval.call_effects fuel paren callee args m).restored
    · exact (Eval.callFunction_effects fuel f args m).restored
  · have hrestored := Session.play_restored hplay
    have hstart : (Session.new readings brokenOutput).machine.current =
        (Session.new readings brokenOutput).machine.globals := rfl
    refine ⟨?_, hrestored.globals⟩
    rw [hrestored.current, hrestored.globals, hstart]

/-- A block in a call of a method of an initializer stops at an undefined variable. -/
def stoppedHistory : History :=
  [(40, .run ("class A \x7b init() \x7b this.m(); \x7d m() \x7b \x7b var x = 1; \x7b print x + y; " ++
    "\x7d \x7d \x7d \x7d A();"))]

/-- Six scopes have been opened on the way, and the global scope is current again. -/
theorem stopped_run_restores_globals : ∃ s,
    (Session.new (Clock.readingsFrom 0) false).play stoppedHistory = some s ∧
      s.machine.heap.scopes.size = 7 ∧ s.machine.current = s.machine.globals := by
  have hsize : ((Session.new (Clock.readingsFrom 0) false).play stoppedHistory).map
      (fun s => s.machine.heap.scopes.size) = some 7 := by
    decide +kernel
  obtain ⟨s, hs, hscopes⟩ := Option.map_eq_some_iff.mp hsize
  have hcurrent := current_scope_is_restored.2 (Clock.readingsFrom 0) false stoppedHistory s hs
  exact ⟨s, hs, hscopes, hcurrent.1⟩

end Lox
