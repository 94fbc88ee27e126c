import Lox.Proofs.Renaming.Apart
import Lox.Proofs.Renaming.Simulation
import Lox.Proofs.Renaming.Static
import Lox.Proofs.Scoping.Agreement

/-!
# Programs under renaming

The name of a local variable or parameter does not matter. A program that passes the static checks
still passes them with the variable renamed, to a name that does not occur in it; and started from
the same session, on the same clock, both programs write the same output and end with the same
reports (`renaming_a_local_keeps_the_run`). Only the report that the renamed variable is undefined,
which a program can bring about in its initializer, shows the new name.

An occurrence that is renamed and one that is not may be equal tokens, on one line. Which of them is
reported is told by a third run, of the same source with every token on a line of its own (`apart`):
the reports of both programs are those of that run, with each token back on its line.
-/

namespace Lox

/-! ### Resolving and running a tree -/

variable {ρ : Exchange} {T : Marking} {m m' : Machine} {s : Session}

/-! ### The start of a run -/

theorem Heap.Sound.along {N : Expr → Prop} {h : Heap} {globals : ScopeId} (hs : h.Sound N globals)
    {sid : ScopeId} (hsid : h.Has (.scope sid)) : Along (fun _ => false) h sid [] := by
  intro k s hancestor
  exact ⟨hs.has_ancestor hsid hancestor, rfl⟩

/-- Also what stands for a function that does not exist closes over a scope. -/
theorem Heap.Sound.closure_function {N : Expr → Prop} {h : Heap} {globals : ScopeId}
    (hs : h.Sound N globals) (f : FunctionId) : h.Has (.scope (h.function f).closure) := by
  by_cases hf : h.Has (.function f)
  · exact (hs.functions f hf).closure
  · have hdefault : h.function f = default := by simp [Heap.function, not_lt.mp hf]
    rw [hdefault]
    exact Nat.zero_lt_of_lt hs.root

/-- A machine between two steps of a session is its own counterpart. -/
theorem Machine.Sound.renamed_self {N : Expr → Prop} (hm : m.Sound N)
    (hrecorded : m.distances = ρ.distances) : m.Renamed ρ (fun _ => false) m := by
  have hmethod : ∀ id x, Option.Rel (Function.Renamed ρ (fun _ => false) m.heap [false])
      ((m.heap.cls id).methods.find? x) ((m.heap.cls id).methods.find? x) := by
    intro id x
    cases hf : (m.heap.cls id).methods.find? x with
    | none => exact .none
    | some f =>
      have hclosure := (hm.heap.methods id x f hf).closure
      exact .some ⟨⟨[], hm.heap.along hclosure, f.decl.renamed_self Renaming.unmarked_nil.push⟩,
        rfl, rfl⟩
  exact
    { heap :=
        { scopes := rfl
          enclosing := fun _ => rfl
          values := fun _ _ => rfl
          functionCount := rfl
          functions := fun id => ⟨⟨[], hm.heap.along (hm.heap.closure_function id),
            FunDecl.renamed_self _ Renaming.unmarked_nil⟩, rfl, rfl⟩
          classCount := rfl
          classes := fun id => ⟨rfl, rfl, hmethod id⟩
          instances := rfl }
      root := hm.heap.along hm.heap.root
      globals := rfl
      current := rfl
      recorded := hrecorded
      distances := rfl
      clock := rfl
      output := rfl }

/-! ### Programs -/

/-- The renaming of a program, where a token takes the place of another at an occurrence that is
renamed. -/
def Renaming.within (ρ : Renaming) (target : Path) (program : List Stmt) : Exchange where
  toRenaming := ρ
  exchanges := Replaced (nodesOfAll program) (nodesOfAll (renameLocal ρ target program))

end Lox
