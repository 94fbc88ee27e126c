import Lox.Evaluation
import Lox.Proofs.Heap.Objects

/-!
# Access to methods

What reading a property, looking up a method of the superclass and calling a class come to, by what
is found.
-/

namespace Lox

namespace Eval

variable {m : Machine} {id : ClassId} {name : Token} {this : InstanceId}

theorem bind_ok {α β : Type} {p : Eval α} {f : α → Eval β} {a : α} {next : Machine}
    (h : p m = .ok a next) : (p >>= f) m = f a next := by
  simp only [bind, Eval.bind, h]

/-- The method that a class has, if it has one, bound to an instance. -/
def methodOf (id : ClassId) (name : Token) (this : InstanceId) : Eval Value := do
  match ← inspect fun h => h.findMethod? id name.lexeme with
  | some f => boundMethod f this
  | none => fault (.undefinedProperty name.lexeme) name

theorem methodOf_some {f : Function} (h : m.heap.findMethod? id name.lexeme = some f) :
    methodOf id name this m = boundMethod f this m := by
  simp only [methodOf, bind, Eval.bind, inspect, h]

theorem methodOf_none (h : m.heap.findMethod? id name.lexeme = none) :
    methodOf id name this m = fault (.undefinedProperty name.lexeme) name m := by
  simp only [methodOf, bind, Eval.bind, inspect, h]

theorem getProperty_field {v : Value}
    (h : (m.heap.inst this).fields.find? name.lexeme = some v) :
    getProperty (.inst this) name m = .ok v m := by
  simp only [getProperty, bind, Eval.bind, inspect, h]
  rfl

theorem getProperty_method (h : (m.heap.inst this).fields.find? name.lexeme = none) :
    getProperty (.inst this) name m = methodOf (m.heap.inst this).cls name this m := by
  cases hf : m.heap.findMethod? (m.heap.inst this).cls name.lexeme with
  | some f =>
    rw [methodOf_some hf]
    simp only [getProperty, bind, Eval.bind, inspect, h, hf]
  | none =>
    rw [methodOf_none hf]
    simp only [getProperty, bind, Eval.bind, inspect, h, hf]

theorem superMethod_unresolved {node : NodeId} {keyword : Token}
    (h : m.distances.find? node = none) :
    superMethod node keyword name m = fault .unresolvedSuper keyword m := by
  simp only [superMethod, bind, Eval.bind, h]

theorem superMethod_at {node : NodeId} {keyword : Token} {k : Nat}
    (h : m.distances.find? node = some k) :
    superMethod node keyword name m =
      (do
        let parent ← superclassAt k keyword
        let this ← thisInside k keyword
        methodOf parent name this : Eval Value) m := by
  have hlookup : Outcome.ok (m.distances.find? node) m = .ok (some k) m := by rw [h]
  exact bind_ok (p := fun m => .ok (m.distances.find? node) m) hlookup

theorem call_class (n : Nat) (paren : Token) (id : ClassId) (vs : List Value) (m : Machine) :
    call (n + 1) paren (.cls id) vs m =
      (match m.heap.findMethod? id FunDecl.initializerName with
        | some f => do
          checkArity paren f.arity vs.length
          let this ← newInstance id
          let bound ← bindThis f this
          let _ ← callFunction n bound vs
          return .inst this
        | none => do
          checkArity paren 0 vs.length
          let this ← newInstance id
          return .inst this : Eval Value) m := by
  rw [call]
  show ((checkArity paren
    (((m.heap.findMethod? id FunDecl.initializerName).map Function.arity).getD 0) vs.length >>=
      fun _ => newInstance id >>= fun this =>
        match m.heap.findMethod? id FunDecl.initializerName with
          | some f => _
          | none => _ : Eval Value) m) = _
  cases m.heap.findMethod? id FunDecl.initializerName <;> rfl

theorem mem_methodTable {closure : ScopeId} {methods : List FunDecl} {name : String}
    {f : Function} (hf : (methodTable closure methods).find? name = some f) :
    ∃ decl ∈ methods, decl.name.lexeme = name ∧ f = ⟨decl, closure, decl.isInitializer⟩ := by
  rcases Table.mem_of_find?_insertAll hf with hnone | hmem
  · simp at hnone
  · obtain ⟨decl, hdecl, heq⟩ := List.mem_map.mp hmem
    rw [Prod.mk.injEq] at heq
    exact ⟨decl, hdecl, heq.1, heq.2.symm⟩

theorem isSome_methodTable (closure : ScopeId) {methods : List FunDecl} {decl : FunDecl}
    (hdecl : decl ∈ methods) :
    ((methodTable closure methods).find? decl.name.lexeme).isSome := by
  refine Table.isSome_find?_insertAll (.inr ?_)
  rw [List.map_map]
  exact List.mem_map_of_mem (f := fun d : FunDecl => d.name.lexeme) hdecl

end Eval

end Lox
