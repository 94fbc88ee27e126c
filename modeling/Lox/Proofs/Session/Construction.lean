import Mathlib.Data.List.Nodup
import Lox.Proofs.Session.Errors

/-!
# Construction of instances

In every state of a session, a call of a class that ends without a runtime error gives a new
instance of that class, after the initializer found from the class on has run on it; and a call of
an initializer that is bound to an instance gives that instance, however the function was come by
and wherever its body is left. The scopes of `this` and `super` never change what they bind these
names to (`initializers_give_their_instances`).
-/

namespace Lox

variable {α : Type} {P : Token → Prop} {m : Machine} {n : Nat}

/-- If a computation ends without a runtime error, it ends with a value, of which `P` holds. -/
def Outcome.Succeeds (P : α → Machine → Prop) : Outcome α → Prop
  | .ok a m => P a m
  | .error _ _ => True
  | .returned _ _ _ => False
  | .outOfFuel => True

theorem Outcome.succeeds {o : Outcome α} {P : α → Machine → Prop}
    (hreturn : ∀ keyword v final, o ≠ .returned keyword v final)
    (hok : ∀ a final, o = .ok a final → P a final) : o.Succeeds P := by
  cases o with
  | ok a final => exact hok a final rfl
  | error e final => trivial
  | returned keyword v final => exact absurd rfl (hreturn keyword v final)
  | outOfFuel => trivial

theorem Eval.ok_of_bind {β : Type} {p : Eval α} {f : α → Eval β} {b : β} {final : Machine}
    (h : (p >>= f) m = .ok b final) : ∃ a next, p m = .ok a next ∧ f a next = .ok b final := by
  simp only [bind, Eval.bind] at h
  split at h
  · exact ⟨_, _, ‹_›, h⟩
  · cases h
  · cases h
  · cases h

theorem Eval.checkArity_ok {paren : Token} {expected got : Nat} {u : Unit} {next : Machine}
    (h : checkArity paren expected got m = .ok u next) : got = expected ∧ next = m := by
  unfold checkArity at h
  split_ifs at h with heq
  · cases h
    exact ⟨heq, rfl⟩
  · cases h

theorem Eval.catchReturn_withScope_ok {p : Eval Unit} {s : ScopeId} {v : Value} {final : Machine}
    (h : catchReturn (withScope s p) m = .ok v final) :
    ∃ ended, catchReturn p { m with current := s } = .ok v ended ∧
      final = { ended with current := m.current } := by
  unfold catchReturn withScope at h
  unfold catchReturn
  cases hp : p { m with current := s } with
  | ok u ended =>
    rw [hp] at h
    cases h
    exact ⟨ended, rfl, rfl⟩
  | returned keyword w ended =>
    rw [hp] at h
    cases h
    exact ⟨ended, rfl, rfl⟩
  | error e ended =>
    rw [hp] at h
    cases h
  | outOfFuel =>
    rw [hp] at h
    cases h

theorem Eval.boundInstance_ok {f : Function} {v : Value} {final : Machine}
    (h : boundInstance f m = .ok v final) :
    final = m ∧ m.heap.getLocal? f.closure "this" = some v := by
  unfold boundInstance at h
  split at h
  · cases h
    exact ⟨rfl, ‹_›⟩
  · cases h

theorem Eval.superclassAt_ok {distance : Nat} {keyword : Token} {c : ClassId} {final : Machine}
    (h : superclassAt distance keyword m = .ok c final) : final = m := by
  unfold superclassAt at h
  split at h <;> cases h
  rfl

theorem Eval.thisInside_ok {distance : Nat} {keyword : Token} {o : InstanceId} {final : Machine}
    (h : thisInside distance keyword m = .ok o final) :
    ∃ inner, distance = inner + 1 ∧ final = m ∧
      m.heap.getAt? m.current inner "this" = some (.inst o) := by
  unfold thisInside at h
  split at h
  · cases h
  · split at h
    · cases h
      exact ⟨_, rfl, rfl, ‹_›⟩
    · cases h
    · cases h

/-! ### Calls -/

theorem Eval.find?_bindArguments {params : List Token} {args : List Value}
    (hnodup : (params.map (·.lexeme)).Nodup) (hlength : params.length ≤ args.length) {i : Nat}
    {p : Token} {v : Value} (hp : params[i]? = some p) (hv : args[i]? = some v) :
    (bindArguments params args).find? p.lexeme = some v := by
  have hkeys : (((params.map (·.lexeme)).zip args).map Prod.fst).Nodup := by
    rw [List.map_fst_zip (by rwa [List.length_map])]
    exact hnodup
  have hmem : (p.lexeme, v) ∈ (params.map (·.lexeme)).zip args := by
    refine List.mem_iff_getElem?.mpr ⟨i, List.getElem?_zip_eq_some.mpr ⟨?_, hv⟩⟩
    rw [List.getElem?_map, hp]
    rfl
  obtain ⟨w, hw⟩ := Option.isSome_iff_exists.mp
    (Table.isSome_find?_insertAll (t := {}) (.inr (List.mem_map.mpr ⟨_, hmem, rfl⟩)))
  rcases Table.mem_of_find?_insertAll hw with hnone | hmem'
  · simp at hnone
  · cases List.inj_on_of_nodup_map hkeys hmem hmem' rfl
    exact hw

section Calls

variable {f : Function} {args : List Value} {v : Value} {final : Machine} {o : InstanceId}
  {k : ClassId} {paren : Token}

/-- The machine on which the body of a function begins. -/
def Machine.entered (m : Machine) (f : Function) (args : List Value) : Machine :=
  { m with
    heap := (m.heap.newScope ⟨Eval.bindArguments f.decl.params args, some f.closure⟩).2
    current := m.heap.scopes.size }

/-- A call of a function runs its body to the end, and comes back to the scope of the caller. For an
initializer it gives `this`. -/
theorem Eval.callFunction_ok (h : Eval.callFunction n f args m = .ok v final) :
    ∃ j result ended,
      Eval.catchReturn (Eval.executeAll j f.decl.body) (m.entered f args) = .ok result ended ∧
      final = { ended with current := m.current } ∧
      (f.isInitializer = true → final.heap.getLocal? f.closure "this" = some v) := by
  cases n with
  | zero => cases h
  | succ j =>
    obtain ⟨frame, m₁, hframe, hrest⟩ := Eval.ok_of_bind h
    cases hframe
    obtain ⟨result, m₂, hbody, hresult⟩ := Eval.ok_of_bind hrest
    obtain ⟨ended, hended, rfl⟩ := Eval.catchReturn_withScope_ok hbody
    split_ifs at hresult with hinit
    · obtain ⟨rfl, hthis⟩ := Eval.boundInstance_ok hresult
      exact ⟨j, result, ended, hended, rfl, fun _ => hthis⟩
    · cases hresult
      exact ⟨j, v, ended, hended, rfl, fun hi => absurd hi hinit⟩

theorem Eval.endures_callFunction (hP : ∀ t, P t → t.Spelled) (ho : m.Orderly P)
    (hf : f.Orderly P m.distances m.heap)
    (h : Eval.callFunction n f args m = .ok v final) : m.heap.Endures final.heap := by
  -- the call comes after a moment on `m`, which so endures all its moments
  let start : Moment := ⟨.rests, .stmts [], [], m⟩
  have hready : (Rules.enduring P hP).invariant.Ready (.body f .declaration args) [start] [] m :=
    ⟨⟨ho, List.pairwise_singleton _ _, List.forall_mem_singleton.mpr (.refl _)⟩,
      ⟨ho.current, hf.code.called .declaration args⟩, List.forall_mem_nil _⟩
  have hends := ((Invariant.evaluation_keeps _ n).body f .declaration args hready hf
    fun fact hfact => by
      obtain ⟨w, -, hw⟩ := List.mem_flatMap.mp hfact
      obtain ⟨r, -, rfl⟩ := List.mem_map.mp hw
      trivial).ends
  rw [h] at hends
  exact hends.1.holds.2.2 start List.mem_cons_self

theorem Eval.callFunction_initializer (hP : ∀ t, P t → t.Spelled) (ho : m.Orderly P)
    (hf : f.Orderly P m.distances m.heap) (hinit : f.isInitializer = true)
    (hthis : m.heap.getLocal? f.closure "this" = some (.inst o))
    (h : Eval.callFunction n f args m = .ok v final) : v = .inst o := by
  obtain ⟨-, -, -, -, -, hv⟩ := Eval.callFunction_ok h
  have hendures := Eval.endures_callFunction hP ho hf h
  have hkept := hendures.scopes.getLocal? (.inl rfl) hthis
  rw [hv hinit, Option.some.injEq] at hkept
  exact hkept

/-- The body of an initializer begins: the instance is in its class and has no fields yet, the
current scope binds each parameter to its argument, and the scope around it binds `this` to the
instance. -/
structure Machine.Enters (start : Machine) (f : Function) (args : List Value) (k : ClassId)
    (o : InstanceId) : Prop where
  instance_ : start.heap.inst o = ⟨k, {}⟩
  arity : args.length = f.decl.params.length
  parameters : ∀ (i : Nat) (p : Token) (v : Value), f.decl.params[i]? = some p → args[i]? = some v →
    start.heap.getLocal? start.current p.lexeme = some v
  receiver : ∃ this, (start.heap.scope start.current).enclosing = some this ∧
    start.heap.scope this = ⟨.singleton "this" (.inst o), some f.closure⟩

/-- The next instance of a class, before an initializer that is bound to it is called. -/
def Machine.allocated (m : Machine) (k : ClassId) (f : Function) : Machine :=
  { m with
    heap := ((m.heap.newInstance ⟨k, {}⟩).2.newScope
      ⟨.singleton "this" (.inst m.heap.instances.size), some f.closure⟩).2 }

/-- The machine on which the body of the initializer begins when a class is called on `m`. -/
def Machine.initial (m : Machine) (k : ClassId) (f : Function) (args : List Value) : Machine :=
  (m.allocated k f).entered { f with closure := m.heap.scopes.size } args

/-- A call of a class on `m` has constructed an instance: it is a new one, and the initializer found
from the class on, if there is one, has run on it from the beginning of its body to the end. -/
structure Machine.Constructs (m : Machine) (k : ClassId) (args : List Value) (o : InstanceId)
    (final : Machine) : Prop where
  new : ¬m.heap.Has (.inst o)
  created : final.heap.Has (.inst o)
  cls : (final.heap.inst o).cls = k
  initialized : ∃ found, m.heap.Inherits FunDecl.initializerName k found ∧
    (found = none → args = [] ∧ final = { m with heap := (m.heap.newInstance ⟨k, {}⟩).2 }) ∧
    ∀ f, found = some f → (m.initial k f args).Enters f args k o ∧ ∃ j result ended,
      Eval.catchReturn (Eval.executeAll j f.decl.body) (m.initial k f args) = .ok result ended ∧
        final = { ended with current := m.current }

theorem Eval.construct_plain (hf : m.heap.findMethod? k FunDecl.initializerName = none)
    (h : Eval.call n paren (.cls k) args m = .ok v final) :
    args = [] ∧ v = .inst m.heap.instances.size ∧
      final = { m with heap := (m.heap.newInstance ⟨k, {}⟩).2 } := by
  cases n with
  | zero => cases h
  | succ n =>
    rw [Eval.call_class, hf] at h
    obtain ⟨_, m₁, harity, hrest⟩ := Eval.ok_of_bind h
    obtain ⟨hlength, rfl⟩ := Eval.checkArity_ok harity
    cases hrest
    exact ⟨List.length_eq_zero_iff.mp hlength, rfl, rfl⟩

theorem Eval.construct_initialized (hf : m.heap.findMethod? k FunDecl.initializerName = some f)
    (h : Eval.call n paren (.cls k) args m = .ok v final) :
    args.length = f.decl.params.length ∧ v = .inst m.heap.instances.size ∧ ∃ j result,
      Eval.callFunction j { f with closure := m.heap.scopes.size } args (m.allocated k f) =
        .ok result final := by
  cases n with
  | zero => cases h
  | succ n =>
    rw [Eval.call_class, hf] at h
    obtain ⟨_, m₁, harity, hrest⟩ := Eval.ok_of_bind h
    obtain ⟨hlength, rfl⟩ := Eval.checkArity_ok harity
    obtain ⟨this, m₂, hthis, hbind⟩ := Eval.ok_of_bind hrest
    cases hthis
    obtain ⟨bound, m₃, hbound, hcall⟩ := Eval.ok_of_bind hbind
    cases hbound
    obtain ⟨result, m₄, hresult, hend⟩ := Eval.ok_of_bind hcall
    cases hend
    exact ⟨hlength, rfl, n, result, hresult⟩

theorem Machine.enters_initial (m : Machine) (k : ClassId) {d : Distances}
    (hcode : f.decl.Passed P d) (hlength : args.length = f.decl.params.length) :
    (m.initial k f args).Enters f args k m.heap.instances.size where
  instance_ := (Heap.inst_newInstance _ _ _).trans (if_pos rfl)
  arity := hlength
  parameters i p v hp hv := by
    rw [Machine.initial, Machine.entered, Heap.getLocal?_newScope, if_pos rfl]
    exact Eval.find?_bindArguments hcode.nodup (le_of_eq hlength.symm) hp hv
  receiver := by
    refine ⟨m.heap.scopes.size, congrArg Scope.enclosing (Heap.scope_newScope_self _ _), ?_⟩
    have hlt : m.heap.scopes.size < (m.allocated k f).heap.scopes.size := by
      simp [Machine.allocated, Heap.newScope, Heap.newInstance]
    refine (Heap.scope_newScope_of_lt _ _ hlt).trans ?_
    exact Heap.scope_newScope_self _ _

theorem Machine.orderly_allocated (ho : m.Orderly P) (k : ClassId) (f : Function) :
    (m.allocated k f).Orderly P := by
  have hcreated : (m.heap.newInstance ⟨k, {}⟩).2.Orderly P m.distances :=
    ho.heap.of_same rfl rfl rfl
  have hr : (m.heap.newInstance ⟨k, {}⟩).2.Retains (m.allocated k f).heap :=
    Heap.retains_newScope _ _
  exact ⟨hcreated.newScope (Table.allSuit_this _) (.inr rfl),
    (ho.current.retains (Heap.endures_newInstance _).scopes).retains hr⟩

theorem Eval.call_constructs {N : Expr → Prop} (hP : ∀ t, P t → t.Spelled) (hm : m.Sound N)
    (ho : m.Orderly P)
    (h : Eval.call n paren (.cls k) args m = .ok v final) :
    ∃ o, v = .inst o ∧ m.Constructs k args o final := by
  have hnew : ¬m.heap.Has (.inst m.heap.instances.size) := Nat.lt_irrefl _
  have hhas : (m.heap.newInstance ⟨k, {}⟩).2.Has (.inst m.heap.instances.size) :=
    Heap.has_newInstance.mpr (.inr rfl)
  have hcls : ((m.heap.newInstance ⟨k, {}⟩).2.inst m.heap.instances.size).cls = k := by
    rw [Heap.inst_newInstance, if_pos rfl]
  have hwalk := hm.heap.inherits_iff.mpr (Eq.refl (m.heap.findMethod? k FunDecl.initializerName))
  cases hf : m.heap.findMethod? k FunDecl.initializerName with
  | none =>
    rw [hf] at hwalk
    obtain ⟨hargs, rfl, rfl⟩ := Eval.construct_plain hf h
    refine ⟨_, rfl, hnew, hhas, hcls, none, hwalk, fun _ => ⟨hargs, rfl⟩, ?_⟩
    rintro _ ⟨⟩
  | some f =>
    rw [hf] at hwalk
    obtain ⟨hlength, rfl, j, result, hcall⟩ := Eval.construct_initialized hf h
    have hcode := (ho.heap.findMethod? hf).1
    have hendures := Eval.endures_callFunction hP (Machine.orderly_allocated ho k f)
      (Function.orderly_bound hcode _) hcall
    obtain ⟨j', result', ended, hbody, hfinal, -⟩ := Eval.callFunction_ok hcall
    refine ⟨_, rfl, hnew, hendures.kept _ hhas, (hendures.instances _ hhas).trans hcls, some f,
      hwalk, ?_, ?_⟩
    · rintro ⟨⟩
    · rintro _ ⟨⟩
      exact ⟨m.enters_initial k hcode hlength, j', result', ended, hbody, hfinal⟩

end Calls

/-! ### Initializers -/

/-- A function is an initializer that is bound to an instance. -/
structure Heap.BindsInitializer (h : Heap) (g : FunctionId) (o : InstanceId) : Prop where
  has : h.Has (.function g)
  initializer : (h.function g).isInitializer = true
  receiver : h.getLocal? (h.function g).closure "this" = some (.inst o)

theorem Heap.BindsInitializer.endures {h h' : Heap} {g : FunctionId} {o : InstanceId}
    (hg : h.BindsInitializer g o) (he : h.Endures h') : h'.BindsInitializer g o := by
  have hsame := he.functions g hg.has
  refine ⟨he.kept _ hg.has, ?_, ?_⟩
  · rw [hsame]
    exact hg.initializer
  · rw [hsame]
    exact he.scopes.getLocal? (.inl rfl) hg.receiver

/-- What calls of classes and initializers, and accesses to initializers, give on a machine. -/
structure Machine.Initializing (m : Machine) : Prop where
  /-- A call of a class constructs an instance. -/
  construct : ∀ n paren k args, (Eval.call n paren (.cls k) args m).Succeeds fun v final =>
    ∃ o, v = .inst o ∧ m.Constructs k args o final
  /-- A call of an initializer gives the instance it is bound to. -/
  call : ∀ g o, m.heap.BindsInitializer g o → ∀ n paren args,
    (Eval.call n paren (.function g) args m).Succeeds fun v _ => v = .inst o
  /-- Every initializer among the functions is bound to an instance. -/
  bound : ∀ g, m.heap.Has (.function g) → (m.heap.function g).isInitializer = true →
    ∃ o, m.heap.BindsInitializer g o
  /-- As a property of an instance, unless a field hides it, an initializer is bound to that
  instance. -/
  property : ∀ o name, name.lexeme = FunDecl.initializerName →
    (m.heap.inst o).fields.find? name.lexeme = none →
    (Eval.getProperty (.inst o) name m).Succeeds fun v final =>
      ∃ g, v = .function g ∧ final.heap.BindsInitializer g o
  /-- As a method of the superclass, an initializer is bound to `this`. -/
  super : ∀ id keyword method, method.lexeme = FunDecl.initializerName →
    (Eval.superMethod id keyword method m).Succeeds fun v final =>
      ∃ g distance o, v = .function g ∧ m.distances.find? id = some (distance + 1) ∧
        m.heap.getAt? m.current distance "this" = some (.inst o) ∧
        final.heap.BindsInitializer g o

section Initializing

variable {v : Value} {final : Machine} {o : InstanceId}

theorem Heap.bindsInitializer_bound (h : Heap) {f : Function} (hinit : f.isInitializer = true)
    (o : InstanceId) :
    ((h.newScope ⟨.singleton "this" (.inst o), some f.closure⟩).2.newFunction
      { f with closure := h.scopes.size }).2.BindsInitializer h.functions.size o := by
  have hfunction : ((h.newScope ⟨.singleton "this" (.inst o), some f.closure⟩).2.newFunction
      { f with closure := h.scopes.size }).2.function h.functions.size =
        { f with closure := h.scopes.size } :=
    (Heap.function_newFunction ..).trans (if_pos rfl)
  refine ⟨Heap.has_newFunction.mpr (.inr rfl), ?_, ?_⟩
  · rw [hfunction]
    exact hinit
  · rw [hfunction]
    exact (h.getLocal?_newScope _ _ _).trans (if_pos rfl)

theorem Eval.methodOf_ne_returned (c : ClassId) (name : Token) (o : InstanceId) (m : Machine)
    (keyword : Token) (v : Value) (final : Machine) :
    Eval.methodOf c name o m ≠ .returned keyword v final := by
  intro h
  cases hf : m.heap.findMethod? c name.lexeme with
  | none =>
    rw [Eval.methodOf_none hf] at h
    cases h
  | some f =>
    rw [Eval.methodOf_some hf] at h
    cases h

theorem Eval.methodOf_initializer (ho : m.Orderly P) {c : ClassId} {name : Token}
    (hname : name.lexeme = FunDecl.initializerName)
    (h : Eval.methodOf c name o m = .ok v final) :
    ∃ g, v = .function g ∧ final.heap.BindsInitializer g o := by
  cases hf : m.heap.findMethod? c name.lexeme with
  | none =>
    rw [Eval.methodOf_none hf] at h
    cases h
  | some f =>
    have hinit : f.isInitializer = true := by
      rw [(ho.heap.findMethod? hf).2, hname, decide_eq_true rfl]
    rw [Eval.methodOf_some hf] at h
    cases h
    exact ⟨_, rfl, m.heap.bindsInitializer_bound hinit o⟩

/-- What holds of all states of a run of code that may be run. -/
theorem Machine.Sound.initializing {N : Expr → Prop} (hP : ∀ t, P t → t.Spelled) (hm : m.Sound N)
    (ho : m.Orderly P) : m.Initializing where
  construct n paren k args := Outcome.succeeds (Eval.call_ne_returned n paren (.cls k) args m)
    fun v final h => Eval.call_constructs hP hm ho h
  call g o hg n paren args := by
    refine Outcome.succeeds (Eval.call_ne_returned n paren (.function g) args m) fun v final h => ?_
    cases n with
    | zero => cases h
    | succ n =>
      obtain ⟨f, m₁, hf, hrest⟩ := Eval.ok_of_bind h
      cases hf
      obtain ⟨_, m₂, harity, hcall⟩ := Eval.ok_of_bind hrest
      obtain ⟨-, rfl⟩ := Eval.checkArity_ok harity
      exact Eval.callFunction_initializer hP ho (ho.heap.functions g) hg.initializer hg.receiver
        hcall
  bound g hg hinit := by
    obtain ⟨o, hthis⟩ := (ho.heap.functions g).receiver hinit
    exact ⟨o, hg, hinit, hthis⟩
  property o name hname hfield := by
    rw [Eval.getProperty_method hfield]
    refine Outcome.succeeds (Eval.methodOf_ne_returned _ name o m) fun v final h => ?_
    exact Eval.methodOf_initializer ho hname h
  super id keyword method hname := by
    -- the access is an expression of its own
    have hreturn :
        ∀ token v final, Eval.superMethod id keyword method m ≠ .returned token v final :=
      Eval.evaluate_ne_returned 1 (.super id keyword method) m
    refine Outcome.succeeds hreturn fun v final h => ?_
    cases hid : m.distances.find? id with
    | none =>
      rw [Eval.superMethod_unresolved hid] at h
      cases h
    | some distance =>
      rw [Eval.superMethod_at hid] at h
      obtain ⟨parent, m₁, hparent, hrest⟩ := Eval.ok_of_bind h
      cases Eval.superclassAt_ok hparent
      obtain ⟨this, m₂, hthis, hmethod⟩ := Eval.ok_of_bind hrest
      obtain ⟨inner, rfl, rfl, hbinds⟩ := Eval.thisInside_ok hthis
      obtain ⟨g, rfl, hg⟩ := Eval.methodOf_initializer ho hname hmethod
      exact ⟨g, inner, this, rfl, rfl, hbinds, hg⟩

end Initializing

/-! ### Sessions -/

/-- In every state of a history of a new session, a call of a class that ends without a runtime
error gives an instance of that class that was not there before, and the initializer found from the
class on, if there is one, has run on it with each parameter bound to its argument. A call of an
initializer that is bound to an instance gives that instance; as a property and as a method of the
superclass, initializers are bound. In all later states the scopes bind `this` and `super` as
before, and functions that are bound to an instance stay bound to it. -/
theorem initializers_give_their_instances (readings : Nat → Option Number) (brokenOutput : Bool)
    (history : History) :
    (∀ x ∈ (Session.new readings brokenOutput).moments history, x.machine.Initializing) ∧
      ((Session.new readings brokenOutput).moments history).Pairwise fun x y =>
        (∀ s name, x.machine.heap.Has (.scope s) → IsImplicit name →
          y.machine.heap.getLocal? s name = x.machine.heap.getLocal? s name) ∧
        ∀ g o, x.machine.heap.BindsInitializer g o → y.machine.heap.BindsInitializer g o := by
  obtain ⟨hseen, hpairs, -⟩ := Session.enduring_moments (fun _ ht => ht) readings brokenOutput
    fun entry (_ : entry ∈ history) => tokens_spelled entry.2.source
  have hnew : (Session.new readings brokenOutput).machine.Sound fun _ => True :=
    Machine.sound_new readings brokenOutput
  have hsound := Session.sound_moments hnew history fun _ _ _ _ => trivial
  refine ⟨fun x hx => (hsound x hx).machine.initializing (fun _ ht => ht) (hseen x hx), ?_⟩
  refine hpairs.imp fun he => ⟨?_, fun g o hg => hg.endures he⟩
  exact fun s name hs hname => he.scopes.implicit s name hname hs

/-- An initializer that leaves its body inside a block in a loop is run by that of a subclass, which
a third class inherits. The initializer of an instance is kept in a variable, and called later. -/
def initializingHistory : History :=
  [(60, .run ("class A \x7b init(a, b) " ++
    "\x7b while (true) \x7b \x7b if (a) return; \x7d \x7d \x7d \x7d " ++
    "class B < A \x7b init(c) \x7b super.init(c, c); this.c = c; \x7d \x7d " ++
    "class C < B \x7b\x7d var i = C(1).init;")),
    (60, .run "var j = i(2);")]

/-- A call with one argument. -/
def oneArgumentCall (callee : Value) : Eval Value :=
  Eval.call 40 ⟨.symbol .rightParen, ")", 1⟩ callee [.bool true]

def Outcome.isOk {α : Type} : Outcome α → Bool
  | .ok _ _ => true
  | _ => false

/-- The second function is an initializer that is bound to the first instance. It can be called, and
so can the third class. -/
def Machine.isInitializing (m : Machine) : Bool :=
  m.heap.functions.size == 2 && (m.heap.function 1).isInitializer &&
    m.heap.getLocal? (m.heap.function 1).closure "this" == some (.inst 0) &&
    (oneArgumentCall (.function 1) m).isOk && (oneArgumentCall (.cls 2) m).isOk

theorem Outcome.exists_of_isOk {o : Outcome α} (h : o.isOk = true) :
    ∃ a final, o = .ok a final := by
  cases o with
  | ok a final => exact ⟨a, final, rfl⟩
  | _ => cases h

/-- The function gives the first instance, the class a new one, and the function is bound as before
when the history ends. -/
theorem kept_initializer_gives_its_instance :
    let states := (Session.new (Clock.readingsFrom 0) false).moments initializingHistory
    ∃ x ∈ states.dropLast, ∃ y ∈ states.getLast?,
      x.machine.heap.scopes.size < y.machine.heap.scopes.size ∧
        (∃ final, oneArgumentCall (.function 1) x.machine = .ok (.inst 0) final) ∧
        (∃ o final, oneArgumentCall (.cls 2) x.machine = .ok (.inst o) final ∧
          x.machine.Constructs 2 [.bool true] o final) ∧
        y.machine.heap.BindsInitializer 1 0 := by
  intro states
  have hany : states.dropLast.any (fun x => x.machine.isInitializing &&
      states.getLast?.any fun y =>
        decide (x.machine.heap.scopes.size < y.machine.heap.scopes.size)) = true := by
    decide +kernel
  obtain ⟨x, hx, hboth⟩ := List.any_eq_true.mp hany
  obtain ⟨hinit, hlast⟩ := Bool.and_eq_true_iff.mp hboth
  obtain ⟨y, hy, hsize⟩ := (Option.any_eq_true _ _).mp hlast
  simp only [Machine.isInitializing, Bool.and_eq_true, beq_iff_eq] at hinit
  obtain ⟨⟨⟨⟨hcount, hflag⟩, hthis⟩, hcall⟩, hclass⟩ := hinit
  have hhas : x.machine.heap.Has (.function 1) := lt_of_lt_of_eq Nat.one_lt_two hcount.symm
  have hbinds : x.machine.heap.BindsInitializer 1 0 := ⟨hhas, hflag, hthis⟩
  obtain ⟨hstates, hpairs⟩ :=
    initializers_give_their_instances (Clock.readingsFrom 0) false initializingHistory
  have hholds := hstates x (List.mem_of_mem_dropLast hx)
  refine ⟨x, hx, y, hy, of_decide_eq_true hsize, ?_, ?_, ?_⟩
  · obtain ⟨v, final, hok⟩ := Outcome.exists_of_isOk hcall
    have hv := hholds.call 1 0 hbinds 40 ⟨.symbol .rightParen, ")", 1⟩ [.bool true]
    rw [show Eval.call 40 _ _ _ _ = _ from hok] at hv
    exact ⟨final, hok.trans (congrArg (Outcome.ok · final) hv)⟩
  · obtain ⟨v, final, hok⟩ := Outcome.exists_of_isOk hclass
    have hv := hholds.construct 40 ⟨.symbol .rightParen, ")", 1⟩ 2 [.bool true]
    rw [show Eval.call 40 _ _ _ _ = _ from hok] at hv
    obtain ⟨o, rfl, hnew⟩ := hv
    exact ⟨o, final, hok, hnew⟩
  · have hsplit : states = states.dropLast ++ [y] := (List.dropLast_append_getLast? y hy).symm
    change states.Pairwise _ at hpairs
    rw [hsplit, List.pairwise_append] at hpairs
    obtain ⟨-, -, hlater⟩ := hpairs
    exact (hlater x hx y (List.mem_singleton_self y)).2 1 0 hbinds

end Lox
