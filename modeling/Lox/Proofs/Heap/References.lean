import Mathlib.Logic.Relation
import Lox.Proofs.Heap.Objects
import Lox.Proofs.Tree.Nodes

/-!
# References

A `Ref` is a handle to something in the heap. `Heap.Points` is the graph that the heap forms: a
scope points to the scope around it and to its values, a function and a method to the scope they
close over, a class to its superclass, an instance to its class and to its fields. Through values
this graph may well have cycles.

`Heap.Sound` is what holds of every heap that a program builds up. Nothing points to what does not
exist. All scopes but the global one lie in a scope created earlier, and superclasses are created
before their subclasses, so the walks outwards and upwards, which follow these edges only, come to
an end. It is kept by every change whose new references exist (`Heap.Sound.define` and the others).
-/

namespace Lox

/-- A handle to something in the heap. -/
inductive Ref where
  | scope (id : ScopeId)
  | function (id : FunctionId)
  | cls (id : ClassId)
  | inst (id : InstanceId)
  deriving DecidableEq

/-- The object that a value is a handle to. -/
def Value.refs : Value → List Ref
  | .function id => [.function id]
  | .cls id => [.cls id]
  | .inst id => [.inst id]
  | _ => []

@[simp] theorem Literal.refs_toValue (l : Literal) : l.toValue.refs = [] := by
  cases l <;> rfl

namespace Heap

/-- A handle leads to something that has been created. -/
def Has (h : Heap) : Ref → Prop
  | .scope id => id < h.scopes.size
  | .function id => id < h.functions.size
  | .cls id => id < h.classes.size
  | .inst id => id < h.instances.size

def HasAll (h : Heap) (refs : List Ref) : Prop := ∀ r ∈ refs, h.Has r

/-- All values in a table exist. -/
def HasValues (h : Heap) (values : Table Value) : Prop :=
  ∀ x v, values.find? x = some v → h.HasAll v.refs

/-- What something in the heap refers to. -/
inductive Points (h : Heap) : Ref → Ref → Prop where
  | enclosing {s outer : ScopeId} :
    (h.scope s).enclosing = some outer → Points h (.scope s) (.scope outer)
  | value {s : ScopeId} {x : String} {v : Value} {r : Ref} :
    h.getLocal? s x = some v → r ∈ v.refs → Points h (.scope s) r
  | closure (f : FunctionId) : Points h (.function f) (.scope (h.function f).closure)
  | superclass {c parent : ClassId} :
    (h.cls c).superclass = some parent → Points h (.cls c) (.cls parent)
  | method {c : ClassId} {x : String} {f : Function} :
    (h.cls c).methods.find? x = some f → Points h (.cls c) (.scope f.closure)
  | cls (i : InstanceId) : Points h (.inst i) (.cls (h.inst i).cls)
  | field {i : InstanceId} {x : String} {v : Value} {r : Ref} :
    (h.inst i).fields.find? x = some v → r ∈ v.refs → Points h (.inst i) r

/-- What can be got at from a handle. -/
def Reaches (h : Heap) : Ref → Ref → Prop := Relation.ReflTransGen h.Points

/-- A walk outwards from a scope in search of a name, and the scope it ends at. Nothing bounds its
length. -/
inductive Searches (h : Heap) (x : String) : ScopeId → Option ScopeId → Prop where
  | found {s : ScopeId} : (h.scope s).values.contains x = true → Searches h x s (some s)
  | outwards {s outer : ScopeId} {r : Option ScopeId} : (h.scope s).values.contains x = false →
    (h.scope s).enclosing = some outer → Searches h x outer r → Searches h x s r
  | failed {s : ScopeId} : (h.scope s).values.contains x = false →
    (h.scope s).enclosing = none → Searches h x s none

/-- A walk upwards from a class in search of a method, and the method it ends at. Nothing bounds its
length. -/
inductive Inherits (h : Heap) (x : String) : ClassId → Option Function → Prop where
  | own {c : ClassId} {f : Function} : (h.cls c).methods.find? x = some f →
    Inherits h x c (some f)
  | upwards {c parent : ClassId} {r : Option Function} : (h.cls c).methods.find? x = none →
    (h.cls c).superclass = some parent → Inherits h x parent r → Inherits h x c r
  | failed {c : ClassId} : (h.cls c).methods.find? x = none →
    (h.cls c).superclass = none → Inherits h x c none

/-- Nothing is lost from one heap to the other. -/
def Kept (h h' : Heap) : Prop := ∀ r, h.Has r → h'.Has r

section Kept

variable {h h' h'' : Heap} {refs refs' : List Ref}

theorem Kept.refl (h : Heap) : h.Kept h := fun _ hr => hr

theorem Kept.trans (hk : h.Kept h') (hk' : h'.Kept h'') : h.Kept h'' :=
  fun r hr => hk' r (hk r hr)

theorem Kept.hasAll (hk : h.Kept h') (hr : h.HasAll refs) : h'.HasAll refs :=
  fun r hmem => hk r (hr r hmem)

theorem Kept.hasValues (hk : h.Kept h') {values : Table Value} (hv : h.HasValues values) :
    h'.HasValues values :=
  fun x v hx => hk.hasAll (hv x v hx)

@[simp] theorem hasAll_nil (h : Heap) : h.HasAll [] := by simp [HasAll]

@[simp] theorem hasAll_cons {r : Ref} : h.HasAll (r :: refs) ↔ h.Has r ∧ h.HasAll refs := by
  simp [HasAll]

@[simp] theorem hasAll_append : h.HasAll (refs ++ refs') ↔ h.HasAll refs ∧ h.HasAll refs' := by
  simp only [HasAll, List.mem_append, or_imp, forall_and]

theorem hasValues_empty (h : Heap) : h.HasValues {} := by
  intro x v hv
  rw [Table.find?_empty] at hv
  cases hv

theorem hasValues_singleton {x : String} {v : Value} (hv : h.HasAll v.refs) :
    h.HasValues (.singleton x v) := by
  intro y w hw
  rw [Table.find?_singleton] at hw
  split_ifs at hw
  cases hw
  exact hv

theorem HasValues.insert {values : Table Value} (hvs : h.HasValues values) {v : Value}
    (hv : h.HasAll v.refs) (x : String) : h.HasValues (values.insert x v) := by
  intro y w hw
  rw [Table.find?_insert] at hw
  split_ifs at hw
  · cases hw
    exact hv
  · exact hvs y w hw

theorem has_newScope {s : Scope} {id : ScopeId} :
    (h.newScope s).2.Has (.scope id) ↔ h.Has (.scope id) ∨ id = h.scopes.size := by
  rw [Has, Has, newScope, Array.size_push]
  exact Nat.lt_succ_iff_lt_or_eq

theorem kept_newScope (s : Scope) : h.Kept (h.newScope s).2 := by
  intro r hr
  cases r with
  | scope id => exact has_newScope.mpr (.inl hr)
  | _ => exact hr

theorem has_newFunction {f : Function} {id : FunctionId} :
    (h.newFunction f).2.Has (.function id) ↔ h.Has (.function id) ∨ id = h.functions.size := by
  rw [Has, Has, newFunction, Array.size_push]
  exact Nat.lt_succ_iff_lt_or_eq

theorem kept_newFunction (f : Function) : h.Kept (h.newFunction f).2 := by
  intro r hr
  cases r with
  | function id => exact has_newFunction.mpr (.inl hr)
  | _ => exact hr

theorem has_newClass {c : Class} {id : ClassId} :
    (h.newClass c).2.Has (.cls id) ↔ h.Has (.cls id) ∨ id = h.classes.size := by
  rw [Has, Has, newClass, Array.size_push]
  exact Nat.lt_succ_iff_lt_or_eq

theorem kept_newClass (c : Class) : h.Kept (h.newClass c).2 := by
  intro r hr
  cases r with
  | cls id => exact has_newClass.mpr (.inl hr)
  | _ => exact hr

theorem has_newInstance {i : Instance} {id : InstanceId} :
    (h.newInstance i).2.Has (.inst id) ↔ h.Has (.inst id) ∨ id = h.instances.size := by
  rw [Has, Has, newInstance, Array.size_push]
  exact Nat.lt_succ_iff_lt_or_eq

theorem kept_newInstance (i : Instance) : h.Kept (h.newInstance i).2 := by
  intro r hr
  cases r with
  | inst id => exact has_newInstance.mpr (.inl hr)
  | _ => exact hr

theorem kept_define (s : ScopeId) (x : String) (v : Value) : h.Kept (h.define s x v) := by
  intro r hr
  cases r with
  | scope id => simpa only [Has, size_define] using hr
  | _ => exact hr

theorem kept_setField (i : InstanceId) (x : String) (v : Value) : h.Kept (h.setField i x v) := by
  intro r hr
  cases r with
  | inst id => simpa only [Has, size_setField] using hr
  | _ => exact hr

end Kept

end Heap

/-- A function closes over a scope that exists, and all nodes of its code satisfy `N`. -/
structure Function.Sound (N : Expr → Prop) (h : Heap) (f : Function) : Prop where
  closure : h.Has (.scope f.closure)
  code : ∀ e ∈ f.decl.nodes, N e

/-- What holds of the heap of every program. The nodes of the code in it satisfy `N`. -/
structure Heap.Sound (N : Expr → Prop) (globals : ScopeId) (h : Heap) : Prop where
  root : h.Has (.scope globals)
  outermost : (h.scope globals).enclosing = none
  inside : ∀ s, h.Has (.scope s) → s ≠ globals → ∃ outer < s, (h.scope s).enclosing = some outer
  values : ∀ s, h.HasValues (h.scope s).values
  functions : ∀ f, h.Has (.function f) → (h.function f).Sound N h
  parents : ∀ c parent, (h.cls c).superclass = some parent → parent < c
  methods : ∀ c x f, (h.cls c).methods.find? x = some f → f.Sound N h
  classes : ∀ i, h.Has (.inst i) → h.Has (.cls (h.inst i).cls)
  fields : ∀ i, h.HasValues (h.inst i).fields

theorem Function.Sound.mono {N N' : Expr → Prop} {h h' : Heap} {f : Function} (hf : f.Sound N h)
    (hN : ∀ e, N e → N' e) (hk : h.Kept h') : f.Sound N' h' :=
  ⟨hk _ hf.closure, fun e he => hN e (hf.code e he)⟩

namespace Heap.Sound

variable {N N' : Expr → Prop} {globals : ScopeId} {h h' : Heap}

theorem mono (hs : h.Sound N globals) (hN : ∀ e, N e → N' e) : h.Sound N' globals :=
  { hs with
    functions := fun f hf => (hs.functions f hf).mono hN (.refl h)
    methods := fun c x f hf => (hs.methods c x f hf).mono hN (.refl h) }

/-! ### Changes -/

theorem changeScopes (hs : h.Sound N globals) (hk : h.Kept h')
    (hfunctions : h'.functions = h.functions) (hclasses : h'.classes = h.classes)
    (hinstances : h'.instances = h.instances)
    (houtermost : (h'.scope globals).enclosing = none)
    (hinside : ∀ s, h'.Has (.scope s) → s ≠ globals →
      ∃ outer < s, (h'.scope s).enclosing = some outer)
    (hvalues : ∀ s, h'.HasValues (h'.scope s).values) : h'.Sound N globals where
  root := hk _ hs.root
  outermost := houtermost
  inside := hinside
  values := hvalues
  functions f hf := by
    rw [Heap.function, hfunctions]
    rw [Has, hfunctions] at hf
    exact (hs.functions f hf).mono (fun _ he => he) hk
  parents c parent hp := by
    rw [Heap.cls, hclasses] at hp
    exact hs.parents c parent hp
  methods c x f hf := by
    rw [Heap.cls, hclasses] at hf
    exact (hs.methods c x f hf).mono (fun _ he => he) hk
  classes i hi := by
    rw [Heap.inst, hinstances]
    rw [Has, hinstances] at hi
    exact hk _ (hs.classes i hi)
  fields i := by
    rw [Heap.inst, hinstances]
    exact hk.hasValues (hs.fields i)

theorem changeObjects (hs : h.Sound N globals) (hk : h.Kept h') (hscopes : h'.scopes = h.scopes)
    (hfunctions : h'.functions = h.functions)
    (hparents : ∀ c parent, (h'.cls c).superclass = some parent → parent < c)
    (hmethods : ∀ c x f, (h'.cls c).methods.find? x = some f → f.Sound N h')
    (hclasses : ∀ i, h'.Has (.inst i) → h'.Has (.cls (h'.inst i).cls))
    (hfields : ∀ i, h'.HasValues (h'.inst i).fields) : h'.Sound N globals where
  root := hk _ hs.root
  outermost := by
    rw [Heap.scope, hscopes]
    exact hs.outermost
  inside s hmem hne := by
    rw [Heap.scope, hscopes]
    rw [Has, hscopes] at hmem
    exact hs.inside s hmem hne
  values s := by
    rw [Heap.scope, hscopes]
    exact hk.hasValues (hs.values s)
  functions f hf := by
    rw [Heap.function, hfunctions]
    rw [Has, hfunctions] at hf
    exact (hs.functions f hf).mono (fun _ he => he) hk
  parents := hparents
  methods := hmethods
  classes := hclasses
  fields := hfields

theorem newScope (hs : h.Sound N globals) {outer : ScopeId} {values : Table Value}
    (houter : h.Has (.scope outer)) (hvalues : h.HasValues values) :
    (h.newScope ⟨values, some outer⟩).2.Sound N globals := by
  have hk := kept_newScope (h := h) ⟨values, some outer⟩
  have hroot : globals < h.scopes.size := hs.root
  refine hs.changeScopes hk rfl rfl rfl ?_ ?_ ?_
  · rw [scope_newScope_of_lt h _ hroot]
    exact hs.outermost
  · intro s hmem hne
    rw [scope_newScope]
    by_cases hnew : s = h.scopes.size
    · rw [if_pos hnew]
      exact ⟨outer, hnew ▸ houter, rfl⟩
    · rw [if_neg hnew]
      exact hs.inside s ((has_newScope.mp hmem).resolve_right hnew) hne
  · intro s
    rw [scope_newScope]
    split_ifs
    · exact hk.hasValues hvalues
    · exact hk.hasValues (hs.values s)

theorem define (hs : h.Sound N globals) (s : ScopeId) (x : String) {v : Value}
    (hv : h.HasAll v.refs) : (h.define s x v).Sound N globals := by
  have hk := kept_define (h := h) s x v
  refine hs.changeScopes hk rfl rfl rfl ?_ ?_ ?_
  · rw [enclosing_define]
    exact hs.outermost
  · intro s' hmem hne
    rw [Has, size_define] at hmem
    rw [enclosing_define]
    exact hs.inside s' hmem hne
  · intro s'
    rw [scope_define]
    split_ifs
    · exact (hk.hasValues (hs.values s')).insert (hk.hasAll hv) x
    · exact hk.hasValues (hs.values s')

theorem newFunction (hs : h.Sound N globals) {f : Function} (hf : f.Sound N h) :
    (h.newFunction f).2.Sound N globals := by
  have hk := kept_newFunction (h := h) f
  refine { hs with
    root := hk _ hs.root
    values := fun s => hk.hasValues (hs.values s)
    functions := ?_
    methods := fun c x g hg => (hs.methods c x g hg).mono (fun _ he => he) hk
    classes := fun i hi => hk _ (hs.classes i hi)
    fields := fun i => hk.hasValues (hs.fields i) }
  intro g hg
  rw [function_newFunction]
  by_cases hnew : g = h.functions.size
  · rw [if_pos hnew]
    exact hf.mono (fun _ he => he) hk
  · rw [if_neg hnew]
    have hold : h.Has (.function g) := (has_newFunction.mp hg).resolve_right hnew
    exact (hs.functions g hold).mono (fun _ he => he) hk

theorem newClass (hs : h.Sound N globals) {c : Class}
    (hparent : ∀ parent, c.superclass = some parent → h.Has (.cls parent))
    (hmethods : ∀ x f, c.methods.find? x = some f → f.Sound N h) :
    (h.newClass c).2.Sound N globals := by
  have hk := kept_newClass (h := h) c
  refine hs.changeObjects hk rfl rfl ?_ ?_ (fun i hi => hk _ (hs.classes i hi))
    (fun i => hk.hasValues (hs.fields i))
  · intro id parent hp
    rw [cls_newClass] at hp
    by_cases hnew : id = h.classes.size
    · rw [if_pos hnew] at hp
      exact hnew ▸ hparent parent hp
    · rw [if_neg hnew] at hp
      exact hs.parents id parent hp
  · intro id x f hf
    rw [cls_newClass] at hf
    split_ifs at hf
    · exact (hmethods x f hf).mono (fun _ he => he) hk
    · exact (hs.methods id x f hf).mono (fun _ he => he) hk

theorem newInstance (hs : h.Sound N globals) {c : ClassId} (hc : h.Has (.cls c)) :
    (h.newInstance ⟨c, {}⟩).2.Sound N globals := by
  have hk := kept_newInstance (h := h) ⟨c, {}⟩
  refine hs.changeObjects hk rfl rfl hs.parents
    (fun id x f hf => (hs.methods id x f hf).mono (fun _ he => he) hk) ?_ ?_
  · intro i hi
    rw [inst_newInstance]
    by_cases hnew : i = h.instances.size
    · rw [if_pos hnew]
      exact hk _ hc
    · rw [if_neg hnew]
      exact hk _ (hs.classes i ((has_newInstance.mp hi).resolve_right hnew))
  · intro i
    rw [inst_newInstance]
    split_ifs
    · exact hasValues_empty _
    · exact hk.hasValues (hs.fields i)

theorem setField (hs : h.Sound N globals) (i : InstanceId) (x : String) {v : Value}
    (hv : h.HasAll v.refs) : (h.setField i x v).Sound N globals := by
  have hk := kept_setField (h := h) i x v
  refine hs.changeObjects hk rfl rfl hs.parents
    (fun id y f hf => (hs.methods id y f hf).mono (fun _ he => he) hk) ?_ ?_
  · intro j hj
    rw [Has, size_setField] at hj
    have hcls : ((h.setField i x v).inst j).cls = (h.inst j).cls := by
      rw [inst_setField]
      split_ifs <;> rfl
    rw [hcls]
    exact hk _ (hs.classes j hj)
  · intro j
    rw [inst_setField]
    split_ifs
    · exact (hk.hasValues (hs.fields j)).insert (hk.hasAll hv) x
    · exact hk.hasValues (hs.fields j)

/-! ### Looks -/

theorem getLocal? (hs : h.Sound N globals) {s : ScopeId} {x : String} {v : Value}
    (hv : h.getLocal? s x = some v) : h.HasAll v.refs :=
  hs.values s x v hv

theorem findMethod? (hs : h.Sound N globals) {c : ClassId} {x : String} {f : Function}
    (hf : h.findMethod? c x = some f) : f.Sound N h := by
  fun_induction Heap.findMethod? h c x with
  | case1 c g hg =>
    rw [Option.some.injEq] at hf
    exact hs.methods c x f (hf ▸ hg)
  | case2 c hnone parent hparent hlt ih => exact ih hf
  | case3 => cases hf
  | case4 => cases hf

theorem has_of_points (hs : h.Sound N globals) {r r' : Ref} (hr : h.Has r) (hp : h.Points r r') :
    h.Has r' := by
  cases hp with
  | @enclosing s outer ho =>
    by_cases hg : s = globals
    · rw [hg, hs.outermost] at ho
      cases ho
    · obtain ⟨outer', hlt, ho'⟩ := hs.inside s hr hg
      rw [ho', Option.some.injEq] at ho
      exact ho ▸ hlt.trans hr
  | value hv hmem => exact hs.getLocal? hv _ hmem
  | closure f => exact (hs.functions f hr).closure
  | @superclass c parent hparent => exact (hs.parents c parent hparent).trans hr
  | method hf => exact (hs.methods _ _ _ hf).closure
  | cls i => exact hs.classes i hr
  | field hv hmem => exact hs.fields _ _ _ hv _ hmem

theorem has_of_reaches (hs : h.Sound N globals) {r r' : Ref} (hr : h.Has r)
    (hreach : h.Reaches r r') : h.Has r' := by
  induction hreach with
  | refl => exact hr
  | tail _ hp ih => exact hs.has_of_points ih hp

/-! ### Walks -/

theorem enclosing_lt (hs : h.Sound N globals) {s outer : ScopeId}
    (ho : (h.scope s).enclosing = some outer) : outer < s := by
  have hg : s ≠ globals := by
    rintro rfl
    rw [hs.outermost] at ho
    cases ho
  obtain ⟨outer', hlt, ho'⟩ := hs.inside s (lt_size_of_enclosing h ho) hg
  rw [ho', Option.some.injEq] at ho
  exact ho ▸ hlt

theorem has_ancestor (hs : h.Sound N globals) {s r : ScopeId} {k : Nat} (hmem : h.Has (.scope s))
    (hr : h.ancestor? s k = some r) : h.Has (.scope r) := by
  induction k generalizing s with
  | zero =>
    rw [Heap.ancestor?, Option.some.injEq] at hr
    exact hr ▸ hmem
  | succ k ih =>
    rw [Heap.ancestor?] at hr
    cases ho : (h.scope s).enclosing with
    | none => simp [ho] at hr
    | some outer =>
      rw [ho] at hr
      exact ih (hs.has_of_points hmem (.enclosing ho)) hr

theorem exists_depth (hs : h.Sound N globals) (s : ScopeId) (hmem : h.Has (.scope s)) :
    ∃ depth, h.ancestor? s depth = some globals ∧ ∀ k > depth, h.ancestor? s k = none := by
  induction s using Nat.strong_induction_on with
  | _ s ih =>
    by_cases hg : s = globals
    · refine ⟨0, by rw [hg]; rfl, fun k hk => ?_⟩
      obtain ⟨k, rfl⟩ := Nat.exists_eq_succ_of_ne_zero (Nat.ne_of_gt hk)
      rw [ancestor?, hg, hs.outermost]
    · obtain ⟨outer, hlt, ho⟩ := hs.inside s hmem hg
      have houter : h.Has (.scope outer) := hs.has_of_points hmem (.enclosing ho)
      obtain ⟨depth, hend, hbeyond⟩ := ih outer hlt houter
      refine ⟨depth + 1, by rw [ancestor?, ho]; exact hend, fun k hk => ?_⟩
      obtain ⟨k, rfl⟩ := Nat.exists_eq_succ_of_ne_zero (Nat.ne_of_gt (Nat.zero_lt_of_lt hk))
      rw [ancestor?, ho]
      exact hbeyond k (Nat.lt_of_succ_lt_succ hk)

/-- A walk in search of a name ends, and where it ends is the scope that `holder?` gives. -/
theorem searches_iff (hs : h.Sound N globals) {x : String} {s : ScopeId} {r : Option ScopeId} :
    h.Searches x s r ↔ h.holder? s x = r := by
  constructor
  · intro hsearch
    induction hsearch with
    | found hx => rw [holder?, if_pos hx]
    | outwards hx ho _ ih =>
      rw [holder?, hx, ho]
      simp only [Bool.false_eq_true, if_false, if_pos (hs.enclosing_lt ho)]
      exact ih
    | failed hx ho =>
      rw [holder?, hx, ho]
      rfl
  · rintro rfl
    fun_induction Heap.holder? h s x with
    | case1 s hx => exact .found hx
    | case2 s hx outer ho hlt ih => exact .outwards (by simpa using hx) ho ih
    | case3 s hx outer ho hlt => exact absurd (hs.enclosing_lt ho) hlt
    | case4 s hx ho => exact .failed (by simpa using hx) ho

/-- A walk in search of a method ends, and what it ends at is the method that `findMethod?`
gives. -/
theorem inherits_iff (hs : h.Sound N globals) {x : String} {c : ClassId} {r : Option Function} :
    h.Inherits x c r ↔ h.findMethod? c x = r := by
  constructor
  · intro hinherits
    induction hinherits with
    | own hf => rw [Heap.findMethod?, hf]
    | upwards hf hp _ ih =>
      rw [Heap.findMethod?, hf, hp]
      simp only [if_pos (hs.parents _ _ hp)]
      exact ih
    | failed hf hp => rw [Heap.findMethod?, hf, hp]
  · rintro rfl
    fun_induction Heap.findMethod? h c x with
    | case1 c f hf => exact .own hf
    | case2 c hf parent hp hlt ih => exact .upwards hf hp ih
    | case3 c hf parent hp hlt => exact absurd (hs.parents c parent hp) hlt
    | case4 c hf hp => exact .failed hf hp

end Heap.Sound

end Lox
