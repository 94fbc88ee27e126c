import Lox.Proofs.Renaming.Code
import Lox.Proofs.Evaluation.Methods

/-!
# Machines on code and renamed code

Two machines that run a program and the renamed program side by side create the same scopes,
functions, classes and instances in the same order, so that their values are equal. They differ in
two ways only: in a marked scope the old name and the new one have changed places, and the code of a
function is renamed code.

Which scopes are marked is said by a `Marking`. That code runs in scopes that are marked like the
scopes around it in the tree is said by `Along`; a function carries this for the scope it closes
over.
-/

namespace Lox

/-- For each scope on the heap, whether its variable is renamed. -/
abbrev Marking := ScopeId → Bool

/-- The scopes from `sid` outwards are marked as listed, and not at all beyond the list. -/
def Along (T : Marking) (h : Heap) (sid : ScopeId) (marks : Marks) : Prop :=
  ∀ k s, h.ancestor? sid k = some s → s < h.scopes.size ∧ T s = marks.getD k false

/-- The marking that goes on with a new scope. -/
def Marking.push (T : Marking) (h : Heap) (marked : Bool) : Marking :=
  fun s => if s = h.scopes.size then marked else T s

/-- The scopes on a heap are marked as before. -/
def Marking.Continues (T : Marking) (h : Heap) (T₁ : Marking) : Prop :=
  ∀ s < h.scopes.size, T₁ s = T s

variable {ρ : Exchange} {T T₁ T₂ : Marking} {h h' h₁ h₁' : Heap} {sid : ScopeId} {marks : Marks}
  {marked : Bool}

/-! ### Marked scopes -/

theorem Marking.Continues.refl (T : Marking) (h : Heap) : T.Continues h T := fun _ _ => rfl

theorem Marking.continues_push (T : Marking) (h : Heap) (marked : Bool) :
    T.Continues h (T.push h marked) := by
  intro s hs
  rw [Marking.push, if_neg (Nat.ne_of_lt hs)]

namespace Along

theorem lt_size (ha : Along T h sid marks) : sid < h.scopes.size := (ha 0 sid rfl).1

theorem head (ha : Along T h sid marks) : T sid = marks.headD false := by
  rw [(ha 0 sid rfl).2]
  cases marks <;> rfl

theorem outer (ha : Along T h sid marks) {outer : ScopeId}
    (ho : (h.scope sid).enclosing = some outer) : Along T h outer marks.tail := by
  intro k s hs
  have hnext : h.ancestor? sid (k + 1) = some s := by
    rw [Heap.ancestor?, ho]
    exact hs
  obtain ⟨hlt, hmark⟩ := ha (k + 1) s hnext
  refine ⟨hlt, hmark.trans ?_⟩
  cases marks <;> simp

theorem of_extends (ha : Along T h sid marks) (he : h.Extends h₁) (hc : T.Continues h T₁) :
    Along T₁ h₁ sid marks := by
  have hsame : ∀ k sid marks, Along T h sid marks → h₁.ancestor? sid k = h.ancestor? sid k := by
    intro k
    induction k with
    | zero => exact fun _ _ _ => rfl
    | succ k ih =>
      intro sid marks ha
      rw [Heap.ancestor?, Heap.ancestor?, he.enclosing sid ha.lt_size]
      cases ho : (h.scope sid).enclosing with
      | none => rfl
      | some outer => exact ih outer _ (ha.outer ho)
  intro k s hs
  rw [hsame k sid marks ha] at hs
  obtain ⟨hlt, hmark⟩ := ha k s hs
  exact ⟨lt_of_lt_of_le hlt he.size, (hc s hlt).trans hmark⟩

theorem push (ha : Along T h sid marks) (values : Table Value) (marked : Bool) :
    Along (T.push h marked) (h.newScope ⟨values, some sid⟩).2 h.scopes.size (marked :: marks) := by
  intro k s hs
  cases k with
  | zero =>
    rw [Heap.ancestor?, Option.some.injEq] at hs
    subst hs
    exact ⟨by simp [Heap.newScope], by simp [Marking.push]⟩
  | succ k =>
    rw [Heap.ancestor?, Heap.scope_newScope_self] at hs
    exact ha.of_extends (h.extends_newScope _) (T.continues_push h marked) k s hs

theorem holder? {sid s : ScopeId} {x : String} (ha : Along T h sid [])
    (hs : h.holder? sid x = some s) : T s = false := by
  fun_induction Heap.holder? h sid x with
  | case1 sid hx =>
    rw [Option.some.injEq] at hs
    rw [← hs]
    exact ha.head
  | case2 sid hx outer ho hlt ih => exact ih (ha.outer ho) hs
  | case3 sid hx outer ho hlt => simp at hs
  | case4 sid hx ho => simp at hs

end Along

/-! ### Functions and classes -/

/-- A function and its renaming. Between the scope it closes over and its code lie scopes that are
marked as `inner` lists. -/
structure Function.Renamed (ρ : Exchange) (T : Marking) (h : Heap) (inner : Marks)
    (f f' : Function) : Prop where
  code : ∃ marks, Along T h f.closure marks ∧ f.decl.Renamed ρ (inner ++ marks) f'.decl
  closure : f'.closure = f.closure
  isInitializer : f'.isInitializer = f.isInitializer

/-- A class and its renaming. The code of a method lies in a scope with `this`. -/
structure Class.Renamed (ρ : Exchange) (T : Marking) (h : Heap) (c c' : Class) : Prop where
  name : c'.name = c.name
  superclass : c'.superclass = c.superclass
  methods : ∀ x,
    Option.Rel (Function.Renamed ρ T h [false]) (c.methods.find? x) (c'.methods.find? x)

theorem FunDecl.Renamed.arity {d d' : FunDecl} (h : d.Renamed ρ marks d') :
    d'.arity = d.arity := by
  cases h with
  | mk name marked hparams h => exact hparams.length_eq.symm

theorem FunDecl.Renamed.isInitializer {d d' : FunDecl} (h : d.Renamed ρ marks d') :
    d'.isInitializer = d.isInitializer := by
  rw [FunDecl.isInitializer, FunDecl.isInitializer, h.name]

section Functions

variable {inner : Marks} {f f' : Function}

theorem Function.Renamed.of_extends (hf : f.Renamed ρ T h inner f') (he : h.Extends h₁)
    (hc : T.Continues h T₁) : f.Renamed ρ T₁ h₁ inner f' := by
  obtain ⟨⟨marks, ha, hcode⟩, hclosure, hinit⟩ := hf
  exact ⟨⟨marks, ha.of_extends he hc, hcode⟩, hclosure, hinit⟩

theorem Function.Renamed.name (hf : f.Renamed ρ T h inner f') : f'.name = f.name := by
  obtain ⟨⟨marks, -, hcode⟩, -, -⟩ := hf
  rw [Function.name, Function.name, hcode.name]

theorem Function.Renamed.arity (hf : f.Renamed ρ T h inner f') : f'.arity = f.arity := by
  obtain ⟨⟨marks, -, hcode⟩, -, -⟩ := hf
  rw [Function.arity, Function.arity, hcode.arity]

theorem Class.Renamed.of_extends {c c' : Class} (hcls : c.Renamed ρ T h c') (he : h.Extends h₁)
    (hc : T.Continues h T₁) : c.Renamed ρ T₁ h₁ c' := by
  refine ⟨hcls.name, hcls.superclass, fun x => ?_⟩
  have hmethods := hcls.methods x
  generalize c.methods.find? x = f, c'.methods.find? x = f' at hmethods ⊢
  cases hmethods with
  | none => exact .none
  | some hf => exact .some (hf.of_extends he hc)

end Functions

/-! ### Heaps -/

/-- A heap and the heap of the renamed program. -/
structure Heap.Renamed (ρ : Exchange) (T : Marking) (h h' : Heap) : Prop where
  scopes : h'.scopes.size = h.scopes.size
  enclosing : ∀ s, (h'.scope s).enclosing = (h.scope s).enclosing
  values : ∀ s x, h'.getLocal? s (ρ.keys (T s) x) = h.getLocal? s x
  functionCount : h'.functions.size = h.functions.size
  functions : ∀ id, (h.function id).Renamed ρ T h [] (h'.function id)
  classCount : h'.classes.size = h.classes.size
  classes : ∀ id, (h.cls id).Renamed ρ T h (h'.cls id)
  instances : h'.instances = h.instances

namespace Heap.Renamed

theorem ancestor? (hr : h.Renamed ρ T h') (sid : ScopeId) (k : Nat) :
    h'.ancestor? sid k = h.ancestor? sid k := by
  induction k generalizing sid with
  | zero => rfl
  | succ k ih =>
    rw [Heap.ancestor?, Heap.ancestor?, hr.enclosing]
    cases (h.scope sid).enclosing with
    | none => rfl
    | some outer => exact ih outer

theorem getAt? (hr : h.Renamed ρ T h') (ha : Along T h sid marks) (k : Nat) (x : String) :
    h'.getAt? sid k (ρ.keys (marks.getD k false) x) = h.getAt? sid k x := by
  unfold Heap.getAt?
  rw [hr.ancestor?]
  cases hs : h.ancestor? sid k with
  | none => rfl
  | some s =>
    rw [← (ha k s hs).2]
    exact hr.values s x

theorem holderAt? (hr : h.Renamed ρ T h') (ha : Along T h sid marks) (k : Nat) (x : String) :
    h'.holderAt? sid k (ρ.keys (marks.getD k false) x) = h.holderAt? sid k x := by
  have hs' := hr.ancestor? sid k
  cases hs : h.ancestor? sid k with
  | none =>
    rw [hs] at hs'
    simp only [Heap.holderAt?, hs, hs']
  | some s =>
    rw [hs] at hs'
    rw [Heap.holderAt?_eq _ hs, Heap.holderAt?_eq _ hs', ← (ha k s hs).2, hr.values s x]

theorem holder? (hr : h.Renamed ρ T h') {sid : ScopeId} (x : String) (ha : Along T h sid []) :
    h'.holder? sid x = h.holder? sid x := by
  have hvalues : h'.getLocal? sid x = h.getLocal? sid x := by
    have hkeys := hr.values sid x
    rwa [ha.head] at hkeys
  fun_induction Heap.holder? h sid x with
  | case1 sid hx =>
    rw [Heap.holder?_of_getLocal?]
    rw [hvalues]
    exact hx
  | case2 sid hx outer ho hlt ih =>
    have houter := ha.outer ho
    rw [Heap.holder?, Heap.contains_iff_getLocal?, hvalues, ← Heap.contains_iff_getLocal?,
      if_neg hx, hr.enclosing]
    simp only [ho, if_pos hlt]
    refine ih houter ?_
    have hkeys := hr.values outer x
    rwa [houter.head] at hkeys
  | case3 sid hx outer ho hlt =>
    rw [Heap.holder?, Heap.contains_iff_getLocal?, hvalues, ← Heap.contains_iff_getLocal?,
      if_neg hx, hr.enclosing]
    simp only [ho, if_neg hlt]
  | case4 sid hx ho =>
    rw [Heap.holder?, Heap.contains_iff_getLocal?, hvalues, ← Heap.contains_iff_getLocal?,
      if_neg hx, hr.enclosing]
    simp only [ho]

theorem get? (hr : h.Renamed ρ T h') (x : String) (ha : Along T h sid []) :
    h'.get? sid x = h.get? sid x := by
  unfold Heap.get?
  rw [hr.holder? x ha]
  cases hs : h.holder? sid x with
  | none => rfl
  | some s =>
    have hkeys := hr.values s x
    rwa [ha.holder? hs] at hkeys

theorem findMethod? (hr : h.Renamed ρ T h') (id : ClassId) (x : String) :
    Option.Rel (Function.Renamed ρ T h [false]) (h.findMethod? id x) (h'.findMethod? id x) := by
  have hmethods := (hr.classes id).methods x
  fun_induction Heap.findMethod? h id x with
  | case1 id f hf =>
    rw [hf] at hmethods
    rw [Heap.findMethod?]
    generalize (h'.cls id).methods.find? x = f' at hmethods ⊢
    cases hmethods with
    | some hfun => exact .some hfun
  | case2 id hf parent hparent hlt ih =>
    rw [hf] at hmethods
    rw [Heap.findMethod?.eq_def h' id x, (hr.classes id).superclass, hparent]
    generalize (h'.cls id).methods.find? x = f' at hmethods ⊢
    cases hmethods with
    | none =>
      simp only [if_pos hlt]
      exact ih ((hr.classes parent).methods x)
  | case3 id hf parent hparent hlt =>
    rw [hf] at hmethods
    rw [Heap.findMethod?.eq_def h' id x, (hr.classes id).superclass, hparent]
    generalize (h'.cls id).methods.find? x = f' at hmethods ⊢
    cases hmethods with
    | none =>
      simp only [if_neg hlt]
      exact .none
  | case4 id hf hparent =>
    rw [hf] at hmethods
    rw [Heap.findMethod?.eq_def h' id x, (hr.classes id).superclass, hparent]
    generalize (h'.cls id).methods.find? x = f' at hmethods ⊢
    cases hmethods with
    | none => exact .none

/-! ### Changes -/

/-- The relation survives every change that adds no function and no class. -/
theorem change (hr : h.Renamed ρ T h') (he : h.Extends h₁) (hc : T.Continues h T₁)
    (hscopes : h₁'.scopes.size = h₁.scopes.size)
    (henclosing : ∀ s, (h₁'.scope s).enclosing = (h₁.scope s).enclosing)
    (hvalues : ∀ s x, h₁'.getLocal? s (ρ.keys (T₁ s) x) = h₁.getLocal? s x)
    (hobjects : h₁.functions = h.functions ∧ h₁.classes = h.classes)
    (hobjects' : h₁'.functions = h'.functions ∧ h₁'.classes = h'.classes)
    (hinstances : h₁'.instances = h₁.instances) : h₁.Renamed ρ T₁ h₁' where
  scopes := hscopes
  enclosing := henclosing
  values := hvalues
  functionCount := by rw [hobjects.1, hobjects'.1, hr.functionCount]
  functions id := by
    rw [Heap.function, Heap.function, hobjects.1, hobjects'.1]
    exact (hr.functions id).of_extends he hc
  classCount := by rw [hobjects.2, hobjects'.2, hr.classCount]
  classes id := by
    rw [Heap.cls, Heap.cls, hobjects.2, hobjects'.2]
    exact (hr.classes id).of_extends he hc
  instances := hinstances

theorem define (hr : h.Renamed ρ T h') (s : ScopeId) {x x' : String} (hx : x' = ρ.keys (T s) x)
    (v : Value) : (h.define s x v).Renamed ρ T (h'.define s x' v) := by
  refine hr.change (h.extends_define s x v) (.refl T h) ?_ ?_ ?_ ⟨rfl, rfl⟩ ⟨rfl, rfl⟩ hr.instances
  · rw [Heap.size_define, Heap.size_define, hr.scopes]
  · intro other
    rw [Heap.enclosing_define, Heap.enclosing_define, hr.enclosing]
  · intro other z
    rw [Heap.getLocal?_define, Heap.getLocal?_define, hr.scopes, hr.values, hx]
    by_cases hs : other = s
    · subst hs
      simp only [(ρ.keys (T other)).apply_eq_iff_eq]
    · simp [hs]

theorem newScope (hr : h.Renamed ρ T h') (enclosing : ScopeId) {values values' : Table Value}
    (hvalues : ∀ x, values'.find? (ρ.keys marked x) = values.find? x) :
    (h.newScope ⟨values, some enclosing⟩).2.Renamed ρ (T.push h marked)
      (h'.newScope ⟨values', some enclosing⟩).2 := by
  refine hr.change (h.extends_newScope _) (T.continues_push h marked) ?_ ?_ ?_ ⟨rfl, rfl⟩ ⟨rfl, rfl⟩
    hr.instances
  · simp [Heap.newScope, hr.scopes]
  · intro s
    rw [Heap.scope_newScope, Heap.scope_newScope, hr.scopes]
    split_ifs
    · rfl
    · exact hr.enclosing s
  · intro s x
    rw [Heap.getLocal?_newScope, Heap.getLocal?_newScope, hr.scopes, Marking.push]
    split_ifs
    · exact hvalues x
    · exact hr.values s x

theorem newFunction (hr : h.Renamed ρ T h') {f f' : Function} (hf : f.Renamed ρ T h [] f') :
    (h.newFunction f).2.Renamed ρ T (h'.newFunction f').2 := by
  have he : h.Extends (h.newFunction f).2 := Heap.extends_of_scopes rfl
  exact
    { scopes := hr.scopes
      enclosing := hr.enclosing
      values := hr.values
      functionCount := by simp [Heap.newFunction, hr.functionCount]
      functions := fun id => by
        rw [Heap.function_newFunction, Heap.function_newFunction, hr.functionCount]
        split_ifs
        · exact hf.of_extends he (.refl T h)
        · exact (hr.functions id).of_extends he (.refl T h)
      classCount := hr.classCount
      classes := fun id => (hr.classes id).of_extends he (.refl T h)
      instances := hr.instances }

theorem newClass (hr : h.Renamed ρ T h') {c c' : Class} (hcls : c.Renamed ρ T h c') :
    (h.newClass c).2.Renamed ρ T (h'.newClass c').2 := by
  have he : h.Extends (h.newClass c).2 := Heap.extends_of_scopes rfl
  exact
    { scopes := hr.scopes
      enclosing := hr.enclosing
      values := hr.values
      functionCount := hr.functionCount
      functions := fun id => (hr.functions id).of_extends he (.refl T h)
      classCount := by simp [Heap.newClass, hr.classCount]
      classes := fun id => by
        rw [Heap.cls_newClass, Heap.cls_newClass, hr.classCount]
        split_ifs
        · exact hcls.of_extends he (.refl T h)
        · exact (hr.classes id).of_extends he (.refl T h)
      instances := hr.instances }

theorem newInstance (hr : h.Renamed ρ T h') (i : Instance) :
    (h.newInstance i).2.Renamed ρ T (h'.newInstance i).2 := by
  refine hr.change (Heap.extends_of_scopes rfl) (.refl T h) hr.scopes hr.enclosing hr.values
    ⟨rfl, rfl⟩ ⟨rfl, rfl⟩ ?_
  simp [Heap.newInstance, hr.instances]

theorem setField (hr : h.Renamed ρ T h') (id : InstanceId) (x : String) (v : Value) :
    (h.setField id x v).Renamed ρ T (h'.setField id x v) := by
  refine hr.change (Heap.extends_of_scopes rfl) (.refl T h) hr.scopes hr.enclosing hr.values
    ⟨rfl, rfl⟩ ⟨rfl, rfl⟩ ?_
  simp [Heap.setField, hr.instances]

theorem display (hr : h.Renamed ρ T h') (v : Value) : h'.display v = h.display v := by
  have hinst : ∀ id, h'.inst id = h.inst id := fun id => by rw [Heap.inst, Heap.inst, hr.instances]
  cases v with
  | function id => rw [Heap.display, Heap.display, (hr.functions id).name]
  | cls id => rw [Heap.display, Heap.display, (hr.classes id).name]
  | inst id => rw [Heap.display, Heap.display, hinst, (hr.classes _).name]
  | bool b => cases b <;> rfl
  | _ => rfl

end Heap.Renamed

/-! ### Machines -/

/-- A machine and the machine of the renamed program. -/
structure Machine.Renamed (ρ : Exchange) (T : Marking) (m m' : Machine) : Prop where
  heap : m.heap.Renamed ρ T m'.heap
  /-- No global scope is marked. -/
  root : Along T m.heap m.globals []
  globals : m'.globals = m.globals
  current : m'.current = m.current
  recorded : m.distances = ρ.distances
  distances : m'.distances = m.distances
  clock : m'.clock = m.clock
  output : m'.output = m.output

/-- What a computation keeps of a machine and its marking. -/
structure Later (T : Marking) (m : Machine) (T₁ : Marking) (m₁ : Machine) : Prop where
  current : m₁.current = m.current
  heap : m.heap.Extends m₁.heap
  continues : T.Continues m.heap T₁

theorem Later.refl (T : Marking) (m : Machine) : Later T m T m := ⟨rfl, .refl _, .refl T m.heap⟩

theorem Later.trans {m m₁ m₂ : Machine} (h1 : Later T m T₁ m₁) (h2 : Later T₁ m₁ T₂ m₂) :
    Later T m T₂ m₂ :=
  ⟨h2.current.trans h1.current, h1.heap.trans h2.heap, fun s hs =>
    (h2.continues s (lt_of_lt_of_le hs h1.heap.size)).trans (h1.continues s hs)⟩

theorem Along.later {m m₁ : Machine} (ha : Along T m.heap sid marks) (hl : Later T m T₁ m₁) :
    Along T₁ m₁.heap sid marks :=
  ha.of_extends hl.heap hl.continues

theorem Along.current {m m₁ : Machine} (ha : Along T m.heap m.current marks)
    (hl : Later T m T₁ m₁) : Along T₁ m₁.heap m₁.current marks := by
  rw [hl.current]
  exact ha.later hl

end Lox
