import Lox.Proofs.Evaluation.Changes
import Lox.Proofs.Scoping.Names

/-!
# What endures

No variable is spelled like `this` or `super`. So whatever a program binds, a scope that exists
keeps what it binds these two names to (`Heap.Retains`). `Heap.Endures` adds the rest of what never
becomes something else: functions and classes stay as they are, and instances stay in their class.
All this endures every change that evaluation makes (`Change.endures`).
-/

namespace Lox

/-- The heap grows, and `this` and `super` keep their values. -/
structure Heap.Retains (h h' : Heap) : Prop where
  grown : h.Extends h'
  implicit : ∀ s x, IsImplicit x → s < h.scopes.size → h'.getLocal? s x = h.getLocal? s x

/-- Nothing that exists becomes something else. -/
structure Heap.Endures (h h' : Heap) : Prop where
  scopes : h.Retains h'
  kept : h.Kept h'
  functions : ∀ id, h.Has (.function id) → h'.function id = h.function id
  classes : ∀ id, h.Has (.cls id) → h'.cls id = h.cls id
  instances : ∀ id, h.Has (.inst id) → (h'.inst id).cls = (h.inst id).cls

namespace Heap

variable {h h' h'' : Heap}

theorem Retains.refl (h : Heap) : h.Retains h := ⟨.refl h, fun _ _ _ _ => rfl⟩

theorem Retains.trans (h12 : h.Retains h') (h23 : h'.Retains h'') : h.Retains h'' where
  grown := h12.grown.trans h23.grown
  implicit s x hx hs :=
    (h23.implicit s x hx (lt_of_lt_of_le hs h12.grown.size)).trans (h12.implicit s x hx hs)

theorem retains_of_scopes (heq : h'.scopes = h.scopes) : h.Retains h' where
  grown := extends_of_scopes heq
  implicit s x _ _ := by simp only [getLocal?, scope, heq]

theorem retains_newScope (h : Heap) (scope : Scope) : h.Retains (h.newScope scope).2 where
  grown := h.extends_newScope scope
  implicit s x _ hs := by rw [getLocal?_newScope, if_neg (Nat.ne_of_lt hs)]

theorem retains_define (h : Heap) (s : ScopeId) {name : String} (hname : ¬IsImplicit name)
    (v : Value) : h.Retains (h.define s name v) where
  grown := h.extends_define s name v
  implicit s' x hx _ := by
    rw [getLocal?_define, if_neg]
    exact fun heq => hname (heq.2 ▸ hx)

theorem Retains.getLocal? (hr : h.Retains h') {s : ScopeId} {x : String} {v : Value}
    (hx : IsImplicit x) (hv : h.getLocal? s x = some v) : h'.getLocal? s x = some v := by
  rw [hr.implicit s x hx (h.lt_size_of_getLocal? (by rw [hv]; rfl)), hv]

theorem Endures.refl (h : Heap) : h.Endures h :=
  ⟨.refl h, .refl h, fun _ _ => rfl, fun _ _ => rfl, fun _ _ => rfl⟩

theorem Endures.trans (h12 : h.Endures h') (h23 : h'.Endures h'') : h.Endures h'' where
  scopes := h12.scopes.trans h23.scopes
  kept := h12.kept.trans h23.kept
  functions id hid := (h23.functions id (h12.kept _ hid)).trans (h12.functions id hid)
  classes id hid := (h23.classes id (h12.kept _ hid)).trans (h12.classes id hid)
  instances id hid := (h23.instances id (h12.kept _ hid)).trans (h12.instances id hid)

theorem endures_newScope (s : Scope) : h.Endures (h.newScope s).2 :=
  ⟨h.retains_newScope s, kept_newScope s, fun _ _ => rfl, fun _ _ => rfl, fun _ _ => rfl⟩

theorem endures_define (s : ScopeId) {name : String} (hname : ¬IsImplicit name) (v : Value) :
    h.Endures (h.define s name v) :=
  ⟨h.retains_define s hname v, kept_define s name v, fun _ _ => rfl, fun _ _ => rfl,
    fun _ _ => rfl⟩

theorem endures_newFunction (f : Function) : h.Endures (h.newFunction f).2 where
  scopes := retains_of_scopes rfl
  kept := kept_newFunction f
  functions id hid := by rw [function_newFunction, if_neg (Nat.ne_of_lt hid)]
  classes _ _ := rfl
  instances _ _ := rfl

theorem endures_newClass (c : Class) : h.Endures (h.newClass c).2 where
  scopes := retains_of_scopes rfl
  kept := kept_newClass c
  functions _ _ := rfl
  classes id hid := by rw [cls_newClass, if_neg (Nat.ne_of_lt hid)]
  instances _ _ := rfl

theorem endures_newInstance (i : Instance) : h.Endures (h.newInstance i).2 where
  scopes := retains_of_scopes rfl
  kept := kept_newInstance i
  functions _ _ := rfl
  classes _ _ := rfl
  instances id hid := by rw [inst_newInstance, if_neg (Nat.ne_of_lt hid)]

theorem endures_setField (o : InstanceId) (name : String) (v : Value) :
    h.Endures (h.setField o name v) where
  scopes := retains_of_scopes rfl
  kept := kept_setField o name v
  functions _ _ := rfl
  classes _ _ := rfl
  instances id _ := by
    rw [inst_setField]
    split <;> rfl

end Heap

/-! ### Changes -/

variable {past : List Moment} {m m' : Machine} {t : Task} {act : Act} {needs gives : List Fact}

/-- All that exists endures what evaluation does, if it binds no variable like `this` or
`super`. -/
theorem Change.endures (hc : Change past m t act needs m' gives)
    (hname : ∀ name, t.bound? = some name → ¬IsImplicit name.lexeme) :
    m.heap.Endures m'.heap := by
  cases hc with
  | define hbound v => exact Heap.endures_define _ (hname _ hbound) v
  | assign hbound _ _ v => exact Heap.endures_define _ (hname _ hbound) v
  | writes _ o x v => exact Heap.endures_setField o x v
  | creates _ c => exact Heap.endures_newInstance _
  | closes _ origin f => exact Heap.endures_newFunction f
  | declares _ d => exact Heap.endures_newClass _
  | block => exact Heap.endures_newScope _
  | frame => exact Heap.endures_newScope _
  | receiver => exact Heap.endures_newScope _
  | parent => exact Heap.endures_newScope _
  | _ => exact .refl _

theorem Change.distances (hc : Change past m t act needs m' gives) :
    m'.distances = m.distances := by
  cases hc <;> rfl

theorem Change.globals (hc : Change past m t act needs m' gives) : m'.globals = m.globals := by
  cases hc <;> rfl

/-- What exists at each of some moments endures at all later ones, and on the machine `m`. -/
def Moment.Enduring (past : List Moment) (m : Machine) : Prop :=
  past.Pairwise (fun x y => x.machine.heap.Endures y.machine.heap) ∧
    ∀ x ∈ past, x.machine.heap.Endures m.heap

theorem Moment.Enduring.concat (h : Moment.Enduring past m) {x : Moment}
    (hx : m.heap.Endures x.machine.heap) : Moment.Enduring (past ++ [x]) x.machine := by
  have hpast : ∀ y ∈ past, y.machine.heap.Endures x.machine.heap :=
    fun y hy => (h.2 y hy).trans hx
  refine ⟨List.pairwise_append.mpr ⟨h.1, List.pairwise_singleton _ _, fun y hy z hz => ?_⟩, ?_⟩
  · rw [List.mem_singleton.mp hz]
    exact hpast y hy
  · exact List.forall_mem_append.mpr ⟨hpast, List.forall_mem_singleton.mpr (.refl _)⟩

end Lox
