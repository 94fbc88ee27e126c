import Mathlib.Data.List.Forall2
import Mathlib.Data.List.Infix
import Mathlib.Logic.Equiv.Defs
import Mathlib.Tactic.Common
import Lox.Heap

/-!
# Looking at the heap after a change

Each operation on the heap is described by what every look at the result gives: creation adds one
object at the next handle, binding a name changes that name in that scope, setting a field changes
that field of that instance. Everything else is as before.

`Heap.Extends` sums up what holds of the scopes along every run: they keep the scope around them,
and names once bound stay bound.
-/

namespace Lox

namespace Table

variable {α : Type}

theorem contains_iff {t : Table α} {name : String} :
    t.contains name = true ↔ ∃ a, t.find? name = some a := by
  rw [contains, Option.isSome_iff_exists]

theorem contains_insert (t : Table α) (name other : String) (a : α) :
    (t.insert name a).contains other = (decide (name = other) || t.contains other) := by
  rw [contains, contains, find?_insert]
  by_cases h : name = other <;> simp [h]

theorem mem_of_find?_insertAll {t : Table α} {entries : List (String × α)} {name : String} {a : α}
    (h : (t.insertAll entries).find? name = some a) :
    t.find? name = some a ∨ (name, a) ∈ entries := by
  induction entries generalizing t with
  | nil => exact Or.inl h
  | cons entry entries ih =>
    obtain ⟨key, b⟩ := entry
    rcases ih (t := t.insert key b) h with hfind | hmem
    · rw [find?_insert] at hfind
      split_ifs at hfind with hkey
      · rw [Option.some.injEq] at hfind
        exact Or.inr (by rw [hkey, hfind]; exact List.mem_cons_self)
      · exact Or.inl hfind
    · exact Or.inr (List.mem_cons_of_mem _ hmem)

theorem isSome_find?_insertAll {t : Table α} {entries : List (String × α)} {name : String}
    (h : (t.find? name).isSome ∨ name ∈ entries.map Prod.fst) :
    ((t.insertAll entries).find? name).isSome := by
  induction entries generalizing t with
  | nil => exact h.resolve_right (by simp)
  | cons entry entries ih =>
    obtain ⟨key, b⟩ := entry
    refine ih (t := t.insert key b) ?_
    rw [find?_insert, List.map_cons, List.mem_cons] at *
    by_cases hkey : key = name
    · simp [hkey]
    · rw [if_neg hkey]
      exact h.imp_right fun hmem => hmem.resolve_left (Ne.symm hkey)

theorem rel_insertAll {β : Type} {r : α → β → Prop} (σ : Equiv.Perm String)
    {entries : List (String × α)} {entries' : List (String × β)}
    (h : List.Forall₂ (fun e e' => e'.1 = σ e.1 ∧ r e.2 e'.2) entries entries')
    (s : Table α) (s' : Table β) (hs : ∀ x, Option.Rel r (s.find? x) (s'.find? (σ x)))
    (x : String) :
    Option.Rel r ((s.insertAll entries).find? x) ((s'.insertAll entries').find? (σ x)) := by
  induction h generalizing s s' with
  | nil => exact hs x
  | @cons e e' entries entries' hentry hrest ih =>
    refine ih (s.insert e.1 e.2) (s'.insert e'.1 e'.2) fun y => ?_
    rw [find?_insert, find?_insert, hentry.1]
    simp only [σ.apply_eq_iff_eq]
    split_ifs
    · exact .some hentry.2
    · exact hs y

end Table

namespace Heap

variable (h : Heap)

/-! ### Creation -/

theorem scope_newScope (s : Scope) (id : ScopeId) :
    (h.newScope s).2.scope id = if id = h.scopes.size then s else h.scope id := by
  simp only [scope, newScope, Array.getD_eq_getD_getElem?, Array.getElem?_push]
  split <;> rfl

@[simp] theorem scope_newScope_self (s : Scope) : (h.newScope s).2.scope h.scopes.size = s := by
  rw [scope_newScope, if_pos rfl]

theorem scope_newScope_of_lt (s : Scope) {id : ScopeId} (hid : id < h.scopes.size) :
    (h.newScope s).2.scope id = h.scope id := by
  rw [scope_newScope, if_neg (Nat.ne_of_lt hid)]

theorem scope_of_size_le {id : ScopeId} (hid : h.scopes.size ≤ id) : h.scope id = {} := by
  simp [scope, hid]

theorem function_newFunction (f : Function) (id : FunctionId) :
    (h.newFunction f).2.function id = if id = h.functions.size then f else h.function id := by
  simp only [function, newFunction, Array.getD_eq_getD_getElem?, Array.getElem?_push]
  split <;> rfl

theorem cls_newClass (c : Class) (id : ClassId) :
    (h.newClass c).2.cls id = if id = h.classes.size then c else h.cls id := by
  simp only [cls, newClass, Array.getD_eq_getD_getElem?, Array.getElem?_push]
  split <;> rfl

theorem inst_newInstance (i : Instance) (id : InstanceId) :
    (h.newInstance i).2.inst id = if id = h.instances.size then i else h.inst id := by
  simp only [inst, newInstance, Array.getD_eq_getD_getElem?, Array.getElem?_push]
  split <;> rfl

/-! ### Names -/

@[simp] theorem size_define (id : ScopeId) (name : String) (v : Value) :
    (h.define id name v).scopes.size = h.scopes.size := by
  simp [define, defineIn]

theorem scope_define (id : ScopeId) (name : String) (v : Value) (other : ScopeId) :
    (h.define id name v).scope other =
      if other = id ∧ id < h.scopes.size then
        { h.scope other with values := (h.scope other).values.insert name v }
      else h.scope other := by
  simp only [scope, define, defineIn, Array.getD_eq_getD_getElem?, Array.getElem?_modify]
  by_cases hlt : id < h.scopes.size
  · by_cases hid : id = other
    · subst hid
      simp [hlt]
    · simp [hid, Ne.symm hid]
  · by_cases hid : id = other
    · subst hid
      simp [hlt]
    · simp [hid, hlt]

@[simp] theorem enclosing_define (id : ScopeId) (name : String) (v : Value) (other : ScopeId) :
    ((h.define id name v).scope other).enclosing = (h.scope other).enclosing := by
  rw [scope_define]
  split <;> rfl

theorem getLocal?_define (id : ScopeId) (name : String) (v : Value) (other : ScopeId)
    (x : String) :
    (h.define id name v).getLocal? other x =
      if (other = id ∧ id < h.scopes.size) ∧ name = x then some v else h.getLocal? other x := by
  rw [getLocal?, scope_define]
  by_cases hid : other = id ∧ id < h.scopes.size
  · rw [if_pos hid]
    simp only [Table.find?_insert, hid, true_and, and_self]
    rfl
  · rw [if_neg hid, if_neg (fun hx => hid hx.1)]
    rfl

theorem getLocal?_newScope (s : Scope) (id : ScopeId) (x : String) :
    (h.newScope s).2.getLocal? id x =
      if id = h.scopes.size then s.values.find? x else h.getLocal? id x := by
  rw [getLocal?, scope_newScope]
  split <;> rfl

theorem getLocal?_of_size_le {id : ScopeId} (hid : h.scopes.size ≤ id) (x : String) :
    h.getLocal? id x = none := by
  rw [getLocal?, scope_of_size_le h hid]
  rfl

theorem contains_iff_getLocal? (id : ScopeId) (x : String) :
    (h.scope id).values.contains x = (h.getLocal? id x).isSome := rfl

theorem lt_size_of_getLocal? {id : ScopeId} {x : String} (hx : (h.getLocal? id x).isSome) :
    id < h.scopes.size := by
  by_contra hid
  rw [getLocal?_of_size_le h (Nat.le_of_not_lt hid)] at hx
  exact absurd hx (by simp)

theorem lt_size_of_enclosing {id outer : ScopeId} (ho : (h.scope id).enclosing = some outer) :
    id < h.scopes.size := by
  by_contra hid
  rw [scope_of_size_le h (Nat.le_of_not_lt hid)] at ho
  exact absurd ho (by simp)

theorem holder?_of_getLocal? {id : ScopeId} {x : String} (hx : (h.getLocal? id x).isSome) :
    h.holder? id x = some id := by
  rw [holder?, contains_iff_getLocal?, if_pos hx]

theorem holderAt?_eq {id s : ScopeId} {distance : Nat} {x : String}
    (ha : h.ancestor? id distance = some s) :
    h.holderAt? id distance x = if (h.getLocal? s x).isSome then some s else none := by
  rw [holderAt?, ha]
  rfl

theorem ancestor?_of_holderAt? {id s : ScopeId} {distance : Nat} {x : String}
    (hs : h.holderAt? id distance x = some s) : h.ancestor? id distance = some s := by
  unfold holderAt? at hs
  cases ha : h.ancestor? id distance with
  | none => simp [ha] at hs
  | some outer =>
    simp only [ha] at hs
    split_ifs at hs
    exact hs

theorem getAt?_eq {id s : ScopeId} {distance : Nat} (x : String)
    (ha : h.ancestor? id distance = some s) : h.getAt? id distance x = h.getLocal? s x := by
  rw [getAt?, ha]

theorem exists_of_getAt? {id : ScopeId} {distance : Nat} {x : String} {v : Value}
    (hv : h.getAt? id distance x = some v) :
    ∃ s, h.ancestor? id distance = some s ∧ h.getLocal? s x = some v := by
  cases ha : h.ancestor? id distance with
  | none => simp [getAt?, ha] at hv
  | some s => exact ⟨s, rfl, by rwa [getAt?_eq h x ha] at hv⟩

theorem exists_of_ancestor?_succ {id outer : ScopeId} {distance : Nat}
    (ha : h.ancestor? id (distance + 1) = some outer) :
    ∃ s, h.ancestor? id distance = some s ∧ (h.scope s).enclosing = some outer := by
  induction distance generalizing id with
  | zero =>
    refine ⟨id, rfl, ?_⟩
    cases ho : (h.scope id).enclosing with
    | none => simp [ancestor?, ho] at ha
    | some next => simpa [ancestor?, ho] using ha
  | succ distance ih =>
    rw [ancestor?] at ha
    cases ho : (h.scope id).enclosing with
    | none => simp [ho] at ha
    | some next =>
      rw [ho] at ha
      obtain ⟨s, hs, houter⟩ := ih ha
      exact ⟨s, by rwa [ancestor?, ho], houter⟩

/-! ### Methods -/

theorem findMethod?_congr {h' : Heap} (heq : h'.classes = h.classes) (id : ClassId)
    (name : String) : h'.findMethod? id name = h.findMethod? id name := by
  have hcls : ∀ id, h'.cls id = h.cls id := fun id => by rw [cls, cls, heq]
  fun_induction Heap.findMethod? h id name with
  | case1 id f hf => rw [findMethod?, hcls, hf]
  | case2 id hf parent hp hlt ih =>
    rw [findMethod?, hcls, hf, hp]
    exact (if_pos hlt).trans ih
  | case3 id hf parent hp hlt =>
    rw [findMethod?, hcls, hf, hp]
    exact if_neg hlt
  | case4 id hf hp => rw [findMethod?, hcls, hf, hp]

theorem findMethod?_newClass_of_lt (c : Class) {id : ClassId} (hid : id < h.classes.size)
    (name : String) : (h.newClass c).2.findMethod? id name = h.findMethod? id name := by
  have hcls : ∀ {id : ClassId}, id < h.classes.size → (h.newClass c).2.cls id = h.cls id :=
    fun hid => by rw [cls_newClass, if_neg (Nat.ne_of_lt hid)]
  fun_induction Heap.findMethod? h id name with
  | case1 id f hf => rw [findMethod?, hcls hid, hf]
  | case2 id hf parent hp hlt ih =>
    rw [findMethod?, hcls hid, hf, hp]
    exact (if_pos hlt).trans (ih (hlt.trans hid))
  | case3 id hf parent hp hlt =>
    rw [findMethod?, hcls hid, hf, hp]
    exact if_neg hlt
  | case4 id hf hp => rw [findMethod?, hcls hid, hf, hp]

/-- A new class has its own methods, and those of its superclass that have other names. -/
theorem findMethod?_newClass_self {c : Class} {name : String} {f : Function}
    (hf : (h.newClass c).2.findMethod? h.classes.size name = some f) :
    c.methods.find? name = some f ∨ c.methods.find? name = none ∧ ∃ parent < h.classes.size,
      c.superclass = some parent ∧ h.findMethod? parent name = some f := by
  rw [findMethod?, cls_newClass, if_pos rfl] at hf
  cases hown : c.methods.find? name with
  | some g =>
    rw [hown] at hf
    exact .inl hf
  | none =>
    rw [hown] at hf
    cases hparent : c.superclass with
    | none => simp [hparent] at hf
    | some parent =>
      simp only [hparent] at hf
      split_ifs at hf with hlt
      refine .inr ⟨rfl, parent, hlt, rfl, ?_⟩
      rwa [findMethod?_newClass_of_lt h c hlt] at hf

/-! ### Fields -/

@[simp] theorem size_setField (id : InstanceId) (name : String) (v : Value) :
    (h.setField id name v).instances.size = h.instances.size := by
  simp [setField, setFieldIn]

theorem inst_setField (id : InstanceId) (name : String) (v : Value) (other : InstanceId) :
    (h.setField id name v).inst other =
      if other = id ∧ id < h.instances.size then
        { h.inst other with fields := (h.inst other).fields.insert name v }
      else h.inst other := by
  simp only [inst, setField, setFieldIn, Array.getD_eq_getD_getElem?, Array.getElem?_modify]
  by_cases hlt : id < h.instances.size
  · by_cases hid : id = other
    · subst hid
      simp [hlt]
    · simp [hid, Ne.symm hid]
  · by_cases hid : id = other
    · subst hid
      simp [hlt]
    · simp [hid, hlt]

/-! ### Growth -/

/-- Scopes keep their place, and names stay bound. -/
structure Extends (h h' : Heap) : Prop where
  size : h.scopes.size ≤ h'.scopes.size
  enclosing : ∀ s < h.scopes.size, (h'.scope s).enclosing = (h.scope s).enclosing
  bound : ∀ s x, (h.getLocal? s x).isSome → (h'.getLocal? s x).isSome

variable {h}

theorem Extends.refl (h : Heap) : h.Extends h := ⟨le_refl _, fun _ _ => rfl, fun _ _ hx => hx⟩

theorem Extends.trans {h₁ h₂ h₃ : Heap} (h12 : h₁.Extends h₂) (h23 : h₂.Extends h₃) :
    h₁.Extends h₃ :=
  ⟨le_trans h12.size h23.size,
    fun s hs => (h23.enclosing s (lt_of_lt_of_le hs h12.size)).trans (h12.enclosing s hs),
    fun s x hx => h23.bound s x (h12.bound s x hx)⟩

theorem extends_of_scopes {h h' : Heap} (heq : h'.scopes = h.scopes) : h.Extends h' := by
  have hscope : ∀ s, h'.scope s = h.scope s := fun s => by rw [scope, heq, scope]
  exact ⟨le_of_eq (by rw [heq]), fun s _ => by rw [hscope],
    fun s x hx => by rwa [getLocal?, hscope]⟩

theorem extends_define (h : Heap) (id : ScopeId) (name : String) (v : Value) :
    h.Extends (h.define id name v) := by
  refine ⟨le_of_eq (size_define h id name v).symm,
    fun s _ => enclosing_define h id name v s, fun s x hx => ?_⟩
  rw [getLocal?_define]
  split
  · rfl
  · exact hx

theorem extends_newScope (h : Heap) (s : Scope) : h.Extends (h.newScope s).2 := by
  refine ⟨by simp [newScope], fun id hid => by rw [scope_newScope_of_lt h s hid], ?_⟩
  intro id x hx
  have hid := lt_size_of_getLocal? h hx
  rwa [getLocal?_newScope, if_neg (Nat.ne_of_lt hid)]

end Heap

end Lox
