import Lox.Proofs.Evaluation.Methods
import Lox.Proofs.Evaluation.Preservation
import Lox.Proofs.Heap.Regions

/-!
# Evaluation inside a region

Code only ever gets at what its handles lead to. If the handles that a computation has at its start
lie in a closed region, together with the global scope and the current one, then all that it comes
across lies in that region, and whatever lies outside is not touched (`Rules.confined`).

A call is special: it runs its code in a scope inside the closure of the callee, so it does not
matter where the current scope of the caller lies (`Eval.detached_call`).
-/

namespace Lox

variable {α β : Type} {S : Region} {m m' : Machine}

/-- What holds of a machine that is at work inside a region. -/
structure Machine.Confined (S : Region) (m : Machine) : Prop where
  heap : m.heap.Confined S m.globals
  globals : m.heap.within S (.scope m.globals)
  current : m.heap.within S (.scope m.current)

/-- What is in hand lies in the region. -/
def Fact.Within (S : Region) (h : Heap) : Fact → Prop
  | .ref r => h.within S r
  | .bound _ _ => True
  | .callable _ f => h.within S (.scope f.closure)
  | .method _ f => h.within S (.scope f.closure)
  | .task _ s _ => h.within S (.scope s)

theorem Fact.Within.kept {h h' : Heap} {fact : Fact} (hf : fact.Within S h) (hk : h.Kept h') :
    fact.Within S h' := by
  cases fact with
  | bound s x => trivial
  | _ => exact hk.within hf

theorem Region.all_of_facts {h : Heap} {v : Value} (hv : ∀ fact ∈ v.facts, fact.Within S h) :
    (h.within S).All v.refs :=
  fun _ hr => hv _ (List.mem_map_of_mem hr)

theorem Region.values_bindArguments {h : Heap} (params : List Token) {vs : List Value}
    (hvs : ∀ fact ∈ vs.flatMap Value.facts, fact.Within S h) :
    (h.within S).Values (Eval.bindArguments params vs) := by
  intro x v hv
  rcases Table.mem_of_find?_insertAll hv with hnone | hmem
  · rw [Table.find?_empty] at hnone
    cases hnone
  · refine Region.all_of_facts fun fact hfact => hvs fact ?_
    exact List.mem_flatMap.mpr ⟨v, (List.of_mem_zip hmem).2, hfact⟩

/-! ### Looks and changes -/

namespace Machine.Confined

variable {past : List Moment} {t : Task} {act : Act} {needs gives : List Fact} {fact : Fact}

theorem inSight (h : m.Confined S) {s : ScopeId} (hs : m.InSight s) :
    m.heap.within S (.scope s) := by
  rcases hs with ⟨k, hk⟩ | ⟨k, hk⟩
  · exact h.heap.ancestor? h.current hk
  · exact h.heap.ancestor? h.globals hk

theorem look {D : Displays} (h : m.Confined S) (hneeds : ∀ need ∈ needs, need.Within S m.heap)
    (hlook : Look D m t needs fact) : fact.Within S m.heap := by
  cases hlook with
  | current => exact h.current
  | named _ hs hv hr => exact h.heap.getLocal? (h.inSight hs) hv _ hr
  | receiver _ hv hr => exact h.heap.getLocal? (hneeds _ List.mem_cons_self) hv _ hr
  | closure _ d f => exact hneeds (.callable d f) List.mem_cons_self
  | field _ hv hr => exact h.heap.points (hneeds _ List.mem_cons_self) (.field hv hr)
  | cls _ o => exact h.heap.points (hneeds _ List.mem_cons_self) (.cls o)
  | function _ i => exact h.heap.points (hneeds _ List.mem_cons_self) (.closure i)
  | method _ hf => exact h.heap.findMethod? (hneeds _ List.mem_cons_self) hf
  | _ => exact h.current

theorem new_scope (h : m.Confined S) (s : Scope) :
    (m.heap.newScope s).2.within S (.scope m.heap.scopes.size) :=
  ⟨Heap.has_newScope.mpr (.inr rfl), h.heap.closed.fresh _ (Nat.lt_irrefl _)⟩

theorem change (h : m.Confined S) (hneeds : ∀ need ∈ needs, need.Within S m.heap)
    (hc : Change past m t act needs m' gives) :
    m.heap.Spares S m.globals m'.heap ∧ m'.globals = m.globals ∧
      m'.heap.within S (.scope m'.current) ∧ ∀ fact ∈ gives, fact.Within S m'.heap := by
  have hnone : ∀ {h : Heap}, ∀ fact ∈ ([] : List Fact), fact.Within S h :=
    List.forall_mem_nil _
  have hstays : ∀ {heap : Heap}, m.heap.Spares S m.globals heap →
      (∀ fact ∈ gives, fact.Within S heap) →
      m.heap.Spares S m.globals heap ∧ m.globals = m.globals ∧
        heap.within S (.scope m.current) ∧ ∀ fact ∈ gives, fact.Within S heap :=
    fun hspares hgives => ⟨hspares, rfl, hspares.kept.within h.current, hgives⟩
  cases hc with
  | define _ v =>
    exact hstays (h.heap.define h.current _ (Region.all_of_facts hneeds))
      (List.forall_mem_singleton.mpr trivial)
  | assign _ hs _ v =>
    exact hstays (h.heap.define (h.inSight hs) _ (Region.all_of_facts hneeds)) hnone
  | writes _ o x v =>
    obtain ⟨ho, hv⟩ := List.forall_mem_cons.mp hneeds
    exact hstays (h.heap.setField ho x (Region.all_of_facts hv)) hnone
  | creates _ c =>
    refine hstays (h.heap.newInstance (hneeds _ List.mem_cons_self))
      (List.forall_mem_singleton.mpr ⟨Heap.has_newInstance.mpr (.inr rfl), ?_⟩)
    exact h.heap.closed.fresh _ (Nat.lt_irrefl _)
  | closes _ origin f =>
    refine hstays (h.heap.newFunction (hneeds _ List.mem_cons_self))
      (List.forall_mem_singleton.mpr ⟨Heap.has_newFunction.mpr (.inr rfl), ?_⟩)
    exact h.heap.closed.fresh _ (Nat.lt_irrefl _)
  | declares _ d =>
    obtain ⟨hparent, hrest⟩ := List.forall_mem_append.mp hneeds
    have hclosure := (List.forall_mem_cons.mp hrest).1
    refine hstays (h.heap.newClass (fun parent hp => ?_) fun x f hf => ?_)
      (List.forall_mem_singleton.mpr ⟨Heap.has_newClass.mpr (.inr rfl), ?_⟩)
    · exact List.forall_mem_map.mp hparent parent (Option.mem_toList.mpr hp)
    · obtain ⟨decl, -, -, rfl⟩ := Eval.mem_methodTable hf
      exact hclosure
    · exact h.heap.closed.fresh _ (Nat.lt_irrefl _)
  | block body =>
    exact ⟨h.heap.newScope h.current (Region.values_empty _), rfl, h.new_scope _,
      List.forall_mem_singleton.mpr (h.new_scope _)⟩
  | frame f origin vs =>
    obtain ⟨hf, hvs⟩ := List.forall_mem_cons.mp hneeds
    exact ⟨h.heap.newScope hf (Region.values_bindArguments f.decl.params hvs), rfl,
      h.new_scope _, List.forall_mem_singleton.mpr (h.new_scope _)⟩
  | receiver _ d f o =>
    obtain ⟨hf, ho⟩ := List.forall_mem_cons.mp hneeds
    refine hstays (h.heap.newScope hf
      (Region.values_singleton (Region.all_of_facts (v := .inst o) ho))) ?_
    exact List.forall_mem_cons.mpr ⟨h.new_scope _, List.forall_mem_singleton.mpr (h.new_scope _)⟩
  | @parent name e methods c _ =>
    have hc : ∀ fact ∈ (Value.cls c).facts, fact.Within S m.heap :=
      List.forall_mem_singleton.mpr (hneeds _ List.mem_cons_self)
    refine hstays (h.heap.newScope h.current
      (Region.values_singleton (Region.all_of_facts hc))) ?_
    exact List.forall_mem_cons.mpr ⟨h.new_scope _, List.forall_mem_map.mpr fun _ _ =>
      h.new_scope _⟩
  | _ => exact ⟨h.heap.spares, rfl, h.current, hnone⟩

end Machine.Confined

/-- Work stays inside the region, and what lies outside is as it was on the machine `start`. -/
def Rules.confined (S : Region) (start : Machine) : Rules where
  holds _ m := m.Confined S ∧ start.heap.Spares S start.globals m.heap ∧
    m.globals = start.globals
  knows _ m fact := fact.Within S m.heap
  fails _ := True
  look h _ hneeds hlook := h.1.look hneeds hlook
  declared h _ := h.1.current
  change _ h _ hneeds hc := by
    obtain ⟨hm, hstart, hglobals⟩ := h
    obtain ⟨hspares, hsame, hcurrent, hgives⟩ := hm.change hneeds hc
    refine ⟨⟨⟨?_, ?_, hcurrent⟩, ?_, hsame.trans hglobals⟩, fun _ hf => hf.kept hspares.kept,
      hgives⟩
    · rw [hsame]
      exact hspares.confined
    · rw [hsame]
      exact hspares.kept.within hm.globals
    · rw [hglobals] at hspares
      exact hstart.trans hspares
  leave _ h hs :=
    ⟨⟨⟨h.1.heap, h.1.globals, hs⟩, h.2⟩, fun _ hf => hf, List.forall_mem_nil _⟩
  error _ _ _ _ := trivial

/-! ### Calls -/

/-- A computation for which it does not matter which scope is current. -/
def Eval.Detached (p : Eval α) : Prop :=
  ∀ m s, p { m with current := s } = (p m).withCurrent s

namespace Eval

variable {p : Eval α} {f : α → Eval β}

theorem Detached.bind (hp : Detached p) (hf : ∀ a, Detached (f a)) : Detached (p >>= f) := by
  intro m s
  show Eval.bind p f _ = (Eval.bind p f m).withCurrent s
  unfold Eval.bind
  rw [hp m s]
  cases hpm : p m with
  | ok a next => exact hf a next s
  | error e next => rfl
  | returned keyword v next => rfl
  | outOfFuel => rfl

theorem detached_withScope (s : ScopeId) (p : Eval Unit) :
    Detached (catchReturn (withScope s p)) := by
  intro m s'
  unfold catchReturn withScope
  dsimp only
  cases p { m with current := s } <;> rfl

theorem detached_checkArity (paren : Token) (expected got : Nat) :
    Detached (checkArity paren expected got) := by
  unfold checkArity
  split_ifs
  · exact fun _ _ => rfl
  · exact fun _ _ => rfl

theorem detached_boundInstance (f : Function) : Detached (boundInstance f) := by
  intro m s
  unfold boundInstance
  dsimp only
  split <;> rfl

theorem detached_callNative (paren : Token) (f : Native) : Detached (callNative paren f) := by
  unfold callNative
  refine Detached.bind (fun _ _ => rfl) fun reading => ?_
  cases reading with
  | some n => exact fun _ _ => rfl
  | none => exact fun _ _ => rfl

theorem detached_callFunction (n : Nat) (f : Function) (vs : List Value) :
    Detached (callFunction n f vs) := by
  cases n with
  | zero => exact fun _ _ => rfl
  | succ n =>
    refine Detached.bind (fun _ _ => rfl) fun frame => ?_
    refine (detached_withScope frame _).bind fun result => ?_
    split_ifs
    · exact detached_boundInstance f
    · exact fun _ _ => rfl

/-- A call leaves its caller's scope behind. -/
theorem detached_call (n : Nat) (paren : Token) (callee : Value) (vs : List Value) :
    Detached (call n paren callee vs) := by
  cases n with
  | zero => exact fun _ _ => rfl
  | succ n =>
    cases callee with
    | native f => exact (detached_checkArity paren _ _).bind fun _ => detached_callNative paren f
    | function i =>
      refine Detached.bind (p := inspect _) (fun _ _ => rfl) fun f => ?_
      exact (detached_checkArity paren _ _).bind fun _ => detached_callFunction n f vs
    | cls c =>
      refine Detached.bind (p := inspect _) (fun _ _ => rfl) fun initializer => ?_
      refine (detached_checkArity paren _ _).bind fun _ => ?_
      refine Detached.bind (p := newInstance c) (fun _ _ => rfl) fun this => ?_
      cases initializer with
      | none => exact fun _ _ => rfl
      | some f =>
        refine Detached.bind (p := bindThis f this) (fun _ _ => rfl) fun bound => ?_
        exact (detached_callFunction n bound vs).bind fun _ _ _ => rfl
    | _ => exact fun _ _ => rfl

end Eval

/-- A call on a machine at work inside a region, wherever the scope of the caller lies. -/
theorem Machine.Confined.call (h : Machine.Confined S { m with current := m.globals })
    {callee : Value} {vs : List Value}
    (hfacts : (m.heap.within S).All (callee.refs ++ vs.flatMap Value.refs)) (n : Nat)
    (paren : Token) :
    (Eval.call n paren callee vs m).Leaves fun final =>
      m.heap.Spares S m.globals final.heap := by
  let start : Machine := { m with current := m.globals }
  obtain ⟨hcallee, hvs⟩ := Region.all_append.mp hfacts
  have hready : (Rules.confined S start).invariant.Ready (.call paren callee vs) [] [] start :=
    ⟨⟨h, h.heap.spares, rfl⟩, h.current, List.forall_mem_nil _⟩
  have hkeeps := (Invariant.evaluation_keeps _ n).call paren callee vs hready
    (Invariant.knowsAll_facts.mpr hcallee) fun fact hfact => by
      obtain ⟨v, hv, hmem⟩ := List.mem_flatMap.mp hfact
      obtain ⟨r, hr, rfl⟩ := List.mem_map.mp hmem
      exact hvs r (List.mem_flatMap.mpr ⟨v, hv, hr⟩)
  have hsame : Eval.call n paren callee vs m =
      (Eval.call n paren callee vs start).withCurrent m.current :=
    Eval.detached_call n paren callee vs start m.current
  rw [hsame]
  have hleaves := hkeeps.leaves
  cases hcall : Eval.call n paren callee vs start with
  | ok v final => rw [hcall] at hleaves; exact hleaves.holds.2.1
  | error e final => rw [hcall] at hleaves; exact hleaves.holds.2.1
  | returned keyword v final => rw [hcall] at hleaves; exact hleaves.holds.2.1
  | outOfFuel => trivial

end Lox
