import Lox.Proofs.Evaluation.Effects
import Lox.Proofs.Evaluation.Methods

/-!
# The soundness of evaluation

`Machine.Sound` says that the heap of a machine is sound and that its current scope exists. A run
that starts on a sound machine, with handles that exist, is on a sound machine at each of its
moments and when it ends, and all handles that it ever has in hand exist: soundness is an invariant
(`Rules.sound`). Nodes of code are treated like handles: whatever holds of the nodes of the
tasks at the start and of the code in the heap holds of all code that is ever run.
-/

namespace Lox

variable {N N' : Expr → Prop} {m m' : Machine}

/-- What holds of every machine that runs a program. The nodes of the code in its heap satisfy
`N`. -/
structure Machine.Sound (N : Expr → Prop) (m : Machine) : Prop where
  heap : m.heap.Sound N m.globals
  current : m.heap.Has (.scope m.current)

theorem Machine.Sound.mono (h : m.Sound N) (hN : ∀ e, N e → N' e) : m.Sound N' :=
  ⟨h.heap.mono hN, h.current⟩

/-- What is in hand exists, and the code to be run satisfies `N`. -/
def Fact.Sound (N : Expr → Prop) (h : Heap) : Fact → Prop
  | .ref r => h.Has r
  | .bound _ _ => True
  | .callable _ f => f.Sound N h
  | .method _ f => f.Sound N h
  | .task _ s t => h.Has (.scope s) ∧ ∀ e ∈ t.nodes, N e

theorem Fact.Sound.kept {h h' : Heap} {fact : Fact} (hf : fact.Sound N h) (hk : h.Kept h') :
    fact.Sound N h' := by
  cases fact with
  | ref r => exact hk r hf
  | bound s x => trivial
  | callable d f => exact Function.Sound.mono hf (fun _ he => he) hk
  | method d f => exact Function.Sound.mono hf (fun _ he => he) hk
  | task d s t => exact ⟨hk _ hf.1, hf.2⟩

theorem hasAll_of_facts {h : Heap} {v : Value} (hv : ∀ fact ∈ v.facts, fact.Sound N h) :
    h.HasAll v.refs :=
  fun _ hr => hv _ (List.mem_map_of_mem hr)

theorem hasAll_of_flatMap {h : Heap} {vs : List Value}
    (hvs : ∀ fact ∈ vs.flatMap Value.facts, fact.Sound N h) :
    h.HasAll (vs.flatMap Value.refs) := by
  intro r hr
  obtain ⟨v, hv, hr⟩ := List.mem_flatMap.mp hr
  exact hvs _ (List.mem_flatMap.mpr ⟨v, hv, List.mem_map_of_mem hr⟩)

theorem hasValues_bindArguments {h : Heap} (params : List Token) {vs : List Value}
    (hvs : h.HasAll (vs.flatMap Value.refs)) : h.HasValues (Eval.bindArguments params vs) := by
  intro x v hv
  rcases Table.mem_of_find?_insertAll hv with hnone | hmem
  · rw [Table.find?_empty] at hnone
    cases hnone
  · exact fun r hr => hvs r (List.mem_flatMap.mpr ⟨v, (List.of_mem_zip hmem).2, hr⟩)

namespace Machine.Sound

variable {past : List Moment} {t : Task} {act : Act} {needs gives : List Fact} {fact : Fact}

theorem look {D : Displays} (h : m.Sound N) (ht : ∀ e ∈ t.nodes, N e)
    (hneeds : ∀ need ∈ needs, need.Sound N m.heap) (hlook : Look D m t needs fact) :
    fact.Sound N m.heap := by
  cases hlook with
  | current => exact h.current
  | named _ hs hv hr => exact h.heap.getLocal? hv _ hr
  | receiver _ hv hr => exact h.heap.getLocal? hv _ hr
  | closure _ _ f => exact Function.Sound.closure (hneeds _ List.mem_cons_self)
  | field _ hv hr => exact h.heap.fields _ _ _ hv _ hr
  | cls _ o => exact h.heap.classes o (hneeds _ List.mem_cons_self)
  | function _ i => exact h.heap.functions i (hneeds _ List.mem_cons_self)
  | method _ hf => exact h.heap.findMethod? hf
  | own hd => exact ⟨h.current, fun e he => ht e (mem_nodesOfMethods hd he)⟩
  | part hpart => exact ⟨h.current, fun e he => ht e (hpart.nodes_subset he)⟩
  | following s rest => exact ⟨h.current, fun e he => ht e (List.mem_append_right _ he)⟩
  | called _ origin harity =>
    exact ⟨h.current, Function.Sound.code (hneeds _ List.mem_cons_self)⟩

theorem changed (h : m.Sound N) {heap : Heap} (hs : heap.Sound N m.globals)
    (hk : m.heap.Kept heap) (hgives : ∀ fact ∈ gives, fact.Sound N heap) :
    ({ m with heap } : Machine).Sound N ∧
      (∀ fact : Fact, fact.Sound N m.heap → fact.Sound N heap) ∧
      ∀ fact ∈ gives, fact.Sound N heap :=
  ⟨⟨hs, hk _ h.current⟩, fun _ hf => hf.kept hk, hgives⟩

theorem entering (h : m.Sound N) {outer : ScopeId} {values : Table Value}
    (houter : m.heap.Has (.scope outer)) (hvalues : m.heap.HasValues values) :
    (m.entering ⟨values, some outer⟩).Sound N ∧
      ∀ fact : Fact, fact.Sound N m.heap →
        fact.Sound N (m.entering ⟨values, some outer⟩).heap :=
  ⟨⟨h.heap.newScope houter hvalues, Heap.has_newScope.mpr (.inr rfl)⟩,
    fun _ hf => hf.kept (Heap.kept_newScope _)⟩

theorem change (h : m.Sound N) (ht : ∀ e ∈ t.nodes, N e)
    (hneeds : ∀ need ∈ needs, need.Sound N m.heap) (hc : Change past m t act needs m' gives) :
    m'.Sound N ∧ (∀ fact : Fact, fact.Sound N m.heap → fact.Sound N m'.heap) ∧
      ∀ fact ∈ gives, fact.Sound N m'.heap := by
  have hnone : ∀ {h : Heap}, ∀ fact ∈ ([] : List Fact), fact.Sound N h :=
    List.forall_mem_nil _
  cases hc with
  | define _ v =>
    exact h.changed (h.heap.define _ _ (hasAll_of_facts hneeds)) (Heap.kept_define _ _ v)
      (List.forall_mem_singleton.mpr trivial)
  | assign _ _ _ v =>
    exact h.changed (h.heap.define _ _ (hasAll_of_facts hneeds)) (Heap.kept_define _ _ v) hnone
  | writes _ o x v =>
    have hv := hasAll_of_facts (List.forall_mem_cons.mp hneeds).2
    exact h.changed (h.heap.setField o x hv) (Heap.kept_setField o x v) hnone
  | creates _ c =>
    refine h.changed (h.heap.newInstance (hneeds _ List.mem_cons_self))
      (Heap.kept_newInstance _) (List.forall_mem_singleton.mpr ?_)
    exact Heap.has_newInstance.mpr (.inr rfl)
  | closes _ origin f =>
    refine h.changed (h.heap.newFunction (hneeds _ List.mem_cons_self))
      (Heap.kept_newFunction f) (List.forall_mem_singleton.mpr ?_)
    exact Heap.has_newFunction.mpr (.inr rfl)
  | declares _ d =>
    obtain ⟨hparent, hrest⟩ := List.forall_mem_append.mp hneeds
    have hmethods := (List.forall_mem_cons.mp hrest).2
    refine h.changed (h.heap.newClass (fun parent hp => ?_) fun x f hf => ?_)
      (Heap.kept_newClass _) (List.forall_mem_singleton.mpr (Heap.has_newClass.mpr (.inr rfl)))
    · exact List.forall_mem_map.mp hparent parent (Option.mem_toList.mpr hp)
    · obtain ⟨decl, hdecl, -, rfl⟩ := Eval.mem_methodTable hf
      exact List.forall_mem_map.mp hmethods decl hdecl
  | block body =>
    obtain ⟨hnext, hkept⟩ := h.entering h.current (Heap.hasValues_empty m.heap)
    exact ⟨hnext, hkept, List.forall_mem_singleton.mpr ⟨hnext.current, ht⟩⟩
  | frame f origin vs =>
    obtain ⟨hf, hvs⟩ := List.forall_mem_cons.mp hneeds
    obtain ⟨hnext, hkept⟩ := h.entering (Function.Sound.closure hf)
      (hasValues_bindArguments f.decl.params (hasAll_of_flatMap hvs))
    refine ⟨hnext, hkept, List.forall_mem_singleton.mpr ⟨hnext.current, ?_⟩⟩
    exact fun e he => ht e (by rwa [Task.nodes, FunDecl.nodes_eq])
  | receiver _ d f o =>
    obtain ⟨hf, ho⟩ := List.forall_mem_cons.mp hneeds
    have hthis := hasAll_of_facts (v := .inst o) ho
    refine h.changed (h.heap.newScope (Function.Sound.closure hf) (Heap.hasValues_singleton hthis))
      (Heap.kept_newScope _) (List.forall_mem_cons.mpr ⟨?_, List.forall_mem_singleton.mpr ?_⟩)
    · exact Heap.has_newScope.mpr (.inr rfl)
    · exact ⟨Heap.has_newScope.mpr (.inr rfl), (Function.Sound.code hf :)⟩
  | @parent name e methods c _ =>
    have hc := hasAll_of_facts (v := .cls c) (List.forall_mem_singleton.mpr
      (List.forall_mem_cons.mp hneeds).1)
    refine h.changed (h.heap.newScope h.current (Heap.hasValues_singleton hc))
      (Heap.kept_newScope _) (List.forall_mem_cons.mpr ⟨?_, List.forall_mem_map.mpr ?_⟩)
    · exact Heap.has_newScope.mpr (.inr rfl)
    · intro d hd
      refine ⟨Heap.has_newScope.mpr (.inr rfl), fun x hx => ht x ?_⟩
      exact List.mem_append_right _ (mem_nodesOfMethods hd hx)
  | _ => exact ⟨⟨h.heap, h.current⟩, fun _ hf => hf, hnone⟩

end Machine.Sound

/-- Machines stay sound, with code whose nodes satisfy `N`. -/
def Rules.sound (N : Expr → Prop) : Rules where
  holds _ m := m.Sound N
  knows _ m fact := fact.Sound N m.heap
  fails _ := True
  look h ht hneeds hlook := h.look ht.2 hneeds hlook
  declared h ht := ⟨h.current, ht.2⟩
  change _ h ht hneeds hc := h.change ht.2 hneeds hc
  leave _ h ht := ⟨⟨h.heap, ht.1⟩, fun _ hf => hf, List.forall_mem_nil _⟩
  error _ _ _ _ := trivial

end Lox
