import Lox.Proofs.Evaluation.Tasks
import Lox.Proofs.Scoping.Superclasses

/-!
# Code that may be run

What the errors of a run rest on, of the code that it runs (`Task.Passed`): all its tokens satisfy
some property, the static walk has found no violation in it, and a distance has been recorded for
each of its nodes for `super`. Distances are recorded over older ones but never removed, so this
stays true of code that has been run before, also where later code has nodes of the same identity.
-/

namespace Lox

/-! ### Recorded nodes -/

/-- If the node stands for `super`, a distance has been recorded for it. -/
def Expr.Recorded (d : Distances) (e : Expr) : Prop :=
  ∀ id keyword method, e = .super id keyword method → (d.find? id).isSome

/-- No distance is ever removed. -/
theorem Distances.isSome_find?_recordAll {d : Distances} {findings : List Finding} {id : NodeId}
    (h : (d.find? id).isSome ∨ ∃ k, .distance id k ∈ findings) :
    ((d.recordAll findings).find? id).isSome := by
  induction findings generalizing d with
  | nil =>
    rcases h with h | ⟨k, hk⟩
    · exact h
    · cases hk
  | cons f findings ih =>
    show (((f.record d).recordAll findings).find? id).isSome
    refine ih ?_
    cases f with
    | violation token rule =>
      refine h.imp_right fun ⟨k, hk⟩ => ⟨k, ?_⟩
      exact (List.mem_cons.mp hk).resolve_left Finding.noConfusion
    | distance other steps =>
      by_cases hid : id = other
      · subst hid
        exact .inl (by rw [Finding.record, find?_record_self]; rfl)
      · rcases h with h | ⟨k, hk⟩
        · exact .inl (by rwa [Finding.record, find?_record_ne d hid steps])
        · refine .inr ⟨k, (List.mem_cons.mp hk).resolve_left fun heq => hid ?_⟩
          exact (Finding.distance.inj heq).1

theorem Expr.Recorded.recordAll {d : Distances} {e : Expr} (h : e.Recorded d)
    (findings : List Finding) : e.Recorded (d.recordAll findings) :=
  fun id keyword method he => Distances.isSome_find?_recordAll (.inl (h id keyword method he))

theorem Expr.Anchored.recorded {us : List Use} {e : Expr} (h : e.Anchored us) (d : Distances) :
    e.Recorded (d.recordAll (us.flatMap Use.findings)) := by
  intro id keyword method he
  obtain ⟨-, u, hu, rfl, j, -, -, -, -, hdepth⟩ := h id keyword method he
  refine Distances.isSome_find?_recordAll (.inr ⟨j + 1, List.mem_flatMap.mpr ⟨u, hu, ?_⟩⟩)
  rw [Use.findings, StaticScopes.useOf, show u.place.scopes.depthOf? u.name.lexeme = _ from hdepth]
  exact List.mem_cons_self

theorem recorded_program {body : List Stmt} (hformed : formedAll Token.Spelled body)
    (hclean : Clean (programFindings body)) (d : Distances) :
    ∀ e ∈ nodesOfAll body, e.Recorded (d.recordAll (programFindings body)) := by
  have haccepted : AcceptedAll (programUses body) {} [] [] body :=
    ⟨hformed, hclean, List.Subset.refl _⟩
  intro e he
  rw [programFindings, resolveAll_uses {} [] [] body hformed hclean]
  exact (haccepted.supers (fun hcls => by cases hcls) e he).recorded d

theorem recorded_expression {e : Expr} (hformed : e.Formed Token.Spelled)
    (hclean : Clean (expressionFindings e)) (d : Distances) :
    ∀ x ∈ e.nodes, x.Recorded (d.recordAll (expressionFindings e)) := by
  have haccepted : e.Accepted (expressionUses e) {} ⟨[], [], none⟩ :=
    ⟨hformed, hclean, List.Subset.refl _⟩
  intro x hx
  rw [expressionFindings, e.findings_uses {} ⟨[], [], none⟩ hclean]
  exact (haccepted.supers (fun hcls => by cases hcls) x hx).recorded d

/-! ### Functions -/

variable {P : Token → Prop} {d : Distances}

/-- The parameters and the body of a function may be run. -/
structure FunDecl.Passed (P : Token → Prop) (d : Distances) (f : FunDecl) : Prop where
  params : ∀ t ∈ f.params, t.Is P .identifier
  formed : formedAll P f.body
  clean : ∃ ctx scopes, Clean (f.resolve ctx scopes)
  recorded : ∀ e ∈ f.nodes, e.Recorded d

theorem FunDecl.resolve_eq (ctx : Context) (scopes : StaticScopes) (f : FunDecl) :
    f.resolve ctx scopes = (StaticScopes.introduceAll ({} :: scopes) f.params).1 ++
      (resolveAll ctx (StaticScopes.introduceAll ({} :: scopes) f.params).2 f.body).1 := by
  cases f with
  | mk name params body => rfl

theorem StaticScopes.nodup_introduceAll {s : StaticScope} {outer : StaticScopes}
    {names : List Token} (h : Clean (introduceAll (s :: outer) names).1) :
    (names.map (·.lexeme)).Nodup ∧ ∀ t ∈ names, s.contains t.lexeme = false := by
  induction names generalizing s with
  | nil => exact ⟨List.nodup_nil, List.forall_mem_nil _⟩
  | cons name names ih =>
    have hsplit : Clean ((introduce (s :: outer) name).1 ++
      ((introduce (s :: outer) name).2.introduceAll names).1) := h
    rw [clean_append] at hsplit
    obtain ⟨hfirst, hrest⟩ := hsplit
    rw [introduce_eq hfirst] at hrest
    obtain ⟨hnodup, hnew⟩ := ih hrest
    have hnames : ∀ t ∈ names, name.lexeme ≠ t.lexeme ∧ s.contains t.lexeme = false := by
      intro t ht
      have hfree := hnew t ht
      rw [Table.contains, find?_introduced] at hfree
      split_ifs at hfree with heq
      · cases hfree
      · exact ⟨heq, hfree⟩
    refine ⟨List.nodup_cons.mpr ⟨fun hmem => ?_, hnodup⟩, ?_⟩
    · obtain ⟨t, ht, heq⟩ := List.mem_map.mp hmem
      exact (hnames t ht).1 heq.symm
    · exact List.forall_mem_cons.mpr ⟨(declare_eq hfirst).1, fun t ht => (hnames t ht).2⟩

theorem FunDecl.Passed.nodup {f : FunDecl} (h : f.Passed P d) :
    (f.params.map (·.lexeme)).Nodup := by
  obtain ⟨ctx, scopes, hclean⟩ := h.clean
  rw [f.resolve_eq, clean_append] at hclean
  exact (StaticScopes.nodup_introduceAll hclean.1).1

theorem FunDecl.Passed.recordAll {f : FunDecl} (h : f.Passed P d) (findings : List Finding) :
    f.Passed P (d.recordAll findings) :=
  ⟨h.params, h.formed, h.clean, fun e he => (h.recorded e he).recordAll findings⟩

/-- The function that stands in for a missing one does nothing. -/
theorem FunDecl.passed_default : (default : FunDecl).Passed P d :=
  ⟨List.forall_mem_nil _, trivial, ⟨{}, [], rfl⟩, List.forall_mem_nil _⟩

theorem FunDecl.passed_of_formed {f : FunDecl} (hformed : f.Formed P)
    (hclean : ∃ ctx scopes, Clean (f.resolve ctx scopes))
    (hrecorded : ∀ e ∈ f.nodes, e.Recorded d) : f.Passed P d := by
  cases f with
  | mk name params body => exact ⟨hformed.2.1, hformed.2.2, hclean, hrecorded⟩

theorem formed_of_mem {methods : List FunDecl} (h : formedMethods P methods) {f : FunDecl}
    (hf : f ∈ methods) : f.Formed P := by
  induction methods with
  | nil => cases hf
  | cons g methods ih =>
    rcases List.mem_cons.mp hf with rfl | hf
    · exact h.1
    · exact ih h.2 hf

theorem clean_of_mem {cls : ClassContext} {scopes : StaticScopes} {methods : List FunDecl}
    (h : Clean (resolveMethods cls scopes methods)) {f : FunDecl} (hf : f ∈ methods) :
    ∃ ctx scopes, Clean (f.resolve ctx scopes) := by
  induction methods with
  | nil => cases hf
  | cons g methods ih =>
    rw [resolveMethods, clean_append] at h
    rcases List.mem_cons.mp hf with rfl | hf
    · exact ⟨_, _, h.1⟩
    · exact ih h.2 hf

/-! ### Tasks -/

namespace Task

/-- The code of a task has the shape of parsed code, with tokens that satisfy `P`. -/
def Formed (P : Token → Prop) : Task → Prop
  | .expr e => e.Formed P
  | .args es => formedArgs P es
  | .call paren _ _ => P paren
  | .body f _ _ => (∀ t ∈ f.decl.params, t.Is P .identifier) ∧ formedAll P f.decl.body
  | .stmt s => s.Formed P
  | .loop cond s => cond.Formed P ∧ s.Formed P
  | .stmts rest => formedAll P rest

/-- The static walk finds no violation in the statements of a task, at some place. -/
def IsClean : Task → Prop
  | .body f _ _ => ∃ ctx scopes, Clean (f.decl.resolve ctx scopes)
  | .stmt s => ∃ ctx scopes, Clean (s.resolve ctx scopes).1
  | .loop _ s => ∃ ctx scopes, Clean (s.resolve ctx scopes).1
  | .stmts rest => ∃ ctx scopes, Clean (resolveAll ctx scopes rest).1
  | _ => True

/-- The code of a task may be run. -/
structure Passed (P : Token → Prop) (d : Distances) (t : Task) : Prop where
  formed : t.Formed P
  clean : t.IsClean
  recorded : ∀ e ∈ t.nodes, e.Recorded d

variable {t t' : Task} {name : Token}

theorem Formed.bound (h : t.Formed P) (ht : t.bound? = some name) : name.Is P .identifier := by
  cases t with
  | expr e =>
    cases e with
    | assign id target value =>
      cases ht
      exact h.1
    | _ => cases ht
  | stmt s =>
    cases s with
    | var target init =>
      cases ht
      exact h.1
    | function decl =>
      cases ht
      cases decl with
      | mk target params body => exact h.1
    | class_ target superclass methods =>
      cases ht
      exact h.1
    | _ => cases ht
  | _ => cases ht

theorem Formed.sought (h : t.Formed P) (ht : t.sought? = some name) : P name := by
  cases t with
  | expr e =>
    cases e with
    | var id target => cases ht; exact h.2
    | assign id target value => cases ht; exact h.1.2
    | this id keyword => cases ht; exact h.2
    | super id keyword method => cases ht; exact h.1.2
    | _ => cases ht
  | stmt s =>
    cases s with
    | class_ target superclass methods => cases ht; exact h.1.2
    | _ => cases ht
  | _ => cases ht

theorem Formed.property (h : t.Formed P) (ht : t.property? = some name) : P name := by
  cases t with
  | expr e =>
    cases e with
    | get id object target => cases ht; exact h.1.2
    | set id object target value => cases ht; exact h.1.2
    | super id keyword method => cases ht; exact h.2.2
    | _ => cases ht
  | _ => cases ht

theorem formed_superclass {e : Expr} (h : Expr.FormedSuperclass P (some e)) : e.Formed P := by
  cases e with
  | var id target => exact h
  | _ => exact h.elim

theorem formed_superclassToken (name : Token) {e : Expr}
    (h : Expr.FormedSuperclass P (some e)) : P (Eval.superclassToken name e) := by
  cases e with
  | var id target => exact h.2
  | _ => exact h.elim

theorem Part.formed (h : t.Part t') (ht : t.Formed P) : t'.Formed P := by
  cases h with
  | inner => exact ht
  | operand => exact ht.2
  | left => exact ht.2.1
  | right => exact ht.2.2
  | first => exact ht.2.1
  | second => exact ht.2.2
  | assigned => exact ht.2
  | callee => exact ht.2.1
  | arguments => exact ht.2.2
  | call => exact ht.1.2
  | object => exact ht.2
  | owner => exact ht.2.1
  | field => exact ht.2.2
  | argument => exact ht.1
  | others => exact ht.2
  | expression => exact ht
  | printed => exact ht
  | initial => exact ht.2
  | condition e s s' => cases s' <;> exact ht.1
  | thenBranch e s s' =>
    cases s' with
    | none => exact ht.2.2
    | some s' => exact ht.2.1.2
  | elseBranch => exact ht.2.2.2
  | loop => exact ⟨ht.1, ht.2.2⟩
  | returned => exact ht.2
  | superclass => exact formed_superclass ht.2.1
  | again => exact ht.1
  | repeated => exact ht.2
  | statement => exact ht.1

theorem Part.isClean (h : t.Part t') (ht : t.IsClean) : t'.IsClean := by
  cases h with
  | thenBranch e s s' =>
    obtain ⟨ctx, scopes, hclean⟩ := ht
    cases s' with
    | none => exact ⟨ctx, scopes, (clean_append.mp hclean).2⟩
    | some s' => exact ⟨ctx, scopes, (clean_append.mp (clean_append.mp hclean).1).2⟩
  | elseBranch e s s' =>
    obtain ⟨ctx, scopes, hclean⟩ := ht
    exact ⟨ctx, _, (clean_append.mp hclean).2⟩
  | loop e s =>
    obtain ⟨ctx, scopes, hclean⟩ := ht
    exact ⟨ctx, scopes, (clean_append.mp hclean).2⟩
  | repeated e s => exact ht
  | statement s rest =>
    obtain ⟨ctx, scopes, hclean⟩ := ht
    exact ⟨ctx, scopes, (clean_append.mp hclean).1⟩
  | _ => trivial

namespace Passed

theorem part (h : t.Passed P d) (hpart : t.Part t') : t'.Passed P d :=
  ⟨hpart.formed h.formed, hpart.isClean h.clean,
    fun e he => h.recorded e (hpart.nodes_subset he)⟩

theorem following {s : Stmt} {rest : List Stmt} (h : (Task.stmts (s :: rest)).Passed P d) :
    (Task.stmts rest).Passed P d := by
  obtain ⟨ctx, scopes, hclean⟩ := h.clean
  exact ⟨h.formed.2, ⟨ctx, _, (clean_append.mp hclean).2⟩,
    fun e he => h.recorded e (List.mem_append_right _ he)⟩

theorem block {body : List Stmt} (h : (Task.stmt (.block body)).Passed P d) :
    (Task.stmts body).Passed P d := by
  obtain ⟨ctx, scopes, hclean⟩ := h.clean
  exact ⟨h.formed, ⟨ctx, {} :: scopes, hclean⟩, h.recorded⟩

theorem function {decl : FunDecl} (h : (Task.stmt (.function decl)).Passed P d) :
    decl.Passed P d := by
  obtain ⟨ctx, scopes, hclean⟩ := h.clean
  exact FunDecl.passed_of_formed h.formed ⟨_, _, (clean_append.mp hclean).2⟩ h.recorded

theorem method {name : Token} {superclass : Option Expr} {methods : List FunDecl} {decl : FunDecl}
    (h : (Task.stmt (.class_ name superclass methods)).Passed P d) (hdecl : decl ∈ methods) :
    decl.Passed P d := by
  have hrecorded : ∀ e ∈ decl.nodes, e.Recorded d := fun e he =>
    h.recorded e (List.mem_append_right _ (mem_nodesOfMethods hdecl he))
  obtain ⟨ctx, scopes, hclean⟩ := h.clean
  refine FunDecl.passed_of_formed (formed_of_mem h.formed.2.2 hdecl) ?_ hrecorded
  exact clean_of_mem (clean_append.mp hclean).2 hdecl

end Passed

end Task

theorem FunDecl.Passed.called {f : Function} (h : f.decl.Passed P d) (origin : Origin)
    (vs : List Value) : (Task.body f origin vs).Passed P d :=
  ⟨⟨h.params, h.formed⟩, h.clean, h.recorded⟩

theorem FunDecl.Passed.body {f : FunDecl} (h : f.Passed P d) : (Task.stmts f.body).Passed P d := by
  obtain ⟨ctx, scopes, hclean⟩ := h.clean
  rw [f.resolve_eq, clean_append] at hclean
  exact ⟨h.formed, ⟨ctx, _, hclean.2⟩, fun e he => h.recorded e (f.nodes_eq ▸ he)⟩

end Lox
