import Lox.Proofs.Renaming.Basic

/-!
# Renamed code

Code is related to itself where no scope is marked, and to its renaming where the new name does not
occur. The second needs that the program has no violation: a marked scope declares the old name with
`var` or as a parameter, so that it cannot declare it as a function or class as well, whose names
are not renamed.
-/

namespace Lox

open Renaming

variable {ρ : Exchange} {marks : Marks}

/-! ### Unmarked code -/

section Unmarked

theorem Renaming.Unmarked.renames_occurrence (h : Unmarked marks) (id : NodeId) (t : Token) :
    ρ.Renames (ρ.reaches marks id) t t := by
  rw [h.reaches id]
  exact ρ.renames_unmarked t

theorem Renaming.Unmarked.renames_declaration (h : Unmarked marks) (t : Token) :
    ρ.Renames (marks.headD false) t t := by
  rw [h.headD]
  exact ρ.renames_unmarked t

theorem Renaming.Unmarked.keeps (h : Unmarked marks) (t : Token) :
    ρ.Keeps (marks.headD false) t := by
  rw [h.headD]
  exact fun hmarked => nomatch hmarked

mutual

theorem Expr.renamed_self (h : Unmarked marks) : ∀ e : Expr, e.Renamed ρ marks e
  | .literal id value => .literal id value
  | .grouping id inner => .grouping id (inner.renamed_self h)
  | .unary id op right => .unary id op (right.renamed_self h)
  | .binary id left op right => .binary id op (left.renamed_self h) (right.renamed_self h)
  | .logical id left op right => .logical id op (left.renamed_self h) (right.renamed_self h)
  | .var id name => .var id (h.renames_occurrence id name) fun hne => absurd rfl hne
  | .assign id name value =>
    .assign id (h.renames_occurrence id name) (fun hne => absurd rfl hne) (value.renamed_self h)
  | .call id callee paren args => .call id paren (callee.renamed_self h) (renamedArgs_self h args)
  | .get id object name => .get id name (object.renamed_self h)
  | .set id object name value => .set id name (object.renamed_self h) (value.renamed_self h)
  | .this id keyword => .this id (h.renames_occurrence id keyword)
  | .super id keyword method => .super id method (h.renames_occurrence id keyword)
termination_by structural e => e

theorem renamedArgs_self (h : Unmarked marks) : ∀ es : List Expr, RenamedArgs ρ marks es es
  | [] => .nil
  | e :: es => .cons (e.renamed_self h) (renamedArgs_self h es)
termination_by structural es => es

end

mutual

theorem Stmt.renamed_self : ∀ (s : Stmt) {marks : Marks}, Unmarked marks → s.Renamed ρ marks s
  | .expression e, _, h => .expression (e.renamed_self h)
  | .print e, _, h => .print (e.renamed_self h)
  | .var name none, _, h => .var (h.renames_declaration name)
  | .var name (some init), _, h => .varInit (h.renames_declaration name) (init.renamed_self h)
  | .block body, _, h => .block false (renamedAll_self body h.push)
  | .ifElse cond thenBranch none, _, h =>
    .ifThen (cond.renamed_self h) (thenBranch.renamed_self h)
  | .ifElse cond thenBranch (some elseBranch), _, h =>
    .ifElse (cond.renamed_self h) (thenBranch.renamed_self h) (elseBranch.renamed_self h)
  | .while_ cond body, _, h => .while_ (cond.renamed_self h) (body.renamed_self h)
  | .function decl, _, h => .function (h.keeps decl.name) (decl.renamed_self h)
  | .return_ keyword none, _, _ => .return_ _ keyword
  | .return_ keyword (some value), _, h => .returnValue keyword (value.renamed_self h)
  | .class_ name none methods, _, h =>
    .class_ (h.keeps name) (renamedMethods_self methods h.push)
  | .class_ name (some superclass) methods, _, h =>
    .subclass (h.keeps name) (superclass.renamed_self h) (renamedMethods_self methods h.push.push)
termination_by structural s => s

theorem renamedAll_self : ∀ (body : List Stmt) {marks : Marks}, Unmarked marks →
    RenamedAll ρ marks body body
  | [], marks, _ => .nil marks
  | s :: rest, _, h => .cons (s.renamed_self h) (renamedAll_self rest h)
termination_by structural body => body

theorem FunDecl.renamed_self : ∀ (d : FunDecl) {marks : Marks}, Unmarked marks →
    d.Renamed ρ marks d
  | .mk name _ body, _, h =>
    .mk name false (List.forall₂_same.mpr fun t _ => ρ.renames_unmarked t)
      (renamedAll_self body h.push)
termination_by structural d => d

theorem renamedMethods_self : ∀ (ds : List FunDecl) {marks : Marks}, Unmarked marks →
    RenamedMethods ρ marks ds ds
  | [], marks, _ => .nil marks
  | d :: ds, _, h => .cons (d.renamed_self h) (renamedMethods_self ds h)
termination_by structural ds => ds

end

end Unmarked

/-! ### One declaration of a name in a scope -/

/-- A statement declares a name as a function or class. -/
def Stmt.declaresOther (x : String) : Stmt → Bool
  | .function decl => decl.name.lexeme == x
  | .class_ name _ _ => name.lexeme == x
  | _ => false

theorem Stmt.scopesAfter_of_clean {ctx : Context} {scope : StaticScope} {outer : StaticScopes}
    {s : Stmt} (hclean : Clean (s.resolve ctx (scope :: outer)).1) :
    ∃ after, s.scopesAfter (scope :: outer) = after :: outer ∧
      (∀ t, s.declared? = some t → scope.contains t.lexeme = false ∧
        after.contains t.lexeme = true) ∧
      ∀ x, scope.contains x = true → after.contains x = true := by
  have hintroduce : ∀ {name : Token}, Clean (StaticScopes.introduce (scope :: outer) name).1 →
      ∃ after, (StaticScopes.introduce (scope :: outer) name).2 = after :: outer ∧
        (∀ t, some name = some t → scope.contains t.lexeme = false ∧
          after.contains t.lexeme = true) ∧
        ∀ x, scope.contains x = true → after.contains x = true := by
    intro name hname
    refine ⟨_, StaticScopes.introduce_eq hname, fun t ht => ?_, fun x hx => ?_⟩
    · rw [Option.some.injEq] at ht
      subst ht
      exact ⟨(StaticScopes.declare_eq hname).1, by simp [Table.contains_insert]⟩
    · simp [Table.contains_insert, hx]
  cases s with
  | var name init => exact hintroduce (clean_append.mp hclean).1
  | function decl => exact hintroduce (clean_append.mp hclean).1
  | class_ name superclass methods =>
    exact hintroduce (clean_append.mp (clean_append.mp hclean).1).1
  | _ => exact ⟨scope, rfl, by simp [Stmt.declared?], fun _ hx => hx⟩

theorem Stmt.declared?_of_declaresOther {s : Stmt} {x : String} (h : s.declaresOther x = true) :
    ∃ t, s.declared? = some t ∧ t.lexeme = x := by
  cases s with
  | function decl => exact ⟨decl.name, rfl, by simpa [Stmt.declaresOther] using h⟩
  | class_ name superclass methods => exact ⟨name, rfl, by simpa [Stmt.declaresOther] using h⟩
  | _ => simp [Stmt.declaresOther] at h

theorem notDeclared_of_known {P : Token → Prop} {ctx : Context} {scope : StaticScope}
    {outer : StaticScopes} {body : List Stmt} {x : String} (hformed : formedAll P body)
    (hclean : Clean (resolveAll ctx (scope :: outer) body).1) (hknown : scope.contains x = true) :
    ∀ s ∈ body, ∀ t, s.declared? = some t → t.lexeme ≠ x := by
  induction body generalizing scope with
  | nil => simp
  | cons s rest ih =>
    rw [resolveAll_cons ctx _ hformed.1, clean_append] at hclean
    obtain ⟨after, hafter, hdeclared, hkept⟩ := Stmt.scopesAfter_of_clean hclean.1
    rw [hafter] at hclean
    intro s' hs' t ht heq
    rcases List.mem_cons.mp hs' with rfl | hs'
    · have hnew := (hdeclared t ht).1
      rw [heq, hknown] at hnew
      exact absurd hnew (by simp)
    · exact ih hformed.2 hclean.2 (hkept x hknown) s' hs' t ht heq

theorem declaresOther_of_declaresVar {P : Token → Prop} {ctx : Context} {scope : StaticScope}
    {outer : StaticScopes} {body : List Stmt} {x : String} (hformed : formedAll P body)
    (hclean : Clean (resolveAll ctx (scope :: outer) body).1) (hvar : declaresVar x body = true) :
    ∀ s ∈ body, s.declaresOther x = false := by
  induction body generalizing scope with
  | nil => simp
  | cons s rest ih =>
    rw [resolveAll_cons ctx _ hformed.1, clean_append] at hclean
    obtain ⟨after, hafter, hdeclared, -⟩ := Stmt.scopesAfter_of_clean hclean.1
    rw [hafter] at hclean
    intro s' hs'
    by_contra hother
    rw [Bool.not_eq_false] at hother
    obtain ⟨t, ht, hlexeme⟩ := Stmt.declared?_of_declaresOther hother
    rcases List.mem_cons.mp hs' with rfl | hmem
    · -- The first statement declares the name; then no later one does.
      have hafterKnown := (hdeclared t ht).2
      rw [hlexeme] at hafterKnown
      have hrest := notDeclared_of_known hformed.2 hclean.2 hafterKnown
      rw [declaresVar, List.any_cons, Bool.or_eq_true] at hvar
      rcases hvar with hfirst | hlater
      · cases s' <;> simp [Stmt.declaresOther] at hother hfirst
      · obtain ⟨w, hw, hwx⟩ := List.any_eq_true.mp hlater
        cases w with
        | var name init => exact hrest _ hw name rfl (by simpa using hwx)
        | _ => simp at hwx
    · -- The declaration with `var` is the first statement or stands later.
      rw [declaresVar, List.any_cons, Bool.or_eq_true] at hvar
      rcases hvar with hfirst | hlater
      · cases s with
        | var name init =>
          have hafterKnown := (hdeclared name rfl).2
          rw [show name.lexeme = x by simpa using hfirst] at hafterKnown
          exact notDeclared_of_known hformed.2 hclean.2 hafterKnown s' hmem t ht hlexeme
        | _ => simp at hfirst
      · rw [ih hformed.2 hclean.2 hlater s' hmem] at hother
        exact absurd hother (by simp)

/-! ### The renaming of code without the new name -/

/-- A scanned token that is not the new name. -/
def Renaming.Fresh (ρ : Renaming) (t : Token) : Prop := t.Spelled ∧ t.lexeme ≠ ρ.new

theorem Renaming.Proper.keeps_this (hρ : ρ.Proper) {keyword : Token}
    (hkeyword : keyword.Is ρ.Fresh (.keyword .this)) (marked : Bool) : ρ.Keeps marked keyword := by
  intro _
  rw [hkeyword.2.1.lexeme_eq_this hkeyword.1]
  exact hρ.this

theorem Renaming.Proper.keeps_super (hρ : ρ.Proper) {keyword : Token}
    (hkeyword : keyword.Is ρ.Fresh (.keyword .super)) (marked : Bool) :
    ρ.Keeps marked keyword := by
  intro _
  rw [hkeyword.2.1.lexeme_eq_super hkeyword.1]
  exact hρ.super

/-- Two nodes of the same identity may refer to a variable by different tokens. -/
def Exchange.Allows (ρ : Exchange) (nodes nodes' : List Expr) : Prop :=
  ∀ t t', Replaced nodes nodes' t t' → ρ.exchanges t t'

namespace Exchange.Allows

variable {xs ys xs' ys' : List Expr}

theorem mono (h : ρ.Allows xs xs') (hsub : ys ⊆ xs) (hsub' : ys' ⊆ xs') : ρ.Allows ys ys' :=
  fun t t' ⟨e, he, e', he', heq⟩ => h t t' ⟨e, hsub he, e', hsub' he', heq⟩

theorem left (h : ρ.Allows (xs ++ ys) (xs' ++ ys')) : ρ.Allows xs xs' :=
  h.mono (List.subset_append_left _ _) (List.subset_append_left _ _)

theorem right (h : ρ.Allows (xs ++ ys) (xs' ++ ys')) : ρ.Allows ys ys' :=
  h.mono (List.subset_append_right _ _) (List.subset_append_right _ _)

theorem node {e e' : Expr} {t t' : Token} (h : ρ.Allows [e] [e']) (hid : e'.id = e.id)
    (ht : e.variable? = some t) (ht' : e'.variable? = some t') : ρ.exchanges t t' :=
  h t t' ⟨e, List.mem_singleton_self e, e', List.mem_singleton_self e', hid, ht, ht'⟩

end Exchange.Allows

mutual

theorem Expr.renamed_rename (hρ : ρ.Proper) : ∀ e : Expr, e.Formed ρ.Fresh →
    ρ.Allows e.nodes (e.rename ρ.toRenaming marks).nodes →
    e.Renamed ρ marks (e.rename ρ.toRenaming marks)
  | .literal id value, _, _ => .literal id value
  | .grouping id inner, h, hn => .grouping id (inner.renamed_rename hρ h hn.left)
  | .unary id op right, h, hn => .unary id op (right.renamed_rename hρ h.2 hn.left)
  | .binary id left op right, h, hn =>
    .binary id op (left.renamed_rename hρ h.2.1 hn.left.left)
      (right.renamed_rename hρ h.2.2 hn.left.right)
  | .logical id left op right, h, hn =>
    .logical id op (left.renamed_rename hρ h.2.1 hn.left.left)
      (right.renamed_rename hρ h.2.2 hn.left.right)
  | .var id _, h, hn => .var id (renames_declaration h.2.2 _) fun _ => hn.node rfl rfl rfl
  | .assign id _ value, h, hn =>
    .assign id (renames_declaration h.1.2.2 _) (fun _ => hn.right.node rfl rfl rfl)
      (value.renamed_rename hρ h.2 hn.left)
  | .call id callee paren args, h, hn =>
    .call id paren (callee.renamed_rename hρ h.2.1 hn.left.left)
      (renamedArgs_rename hρ args h.2.2 hn.left.right)
  | .get id object name, h, hn => .get id name (object.renamed_rename hρ h.2 hn.left)
  | .set id object name value, h, hn =>
    .set id name (object.renamed_rename hρ h.2.1 hn.left.right)
      (value.renamed_rename hρ h.2.2 hn.left.left)
  | .this id _, h, _ => .this id (hρ.keeps_this h _).renames
  | .super id _ method, h, _ => .super id method (hρ.keeps_super h.1 _).renames
termination_by structural e => e

theorem renamedArgs_rename (hρ : ρ.Proper) : ∀ es : List Expr, formedArgs ρ.Fresh es →
    ρ.Allows (nodesOfArgs es) (nodesOfArgs (renameArgs ρ.toRenaming marks es)) →
    RenamedArgs ρ marks es (renameArgs ρ.toRenaming marks es)
  | [], _, _ => .nil
  | e :: es, h, hn =>
    .cons (e.renamed_rename hρ h.1 hn.left) (renamedArgs_rename hρ es h.2 hn.right)
termination_by structural es => es

end

/-- Functions and classes that a marked scope declares have other names. -/
def Renaming.Spares (ρ : Renaming) (marks : Marks) (s : Stmt) : Prop :=
  marks.headD false = true → s.declaresOther ρ.old = false

theorem Renaming.Spares.keeps_function {decl : FunDecl} (hspares : ρ.Spares marks (.function decl))
    (hformed : decl.Formed ρ.Fresh) : ρ.Keeps (marks.headD false) decl.name := by
  intro hmarked
  refine ⟨by simpa [Stmt.declaresOther] using hspares hmarked, ?_⟩
  cases decl with
  | mk name params body => exact hformed.1.2.2

theorem Renaming.Spares.keeps_class {name : Token} {superclass : Option Expr}
    {methods : List FunDecl} (hspares : ρ.Spares marks (.class_ name superclass methods))
    (hname : name.Is ρ.Fresh .identifier) : ρ.Keeps (marks.headD false) name :=
  fun hmarked => ⟨by simpa [Stmt.declaresOther] using hspares hmarked, hname.2.2⟩

theorem spares_plain {s : Stmt} (hplain : s.isDeclaration = false) : ρ.Spares marks s := by
  intro _
  cases s <;> first | rfl | simp [Stmt.isDeclaration] at hplain

theorem spares_block {ctx : Context} {scopes : StaticScopes} {body : List Stmt} {here : Bool}
    (hformed : formedAll ρ.Fresh body) (hclean : Clean (resolveAll ctx ({} :: scopes) body).1) :
    ∀ s ∈ body, ρ.Spares ((here && declaresVar ρ.old body) :: marks) s := by
  intro s hs hmarked
  have hvar : declaresVar ρ.old body = true := (Bool.and_eq_true_iff.mp hmarked).2
  exact declaresOther_of_declaresVar hformed hclean hvar s hs

theorem spares_function {ctx : Context} {scopes : StaticScopes} (decl : FunDecl) {here : Bool}
    (hformed : formedAll ρ.Fresh decl.body)
    (hparams : Clean (StaticScopes.introduceAll ({} :: scopes) decl.params).1)
    (hclean : Clean
      (resolveAll ctx (StaticScopes.introduceAll ({} :: scopes) decl.params).2 decl.body).1) :
    ∀ s ∈ decl.body, ρ.Spares ((here && decl.declaresVar ρ.old) :: marks) s := by
  obtain ⟨names, heq, hfind⟩ := StaticScopes.introduceAll_eq hparams
  rw [heq] at hclean
  intro s hs hmarked
  have hdeclares := (Bool.and_eq_true_iff.mp hmarked).2
  rcases Bool.or_eq_true_iff.mp hdeclares with hparam | hvar
  · obtain ⟨t, ht, hlexeme⟩ := List.any_eq_true.mp hparam
    have hmem : ρ.old ∈ decl.params.map (·.lexeme) :=
      List.mem_map.mpr ⟨t, ht, by simpa using hlexeme⟩
    have hknown : Table.contains names ρ.old = true := by
      rw [Table.contains, hfind, if_pos hmem]
      rfl
    by_contra hother
    rw [Bool.not_eq_false] at hother
    obtain ⟨t', ht', hlexeme'⟩ := Stmt.declared?_of_declaresOther hother
    exact notDeclared_of_known hformed hclean hknown s hs t' ht' hlexeme'
  · exact declaresOther_of_declaresVar hformed hclean hvar s hs

mutual

theorem Stmt.renamed_rename (hρ : ρ.Proper) (target : Path) (ctx : Context)
    (scopes : StaticScopes) :
    ∀ (s : Stmt) (marks : Marks) (path : Path), s.Formed ρ.Fresh →
      ρ.Allows s.nodes (s.rename ρ.toRenaming target marks path).nodes →
      Clean (s.resolve ctx scopes).1 → ρ.Spares marks s →
      s.Renamed ρ marks (s.rename ρ.toRenaming target marks path)
  | .expression e, _, _, hs, hn, _, _ => .expression (e.renamed_rename hρ hs hn)
  | .print e, _, _, hs, hn, _, _ => .print (e.renamed_rename hρ hs hn)
  | .var name none, _, _, hs, _, _, _ => .var (renames_declaration hs.1.2.2 _)
  | .var name (some init), _, _, hs, hn, _, _ =>
    .varInit (renames_declaration hs.1.2.2 _) (init.renamed_rename hρ hs.2 hn)
  | .block body, marks, path, hs, hn, hclean, _ =>
    .block _ (renamedAll_rename hρ target ctx ({} :: scopes) body _ path 0 hs hn hclean
      (spares_block hs hclean))
  | .ifElse cond thenBranch none, marks, path, hs, hn, hclean, _ => by
    have hsplit : Clean (cond.findings ctx scopes ++ (thenBranch.resolve ctx scopes).1) := hclean
    rw [clean_append] at hsplit
    exact .ifThen (cond.renamed_rename hρ hs.1 hn.left)
      (thenBranch.renamed_rename hρ target ctx scopes marks _ hs.2.2 hn.right hsplit.2
        (spares_plain hs.2.1))
  | .ifElse cond thenBranch (some elseBranch), marks, path, hs, hn, hclean, _ => by
    rw [Stmt.resolve_ifElse ctx scopes cond hs.2.1, clean_append, clean_append] at hclean
    exact .ifElse (cond.renamed_rename hρ hs.1 hn.left.left)
      (thenBranch.renamed_rename hρ target ctx scopes marks _ hs.2.1.2 hn.left.right hclean.1.2
        (spares_plain hs.2.1.1))
      (elseBranch.renamed_rename hρ target ctx scopes marks _ hs.2.2.2 hn.right hclean.2
        (spares_plain hs.2.2.1))
  | .while_ cond body, marks, path, hs, hn, hclean, _ => by
    have hsplit : Clean (cond.findings ctx scopes ++ (body.resolve ctx scopes).1) := hclean
    rw [clean_append] at hsplit
    exact .while_ (cond.renamed_rename hρ hs.1 hn.left)
      (body.renamed_rename hρ target ctx scopes marks _ hs.2.2 hn.right hsplit.2
        (spares_plain hs.2.1))
  | .function decl, marks, path, hs, hn, hclean, hspares => by
    have hsplit : Clean ((scopes.introduce decl.name).1 ++
      decl.resolve ⟨.function, ctx.cls⟩ (scopes.introduce decl.name).2) := hclean
    rw [clean_append] at hsplit
    exact .function (hspares.keeps_function hs)
      (decl.renamed_rename hρ target _ _ marks path hs hn hsplit.2)
  | .return_ keyword none, _, _, _, _, _, _ => .return_ _ keyword
  | .return_ keyword (some value), _, _, hs, hn, _, _ =>
    .returnValue keyword (value.renamed_rename hρ hs.2 hn)
  | .class_ name none methods, marks, path, hs, hn, hclean, hspares => by
    have hsplit : Clean ((scopes.introduce name).1 ++
      superclassFindings ctx (scopes.introduce name).2 name none ++
      resolveMethods .plain (methodScopes (scopes.introduce name).2 false) methods) := hclean
    rw [clean_append] at hsplit
    exact .class_ (hspares.keeps_class hs.1)
      (renamedMethods_rename hρ target _ _ methods _ path 0 hs.2.2 hn.right hsplit.2)
  | .class_ name (some superclass) methods, marks, path, hs, hn, hclean, hspares => by
    have hsplit : Clean ((scopes.introduce name).1 ++
      superclassFindings ctx (scopes.introduce name).2 name (some superclass) ++
      resolveMethods .subclass (methodScopes (scopes.introduce name).2 true) methods) := hclean
    rw [clean_append] at hsplit
    have hsuperclass : superclass.Formed ρ.Fresh := by
      have hformed : Expr.FormedSuperclass ρ.Fresh (some superclass) := hs.2.1
      cases superclass with
      | var id t => exact hformed
      | _ => exact hformed.elim
    exact .subclass (hspares.keeps_class hs.1) (superclass.renamed_rename hρ hsuperclass hn.left)
      (renamedMethods_rename hρ target _ _ methods _ path 0 hs.2.2 hn.right hsplit.2)
termination_by structural s => s

theorem renamedAll_rename (hρ : ρ.Proper) (target : Path) (ctx : Context)
    (scopes : StaticScopes) :
    ∀ (body : List Stmt) (marks : Marks) (path : Path) (i : Nat), formedAll ρ.Fresh body →
      ρ.Allows (nodesOfAll body) (nodesOfAll (renameAll ρ.toRenaming target marks path i body)) →
      Clean (resolveAll ctx scopes body).1 → (∀ s ∈ body, ρ.Spares marks s) →
      RenamedAll ρ marks body (renameAll ρ.toRenaming target marks path i body)
  | [], marks, _, _, _, _, _, _ => .nil marks
  | s :: rest, marks, path, i, hs, hn, hclean, hspares => by
    rw [resolveAll_cons ctx scopes hs.1, clean_append] at hclean
    exact .cons
      (s.renamed_rename hρ target ctx scopes marks _ hs.1 hn.left hclean.1
        (hspares s List.mem_cons_self))
      (renamedAll_rename hρ target ctx _ rest marks path (i + 1) hs.2 hn.right hclean.2
        fun s' hs' => hspares s' (List.mem_cons_of_mem s hs'))
termination_by structural body => body

theorem FunDecl.renamed_rename (hρ : ρ.Proper) (target : Path) (ctx : Context)
    (scopes : StaticScopes) :
    ∀ (d : FunDecl) (marks : Marks) (path : Path), d.Formed ρ.Fresh →
      ρ.Allows d.nodes (d.rename ρ.toRenaming target marks path).nodes →
      Clean (d.resolve ctx scopes) → d.Renamed ρ marks (d.rename ρ.toRenaming target marks path)
  | .mk name params body, marks, path, hd, hn, hclean => by
    have hsplit : Clean ((StaticScopes.introduceAll ({} :: scopes) params).1 ++
      (resolveAll ctx (StaticScopes.introduceAll ({} :: scopes) params).2 body).1) := hclean
    rw [clean_append] at hsplit
    have hspares : ∀ s ∈ body,
        ρ.Spares ((path == target && (FunDecl.mk name params body).declaresVar ρ.old) :: marks) s :=
      spares_function (.mk name params body) hd.2.2 hsplit.1 hsplit.2
    refine .mk name _ ?_
      (renamedAll_rename hρ target ctx _ body _ path 0 hd.2.2 hn hsplit.2 hspares)
    rw [List.forall₂_map_right_iff, List.forall₂_same]
    exact fun t ht => renames_declaration (hd.2.1 t ht).2.2 _
termination_by structural d => d

theorem renamedMethods_rename (hρ : ρ.Proper) (target : Path) (cls : ClassContext)
    (scopes : StaticScopes) :
    ∀ (ds : List FunDecl) (marks : Marks) (path : Path) (i : Nat), formedMethods ρ.Fresh ds →
      ρ.Allows (nodesOfMethods ds)
        (nodesOfMethods (renameMethods ρ.toRenaming target marks path i ds)) →
      Clean (resolveMethods cls scopes ds) →
      RenamedMethods ρ marks ds (renameMethods ρ.toRenaming target marks path i ds)
  | [], marks, _, _, _, _, _ => .nil marks
  | d :: ds, marks, path, i, hd, hn, hclean => by
    rw [resolveMethods, clean_append] at hclean
    exact .cons (d.renamed_rename hρ target _ scopes marks _ hd.1 hn.left hclean.1)
      (renamedMethods_rename hρ target cls scopes ds marks path (i + 1) hd.2 hn.right hclean.2)
termination_by structural ds => ds

end

end Lox
