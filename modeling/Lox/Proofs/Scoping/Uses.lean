import Mathlib.Tactic.Common
import Lox.Proofs.Tree.Shape
import Lox.Resolution.Findings

/-!
# Uses of variables

The static walk records a distance for a node and nothing else. To say *which* scope it has found,
the constructs that open scopes are named here: a `Site` is a block, the parameters and body of a
function, the receiver of a method, or the superclass of a class. `Stmt.uses` lists every use of a
variable with the sites that are open around it and the names that the walk holds for each of them.

The list says all there is to know about the walk over a program without violations: its findings
are those of the uses in the same order (`resolveAll_uses`), and once they are recorded, the
distance of every use is the one found for it (`Distances.recordAll_uses`).
-/

namespace Lox

/-- What is open around a place in a program, innermost first. -/
structure Place where
  sites : List Site
  /-- The names known so far, one table for each site. -/
  scopes : StaticScopes
  /-- The local variable in whose initializer the place lies. -/
  initializing : Option Token := none

/-- A node that refers to a variable by name. -/
structure Use where
  id : NodeId
  name : Token
  place : Place

namespace Use

/-- How many scopes out the walk finds the variable. -/
def depth? (u : Use) : Option Nat := u.place.scopes.depthOf? u.name.lexeme

def findings (u : Use) : List Finding := u.place.scopes.useOf u.id u.name

end Use

/-! ### The uses of a tree -/

mutual

def Expr.uses (p : Place) : Expr → List Use
  | .literal _ _ => []
  | .grouping _ inner => inner.uses p
  | .unary _ _ right => right.uses p
  | .binary _ left _ right => left.uses p ++ right.uses p
  | .logical _ left _ right => left.uses p ++ right.uses p
  | .var id name => [⟨id, name, p⟩]
  | .assign id name value => value.uses p ++ [⟨id, name, p⟩]
  | .call _ callee _ args => callee.uses p ++ usesOfArgs p args
  | .get _ object _ => object.uses p
  | .set _ object _ value => value.uses p ++ object.uses p
  | .this id keyword => [⟨id, keyword, p⟩]
  | .super id keyword _ => [⟨id, keyword, p⟩]
termination_by structural e => e

def usesOfArgs (p : Place) : List Expr → List Use
  | [] => []
  | e :: es => e.uses p ++ usesOfArgs p es
termination_by structural es => es

end

def Expr.uses? (p : Place) : Option Expr → List Use
  | some e => e.uses p
  | none => []

/-- The open scopes after a statement. -/
def Stmt.scopesAfter (scopes : StaticScopes) : Stmt → StaticScopes
  | .var name _ => (scopes.declare name).2.define name
  | .function decl => (scopes.introduce decl.name).2
  | .class_ name _ _ => (scopes.introduce name).2
  | _ => scopes

/-- The place of the initializer of a variable. At global scope no variable is local. -/
def Place.ofInitializer (sites : List Site) (scopes : StaticScopes) (name : Token) : Place where
  sites := sites
  scopes := (scopes.declare name).2
  initializing := if scopes.isEmpty then none else some name

/-- The sites around the methods of a class, but for their own receivers. -/
def methodSites (sites : List Site) (name : Token) (superclass : Option Expr)
    (methods : List FunDecl) : List Site :=
  if superclass.isSome then .parent name methods :: sites else sites

mutual

def Stmt.uses (sites : List Site) (scopes : StaticScopes) : Stmt → List Use
  | .expression e => e.uses ⟨sites, scopes, none⟩
  | .print e => e.uses ⟨sites, scopes, none⟩
  | .var name init => Expr.uses? (.ofInitializer sites scopes name) init
  | .block body => usesOfAll (.block body :: sites) ({} :: scopes) body
  | .ifElse cond thenBranch none =>
    cond.uses ⟨sites, scopes, none⟩ ++ thenBranch.uses sites scopes
  | .ifElse cond thenBranch (some elseBranch) =>
    cond.uses ⟨sites, scopes, none⟩ ++ thenBranch.uses sites scopes ++ elseBranch.uses sites scopes
  | .while_ cond body => cond.uses ⟨sites, scopes, none⟩ ++ body.uses sites scopes
  | .function decl => decl.uses sites (scopes.introduce decl.name).2
  | .return_ _ value => Expr.uses? ⟨sites, scopes, none⟩ value
  | .class_ name superclass methods =>
    Expr.uses? ⟨sites, (scopes.introduce name).2, none⟩ superclass ++
      usesOfMethods (methodSites sites name superclass methods)
        (methodScopes (scopes.introduce name).2 superclass.isSome) methods
termination_by structural s => s

def usesOfAll (sites : List Site) (scopes : StaticScopes) : List Stmt → List Use
  | [] => []
  | s :: rest => s.uses sites scopes ++ usesOfAll sites (s.scopesAfter scopes) rest
termination_by structural body => body

def FunDecl.uses (sites : List Site) (scopes : StaticScopes) : FunDecl → List Use
  | .mk name params body =>
    usesOfAll (.frame (.mk name params body) :: sites)
      (StaticScopes.introduceAll ({} :: scopes) params).2 body
termination_by structural d => d

def usesOfMethods (sites : List Site) (scopes : StaticScopes) : List FunDecl → List Use
  | [] => []
  | d :: ds => d.uses (.receiver d :: sites) scopes ++ usesOfMethods sites scopes ds
termination_by structural ds => ds

end

/-- The uses in a program at global scope. -/
def programUses (statements : List Stmt) : List Use := usesOfAll [] [] statements

/-- The uses in a single expression at global scope. -/
def expressionUses (e : Expr) : List Use := e.uses ⟨[], [], none⟩

/-! ### Findings without violations -/

/-- No finding is a violation. -/
def Clean (findings : List Finding) : Prop := findingReports findings = []

@[simp] theorem clean_nil : Clean [] := rfl

@[simp] theorem clean_append {xs ys : List Finding} : Clean (xs ++ ys) ↔ Clean xs ∧ Clean ys := by
  simp [Clean, findingReports]

@[simp] theorem clean_violationIf {broken : Bool} {t : Token} {rule : Violation} :
    Clean (violationIf broken t rule) ↔ broken = false := by
  cases broken <;> simp [Clean, findingReports, violationIf, Finding.report?]

@[simp] theorem clean_violation {t : Token} {rule : Violation} {xs : List Finding} :
    ¬Clean (.violation t rule :: xs) := by
  simp [Clean, findingReports, Finding.report?]

@[simp] theorem clean_useOf (scopes : StaticScopes) (id : NodeId) (name : Token) :
    Clean (scopes.useOf id name) := by
  unfold StaticScopes.useOf
  split <;> rfl

theorem violationIf_of_clean {broken : Bool} {t : Token} {rule : Violation}
    (h : Clean (violationIf broken t rule)) : violationIf broken t rule = [] := by
  rw [clean_violationIf] at h
  rw [h]
  rfl

theorem declare_of_clean {scopes : StaticScopes} {name : Token}
    (h : Clean (scopes.declare name).1) : (scopes.declare name).1 = [] := by
  cases scopes with
  | nil => rfl
  | cons s outer =>
    rw [StaticScopes.declare] at h ⊢
    split_ifs at h ⊢ with hknown
    · exact absurd h clean_violation
    · rfl

theorem introduce_of_clean {scopes : StaticScopes} {name : Token}
    (h : Clean (scopes.introduce name).1) : (scopes.introduce name).1 = [] :=
  declare_of_clean h

theorem introduceAll_of_clean {scopes : StaticScopes} {names : List Token}
    (h : Clean (scopes.introduceAll names).1) : (scopes.introduceAll names).1 = [] := by
  induction names generalizing scopes with
  | nil => rfl
  | cons name names ih =>
    have hsplit : Clean ((scopes.introduce name).1 ++
      ((scopes.introduce name).2.introduceAll names).1) := h
    rw [clean_append] at hsplit
    show (scopes.introduce name).1 ++ ((scopes.introduce name).2.introduceAll names).1 = []
    rw [introduce_of_clean hsplit.1, ih hsplit.2, List.append_nil]

/-! ### The walk lists the findings of the uses -/

variable {P : Token → Prop}

theorem Stmt.scopesAfter_of_plain {s : Stmt} (h : s.isDeclaration = false)
    (scopes : StaticScopes) : s.scopesAfter scopes = scopes := by
  cases s <;> first | rfl | simp [Stmt.isDeclaration] at h

theorem Stmt.resolve_scopes (ctx : Context) (scopes : StaticScopes) :
    ∀ s : Stmt, s.Formed P → (s.resolve ctx scopes).2 = s.scopesAfter scopes
  | .expression _, _ | .print _, _ | .block _, _ | .return_ _ _, _ => rfl
  | .var _ _, _ | .function _, _ | .class_ _ _ _, _ => rfl
  | .ifElse cond thenBranch none, h => by
    have hthen := thenBranch.resolve_scopes ctx scopes h.2.2
    rw [Stmt.scopesAfter_of_plain h.2.1] at hthen
    exact hthen
  | .ifElse cond thenBranch (some elseBranch), h => by
    have hthen := thenBranch.resolve_scopes ctx scopes h.2.1.2
    have helse := elseBranch.resolve_scopes ctx scopes h.2.2.2
    rw [Stmt.scopesAfter_of_plain h.2.1.1] at hthen
    rw [Stmt.scopesAfter_of_plain h.2.2.1] at helse
    show (elseBranch.resolve ctx (thenBranch.resolve ctx scopes).2).2 = scopes
    rw [hthen, helse]
  | .while_ cond body, h => by
    have hbody := body.resolve_scopes ctx scopes h.2.2
    rw [Stmt.scopesAfter_of_plain h.2.1] at hbody
    exact hbody

theorem resolveAll_cons (ctx : Context) (scopes : StaticScopes) {s : Stmt} (h : s.Formed P)
    (rest : List Stmt) : (resolveAll ctx scopes (s :: rest)).1 =
      (s.resolve ctx scopes).1 ++ (resolveAll ctx (s.scopesAfter scopes) rest).1 := by
  rw [← s.resolve_scopes ctx scopes h]
  rfl

theorem Stmt.resolve_ifElse (ctx : Context) (scopes : StaticScopes) (cond : Expr)
    {thenBranch : Stmt} (h : thenBranch.isDeclaration = false ∧ thenBranch.Formed P)
    (elseBranch : Stmt) : ((Stmt.ifElse cond thenBranch (some elseBranch)).resolve ctx scopes).1 =
      cond.findings ctx scopes ++ (thenBranch.resolve ctx scopes).1 ++
        (elseBranch.resolve ctx scopes).1 := by
  have hthen := thenBranch.resolve_scopes ctx scopes h.2
  rw [Stmt.scopesAfter_of_plain h.1] at hthen
  show _ ++ _ ++ (elseBranch.resolve ctx (thenBranch.resolve ctx scopes).2).1 = _
  rw [hthen]

mutual

theorem Expr.findings_uses (ctx : Context) (p : Place) : ∀ e : Expr,
    Clean (e.findings ctx p.scopes) →
      e.findings ctx p.scopes = (e.uses p).flatMap Use.findings
  | .literal _ _, _ => rfl
  | .grouping _ inner, h => inner.findings_uses ctx p h
  | .unary _ _ right, h => right.findings_uses ctx p h
  | .binary _ left _ right, h => by
    rw [Expr.findings, clean_append] at h
    rw [Expr.findings, Expr.uses, List.flatMap_append, left.findings_uses ctx p h.1,
      right.findings_uses ctx p h.2]
  | .logical _ left _ right, h => by
    rw [Expr.findings, clean_append] at h
    rw [Expr.findings, Expr.uses, List.flatMap_append, left.findings_uses ctx p h.1,
      right.findings_uses ctx p h.2]
  | .var id name, h => by
    rw [Expr.findings, clean_append] at h
    rw [Expr.findings, violationIf_of_clean h.1]
    simp [Expr.uses, Use.findings]
  | .assign id name value, h => by
    rw [Expr.findings, clean_append] at h
    rw [Expr.findings, Expr.uses, List.flatMap_append, value.findings_uses ctx p h.1]
    simp [Use.findings]
  | .call _ callee _ args, h => by
    rw [Expr.findings, clean_append] at h
    rw [Expr.findings, Expr.uses, List.flatMap_append, callee.findings_uses ctx p h.1,
      findingsOfArgs_uses ctx p args h.2]
  | .get _ object _, h => object.findings_uses ctx p h
  | .set _ object _ value, h => by
    rw [Expr.findings, clean_append] at h
    rw [Expr.findings, Expr.uses, List.flatMap_append, value.findings_uses ctx p h.1,
      object.findings_uses ctx p h.2]
  | .this id keyword, h => by
    rw [Expr.findings] at h ⊢
    split_ifs at h ⊢ with hcls
    · exact absurd h clean_violation
    · simp [Expr.uses, Use.findings]
  | .super id keyword method, h => by
    rw [Expr.findings, clean_append, clean_append] at h
    rw [Expr.findings, violationIf_of_clean h.1.1, violationIf_of_clean h.1.2]
    simp [Expr.uses, Use.findings]
termination_by structural e => e

theorem findingsOfArgs_uses (ctx : Context) (p : Place) : ∀ es : List Expr,
    Clean (findingsOfArgs ctx p.scopes es) →
      findingsOfArgs ctx p.scopes es = (usesOfArgs p es).flatMap Use.findings
  | [], _ => rfl
  | e :: es, h => by
    rw [findingsOfArgs, clean_append] at h
    rw [findingsOfArgs, usesOfArgs, List.flatMap_append, e.findings_uses ctx p h.1,
      findingsOfArgs_uses ctx p es h.2]
termination_by structural es => es

end

theorem Expr.findingsOf?_uses (ctx : Context) (p : Place) (e : Option Expr)
    (h : Clean (Expr.findingsOf? ctx p.scopes e)) :
    Expr.findingsOf? ctx p.scopes e = (Expr.uses? p e).flatMap Use.findings := by
  cases e with
  | none => rfl
  | some e => exact e.findings_uses ctx p h

theorem superclassFindings_uses (ctx : Context) (sites : List Site) (scopes : StaticScopes)
    (name : Token) (e : Option Expr) (h : Clean (superclassFindings ctx scopes name e)) :
    superclassFindings ctx scopes name e =
      (Expr.uses? ⟨sites, scopes, none⟩ e).flatMap Use.findings := by
  cases e with
  | none => rfl
  | some e =>
    rw [superclassFindings, clean_append] at h
    rw [superclassFindings, Expr.findings_uses _ ⟨sites, scopes, none⟩ e h.2]
    have hself : e.selfInheritance name = [] := by
      unfold Expr.selfInheritance at h ⊢
      split at h
      · exact violationIf_of_clean h.1
      · rfl
    rw [hself]
    rfl

mutual

theorem Stmt.resolve_uses (ctx : Context) (sites : List Site) (scopes : StaticScopes) :
    ∀ s : Stmt, s.Formed P → Clean (s.resolve ctx scopes).1 →
      (s.resolve ctx scopes).1 = (s.uses sites scopes).flatMap Use.findings
  | .expression e, _, h => e.findings_uses ctx ⟨sites, scopes, none⟩ h
  | .print e, _, h => e.findings_uses ctx ⟨sites, scopes, none⟩ h
  | .var name init, _, h => by
    have hsplit : Clean ((scopes.declare name).1 ++
      Expr.findingsOf? ctx (scopes.declare name).2 init) := h
    rw [clean_append] at hsplit
    show (scopes.declare name).1 ++ Expr.findingsOf? ctx (scopes.declare name).2 init = _
    rw [declare_of_clean hsplit.1]
    exact Expr.findingsOf?_uses ctx (.ofInitializer sites scopes name) init hsplit.2
  | .block body, hs, h => resolveAll_uses ctx (.block body :: sites) ({} :: scopes) body hs h
  | .ifElse cond thenBranch none, hs, h => by
    have hsplit : Clean (cond.findings ctx scopes ++ (thenBranch.resolve ctx scopes).1) := h
    rw [clean_append] at hsplit
    show cond.findings ctx scopes ++ (thenBranch.resolve ctx scopes).1 = _
    rw [Stmt.uses, List.flatMap_append, cond.findings_uses ctx ⟨sites, scopes, none⟩ hsplit.1,
      thenBranch.resolve_uses ctx sites scopes hs.2.2 hsplit.2]
  | .ifElse cond thenBranch (some elseBranch), hs, h => by
    rw [Stmt.resolve_ifElse ctx scopes cond hs.2.1, clean_append, clean_append] at h
    rw [Stmt.resolve_ifElse ctx scopes cond hs.2.1, Stmt.uses, List.flatMap_append,
      List.flatMap_append, cond.findings_uses ctx ⟨sites, scopes, none⟩ h.1.1,
      thenBranch.resolve_uses ctx sites scopes hs.2.1.2 h.1.2,
      elseBranch.resolve_uses ctx sites scopes hs.2.2.2 h.2]
  | .while_ cond body, hs, h => by
    have hsplit : Clean (cond.findings ctx scopes ++ (body.resolve ctx scopes).1) := h
    rw [clean_append] at hsplit
    show cond.findings ctx scopes ++ (body.resolve ctx scopes).1 = _
    rw [Stmt.uses, List.flatMap_append, cond.findings_uses ctx ⟨sites, scopes, none⟩ hsplit.1,
      body.resolve_uses ctx sites scopes hs.2.2 hsplit.2]
  | .function decl, hs, h => by
    have hsplit : Clean ((scopes.introduce decl.name).1 ++
      decl.resolve ⟨.function, ctx.cls⟩ (scopes.introduce decl.name).2) := h
    rw [clean_append] at hsplit
    show (scopes.introduce decl.name).1 ++
      decl.resolve ⟨.function, ctx.cls⟩ (scopes.introduce decl.name).2 = _
    rw [introduce_of_clean hsplit.1]
    exact decl.resolve_uses _ sites _ hs hsplit.2
  | .return_ keyword value, _, h => by
    have hsplit : Clean (returnFindings ctx scopes keyword value) := h
    rw [returnFindings, clean_append, clean_append] at hsplit
    show returnFindings ctx scopes keyword value = _
    rw [returnFindings, violationIf_of_clean hsplit.1.1, violationIf_of_clean hsplit.1.2]
    exact Expr.findingsOf?_uses ctx ⟨sites, scopes, none⟩ value hsplit.2
  | .class_ name superclass methods, hs, h => by
    have hsplit : Clean ((scopes.introduce name).1 ++
      superclassFindings ctx (scopes.introduce name).2 name superclass ++
      resolveMethods (if superclass.isSome then .subclass else .plain)
        (methodScopes (scopes.introduce name).2 superclass.isSome) methods) := h
    rw [clean_append, clean_append] at hsplit
    show (scopes.introduce name).1 ++
      superclassFindings ctx (scopes.introduce name).2 name superclass ++
      resolveMethods (if superclass.isSome then .subclass else .plain)
        (methodScopes (scopes.introduce name).2 superclass.isSome) methods = _
    rw [introduce_of_clean hsplit.1.1, Stmt.uses, List.flatMap_append,
      superclassFindings_uses ctx sites _ name superclass hsplit.1.2,
      resolveMethods_uses _ (methodSites sites name superclass methods) _ methods hs.2.2 hsplit.2]
    rfl
termination_by structural s => s

theorem resolveAll_uses (ctx : Context) (sites : List Site) (scopes : StaticScopes) :
    ∀ body : List Stmt, formedAll P body → Clean (resolveAll ctx scopes body).1 →
      (resolveAll ctx scopes body).1 = (usesOfAll sites scopes body).flatMap Use.findings
  | [], _, _ => rfl
  | s :: rest, hs, h => by
    rw [resolveAll_cons ctx scopes hs.1, clean_append] at h
    rw [resolveAll_cons ctx scopes hs.1, usesOfAll, List.flatMap_append,
      s.resolve_uses ctx sites scopes hs.1 h.1, resolveAll_uses ctx sites _ rest hs.2 h.2]
termination_by structural body => body

theorem FunDecl.resolve_uses (ctx : Context) (sites : List Site) (scopes : StaticScopes) :
    ∀ d : FunDecl, d.Formed P → Clean (d.resolve ctx scopes) →
      d.resolve ctx scopes = (d.uses sites scopes).flatMap Use.findings
  | .mk name params body, hs, h => by
    have hsplit : Clean ((StaticScopes.introduceAll ({} :: scopes) params).1 ++
      (resolveAll ctx (StaticScopes.introduceAll ({} :: scopes) params).2 body).1) := h
    rw [clean_append] at hsplit
    show (StaticScopes.introduceAll ({} :: scopes) params).1 ++
      (resolveAll ctx (StaticScopes.introduceAll ({} :: scopes) params).2 body).1 = _
    rw [introduceAll_of_clean hsplit.1]
    exact resolveAll_uses ctx (.frame (.mk name params body) :: sites) _ body hs.2.2 hsplit.2
termination_by structural d => d

theorem resolveMethods_uses (cls : ClassContext) (sites : List Site) (scopes : StaticScopes) :
    ∀ ds : List FunDecl, formedMethods P ds → Clean (resolveMethods cls scopes ds) →
      resolveMethods cls scopes ds = (usesOfMethods sites scopes ds).flatMap Use.findings
  | [], _, _ => rfl
  | d :: ds, hs, h => by
    rw [resolveMethods, clean_append] at h
    rw [resolveMethods, usesOfMethods, List.flatMap_append,
      d.resolve_uses _ (.receiver d :: sites) scopes hs.1 h.1,
      resolveMethods_uses cls sites scopes ds hs.2 h.2]
termination_by structural ds => ds

end

/-! ### Uses are nodes of the tree -/

mutual

theorem Expr.uses_ids (p : Place) : ∀ e : Expr, ((e.uses p).map Use.id).Sublist e.ids
  | .literal _ _ => List.nil_sublist _
  | .grouping id inner => (inner.uses_ids p).trans (List.sublist_append_left _ _)
  | .unary id _ right => (right.uses_ids p).trans (List.sublist_append_left _ _)
  | .binary id left _ right => by
    rw [Expr.uses, List.map_append]
    exact ((left.uses_ids p).append (right.uses_ids p)).trans (List.sublist_append_left _ _)
  | .logical id left _ right => by
    rw [Expr.uses, List.map_append]
    exact ((left.uses_ids p).append (right.uses_ids p)).trans (List.sublist_append_left _ _)
  | .var _ _ => List.Sublist.refl _
  | .assign id _ value => by
    rw [Expr.uses, List.map_append]
    exact (value.uses_ids p).append (List.Sublist.refl _)
  | .call id callee _ args => by
    rw [Expr.uses, List.map_append]
    exact ((callee.uses_ids p).append (usesOfArgs_ids p args)).trans (List.sublist_append_left _ _)
  | .get id object _ => (object.uses_ids p).trans (List.sublist_append_left _ _)
  | .set id object _ value => by
    rw [Expr.uses, List.map_append]
    exact ((value.uses_ids p).append (object.uses_ids p)).trans (List.sublist_append_left _ _)
  | .this _ _ => List.Sublist.refl _
  | .super _ _ _ => List.Sublist.refl _
termination_by structural e => e

theorem usesOfArgs_ids (p : Place) : ∀ es : List Expr,
    ((usesOfArgs p es).map Use.id).Sublist (idsOfArgs es)
  | [] => List.Sublist.refl _
  | e :: es => by
    rw [usesOfArgs, List.map_append]
    exact (e.uses_ids p).append (usesOfArgs_ids p es)
termination_by structural es => es

end

theorem Expr.uses?_ids (p : Place) (e : Option Expr) :
    ((Expr.uses? p e).map Use.id).Sublist (Expr.ids? e) := by
  cases e with
  | none => exact List.Sublist.refl _
  | some e => exact e.uses_ids p

mutual

theorem Stmt.uses_ids (sites : List Site) (scopes : StaticScopes) : ∀ s : Stmt,
    ((s.uses sites scopes).map Use.id).Sublist s.ids
  | .expression e => e.uses_ids _
  | .print e => e.uses_ids _
  | .var _ init => Expr.uses?_ids _ init
  | .block body => usesOfAll_ids _ _ body
  | .ifElse cond thenBranch none => by
    rw [Stmt.uses, List.map_append]
    exact (cond.uses_ids _).append (thenBranch.uses_ids _ _)
  | .ifElse cond thenBranch (some elseBranch) => by
    rw [Stmt.uses, List.map_append, List.map_append]
    exact ((cond.uses_ids _).append (thenBranch.uses_ids _ _)).append (elseBranch.uses_ids _ _)
  | .while_ cond body => by
    rw [Stmt.uses, List.map_append]
    exact (cond.uses_ids _).append (body.uses_ids _ _)
  | .function decl => decl.uses_ids _ _
  | .return_ _ value => Expr.uses?_ids _ value
  | .class_ _ superclass methods => by
    rw [Stmt.uses, List.map_append]
    exact (Expr.uses?_ids _ superclass).append (usesOfMethods_ids _ _ methods)
termination_by structural s => s

theorem usesOfAll_ids (sites : List Site) (scopes : StaticScopes) : ∀ body : List Stmt,
    ((usesOfAll sites scopes body).map Use.id).Sublist (idsOfAll body)
  | [] => List.Sublist.refl _
  | s :: rest => by
    rw [usesOfAll, List.map_append]
    exact (s.uses_ids _ _).append (usesOfAll_ids _ _ rest)
termination_by structural body => body

theorem FunDecl.uses_ids (sites : List Site) (scopes : StaticScopes) : ∀ d : FunDecl,
    ((d.uses sites scopes).map Use.id).Sublist d.ids
  | .mk _ _ body => usesOfAll_ids _ _ body
termination_by structural d => d

theorem usesOfMethods_ids (sites : List Site) (scopes : StaticScopes) : ∀ ds : List FunDecl,
    ((usesOfMethods sites scopes ds).map Use.id).Sublist (idsOfMethods ds)
  | [] => List.Sublist.refl _
  | d :: ds => by
    rw [usesOfMethods, List.map_append]
    exact (d.uses_ids _ _).append (usesOfMethods_ids _ _ ds)
termination_by structural ds => ds

end

/-! ### Findings are about nodes of the tree

This holds of every program, also of one with violations, whose findings are recorded all the
same. -/

/-- The node that a finding is about. -/
def Finding.id? : Finding → Option NodeId
  | .violation _ _ => none
  | .distance id _ => some id

def findingIds (findings : List Finding) : List NodeId := findings.filterMap Finding.id?

@[simp] theorem findingIds_append (xs ys : List Finding) :
    findingIds (xs ++ ys) = findingIds xs ++ findingIds ys :=
  List.filterMap_append

@[simp] theorem findingIds_violationIf (broken : Bool) (t : Token) (rule : Violation) :
    findingIds (violationIf broken t rule) = [] := by
  cases broken <;> rfl

theorem findingIds_useOf (scopes : StaticScopes) (id : NodeId) (name : Token) :
    (findingIds (scopes.useOf id name)).Sublist [id] := by
  unfold StaticScopes.useOf
  split
  · exact List.Sublist.refl _
  · exact List.nil_sublist _

@[simp] theorem findingIds_declare (scopes : StaticScopes) (name : Token) :
    findingIds (scopes.declare name).1 = [] := by
  cases scopes with
  | nil => rfl
  | cons s outer =>
    rw [StaticScopes.declare]
    split_ifs <;> rfl

@[simp] theorem findingIds_introduce (scopes : StaticScopes) (name : Token) :
    findingIds (scopes.introduce name).1 = [] :=
  findingIds_declare scopes name

@[simp] theorem findingIds_introduceAll (scopes : StaticScopes) (names : List Token) :
    findingIds (scopes.introduceAll names).1 = [] := by
  induction names generalizing scopes with
  | nil => rfl
  | cons name names ih =>
    show findingIds ((scopes.introduce name).1 ++
      ((scopes.introduce name).2.introduceAll names).1) = []
    rw [findingIds_append, findingIds_introduce, ih, List.append_nil]

mutual

theorem Expr.findings_ids (ctx : Context) (scopes : StaticScopes) : ∀ e : Expr,
    (findingIds (e.findings ctx scopes)).Sublist e.ids
  | .literal _ _ => List.nil_sublist _
  | .grouping id inner => (inner.findings_ids ctx scopes).trans (List.sublist_append_left _ _)
  | .unary id _ right => (right.findings_ids ctx scopes).trans (List.sublist_append_left _ _)
  | .binary id left _ right => by
    rw [Expr.findings, findingIds_append]
    exact ((left.findings_ids ctx scopes).append (right.findings_ids ctx scopes)).trans
      (List.sublist_append_left _ _)
  | .logical id left _ right => by
    rw [Expr.findings, findingIds_append]
    exact ((left.findings_ids ctx scopes).append (right.findings_ids ctx scopes)).trans
      (List.sublist_append_left _ _)
  | .var id name => by
    rw [Expr.findings, findingIds_append, findingIds_violationIf]
    exact findingIds_useOf scopes id name
  | .assign id name value => by
    rw [Expr.findings, findingIds_append]
    exact (value.findings_ids ctx scopes).append (findingIds_useOf scopes id name)
  | .call id callee _ args => by
    rw [Expr.findings, findingIds_append]
    exact ((callee.findings_ids ctx scopes).append (findingsOfArgs_ids ctx scopes args)).trans
      (List.sublist_append_left _ _)
  | .get id object _ => (object.findings_ids ctx scopes).trans (List.sublist_append_left _ _)
  | .set id object _ value => by
    rw [Expr.findings, findingIds_append]
    exact ((value.findings_ids ctx scopes).append (object.findings_ids ctx scopes)).trans
      (List.sublist_append_left _ _)
  | .this id keyword => by
    rw [Expr.findings]
    split_ifs
    · exact List.nil_sublist _
    · exact findingIds_useOf scopes id keyword
  | .super id keyword _ => by
    rw [Expr.findings, findingIds_append, findingIds_append, findingIds_violationIf,
      findingIds_violationIf]
    exact findingIds_useOf scopes id keyword
termination_by structural e => e

theorem findingsOfArgs_ids (ctx : Context) (scopes : StaticScopes) : ∀ es : List Expr,
    (findingIds (findingsOfArgs ctx scopes es)).Sublist (idsOfArgs es)
  | [] => List.Sublist.refl _
  | e :: es => by
    rw [findingsOfArgs, findingIds_append]
    exact (e.findings_ids ctx scopes).append (findingsOfArgs_ids ctx scopes es)
termination_by structural es => es

end

theorem Expr.findingsOf?_ids (ctx : Context) (scopes : StaticScopes) (e : Option Expr) :
    (findingIds (Expr.findingsOf? ctx scopes e)).Sublist (Expr.ids? e) := by
  cases e with
  | none => exact List.Sublist.refl _
  | some e => exact e.findings_ids ctx scopes

theorem superclassFindings_ids (ctx : Context) (scopes : StaticScopes) (name : Token)
    (e : Option Expr) :
    (findingIds (superclassFindings ctx scopes name e)).Sublist (Expr.ids? e) := by
  cases e with
  | none => exact List.Sublist.refl _
  | some e =>
    have hself : findingIds (e.selfInheritance name) = [] := by
      unfold Expr.selfInheritance
      split
      · exact findingIds_violationIf _ _ _
      · rfl
    rw [superclassFindings, findingIds_append, hself]
    exact e.findings_ids _ scopes

mutual

theorem Stmt.resolve_ids (ctx : Context) (scopes : StaticScopes) : ∀ s : Stmt,
    (findingIds (s.resolve ctx scopes).1).Sublist s.ids
  | .expression e => e.findings_ids ctx scopes
  | .print e => e.findings_ids ctx scopes
  | .var name init => by
    show (findingIds ((scopes.declare name).1 ++
      Expr.findingsOf? ctx (scopes.declare name).2 init)).Sublist _
    rw [findingIds_append, findingIds_declare]
    exact Expr.findingsOf?_ids ctx _ init
  | .block body => resolveAll_ids ctx _ body
  | .ifElse cond thenBranch none => by
    show (findingIds (cond.findings ctx scopes ++ (thenBranch.resolve ctx scopes).1)).Sublist _
    rw [findingIds_append]
    exact (cond.findings_ids ctx scopes).append (thenBranch.resolve_ids ctx scopes)
  | .ifElse cond thenBranch (some elseBranch) => by
    show (findingIds (cond.findings ctx scopes ++ (thenBranch.resolve ctx scopes).1 ++
      (elseBranch.resolve ctx (thenBranch.resolve ctx scopes).2).1)).Sublist _
    rw [findingIds_append, findingIds_append]
    exact ((cond.findings_ids ctx scopes).append (thenBranch.resolve_ids ctx scopes)).append
      (elseBranch.resolve_ids ctx _)
  | .while_ cond body => by
    show (findingIds (cond.findings ctx scopes ++ (body.resolve ctx scopes).1)).Sublist _
    rw [findingIds_append]
    exact (cond.findings_ids ctx scopes).append (body.resolve_ids ctx scopes)
  | .function decl => by
    show (findingIds ((scopes.introduce decl.name).1 ++
      decl.resolve ⟨.function, ctx.cls⟩ (scopes.introduce decl.name).2)).Sublist _
    rw [findingIds_append, findingIds_introduce]
    exact decl.resolve_ids _ _
  | .return_ keyword value => by
    show (findingIds (returnFindings ctx scopes keyword value)).Sublist _
    rw [returnFindings, findingIds_append, findingIds_append, findingIds_violationIf,
      findingIds_violationIf]
    exact Expr.findingsOf?_ids ctx scopes value
  | .class_ name superclass methods => by
    show (findingIds ((scopes.introduce name).1 ++
      superclassFindings ctx (scopes.introduce name).2 name superclass ++
      resolveMethods (if superclass.isSome then .subclass else .plain)
        (methodScopes (scopes.introduce name).2 superclass.isSome) methods)).Sublist _
    rw [findingIds_append, findingIds_append, findingIds_introduce]
    exact (superclassFindings_ids ctx _ name superclass).append (resolveMethods_ids _ _ methods)
termination_by structural s => s

theorem resolveAll_ids (ctx : Context) (scopes : StaticScopes) : ∀ body : List Stmt,
    (findingIds (resolveAll ctx scopes body).1).Sublist (idsOfAll body)
  | [] => List.Sublist.refl _
  | s :: rest => by
    show (findingIds ((s.resolve ctx scopes).1 ++
      (resolveAll ctx (s.resolve ctx scopes).2 rest).1)).Sublist _
    rw [findingIds_append]
    exact (s.resolve_ids ctx scopes).append (resolveAll_ids ctx _ rest)
termination_by structural body => body

theorem FunDecl.resolve_ids (ctx : Context) (scopes : StaticScopes) : ∀ d : FunDecl,
    (findingIds (d.resolve ctx scopes)).Sublist d.ids
  | .mk name params body => by
    show (findingIds ((StaticScopes.introduceAll ({} :: scopes) params).1 ++
      (resolveAll ctx (StaticScopes.introduceAll ({} :: scopes) params).2 body).1)).Sublist _
    rw [findingIds_append, findingIds_introduceAll]
    exact resolveAll_ids ctx _ body
termination_by structural d => d

theorem resolveMethods_ids (cls : ClassContext) (scopes : StaticScopes) : ∀ ds : List FunDecl,
    (findingIds (resolveMethods cls scopes ds)).Sublist (idsOfMethods ds)
  | [] => List.Sublist.refl _
  | d :: ds => by
    rw [resolveMethods, findingIds_append]
    exact (d.resolve_ids _ scopes).append (resolveMethods_ids cls scopes ds)
termination_by structural ds => ds

end

/-! ### Recorded distances -/

theorem Distances.find?_recordAll_of_notMem (d : Distances) {findings : List Finding} {id : NodeId}
    (h : id ∉ findingIds findings) : (d.recordAll findings).find? id = d.find? id := by
  induction findings generalizing d with
  | nil => rfl
  | cons f findings ih =>
    show ((f.record d).recordAll findings).find? id = _
    cases f with
    | violation token rule => exact ih d h
    | distance other steps =>
      have hsplit : id ∉ other :: findingIds findings := h
      rw [List.mem_cons, not_or] at hsplit
      rw [ih _ hsplit.2]
      exact find?_record_ne d hsplit.1 steps

theorem Distances.recordAll_append (d : Distances) (xs ys : List Finding) :
    d.recordAll (xs ++ ys) = (d.recordAll xs).recordAll ys :=
  List.foldl_append

theorem Distances.find?_recordAll_findings (d : Distances) (u : Use) :
    (d.recordAll u.findings).find? u.id = (u.depth?.or (d.find? u.id)) := by
  unfold Use.findings StaticScopes.useOf
  cases hdepth : u.place.scopes.depthOf? u.name.lexeme with
  | none => simp [Use.depth?, hdepth, Distances.recordAll]
  | some depth =>
    simp only [Use.depth?, hdepth, Option.some_or]
    exact find?_record_self d u.id depth

theorem Use.findingIds_findings (u : Use) : (findingIds u.findings).Sublist [u.id] :=
  findingIds_useOf u.place.scopes u.id u.name

theorem findingIds_flatMap_findings (us : List Use) :
    (findingIds (us.flatMap Use.findings)).Sublist (us.map Use.id) := by
  induction us with
  | nil => exact List.Sublist.refl _
  | cons u us ih =>
    rw [List.flatMap_cons, findingIds_append]
    exact u.findingIds_findings.append ih

/-- Once the findings are recorded, every use has the distance found for it. -/
theorem Distances.recordAll_uses (d : Distances) {us : List Use} (hnodup : (us.map Use.id).Nodup)
    (hnew : ∀ u ∈ us, d.find? u.id = none) :
    ∀ u ∈ us, (d.recordAll (us.flatMap Use.findings)).find? u.id = u.depth? := by
  induction us generalizing d with
  | nil => simp
  | cons v us ih =>
    rw [List.map_cons, List.nodup_cons] at hnodup
    intro u hu
    rw [List.flatMap_cons, recordAll_append]
    rcases List.mem_cons.mp hu with rfl | hu
    · rw [find?_recordAll_of_notMem _ fun hmem =>
          hnodup.1 ((findingIds_flatMap_findings us).subset hmem),
        find?_recordAll_findings, hnew u List.mem_cons_self, Option.or_none]
    · refine ih _ hnodup.2 (fun w hw => ?_) u hu
      have hne : w.id ≠ v.id := by
        intro heq
        exact hnodup.1 (heq ▸ List.mem_map_of_mem hw)
      have hother : w.id ∉ findingIds v.findings := fun hmem =>
        hne (List.mem_singleton.mp (v.findingIds_findings.subset hmem))
      rw [find?_recordAll_of_notMem d hother, hnew w (List.mem_cons_of_mem v hw)]

end Lox
