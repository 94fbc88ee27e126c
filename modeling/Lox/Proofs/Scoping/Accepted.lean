import Lox.Proofs.Scoping.Names

/-!
# Accepted code

What is known of code that has passed the static walk: it has the shape of parsed code, the walk has
found no violation in it, and its uses are among the known ones. The parts of such code have passed
the walk as well, each at its own place.
-/

namespace Lox

variable {known : List Use} {ctx : Context} {p : Place} {sites : List Site}
  {scopes : StaticScopes}

/-- An expression that has passed the walk at a place. -/
structure Expr.Accepted (known : List Use) (ctx : Context) (p : Place) (e : Expr) : Prop where
  formed : e.Formed Token.Spelled
  clean : Clean (e.findings ctx p.scopes)
  known : e.uses p ⊆ known

structure AcceptedArgs (known : List Use) (ctx : Context) (p : Place) (es : List Expr) : Prop where
  formed : formedArgs Token.Spelled es
  clean : Clean (findingsOfArgs ctx p.scopes es)
  known : usesOfArgs p es ⊆ known

structure Stmt.Accepted (known : List Use) (ctx : Context) (sites : List Site)
    (scopes : StaticScopes) (s : Stmt) : Prop where
  formed : s.Formed Token.Spelled
  clean : Clean (s.resolve ctx scopes).1
  known : s.uses sites scopes ⊆ known

structure AcceptedAll (known : List Use) (ctx : Context) (sites : List Site)
    (scopes : StaticScopes) (body : List Stmt) : Prop where
  formed : formedAll Token.Spelled body
  clean : Clean (resolveAll ctx scopes body).1
  known : usesOfAll sites scopes body ⊆ known

/-- The parameters and the body of a function that have passed the walk. -/
structure FunDecl.Accepted (known : List Use) (ctx : Context) (sites : List Site)
    (scopes : StaticScopes) (f : FunDecl) : Prop where
  names : ∀ t ∈ f.params, t.IsName
  params : Clean (StaticScopes.introduceAll ({} :: scopes) f.params).1
  body : AcceptedAll known ctx (.frame f :: sites)
    (StaticScopes.introduceAll ({} :: scopes) f.params).2 f.body

theorem AcceptedAll.mono {known' : List Use} {body : List Stmt}
    (ha : AcceptedAll known ctx sites scopes body) (hk : known ⊆ known') :
    AcceptedAll known' ctx sites scopes body :=
  ⟨ha.formed, ha.clean, fun _ hu => hk (ha.known hu)⟩

theorem FunDecl.Accepted.mono {known' : List Use} {f : FunDecl}
    (ha : f.Accepted known ctx sites scopes) (hk : known ⊆ known') :
    f.Accepted known' ctx sites scopes :=
  ⟨ha.names, ha.params, ha.body.mono hk⟩

theorem FunDecl.accepted {f : FunDecl} (hformed : f.Formed Token.Spelled)
    (hclean : Clean (f.resolve ctx scopes)) (hknown : f.uses sites scopes ⊆ known) :
    f.Accepted known ctx sites scopes := by
  cases f with
  | mk name params body =>
    have hsplit : Clean ((StaticScopes.introduceAll ({} :: scopes) params).1 ++
      (resolveAll ctx (StaticScopes.introduceAll ({} :: scopes) params).2 body).1) := hclean
    rw [clean_append] at hsplit
    exact ⟨hformed.2.1, hsplit.1, hformed.2.2, hsplit.2, hknown⟩

section Parts

variable {e left right object value callee cond : Expr} {id : NodeId} {op paren name : Token}

theorem accepted_cons {es : List Expr} (ha : AcceptedArgs known ctx p (e :: es)) :
    e.Accepted known ctx p ∧ AcceptedArgs known ctx p es := by
  have hclean := clean_append.mp ha.clean
  have hknown := List.append_subset.mp ha.known
  exact ⟨⟨ha.formed.1, hclean.1, hknown.1⟩, ⟨ha.formed.2, hclean.2, hknown.2⟩⟩

theorem Expr.Accepted.unary (ha : (Expr.unary id op right).Accepted known ctx p) :
    isUnaryOperator op.kind = true ∧ right.Accepted known ctx p :=
  ⟨ha.formed.1.1, ha.formed.2, ha.clean, ha.known⟩

theorem Expr.Accepted.binary (ha : (Expr.binary id left op right).Accepted known ctx p) :
    (∃ l : Level, l.isLogical = false ∧ l.hasOperator op.kind = true) ∧
      left.Accepted known ctx p ∧ right.Accepted known ctx p := by
  obtain ⟨l, hl, hop, -⟩ := ha.formed.1
  have hclean := clean_append.mp ha.clean
  have hknown := List.append_subset.mp ha.known
  exact ⟨⟨l, hl, hop⟩, ⟨ha.formed.2.1, hclean.1, hknown.1⟩, ha.formed.2.2, hclean.2, hknown.2⟩

theorem Expr.Accepted.logical (ha : (Expr.logical id left op right).Accepted known ctx p) :
    left.Accepted known ctx p ∧ right.Accepted known ctx p := by
  have hclean := clean_append.mp ha.clean
  have hknown := List.append_subset.mp ha.known
  exact ⟨⟨ha.formed.2.1, hclean.1, hknown.1⟩, ha.formed.2.2, hclean.2, hknown.2⟩

theorem Expr.Accepted.assign (ha : (Expr.assign id name value).Accepted known ctx p) :
    name.IsName ∧ value.Accepted known ctx p ∧ ⟨id, name, p⟩ ∈ known := by
  have hclean := clean_append.mp ha.clean
  have hknown := List.append_subset.mp ha.known
  exact ⟨ha.formed.1, ⟨ha.formed.2, hclean.1, hknown.1⟩, hknown.2 List.mem_cons_self⟩

theorem Expr.Accepted.call {args : List Expr}
    (ha : (Expr.call id callee paren args).Accepted known ctx p) :
    callee.Accepted known ctx p ∧ AcceptedArgs known ctx p args := by
  have hclean := clean_append.mp ha.clean
  have hknown := List.append_subset.mp ha.known
  exact ⟨⟨ha.formed.2.1, hclean.1, hknown.1⟩, ha.formed.2.2, hclean.2, hknown.2⟩

theorem Expr.Accepted.get (ha : (Expr.get id object name).Accepted known ctx p) :
    object.Accepted known ctx p :=
  ⟨ha.formed.2, ha.clean, ha.known⟩

theorem Expr.Accepted.set (ha : (Expr.set id object name value).Accepted known ctx p) :
    object.Accepted known ctx p ∧ value.Accepted known ctx p := by
  have hclean := clean_append.mp ha.clean
  have hknown := List.append_subset.mp ha.known
  exact ⟨⟨ha.formed.2.1, hclean.2, hknown.2⟩, ha.formed.2.2, hclean.1, hknown.1⟩

theorem acceptedAll_cons {s : Stmt} {rest : List Stmt}
    (ha : AcceptedAll known ctx sites scopes (s :: rest)) :
    s.Accepted known ctx sites scopes ∧
      AcceptedAll known ctx sites (s.scopesAfter scopes) rest := by
  have hclean := ha.clean
  rw [resolveAll_cons ctx scopes ha.formed.1, clean_append] at hclean
  have hknown := List.append_subset.mp ha.known
  exact ⟨⟨ha.formed.1, hclean.1, hknown.1⟩, ⟨ha.formed.2, hclean.2, hknown.2⟩⟩

theorem Stmt.Accepted.block {body : List Stmt}
    (ha : (Stmt.block body).Accepted known ctx sites scopes) :
    AcceptedAll known ctx (.block body :: sites) ({} :: scopes) body :=
  ⟨ha.formed, ha.clean, ha.known⟩

theorem Stmt.Accepted.var {init : Expr}
    (ha : (Stmt.var name (some init)).Accepted known ctx sites scopes) :
    Clean (scopes.declare name).1 ∧ name.IsName ∧
      init.Accepted known ctx (.ofInitializer sites scopes name) := by
  have hclean := clean_append.mp ha.clean
  exact ⟨hclean.1, ha.formed.1, ha.formed.2, hclean.2, ha.known⟩

theorem Stmt.Accepted.ifElse {thenBranch : Stmt} {elseBranch : Option Stmt}
    (ha : (Stmt.ifElse cond thenBranch elseBranch).Accepted known ctx sites scopes) :
    cond.Accepted known ctx ⟨sites, scopes, none⟩ ∧
      (thenBranch.isDeclaration = false ∧ thenBranch.Accepted known ctx sites scopes) ∧
      ∀ s, elseBranch = some s → s.isDeclaration = false ∧ s.Accepted known ctx sites scopes := by
  cases elseBranch with
  | none =>
    have hclean := clean_append.mp ha.clean
    have hknown := List.append_subset.mp ha.known
    exact ⟨⟨ha.formed.1, hclean.1, hknown.1⟩,
      ⟨ha.formed.2.1, ha.formed.2.2, hclean.2, hknown.2⟩, fun s hs => by simp at hs⟩
  | some elseBranch =>
    have hclean := ha.clean
    rw [Stmt.resolve_ifElse ctx scopes cond ha.formed.2.1, clean_append, clean_append] at hclean
    have hknown := List.append_subset.mp ha.known
    have hboth := List.append_subset.mp hknown.1
    refine ⟨⟨ha.formed.1, hclean.1.1, hboth.1⟩,
      ⟨ha.formed.2.1.1, ha.formed.2.1.2, hclean.1.2, hboth.2⟩, fun s hs => ?_⟩
    cases hs
    exact ⟨ha.formed.2.2.1, ha.formed.2.2.2, hclean.2, hknown.2⟩

theorem Stmt.Accepted.while_ {body : Stmt}
    (ha : (Stmt.while_ cond body).Accepted known ctx sites scopes) :
    cond.Accepted known ctx ⟨sites, scopes, none⟩ ∧
      body.isDeclaration = false ∧ body.Accepted known ctx sites scopes := by
  have hclean := clean_append.mp ha.clean
  have hknown := List.append_subset.mp ha.known
  exact ⟨⟨ha.formed.1, hclean.1, hknown.1⟩, ha.formed.2.1, ha.formed.2.2, hclean.2, hknown.2⟩

theorem Stmt.Accepted.function {f : FunDecl}
    (ha : (Stmt.function f).Accepted known ctx sites scopes) :
    Clean (scopes.introduce f.name).1 ∧ f.name.IsName ∧
      f.Accepted known ⟨.function, ctx.cls⟩ sites (scopes.introduce f.name).2 := by
  have hclean := clean_append.mp ha.clean
  have hname : f.name.IsName := by
    have hformed := ha.formed
    cases f with
    | mk name params body => exact hformed.1
  exact ⟨hclean.1, hname, FunDecl.accepted ha.formed hclean.2 ha.known⟩

theorem Stmt.Accepted.return_ {value : Option Expr}
    (ha : (Stmt.return_ name value).Accepted known ctx sites scopes) :
    ctx.function ≠ .none ∧
      ∀ e, value = some e → e.Accepted known ctx ⟨sites, scopes, none⟩ := by
  have hclean : Clean (returnFindings ctx scopes name value) := ha.clean
  rw [returnFindings, clean_append, clean_append, clean_violationIf] at hclean
  refine ⟨of_decide_eq_false hclean.1.1, fun e he => ?_⟩
  cases he
  exact ⟨ha.formed.2, hclean.2, ha.known⟩

end Parts

/-! ### Methods -/

/-- The class that code inside the methods belongs to. -/
def methodClass (superclass : Option Expr) : ClassContext :=
  if superclass.isSome then .subclass else .plain

theorem accepted_of_mem {cls : ClassContext} {methods : List FunDecl}
    (hformed : formedMethods Token.Spelled methods)
    (hclean : Clean (resolveMethods cls scopes methods))
    (hknown : usesOfMethods sites scopes methods ⊆ known) {f : FunDecl} (hf : f ∈ methods) :
    f.Accepted known ⟨methodContext f, cls⟩ (.receiver f :: sites) scopes := by
  induction methods with
  | nil => simp at hf
  | cons g methods ih =>
    rw [resolveMethods, clean_append] at hclean
    have hsplit := List.append_subset.mp hknown
    rcases List.mem_cons.mp hf with rfl | hf
    · exact FunDecl.accepted hformed.1 hclean.1 hsplit.1
    · exact ih hformed.2 hclean.2 hsplit.2 hf

/-- A class that has passed the walk. Its superclass has another name, so that it is found as if
the name of the class were not there yet. -/
structure ClassAccepted (known : List Use) (sites : List Site) (scopes : StaticScopes)
    (name : Token) (superclass : Option Expr) (methods : List FunDecl) : Prop where
  isName : name.IsName
  declared : Clean (scopes.introduce name).1
  parent : ∀ e, superclass = some e → ∃ id t, e = .var id t ∧ t.lexeme ≠ name.lexeme ∧
    (scopes.introduce name).2.isPending t.lexeme = false ∧
    (⟨id, t, ⟨sites, (scopes.introduce name).2, none⟩⟩ : Use) ∈ known
  methods : ∀ f ∈ methods, f.Accepted known ⟨methodContext f, methodClass superclass⟩
    (.receiver f :: methodSites sites name superclass methods)
    (methodScopes (scopes.introduce name).2 superclass.isSome)

theorem Stmt.Accepted.class_ {name : Token} {superclass : Option Expr} {methods : List FunDecl}
    (ha : (Stmt.class_ name superclass methods).Accepted known ctx sites scopes) :
    ClassAccepted known sites scopes name superclass methods := by
  have hclean : Clean ((scopes.introduce name).1 ++
    superclassFindings ctx (scopes.introduce name).2 name superclass ++
    resolveMethods (methodClass superclass)
      (methodScopes (scopes.introduce name).2 superclass.isSome) methods) := ha.clean
  rw [clean_append, clean_append] at hclean
  have hknown := List.append_subset.mp ha.known
  refine ⟨ha.formed.1, hclean.1.1, fun e he => ?_,
    fun f hf => accepted_of_mem ha.formed.2.2 hclean.2 hknown.2 hf⟩
  subst he
  have hformed : Expr.FormedSuperclass Token.Spelled (some e) := ha.formed.2.1
  cases e with
  | var id t =>
    have hparent := hclean.1.2
    rw [superclassFindings, clean_append, Expr.selfInheritance, clean_violationIf, Expr.findings,
      clean_append, clean_violationIf] at hparent
    exact ⟨id, t, rfl, by simpa using hparent.1, hparent.2.1, hknown.1 List.mem_cons_self⟩
  | _ => exact hformed.elim

end Lox
