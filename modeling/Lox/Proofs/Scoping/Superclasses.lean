import Lox.Proofs.Scoping.Accepted
import Lox.Proofs.Tree.Nodes

/-!
# Where `super` is written

The static walk accepts `super` only inside the methods of classes with a superclass. So the sites
around such a node start with blocks and functions, and then come the receiver of a method and the
superclass of the class that declares it: the walk finds `super` in the scope of the latter, one
scope out of that of the receiver (`Use.InMethod`). This holds of every such node in code that the
walk has accepted (`AcceptedAll.supers`, `Expr.Accepted.supers`).
-/

namespace Lox

/-- A construct inside a method: a block, or a function. -/
def Site.IsInner : Site → Prop
  | .block _ | .frame _ => True
  | .receiver _ | .parent _ _ => False

/-- Out through blocks and functions, `decl` is the first method around a place, and the class
`name` that declares it with these methods has a superclass. -/
structure Within (sites : List Site) (j : Nat) (decl : FunDecl) (name : Token)
    (methods : List FunDecl) : Prop where
  inner : ∀ i < j, ∃ site, sites[i]? = some site ∧ site.IsInner
  method : sites[j]? = some (.receiver decl)
  parent : sites[j + 1]? = some (.parent name methods)
  declared : decl ∈ methods

theorem Within.push {sites : List Site} {j : Nat} {decl : FunDecl} {name : Token}
    {methods : List FunDecl} (h : Within sites j decl name methods) {site : Site}
    (hsite : site.IsInner) : Within (site :: sites) (j + 1) decl name methods where
  inner i hi := by
    cases i with
    | zero => exact ⟨site, rfl, hsite⟩
    | succ i => exact h.inner i (Nat.lt_of_succ_lt_succ hi)
  method := h.method
  parent := h.parent
  declared := h.declared

/-- A use of `super` inside a method, which is found at the superclass of the class of the
method. -/
def Use.InMethod (u : Use) : Prop :=
  ∃ j decl name methods, Within u.place.sites j decl name methods ∧ u.depth? = some (j + 1)

/-- A node for `super` is a known use inside a method. -/
def Expr.Anchored (known : List Use) (e : Expr) : Prop :=
  ∀ id keyword method, e = .super id keyword method →
    keyword.lexeme = "super" ∧ ∃ u ∈ known, u.id = id ∧ u.InMethod

/-! ### The place of the walk -/

/-- Inside a class with a superclass, the walk is in a method and finds `super` at the superclass of
the class of the method. -/
def Context.Sits (ctx : Context) (sites : List Site) (scopes : StaticScopes) : Prop :=
  ctx.cls = .subclass → ∃ j decl name methods,
    Within sites j decl name methods ∧ scopes.depthOf? "super" = some (j + 1)

namespace Context

variable {ctx : Context} {sites : List Site} {scopes scopes' : StaticScopes}

theorem Sits.of_depth (h : ctx.Sits sites scopes)
    (hsuper : scopes'.depthOf? "super" = scopes.depthOf? "super") : ctx.Sits sites scopes' := by
  unfold Sits at h ⊢
  rw [hsuper]
  exact h

theorem Sits.with_function (h : ctx.Sits sites scopes) (f : FunctionContext) :
    Context.Sits ⟨f, ctx.cls⟩ sites scopes := h

theorem Sits.push (h : ctx.Sits sites scopes) (site : Site) (hsite : site.IsInner) :
    ctx.Sits (site :: sites) ({} :: scopes) := by
  intro hcls
  obtain ⟨j, decl, name, methods, hwithin, hdepth⟩ := h hcls
  refine ⟨j + 1, decl, name, methods, hwithin.push hsite, ?_⟩
  rw [StaticScopes.depthOf?_push, hdepth]
  rfl

theorem Sits.declare {name : Token} (h : ctx.Sits sites scopes) (hname : name.IsName) :
    ctx.Sits sites (scopes.declare name).2 :=
  h.of_depth (StaticScopes.depthOf?_declare_ne scopes hname.ne_super)

theorem Sits.introduce {name : Token} (h : ctx.Sits sites scopes) (hname : name.IsName) :
    ctx.Sits sites (scopes.introduce name).2 :=
  h.of_depth (StaticScopes.depthOf?_introduce_ne scopes hname.ne_super)

theorem Sits.introduceAll {names : List Token} (h : ctx.Sits sites scopes)
    (hnames : ∀ t ∈ names, t.IsName) : ctx.Sits sites (scopes.introduceAll names).2 :=
  h.of_depth (StaticScopes.depthOf?_introduceAll_ne scopes fun t ht => (hnames t ht).ne_super)

theorem Sits.scopesAfter {s : Stmt} (h : ctx.Sits sites scopes) (hformed : s.Formed Token.Spelled) :
    ctx.Sits sites (s.scopesAfter scopes) := by
  cases s with
  | var name init => exact h.introduce hformed.1
  | function decl =>
    cases decl with
    | mk name params body => exact h.introduce hformed.1
  | class_ name superclass methods => exact h.introduce hformed.1
  | _ => exact h

theorem sits_method (f : FunctionContext) (sites : List Site) (scopes : StaticScopes)
    (name : Token) (superclass : Option Expr) {decl : FunDecl} {methods : List FunDecl}
    (hdecl : decl ∈ methods) :
    Context.Sits ⟨f, methodClass superclass⟩
      (.receiver decl :: methodSites sites name superclass methods)
      (methodScopes scopes superclass.isSome) := by
  intro hcls
  cases superclass with
  | none => cases hcls
  | some e =>
    refine ⟨0, decl, name, methods, ⟨?_, rfl, rfl, hdecl⟩, ?_⟩
    · exact fun i hi => absurd hi (Nat.not_lt_zero i)
    · rw [Option.isSome_some, methodScopes, StaticScopes.depthOf?_cons, if_neg (by decide),
        if_pos rfl, StaticScopes.depthOf?_cons, if_pos (by decide)]
      rfl

end Context

/-! ### Accepted code -/

variable {known : List Use} {ctx : Context}

/-- All nodes of some code for `super` are known uses inside methods. -/
def Anchored (known : List Use) (nodes : List Expr) : Prop := ∀ e ∈ nodes, e.Anchored known

theorem anchored_append {xs ys : List Expr} :
    Anchored known (xs ++ ys) ↔ Anchored known xs ∧ Anchored known ys :=
  List.forall_mem_append

theorem Anchored.concat {xs : List Expr} (h : Anchored known xs) {e : Expr}
    (he : ∀ id keyword method, e ≠ .super id keyword method) : Anchored known (xs ++ [e]) := by
  refine anchored_append.mpr ⟨h, List.forall_mem_singleton.mpr ?_⟩
  exact fun id keyword method heq => absurd heq (he id keyword method)

theorem anchored_single {e : Expr} (he : ∀ id keyword method, e ≠ .super id keyword method) :
    Anchored known [e] :=
  Anchored.concat (List.forall_mem_nil _) he

/-- The walk accepts `super` inside a class with a superclass only. -/
theorem Expr.Accepted.subclass {id : NodeId} {keyword method : Token} {p : Place}
    (h : (Expr.super id keyword method).Accepted known ctx p) : ctx.cls = .subclass := by
  have hclean := clean_append.mp h.clean
  rw [clean_append, clean_violationIf, clean_violationIf] at hclean
  cases hcls : ctx.cls with
  | none => simp [hcls] at hclean
  | plain => simp [hcls] at hclean
  | subclass => rfl

mutual

theorem Expr.Accepted.supers {p : Place} : ∀ {e : Expr}, e.Accepted known ctx p →
    ctx.Sits p.sites p.scopes → Anchored known e.nodes
  | .literal _ _, _, _ => anchored_single (by simp)
  | .grouping _ inner, h, hsits => by
    have hinner : inner.Accepted known ctx p := ⟨h.formed, h.clean, h.known⟩
    exact (hinner.supers hsits).concat (by simp)
  | .unary _ _ _, h, hsits => (h.unary.2.supers hsits).concat (by simp)
  | .binary _ _ _ _, h, hsits =>
    (anchored_append.mpr ⟨h.binary.2.1.supers hsits, h.binary.2.2.supers hsits⟩).concat (by simp)
  | .logical _ _ _ _, h, hsits =>
    (anchored_append.mpr ⟨h.logical.1.supers hsits, h.logical.2.supers hsits⟩).concat (by simp)
  | .var _ _, _, _ => anchored_single (by simp)
  | .assign _ _ _, h, hsits => (h.assign.2.1.supers hsits).concat (by simp)
  | .call _ _ _ _, h, hsits =>
    (anchored_append.mpr ⟨h.call.1.supers hsits, h.call.2.supers hsits⟩).concat (by simp)
  | .get _ _ _, h, hsits => (h.get.supers hsits).concat (by simp)
  | .set _ _ _ _, h, hsits =>
    (anchored_append.mpr ⟨h.set.2.supers hsits, h.set.1.supers hsits⟩).concat (by simp)
  | .this _ _, _, _ => anchored_single (by simp)
  | .super id keyword method, h, hsits => by
    have hlexeme : keyword.lexeme = "super" := h.formed.1.2.lexeme_eq_super h.formed.1.1
    refine List.forall_mem_singleton.mpr fun id' keyword' method' heq => ?_
    cases heq
    obtain ⟨j, decl, name, methods, hwithin, hdepth⟩ := hsits h.subclass
    refine ⟨hlexeme, ⟨id, keyword, p⟩, h.known List.mem_cons_self, rfl,
      j, decl, name, methods, hwithin, ?_⟩
    rw [Use.depth?, hlexeme]
    exact hdepth

theorem AcceptedArgs.supers {p : Place} : ∀ {es : List Expr}, AcceptedArgs known ctx p es →
    ctx.Sits p.sites p.scopes → Anchored known (nodesOfArgs es)
  | [], _, _ => List.forall_mem_nil _
  | _ :: _, h, hsits =>
    anchored_append.mpr
      ⟨(accepted_cons h).1.supers hsits, (accepted_cons h).2.supers hsits⟩

end

mutual

theorem Stmt.Accepted.supers {ctx : Context} {sites : List Site} {scopes : StaticScopes} :
    ∀ {s : Stmt}, s.Accepted known ctx sites scopes → ctx.Sits sites scopes →
      Anchored known s.nodes
  | .expression e, h, hsits => by
    have he : e.Accepted known ctx ⟨sites, scopes, none⟩ := ⟨h.formed, h.clean, h.known⟩
    exact he.supers hsits
  | .print e, h, hsits => by
    have he : e.Accepted known ctx ⟨sites, scopes, none⟩ := ⟨h.formed, h.clean, h.known⟩
    exact he.supers hsits
  | .var _ none, _, _ => List.forall_mem_nil _
  | .var _ (some _), h, hsits => h.var.2.2.supers (hsits.declare h.var.2.1)
  | .block _, h, hsits => h.block.supers (hsits.push _ trivial)
  | .ifElse _ _ none, h, hsits =>
    anchored_append.mpr ⟨h.ifElse.1.supers hsits, h.ifElse.2.1.2.supers hsits⟩
  | .ifElse _ _ (some elseBranch), h, hsits =>
    anchored_append.mpr ⟨anchored_append.mpr
      ⟨h.ifElse.1.supers hsits, h.ifElse.2.1.2.supers hsits⟩,
      (h.ifElse.2.2 elseBranch rfl).2.supers hsits⟩
  | .while_ _ _, h, hsits =>
    anchored_append.mpr ⟨h.while_.1.supers hsits, h.while_.2.2.supers hsits⟩
  | .function _, h, hsits =>
    h.function.2.2.supers ((hsits.introduce h.function.2.1).with_function .function)
  | .return_ _ none, _, _ => List.forall_mem_nil _
  | .return_ _ (some value), h, hsits => (h.return_.2 value rfl).supers hsits
  | .class_ name superclass methods, h, _ => by
    have hclass := h.class_
    refine anchored_append.mpr ⟨?_, supersOfMethods fun f hf => ?_⟩
    · cases superclass with
      | none => exact List.forall_mem_nil _
      | some e =>
        obtain ⟨id, t, rfl, -⟩ := hclass.parent e rfl
        exact anchored_single (by simp)
    · exact ⟨_, _, _, hclass.methods f hf, Context.sits_method _ _ _ _ _ hf⟩
termination_by structural s => s

theorem AcceptedAll.supers {ctx : Context} {sites : List Site} {scopes : StaticScopes} :
    ∀ {body : List Stmt}, AcceptedAll known ctx sites scopes body → ctx.Sits sites scopes →
      Anchored known (nodesOfAll body)
  | [], _, _ => List.forall_mem_nil _
  | _ :: _, h, hsits =>
    anchored_append.mpr ⟨(acceptedAll_cons h).1.supers hsits,
      (acceptedAll_cons h).2.supers (hsits.scopesAfter (acceptedAll_cons h).1.formed)⟩
termination_by structural body => body

theorem FunDecl.Accepted.supers {ctx : Context} {sites : List Site} {scopes : StaticScopes} :
    ∀ {f : FunDecl}, f.Accepted known ctx sites scopes → ctx.Sits sites scopes →
      Anchored known f.nodes
  | .mk name params body, h, hsits => by
    have hframe : ctx.Sits (.frame (.mk name params body) :: sites) ({} :: scopes) :=
      hsits.push _ trivial
    exact h.body.supers (hframe.introduceAll h.names)
termination_by structural f => f

theorem supersOfMethods : ∀ {methods : List FunDecl},
    (∀ f ∈ methods, ∃ ctx sites scopes, f.Accepted known ctx sites scopes ∧
      ctx.Sits sites scopes) → Anchored known (nodesOfMethods methods)
  | [], _ => List.forall_mem_nil _
  | f :: _, h => by
    obtain ⟨ctx, sites, scopes, hf, hsits⟩ := h f List.mem_cons_self
    exact anchored_append.mpr
      ⟨hf.supers hsits, supersOfMethods fun g hg => h g (List.mem_cons_of_mem _ hg)⟩
termination_by structural methods => methods

end

end Lox
