import Lox.Proofs.Evaluation.Preservation
import Lox.Proofs.Evaluation.Soundness
import Lox.Proofs.Scoping.Chain
import Lox.Proofs.Scoping.Passed

/-!
# Code in its place

Code that has passed the static walk runs where the scopes of the heap are those that the walk had
open around it, and where its display has the sites around it (`Task.Placed`). Functions and methods
have such a place, too, for each of their calls. `Invariant.placed` says that all this is kept by
evaluation, as well as the distances that have been recorded for known uses.

A declaration of a function binds its name last, so that the function is not in its place before the
declaration has come to an end. But it makes no difference to bind the name first.
-/

namespace Lox

variable {known known' : List Use} {past past' : List Moment} {m m' : Machine} {d d' : Display}
  {s : ScopeId} {ctx : Context} {p : Place} {scopes : StaticScopes}

/-! ### Places -/

/-- What a run keeps of a machine. -/
structure Machine.Retains (m m' : Machine) : Prop where
  heap : m.heap.Retains m'.heap
  globals : m'.globals = m.globals

/-- At this place a name is not yet defined only if it is that of the variable whose initializer is
at work. -/
def Place.Settled (p : Place) : Prop :=
  p.scopes.Settled p.initializing ∧ ∀ t, p.initializing = some t → t.IsName

/-- From `s` outwards, the scopes of the machine are those of the walk at a place. -/
structure Machine.At (past : List Moment) (m : Machine) (d : Display) (s : ScopeId) (ctx : Context)
    (p : Place) : Prop where
  chain : Chain past m.heap m.globals s d p.scopes
  sites : p.sites = d.map Activation.site
  settled : p.Settled
  sits : ctx.Sits p.sites p.scopes

/-- From `s` outwards, the scopes of the machine are those of the walk between two statements. -/
structure Machine.Between (past : List Moment) (m : Machine) (d : Display) (s : ScopeId)
    (ctx : Context) (scopes : StaticScopes) : Prop where
  chain : Chain past m.heap m.globals s d scopes
  defined : scopes.Defined
  sits : ctx.Sits (d.map Activation.site) scopes

theorem Chain.outlast (hc : Chain past m.heap m.globals s d scopes) (hp : past ⊆ past')
    (hr : m.Retains m') : Chain past' m'.heap m'.globals s d scopes := by
  rw [hr.globals]
  exact hc.retains hp hr.heap

theorem Machine.At.outlast (h : m.At past d s ctx p) (hp : past ⊆ past') (hr : m.Retains m') :
    m'.At past' d s ctx p :=
  ⟨h.chain.outlast hp hr, h.sites, h.settled, h.sits⟩

theorem Machine.Between.outlast (h : m.Between past d s ctx scopes) (hp : past ⊆ past')
    (hr : m.Retains m') : m'.Between past' d s ctx scopes :=
  ⟨h.chain.outlast hp hr, h.defined, h.sits⟩

theorem Machine.Between.at (h : m.Between past d s ctx scopes) :
    m.At past d s ctx ⟨d.map Activation.site, scopes, none⟩ :=
  ⟨h.chain, rfl, ⟨h.defined.settled none, fun _ ht => by simp at ht⟩, h.sits⟩

namespace Machine.Between

theorem ofInitializer {name : Token} (h : m.Between past d s ctx scopes)
    (hclean : Clean (scopes.declare name).1) (hname : name.IsName) :
    m.At past d s ctx (.ofInitializer (d.map Activation.site) scopes name) := by
  refine ⟨h.chain.declare hclean, rfl,
    ⟨StaticScopes.settled_declare h.defined hclean, fun t ht => ?_⟩, h.sits.declare hname⟩
  unfold Place.ofInitializer at ht
  dsimp only at ht
  split_ifs at ht
  rw [Option.some.injEq] at ht
  exact ht ▸ hname

theorem introduce {name : Token} (h : m.Between past d s ctx scopes)
    (hclean : Clean (scopes.introduce name).1) (hname : name.IsName)
    (hbound : (m.heap.getLocal? s name.lexeme).isSome) :
    m.Between past d s ctx (scopes.introduce name).2 :=
  ⟨h.chain.introduce hclean hbound, StaticScopes.defined_introduce h.defined hclean,
    h.sits.introduce hname⟩

theorem after {stmt : Stmt} {sites : List Site} (h : m.Between past d s ctx scopes)
    (hs : stmt.Accepted known ctx sites scopes)
    (hbound : ∀ name, stmt.declared? = some name → (m.heap.getLocal? s name.lexeme).isSome) :
    m.Between past d s ctx (stmt.scopesAfter scopes) := by
  cases stmt with
  | var name init =>
    exact h.introduce (clean_append.mp hs.clean).1 hs.formed.1 (hbound name rfl)
  | function decl =>
    obtain ⟨hclean, hname, -⟩ := hs.function
    exact h.introduce hclean hname (hbound decl.name rfl)
  | class_ name superclass methods =>
    exact h.introduce hs.class_.declared hs.class_.isName (hbound name rfl)
  | _ => exact h

theorem block (h : m.Between past d s ctx scopes) (body : List Stmt) :
    (m.entering ⟨{}, some s⟩).Between past (⟨.block body, m.heap.scopes.size⟩ :: d)
      m.heap.scopes.size ctx ({} :: scopes) := by
  refine ⟨h.chain.push trivial fun x hx => by simp at hx, h.defined.push, ?_⟩
  exact h.sits.push (.block body) trivial

end Machine.Between

/-! ### Functions and methods -/

/-- A function whose code has passed the walk inside the scopes that it closes over. -/
def Function.Callable (known : List Use) (past : List Moment) (m : Machine) (d : Display)
    (f : Function) : Prop :=
  ∃ ctx scopes, m.Between past d f.closure ctx scopes ∧
    f.decl.Accepted known ctx (d.map Activation.site) scopes

/-- A method whose code has passed the walk inside a scope of `this` and the scopes that the method
closes over. -/
def Function.Bindable (known : List Use) (past : List Moment) (m : Machine) (d : Display)
    (f : Function) : Prop :=
  ∃ ctx scopes, Chain past m.heap m.globals f.closure d scopes ∧ scopes.Defined ∧
    ctx.Sits (.receiver f.decl :: d.map Activation.site) (.singleton "this" true :: scopes) ∧
    f.decl.Accepted known ctx (.receiver f.decl :: d.map Activation.site)
      (.singleton "this" true :: scopes)

section Functions

variable {f : Function}

theorem Function.Callable.outlast (hf : f.Callable known past m d) (hk : known ⊆ known')
    (hp : past ⊆ past') (hr : m.Retains m') : f.Callable known' past' m' d := by
  obtain ⟨ctx, scopes, hplace, hdecl⟩ := hf
  exact ⟨ctx, scopes, hplace.outlast hp hr, hdecl.mono hk⟩

theorem Function.Bindable.outlast (hf : f.Bindable known past m d) (hk : known ⊆ known')
    (hp : past ⊆ past') (hr : m.Retains m') : f.Bindable known' past' m' d := by
  obtain ⟨ctx, scopes, hchain, hdefined, hsits, hdecl⟩ := hf
  exact ⟨ctx, scopes, hchain.outlast hp hr, hdefined, hsits, hdecl.mono hk⟩

theorem Function.Bindable.bound (hf : f.Bindable known past m d) (o : InstanceId) :
    Function.Callable known past
      { m with heap := (m.heap.newScope ⟨.singleton "this" (.inst o), some f.closure⟩).2 }
      (⟨.receiver f.decl, m.heap.scopes.size⟩ :: d) { f with closure := m.heap.scopes.size } := by
  obtain ⟨ctx, scopes, hchain, hdefined, hsits, hdecl⟩ := hf
  exact ⟨ctx, _, ⟨hchain.push_single fun hbound => ⟨o, hbound⟩, hdefined.push_single "this", hsits⟩,
    hdecl⟩

theorem Function.Callable.frame (hf : f.Callable known past m d) {vs : List Value}
    (harity : vs.length = f.arity) :
    ∃ ctx scopes, (m.entering ⟨Eval.bindArguments f.decl.params vs, some f.closure⟩).Between past
        (⟨.frame f.decl, m.heap.scopes.size⟩ :: d) m.heap.scopes.size ctx scopes ∧
      AcceptedAll known ctx (.frame f.decl :: d.map Activation.site) scopes f.decl.body := by
  obtain ⟨ctx, scopes, hplace, hdecl⟩ := hf
  refine ⟨ctx, _, ⟨hplace.chain.frame hdecl harity, ?_, ?_⟩, hdecl.body⟩
  · exact StaticScopes.defined_introduceAll hplace.defined.push hdecl.params
  · exact (hplace.sits.push (.frame f.decl) trivial).introduceAll hdecl.names

theorem ClassAccepted.bindable {name : Token} {superclass : Option Expr} {methods : List FunDecl}
    {closure : ScopeId} {sites : List Site} {inner : StaticScopes}
    (hclass : ClassAccepted known sites scopes name superclass methods)
    (hchain : Chain past m.heap m.globals closure d inner) (hdefined : inner.Defined)
    (hsites : methodSites sites name superclass methods = d.map Activation.site)
    (hscopes : methodScopes (scopes.introduce name).2 superclass.isSome =
      .singleton "this" true :: inner) {decl : FunDecl} (hdecl : decl ∈ methods) :
    Function.Bindable known past m d ⟨decl, closure, decl.isInitializer⟩ := by
  have hsits := Context.sits_method (methodContext decl) sites (scopes.introduce name).2 name
    superclass hdecl
  have haccepted := hclass.methods decl hdecl
  rw [hsites, hscopes] at hsits haccepted
  exact ⟨_, inner, hchain, hdefined, hsits, haccepted⟩

end Functions

/-! ### Tasks -/

/-- An expression that has passed the walk at a place, or the name of a superclass: its use is known
where the class already has its name, which makes no difference to it. -/
def Expr.Placed (known : List Use) (ctx : Context) (p : Place) (e : Expr) : Prop :=
  e.Accepted known ctx p ∨ ∃ id t, e = .var id t ∧ p.scopes.isPending t.lexeme = false ∧
    ∃ u ∈ known, u.id = id ∧ u.name = t ∧ u.place.sites = p.sites ∧
      u.depth? = p.scopes.depthOf? t.lexeme

theorem Expr.Placed.accepted {e : Expr} (h : e.Placed known ctx p)
    (hvar : ∀ id t, e ≠ .var id t) : e.Accepted known ctx p := by
  rcases h with h | ⟨id, t, rfl, -⟩
  · exact h
  · exact absurd rfl (hvar id t)

/-- The code of a task belongs to a display and a scope. -/
def Task.Placed (known : List Use) (past : List Moment) (m : Machine) (d : Display) (s : ScopeId) :
    Task → Prop
  | .expr e => ∃ ctx p, m.At past d s ctx p ∧ e.Placed known ctx p
  | .args es => ∃ ctx p, m.At past d s ctx p ∧ AcceptedArgs known ctx p es
  | .call _ _ _ => True
  | .body f _ vs => vs.length = f.arity
  | .stmt st => ∃ ctx scopes, m.Between past d s ctx scopes ∧
      st.Accepted known ctx (d.map Activation.site) scopes
  | .loop cond st => ∃ ctx scopes, m.Between past d s ctx scopes ∧
      (Stmt.while_ cond st).Accepted known ctx (d.map Activation.site) scopes
  | .stmts rest => ∃ ctx scopes, m.Between past d s ctx scopes ∧
      AcceptedAll known ctx (d.map Activation.site) scopes rest

namespace Task.Placed

variable {t t' : Task}

theorem outlast (h : t.Placed known past m d s) (hp : past ⊆ past') (hr : m.Retains m') :
    t.Placed known past' m' d s := by
  cases t with
  | expr e =>
    obtain ⟨ctx, p, hat, he⟩ := h
    exact ⟨ctx, p, hat.outlast hp hr, he⟩
  | args es =>
    obtain ⟨ctx, p, hat, hes⟩ := h
    exact ⟨ctx, p, hat.outlast hp hr, hes⟩
  | call paren f vs => trivial
  | body f origin vs => exact h
  | stmt st =>
    obtain ⟨ctx, scopes, hplace, hs⟩ := h
    exact ⟨ctx, scopes, hplace.outlast hp hr, hs⟩
  | loop cond st =>
    obtain ⟨ctx, scopes, hplace, hs⟩ := h
    exact ⟨ctx, scopes, hplace.outlast hp hr, hs⟩
  | stmts rest =>
    obtain ⟨ctx, scopes, hplace, hrest⟩ := h
    exact ⟨ctx, scopes, hplace.outlast hp hr, hrest⟩

theorem not_implicit (h : t.Placed known past m d s) (name : Token)
    (hbound : t.bound? = some name) : ¬IsImplicit name.lexeme := by
  refine Token.IsName.not_implicit ?_
  cases t with
  | expr e =>
    obtain ⟨ctx, p, -, he⟩ := h
    cases e with
    | assign id target value =>
      cases hbound
      exact (he.accepted (by simp)).formed.1
    | _ => cases hbound
  | stmt st =>
    obtain ⟨ctx, scopes, -, hs⟩ := h
    exact Task.Formed.bound (t := .stmt st) hs.formed hbound
  | _ => cases hbound

theorem operand {e e' : Expr} (h : (Task.expr e).Placed known past m d s)
    (hvar : ∀ id t, e ≠ .var id t)
    (hpart : ∀ {ctx p}, e.Accepted known ctx p → e'.Accepted known ctx p) :
    (Task.expr e').Placed known past m d s := by
  obtain ⟨ctx, p, hat, he⟩ := h
  exact ⟨ctx, p, hat, .inl (hpart (he.accepted hvar))⟩

theorem exprOf {st : Stmt} {e : Expr} (h : (Task.stmt st).Placed known past m d s)
    (hpart : ∀ {ctx scopes}, st.Accepted known ctx (d.map Activation.site) scopes →
      e.Accepted known ctx ⟨d.map Activation.site, scopes, none⟩) :
    (Task.expr e).Placed known past m d s := by
  obtain ⟨ctx, scopes, hplace, hs⟩ := h
  exact ⟨ctx, _, hplace.at, .inl (hpart hs)⟩

theorem branchOf {st st' : Stmt} (h : (Task.stmt st).Placed known past m d s)
    (hpart : ∀ {ctx scopes}, st.Accepted known ctx (d.map Activation.site) scopes →
      st'.Accepted known ctx (d.map Activation.site) scopes) :
    (Task.stmt st').Placed known past m d s := by
  obtain ⟨ctx, scopes, hplace, hs⟩ := h
  exact ⟨ctx, scopes, hplace, hpart hs⟩

theorem part (h : t.Placed known past m d s) (hpart : t.Part t') : t'.Placed known past m d s := by
  cases hpart with
  | inner id e => exact h.operand (by simp) fun he => ⟨he.formed, he.clean, he.known⟩
  | operand id op e => exact h.operand (by simp) fun he => he.unary.2
  | left id a op b => exact h.operand (by simp) fun he => he.binary.2.1
  | right id a op b => exact h.operand (by simp) fun he => he.binary.2.2
  | first id a op b => exact h.operand (by simp) fun he => he.logical.1
  | second id a op b => exact h.operand (by simp) fun he => he.logical.2
  | assigned id name e => exact h.operand (by simp) fun he => he.assign.2.1
  | callee id e paren es => exact h.operand (by simp) fun he => he.call.1
  | arguments id e paren es =>
    obtain ⟨ctx, p, hat, he⟩ := h
    exact ⟨ctx, p, hat, (he.accepted (by simp)).call.2⟩
  | call => trivial
  | object id e name => exact h.operand (by simp) fun he => he.get
  | owner id e name value => exact h.operand (by simp) fun he => he.set.1
  | field id e name value => exact h.operand (by simp) fun he => he.set.2
  | argument e es =>
    obtain ⟨ctx, p, hat, hes⟩ := h
    exact ⟨ctx, p, hat, .inl (accepted_cons hes).1⟩
  | others e es =>
    obtain ⟨ctx, p, hat, hes⟩ := h
    exact ⟨ctx, p, hat, (accepted_cons hes).2⟩
  | expression e => exact h.exprOf fun hs => ⟨hs.formed, hs.clean, hs.known⟩
  | printed e => exact h.exprOf fun hs => ⟨hs.formed, hs.clean, hs.known⟩
  | initial name e =>
    obtain ⟨ctx, scopes, hplace, hs⟩ := h
    obtain ⟨hclean, hname, he⟩ := hs.var
    exact ⟨ctx, _, hplace.ofInitializer hclean hname, .inl he⟩
  | condition e st st' => exact h.exprOf fun hs => hs.ifElse.1
  | thenBranch e st st' => exact h.branchOf fun hs => hs.ifElse.2.1.2
  | elseBranch e st st' => exact h.branchOf fun hs => (hs.ifElse.2.2 st' rfl).2
  | loop e st => exact h
  | returned keyword e => exact h.exprOf fun hs => hs.return_.2 e rfl
  | superclass name e methods =>
    obtain ⟨ctx, scopes, hplace, hs⟩ := h
    obtain ⟨id, target, rfl, hne, -, hmem⟩ := hs.class_.parent e rfl
    refine ⟨ctx, _, hplace.at, .inr ⟨id, target, rfl, hplace.defined.not_pending _, _, hmem, rfl,
      rfl, rfl, ?_⟩⟩
    exact StaticScopes.depthOf?_introduce_ne scopes hne.symm
  | again e st =>
    have hloop : (Task.stmt (.while_ e st)).Placed known past m d s := h
    exact hloop.exprOf fun hs => hs.while_.1
  | repeated e st =>
    have hloop : (Task.stmt (.while_ e st)).Placed known past m d s := h
    exact hloop.branchOf fun hs => hs.while_.2.2
  | statement st rest =>
    obtain ⟨ctx, scopes, hplace, hrest⟩ := h
    exact ⟨ctx, scopes, hplace, (acceptedAll_cons hrest).1⟩

theorem following {st : Stmt} {rest : List Stmt}
    (h : (Task.stmts (st :: rest)).Placed known past m d s)
    (hbound : ∀ name, st.declared? = some name → (m.heap.getLocal? s name.lexeme).isSome) :
    (Task.stmts rest).Placed known past m d s := by
  obtain ⟨ctx, scopes, hplace, hall⟩ := h
  obtain ⟨hs, hrest⟩ := acceptedAll_cons hall
  exact ⟨ctx, _, hplace.after hs hbound, hrest⟩

theorem block {body : List Stmt} (h : (Task.stmt (.block body)).Placed known past m d s) :
    (Task.stmts body).Placed known past (m.entering ⟨{}, some s⟩)
      (⟨.block body, m.heap.scopes.size⟩ :: d) m.heap.scopes.size := by
  obtain ⟨ctx, scopes, hplace, hs⟩ := h
  exact ⟨ctx, _, hplace.block body, hs.block⟩

theorem function {decl : FunDecl} (h : (Task.stmt (.function decl)).Placed known past m d s)
    (hbound : (m.heap.getLocal? s decl.name.lexeme).isSome) :
    Function.Callable known past m d ⟨decl, s, false⟩ := by
  obtain ⟨ctx, scopes, hplace, hs⟩ := h
  obtain ⟨hclean, hname, hdecl⟩ := hs.function
  have hafter := hplace.introduce hclean hname hbound
  exact ⟨⟨.function, ctx.cls⟩, _, ⟨hafter.chain, hafter.defined, hafter.sits⟩, hdecl⟩

theorem own {name : Token} {methods : List FunDecl}
    (h : (Task.stmt (.class_ name none methods)).Placed known past m d s)
    (hbound : (m.heap.getLocal? s name.lexeme).isSome) {decl : FunDecl} (hdecl : decl ∈ methods) :
    Function.Bindable known past m d ⟨decl, s, decl.isInitializer⟩ := by
  obtain ⟨ctx, scopes, hplace, hs⟩ := h
  have hclass := hs.class_
  have hafter := hplace.introduce hclass.declared hclass.isName hbound
  exact hclass.bindable hafter.chain hafter.defined rfl rfl hdecl

end Task.Placed

/-- The execution of the declaration of a class that has evaluated the name of its superclass. -/
theorem Declaring.declares {name t : Token} {id : NodeId} {methods : List FunDecl} {c : ClassId}
    (h : Declaring past m name (.var id t) methods c) :
    ∃ x ∈ past, ∃ y ∈ past, Declares x y name methods m.heap.scopes.size c := by
  obtain ⟨x, hx, y, hy, hxtask, hytask, hmachine, n, next, heval, rfl⟩ := h
  cases n with
  | zero => cases heval
  | succ n =>
    have hread : Eval.readVariable id t x.machine = .ok (.cls c) next := heval
    have hsame : next = x.machine := by
      unfold Eval.readVariable at hread
      dsimp only at hread
      split at hread <;> cases hread
      rfl
    subst hsame
    exact ⟨x, hx, y, hy, hmachine, by simp, id, t, hxtask, hytask, hread⟩

/-- The methods of a class with a superclass may be bound once there is a scope of `super`. -/
theorem Task.Placed.parent {name : Token} {e : Expr} {methods : List FunDecl} {c : ClassId}
    (h : (Task.stmt (.class_ name (some e) methods)).Placed known past m d s)
    (hbound : (m.heap.getLocal? s name.lexeme).isSome)
    (hc : Declaring past m name e methods c) {decl : FunDecl} (hdecl : decl ∈ methods) :
    Function.Bindable known past
      { m with heap := (m.heap.newScope ⟨.singleton "super" (.cls c), some s⟩).2 }
      (⟨.parent name methods, m.heap.scopes.size⟩ :: d)
      ⟨decl, m.heap.scopes.size, decl.isInitializer⟩ := by
  obtain ⟨ctx, scopes, hplace, hs⟩ := h
  have hclass := hs.class_
  have hafter := hplace.introduce hclass.declared hclass.isName hbound
  obtain ⟨id, t, rfl, -⟩ := hclass.parent e rfl
  obtain ⟨x, hx, y, hy, hdeclares⟩ := hc.declares
  have hchain : Chain past (m.heap.newScope ⟨.singleton "super" (.cls c), some s⟩).2 m.globals
      m.heap.scopes.size (⟨.parent name methods, m.heap.scopes.size⟩ :: d)
      (.singleton "super" true :: (scopes.introduce name).2) :=
    hafter.chain.push_single fun hv => ⟨x, hx, y, hy, c, hdeclares, hv⟩
  exact hclass.bindable hchain (hafter.defined.push_single "super") rfl rfl hdecl

/-! ### The invariant -/

/-- Facts in hand are in their place. -/
def Fact.Placed (known : List Use) (past : List Moment) (m : Machine) : Fact → Prop
  | .ref _ => True
  | .bound s x => (m.heap.getLocal? s x).isSome
  | .callable d f => f.Callable known past m d
  | .method d f => f.Bindable known past m d
  | .task d s t => t.Placed known past m d s

theorem Fact.Placed.outlast {fact : Fact} (hf : fact.Placed known past m) (hp : past ⊆ past')
    (hr : m.Retains m') : fact.Placed known past' m' := by
  cases fact with
  | ref r => trivial
  | bound s x => exact hr.heap.grown.bound s x hf
  | callable d f => exact Function.Callable.outlast hf (List.Subset.refl _) hp hr
  | method d f => exact Function.Bindable.outlast hf (List.Subset.refl _) hp hr
  | task d s t => exact Task.Placed.outlast hf hp hr

/-- The distances that the walk has counted are recorded for the known uses. -/
def Machine.Records (known : List Use) (m : Machine) : Prop :=
  ∀ u ∈ known, m.distances.find? u.id = u.depth?

/-- All functions and all methods are in their place. -/
structure Machine.Placed (known : List Use) (past : List Moment) (m : Machine) : Prop where
  functions : ∀ g, m.heap.Has (.function g) →
    (m.heap.function g).Callable known past m ((displays past).functions g)
  methods : ∀ c name f, m.heap.Has (.cls c) → m.heap.findMethod? c name = some f →
    f.Bindable known past m ((displays past).methods c name)
  records : m.Records known

namespace Machine.Placed

variable {t : Task} {act : Act} {needs gives : List Fact} {fact : Fact}

theorem isSome_getLocal?_define {h : Heap} {s : ScopeId} (hs : h.Has (.scope s)) (x : String)
    (v : Value) : ((h.define s x v).getLocal? s x).isSome := by
  rw [Heap.getLocal?_define, if_pos ⟨⟨rfl, hs⟩, rfl⟩]
  rfl

theorem methods_outlast (h : m.Placed known past) (hp : past ⊆ past') (hr : m.Retains m')
    (hclasses : m'.heap.classes = m.heap.classes)
    (hmethods : (displays past').methods = (displays past).methods) (c : ClassId) (name : String)
    (f : Function) (hc : m'.heap.Has (.cls c)) (hf : m'.heap.findMethod? c name = some f) :
    f.Bindable known past' m' ((displays past').methods c name) := by
  rw [hmethods]
  rw [Heap.findMethod?_congr _ hclasses] at hf
  rw [Heap.Has, hclasses] at hc
  exact (h.methods c name f hc hf).outlast (List.Subset.refl _) hp hr

theorem outlast (h : m.Placed known past) (hp : past ⊆ past') (hr : m.Retains m')
    (hdistances : m'.distances = m.distances) (hfunctions : m'.heap.functions = m.heap.functions)
    (hclasses : m'.heap.classes = m.heap.classes)
    (hdisplays : (displays past').functions = (displays past).functions ∧
      (displays past').methods = (displays past).methods) : m'.Placed known past' where
  functions g hg := by
    rw [hdisplays.1, Heap.function, hfunctions]
    rw [Heap.Has, hfunctions] at hg
    exact (h.functions g hg).outlast (List.Subset.refl _) hp hr
  methods := h.methods_outlast hp hr hclasses hdisplays.2
  records u hu := by rw [hdistances, h.records u hu]

/-- One more function, at work in `d` when it is called. -/
theorem addFunction (h : m.Placed known past) (hp : past ⊆ past') (hr : m.Retains m')
    (hdistances : m'.distances = m.distances) {f : Function}
    (hfunctions : m'.heap.functions = (m.heap.newFunction f).2.functions)
    (hclasses : m'.heap.classes = m.heap.classes)
    (hdisplays : (displays past').functions =
      fun g => if g = m.heap.functions.size then d else (displays past).functions g)
    (hmethods : (displays past').methods = (displays past).methods)
    (hf : f.Callable known past' m' d) : m'.Placed known past' where
  functions g hg := by
    have hfunction : m'.heap.function g = (m.heap.newFunction f).2.function g := by
      rw [Heap.function, hfunctions]
      rfl
    rw [hfunction, Heap.function_newFunction, hdisplays]
    dsimp only
    split_ifs with hnew
    · exact hf
    · rw [Heap.Has, hfunctions] at hg
      have hold : m.heap.Has (.function g) := (Heap.has_newFunction.mp hg).resolve_right hnew
      exact (h.functions g hold).outlast (List.Subset.refl _) hp hr
  methods := h.methods_outlast hp hr hclasses hmethods
  records u hu := by rw [hdistances, h.records u hu]

theorem newFunction (h : m.Placed known past) {f : Function} {origin : Origin} (held : List Ref)
    (hf : f.Callable known past m ((displays past).kept origin f)) :
    let next : Machine := { m with heap := (m.heap.newFunction f).2 }
    next.Placed known (past ++ [⟨.closes m.heap.functions.size origin, t, held, next⟩]) := by
  intro next
  have hr : m.Retains next := ⟨Heap.retains_of_scopes rfl, rfl⟩
  have hp := List.subset_append_left past [⟨.closes m.heap.functions.size origin, t, held, next⟩]
  have hself : next.heap.function m.heap.functions.size = f := by
    rw [Heap.function_newFunction, if_pos rfl]
  refine h.addFunction hp hr rfl rfl rfl ?_ ?_ (hf.outlast (List.Subset.refl _) hp hr)
  · rw [displays_concat]
    show (fun g => if g = m.heap.functions.size then
      (displays past).kept origin (next.heap.function m.heap.functions.size)
        else (displays past).functions g) = _
    rw [hself]
  · rw [displays_concat]
    rfl

theorem newClass (h : m.Placed known past) {D : Declaration} (held : List Ref)
    (hD : ∀ decl ∈ D.methods, Function.Bindable known past m ((displays past).ofClass D)
      ⟨decl, D.closure, decl.isInitializer⟩) :
    let next : Machine := { m with heap :=
      (m.heap.newClass ⟨D.name.lexeme, D.parent, Eval.methodTable D.closure D.methods⟩).2 }
    next.Placed known (past ++ [⟨.declares m.heap.classes.size D, t, held, next⟩]) := by
  intro next
  have hr : m.Retains next := ⟨Heap.retains_of_scopes rfl, rfl⟩
  have hp := List.subset_append_left past [⟨.declares m.heap.classes.size D, t, held, next⟩]
  refine ⟨fun g hg => ?_, fun c name f hc hf => ?_, h.records⟩
  · rw [displays_concat]
    exact (h.functions g hg).outlast (List.Subset.refl _) hp hr
  · rw [displays_concat]
    show Function.Bindable known _ next ((if c = m.heap.classes.size then
      (displays past).ofMethods D else (displays past).methods c) name) f
    split_ifs with hnew
    · subst hnew
      rcases Heap.findMethod?_newClass_self m.heap hf with hown | ⟨hnone, parent, hlt, hparent, hf⟩
      · obtain ⟨decl, hdecl, rfl, rfl⟩ := Eval.mem_methodTable hown
        have hany : D.methods.any (·.name.lexeme == decl.name.lexeme) = true :=
          List.any_eq_true.mpr ⟨decl, hdecl, BEq.rfl⟩
        rw [Displays.ofMethods, if_pos hany]
        exact (hD decl hdecl).outlast (List.Subset.refl _) hp hr
      · rw [Displays.ofMethods, if_neg, show D.parent = some parent from hparent]
        · exact (h.methods parent name f hlt hf).outlast (List.Subset.refl _) hp hr
        · intro hany
          obtain ⟨decl, hdecl, heq⟩ := List.any_eq_true.mp hany
          have hsome := Eval.isSome_methodTable D.closure hdecl
          rw [beq_iff_eq.mp heq, show (Eval.methodTable _ _).find? name = none from hnone] at hsome
          cases hsome
    · have hlt : c < m.heap.classes.size := (Heap.has_newClass.mp hc).resolve_right hnew
      rw [Heap.findMethod?_newClass_of_lt m.heap _ hlt] at hf
      exact (h.methods c name f hlt hf).outlast (List.Subset.refl _) hp hr

theorem look (h : m.Placed known past) (ht : t.Placed known past m (displays past).top m.current)
    (hneeds : ∀ need ∈ needs, need.Sound (fun _ => True) m.heap ∧ need.Placed known past m)
    (hlook : Look (displays past) m t needs fact) : fact.Placed known past m := by
  cases hlook with
  | function _ g => exact h.functions g (hneeds _ List.mem_cons_self).1
  | method _ hf => exact h.methods _ _ _ (hneeds _ List.mem_cons_self).1 hf
  | own hd => exact ht.own (hneeds _ List.mem_cons_self).2 hd
  | part hpart => exact ht.part hpart
  | following st rest =>
    refine ht.following fun name hname => ?_
    exact (hneeds (.bound m.current name.lexeme) (by simp [Stmt.facts, hname])).2
  | called _ origin harity => exact harity
  | _ => trivial

/-- What a change makes of the functions and methods, and the facts that it gives. -/
theorem change (h : m.Placed known past) (hcurrent : m.heap.Has (.scope m.current))
    (ht : t.Placed known past m (displays past).top m.current)
    (hneeds : ∀ need ∈ needs, need.Placed known past m)
    (hc : Change past m t act needs m' gives) (held : List Ref) :
    m'.Placed known (past ++ [⟨act, t, held, m'⟩]) ∧
      ∀ fact ∈ gives, fact.Placed known (past ++ [⟨act, t, held, m'⟩]) m' := by
  have hp := List.subset_append_left past [⟨act, t, held, m'⟩]
  have hr : m.Retains m' := ⟨(hc.endures ht.not_implicit).scopes, hc.globals⟩
  have hlasts : ∀ {facts : List Fact}, (∀ fact ∈ facts, fact.Placed known past m') →
      ∀ fact ∈ facts, fact.Placed known (past ++ [⟨act, t, held, m'⟩]) m' :=
    fun hfacts fact hfact => (hfacts fact hfact).outlast hp ⟨.refl _, rfl⟩
  have hsame : m'.heap.functions = m.heap.functions → m'.heap.classes = m.heap.classes →
      (((displays past).after ⟨act, t, held, m'⟩).functions = (displays past).functions ∧
        ((displays past).after ⟨act, t, held, m'⟩).methods = (displays past).methods) →
      m'.Placed known (past ++ [⟨act, t, held, m'⟩]) := fun hfunctions hclasses hdisplays =>
    h.outlast hp hr hc.distances hfunctions hclasses (displays_concat past _ ▸ hdisplays)
  cases hc with
  | define hbound v =>
    refine ⟨hsame rfl rfl ⟨rfl, rfl⟩, ?_⟩
    exact List.forall_mem_singleton.mpr (isSome_getLocal?_define hcurrent _ v)
  | closes _ origin f =>
    exact ⟨h.newFunction held (hneeds _ List.mem_cons_self), List.forall_mem_singleton.mpr trivial⟩
  | declares _ D =>
    have hmethods := (List.forall_mem_cons.mp (List.forall_mem_append.mp hneeds).2).2
    exact ⟨h.newClass held fun decl hdecl => List.forall_mem_map.mp hmethods decl hdecl,
      List.forall_mem_singleton.mpr trivial⟩
  | block body =>
    refine ⟨hsame rfl rfl ⟨rfl, rfl⟩, ?_⟩
    exact hlasts (List.forall_mem_singleton.mpr ht.block)
  | frame f origin vs =>
    have hf : f.Callable known past m _ := hneeds _ List.mem_cons_self
    refine ⟨hsame rfl rfl ⟨rfl, rfl⟩, ?_⟩
    exact hlasts (List.forall_mem_singleton.mpr (hf.frame ht))
  | receiver _ d f o =>
    have hf : f.Bindable known past m d := hneeds _ List.mem_cons_self
    refine ⟨hsame rfl rfl ⟨rfl, rfl⟩, hlasts ?_⟩
    exact List.forall_mem_cons.mpr ⟨trivial, List.forall_mem_singleton.mpr (hf.bound o)⟩
  | parent hdeclaring =>
    have hbound := hneeds _ (List.mem_cons_of_mem _ List.mem_cons_self)
    refine ⟨hsame rfl rfl ⟨rfl, rfl⟩, hlasts ?_⟩
    exact List.forall_mem_cons.mpr ⟨trivial, List.forall_mem_map.mpr fun decl hdecl =>
      ht.parent hbound hdeclaring hdecl⟩
  | creates => exact ⟨hsame rfl rfl ⟨rfl, rfl⟩, List.forall_mem_singleton.mpr trivial⟩
  | _ => exact ⟨hsame rfl rfl ⟨rfl, rfl⟩, List.forall_mem_nil _⟩

theorem declare (h : m.Placed known past) (hcurrent : m.heap.Has (.scope m.current))
    {decl : FunDecl} (held : List Ref)
    (ht : (Task.stmt (.function decl)).Placed known past m (displays past).top m.current) :
    let x := Moment.created m decl held
    let y := Moment.introduced m decl held
    m.Retains y.machine ∧ y.machine.Placed known (past ++ [x] ++ [y]) ∧
      (y.machine.heap.getLocal? m.current decl.name.lexeme).isSome := by
  intro x y
  have hcreated : m.heap.Retains x.machine.heap := Heap.retains_of_scopes rfl
  have hdefine := Heap.retains_define x.machine.heap m.current (ht.not_implicit decl.name rfl)
    (.function m.heap.functions.size)
  have hr : m.Retains y.machine := ⟨hcreated.trans hdefine, rfl⟩
  have hp : past ⊆ past ++ [x] ++ [y] := by
    rw [List.append_assoc]
    exact List.subset_append_left past _
  have hbound : (y.machine.heap.getLocal? m.current decl.name.lexeme).isSome :=
    isSome_getLocal?_define hcurrent _ _
  have hdisplays : displays (past ++ [x] ++ [y]) = (displays past).after x := by
    rw [displays_concat, displays_concat]
    rfl
  refine ⟨hr, h.addFunction hp hr rfl rfl rfl ?_ ?_ ((ht.outlast hp hr).function hbound), hbound⟩
  · rw [hdisplays]
    rfl
  · rw [hdisplays]
    rfl

end Machine.Placed

/-- Code runs in its place, with the recorded distances of the known uses. -/
def Invariant.placed (known : List Use) : Invariant where
  holds past m := m.Sound (fun _ => True) ∧ m.Placed known past
  shows _ m := m.Sound (fun _ => True) ∧ m.Records known
  knows past m fact := fact.Sound (fun _ => True) m.heap ∧ fact.Placed known past m
  fails _ := True
  shows_of_holds h := ⟨h.1, h.2.records⟩
  look h ht hneeds hlook :=
    ⟨h.1.look ht.1.2 (fun need hneed => (hneeds need hneed).1) hlook, h.2.look ht.2 hneeds hlook⟩
  change held h ht hneeds hc := by
    obtain ⟨hsound, hkept, hgives⟩ := h.1.change ht.1.2 (fun need hneed => (hneeds need hneed).1) hc
    obtain ⟨hplaced, hgiven⟩ :=
      h.2.change h.1.current ht.2 (fun need hneed => (hneeds need hneed).2) hc held
    have hr := (hc.endures ht.2.not_implicit).scopes
    exact ⟨⟨hsound, hplaced⟩, fun fact hf => ⟨hkept fact hf.1,
      hf.2.outlast (List.subset_append_left _ _) ⟨hr, hc.globals⟩⟩,
      fun fact hfact => ⟨hgives fact hfact, hgiven fact hfact⟩⟩
  declare {past m decl} held h ht := by
    intro x y
    have hsounds : Steps _ _ past m (past ++ [x]) x.machine _ ∧
        Steps _ _ past m (past ++ [x] ++ [y]) y.machine _ :=
      (Rules.sound fun _ => True).invariant.declare held h.1 ht.1
    obtain ⟨⟨hcreated, hkept, hgives⟩, hsound, hkept', hgives'⟩ := hsounds
    obtain ⟨hr, hplaced, hbound⟩ := h.2.declare h.1.current held ht.2
    refine ⟨⟨⟨hcreated, h.2.records⟩, fun fact hf => ⟨hkept fact hf.1, ?_⟩,
      List.forall_mem_singleton.mpr ⟨hgives _ List.mem_cons_self, trivial⟩⟩, ⟨hsound, hplaced⟩,
      fun fact hf => ⟨hkept' fact hf.1, ?_⟩, List.forall_mem_cons.mpr
        ⟨⟨hgives' _ List.mem_cons_self, trivial⟩, List.forall_mem_singleton.mpr
          ⟨trivial, hbound⟩⟩⟩
    · exact hf.2.outlast (List.subset_append_left _ _) ⟨Heap.retains_of_scopes rfl, rfl⟩
    · rw [List.append_assoc]
      exact hf.2.outlast (List.subset_append_left _ _) hr
  leave held h ht := by
    refine ⟨⟨⟨h.1.heap, ht.1.1⟩, ?_⟩, fun fact hf => ⟨hf.1, ?_⟩, List.forall_mem_nil _⟩
    · exact h.2.outlast (List.subset_append_left _ _) ⟨.refl _, rfl⟩ rfl rfl rfl
        (by rw [displays_concat]; exact ⟨rfl, rfl⟩)
    · exact hf.2.outlast (List.subset_append_left _ _) ⟨.refl _, rfl⟩
  error _ _ _ _ := trivial

end Lox
