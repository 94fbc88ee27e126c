import Lox.Proofs.Evaluation.Endurance
import Lox.Proofs.Scoping.Accepted

/-!
# Static and runtime scopes side by side

`Chain` says that the scopes of the heap, from one of them outwards, are those of a display and bind
the names that the static walk has defined for them. It is what makes a recorded distance lead to
the right scope: as many steps out as the walk has counted, the chain has come to the activation of
the site that the walk has found (`Chain.found`).

It also says how the scopes of `this` and `super` came about. The scope of `super` around the
methods of a class was created by an execution of the declaration of that class, and binds `super`
to the class that the name of the superclass stood for then (`Declares`). The scope of `this` was
created when a method was bound, and binds `this` to an instance.

Chains only ever depend on what endures in a run (`Chain.retains`).
-/

namespace Lox

/-! ### How scopes came about -/

/-- Two moments of one execution of the declaration of a class: it begins at `x`, and at `y` the
name of the superclass is evaluated, with nothing in between. The name stands for the class
`parent`, and `s` is the next scope to be created. -/
structure Declares (x y : Moment) (name : Token) (methods : List FunDecl) (s : ScopeId)
    (parent : ClassId) : Prop where
  machine : y.machine = x.machine
  scope : x.machine.heap.scopes.size = s
  denotes : ∃ id t, x.task = .stmt (.class_ name (some (.var id t)) methods) ∧
    y.task = .expr (.var id t) ∧ Eval.readVariable id t x.machine = .ok (.cls parent) x.machine

/-- The scope of an activation is what its site has made it. -/
def Activation.Opened (past : List Moment) (h : Heap) (a : Activation) : Prop :=
  match a.site with
  | .parent name methods => ∃ x ∈ past, ∃ y ∈ past, ∃ parent,
      Declares x y name methods a.scope parent ∧ h.getLocal? a.scope "super" = some (.cls parent)
  | .receiver _ => ∃ this, h.getLocal? a.scope "this" = some (.inst this)
  | .block _ | .frame _ => True

variable {past past' : List Moment} {h h' : Heap} {globals sid : ScopeId} {d : Display}
  {scopes : StaticScopes}

theorem Activation.Opened.retains {a : Activation} (ha : a.Opened past h) (hp : past ⊆ past')
    (hr : h.Retains h') : a.Opened past' h' := by
  obtain ⟨site, scope⟩ := a
  cases site with
  | parent name methods =>
    obtain ⟨x, hx, y, hy, parent, hdeclares, hsuper⟩ := ha
    exact ⟨x, hp hx, y, hp hy, parent, hdeclares, hr.getLocal? (.inr rfl) hsuper⟩
  | receiver decl =>
    obtain ⟨this, hthis⟩ := ha
    exact ⟨this, hr.getLocal? (.inl rfl) hthis⟩
  | block body => trivial
  | frame decl => trivial

/-! ### Chains -/

/-- A runtime scope binds the names that are defined in a static one. -/
def Backs (h : Heap) (sid : ScopeId) (names : StaticScope) : Prop :=
  ∀ x, names.find? x = some true → (h.getLocal? sid x).isSome

/-- The scopes from `sid` outwards are those of a display, with the names of the open static scopes,
and end with the globals. -/
inductive Chain (past : List Moment) (h : Heap) (globals : ScopeId) :
    ScopeId → Display → StaticScopes → Prop where
  | root (hglobals : globals < h.scopes.size) : Chain past h globals globals [] []
  | cons {sid outer : ScopeId} {names : StaticScope} {d : Display} {scopes : StaticScopes}
      {site : Site} (hopened : Activation.Opened past h ⟨site, sid⟩) (hbacks : Backs h sid names)
      (houter : (h.scope sid).enclosing = some outer)
      (hchain : Chain past h globals outer d scopes) :
      Chain past h globals sid (⟨site, sid⟩ :: d) (names :: scopes)

namespace Chain

theorem retains (hc : Chain past h globals sid d scopes) (hp : past ⊆ past')
    (hr : h.Retains h') : Chain past' h' globals sid d scopes := by
  induction hc with
  | root hglobals => exact .root (lt_of_lt_of_le hglobals hr.grown.size)
  | cons hopened hbacks houter hchain ih =>
    refine .cons (hopened.retains hp hr) (fun x hx => hr.grown.bound _ x (hbacks x hx)) ?_ ih
    rw [hr.grown.enclosing _ (Heap.lt_size_of_enclosing h houter), houter]

/-- As many steps out as there are activations inside one of them, there is its scope. -/
theorem opened (hc : Chain past h globals sid d scopes) {k : Nat} {a : Activation}
    (ha : d[k]? = some a) : h.ancestor? sid k = some a.scope ∧ a.Opened past h := by
  induction hc generalizing k with
  | root hglobals => simp at ha
  | cons hopened hbacks houter hchain ih =>
    cases k with
    | zero =>
      cases ha
      exact ⟨rfl, hopened⟩
    | succ k =>
      rw [Heap.ancestor?, houter]
      exact ih ha

/-- As many steps out as there are static scopes around a name, there is its activation. -/
theorem ancestor (hc : Chain past h globals sid d scopes) {k : Nat} {names : StaticScope}
    (hk : scopes[k]? = some names) : ∃ a, d[k]? = some a ∧
      h.ancestor? sid k = some a.scope ∧ Backs h a.scope names := by
  induction hc generalizing k with
  | root hglobals => simp at hk
  | @cons sid outer names' d scopes site hopened hbacks houter hchain ih =>
    cases k with
    | zero =>
      rw [List.getElem?_cons_zero, Option.some.injEq] at hk
      exact ⟨⟨site, sid⟩, rfl, rfl, hk ▸ hbacks⟩
    | succ k =>
      rw [List.getElem?_cons_succ] at hk
      obtain ⟨a, ha, hancestor, hnames⟩ := ih hk
      refine ⟨a, ha, ?_, hnames⟩
      rw [Heap.ancestor?, houter]
      exact hancestor

/-- A name that the walk finds is in the scope of the activation found, and is bound there unless
its initializer is at work. -/
theorem found {initializing : Option Token} (hc : Chain past h globals sid d scopes)
    (hsettled : scopes.Settled initializing) {x : String} {k : Nat}
    (hk : scopes.depthOf? x = some k) : ∃ a, d[k]? = some a ∧ h.ancestor? sid k = some a.scope ∧
      ((h.getLocal? a.scope x).isSome ∨ k = 0 ∧ scopes.isPending x = true ∧
        ∃ t, initializing = some t ∧ t.lexeme = x) := by
  obtain ⟨names, hnames, hfind⟩ := hsettled.found hk
  obtain ⟨a, ha, hancestor, hbacks⟩ := hc.ancestor hnames
  refine ⟨a, ha, hancestor, ?_⟩
  rcases hfind with htrue | ⟨rfl, hfalse, ht⟩
  · exact Or.inl (hbacks x htrue)
  · refine Or.inr ⟨rfl, ?_, ht⟩
    cases scopes with
    | nil => simp at hnames
    | cons s outer =>
      rw [List.getElem?_cons_zero, Option.some.injEq] at hnames
      rw [StaticScopes.isPending, hnames, hfalse]
      rfl

/-! ### Declarations -/

theorem declare {name : Token} (hc : Chain past h globals sid d scopes)
    (hclean : Clean (scopes.declare name).1) :
    Chain past h globals sid d (scopes.declare name).2 := by
  cases hc with
  | root hglobals => exact .root hglobals
  | cons hopened hbacks houter hchain =>
    rw [(StaticScopes.declare_eq hclean).2]
    refine .cons hopened (fun x hx => ?_) houter hchain
    rw [Table.find?_insert] at hx
    split_ifs at hx
    · simp at hx
    · exact hbacks x hx

theorem introduce {name : Token} (hc : Chain past h globals sid d scopes)
    (hclean : Clean (scopes.introduce name).1) (hbound : (h.getLocal? sid name.lexeme).isSome) :
    Chain past h globals sid d (scopes.introduce name).2 := by
  cases hc with
  | root hglobals => exact .root hglobals
  | cons hopened hbacks houter hchain =>
    rw [StaticScopes.introduce_eq hclean]
    refine .cons hopened (fun x hx => ?_) houter hchain
    rw [StaticScopes.find?_introduced] at hx
    split_ifs at hx with hname
    · exact hname ▸ hbound
    · exact hbacks x hx

theorem push (hc : Chain past h globals sid d scopes) {site : Site} {names : StaticScope}
    {values : Table Value}
    (hopened : Activation.Opened past (h.newScope ⟨values, some sid⟩).2 ⟨site, h.scopes.size⟩)
    (hnames : ∀ x, names.find? x = some true → (values.find? x).isSome) :
    Chain past (h.newScope ⟨values, some sid⟩).2 globals h.scopes.size
      (⟨site, h.scopes.size⟩ :: d) (names :: scopes) := by
  refine .cons hopened (fun x hx => ?_) ?_ (hc.retains (fun _ hx => hx) (h.retains_newScope _))
  · rw [Heap.getLocal?_newScope, if_pos rfl]
    exact hnames x hx
  · rw [Heap.scope_newScope_self]

theorem push_single (hc : Chain past h globals sid d scopes) {site : Site} {x : String} {v : Value}
    (hopened : (h.newScope ⟨.singleton x v, some sid⟩).2.getLocal? h.scopes.size x = some v →
      Activation.Opened past (h.newScope ⟨.singleton x v, some sid⟩).2 ⟨site, h.scopes.size⟩) :
    Chain past (h.newScope ⟨.singleton x v, some sid⟩).2 globals h.scopes.size
      (⟨site, h.scopes.size⟩ :: d) (.singleton x true :: scopes) := by
  have hself : (Table.singleton x v).find? x = some v := by rw [Table.find?_singleton, if_pos rfl]
  refine hc.push (hopened ?_) fun y hy => ?_
  · rw [Heap.getLocal?_newScope, if_pos rfl]
    exact hself
  · rw [Table.find?_singleton] at hy
    split_ifs at hy with hxy
    rw [← hxy, hself]
    rfl

theorem frame (hc : Chain past h globals sid d scopes) {known : List Use} {ctx : Context}
    {sites : List Site} {decl : FunDecl} {args : List Value}
    (hdecl : decl.Accepted known ctx sites scopes) (harity : args.length = decl.arity) :
    Chain past (h.newScope ⟨Eval.bindArguments decl.params args, some sid⟩).2 globals
      h.scopes.size (⟨.frame decl, h.scopes.size⟩ :: d)
      (StaticScopes.introduceAll ({} :: scopes) decl.params).2 := by
  obtain ⟨names, heq, hfind⟩ := StaticScopes.introduceAll_eq hdecl.params
  rw [heq]
  refine hc.push trivial fun x hx => ?_
  rw [hfind] at hx
  split_ifs at hx with hmem
  · refine Table.isSome_find?_insertAll (Or.inr ?_)
    rw [List.map_fst_zip (by rw [List.length_map, harity]; rfl)]
    exact hmem
  · simp at hx

end Chain

end Lox
