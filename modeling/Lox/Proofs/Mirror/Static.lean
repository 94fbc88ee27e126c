import Lox.Proofs.Mirror.Basic
import Lox.Proofs.Scoping.Uses

/-!
# Resolving mirrored programs

The static walk compares names by their text, and open scopes know names only. So the walks over
mirrored programs keep the same scopes and find the same things in the same order, at corresponding
tokens and nodes. Entered into tables that agree on corresponding nodes, these findings leave tables
that agree, as long as the nodes correspond one to one (`Distances.Agree.recordAll`).
-/

namespace Lox

variable {μ : Mirror}

/-- The same finding, at a corresponding token or node. -/
inductive Finding.Mirrored (μ : Mirror) : Finding → Finding → Prop where
  | violation {t t' : Token} (ht : μ.token t t') (rule : Violation) :
    Finding.Mirrored μ (.violation t rule) (.violation t' rule)
  | distance {id id' : NodeId} (hid : μ.node id id') (steps : Nat) :
    Finding.Mirrored μ (.distance id steps) (.distance id' steps)

abbrev FindingsMirrored (μ : Mirror) : List Finding → List Finding → Prop :=
  List.Forall₂ (Finding.Mirrored μ)

/-- The same findings and the same open scopes. -/
structure SameResolution (μ : Mirror) (r r' : List Finding × StaticScopes) : Prop where
  findings : FindingsMirrored μ r.1 r'.1
  scopes : r'.2 = r.2

theorem SameResolution.prepend {fs fs' : List Finding} {r r' : List Finding × StaticScopes}
    (hfs : FindingsMirrored μ fs fs') (h : SameResolution μ r r') :
    SameResolution μ (fs ++ r.1, r.2) (fs' ++ r'.1, r'.2) :=
  ⟨List.rel_append hfs h.findings, h.scopes⟩

/-! ### Open scopes -/

section Scopes

variable {t t' : Token} (ht : μ.token t t')

include ht

theorem violationIf_mirrored (broken : Bool) (rule : Violation) :
    FindingsMirrored μ (violationIf broken t rule) (violationIf broken t' rule) := by
  cases broken with
  | false => exact .nil
  | true => exact .cons (.violation ht rule) .nil

theorem useOf_mirrored (scopes : StaticScopes) {id id' : NodeId} (hid : μ.node id id') :
    FindingsMirrored μ (scopes.useOf id t) (scopes.useOf id' t') := by
  unfold StaticScopes.useOf
  rw [μ.lexeme ht]
  cases scopes.depthOf? t.lexeme with
  | none => exact .nil
  | some depth => exact .cons (.distance hid depth) .nil

theorem declare_mirrored (scopes : StaticScopes) :
    SameResolution μ (scopes.declare t) (scopes.declare t') := by
  cases scopes with
  | nil => exact ⟨.nil, rfl⟩
  | cons s outer =>
    rw [StaticScopes.declare, StaticScopes.declare, μ.lexeme ht]
    split_ifs
    · exact ⟨.cons (.violation ht _) .nil, rfl⟩
    · exact ⟨.nil, rfl⟩

theorem define_mirrored (scopes : StaticScopes) : scopes.define t' = scopes.define t := by
  cases scopes with
  | nil => rfl
  | cons s outer => rw [StaticScopes.define, StaticScopes.define, μ.lexeme ht]

theorem introduce_mirrored (scopes : StaticScopes) :
    SameResolution μ (scopes.introduce t) (scopes.introduce t') := by
  have hdeclare := declare_mirrored ht scopes
  refine ⟨hdeclare.findings, ?_⟩
  show (scopes.declare t').2.define t' = (scopes.declare t).2.define t
  rw [hdeclare.scopes]
  exact define_mirrored ht _

end Scopes

theorem introduceAll_mirrored {names names' : List Token}
    (h : List.Forall₂ μ.token names names') (scopes : StaticScopes) :
    SameResolution μ (scopes.introduceAll names) (scopes.introduceAll names') := by
  induction h generalizing scopes with
  | nil => exact ⟨.nil, rfl⟩
  | @cons t t' rest rest' ht hrest ih =>
    have hfirst := introduce_mirrored ht scopes
    show SameResolution μ
      ((scopes.introduce t).1 ++ ((scopes.introduce t).2.introduceAll rest).1,
        ((scopes.introduce t).2.introduceAll rest).2)
      ((scopes.introduce t').1 ++ ((scopes.introduce t').2.introduceAll rest').1,
        ((scopes.introduce t').2.introduceAll rest').2)
    rw [hfirst.scopes]
    exact (ih (scopes.introduce t).2).prepend hfirst.findings

/-! ### The walk -/

mutual

theorem Expr.findings_mirrored (ctx : Context) (scopes : StaticScopes) :
    ∀ (e : Expr) {e' : Expr}, e.Mirrored μ e' →
      FindingsMirrored μ (e.findings ctx scopes) (e'.findings ctx scopes)
  | .literal _ _, _, h => by
    cases h
    exact .nil
  | .grouping _ inner, _, h => by
    cases h with
    | grouping hid hinner =>
      rw [Expr.findings, Expr.findings]
      exact Expr.findings_mirrored ctx scopes inner hinner
  | .unary _ _ right, _, h => by
    cases h with
    | unary hid hop hright =>
      rw [Expr.findings, Expr.findings]
      exact Expr.findings_mirrored ctx scopes right hright
  | .binary _ left _ right, _, h => by
    cases h with
    | binary hid hleft hop hright =>
      exact List.rel_append (Expr.findings_mirrored ctx scopes left hleft)
        (Expr.findings_mirrored ctx scopes right hright)
  | .logical _ left _ right, _, h => by
    cases h with
    | logical hid hleft hop hright =>
      exact List.rel_append (Expr.findings_mirrored ctx scopes left hleft)
        (Expr.findings_mirrored ctx scopes right hright)
  | .var _ _, _, h => by
    cases h with
    | var hid hname =>
      rw [Expr.findings, Expr.findings, μ.lexeme hname]
      exact List.rel_append (violationIf_mirrored hname _ _) (useOf_mirrored hname scopes hid)
  | .assign _ _ value, _, h => by
    cases h with
    | assign hid hname hvalue =>
      exact List.rel_append (Expr.findings_mirrored ctx scopes value hvalue)
        (useOf_mirrored hname scopes hid)
  | .call _ callee _ args, _, h => by
    cases h with
    | call hid hcallee hparen hargs =>
      exact List.rel_append (Expr.findings_mirrored ctx scopes callee hcallee)
        (findingsOfArgs_mirrored ctx scopes args hargs)
  | .get _ object _, _, h => by
    cases h with
    | get hid hobject hname =>
      rw [Expr.findings, Expr.findings]
      exact Expr.findings_mirrored ctx scopes object hobject
  | .set _ object _ value, _, h => by
    cases h with
    | set hid hobject hname hvalue =>
      exact List.rel_append (Expr.findings_mirrored ctx scopes value hvalue)
        (Expr.findings_mirrored ctx scopes object hobject)
  | .this _ _, _, h => by
    cases h with
    | this hid hkeyword =>
      rw [Expr.findings, Expr.findings]
      split_ifs
      · exact .cons (.violation hkeyword _) .nil
      · exact useOf_mirrored hkeyword scopes hid
  | .super _ _ _, _, h => by
    cases h with
    | super hid hkeyword hmethod =>
      exact List.rel_append (List.rel_append (violationIf_mirrored hkeyword _ _)
        (violationIf_mirrored hkeyword _ _)) (useOf_mirrored hkeyword scopes hid)
termination_by structural e => e

theorem findingsOfArgs_mirrored (ctx : Context) (scopes : StaticScopes) :
    ∀ (es : List Expr) {es' : List Expr}, MirroredArgs μ es es' →
      FindingsMirrored μ (findingsOfArgs ctx scopes es) (findingsOfArgs ctx scopes es')
  | [], _, h => by
    cases h
    exact .nil
  | e :: es, _, h => by
    cases h with
    | cons he hes =>
      exact List.rel_append (Expr.findings_mirrored ctx scopes e he)
        (findingsOfArgs_mirrored ctx scopes es hes)
termination_by structural es => es

end

theorem Expr.findingsOf?_mirrored (ctx : Context) (scopes : StaticScopes) {e e' : Option Expr}
    (h : Option.Rel (Expr.Mirrored μ) e e') :
    FindingsMirrored μ (Expr.findingsOf? ctx scopes e) (Expr.findingsOf? ctx scopes e') := by
  cases h with
  | none => exact .nil
  | some he => exact Expr.findings_mirrored ctx scopes _ he

theorem Option.Rel.isSome_eq {α : Type} {r : α → α → Prop} {a a' : Option α}
    (h : Option.Rel r a a') : a'.isSome = a.isSome := by
  cases h with
  | none => rfl
  | some ha => rfl

theorem superclassFindings_mirrored (ctx : Context) (scopes : StaticScopes) {name name' : Token}
    {e e' : Option Expr} (hname : μ.token name name') (h : Option.Rel (Expr.Mirrored μ) e e') :
    FindingsMirrored μ (superclassFindings ctx scopes name e)
      (superclassFindings ctx scopes name' e') := by
  cases h with
  | none => exact .nil
  | @some e e' he =>
    refine List.rel_append ?_ (Expr.findings_mirrored _ scopes e he)
    cases he with
    | var hid hparent =>
      rw [Expr.selfInheritance, Expr.selfInheritance, μ.lexeme hparent, μ.lexeme hname]
      exact violationIf_mirrored hparent _ _
    | _ => exact .nil

theorem returnFindings_mirrored (ctx : Context) (scopes : StaticScopes) {keyword keyword' : Token}
    {value value' : Option Expr} (hkeyword : μ.token keyword keyword')
    (h : Option.Rel (Expr.Mirrored μ) value value') :
    FindingsMirrored μ (returnFindings ctx scopes keyword value)
      (returnFindings ctx scopes keyword' value') := by
  unfold returnFindings
  rw [Option.Rel.isSome_eq h]
  exact List.rel_append (List.rel_append (violationIf_mirrored hkeyword _ _)
    (violationIf_mirrored hkeyword _ _)) (Expr.findingsOf?_mirrored ctx scopes h)

mutual

theorem Stmt.resolve_mirrored (ctx : Context) (scopes : StaticScopes) :
    ∀ (s : Stmt) {s' : Stmt}, s.Mirrored μ s' →
      SameResolution μ (s.resolve ctx scopes) (s'.resolve ctx scopes)
  | .expression e, _, h => by
    cases h with
    | expression he => exact ⟨Expr.findings_mirrored ctx scopes e he, rfl⟩
  | .print e, _, h => by
    cases h with
    | print he => exact ⟨Expr.findings_mirrored ctx scopes e he, rfl⟩
  | .var name init, _, h => by
    cases h with
    | @var _ name' _ init' hname hinit =>
      have hdeclare := declare_mirrored hname scopes
      show SameResolution μ
        ((scopes.declare name).1 ++ Expr.findingsOf? ctx (scopes.declare name).2 init,
          (scopes.declare name).2.define name)
        ((scopes.declare name').1 ++ Expr.findingsOf? ctx (scopes.declare name').2 init',
          (scopes.declare name').2.define name')
      rw [hdeclare.scopes, define_mirrored hname]
      exact ⟨List.rel_append hdeclare.findings (Expr.findingsOf?_mirrored ctx _ hinit), rfl⟩
  | .block body, _, h => by
    cases h with
    | block hbody => exact ⟨(resolveAll_mirrored ctx ({} :: scopes) body hbody).findings, rfl⟩
  | .ifElse cond thenBranch none, _, h => by
    cases h with
    | ifThen hcond hthen =>
      exact (Stmt.resolve_mirrored ctx scopes thenBranch hthen).prepend
        (Expr.findings_mirrored ctx scopes cond hcond)
  | .ifElse cond thenBranch (some elseBranch), _, h => by
    cases h with
    | @ifElse _ cond' _ thenBranch' _ elseBranch' hcond hthen helse =>
      have hfirst := Stmt.resolve_mirrored ctx scopes thenBranch hthen
      have hsecond := Stmt.resolve_mirrored ctx (thenBranch.resolve ctx scopes).2 elseBranch helse
      show SameResolution μ
        (cond.findings ctx scopes ++ (thenBranch.resolve ctx scopes).1 ++
          (elseBranch.resolve ctx (thenBranch.resolve ctx scopes).2).1,
          (elseBranch.resolve ctx (thenBranch.resolve ctx scopes).2).2)
        (cond'.findings ctx scopes ++ (thenBranch'.resolve ctx scopes).1 ++
          (elseBranch'.resolve ctx (thenBranch'.resolve ctx scopes).2).1,
          (elseBranch'.resolve ctx (thenBranch'.resolve ctx scopes).2).2)
      rw [hfirst.scopes]
      exact hsecond.prepend
        (List.rel_append (Expr.findings_mirrored ctx scopes cond hcond) hfirst.findings)
  | .while_ cond body, _, h => by
    cases h with
    | while_ hcond hbody =>
      exact (Stmt.resolve_mirrored ctx scopes body hbody).prepend
        (Expr.findings_mirrored ctx scopes cond hcond)
  | .function decl, _, h => by
    cases h with
    | @function _ decl' hdecl =>
      have hfirst := introduce_mirrored hdecl.name scopes
      show SameResolution μ
        ((scopes.introduce decl.name).1 ++
          decl.resolve ⟨.function, ctx.cls⟩ (scopes.introduce decl.name).2,
          (scopes.introduce decl.name).2)
        ((scopes.introduce decl'.name).1 ++
          decl'.resolve ⟨.function, ctx.cls⟩ (scopes.introduce decl'.name).2,
          (scopes.introduce decl'.name).2)
      rw [hfirst.scopes]
      exact ⟨List.rel_append hfirst.findings (FunDecl.resolve_mirrored _ _ decl hdecl), rfl⟩
  | .return_ _ _, _, h => by
    cases h with
    | return_ hkeyword hvalue => exact ⟨returnFindings_mirrored ctx scopes hkeyword hvalue, rfl⟩
  | .class_ name superclass methods, _, h => by
    cases h with
    | @class_ _ name' _ superclass' _ methods' hname hsuper hmethods =>
      have hfirst := introduce_mirrored hname scopes
      rw [Stmt.resolve, Stmt.resolve, Option.Rel.isSome_eq hsuper]
      show SameResolution μ
        ((scopes.introduce name).1 ++
          superclassFindings ctx (scopes.introduce name).2 name superclass ++
          resolveMethods (if superclass.isSome then .subclass else .plain)
            (methodScopes (scopes.introduce name).2 superclass.isSome) methods,
          (scopes.introduce name).2)
        ((scopes.introduce name').1 ++
          superclassFindings ctx (scopes.introduce name').2 name' superclass' ++
          resolveMethods (if superclass.isSome then .subclass else .plain)
            (methodScopes (scopes.introduce name').2 superclass.isSome) methods',
          (scopes.introduce name').2)
      rw [hfirst.scopes]
      exact ⟨List.rel_append (List.rel_append hfirst.findings
        (superclassFindings_mirrored ctx _ hname hsuper))
        (resolveMethods_mirrored _ _ methods hmethods), rfl⟩
termination_by structural s => s

theorem resolveAll_mirrored (ctx : Context) (scopes : StaticScopes) :
    ∀ (body : List Stmt) {body' : List Stmt}, MirroredAll μ body body' →
      SameResolution μ (resolveAll ctx scopes body) (resolveAll ctx scopes body')
  | [], _, h => by
    cases h
    exact ⟨.nil, rfl⟩
  | s :: rest, _, h => by
    cases h with
    | @cons _ s' _ rest' hs hrest =>
      have hfirst := Stmt.resolve_mirrored ctx scopes s hs
      show SameResolution μ
        ((s.resolve ctx scopes).1 ++ (resolveAll ctx (s.resolve ctx scopes).2 rest).1,
          (resolveAll ctx (s.resolve ctx scopes).2 rest).2)
        ((s'.resolve ctx scopes).1 ++ (resolveAll ctx (s'.resolve ctx scopes).2 rest').1,
          (resolveAll ctx (s'.resolve ctx scopes).2 rest').2)
      rw [hfirst.scopes]
      exact (resolveAll_mirrored ctx _ rest hrest).prepend hfirst.findings
termination_by structural body => body

theorem FunDecl.resolve_mirrored (ctx : Context) (scopes : StaticScopes) :
    ∀ (d : FunDecl) {d' : FunDecl}, d.Mirrored μ d' →
      FindingsMirrored μ (d.resolve ctx scopes) (d'.resolve ctx scopes)
  | .mk _ params body, _, h => by
    cases h with
    | @mk _ name' _ params' _ body' hname hparams hbody =>
      have hfirst := introduceAll_mirrored hparams ({} :: scopes)
      show FindingsMirrored μ
        ((StaticScopes.introduceAll ({} :: scopes) params).1 ++
          (resolveAll ctx (StaticScopes.introduceAll ({} :: scopes) params).2 body).1)
        ((StaticScopes.introduceAll ({} :: scopes) params').1 ++
          (resolveAll ctx (StaticScopes.introduceAll ({} :: scopes) params').2 body').1)
      rw [hfirst.scopes]
      exact List.rel_append hfirst.findings (resolveAll_mirrored ctx _ body hbody).findings
termination_by structural d => d

theorem resolveMethods_mirrored (cls : ClassContext) (scopes : StaticScopes) :
    ∀ (ds : List FunDecl) {ds' : List FunDecl}, MirroredMethods μ ds ds' →
      FindingsMirrored μ (resolveMethods cls scopes ds) (resolveMethods cls scopes ds')
  | [], _, h => by
    cases h
    exact .nil
  | d :: ds, _, h => by
    cases h with
    | @cons _ d' _ ds' hd hds =>
      have hcontext : methodContext d' = methodContext d := by
        rw [methodContext, methodContext, hd.isInitializer]
      rw [resolveMethods, resolveMethods, hcontext]
      exact List.rel_append (FunDecl.resolve_mirrored _ scopes d hd)
        (resolveMethods_mirrored cls scopes ds hds)
termination_by structural ds => ds

end

/-! ### Recorded distances -/

/-- The tables agree on corresponding nodes. -/
def Distances.Agree (μ : Mirror) (d d' : Distances) : Prop :=
  ∀ id id', μ.node id id' → d'.find? id' = d.find? id

/-- Nodes correspond one to one. -/
def Mirror.OneToOne (μ : Mirror) : Prop :=
  ∀ {id id' other other' : NodeId}, μ.node id id' → μ.node other other' →
    (other' = id' ↔ other = id)

theorem Distances.Agree.recordAll (hμ : μ.OneToOne) {d d' : Distances} {fs fs' : List Finding}
    (hfs : FindingsMirrored μ fs fs') (h : d.Agree μ d') :
    (d.recordAll fs).Agree μ (d'.recordAll fs') := by
  induction hfs generalizing d d' with
  | nil => exact h
  | cons hf hrest ih =>
    cases hf with
    | violation ht rule => exact ih h
    | @distance id id' hid steps =>
      refine ih fun other other' hother => ?_
      show (d'.record id' steps).find? other' = (d.record id steps).find? other
      by_cases heq : other = id
      · rw [heq, (hμ hid hother).mpr heq, find?_record_self, find?_record_self]
      · have hne : other' ≠ id' := fun h' => heq ((hμ hid hother).mp h')
        rw [find?_record_ne d heq, find?_record_ne d' hne]
        exact h other other' hother

end Lox
