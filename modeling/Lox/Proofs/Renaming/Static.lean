import Lox.Proofs.Renaming.Code

/-!
# The static walk over renamed code

The walk finds in renamed code what it finds in the code itself. The open scopes of both walks have
the same names but for the marked ones, where the old and the new name have changed places
(`ScopesRenamed`); so each occurrence is found as far out as before, and no rule is broken that was
not.
-/

namespace Lox

open Renaming

variable {ρ : Exchange} {marks : Marks} {marked : Bool} {s s' : StaticScope}
  {scopes scopes' : StaticScopes} {t t' : Token} {ctx : Context}

/-! ### Scopes -/

/-- The names of a static scope before and after the renaming. -/
structure ScopeRenamed (ρ : Exchange) (marked : Bool) (s s' : StaticScope) : Prop where
  find : ∀ z, s'.find? (ρ.keys marked z) = s.find? z
  fresh : s.find? ρ.new = none

inductive ScopesRenamed (ρ : Exchange) : Marks → StaticScopes → StaticScopes → Prop where
  | nil : ScopesRenamed ρ [] [] []
  | cons {marks : Marks} {s s' : StaticScope} {outer outer' : StaticScopes} (marked : Bool)
    (h : ScopeRenamed ρ marked s s') (hrest : ScopesRenamed ρ marks outer outer') :
    ScopesRenamed ρ (marked :: marks) (s :: outer) (s' :: outer')

theorem ScopeRenamed.empty (ρ : Exchange) (marked : Bool) : ScopeRenamed ρ marked {} {} :=
  ⟨fun _ => rfl, rfl⟩

theorem ScopeRenamed.singleton {x : String} (h : x ≠ ρ.new) (b : Bool) :
    ScopeRenamed ρ false (.singleton x b) (.singleton x b) := by
  refine ⟨fun _ => rfl, ?_⟩
  rw [Table.find?_singleton, if_neg h]

theorem ScopeRenamed.insert {x : String} (h : ScopeRenamed ρ marked s s') (hx : x ≠ ρ.new)
    (b : Bool) : ScopeRenamed ρ marked (s.insert x b) (s'.insert (ρ.keys marked x) b) := by
  refine ⟨fun z => ?_, ?_⟩
  · rw [Table.find?_insert, Table.find?_insert, h.find]
    simp only [(ρ.keys marked).apply_eq_iff_eq]
  · rw [Table.find?_insert, if_neg hx, h.fresh]

theorem ScopeRenamed.contains (h : ScopeRenamed ρ marked s s') (z : String) :
    s'.contains (ρ.keys marked z) = s.contains z := by
  rw [Table.contains, Table.contains, h.find]

theorem find?_swap_eq_none {z : String} (hfresh : s.find? ρ.new = none) (hnone : s.find? z = none)
    (hz : z ≠ ρ.new) : s.find? (Equiv.swap ρ.old ρ.new z) = none := by
  by_cases hold : z = ρ.old
  · rw [hold, Equiv.swap_apply_left, hfresh]
  · rw [Equiv.swap_apply_of_ne_of_ne hold hz, hnone]

theorem ScopeRenamed.absent (h : ScopeRenamed ρ marked s s') {z : String} (hz : z ≠ ρ.new)
    (hnone : s.find? z = none) (b : Bool) : s'.find? (ρ.keys b z) = none := by
  have hswap := find?_swap_eq_none h.fresh hnone hz
  cases marked with
  | false =>
    have hsame : ∀ w, s'.find? w = s.find? w := h.find
    rw [hsame]
    cases b with
    | false => exact hnone
    | true => exact hswap
  | true =>
    have hfind : ∀ w, s'.find? (Equiv.swap ρ.old ρ.new w) = s.find? w := h.find
    cases b with
    | false =>
      rw [← hfind, Equiv.swap_apply_self] at hswap
      exact hswap
    | true => exact (hfind z).trans hnone

/-- The walks over code and renamed code find the same and leave corresponding scopes. -/
structure SameFindings (ρ : Exchange) (marks : Marks) (r r' : List Finding × StaticScopes) :
    Prop where
  findings : r'.1 = r.1
  scopes : ScopesRenamed ρ marks r.2 r'.2

namespace SameFindings

variable {r r' : List Finding × StaticScopes} {fs fs' : List Finding}

theorem prepend (hfs : fs' = fs) (h : SameFindings ρ marks r r') :
    SameFindings ρ marks (fs ++ r.1, r.2) (fs' ++ r'.1, r'.2) :=
  ⟨by rw [hfs, h.findings], h.scopes⟩

theorem append (h : SameFindings ρ marks r r') (hfs : fs' = fs) :
    SameFindings ρ marks (r.1 ++ fs, r.2) (r'.1 ++ fs', r'.2) :=
  ⟨by rw [hfs, h.findings], h.scopes⟩

end SameFindings

namespace ScopesRenamed

theorem push (h : ScopesRenamed ρ marks scopes scopes') (marked : Bool) :
    ScopesRenamed ρ (marked :: marks) ({} :: scopes) ({} :: scopes') :=
  .cons marked (.empty ρ marked) h

/-! ### Occurrences -/

theorem depthOf?_some (h : ScopesRenamed ρ marks scopes scopes') {z : String} (hz : z ≠ ρ.new)
    {k : Nat} (hk : scopes.depthOf? z = some k) :
    scopes'.depthOf? (ρ.keys (marks.getD k false) z) = some k := by
  induction h generalizing k with
  | nil => simp [StaticScopes.depthOf?_nil] at hk
  | @cons marks s s' outer outer' marked hscope hrest ih =>
    rw [StaticScopes.depthOf?_cons] at hk
    rw [StaticScopes.depthOf?_cons]
    split_ifs at hk with hknown
    · rw [Option.some.injEq] at hk
      subst hk
      rw [List.getD_cons_zero, hscope.contains, if_pos hknown]
    · obtain ⟨k', hk', rfl⟩ := Option.map_eq_some_iff.mp hk
      have hnone : s.find? z = none := by
        simpa [Table.contains] using hknown
      have habsent : ¬s'.contains (ρ.keys (marks.getD k' false) z) = true := by
        rw [Table.contains, hscope.absent hz hnone]
        simp
      rw [List.getD_cons_succ, if_neg habsent, ih hk']
      rfl

theorem depthOf?_none (h : ScopesRenamed ρ marks scopes scopes') {z : String} (hz : z ≠ ρ.new)
    (hnone : scopes.depthOf? z = none) : scopes'.depthOf? z = none := by
  induction h with
  | nil => rfl
  | @cons marks s s' outer outer' marked hscope hrest ih =>
    rw [StaticScopes.depthOf?_cons] at hnone
    rw [StaticScopes.depthOf?_cons]
    split_ifs at hnone with hknown
    have hunknown : s.find? z = none := by
      simpa [Table.contains] using hknown
    have habsent : ¬s'.contains z = true := by
      rw [Table.contains, ← ρ.keys_false z, hscope.absent hz hunknown false]
      simp
    rw [if_neg habsent, ih (by simpa using hnone)]
    rfl

theorem isPending (h : ScopesRenamed ρ marks scopes scopes') {z : String} (hz : z ≠ ρ.new)
    {b : Bool} (hb : scopes.depthOf? z = some 0 → b = marks.headD false)
    (hpending : scopes.isPending z = false) : scopes'.isPending (ρ.keys b z) = false := by
  cases h with
  | nil => rfl
  | @cons marks s s' outer outer' marked hscope hrest =>
    rw [StaticScopes.isPending] at hpending ⊢
    by_cases hknown : s.contains z = true
    · have hmarked : b = marked := hb (by rw [StaticScopes.depthOf?_cons, if_pos hknown])
      rw [hmarked, hscope.find, hpending]
    · have hnone : s.find? z = none := by
        simpa [Table.contains] using hknown
      rw [hscope.absent hz hnone]
      rfl

/-! ### Declarations -/

theorem declare (h : ScopesRenamed ρ marks scopes scopes')
    (ht : t'.lexeme = ρ.keys (marks.headD false) t.lexeme) (hfresh : t.lexeme ≠ ρ.new)
    (hclean : Clean (scopes.declare t).1) :
    SameFindings ρ marks (scopes.declare t) (scopes'.declare t') := by
  cases h with
  | nil => exact ⟨rfl, .nil⟩
  | @cons marks s s' outer outer' marked hscope hrest =>
    obtain ⟨hunknown, heq⟩ := StaticScopes.declare_eq hclean
    have hlexeme : t'.lexeme = ρ.keys marked t.lexeme := ht
    have hunknown' : ¬s'.contains t'.lexeme = true := by
      rw [hlexeme, hscope.contains, hunknown]
      simp
    constructor
    · rw [declare_of_clean hclean, StaticScopes.declare, if_neg hunknown']
    · rw [heq, StaticScopes.declare, if_neg hunknown', hlexeme]
      exact .cons marked (hscope.insert hfresh false) hrest

theorem define (h : ScopesRenamed ρ marks scopes scopes')
    (ht : t'.lexeme = ρ.keys (marks.headD false) t.lexeme) (hfresh : t.lexeme ≠ ρ.new) :
    ScopesRenamed ρ marks (scopes.define t) (scopes'.define t') := by
  cases h with
  | nil => exact .nil
  | @cons marks s s' outer outer' marked hscope hrest =>
    have hlexeme : t'.lexeme = ρ.keys marked t.lexeme := ht
    rw [StaticScopes.define, StaticScopes.define, hlexeme]
    exact .cons marked (hscope.insert hfresh true) hrest

theorem introduce (h : ScopesRenamed ρ marks scopes scopes')
    (ht : t'.lexeme = ρ.keys (marks.headD false) t.lexeme) (hfresh : t.lexeme ≠ ρ.new)
    (hclean : Clean (scopes.introduce t).1) :
    SameFindings ρ marks (scopes.introduce t) (scopes'.introduce t') := by
  have hdeclared := h.declare ht hfresh hclean
  exact ⟨hdeclared.findings, hdeclared.scopes.define ht hfresh⟩

theorem introduceAll {names names' : List Token}
    (hnames : List.Forall₂ (ρ.Renames (marks.headD false)) names names')
    (hfresh : ∀ t ∈ names, t.lexeme ≠ ρ.new) (h : ScopesRenamed ρ marks scopes scopes')
    (hclean : Clean (scopes.introduceAll names).1) :
    SameFindings ρ marks (scopes.introduceAll names) (scopes'.introduceAll names') := by
  induction hnames generalizing scopes scopes' with
  | nil => exact ⟨rfl, h⟩
  | @cons t t' names names' hname hrest ih =>
    have hsplit : Clean ((scopes.introduce t).1 ++ ((scopes.introduce t).2.introduceAll names).1) :=
      hclean
    rw [clean_append] at hsplit
    have hfirst := h.introduce hname.lexeme (hfresh t List.mem_cons_self) hsplit.1
    have hothers := ih (fun t ht => hfresh t (List.mem_cons_of_mem _ ht)) hfirst.scopes hsplit.2
    exact hothers.prepend hfirst.findings

theorem methodScopes (h : ScopesRenamed ρ marks scopes scopes') (hρ : ρ.Proper) (hasSuper : Bool) :
    ScopesRenamed ρ (if hasSuper then false :: false :: marks else false :: marks)
      (methodScopes scopes hasSuper) (methodScopes scopes' hasSuper) := by
  cases hasSuper with
  | false => exact .cons false (.singleton hρ.this.2 true) h
  | true =>
    exact .cons false (.singleton hρ.this.2 true) (.cons false (.singleton hρ.super.2 true) h)

end ScopesRenamed

theorem FunDecl.name_fresh {d : FunDecl} (h : d.Formed ρ.Fresh) : d.name.lexeme ≠ ρ.new := by
  cases d with
  | mk name params body => exact h.1.2.2

/-! ### Findings -/

/-- The recorded distances are those that the walk finds for some uses. -/
def Renaming.Traces (ρ : Renaming) (us : List Use) : Prop :=
  ∀ u ∈ us, ρ.distances.find? u.id = u.depth?

theorem Renaming.traces_append {us vs : List Use} :
    ρ.Traces (us ++ vs) ↔ ρ.Traces us ∧ ρ.Traces vs := by
  simp [Renaming.Traces, or_imp, forall_and]

section Occurrences

variable {id : NodeId}

theorem Renaming.reaches_of_depth {k : Nat}
    (htraces : ρ.distances.find? id = scopes.depthOf? t.lexeme)
    (hk : scopes.depthOf? t.lexeme = some k) : ρ.reaches marks id = marks.getD k false := by
  rw [Renaming.reaches, htraces, hk]

theorem useOf_renamed (h : ScopesRenamed ρ marks scopes scopes')
    (ht : ρ.Renames (ρ.reaches marks id) t t') (hfresh : t.lexeme ≠ ρ.new)
    (htraces : ρ.distances.find? id = scopes.depthOf? t.lexeme) :
    scopes'.useOf id t' = scopes.useOf id t := by
  unfold StaticScopes.useOf
  rw [ht.lexeme]
  cases hk : scopes.depthOf? t.lexeme with
  | none =>
    have hreaches : ρ.reaches marks id = false := by rw [Renaming.reaches, htraces, hk]
    rw [hreaches, keys_false, h.depthOf?_none hfresh hk]
  | some k =>
    rw [reaches_of_depth htraces hk, h.depthOf?_some hfresh hk]

theorem isPending_renamed (h : ScopesRenamed ρ marks scopes scopes')
    (ht : ρ.Renames (ρ.reaches marks id) t t') (hfresh : t.lexeme ≠ ρ.new)
    (htraces : ρ.distances.find? id = scopes.depthOf? t.lexeme)
    (hpending : scopes.isPending t.lexeme = false) : scopes'.isPending t'.lexeme = false := by
  rw [ht.lexeme]
  refine h.isPending hfresh (fun hzero => ?_) hpending
  rw [reaches_of_depth htraces hzero]
  cases marks <;> rfl

end Occurrences

mutual

theorem Expr.findings_renamed (ctx : Context) (p : Place) : ∀ (e : Expr) {e' : Expr},
    e.Renamed ρ marks e' → ScopesRenamed ρ marks p.scopes scopes' → e.Formed ρ.Fresh →
    Clean (e.findings ctx p.scopes) → ρ.Traces (e.uses p) →
    e'.findings ctx scopes' = e.findings ctx p.scopes
  | .literal _ _, _, hr, _, _, _, _ => by
    cases hr
    rfl
  | .grouping _ inner, _, hr, hs, hf, hc, ht => by
    cases hr with
    | grouping id h =>
      rw [Expr.findings, Expr.findings, inner.findings_renamed ctx p h hs hf hc ht]
  | .unary _ _ right, _, hr, hs, hf, hc, ht => by
    cases hr with
    | unary id op h =>
      rw [Expr.findings, Expr.findings, right.findings_renamed ctx p h hs hf.2 hc ht]
  | .binary _ left _ right, _, hr, hs, hf, hc, ht => by
    cases hr with
    | binary id op hleft hright =>
      rw [Expr.findings, clean_append] at hc
      rw [Expr.uses, traces_append] at ht
      rw [Expr.findings, Expr.findings, left.findings_renamed ctx p hleft hs hf.2.1 hc.1 ht.1,
        right.findings_renamed ctx p hright hs hf.2.2 hc.2 ht.2]
  | .logical _ left _ right, _, hr, hs, hf, hc, ht => by
    cases hr with
    | logical id op hleft hright =>
      rw [Expr.findings, clean_append] at hc
      rw [Expr.uses, traces_append] at ht
      rw [Expr.findings, Expr.findings, left.findings_renamed ctx p hleft hs hf.2.1 hc.1 ht.1,
        right.findings_renamed ctx p hright hs hf.2.2 hc.2 ht.2]
  | .var _ name, _, hr, hs, hf, hc, ht => by
    cases hr with
    | var id h hplace =>
      have htraces := ht _ List.mem_cons_self
      rw [Expr.findings, clean_append, clean_violationIf] at hc
      rw [Expr.findings, Expr.findings, useOf_renamed hs h hf.2.2 htraces, hc.1,
        isPending_renamed hs h hf.2.2 htraces hc.1]
      rfl
  | .assign _ name value, _, hr, hs, hf, hc, ht => by
    cases hr with
    | assign id h hplace hvalue =>
      rw [Expr.findings, clean_append] at hc
      rw [Expr.uses, traces_append] at ht
      rw [Expr.findings, Expr.findings, value.findings_renamed ctx p hvalue hs hf.2 hc.1 ht.1,
        useOf_renamed hs h hf.1.2.2 (ht.2 _ List.mem_cons_self)]
  | .call _ callee _ args, _, hr, hs, hf, hc, ht => by
    cases hr with
    | call id paren hcallee hargs =>
      rw [Expr.findings, clean_append] at hc
      rw [Expr.uses, traces_append] at ht
      rw [Expr.findings, Expr.findings, callee.findings_renamed ctx p hcallee hs hf.2.1 hc.1 ht.1,
        findingsOfArgs_renamed ctx p args hargs hs hf.2.2 hc.2 ht.2]
  | .get _ object _, _, hr, hs, hf, hc, ht => by
    cases hr with
    | get id name h =>
      rw [Expr.findings, Expr.findings, object.findings_renamed ctx p h hs hf.2 hc ht]
  | .set _ object _ value, _, hr, hs, hf, hc, ht => by
    cases hr with
    | set id name hobject hvalue =>
      rw [Expr.findings, clean_append] at hc
      rw [Expr.uses, traces_append] at ht
      rw [Expr.findings, Expr.findings, value.findings_renamed ctx p hvalue hs hf.2.2 hc.1 ht.1,
        object.findings_renamed ctx p hobject hs hf.2.1 hc.2 ht.2]
  | .this _ keyword, _, hr, hs, hf, _, ht => by
    cases hr with
    | this id h =>
      rw [Expr.findings, Expr.findings, useOf_renamed hs h hf.2.2 (ht _ List.mem_cons_self)]
  | .super _ keyword _, _, hr, hs, hf, _, ht => by
    cases hr with
    | super id method h =>
      rw [Expr.findings, Expr.findings, useOf_renamed hs h hf.1.2.2 (ht _ List.mem_cons_self)]
termination_by structural e => e

theorem findingsOfArgs_renamed (ctx : Context) (p : Place) : ∀ (es : List Expr) {es' : List Expr},
    RenamedArgs ρ marks es es' → ScopesRenamed ρ marks p.scopes scopes' → formedArgs ρ.Fresh es →
    Clean (findingsOfArgs ctx p.scopes es) → ρ.Traces (usesOfArgs p es) →
    findingsOfArgs ctx scopes' es' = findingsOfArgs ctx p.scopes es
  | [], _, hr, _, _, _, _ => by
    cases hr
    rfl
  | e :: es, _, hr, hs, hf, hc, ht => by
    cases hr with
    | cons h hrest =>
      rw [findingsOfArgs, clean_append] at hc
      rw [usesOfArgs, traces_append] at ht
      rw [findingsOfArgs, findingsOfArgs, e.findings_renamed ctx p h hs hf.1 hc.1 ht.1,
        findingsOfArgs_renamed ctx p es hrest hs hf.2 hc.2 ht.2]
termination_by structural es => es

end

theorem superclassFindings_renamed {sites : List Site} {name : Token} {e e' : Expr}
    (hr : e.Renamed ρ marks e') (hs : ScopesRenamed ρ marks scopes scopes')
    (hname : name.lexeme ≠ ρ.new) (hf : Expr.FormedSuperclass ρ.Fresh (some e))
    (hc : Clean (superclassFindings ctx scopes name (some e)))
    (ht : ρ.Traces (e.uses ⟨sites, scopes, none⟩)) :
    superclassFindings ctx scopes' name (some e') =
      superclassFindings ctx scopes name (some e) := by
  cases hr with
  | @var t t' id h hplace =>
    rw [superclassFindings, clean_append, Expr.selfInheritance, clean_violationIf] at hc
    have hself : (t'.lexeme == name.lexeme) = false := by
      rcases ρ.declaration_cases (ρ.reaches marks id) t with heq | ⟨-, heq⟩
      · rw [h.eq, heq, hc.1]
      · rw [h.eq, heq, beq_eq_false_iff_ne]
        exact hname.symm
    rw [superclassFindings, superclassFindings, Expr.selfInheritance, Expr.selfInheritance, hself,
      hc.1, Expr.findings_renamed _ ⟨sites, scopes, none⟩ (.var id t) (.var id h hplace) hs hf
        hc.2 ht]
    rfl
  | _ => exact hf.elim

mutual

theorem Stmt.resolve_renamed (hρ : ρ.Proper) (ctx : Context) (sites : List Site) :
    ∀ (s : Stmt) {marks : Marks} {scopes scopes' : StaticScopes} {s' : Stmt},
      s.Renamed ρ marks s' → ScopesRenamed ρ marks scopes scopes' → s.Formed ρ.Fresh →
      Clean (s.resolve ctx scopes).1 → ρ.Traces (s.uses sites scopes) →
      SameFindings ρ marks (s.resolve ctx scopes) (s'.resolve ctx scopes')
  | .expression e, _, scopes, _, _, hr, hs, hf, hc, ht => by
    cases hr with
    | expression h => exact ⟨e.findings_renamed ctx ⟨sites, scopes, none⟩ h hs hf hc ht, hs⟩
  | .print e, _, scopes, _, _, hr, hs, hf, hc, ht => by
    cases hr with
    | print h => exact ⟨e.findings_renamed ctx ⟨sites, scopes, none⟩ h hs hf hc ht, hs⟩
  | .var name none, marks, scopes, scopes', _, hr, hs, hf, hc, _ => by
    cases hr with
    | @var _ _ name' h =>
      have hdeclared := hs.declare h.lexeme hf.1.2.2 (clean_append.mp hc).1
      exact ⟨congrArg (· ++ []) hdeclared.findings, hdeclared.scopes.define h.lexeme hf.1.2.2⟩
  | .var name (some init), marks, scopes, scopes', _, hr, hs, hf, hc, ht => by
    cases hr with
    | @varInit _ _ name' _ init' h hinit =>
      have hsplit := clean_append.mp hc
      have hdeclared := hs.declare h.lexeme hf.1.2.2 hsplit.1
      have hvalue := init.findings_renamed ctx (.ofInitializer sites scopes name) hinit
        hdeclared.scopes hf.2 hsplit.2 ht
      exact ⟨(hdeclared.append hvalue).findings, hdeclared.scopes.define h.lexeme hf.1.2.2⟩
  | .block body, _, _, _, _, hr, hs, hf, hc, ht => by
    cases hr with
    | block marked h =>
      exact ⟨(resolveAll_renamed hρ ctx (.block body :: sites) body h (hs.push marked) hf hc
        ht).findings, hs⟩
  | .ifElse cond thenBranch none, _, scopes, scopes', _, hr, hs, hf, hc, ht => by
    cases hr with
    | @ifThen _ _ cond' _ thenBranch' hcond hthen =>
      have hsplit : Clean (cond.findings ctx scopes ++ (thenBranch.resolve ctx scopes).1) := hc
      rw [clean_append] at hsplit
      rw [Stmt.uses, traces_append] at ht
      exact (thenBranch.resolve_renamed hρ ctx sites hthen hs hf.2.2 hsplit.2 ht.2).prepend
        (cond.findings_renamed ctx ⟨sites, scopes, none⟩ hcond hs hf.1 hsplit.1 ht.1)
  | .ifElse cond thenBranch (some elseBranch), _, scopes, scopes', _, hr, hs, hf, hc, ht => by
    cases hr with
    | @ifElse _ _ cond' _ thenBranch' _ elseBranch' hcond hthen helse =>
      have hsplit := hc
      rw [Stmt.resolve_ifElse ctx scopes cond hf.2.1, clean_append, clean_append] at hsplit
      rw [Stmt.uses, traces_append, traces_append] at ht
      have hbranch := thenBranch.resolve_renamed hρ ctx sites hthen hs hf.2.1.2 hsplit.1.2 ht.1.2
      -- No branch declares a name, so the walk comes to the second with the scopes of the first.
      have hsame : (thenBranch.resolve ctx scopes).2 = scopes := by
        rw [Stmt.resolve_scopes ctx scopes thenBranch hf.2.1.2,
          Stmt.scopesAfter_of_plain hf.2.1.1]
      have hscopes := hbranch.scopes
      rw [hsame] at hscopes
      have hother := elseBranch.resolve_renamed hρ ctx sites helse hscopes hf.2.2.2 hsplit.2 ht.2
      have heq : (Stmt.ifElse cond thenBranch (some elseBranch)).resolve ctx scopes =
          (cond.findings ctx scopes ++ (thenBranch.resolve ctx scopes).1 ++
            (elseBranch.resolve ctx scopes).1, (elseBranch.resolve ctx scopes).2) := by
        show (_ ++ _ ++ (elseBranch.resolve ctx (thenBranch.resolve ctx scopes).2).1,
          (elseBranch.resolve ctx (thenBranch.resolve ctx scopes).2).2) = _
        rw [hsame]
      rw [heq]
      exact hother.prepend (hbranch.prepend
        (cond.findings_renamed ctx ⟨sites, scopes, none⟩ hcond hs hf.1 hsplit.1.1 ht.1.1)).findings
  | .while_ cond body, _, scopes, scopes', _, hr, hs, hf, hc, ht => by
    cases hr with
    | @while_ _ _ cond' _ body' hcond hbody =>
      have hsplit : Clean (cond.findings ctx scopes ++ (body.resolve ctx scopes).1) := hc
      rw [clean_append] at hsplit
      rw [Stmt.uses, traces_append] at ht
      exact (body.resolve_renamed hρ ctx sites hbody hs hf.2.2 hsplit.2 ht.2).prepend
        (cond.findings_renamed ctx ⟨sites, scopes, none⟩ hcond hs hf.1 hsplit.1 ht.1)
  | .function decl, _, scopes, scopes', _, hr, hs, hf, hc, ht => by
    cases hr with
    | @function _ _ decl' hname h =>
      have hsplit : Clean ((scopes.introduce decl.name).1 ++
        decl.resolve ⟨.function, ctx.cls⟩ (scopes.introduce decl.name).2) := hc
      rw [clean_append] at hsplit
      have hlexeme := (congrArg Token.lexeme h.name).trans hname.renames.lexeme
      have hintroduced := hs.introduce hlexeme (FunDecl.name_fresh hf) hsplit.1
      exact hintroduced.append (decl.resolve_renamed hρ ⟨.function, ctx.cls⟩ sites h
        hintroduced.scopes hf hsplit.2 ht)
  | .return_ keyword none, _, _, _, _, hr, hs, _, _, _ => by
    cases hr with
    | return_ marks keyword => exact ⟨rfl, hs⟩
  | .return_ keyword (some value), _, scopes, scopes', _, hr, hs, hf, hc, ht => by
    cases hr with
    | @returnValue _ _ value' keyword h =>
      refine ⟨?_, hs⟩
      have hsplit : Clean (returnFindings ctx scopes keyword (some value)) := hc
      rw [returnFindings, clean_append] at hsplit
      show returnFindings ctx scopes' keyword (some value') =
        returnFindings ctx scopes keyword (some value)
      rw [returnFindings, returnFindings, Expr.findingsOf?, Expr.findingsOf?,
        value.findings_renamed ctx ⟨sites, scopes, none⟩ h hs hf.2 hsplit.2 ht]
      rfl
  | .class_ name none methods, _, scopes, scopes', _, hr, hs, hf, hc, ht => by
    cases hr with
    | @class_ _ _ _ methods' hname h =>
      have hsplit : Clean ((scopes.introduce name).1 ++ [] ++
        resolveMethods .plain (methodScopes (scopes.introduce name).2 false) methods) := hc
      rw [clean_append, clean_append] at hsplit
      have hintroduced := hs.introduce hname.renames.lexeme hf.1.2.2 hsplit.1.1
      have hinner := resolveMethods_renamed hρ .plain
        (methodSites sites name none methods) methods h (hintroduced.scopes.methodScopes hρ false)
        hf.2.2 hsplit.2 ht
      exact (hintroduced.append rfl).append hinner
  | .class_ name (some superclass) methods, _, scopes, scopes', _, hr, hs, hf, hc, ht => by
    cases hr with
    | @subclass _ _ _ superclass' _ methods' hname hsuperclass h =>
      have hsplit : Clean ((scopes.introduce name).1 ++
        superclassFindings ctx (scopes.introduce name).2 name (some superclass) ++
        resolveMethods .subclass (methodScopes (scopes.introduce name).2 true) methods) := hc
      rw [clean_append, clean_append] at hsplit
      have htraces : ρ.Traces (superclass.uses ⟨sites, (scopes.introduce name).2, none⟩ ++
        usesOfMethods (methodSites sites name (some superclass) methods)
          (methodScopes (scopes.introduce name).2 true) methods) := ht
      rw [traces_append] at htraces
      have hintroduced := hs.introduce hname.renames.lexeme hf.1.2.2 hsplit.1.1
      have hparent := superclassFindings_renamed hsuperclass hintroduced.scopes hf.1.2.2 hf.2.1
        hsplit.1.2 htraces.1
      have hinner := resolveMethods_renamed hρ .subclass
        (methodSites sites name (some superclass) methods) methods h
        (hintroduced.scopes.methodScopes hρ true) hf.2.2 hsplit.2 htraces.2
      exact (hintroduced.append hparent).append hinner
termination_by structural s => s

theorem resolveAll_renamed (hρ : ρ.Proper) (ctx : Context) (sites : List Site) :
    ∀ (body : List Stmt) {marks : Marks} {scopes scopes' : StaticScopes} {body' : List Stmt},
      RenamedAll ρ marks body body' → ScopesRenamed ρ marks scopes scopes' →
      formedAll ρ.Fresh body → Clean (resolveAll ctx scopes body).1 →
      ρ.Traces (usesOfAll sites scopes body) →
      SameFindings ρ marks (resolveAll ctx scopes body) (resolveAll ctx scopes' body')
  | [], _, _, _, _, hr, hs, _, _, _ => by
    cases hr with
    | nil marks => exact ⟨rfl, hs⟩
  | s :: rest, _, scopes, scopes', _, hr, hs, hf, hc, ht => by
    cases hr with
    | @cons _ _ s' _ rest' h hrest =>
      have hsplit : Clean ((s.resolve ctx scopes).1 ++
        (resolveAll ctx (s.resolve ctx scopes).2 rest).1) := hc
      rw [clean_append] at hsplit
      rw [usesOfAll, traces_append, ← s.resolve_scopes ctx scopes hf.1] at ht
      have hfirst := s.resolve_renamed hρ ctx sites h hs hf.1 hsplit.1 ht.1
      exact (resolveAll_renamed hρ ctx sites rest hrest hfirst.scopes hf.2 hsplit.2 ht.2).prepend
        hfirst.findings
termination_by structural body => body

theorem FunDecl.resolve_renamed (hρ : ρ.Proper) (ctx : Context) (sites : List Site) :
    ∀ (d : FunDecl) {marks : Marks} {scopes scopes' : StaticScopes} {d' : FunDecl},
      d.Renamed ρ marks d' → ScopesRenamed ρ marks scopes scopes' → d.Formed ρ.Fresh →
      Clean (d.resolve ctx scopes) → ρ.Traces (d.uses sites scopes) →
      d'.resolve ctx scopes' = d.resolve ctx scopes
  | .mk name params body, _, scopes, scopes', _, hr, hs, hf, hc, ht => by
    cases hr with
    | @mk _ _ params' _ body' name marked hparams h =>
      have hsplit : Clean ((StaticScopes.introduceAll ({} :: scopes) params).1 ++
        (resolveAll ctx (StaticScopes.introduceAll ({} :: scopes) params).2 body).1) := hc
      rw [clean_append] at hsplit
      have hintroduced := ScopesRenamed.introduceAll hparams
        (fun t ht => (hf.2.1 t ht).2.2) (hs.push marked) hsplit.1
      have hinner := resolveAll_renamed hρ ctx (.frame (.mk name params body) :: sites) body h
        hintroduced.scopes hf.2.2 hsplit.2 ht
      exact (hinner.prepend hintroduced.findings).findings
termination_by structural d => d

theorem resolveMethods_renamed (hρ : ρ.Proper) (cls : ClassContext) (sites : List Site) :
    ∀ (ds : List FunDecl) {marks : Marks} {scopes scopes' : StaticScopes} {ds' : List FunDecl},
      RenamedMethods ρ marks ds ds' → ScopesRenamed ρ marks scopes scopes' →
      formedMethods ρ.Fresh ds → Clean (resolveMethods cls scopes ds) →
      ρ.Traces (usesOfMethods sites scopes ds) →
      resolveMethods cls scopes' ds' = resolveMethods cls scopes ds
  | [], _, _, _, _, hr, _, _, _, _ => by
    cases hr
    rfl
  | d :: ds, _, scopes, scopes', _, hr, hs, hf, hc, ht => by
    cases hr with
    | @cons _ _ d' _ ds' h hrest =>
      rw [resolveMethods, clean_append] at hc
      rw [usesOfMethods, traces_append] at ht
      have hkind : methodContext d' = methodContext d := by
        rw [methodContext, methodContext, FunDecl.isInitializer, FunDecl.isInitializer, h.name]
      rw [resolveMethods, resolveMethods, hkind,
        d.resolve_renamed hρ ⟨methodContext d, cls⟩ (.receiver d :: sites) h hs hf.1 hc.1 ht.1,
        resolveMethods_renamed hρ cls sites ds hrest hs hf.2 hc.2 ht.2]
termination_by structural ds => ds

end

end Lox
