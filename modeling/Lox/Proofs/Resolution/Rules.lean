import Lox.Proofs.Grammar.Trees
import Lox.Proofs.Scoping.Uses

/-!
# The static rules

The static rules are about single pieces of a program and what lies around them: a `return` and the
functions that it is in, a declaration and the declarations before it in the same scope.
`programOccurrences` lists these pieces, each with all that lies around it, and `Occurrence.breaks`
says which rules are broken there. None of this keeps a record that is updated along the way.

The walk does keep such records: the kind of function and class it is in, and the open scopes with
the names that are declared and defined. It reports one violation for each rule that is broken, and
nothing else (`violations_are_broken_rules`).
-/

namespace Lox

/-! ### Surroundings -/

/-- What a scope belongs to. The parameters and the body of a function are in one scope. -/
inductive ScopeOwner where
  | block
  | function (decl : FunDecl)
  | method (decl : FunDecl)

/-- A part of a program that a place is inside. -/
inductive Enclosure where
  /-- A local scope, with the names that were declared in it before the place. -/
  | scope (owner : ScopeOwner) (earlier : List Token)
  | class_ (name : Token) (superclass : Option Expr)
  /-- The initializer of a variable. -/
  | initializer (name : Token)

/-- All that a place is inside, innermost first. -/
abbrev Surroundings := List Enclosure

/-- The declaration of the function whose scope this is, and whether it is that of a method. -/
def Enclosure.function? : Enclosure → Option (FunDecl × Bool)
  | scope (.function decl) _ => some (decl, false)
  | scope (.method decl) _ => some (decl, true)
  | _ => none

/-- The superclass of the class that this is. -/
def Enclosure.superclass? : Enclosure → Option (Option Expr)
  | class_ _ superclass => some superclass
  | _ => none

namespace Surroundings

/-- The nearest function or method. -/
def function? (around : Surroundings) : Option (FunDecl × Bool) :=
  around.findSome? Enclosure.function?

/-- The superclass of the nearest class. -/
def superclass? (around : Surroundings) : Option (Option Expr) :=
  around.findSome? Enclosure.superclass?

/-- The names declared so far in the scope that a declaration goes to. No scope is local at the top
level. -/
def earlier? : Surroundings → Option (List Token)
  | .scope _ earlier :: _ => some earlier
  | _ => none

/-- A name has been declared in the local scope at hand. -/
def declares (around : Surroundings) (name : Token) : Bool :=
  match around.earlier? with
  | some earlier => (earlier.map Token.lexeme).contains name.lexeme
  | none => false

/-- The initializer at hand is that of a local variable of this name, and the variable is not a
second one in its scope. -/
def initializes (around : Surroundings) (name : String) : Bool :=
  match around with
  | .initializer var :: outer =>
    (earlier? outer).isSome && !declares outer var && var.lexeme == name
  | _ => false

end Surroundings

/-! ### Occurrences -/

/-- What a static rule is about. -/
inductive Subject where
  | declaration (name : Token)
  | read (name : Token)
  | return_ (keyword : Token) (hasValue : Bool)
  | this (keyword : Token)
  | super (keyword : Token)
  /-- A class inherits from a superclass. -/
  | inheritance (name parent : Token)

/-- The token to blame. -/
def Subject.token : Subject → Token
  | declaration name | read name => name
  | return_ keyword _ | this keyword | super keyword => keyword
  | inheritance _ parent => parent

/-- The subject of a rule in a program, and what lies around it. -/
structure Occurrence where
  around : Surroundings
  subject : Subject

/-- All static rules. -/
def Violation.all : List Violation :=
  [.redeclared, .readInOwnInitializer, .returnOutsideFunction, .valueFromInitializer,
    .thisOutsideClass, .superOutsideClass, .superWithoutSuperclass, .inheritsFromItself]

namespace Occurrence

/-- The static rules. -/
def breaks (o : Occurrence) (rule : Violation) : Bool :=
  match o.subject, rule with
  | .return_ _ _, .returnOutsideFunction => o.around.function?.isNone
  | .return_ _ hasValue, .valueFromInitializer =>
    hasValue && o.around.function?.any fun (decl, isMethod) => isMethod && decl.isInitializer
  | .this _, .thisOutsideClass => o.around.superclass?.isNone
  | .super _, .superOutsideClass => o.around.superclass?.isNone
  | .super _, .superWithoutSuperclass => o.around.superclass?.any Option.isNone
  | .inheritance name parent, .inheritsFromItself => parent.lexeme == name.lexeme
  | .declaration name, .redeclared => o.around.declares name
  | .read name, .readInOwnInitializer => o.around.initializes name.lexeme
  | _, _ => false

/-- One report for each rule that is broken. -/
def reports (o : Occurrence) : List Report :=
  (Violation.all.filter o.breaks).map fun rule => .resolution o.subject.token rule.message

end Occurrence

mutual

def Expr.occurrences (around : Surroundings) : Expr → List Occurrence
  | .literal _ _ => []
  | .grouping _ inner => inner.occurrences around
  | .unary _ _ right => right.occurrences around
  | .binary _ left _ right => left.occurrences around ++ right.occurrences around
  | .logical _ left _ right => left.occurrences around ++ right.occurrences around
  | .var _ name => [⟨around, .read name⟩]
  | .assign _ _ value => value.occurrences around
  | .call _ callee _ args => callee.occurrences around ++ occurrencesOfArgs around args
  | .get _ object _ => object.occurrences around
  | .set _ object _ value => value.occurrences around ++ object.occurrences around
  | .this _ keyword => [⟨around, .this keyword⟩]
  | .super _ keyword _ => [⟨around, .super keyword⟩]
termination_by structural e => e

def occurrencesOfArgs (around : Surroundings) : List Expr → List Occurrence
  | [] => []
  | e :: es => e.occurrences around ++ occurrencesOfArgs around es
termination_by structural es => es

end

/-- The occurrences in an expression that may be missing. -/
def Expr.occurrencesOf? (around : Surroundings) : Option Expr → List Occurrence
  | some e => e.occurrences around
  | none => []

/-- The occurrences in a superclass clause. -/
def superclassOccurrences (around : Surroundings) (name : Token) : Option Expr → List Occurrence
  | some (.var _ parent) => [⟨around, .inheritance name parent⟩, ⟨around, .read parent⟩]
  | _ => []

/-- The names that a statement declares in the scope it stands in. -/
def Stmt.declared : Stmt → List Token
  | .var name _ => [name]
  | .function decl => [decl.name]
  | .class_ name _ _ => [name]
  | _ => []

/-- Names declared one after the other, after some earlier ones. -/
def declarationOccurrences (owner : ScopeOwner) (outer : Surroundings) (earlier : List Token) :
    List Token → List Occurrence
  | [] => []
  | name :: names =>
    ⟨.scope owner earlier :: outer, .declaration name⟩ ::
      declarationOccurrences owner outer (earlier ++ [name]) names

mutual

/-- The occurrences in a statement, in the order in which the walk comes to them. -/
def Stmt.occurrences (around : Surroundings) : Stmt → List Occurrence
  | .expression e => e.occurrences around
  | .print e => e.occurrences around
  | .var name init =>
    ⟨around, .declaration name⟩ :: Expr.occurrencesOf? (.initializer name :: around) init
  | .block body => occurrencesOfAll .block around [] body
  | .ifElse cond thenBranch none => cond.occurrences around ++ thenBranch.occurrences around
  | .ifElse cond thenBranch (some elseBranch) =>
    cond.occurrences around ++ thenBranch.occurrences around ++ elseBranch.occurrences around
  | .while_ cond body => cond.occurrences around ++ body.occurrences around
  | .function decl => ⟨around, .declaration decl.name⟩ :: decl.occurrences (.function decl) around
  | .return_ keyword value =>
    ⟨around, .return_ keyword value.isSome⟩ :: Expr.occurrencesOf? around value
  | .class_ name superclass methods =>
    ⟨around, .declaration name⟩ :: (superclassOccurrences around name superclass ++
      occurrencesOfMethods (.class_ name superclass :: around) methods)
termination_by structural s => s

/-- The occurrences in statements of a scope, after some names have been declared in it. -/
def occurrencesOfAll (owner : ScopeOwner) (outer : Surroundings) (earlier : List Token) :
    List Stmt → List Occurrence
  | [] => []
  | s :: rest =>
    s.occurrences (.scope owner earlier :: outer) ++
      occurrencesOfAll owner outer (earlier ++ s.declared) rest
termination_by structural body => body

def FunDecl.occurrences (owner : ScopeOwner) (outer : Surroundings) : FunDecl → List Occurrence
  | .mk _ params body =>
    declarationOccurrences owner outer [] params ++ occurrencesOfAll owner outer params body
termination_by structural d => d

def occurrencesOfMethods (around : Surroundings) : List FunDecl → List Occurrence
  | [] => []
  | d :: ds => d.occurrences (.method d) around ++ occurrencesOfMethods around ds
termination_by structural ds => ds

end

/-- The occurrences in a program, around whose statements there is nothing. -/
def programOccurrences (statements : List Stmt) : List Occurrence :=
  statements.flatMap (Stmt.occurrences [])

/-! ### What the walk reports at an occurrence -/

/-- The context that the walk is in at a place. -/
def Surroundings.context (around : Surroundings) : Context where
  function :=
    match around.function? with
    | none => .none
    | some (_, false) => .function
    | some (decl, true) => methodContext decl
  cls :=
    match around.superclass? with
    | none => .none
    | some none => .plain
    | some (some _) => .subclass

theorem findingReports_append (xs ys : List Finding) :
    findingReports (xs ++ ys) = findingReports xs ++ findingReports ys :=
  List.filterMap_append

theorem findingReports_violationIf (broken : Bool) (t : Token) (rule : Violation) :
    findingReports (violationIf broken t rule) =
      if broken then [.resolution t rule.message] else [] := by
  cases broken <;> rfl

theorem findingReports_useOf (scopes : StaticScopes) (id : NodeId) (name : Token) :
    findingReports (scopes.useOf id name) = [] := by
  unfold StaticScopes.useOf
  split <;> rfl

namespace Occurrence

variable (around : Surroundings)

theorem reports_declaration (name : Token) :
    reports ⟨around, .declaration name⟩ =
      if around.declares name then [.resolution name Violation.redeclared.message] else [] := by
  cases hdeclares : around.declares name <;>
    simp [reports, Violation.all, breaks, hdeclares, Subject.token]

theorem reports_read (name : Token) :
    reports ⟨around, .read name⟩ =
      findingReports
        (violationIf (around.initializes name.lexeme) name .readInOwnInitializer) := by
  cases hinitializes : around.initializes name.lexeme <;>
    simp [reports, Violation.all, breaks, hinitializes, findingReports_violationIf, Subject.token]

theorem reports_return (keyword : Token) (hasValue : Bool) :
    reports ⟨around, .return_ keyword hasValue⟩ =
      findingReports (violationIf (around.context.function = .none) keyword
          .returnOutsideFunction ++
        violationIf (around.context.function = .initializer ∧ hasValue) keyword
          .valueFromInitializer) := by
  rw [findingReports_append, findingReports_violationIf, findingReports_violationIf]
  rcases hf : around.function? with _ | ⟨decl, _ | _⟩
  · simp [reports, Violation.all, breaks, Surroundings.context, Subject.token, hf]
  · simp [reports, Violation.all, breaks, Surroundings.context, Subject.token, hf]
  · cases hinit : decl.isInitializer <;> cases hasValue <;>
      simp [reports, Violation.all, breaks, Surroundings.context, Subject.token, hf, methodContext,
        hinit]

theorem reports_this (keyword : Token) :
    reports ⟨around, .this keyword⟩ =
      findingReports (violationIf (around.context.cls = .none) keyword .thisOutsideClass) := by
  rw [findingReports_violationIf]
  rcases hs : around.superclass? with _ | _ | _ <;>
    simp [reports, Violation.all, breaks, Surroundings.context, Subject.token, hs]

theorem reports_super (keyword : Token) :
    reports ⟨around, .super keyword⟩ =
      findingReports (violationIf (around.context.cls = .none) keyword .superOutsideClass ++
        violationIf (around.context.cls = .plain) keyword .superWithoutSuperclass) := by
  rw [findingReports_append, findingReports_violationIf, findingReports_violationIf]
  rcases hs : around.superclass? with _ | _ | _ <;>
    simp [reports, Violation.all, breaks, Surroundings.context, Subject.token, hs]

theorem reports_inheritance (name parent : Token) :
    reports ⟨around, .inheritance name parent⟩ =
      findingReports (violationIf (parent.lexeme == name.lexeme) parent .inheritsFromItself) := by
  cases hsame : parent.lexeme == name.lexeme <;>
    simp [reports, Violation.all, breaks, hsame, findingReports_violationIf, Subject.token]

end Occurrence

/-! ### Open scopes and surroundings -/

/-- The innermost open scope has the names declared so far, all of them defined. -/
def StaticScopes.Know : StaticScopes → Option (List Token) → Prop
  | [], none => True
  | s :: _, some earlier =>
    ∀ x, s.find? x = if x ∈ earlier.map Token.lexeme then some true else none
  | _, _ => False

section Scopes

variable {scopes : StaticScopes} {around : Surroundings} {earlier : List Token} {name : Token}

theorem StaticScopes.know_empty (scopes : StaticScopes) : Know ({} :: scopes) (some []) :=
  fun _ => rfl

theorem StaticScopes.Know.isPending {earlier? : Option (List Token)} (h : scopes.Know earlier?)
    (x : String) : scopes.isPending x = false := by
  cases scopes with
  | nil => rfl
  | cons s outer =>
    cases earlier? with
    | none => exact h.elim
    | some earlier =>
      rw [StaticScopes.isPending, h x]
      split_ifs <;> rfl

theorem StaticScopes.Know.declare_reports (h : scopes.Know around.earlier?) :
    findingReports (scopes.declare name).1 = Occurrence.reports ⟨around, .declaration name⟩ := by
  rw [Occurrence.reports_declaration, Surroundings.declares]
  generalize around.earlier? = earlier? at h
  cases scopes with
  | nil =>
    cases earlier? with
    | none => rfl
    | some earlier => exact h.elim
  | cons s outer =>
    cases earlier? with
    | none => exact h.elim
    | some earlier =>
      simp only [StaticScopes.declare, Table.contains, h name.lexeme]
      by_cases hmem : name.lexeme ∈ earlier.map Token.lexeme
      · simp [hmem, findingReports, Finding.report?]
      · simp [hmem, findingReports]

theorem StaticScopes.Know.introduce_reports (h : scopes.Know around.earlier?) (name : Token) :
    findingReports (scopes.introduce name).1 = Occurrence.reports ⟨around, .declaration name⟩ :=
  h.declare_reports

/-- In the initializer of a variable, the variable is not yet defined if it is new. -/
theorem StaticScopes.Know.pending_declare (h : scopes.Know around.earlier?) (x : String) :
    (scopes.declare name).2.isPending x =
      Surroundings.initializes (.initializer name :: around) x := by
  simp only [Surroundings.initializes, Surroundings.declares]
  generalize around.earlier? = earlier? at h
  cases scopes with
  | nil =>
    cases earlier? with
    | none => rfl
    | some earlier => exact h.elim
  | cons s outer =>
    cases earlier? with
    | none => exact h.elim
    | some earlier =>
      have hpending : StaticScopes.isPending (s :: outer) x = false := h.isPending x
      simp only [StaticScopes.declare, Table.contains, h name.lexeme]
      by_cases hmem : name.lexeme ∈ earlier.map Token.lexeme
      · simpa [hmem] using hpending
      · by_cases hx : name.lexeme = x
        · subst hx
          simp [hmem, StaticScopes.isPending]
        · rw [StaticScopes.isPending] at hpending
          simp [hmem, StaticScopes.isPending, Table.find?_insert, hx, hpending]

theorem StaticScopes.Know.introduce {earlier? : Option (List Token)} (h : scopes.Know earlier?)
    (name : Token) : (scopes.introduce name).2.Know (earlier?.map (· ++ [name])) := by
  cases scopes with
  | nil =>
    cases earlier? with
    | none => trivial
    | some earlier => exact h.elim
  | cons s outer =>
    cases earlier? with
    | none => exact h.elim
    | some earlier =>
      have hfind (t : StaticScope) (ht : ∀ x, x ≠ name.lexeme → t.find? x = s.find? x)
          (x : String) :
          (t.insert name.lexeme true).find? x =
            if x ∈ (earlier ++ [name]).map Token.lexeme then some true else none := by
        rw [Table.find?_insert]
        by_cases hx : name.lexeme = x
        · simp [hx]
        · rw [if_neg hx, ht x (Ne.symm hx), h x]
          simp [Ne.symm hx]
      simp only [StaticScopes.introduce, StaticScopes.declare]
      split_ifs
      · exact hfind s fun _ _ => rfl
      · exact hfind _ fun x hx => Table.find?_insert_ne s (Ne.symm hx) false

theorem StaticScopes.Know.scopesAfter (h : scopes.Know (some earlier)) (s : Stmt) :
    (s.scopesAfter scopes).Know (some (earlier ++ s.declared)) := by
  cases s with
  | var name init => exact h.introduce name
  | function decl => exact h.introduce decl.name
  | class_ name superclass methods => exact h.introduce name
  | _ => simpa [Stmt.scopesAfter, Stmt.declared] using h

end Scopes

/-! ### The walk -/

variable {P : Token → Prop}

mutual

theorem Expr.findings_reports {scopes : StaticScopes} {around : Surroundings}
    (h : ∀ x, scopes.isPending x = around.initializes x) : ∀ e : Expr,
    findingReports (e.findings around.context scopes) =
      (e.occurrences around).flatMap Occurrence.reports
  | .literal _ _ => rfl
  | .grouping _ inner => inner.findings_reports h
  | .unary _ _ right => right.findings_reports h
  | .binary _ left _ right => by
    rw [Expr.findings, findingReports_append, left.findings_reports h, right.findings_reports h,
      Expr.occurrences, List.flatMap_append]
  | .logical _ left _ right => by
    rw [Expr.findings, findingReports_append, left.findings_reports h, right.findings_reports h,
      Expr.occurrences, List.flatMap_append]
  | .var id name => by
    rw [Expr.findings, findingReports_append, findingReports_useOf, h, ← Occurrence.reports_read]
    rfl
  | .assign id name value => by
    rw [Expr.findings, findingReports_append, findingReports_useOf, value.findings_reports h,
      List.append_nil, Expr.occurrences]
  | .call _ callee _ args => by
    rw [Expr.findings, findingReports_append, callee.findings_reports h,
      findingsOfArgs_reports h args, Expr.occurrences, List.flatMap_append]
  | .get _ object _ => object.findings_reports h
  | .set _ object _ value => by
    rw [Expr.findings, findingReports_append, value.findings_reports h, object.findings_reports h,
      Expr.occurrences, List.flatMap_append]
  | .this id keyword => by
    rw [Expr.findings, Expr.occurrences, List.flatMap_singleton, Occurrence.reports_this]
    by_cases hcls : around.context.cls = .none
    · rw [if_pos hcls, hcls]
      rfl
    · rw [if_neg hcls, findingReports_useOf, findingReports_violationIf]
      simp [hcls]
  | .super id keyword _ => by
    rw [Expr.findings, findingReports_append, findingReports_useOf, ← Occurrence.reports_super]
    rfl

theorem findingsOfArgs_reports {scopes : StaticScopes} {around : Surroundings}
    (h : ∀ x, scopes.isPending x = around.initializes x) : ∀ es : List Expr,
    findingReports (findingsOfArgs around.context scopes es) =
      (occurrencesOfArgs around es).flatMap Occurrence.reports
  | [] => rfl
  | e :: es => by
    rw [findingsOfArgs, findingReports_append, e.findings_reports h, findingsOfArgs_reports h es,
      occurrencesOfArgs, List.flatMap_append]

end

theorem Expr.findingsOf?_reports {scopes : StaticScopes} {around : Surroundings}
    (h : ∀ x, scopes.isPending x = around.initializes x) (e? : Option Expr) :
    findingReports (Expr.findingsOf? around.context scopes e?) =
      (Expr.occurrencesOf? around e?).flatMap Occurrence.reports := by
  cases e? with
  | none => rfl
  | some e => exact e.findings_reports h

/-- The walk has come to a place between statements. -/
structure Surroundings.Reached (around : Surroundings) (scopes : StaticScopes) : Prop where
  names : scopes.Know around.earlier?
  between : ∀ x, around.initializes x = false

theorem Surroundings.Reached.pending {around : Surroundings} {scopes : StaticScopes}
    (h : around.Reached scopes) (x : String) : scopes.isPending x = around.initializes x := by
  rw [h.names.isPending, h.between]

theorem Surroundings.reached_scope {scopes : StaticScopes} {earlier : List Token}
    (h : scopes.Know (some earlier)) (owner : ScopeOwner) (outer : Surroundings) :
    Surroundings.Reached (.scope owner earlier :: outer) scopes :=
  ⟨h, fun _ => rfl⟩

theorem Surroundings.context_scope (owner : ScopeOwner) (outer : Surroundings)
    (earlier earlier' : List Token) :
    Surroundings.context (.scope owner earlier :: outer) =
      Surroundings.context (.scope owner earlier' :: outer) := by
  cases owner <;> rfl

theorem introduceAll_reports (owner : ScopeOwner) (outer : Surroundings) {scopes : StaticScopes}
    {earlier : List Token} (h : scopes.Know (some earlier)) (names : List Token) :
    findingReports (scopes.introduceAll names).1 =
        (declarationOccurrences owner outer earlier names).flatMap Occurrence.reports ∧
      (scopes.introduceAll names).2.Know (some (earlier ++ names)) := by
  induction names generalizing scopes earlier with
  | nil => exact ⟨rfl, by rwa [List.append_nil]⟩
  | cons name names ih =>
    obtain ⟨hrest, hfinal⟩ := ih (h.introduce name)
    have hfirst := StaticScopes.Know.introduce_reports
      (Surroundings.reached_scope h owner outer).names name
    constructor
    · show findingReports ((scopes.introduce name).1 ++
        ((scopes.introduce name).2.introduceAll names).1) = _
      rw [findingReports_append, hfirst, hrest]
      rfl
    · rw [List.append_assoc] at hfinal
      exact hfinal

theorem superclassFindings_reports {scopes : StaticScopes} {around : Surroundings}
    (h : around.Reached scopes) (name : Token) {superclass : Option Expr}
    (hformed : Expr.FormedSuperclass P superclass) :
    findingReports (superclassFindings around.context (scopes.introduce name).2 name superclass) =
      (superclassOccurrences around name superclass).flatMap Occurrence.reports := by
  cases superclass with
  | none => rfl
  | some e =>
    cases e with
    | var id parent =>
      have hpending : (scopes.introduce name).2.isPending parent.lexeme = false :=
        (h.names.introduce name).isPending parent.lexeme
      rw [superclassFindings, findingReports_append, Expr.selfInheritance, Expr.findings,
        findingReports_append, findingReports_useOf, hpending, superclassOccurrences,
        ← Occurrence.reports_inheritance around name parent, ← h.between parent.lexeme,
        ← Occurrence.reports_read around parent]
      simp
    | _ => exact hformed.elim

mutual

/-- What the walk reports for a statement is what its occurrences break. -/
theorem Stmt.resolve_reports {scopes : StaticScopes} {around : Surroundings}
    (h : around.Reached scopes) : ∀ s : Stmt, s.Formed P →
    findingReports (s.resolve around.context scopes).1 =
      (s.occurrences around).flatMap Occurrence.reports
  | .expression e, _ => e.findings_reports h.pending
  | .print e, _ => e.findings_reports h.pending
  | .var name init, _ => by
    have hinit : findingReports (Expr.findingsOf? around.context (scopes.declare name).2 init) =
        (Expr.occurrencesOf? (.initializer name :: around) init).flatMap Occurrence.reports :=
      Expr.findingsOf?_reports h.names.pending_declare init
    show findingReports ((scopes.declare name).1 ++ _) = _
    rw [findingReports_append, h.names.declare_reports, Stmt.occurrences, List.flatMap_cons]
    exact congrArg (_ ++ ·) hinit
  | .block body, hs => resolveAll_reports .block around scopes.know_empty body hs
  | .ifElse cond thenBranch none, hs => by
    show findingReports (cond.findings around.context scopes ++ _) = _
    rw [findingReports_append, cond.findings_reports h.pending,
      thenBranch.resolve_reports h hs.2.2, Stmt.occurrences, List.flatMap_append]
  | .ifElse cond thenBranch (some elseBranch), hs => by
    rw [Stmt.resolve_ifElse around.context scopes cond hs.2.1 elseBranch, findingReports_append,
      findingReports_append, cond.findings_reports h.pending,
      thenBranch.resolve_reports h hs.2.1.2, elseBranch.resolve_reports h hs.2.2.2,
      Stmt.occurrences, List.flatMap_append, List.flatMap_append]
  | .while_ cond body, hs => by
    show findingReports (cond.findings around.context scopes ++ _) = _
    rw [findingReports_append, cond.findings_reports h.pending, body.resolve_reports h hs.2.2,
      Stmt.occurrences, List.flatMap_append]
  | .function decl, hs => by
    have hdecl := decl.resolve_reports (.function decl) around (scopes.introduce decl.name).2 hs
    show findingReports ((scopes.introduce decl.name).1 ++ _) = _
    rw [findingReports_append, h.names.introduce_reports, Stmt.occurrences, List.flatMap_cons]
    exact congrArg (_ ++ ·) hdecl
  | .return_ keyword value, _ => by
    show findingReports (returnFindings around.context scopes keyword value) = _
    rw [returnFindings, findingReports_append, ← Occurrence.reports_return,
      Expr.findingsOf?_reports h.pending value]
    rfl
  | .class_ name superclass methods, hs => by
    have hmethods := resolveMethods_reports name superclass around
      (methodScopes (scopes.introduce name).2 superclass.isSome) methods hs.2.2
    show findingReports ((scopes.introduce name).1 ++
      superclassFindings around.context (scopes.introduce name).2 name superclass ++
      resolveMethods (if superclass.isSome then .subclass else .plain)
        (methodScopes (scopes.introduce name).2 superclass.isSome) methods) = _
    rw [findingReports_append, findingReports_append, h.names.introduce_reports,
      superclassFindings_reports h name hs.2.1, Stmt.occurrences, List.flatMap_cons,
      List.flatMap_append, List.append_assoc, hmethods]

theorem resolveAll_reports (owner : ScopeOwner) (outer : Surroundings) {scopes : StaticScopes}
    {earlier : List Token} (h : scopes.Know (some earlier)) : ∀ body : List Stmt,
    formedAll P body →
    findingReports
        (resolveAll (Surroundings.context (.scope owner earlier :: outer)) scopes body).1 =
      (occurrencesOfAll owner outer earlier body).flatMap Occurrence.reports
  | [], _ => rfl
  | s :: rest, hbody => by
    have hrest := resolveAll_reports owner outer (h.scopesAfter s) rest hbody.2
    rw [resolveAll_cons _ _ hbody.1, findingReports_append,
      s.resolve_reports (Surroundings.reached_scope h owner outer) hbody.1,
      Surroundings.context_scope owner outer earlier (earlier ++ s.declared), hrest,
      occurrencesOfAll, List.flatMap_append]

theorem FunDecl.resolve_reports (owner : ScopeOwner) (outer : Surroundings)
    (scopes : StaticScopes) : ∀ d : FunDecl, d.Formed P →
    findingReports (d.resolve (Surroundings.context (.scope owner [] :: outer)) scopes) =
      (d.occurrences owner outer).flatMap Occurrence.reports
  | .mk name params body, hd => by
    obtain ⟨hparams, hknow⟩ := introduceAll_reports owner outer scopes.know_empty params
    have hbody := resolveAll_reports owner outer hknow body hd.2.2
    show findingReports ((StaticScopes.introduceAll ({} :: scopes) params).1 ++ _) = _
    rw [findingReports_append, hparams, Surroundings.context_scope owner outer [] ([] ++ params),
      hbody, FunDecl.occurrences, List.flatMap_append, List.nil_append]

theorem resolveMethods_reports (name : Token) (superclass : Option Expr) (around : Surroundings)
    (scopes : StaticScopes) : ∀ ds : List FunDecl, formedMethods P ds →
    findingReports (resolveMethods (if superclass.isSome then .subclass else .plain) scopes ds) =
      (occurrencesOfMethods (.class_ name superclass :: around) ds).flatMap Occurrence.reports
  | [], _ => rfl
  | d :: ds, hds => by
    have hcontext :
        Surroundings.context (.scope (.method d) [] :: .class_ name superclass :: around) =
        ⟨methodContext d, if superclass.isSome then .subclass else .plain⟩ := by
      cases superclass <;> rfl
    have hd := d.resolve_reports (.method d) (.class_ name superclass :: around) scopes hds.1
    rw [hcontext] at hd
    rw [resolveMethods, findingReports_append, hd, resolveMethods_reports name superclass around
      scopes ds hds.2, occurrencesOfMethods, List.flatMap_append]

end

theorem programFindings_reports {statements : List Stmt} (h : formedAll P statements) :
    findingReports (programFindings statements) =
      (programOccurrences statements).flatMap Occurrence.reports := by
  induction statements with
  | nil => rfl
  | cons s rest ih =>
    have hstart : Surroundings.Reached [] [] := ⟨trivial, fun _ => rfl⟩
    have hs := s.resolve_reports hstart h.1
    have hscopes : s.scopesAfter [] = [] := by cases s <;> rfl
    rw [programFindings, resolveAll_cons _ _ h.1, hscopes, findingReports_append,
      programOccurrences, List.flatMap_cons, List.flatMap_append]
    exact congrArg₂ (· ++ ·) hs (ih h.2)

/-- Whatever tokens a program is read from, the walk over it makes one report for each rule that is
broken somewhere in it, in order, and no other. The second part spells out what it says. -/
theorem violations_are_broken_rules (ts : List Token) (made : Nat) :
    (findingReports (programFindings (Program.ofTokens ts made).statements) =
      (programOccurrences (Program.ofTokens ts made).statements).flatMap fun o =>
        (Violation.all.filter o.breaks).map fun rule =>
          .resolution o.subject.token rule.message) ∧
    Violation.all.map Violation.message =
      ["Already a variable with this name in this scope.",
        "Can't read local variable in its own initializer.", "Can't return from top-level code.",
        "Can't return a value from an initializer.", "Can't use 'this' outside of a class.",
        "Can't use 'super' outside of a class.",
        "Can't use 'super' in a class with no superclass.", "A class can't inherit from itself."] :=
  ⟨programFindings_reports (program_made (P := fun _ => True) (fun _ _ => trivial) made).1, rfl⟩

/-- The second variable is a duplicate, and its initializer may read the first one. -/
example :
    ((programOccurrences (Program.ofTokens
      (tokens "fun f(b) \x7b var a = a; var a = a + b; var b; return this; \x7d return 1;")
      0).statements).flatMap Occurrence.reports).map Report.message =
    ["Can't read local variable in its own initializer.",
      "Already a variable with this name in this scope.",
      "Already a variable with this name in this scope.",
      "Can't use 'this' outside of a class.",
      "Can't return from top-level code."] := by
  decide +kernel

end Lox
