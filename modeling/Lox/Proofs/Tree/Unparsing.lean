import Mathlib.Data.List.Forall2
import Lox.Grammar.Expression

/-!
# Writing expressions back

`Expr.unparse` lists the tokens of an expression in the order of the source. A tree keeps its
operators, names and keywords, and the closing parenthesis of a call. All other tokens are told by
the shape of the tree: constants, the parentheses of groupings, the opening parenthesis and the
commas of calls, dots and equals signs. Of these only the kind is known, with the value that it
carries.

`Expr.OfGrade` says that every part of an expression is of the grammar level that its place asks
for. The left operand of a binary operator may be of the same level, the right one is of a tighter
one; an assignment stands on the right of another one or in place of a whole expression.
-/

namespace Lox

/-- The kind of the token that stands for a constant. -/
def Literal.kind : Literal → TokenKind
  | .nil => .keyword .nil
  | .bool true => .keyword .true
  | .bool false => .keyword .false
  | .number n => .number n
  | .string s => .string s

theorem literalOf?_kind (v : Literal) : literalOf? v.kind = some v := by
  cases v with
  | bool b => cases b <;> rfl
  | _ => rfl

theorem kind_of_literalOf? {k : TokenKind} {v : Literal} (h : literalOf? k = some v) :
    v.kind = k := by
  unfold literalOf? at h
  split at h <;> cases h <;> rfl

/-- A token to be written: one that the tree keeps, or one of a certain kind. -/
inductive Mark where
  | kept (t : Token)
  | made (k : TokenKind)

namespace Mark

def kind : Mark → TokenKind
  | kept t => t.kind
  | made k => k

/-- The token is written for the mark. Tokens that the tree keeps are written as tokens that `r`
relates them to. -/
def Fits (r : Token → Token → Prop) : Mark → Token → Prop
  | kept t, u => r t u
  | made k, u => u.kind = k

end Mark

mutual

/-- The tokens of an expression in the order of the source. -/
def Expr.unparse : Expr → List Mark
  | .literal _ value => [.made value.kind]
  | .grouping _ inner =>
    .made (.symbol .leftParen) :: (inner.unparse ++ [.made (.symbol .rightParen)])
  | .unary _ op right => .kept op :: right.unparse
  | .binary _ left op right => left.unparse ++ .kept op :: right.unparse
  | .logical _ left op right => left.unparse ++ .kept op :: right.unparse
  | .var _ name => [.kept name]
  | .assign _ name value => .kept name :: .made (.symbol .equal) :: value.unparse
  | .call _ callee paren args =>
    callee.unparse ++ .made (.symbol .leftParen) :: (unparseArgs args ++ [.kept paren])
  | .get _ object name => object.unparse ++ [.made (.symbol .dot), .kept name]
  | .set _ object name value =>
    object.unparse ++
      .made (.symbol .dot) :: .kept name :: .made (.symbol .equal) :: value.unparse
  | .this _ keyword => [.kept keyword]
  | .super _ keyword method => [.kept keyword, .made (.symbol .dot), .kept method]
termination_by structural e => e

/-- The arguments of a call, with commas between them. -/
def unparseArgs : List Expr → List Mark
  | [] => []
  | [e] => e.unparse
  | e :: es => e.unparse ++ .made (.symbol .comma) :: unparseArgs es
termination_by structural es => es

end

/-- The tokens are those of the expression. -/
def Expr.WrittenAs (r : Token → Token → Prop) (e : Expr) (ts : List Token) : Prop :=
  List.Forall₂ (Mark.Fits r) e.unparse ts

theorem Mark.forall₂_append {r : Token → Token → Prop} {ms ms' : List Mark} {ts : List Token}
    (h : List.Forall₂ (Fits r) (ms ++ ms') ts) :
    ∃ us vs, List.Forall₂ (Fits r) ms us ∧ List.Forall₂ (Fits r) ms' vs ∧ ts = us ++ vs :=
  ⟨_, _, (List.forall₂_take_append _ _ _ h.flip).flip, (List.forall₂_drop_append _ _ _ h.flip).flip,
    (List.take_append_drop ms.length ts).symm⟩

theorem unparseArgs_cons {es : List Expr} (h : es ≠ []) (e : Expr) :
    unparseArgs (e :: es) = e.unparse ++ .made (.symbol .comma) :: unparseArgs es := by
  cases es with
  | nil => exact absurd rfl h
  | cons e' es => rfl

theorem Level.unparse_join (l : Level) (id : NodeId) (left : Expr) (op : Token) (right : Expr) :
    (l.join id left op right).unparse = left.unparse ++ .kept op :: right.unparse := by
  cases l <;> rfl

/-! ### Grammar levels -/

/-- The levels of expressions, from the loosest to the tightest. -/
inductive Grade where
  | expression
  | chain (l : Level)
  | unary
  | call
  | primary

/-- The grade of the operands of a level. -/
def Level.operandGrade (l : Level) : Grade :=
  match l.tighter? with
  | some l' => .chain l'
  | none => .unary

/-- The parts of the expression are of the grades that their places ask for. -/
inductive Expr.OfGrade : Grade → Expr → Prop where
  | assign {id : NodeId} {name : Token} {value : Expr} (hname : name.kind = .identifier)
    (hvalue : OfGrade .expression value) : OfGrade .expression (.assign id name value)
  | set {id : NodeId} {object value : Expr} {name : Token} (hobject : OfGrade .call object)
    (hname : name.kind = .identifier) (hvalue : OfGrade .expression value) :
    OfGrade .expression (.set id object name value)
  | chain {e : Expr} (h : OfGrade (.chain .or) e) : OfGrade .expression e
  | join {l : Level} (id : NodeId) {left right : Expr} {op : Token}
    (hleft : OfGrade (.chain l) left) (hop : l.hasOperator op.kind = true)
    (hright : OfGrade l.operandGrade right) : OfGrade (.chain l) (l.join id left op right)
  | operand {l : Level} {e : Expr} (h : OfGrade l.operandGrade e) : OfGrade (.chain l) e
  | unary {id : NodeId} {op : Token} {right : Expr} (hop : isUnaryOperator op.kind = true)
    (hright : OfGrade .unary right) : OfGrade .unary (.unary id op right)
  | ofCall {e : Expr} (h : OfGrade .call e) : OfGrade .unary e
  | call {id : NodeId} {callee : Expr} {paren : Token} {args : List Expr}
    (hcallee : OfGrade .call callee) (hargs : ∀ e ∈ args, OfGrade .expression e)
    (hcount : args.length ≤ maxArity) (hparen : paren.kind = .symbol .rightParen) :
    OfGrade .call (.call id callee paren args)
  | get {id : NodeId} {object : Expr} {name : Token} (hobject : OfGrade .call object)
    (hname : name.kind = .identifier) : OfGrade .call (.get id object name)
  | ofPrimary {e : Expr} (h : OfGrade .primary e) : OfGrade .call e
  | literal (id : NodeId) (value : Literal) : OfGrade .primary (.literal id value)
  | this {id : NodeId} {keyword : Token} (hkeyword : keyword.kind = .keyword .this) :
    OfGrade .primary (.this id keyword)
  | var {id : NodeId} {name : Token} (hname : name.kind = .identifier) :
    OfGrade .primary (.var id name)
  | super {id : NodeId} {keyword method : Token} (hkeyword : keyword.kind = .keyword .super)
    (hmethod : method.kind = .identifier) : OfGrade .primary (.super id keyword method)
  | grouping {id : NodeId} {inner : Expr} (hinner : OfGrade .expression inner) :
    OfGrade .primary (.grouping id inner)

theorem Level.kind_ne_eof {l : Level} {k : TokenKind} (h : l.hasOperator k = true) :
    k ≠ .eof := by
  rintro rfl
  cases l <;> simp [hasOperator] at h

theorem forall_mem_unparseArgs {P : Mark → Prop} (hcomma : P (.made (.symbol .comma)))
    {es : List Expr} (h : ∀ e ∈ es, ∀ m ∈ e.unparse, P m) : ∀ m ∈ unparseArgs es, P m := by
  induction es with
  | nil => simp [unparseArgs]
  | cons e es ih =>
    rw [List.forall_mem_cons] at h
    by_cases hes : es = []
    · subst hes
      exact h.1
    · rw [unparseArgs_cons hes, List.forall_mem_append, List.forall_mem_cons]
      exact ⟨h.1, hcomma, ih h.2⟩

namespace Expr.OfGrade

variable {g : Grade} {e : Expr}

theorem kind_ne_eof (h : e.OfGrade g) : ∀ m ∈ e.unparse, m.kind ≠ .eof := by
  induction h with
  | assign hname _ ih => simpa [unparse, Mark.kind, hname] using ih
  | set _ hname _ ihobject ihvalue =>
    rw [unparse, List.forall_mem_append]
    exact ⟨ihobject, by simpa [Mark.kind, hname] using ihvalue⟩
  | join _ _ hop _ ihleft ihright =>
    rw [Level.unparse_join, List.forall_mem_append, List.forall_mem_cons]
    exact ⟨ihleft, Level.kind_ne_eof hop, ihright⟩
  | chain _ ih | operand _ ih | ofCall _ ih | ofPrimary _ ih => exact ih
  | @unary _ op _ hop _ ih =>
    rw [unparse, List.forall_mem_cons]
    refine ⟨fun hkind => ?_, ih⟩
    rw [show op.kind = .eof from hkind] at hop
    cases hop
  | call _ _ _ hparen ihcallee ihargs =>
    rw [unparse, List.forall_mem_append, List.forall_mem_cons, List.forall_mem_append]
    exact ⟨ihcallee, by simp [Mark.kind], forall_mem_unparseArgs (by simp [Mark.kind]) ihargs,
      by simp [Mark.kind, hparen]⟩
  | get _ hname ih =>
    rw [unparse, List.forall_mem_append]
    exact ⟨ih, by simp [Mark.kind, hname]⟩
  | literal _ value =>
    cases value with
    | bool b => cases b <;> simp [unparse, Mark.kind, Literal.kind]
    | _ => simp [unparse, Mark.kind, Literal.kind]
  | this hkeyword => simp [unparse, Mark.kind, hkeyword]
  | var hname => simp [unparse, Mark.kind, hname]
  | super hkeyword hmethod => simp [unparse, Mark.kind, hkeyword, hmethod]
  | grouping _ ih =>
    rw [unparse, List.forall_mem_cons, List.forall_mem_append]
    exact ⟨by simp [Mark.kind], ih, by simp [Mark.kind]⟩

theorem object_and_name {id : NodeId} {object : Expr} {name : Token}
    (h : (Expr.get id object name).OfGrade g) :
    object.OfGrade .call ∧ name.kind = .identifier := by
  generalize he : Expr.get id object name = e at h
  induction h with
  | chain _ ih | operand _ ih | ofCall _ ih | ofPrimary _ ih => exact ih he
  | @join l => cases l <;> cases he
  | get hobject hname =>
    cases he
    exact ⟨hobject, hname⟩
  | _ => cases he

theorem identifier {id : NodeId} {name : Token} (h : (Expr.var id name).OfGrade g) :
    name.kind = .identifier := by
  generalize he : Expr.var id name = e at h
  induction h with
  | chain _ ih | operand _ ih | ofCall _ ih | ofPrimary _ ih => exact ih he
  | @join l => cases l <;> cases he
  | var hname =>
    cases he
    exact hname
  | _ => cases he

end Expr.OfGrade

end Lox
