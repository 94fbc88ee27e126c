import Lox.Proofs.Grammar.Recognition
import Lox.Proofs.Tree.Unparsing

/-!
# The tokens of what was read

A reader that makes no complaint has put all the tokens that it has read into the tree that it
returns, once each and in their order. `Consumes p c L` says that the reader `p`, started at `c`,
returns only things that are in the relation `L` to the tokens it has read. Where a reader goes on
from an expression that has been read before, the relation is about the tokens of both together.
-/

namespace Lox

namespace Parse

variable {α β : Type} {c : Cursor} {n : Nat} {L : α → List Token → Prop}
  {M : β → List Token → Prop}

/-- If the reader makes no complaint, then `L` holds of what it returns and of the tokens that it
has read. -/
def Consumes (p : Parse α) (c : Cursor) (L : α → List Token → Prop) : Prop :=
  Spec True p c fun a d => d.complaints = c.complaints → ∃ ts, c.ahead = ts ++ d.ahead ∧ L a ts

/-! ### Rules -/

theorem consumes_outOfFuel : Consumes (outOfFuel : Parse α) c L := spec_outOfFuel trivial

theorem consumes_pure {a : α} (h : L a []) : Consumes (pure a : Parse α) c L :=
  spec_pure fun _ => ⟨[], rfl, h⟩

theorem consumes_failWith (what : Expected) : Consumes (failWith what : Parse α) c L :=
  spec_failWith what

theorem Consumes.mono {p : Parse α} {L' : α → List Token → Prop} (h : Consumes p c L)
    (hL : ∀ a ts, L a ts → L' a ts) : Consumes p c L' := by
  refine Spec.mono h fun a d _ hd hclean => ?_
  obtain ⟨ts, hts, hLts⟩ := hd hclean
  exact ⟨ts, hts, hL a ts hLts⟩

theorem Consumes.bind {p : Parse α} {f : α → Parse β} (hp : Consumes p c L)
    (hf : ∀ a d, Consumes (f a) d fun b us => ∀ ts, L a ts → M b (ts ++ us)) :
    Consumes (p >>= f) c M := by
  refine Spec.bind hp fun a d hcd hd => Spec.mono (hf a d) fun b e hde he hclean => ?_
  obtain ⟨hfirst, hsecond⟩ := complaints_between hcd hde hclean
  obtain ⟨ts, hts, hLts⟩ := hd hfirst
  obtain ⟨us, hus, hMus⟩ := he hsecond
  exact ⟨ts ++ us, by rw [hts, hus, List.append_assoc], hMus ts hLts⟩

theorem Consumes.after {p : Parse β} {t : Token} {rest : List Token} (heq : c.ahead = t :: rest)
    (h : Consumes p { c with ahead := rest } fun b us => M b (t :: us)) :
    Spec True p { c with ahead := rest } fun b d =>
      d.complaints = c.complaints → ∃ ts, c.ahead = ts ++ d.ahead ∧ M b ts := by
  refine Spec.mono h fun b d _ hd hclean => ?_
  obtain ⟨us, hus, hM⟩ := hd hclean
  refine ⟨t :: us, ?_, hM⟩
  rw [heq, List.cons_append, ← hus]

theorem consumes_acceptIf {test : TokenKind → Bool} {f : Option Token → Parse β}
    (hnone : Consumes (f none) c M)
    (hsome : ∀ t d, test t.kind = true → Consumes (f (some t)) d fun b us => M b (t :: us)) :
    Consumes (acceptIf test >>= f) c M :=
  spec_acceptIf (fun _ => hnone) fun t _ heq htest => (hsome t _ htest).after heq

theorem consumes_accept {k : TokenKind} {f : Option Token → Parse β}
    (hnone : Consumes (f none) c M)
    (hsome : ∀ t d, t.kind = k → Consumes (f (some t)) d fun b us => M b (t :: us)) :
    Consumes (accept k >>= f) c M :=
  consumes_acceptIf hnone fun t d htest => hsome t d (by simpa using htest)

theorem consumes_expect {k : TokenKind} {what : Expected} {f : Token → Parse β}
    (hf : ∀ t d, t.kind = k → Consumes (f t) d fun b us => M b (t :: us)) :
    Consumes (expect k what >>= f) c M :=
  spec_expect fun t _ heq hkind => (hf t _ hkind).after heq

theorem consumes_freshId {f : NodeId → Parse β} (hf : ∀ id d, Consumes (f id) d M) :
    Consumes (freshId >>= f) c M :=
  spec_freshId (hf _ _)

theorem consumes_check {k : TokenKind} {f : Bool → Parse β} (hf : ∀ b, Consumes (f b) c M) :
    Consumes (check k >>= f) c M :=
  spec_check (hf _)

/-- After a complaint nothing is said of the tokens that are read. -/
theorem Consumes.after_complaint {p : Parse β} {x : Complaint} {N : β → List Token → Prop}
    (h : Consumes p (c.complain x) N) :
    Spec True p (c.complain x) fun b d =>
      d.complaints = c.complaints → ∃ ts, c.ahead = ts ++ d.ahead ∧ M b ts := by
  refine Spec.mono h fun b d hcd _ hclean => ?_
  have hlength := hcd.complaints.length_le
  rw [hclean, Cursor.complain, List.length_append, List.length_singleton] at hlength
  omega

theorem consumes_complain {t : Token} {x : ParseError} {f : Unit → Parse β}
    (hf : ∀ d, Consumes (f ()) d fun _ _ => True) : Consumes (complain t x >>= f) c M :=
  spec_complain (hf _).after_complaint

theorem consumes_checkArity {count : Nat} {x : ParseError} {f : Unit → Parse β}
    (hf : ∀ d, Consumes (f ()) d fun b ts => count < maxArity → M b ts) :
    Consumes (checkArity count x >>= f) c M :=
  spec_checkArity (fun _ => (hf _).after_complaint) fun hcount =>
    (hf c).mono fun _ _ h => h hcount

end Parse

/-! ### What the readers return -/

/-- The tokens are those that the expression is of its grade from. -/
structure Expr.ReadFrom (e : Expr) (g : Grade) (ts : List Token) : Prop where
  grade : e.OfGrade g
  written : e.WrittenAs Eq ts

/-- The arguments of a call, after `count` others, with the commas between them. -/
structure ArgsReadFrom (count : Nat) (es : List Expr) (ts : List Token) : Prop where
  grade : ∀ e ∈ es, e.OfGrade .expression
  written : List.Forall₂ (Mark.Fits Eq) (unparseArgs es) ts
  room : count + es.length ≤ maxArity

namespace Expr.ReadFrom

variable {e : Expr} {g g' : Grade} {ts us : List Token}

theorem loosen (h : e.ReadFrom g ts) (hg : e.OfGrade g → e.OfGrade g') : e.ReadFrom g' ts :=
  ⟨hg h.grade, h.written⟩

theorem join {l : Level} {left right : Expr} {op : Token} (id : NodeId)
    (hleft : left.ReadFrom (.chain l) ts) (hop : l.hasOperator op.kind = true)
    (hright : right.ReadFrom l.operandGrade us) :
    (l.join id left op right).ReadFrom (.chain l) (ts ++ op :: us) := by
  refine ⟨.join id hleft.grade hop hright.grade, ?_⟩
  rw [WrittenAs, Level.unparse_join]
  exact List.rel_append hleft.written (.cons rfl hright.written)

theorem unary {op : Token} {right : Expr} (id : NodeId) (hop : isUnaryOperator op.kind = true)
    (hright : right.ReadFrom .unary ts) : (Expr.unary id op right).ReadFrom .unary (op :: ts) :=
  ⟨.unary hop hright.grade, .cons rfl hright.written⟩

theorem call {callee : Expr} {args : List Expr} {opening paren : Token} (id : NodeId)
    (hcallee : callee.ReadFrom .call ts) (hopening : opening.kind = .symbol .leftParen)
    (hargs : ArgsReadFrom 0 args us) (hparen : paren.kind = .symbol .rightParen) :
    (Expr.call id callee paren args).ReadFrom .call (ts ++ opening :: (us ++ [paren])) := by
  have hroom := hargs.room
  rw [Nat.zero_add] at hroom
  refine ⟨.call hcallee.grade hargs.grade hroom hparen, ?_⟩
  exact List.rel_append hcallee.written
    (.cons hopening (List.rel_append hargs.written (.cons rfl .nil)))

theorem get {object : Expr} {dot name : Token} (id : NodeId) (hobject : object.ReadFrom .call ts)
    (hdot : dot.kind = .symbol .dot) (hname : name.kind = .identifier) :
    (Expr.get id object name).ReadFrom .call (ts ++ [dot, name]) :=
  ⟨.get hobject.grade hname, List.rel_append hobject.written (.cons hdot (.cons rfl .nil))⟩

theorem assign {name equals : Token} {value : Expr} {id' : NodeId} (id : NodeId)
    (htarget : (Expr.var id' name).ReadFrom g ts) (hequals : equals.kind = .symbol .equal)
    (hvalue : value.ReadFrom .expression us) :
    (Expr.assign id name value).ReadFrom .expression (ts ++ equals :: us) :=
  ⟨.assign htarget.grade.identifier hvalue.grade,
    List.rel_append htarget.written (.cons hequals hvalue.written)⟩

theorem set {object value : Expr} {name equals : Token} {id' : NodeId} (id : NodeId)
    (htarget : (Expr.get id' object name).ReadFrom g ts) (hequals : equals.kind = .symbol .equal)
    (hvalue : value.ReadFrom .expression us) :
    (Expr.set id object name value).ReadFrom .expression (ts ++ equals :: us) := by
  obtain ⟨hobject, hname⟩ := htarget.grade.object_and_name
  refine ⟨.set hobject hname hvalue.grade, ?_⟩
  have hunparse : (Expr.set id object name value).unparse =
      (Expr.get id' object name).unparse ++ .made (.symbol .equal) :: value.unparse := by
    simp [unparse]
  rw [WrittenAs, hunparse]
  exact List.rel_append htarget.written (.cons hequals hvalue.written)

theorem grouping {inner : Expr} {opening closing : Token} (id : NodeId)
    (hopening : opening.kind = .symbol .leftParen) (hinner : inner.ReadFrom .expression ts)
    (hclosing : closing.kind = .symbol .rightParen) :
    (Expr.grouping id inner).ReadFrom .primary (opening :: (ts ++ [closing])) :=
  ⟨.grouping hinner.grade,
    .cons hopening (List.rel_append hinner.written (.cons hclosing .nil))⟩

theorem super {keyword dot method : Token} (id : NodeId)
    (hkeyword : keyword.kind = .keyword .super) (hdot : dot.kind = .symbol .dot)
    (hmethod : method.kind = .identifier) :
    (Expr.super id keyword method).ReadFrom .primary [keyword, dot, method] :=
  ⟨.super hkeyword hmethod, .cons rfl (.cons hdot (.cons rfl .nil))⟩

end Expr.ReadFrom

namespace ArgsReadFrom

variable {count : Nat} {e : Expr} {es : List Expr} {ts us : List Token}

theorem last (he : e.ReadFrom .expression ts) (hcount : count < maxArity) :
    ArgsReadFrom count [e] ts :=
  ⟨by simpa using he.grade, he.written, hcount⟩

theorem cons {comma : Token} (he : e.ReadFrom .expression ts)
    (hcomma : comma.kind = .symbol .comma) (hes : ArgsReadFrom (count + 1) es us)
    (hne : es ≠ []) : ArgsReadFrom count (e :: es) (ts ++ comma :: us) := by
  have hroom := hes.room
  refine ⟨List.forall_mem_cons.mpr ⟨he.grade, hes.grade⟩, ?_, ?_⟩
  · rw [unparseArgs_cons hne]
    exact List.rel_append he.written (.cons hcomma hes.written)
  · rw [List.length_cons]
    omega

end ArgsReadFrom

/-! ### The readers -/

namespace Parse

variable {c : Cursor} {n : Nat}

theorem superAccess_consumes {keyword : Token} (hkeyword : keyword.kind = .keyword .super) :
    Consumes (superAccess keyword) c fun e ts => e.ReadFrom .primary (keyword :: ts) := by
  refine consumes_expect fun dot _ hdot => consumes_expect fun method _ hmethod => ?_
  exact consumes_freshId fun id _ => consumes_pure (.super id hkeyword hdot hmethod)

theorem property_consumes (object : Expr) :
    Consumes (property object) c fun e ts => ∀ us dot, object.ReadFrom .call us →
      dot.kind = .symbol .dot → e.ReadFrom .call (us ++ dot :: ts) := by
  refine consumes_expect fun name _ hname => consumes_freshId fun id _ => ?_
  exact consumes_pure fun us dot hobject hdot => hobject.get id hdot hname

theorem assignment_consumes (target value : Expr) {equals : Token}
    (hequals : equals.kind = .symbol .equal) :
    Consumes (assignment target equals value) c fun e ts => ∀ us vs,
      target.ReadFrom (.chain .or) us → value.ReadFrom .expression vs →
      ts = [] ∧ e.ReadFrom .expression (us ++ equals :: vs) := by
  unfold assignment
  split
  · refine consumes_freshId fun id _ => consumes_pure fun us vs htarget hvalue => ⟨rfl, ?_⟩
    exact htarget.assign id hequals hvalue
  · refine consumes_freshId fun id _ => consumes_pure fun us vs htarget hvalue => ⟨rfl, ?_⟩
    exact htarget.set id hequals hvalue
  · exact consumes_complain fun _ => consumes_pure trivial

/-- What is known of the readers of expressions at some fuel. -/
structure ExpressionConsumes (n : Nat) : Prop where
  expression : ∀ c, Consumes (expression n) c fun e ts => e.ReadFrom .expression ts
  chain : ∀ l c, Consumes (chain n l) c fun e ts => e.ReadFrom (.chain l) ts
  chainRest : ∀ l left c, Consumes (chainRest n l left) c fun e ts => ∀ us,
    left.ReadFrom (.chain l) us → e.ReadFrom (.chain l) (us ++ ts)
  operand : ∀ l c, Consumes (operand n l) c fun e ts => e.ReadFrom l.operandGrade ts
  unary : ∀ c, Consumes (unary n) c fun e ts => e.ReadFrom .unary ts
  callRest : ∀ e c, Consumes (callRest n e) c fun e' ts => ∀ us,
    e.ReadFrom .call us → e'.ReadFrom .call (us ++ ts)
  arguments : ∀ c, Consumes (arguments n) c fun es ts => ArgsReadFrom 0 es ts
  argumentsFrom : ∀ count c, Consumes (argumentsFrom n count) c fun es ts =>
    es ≠ [] ∧ ArgsReadFrom count es ts
  primary : ∀ c, Consumes (primary n) c fun e ts => e.ReadFrom .primary ts

theorem expression_consumes (ih : ExpressionConsumes n) (c : Cursor) :
    Consumes (expression (n + 1)) c fun e ts => e.ReadFrom .expression ts := by
  rw [expression]
  refine (ih.chain .or c).bind fun target _ => consumes_accept ?_ fun equals _ hequals => ?_
  · refine consumes_pure fun us htarget => ?_
    rw [List.append_nil]
    exact htarget.loosen .chain
  · refine (ih.expression _).bind fun value _ => ?_
    refine (assignment_consumes target value hequals).mono fun e ts he vs hvalue us htarget => ?_
    -- Anything but a variable or a property before the equals sign is a complaint.
    obtain ⟨rfl, he⟩ := he us vs htarget hvalue
    rwa [List.append_nil]

theorem chain_consumes (ih : ExpressionConsumes n) (l : Level) (c : Cursor) :
    Consumes (chain (n + 1) l) c fun e ts => e.ReadFrom (.chain l) ts := by
  rw [chain]
  refine (ih.operand l c).bind fun left d => ?_
  exact (ih.chainRest l left d).mono fun e ts he us hleft => he us (hleft.loosen .operand)

theorem chainRest_consumes (ih : ExpressionConsumes n) (l : Level) (left : Expr) (c : Cursor) :
    Consumes (chainRest (n + 1) l left) c fun e ts => ∀ us,
      left.ReadFrom (.chain l) us → e.ReadFrom (.chain l) (us ++ ts) := by
  rw [chainRest]
  refine consumes_acceptIf ?_ fun op _ hop => ?_
  · refine consumes_pure fun us hleft => ?_
    rwa [List.append_nil]
  · refine (ih.operand l _).bind fun right _ => consumes_freshId fun id d => ?_
    refine (ih.chainRest l _ d).mono fun e ts he vs hright us hleft => ?_
    have he := he (us ++ op :: vs) (hleft.join id hop hright)
    rwa [List.append_assoc] at he

theorem operand_consumes (ih : ExpressionConsumes n) (l : Level) (c : Cursor) :
    Consumes (operand (n + 1) l) c fun e ts => e.ReadFrom l.operandGrade ts := by
  rw [operand, Level.operandGrade]
  cases l.tighter? with
  | some l' => exact ih.chain l' c
  | none => exact ih.unary c

theorem unary_consumes (ih : ExpressionConsumes n) (c : Cursor) :
    Consumes (unary (n + 1)) c fun e ts => e.ReadFrom .unary ts := by
  rw [unary]
  refine consumes_acceptIf ?_ fun op _ hop => ?_
  · refine (ih.primary c).bind fun e d => (ih.callRest e d).mono fun e' ts he' us he => ?_
    exact (he' us (he.loosen .ofPrimary)).loosen .ofCall
  · refine (ih.unary _).bind fun right _ => consumes_freshId fun id _ => ?_
    refine consumes_pure fun us hright => ?_
    rw [List.append_nil]
    exact hright.unary id hop

theorem callRest_consumes (ih : ExpressionConsumes n) (e : Expr) (c : Cursor) :
    Consumes (callRest (n + 1) e) c fun e' ts => ∀ us,
      e.ReadFrom .call us → e'.ReadFrom .call (us ++ ts) := by
  rw [callRest]
  refine consumes_accept (consumes_accept ?_ fun dot _ hdot => ?_) fun opening _ hopening => ?_
  · refine consumes_pure fun us he => ?_
    rwa [List.append_nil]
  · refine (property_consumes e).bind fun object d => ?_
    refine (ih.callRest object d).mono fun e' ts he' name hobject us he => ?_
    have he' := he' _ (hobject us dot he hdot)
    rwa [List.append_assoc] at he'
  · refine (ih.arguments _).bind fun args _ => consumes_expect fun paren _ hparen => ?_
    refine consumes_freshId fun id d => ?_
    refine (ih.callRest _ d).mono fun e' ts he' vs hargs us he => ?_
    have he' := he' _ (he.call id hopening hargs hparen)
    simpa using he'

theorem arguments_consumes (ih : ExpressionConsumes n) (c : Cursor) :
    Consumes (arguments (n + 1)) c fun es ts => ArgsReadFrom 0 es ts := by
  rw [arguments]
  refine consumes_check fun closing => ?_
  cases closing with
  | true => exact consumes_pure ⟨by simp, .nil, by simp⟩
  | false => exact (ih.argumentsFrom 0 c).mono fun _ _ h => h.2

theorem argumentsFrom_consumes (ih : ExpressionConsumes n) (count : Nat) (c : Cursor) :
    Consumes (argumentsFrom (n + 1) count) c fun es ts => es ≠ [] ∧ ArgsReadFrom count es ts := by
  rw [argumentsFrom]
  refine consumes_checkArity fun _ => (ih.expression _).bind fun e _ => ?_
  refine consumes_accept ?_ fun comma _ hcomma => ?_
  · refine consumes_pure fun ts he hcount => ⟨by simp, ?_⟩
    rw [List.append_nil]
    exact .last he hcount
  · refine (ih.argumentsFrom (count + 1) _).bind fun rest _ => ?_
    refine consumes_pure fun us hrest ts he _ => ⟨by simp, ?_⟩
    rw [List.append_nil]
    exact .cons he hcomma hrest.2 hrest.1

theorem primary_consumes (ih : ExpressionConsumes n) (c : Cursor) :
    Consumes (primary (n + 1)) c fun e ts => e.ReadFrom .primary ts := by
  rw [primary]
  refine consumes_acceptIf ?_ fun t _ ht => consumes_freshId fun id _ => consumes_pure ?_
  swap
  · obtain ⟨v, hv⟩ := Option.isSome_iff_exists.mp ht
    rw [hv]
    exact ⟨.literal id v, .cons (kind_of_literalOf? hv).symm .nil⟩
  refine consumes_accept ?_ fun keyword _ hkeyword => superAccess_consumes hkeyword
  refine consumes_accept ?_ fun keyword _ hkeyword => consumes_freshId fun id _ => ?_
  swap
  · exact consumes_pure ⟨.this hkeyword, .cons rfl .nil⟩
  refine consumes_accept ?_ fun name _ hname => consumes_freshId fun id _ => ?_
  swap
  · exact consumes_pure ⟨.var hname, .cons rfl .nil⟩
  refine consumes_accept (consumes_failWith _) fun opening _ hopening => ?_
  refine (ih.expression _).bind fun inner _ => consumes_expect fun closing _ hclosing => ?_
  exact consumes_freshId fun id _ => consumes_pure fun ts hinner =>
    hinner.grouping id hopening hclosing

theorem expressionConsumes (n : Nat) : ExpressionConsumes n := by
  induction n with
  | zero =>
    exact ⟨fun _ => consumes_outOfFuel, fun _ _ => consumes_outOfFuel,
      fun _ _ _ => consumes_outOfFuel, fun _ _ => consumes_outOfFuel, fun _ => consumes_outOfFuel,
      fun _ _ => consumes_outOfFuel, fun _ => consumes_outOfFuel, fun _ _ => consumes_outOfFuel,
      fun _ => consumes_outOfFuel⟩
  | succ n ih =>
    exact ⟨expression_consumes ih, chain_consumes ih, chainRest_consumes ih, operand_consumes ih,
      unary_consumes ih, callRest_consumes ih, arguments_consumes ih, argumentsFrom_consumes ih,
      primary_consumes ih⟩

theorem wholeExpression_consumes (n : Nat) (c : Cursor) :
    Spec True (wholeExpression n) c fun e d =>
      d.complaints = c.complaints → e.ReadFrom .expression c.ahead := by
  refine Spec.bind ((expressionConsumes n).expression c) fun e d _ hd => spec_atEnd ?_
  cases hend : d.ahead.isEmpty with
  | true =>
    refine spec_pure fun hclean => ?_
    obtain ⟨ts, hts, he⟩ := hd hclean
    rwa [hts, List.isEmpty_iff.mp hend, List.append_nil]
  | false => exact spec_failWith _

end Parse

end Lox
