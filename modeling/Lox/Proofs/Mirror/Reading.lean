import Lox.Proofs.Grammar.Language
import Lox.Proofs.Mirror.Basic

/-!
# Reading mirrored tokens

Readers look at nothing but the kinds of the tokens. On corresponding tokens, and with
corresponding nodes to come, they therefore end alike, with mirrored trees and
corresponding complaints. The second reader may have more fuel than the first; if the first runs out
of it, nothing is said of the second. With the fuel that `Parse.fuelFor` grants, neither does, and
what a program or an expression is read as depends on its tokens only up to the mirror
(`Program.ofTokens_mirrored`, `ParsedExpr.ofTokens_mirrored`).
-/

namespace Lox

variable {α β : Type} {μ : Mirror}

/-- The same mistake, blamed on corresponding tokens. -/
structure Complaint.Mirrored (μ : Mirror) (x x' : Complaint) : Prop where
  token : μ.token x.token x'.token
  error : x'.error = x.error

/-- Corresponding places in two token lists. The nodes to come correspond as well. -/
structure Cursor.Mirrored (μ : Mirror) (c c' : Cursor) : Prop where
  ahead : List.Forall₂ μ.token c.ahead c'.ahead
  eof : μ.token c.eof c'.eof
  made : μ.made c.made c'.made
  complaints : List.Forall₂ (Complaint.Mirrored μ) c.complaints c'.complaints

/-- Two readers have ended alike, or the first had too little fuel. -/
inductive Reply.Mirrored (μ : Mirror) (Q : α → α → Prop) : Reply α → Reply α → Prop where
  | ok {a a' : α} {d d' : Cursor} (ha : Q a a') (hd : d.Mirrored μ d') :
    Reply.Mirrored μ Q (.ok a d) (.ok a' d')
  | fail {x x' : Complaint} {d d' : Cursor} (hx : x.Mirrored μ x') (hd : d.Mirrored μ d') :
    Reply.Mirrored μ Q (.fail x d) (.fail x' d')
  | starved (r : Reply α) : Reply.Mirrored μ Q .outOfFuel r

namespace Cursor.Mirrored

variable {c c' : Cursor}

theorem peek (h : c.Mirrored μ c') : μ.token c.peek c'.peek := by
  obtain ⟨hahead, heof, -, -⟩ := h
  unfold Cursor.peek
  generalize c.ahead = ts, c'.ahead = ts' at hahead
  cases hahead with
  | nil => exact heof
  | cons ht hrest => exact ht

theorem isEmpty (h : c.Mirrored μ c') : c'.ahead.isEmpty = c.ahead.isEmpty := by
  have hahead := h.ahead
  generalize c.ahead = ts, c'.ahead = ts' at hahead
  cases hahead with
  | nil => rfl
  | cons ht hrest => rfl

theorem check (h : c.Mirrored μ c') (k : TokenKind) : c'.check k = c.check k := by
  have hahead := h.ahead
  unfold Cursor.check
  generalize c.ahead = ts, c'.ahead = ts' at hahead
  cases hahead with
  | nil => rfl
  | cons ht hrest =>
    dsimp only
    rw [μ.kind ht]

theorem complain (h : c.Mirrored μ c') {x x' : Complaint} (hx : x.Mirrored μ x') :
    (c.complain x).Mirrored μ (c'.complain x') :=
  { h with complaints := List.rel_append h.complaints (.cons hx .nil) }

theorem withAhead (h : c.Mirrored μ c') {ts ts' : List Token} (hts : List.Forall₂ μ.token ts ts') :
    Cursor.Mirrored μ { c with ahead := ts } { c' with ahead := ts' } :=
  { h with ahead := hts }

theorem skipFrom {last last' : Token} {ts ts' : List Token} (hlast : μ.token last last')
    (h : List.Forall₂ μ.token ts ts') :
    List.Forall₂ μ.token (Cursor.skipFrom last ts) (Cursor.skipFrom last' ts') := by
  induction h generalizing last last' with
  | nil => exact .nil
  | @cons t t' rest rest' ht hrest ih =>
    have hstarts : Cursor.startsStatement t' = Cursor.startsStatement t := by
      rw [Cursor.startsStatement, Cursor.startsStatement, μ.kind ht]
    rw [Cursor.skipFrom, Cursor.skipFrom, μ.kind hlast, hstarts]
    split_ifs
    · exact .cons ht hrest
    · exact ih ht

theorem synchronize (h : c.Mirrored μ c') : c.synchronize.Mirrored μ c'.synchronize := by
  have hahead := h.ahead
  obtain ⟨ts, _, _, _⟩ := c
  obtain ⟨ts', _, _, _⟩ := c'
  cases hahead with
  | nil => exact h
  | cons ht hrest => exact h.withAhead (skipFrom ht hrest)

end Cursor.Mirrored

namespace Parse

variable {Q : α → α → Prop} {R : β → β → Prop}

/-- On corresponding places two readers end alike. -/
def Mirrored (μ : Mirror) (Q : α → α → Prop) (p p' : Parse α) : Prop :=
  ∀ c c', c.Mirrored μ c' → Reply.Mirrored μ Q (p c) (p' c')

/-! ### Rules -/

theorem mirrored_outOfFuel (p : Parse α) : Mirrored μ Q outOfFuel p := fun _ _ _ => .starved _

theorem mirrored_pure {a a' : α} (h : Q a a') : Mirrored μ Q (pure a) (pure a') :=
  fun _ _ hc => .ok h hc

theorem mirrored_failWith (what : Expected) : Mirrored μ Q (failWith what) (failWith what) :=
  fun _ _ hc => .fail ⟨hc.peek, rfl⟩ hc

theorem Mirrored.bind {p p' : Parse α} {f f' : α → Parse β} (hp : Mirrored μ Q p p')
    (hf : ∀ a a', Q a a' → Mirrored μ R (f a) (f' a')) :
    Mirrored μ R (p >>= f) (p' >>= f') := by
  intro c c' hc
  have hreply := hp c c' hc
  show Reply.Mirrored μ R (Parse.bind p f c) (Parse.bind p' f' c')
  unfold Parse.bind
  generalize p c = r, p' c' = r' at hreply
  cases hreply with
  | ok ha hd => exact hf _ _ ha _ _ hd
  | fail hx hd => exact .fail hx hd
  | starved r => exact .starved _

theorem mirrored_freshId {f f' : NodeId → Parse β}
    (hf : ∀ id id', μ.node id id' → Mirrored μ R (f id) (f' id')) :
    Mirrored μ R (freshId >>= f) (freshId >>= f') := by
  intro c c' hc
  obtain ⟨hnode, hmade⟩ := μ.next hc.made
  exact hf _ _ hnode _ _ { hc with made := hmade }

theorem mirrored_check {k : TokenKind} {f f' : Bool → Parse β}
    (hf : ∀ b, Mirrored μ R (f b) (f' b)) : Mirrored μ R (check k >>= f) (check k >>= f') := by
  intro c c' hc
  show Reply.Mirrored μ R (f (c.check k) c) (f' (c'.check k) c')
  rw [hc.check]
  exact hf _ c c' hc

theorem mirrored_atEnd {f f' : Bool → Parse β} (hf : ∀ b, Mirrored μ R (f b) (f' b)) :
    Mirrored μ R (atEnd >>= f) (atEnd >>= f') := by
  intro c c' hc
  show Reply.Mirrored μ R (f c.ahead.isEmpty c) (f' c'.ahead.isEmpty c')
  rw [hc.isEmpty]
  exact hf _ c c' hc

theorem mirrored_atClosing {inBraces : Bool} {f f' : Bool → Parse β}
    (hf : ∀ b, Mirrored μ R (f b) (f' b)) :
    Mirrored μ R (atClosing inBraces >>= f) (atClosing inBraces >>= f') := by
  intro c c' hc
  show Reply.Mirrored μ R
    (f (c.ahead.isEmpty || (inBraces && c.check (.symbol .rightBrace))) c)
    (f' (c'.ahead.isEmpty || (inBraces && c'.check (.symbol .rightBrace))) c')
  rw [hc.isEmpty, hc.check]
  exact hf _ c c' hc

theorem mirrored_complain {t t' : Token} {x : ParseError} {f f' : Unit → Parse β}
    (ht : μ.token t t') (hf : Mirrored μ R (f ()) (f' ())) :
    Mirrored μ R (complain t x >>= f) (complain t' x >>= f') :=
  fun _ _ hc => hf _ _ (hc.complain ⟨ht, rfl⟩)

theorem mirrored_checkArity {count : Nat} {x : ParseError} {f f' : Unit → Parse β}
    (hf : Mirrored μ R (f ()) (f' ())) :
    Mirrored μ R (checkArity count x >>= f) (checkArity count x >>= f') := by
  refine Mirrored.bind (Q := fun _ _ => True) (fun c c' hc => ?_) fun _ _ _ => hf
  unfold checkArity
  split_ifs
  · exact .ok trivial (hc.complain ⟨hc.peek, rfl⟩)
  · exact .ok trivial hc

theorem mirrored_acceptIf {test : TokenKind → Bool} {f f' : Option Token → Parse β}
    (hnone : Mirrored μ R (f none) (f' none))
    (hsome : ∀ t t', μ.token t t' → Mirrored μ R (f (some t)) (f' (some t'))) :
    Mirrored μ R (acceptIf test >>= f) (acceptIf test >>= f') := by
  refine Mirrored.bind (Q := Option.Rel μ.token) (fun c c' hc => ?_) fun a a' ha => ?_
  · have hahead := hc.ahead
    unfold acceptIf
    generalize c.ahead = ts, c'.ahead = ts' at hahead
    cases hahead with
    | nil => exact .ok .none hc
    | cons ht hrest =>
      dsimp only
      rw [μ.kind ht]
      split_ifs
      · exact .ok (.some ht) (hc.withAhead hrest)
      · exact .ok .none hc
  · cases ha with
    | none => exact hnone
    | some ht => exact hsome _ _ ht

theorem mirrored_accept {k : TokenKind} {f f' : Option Token → Parse β}
    (hnone : Mirrored μ R (f none) (f' none))
    (hsome : ∀ t t', μ.token t t' → Mirrored μ R (f (some t)) (f' (some t'))) :
    Mirrored μ R (accept k >>= f) (accept k >>= f') :=
  mirrored_acceptIf hnone hsome

theorem mirrored_expect {k : TokenKind} {what : Expected} {f f' : Token → Parse β}
    (hf : ∀ t t', μ.token t t' → Mirrored μ R (f t) (f' t')) :
    Mirrored μ R (expect k what >>= f) (expect k what >>= f') := by
  refine Mirrored.bind (Q := μ.token) ?_ hf
  exact mirrored_accept (mirrored_failWith what) fun t t' ht => mirrored_pure ht

theorem mirrored_recover {p p' : Parse α} (hp : Mirrored μ Q p p') :
    Mirrored μ (Option.Rel Q) (recover p) (recover p') := by
  intro c c' hc
  have hreply := hp c c' hc
  unfold recover
  generalize p c = r, p' c' = r' at hreply
  cases hreply with
  | ok ha hd => exact .ok (.some ha) hd
  | fail hx hd => exact .ok .none (hd.complain hx).synchronize
  | starved r => exact .starved _

/-! ### Expressions -/

theorem superAccess_mirrored {keyword keyword' : Token} (h : μ.token keyword keyword') :
    Mirrored μ (Expr.Mirrored μ) (superAccess keyword) (superAccess keyword') :=
  mirrored_expect fun _ _ _ => mirrored_expect fun _ _ hmethod => mirrored_freshId fun _ _ hid =>
    mirrored_pure (.super hid h hmethod)

theorem property_mirrored {e e' : Expr} (h : e.Mirrored μ e') :
    Mirrored μ (Expr.Mirrored μ) (property e) (property e') :=
  mirrored_expect fun _ _ hname => mirrored_freshId fun _ _ hid => mirrored_pure (.get hid h hname)

theorem assignment_mirrored {target target' value value' : Expr} {equals equals' : Token}
    (ht : target.Mirrored μ target') (heq : μ.token equals equals') (hv : value.Mirrored μ value') :
    Mirrored μ (Expr.Mirrored μ) (assignment target equals value)
      (assignment target' equals' value') := by
  have hkept := ht
  cases ht with
  | var hid hname => exact mirrored_freshId fun _ _ hnew => mirrored_pure (.assign hnew hname hv)
  | get hid hobject hname =>
    exact mirrored_freshId fun _ _ hnew => mirrored_pure (.set hnew hobject hname hv)
  | _ => exact mirrored_complain heq (mirrored_pure hkept)

theorem join_mirrored (l : Level) {id id' : NodeId} {left left' right right' : Expr}
    {op op' : Token} (hid : μ.node id id') (hleft : left.Mirrored μ left') (hop : μ.token op op')
    (hright : right.Mirrored μ right') :
    (l.join id left op right).Mirrored μ (l.join id' left' op' right') := by
  cases l with
  | or | and => exact .logical hid hleft hop hright
  | equality | comparison | term | factor => exact .binary hid hleft hop hright

/-- The readers of expressions, with two amounts of fuel. -/
structure ExpressionMirrored (μ : Mirror) (n n' : Nat) : Prop where
  expression : Mirrored μ (Expr.Mirrored μ) (expression n) (expression n')
  chain : ∀ l, Mirrored μ (Expr.Mirrored μ) (chain n l) (chain n' l)
  chainRest : ∀ l e e', e.Mirrored μ e' →
    Mirrored μ (Expr.Mirrored μ) (chainRest n l e) (chainRest n' l e')
  operand : ∀ l, Mirrored μ (Expr.Mirrored μ) (operand n l) (operand n' l)
  unary : Mirrored μ (Expr.Mirrored μ) (unary n) (unary n')
  callRest : ∀ e e', e.Mirrored μ e' →
    Mirrored μ (Expr.Mirrored μ) (callRest n e) (callRest n' e')
  arguments : Mirrored μ (MirroredArgs μ) (arguments n) (arguments n')
  argumentsFrom : ∀ count,
    Mirrored μ (MirroredArgs μ) (argumentsFrom n count) (argumentsFrom n' count)
  primary : Mirrored μ (Expr.Mirrored μ) (primary n) (primary n')

variable {n n' : Nat}

theorem expression_mirrored (ih : ExpressionMirrored μ n n') :
    Mirrored μ (Expr.Mirrored μ) (expression (n + 1)) (expression (n' + 1)) := by
  rw [expression, expression]
  refine (ih.chain .or).bind fun target target' ht => ?_
  refine mirrored_accept (mirrored_pure ht) fun equals equals' heq => ?_
  exact ih.expression.bind fun value value' hv => assignment_mirrored ht heq hv

theorem chainRest_mirrored (ih : ExpressionMirrored μ n n') (l : Level) (e e' : Expr)
    (he : e.Mirrored μ e') :
    Mirrored μ (Expr.Mirrored μ) (chainRest (n + 1) l e) (chainRest (n' + 1) l e') := by
  rw [chainRest, chainRest]
  refine mirrored_acceptIf (mirrored_pure he) fun op op' hop => ?_
  refine (ih.operand l).bind fun right right' hright => mirrored_freshId fun id id' hid => ?_
  exact ih.chainRest l _ _ (join_mirrored l hid he hop hright)

theorem operand_mirrored (ih : ExpressionMirrored μ n n') (l : Level) :
    Mirrored μ (Expr.Mirrored μ) (operand (n + 1) l) (operand (n' + 1) l) := by
  rw [operand, operand]
  cases l.tighter? with
  | none => exact ih.unary
  | some l' => exact ih.chain l'

theorem unary_mirrored (ih : ExpressionMirrored μ n n') :
    Mirrored μ (Expr.Mirrored μ) (unary (n + 1)) (unary (n' + 1)) := by
  rw [unary, unary]
  refine mirrored_acceptIf ?_ fun op op' hop => ?_
  · exact ih.primary.bind fun e e' he => ih.callRest e e' he
  · exact ih.unary.bind fun right right' hright => mirrored_freshId fun _ _ hid =>
      mirrored_pure (.unary hid hop hright)

theorem callRest_mirrored (ih : ExpressionMirrored μ n n') (e e' : Expr) (he : e.Mirrored μ e') :
    Mirrored μ (Expr.Mirrored μ) (callRest (n + 1) e) (callRest (n' + 1) e') := by
  rw [callRest, callRest]
  refine mirrored_accept ?_ fun _ _ _ => ?_
  · refine mirrored_accept (mirrored_pure he) fun _ _ _ => ?_
    exact (property_mirrored he).bind fun object object' ho => ih.callRest object object' ho
  · refine ih.arguments.bind fun args args' hargs => mirrored_expect fun paren paren' hparen => ?_
    exact mirrored_freshId fun _ _ hid => ih.callRest _ _ (.call hid he hparen hargs)

theorem arguments_mirrored (ih : ExpressionMirrored μ n n') :
    Mirrored μ (MirroredArgs μ) (arguments (n + 1)) (arguments (n' + 1)) := by
  rw [arguments, arguments]
  refine mirrored_check fun b => ?_
  split_ifs
  · exact mirrored_pure .nil
  · exact ih.argumentsFrom 0

theorem argumentsFrom_mirrored (ih : ExpressionMirrored μ n n') (count : Nat) :
    Mirrored μ (MirroredArgs μ) (argumentsFrom (n + 1) count) (argumentsFrom (n' + 1) count) := by
  rw [argumentsFrom, argumentsFrom]
  refine mirrored_checkArity (ih.expression.bind fun e e' he => ?_)
  refine mirrored_accept (mirrored_pure (.cons he .nil)) fun _ _ _ => ?_
  exact (ih.argumentsFrom (count + 1)).bind fun es es' hes => mirrored_pure (.cons he hes)

theorem primary_mirrored (ih : ExpressionMirrored μ n n') :
    Mirrored μ (Expr.Mirrored μ) (primary (n + 1)) (primary (n' + 1)) := by
  rw [primary, primary]
  refine mirrored_acceptIf ?_ fun t t' ht => mirrored_freshId fun _ _ hid => ?_
  · refine mirrored_accept ?_ fun keyword keyword' hkey => superAccess_mirrored hkey
    refine mirrored_accept ?_ fun keyword keyword' hkey => mirrored_freshId fun _ _ hid =>
      mirrored_pure (.this hid hkey)
    refine mirrored_accept ?_ fun name name' hname => mirrored_freshId fun _ _ hid =>
      mirrored_pure (.var hid hname)
    refine mirrored_accept (mirrored_failWith .expression) fun _ _ _ => ?_
    refine ih.expression.bind fun inner inner' hinner => mirrored_expect fun _ _ _ => ?_
    exact mirrored_freshId fun _ _ hid => mirrored_pure (.grouping hid hinner)
  · rw [μ.kind ht]
    exact mirrored_pure (.literal hid _)

theorem expressionMirrored (μ : Mirror) {n n' : Nat} (h : n ≤ n') : ExpressionMirrored μ n n' := by
  induction n generalizing n' with
  | zero =>
    exact ⟨mirrored_outOfFuel _, fun _ => mirrored_outOfFuel _, fun _ _ _ _ => mirrored_outOfFuel _,
      fun _ => mirrored_outOfFuel _, mirrored_outOfFuel _, fun _ _ _ => mirrored_outOfFuel _,
      mirrored_outOfFuel _, fun _ => mirrored_outOfFuel _, mirrored_outOfFuel _⟩
  | succ n ih =>
    obtain ⟨n', rfl⟩ : ∃ m, n' = m + 1 := ⟨n' - 1, by omega⟩
    have ih := ih (Nat.le_of_succ_le_succ h)
    have hchain : ∀ l, Mirrored μ (Expr.Mirrored μ) (Parse.chain (n + 1) l)
        (Parse.chain (n' + 1) l) := fun l => (ih.operand l).bind fun _ _ he => ih.chainRest l _ _ he
    exact ⟨expression_mirrored ih, hchain, chainRest_mirrored ih, operand_mirrored ih,
      unary_mirrored ih, callRest_mirrored ih, arguments_mirrored ih, argumentsFrom_mirrored ih,
      primary_mirrored ih⟩

/-! ### Statements without parts of their own kind -/

section Simple

variable (ih : ExpressionMirrored μ n n')

include ih

theorem expressionUnless_mirrored (k : TokenKind) :
    Mirrored μ (Option.Rel (Expr.Mirrored μ)) (expressionUnless n k) (expressionUnless n' k) := by
  refine mirrored_check fun b => ?_
  split_ifs
  · exact mirrored_pure .none
  · exact ih.expression.bind fun _ _ he => mirrored_pure (.some he)

theorem varDeclaration_mirrored :
    Mirrored μ (Stmt.Mirrored μ) (varDeclaration n) (varDeclaration n') := by
  refine mirrored_expect fun name name' hname => mirrored_accept ?_ fun _ _ _ => ?_
  · exact mirrored_expect fun _ _ _ => mirrored_pure (.var hname .none)
  · exact ih.expression.bind fun _ _ he => mirrored_expect fun _ _ _ =>
      mirrored_pure (.var hname (.some he))

theorem expressionStatement_mirrored :
    Mirrored μ (Stmt.Mirrored μ) (expressionStatement n) (expressionStatement n') :=
  ih.expression.bind fun _ _ he => mirrored_expect fun _ _ _ => mirrored_pure (.expression he)

theorem printStatement_mirrored :
    Mirrored μ (Stmt.Mirrored μ) (printStatement n) (printStatement n') :=
  ih.expression.bind fun _ _ he => mirrored_expect fun _ _ _ => mirrored_pure (.print he)

theorem returnStatement_mirrored {keyword keyword' : Token} (h : μ.token keyword keyword') :
    Mirrored μ (Stmt.Mirrored μ) (returnStatement n keyword) (returnStatement n' keyword') :=
  (expressionUnless_mirrored ih _).bind fun _ _ hvalue => mirrored_expect fun _ _ _ =>
    mirrored_pure (.return_ h hvalue)

theorem forInit_mirrored :
    Mirrored μ (Option.Rel (Stmt.Mirrored μ)) (forInit n) (forInit n') := by
  refine mirrored_accept ?_ fun _ _ _ => mirrored_pure .none
  refine mirrored_accept ?_ fun _ _ _ => ?_
  · exact (expressionStatement_mirrored ih).bind fun _ _ hs => mirrored_pure (.some hs)
  · exact (varDeclaration_mirrored ih).bind fun _ _ hs => mirrored_pure (.some hs)

/-- Clauses of a `for` loop with the same parts, mirrored one by one. -/
structure ClausesMirrored (μ : Mirror) (x x' : Option Stmt × Option Expr × Option Expr) : Prop where
  init : Option.Rel (Stmt.Mirrored μ) x.1 x'.1
  cond : Option.Rel (Expr.Mirrored μ) x.2.1 x'.2.1
  step : Option.Rel (Expr.Mirrored μ) x.2.2 x'.2.2

theorem forClauses_mirrored :
    Mirrored μ (ClausesMirrored μ) (forClauses n) (forClauses n') := by
  refine mirrored_expect fun _ _ _ => (forInit_mirrored ih).bind fun _ _ hinit => ?_
  refine (expressionUnless_mirrored ih _).bind fun _ _ hcond => mirrored_expect fun _ _ _ => ?_
  refine (expressionUnless_mirrored ih _).bind fun _ _ hstep => mirrored_expect fun _ _ _ => ?_
  exact mirrored_pure ⟨hinit, hcond, hstep⟩

theorem condition_mirrored (opening closing : Expected) :
    Mirrored μ (Expr.Mirrored μ) (condition n opening closing) (condition n' opening closing) :=
  mirrored_expect fun _ _ _ => ih.expression.bind fun _ _ he => mirrored_expect fun _ _ _ =>
    mirrored_pure he

end Simple

theorem conditionOrTrue_mirrored {cond cond' : Option Expr}
    (h : Option.Rel (Expr.Mirrored μ) cond cond') :
    Mirrored μ (Expr.Mirrored μ) (conditionOrTrue cond) (conditionOrTrue cond') := by
  cases h with
  | none => exact mirrored_freshId fun _ _ hid => mirrored_pure (.literal hid _)
  | some he => exact mirrored_pure he

theorem superclass_mirrored :
    Mirrored μ (Option.Rel (Expr.Mirrored μ)) superclass superclass := by
  refine mirrored_accept (mirrored_pure .none) fun _ _ _ => mirrored_expect fun _ _ hname => ?_
  exact mirrored_freshId fun _ _ hid => mirrored_pure (.some (.var hid hname))

theorem parametersFrom_mirrored (h : n ≤ n') (count : Nat) :
    Mirrored μ (List.Forall₂ μ.token) (parametersFrom n count) (parametersFrom n' count) := by
  induction n generalizing n' count with
  | zero => exact mirrored_outOfFuel _
  | succ n ih =>
    obtain ⟨n', rfl⟩ : ∃ m, n' = m + 1 := ⟨n' - 1, by omega⟩
    rw [parametersFrom, parametersFrom]
    refine mirrored_checkArity (mirrored_expect fun _ _ hname => ?_)
    refine mirrored_accept (mirrored_pure (.cons hname .nil)) fun _ _ _ => ?_
    exact (ih (Nat.le_of_succ_le_succ h) (count + 1)).bind fun _ _ hrest =>
      mirrored_pure (.cons hname hrest)

theorem functionHead_mirrored (h : n ≤ n') (sort : FunctionSort) :
    Mirrored μ (fun x x' => μ.token x.1 x'.1 ∧ List.Forall₂ μ.token x.2 x'.2)
      (functionHead n sort) (functionHead n' sort) := by
  have hparams : Mirrored μ (List.Forall₂ μ.token) (parameters n) (parameters n') := by
    refine mirrored_check fun b => ?_
    split_ifs
    · exact mirrored_pure .nil
    · exact parametersFrom_mirrored h 0
  refine mirrored_expect fun _ _ hname => mirrored_expect fun _ _ _ => ?_
  refine hparams.bind fun _ _ hps => mirrored_expect fun _ _ _ => mirrored_expect fun _ _ _ => ?_
  exact mirrored_pure ⟨hname, hps⟩

theorem forLoop_mirrored {init init' : Option Stmt} {cond cond' : Expr} {step step' : Option Expr}
    {body body' : Stmt} (hinit : Option.Rel (Stmt.Mirrored μ) init init')
    (hcond : cond.Mirrored μ cond') (hstep : Option.Rel (Expr.Mirrored μ) step step')
    (hbody : body.Mirrored μ body') :
    (forLoop init cond step body).Mirrored μ (forLoop init' cond' step' body') := by
  have hinner : Stmt.Mirrored μ (forLoop none cond step body) (forLoop none cond' step' body') := by
    cases hstep with
    | none => exact .while_ hcond hbody
    | some he => exact .while_ hcond (.block (.cons hbody (.cons (.expression he) .nil)))
  cases hinit with
  | none => exact hinner
  | some hs => exact .block (.cons hs (.cons hinner .nil))

/-! ### Declarations and statements -/

/-- The readers of declarations, with two amounts of fuel. -/
structure DeclarationMirrored (μ : Mirror) (n n' : Nat) : Prop where
  declaration : Mirrored μ (Option.Rel (Stmt.Mirrored μ)) (declaration n) (declaration n')
  classDeclaration : Mirrored μ (Stmt.Mirrored μ) (classDeclaration n) (classDeclaration n')
  methods : Mirrored μ (MirroredMethods μ) (methods n) (methods n')
  function : ∀ sort, Mirrored μ (FunDecl.Mirrored μ) (function n sort) (function n' sort)
  statement : Mirrored μ (Stmt.Mirrored μ) (statement n) (statement n')
  block : Mirrored μ (MirroredAll μ) (block n) (block n')
  declarations : ∀ inBlock,
    Mirrored μ (MirroredAll μ) (declarations n inBlock) (declarations n' inBlock)

section Compound

variable (h : n ≤ n') (ih : DeclarationMirrored μ n n')

include h ih

theorem declaration_mirrored :
    Mirrored μ (Option.Rel (Stmt.Mirrored μ)) (declaration (n + 1)) (declaration (n' + 1)) := by
  rw [declaration, declaration]
  refine mirrored_recover (mirrored_accept ?_ fun _ _ _ => ih.classDeclaration)
  refine mirrored_accept ?_ fun _ _ _ => ?_
  · exact mirrored_accept ih.statement fun _ _ _ =>
      varDeclaration_mirrored (expressionMirrored μ h)
  · exact (ih.function .function).bind fun _ _ hd => mirrored_pure (.function hd)

theorem function_mirrored (sort : FunctionSort) :
    Mirrored μ (FunDecl.Mirrored μ) (function (n + 1) sort) (function (n' + 1) sort) := by
  rw [function, function]
  refine (functionHead_mirrored h sort).bind ?_
  rintro ⟨name, params⟩ ⟨name', params'⟩ ⟨hname, hparams⟩
  exact ih.block.bind fun _ _ hbody => mirrored_pure (.mk hname hparams hbody)

theorem statement_mirrored :
    Mirrored μ (Stmt.Mirrored μ) (statement (n + 1)) (statement (n' + 1)) := by
  have hexpr := expressionMirrored μ h
  rw [statement, statement]
  refine mirrored_accept ?_ fun _ _ _ => ?_
  · refine mirrored_accept ?_ fun _ _ _ => ?_
    · refine mirrored_accept ?_ fun _ _ _ => ?_
      · refine mirrored_accept ?_ fun _ _ hkey => returnStatement_mirrored hexpr hkey
        refine mirrored_accept ?_ fun _ _ _ => ?_
        · exact mirrored_accept (expressionStatement_mirrored hexpr) fun _ _ _ =>
            printStatement_mirrored hexpr
        · exact ih.block.bind fun _ _ hbody => mirrored_pure (.block hbody)
      · refine (condition_mirrored hexpr _ _).bind fun _ _ hcond => ?_
        exact ih.statement.bind fun _ _ hbody => mirrored_pure (.while_ hcond hbody)
    · refine (condition_mirrored hexpr _ _).bind fun _ _ hcond => ?_
      refine ih.statement.bind fun _ _ hthen => ?_
      refine mirrored_accept (mirrored_pure (.ifThen hcond hthen)) fun _ _ _ => ?_
      exact ih.statement.bind fun _ _ helse => mirrored_pure (.ifElse hcond hthen helse)
  · refine (forClauses_mirrored hexpr).bind ?_
    rintro ⟨init, cond, step⟩ ⟨init', cond', step'⟩ ⟨hinit, hcond, hstep⟩
    refine ih.statement.bind fun _ _ hbody => ?_
    exact (conditionOrTrue_mirrored hcond).bind fun _ _ hcond =>
      mirrored_pure (forLoop_mirrored hinit hcond hstep hbody)

end Compound

theorem classDeclaration_mirrored (ih : DeclarationMirrored μ n n') :
    Mirrored μ (Stmt.Mirrored μ) (classDeclaration (n + 1)) (classDeclaration (n' + 1)) := by
  rw [classDeclaration, classDeclaration]
  refine mirrored_expect fun _ _ hname => superclass_mirrored.bind fun _ _ hsuper => ?_
  refine mirrored_expect fun _ _ _ => ih.methods.bind fun _ _ hmethods => ?_
  exact mirrored_expect fun _ _ _ => mirrored_pure (.class_ hname hsuper hmethods)

theorem methods_mirrored (ih : DeclarationMirrored μ n n') :
    Mirrored μ (MirroredMethods μ) (methods (n + 1)) (methods (n' + 1)) := by
  rw [methods, methods]
  refine mirrored_atClosing fun b => ?_
  split_ifs
  · exact mirrored_pure .nil
  · refine (ih.function .method).bind fun _ _ hfirst => ?_
    exact ih.methods.bind fun _ _ hrest => mirrored_pure (.cons hfirst hrest)

theorem block_mirrored (ih : DeclarationMirrored μ n n') :
    Mirrored μ (MirroredAll μ) (block (n + 1)) (block (n' + 1)) := by
  rw [block, block]
  exact (ih.declarations true).bind fun _ _ hbody => mirrored_expect fun _ _ _ =>
    mirrored_pure hbody

theorem declarations_mirrored (ih : DeclarationMirrored μ n n') (inBlock : Bool) :
    Mirrored μ (MirroredAll μ) (declarations (n + 1) inBlock) (declarations (n' + 1) inBlock) := by
  rw [declarations, declarations]
  refine mirrored_atClosing fun b => ?_
  split_ifs
  · exact mirrored_pure .nil
  · refine ih.declaration.bind fun _ _ hfirst => ?_
    refine (ih.declarations inBlock).bind fun _ _ hrest => mirrored_pure ?_
    cases hfirst with
    | none => exact hrest
    | some hs => exact .cons hs hrest

theorem declarationMirrored (μ : Mirror) {n n' : Nat} (h : n ≤ n') :
    DeclarationMirrored μ n n' := by
  induction n generalizing n' with
  | zero =>
    exact ⟨mirrored_outOfFuel _, mirrored_outOfFuel _, mirrored_outOfFuel _,
      fun _ => mirrored_outOfFuel _, mirrored_outOfFuel _, mirrored_outOfFuel _,
      fun _ => mirrored_outOfFuel _⟩
  | succ n ih =>
    obtain ⟨n', rfl⟩ : ∃ m, n' = m + 1 := ⟨n' - 1, by omega⟩
    have hle := Nat.le_of_succ_le_succ h
    have ih := ih hle
    exact ⟨declaration_mirrored hle ih, classDeclaration_mirrored ih, methods_mirrored ih,
      function_mirrored hle ih, statement_mirrored hle ih, block_mirrored ih,
      declarations_mirrored ih⟩

theorem wholeExpression_mirrored (μ : Mirror) {n n' : Nat} (h : n ≤ n') :
    Mirrored μ (Expr.Mirrored μ) (wholeExpression n) (wholeExpression n') := by
  refine (expressionMirrored μ h).expression.bind fun e e' he => ?_
  refine mirrored_atEnd fun b => ?_
  split_ifs
  · exact mirrored_pure he
  · exact mirrored_failWith _

end Parse

/-! ### Programs and expressions -/

/-- Programs of mirrored statements, with corresponding complaints. -/
structure Program.Mirrored (μ : Mirror) (p p' : Program) : Prop where
  statements : MirroredAll μ p.statements p'.statements
  complaints : List.Forall₂ (Complaint.Mirrored μ) p.complaints p'.complaints

structure ParsedExpr.Mirrored (μ : Mirror) (p p' : ParsedExpr) : Prop where
  expr? : Option.Rel (Expr.Mirrored μ) p.expr? p'.expr?
  complaints : List.Forall₂ (Complaint.Mirrored μ) p.complaints p'.complaints

theorem Mirror.isEof (μ : Mirror) {t t' : Token} (h : μ.token t t') : t'.isEof = t.isEof := by
  rw [Token.isEof, Token.isEof, μ.kind h]

theorem Cursor.ofTokens_mirrored {ts ts' : List Token} (h : List.Forall₂ μ.token ts ts')
    (heof : (ts.find? Token.isEof).isSome = true) {made made' : Nat}
    (hmade : μ.made made made') :
    (Cursor.ofTokens ts made).Mirrored μ (Cursor.ofTokens ts' made') := by
  refine ⟨?_, ?_, hmade, .nil⟩
  · unfold Cursor.ofTokens
    induction h with
    | nil => exact .nil
    | @cons t t' rest rest' ht hrest ih =>
      rw [List.takeWhile_cons, List.takeWhile_cons, μ.isEof ht]
      cases hend : t.isEof with
      | true => exact .nil
      | false =>
        rw [List.find?_cons_of_neg (by simp [hend])] at heof
        exact .cons ht (ih heof)
  · unfold Cursor.ofTokens
    induction h with
    | nil => simp at heof
    | @cons t t' rest rest' ht hrest ih =>
      cases hend : t.isEof with
      | true =>
        simp only [List.find?_cons, μ.isEof ht, hend, Option.getD_some]
        exact ht
      | false =>
        simp only [List.find?_cons, μ.isEof ht, hend] at heof ⊢
        exact ih heof

theorem Parse.Spec.ended {p : Parse α} {c : Cursor} {Q : α → Cursor → Prop}
    (h : Parse.Spec False p c Q) : p c ≠ .outOfFuel := by
  intro hp
  rw [Parse.Spec, hp] at h
  exact h

theorem Program.ofTokens_mirrored {ts ts' : List Token} (h : List.Forall₂ μ.token ts ts')
    (heof : (ts.find? Token.isEof).isSome = true) {made made' : Nat}
    (hmade : μ.made made made') :
    (Program.ofTokens ts made).Mirrored μ (Program.ofTokens ts' made') ∧
      μ.made (Program.ofTokens ts made).made (Program.ofTokens ts' made').made := by
  have hread := (Parse.declarationMirrored μ (le_refl (Parse.fuelFor ts.length))).declarations
    false _ _ (Cursor.ofTokens_mirrored h heof hmade)
  have hfuel := Cursor.length_ahead_ofTokens ts made
  have hended := Parse.Spec.ended
    ((Parse.statementRecognizes (Parse.fuelFor ts.length)).declarations false
      (Cursor.ofTokens ts made) (by rw [Parse.fuelFor]; omega))
  rw [Program.ofTokens, Program.ofTokens, ← h.length_eq]
  generalize Parse.declarations _ false (Cursor.ofTokens ts made) = r,
    Parse.declarations _ false (Cursor.ofTokens ts' made') = r' at hread hended
  cases hread with
  | ok hs hd => exact ⟨⟨hs, hd.complaints⟩, hd.made⟩
  | fail hx hd => exact ⟨⟨.nil, (hd.complain hx).complaints⟩, hd.made⟩
  | starved r => exact absurd rfl hended

theorem ParsedExpr.ofTokens_mirrored {ts ts' : List Token} (h : List.Forall₂ μ.token ts ts')
    (heof : (ts.find? Token.isEof).isSome = true) {made made' : Nat}
    (hmade : μ.made made made') :
    (ParsedExpr.ofTokens ts made).Mirrored μ (ParsedExpr.ofTokens ts' made') ∧
      μ.made (ParsedExpr.ofTokens ts made).made (ParsedExpr.ofTokens ts' made').made := by
  have hread := Parse.wholeExpression_mirrored μ (le_refl (Parse.fuelFor ts.length)) _ _
    (Cursor.ofTokens_mirrored h heof hmade)
  have hfuel := Cursor.length_ahead_ofTokens ts made
  have hended := Parse.Spec.ended (Parse.wholeExpression_recognizes
    (n := Parse.fuelFor ts.length) (c := Cursor.ofTokens ts made) (by rw [Parse.fuelFor]; omega))
  rw [ParsedExpr.ofTokens, ParsedExpr.ofTokens, ← h.length_eq]
  generalize Parse.wholeExpression _ (Cursor.ofTokens ts made) = r,
    Parse.wholeExpression _ (Cursor.ofTokens ts' made') = r' at hread hended
  cases hread with
  | ok he hd => exact ⟨⟨.some he, hd.complaints⟩, hd.made⟩
  | fail hx hd => exact ⟨⟨.none, (hd.complain hx).complaints⟩, hd.made⟩
  | starved r => exact absurd rfl hended

end Lox
