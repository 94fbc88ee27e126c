import Mathlib.Tactic.Common
import Lox.Grammar.Statement

/-!
# Complaints made before

Readers add complaints to those that a cursor carries, and never look at them. So a reader that
starts with some complaints in hand ends as it would without them, and has them in front of its own
(`Parse.Carries`). This holds of all readers, with any fuel.
-/

namespace Lox

/-- The same place, with other complaints in front of those made so far. -/
def Cursor.carrying (cs : List Complaint) (c : Cursor) : Cursor :=
  { c with complaints := cs ++ c.complaints }

/-- The same end, with other complaints in front. -/
def Reply.carrying {α : Type} (cs : List Complaint) : Reply α → Reply α
  | .ok a d => .ok a (d.carrying cs)
  | .fail x d => .fail x (d.carrying cs)
  | .outOfFuel => .outOfFuel

theorem Cursor.carrying_complain (cs : List Complaint) (c : Cursor) (x : Complaint) :
    (c.carrying cs).complain x = (c.complain x).carrying cs := by
  simp only [Cursor.complain, Cursor.carrying, List.append_assoc]

theorem Cursor.carrying_synchronize (cs : List Complaint) (c : Cursor) :
    (c.carrying cs).synchronize = c.synchronize.carrying cs := by
  obtain ⟨ahead, eof, id, complaints⟩ := c
  cases ahead <;> rfl

namespace Parse

variable {α β : Type} {cs : List Complaint} {n : Nat}

/-- Complaints made before change nothing but that they come first. -/
def Carries (cs : List Complaint) (p : Parse α) : Prop :=
  ∀ c, p (c.carrying cs) = (p c).carrying cs

/-! ### Steps -/

theorem carries_outOfFuel : Carries cs (outOfFuel : Parse α) := fun _ => rfl

theorem carries_pure (a : α) : Carries cs (pure a : Parse α) := fun _ => rfl

theorem carries_failWith (what : Expected) : Carries cs (failWith what : Parse α) := fun _ => rfl

theorem carries_check (k : TokenKind) : Carries cs (check k) := fun _ => rfl

theorem carries_atClosing (inBraces : Bool) : Carries cs (atClosing inBraces) := fun _ => rfl

theorem carries_freshId : Carries cs freshId := fun _ => rfl

theorem carries_complain (t : Token) (e : ParseError) : Carries cs (complain t e) :=
  fun c => congrArg (Reply.ok ()) (c.carrying_complain cs ⟨t, e⟩)

theorem Carries.bind {p : Parse α} {f : α → Parse β} (hp : Carries cs p)
    (hf : ∀ a, Carries cs (f a)) : Carries cs (p >>= f) := by
  intro c
  show Parse.bind p f (c.carrying cs) = (Parse.bind p f c).carrying cs
  rw [Parse.bind, Parse.bind, hp c]
  cases p c with
  | ok a d => exact hf a d
  | fail x d => rfl
  | outOfFuel => rfl

theorem carries_checkArity (count : Nat) (e : ParseError) : Carries cs (checkArity count e) := by
  intro c
  unfold checkArity
  split_ifs
  · exact congrArg (Reply.ok ()) (c.carrying_complain cs ⟨c.peek, e⟩)
  · rfl

theorem carries_acceptIf (test : TokenKind → Bool) : Carries cs (acceptIf test) := by
  rintro ⟨ahead, eof, id, complaints⟩
  cases ahead with
  | nil => rfl
  | cons t rest =>
    simp only [acceptIf, Cursor.carrying]
    split_ifs
    · rfl
    · rfl

theorem carries_accept (k : TokenKind) : Carries cs (accept k) := carries_acceptIf _

theorem carries_expect (k : TokenKind) (what : Expected) : Carries cs (expect k what) := by
  refine (carries_accept k).bind fun r => ?_
  cases r with
  | some t => exact carries_pure t
  | none => exact carries_failWith what

theorem carries_recover {p : Parse α} (hp : Carries cs p) : Carries cs (recover p) := by
  intro c
  rw [recover, recover, hp c]
  cases p c with
  | ok a d => rfl
  | fail x d =>
    show Reply.ok none ((d.carrying cs).complain x).synchronize = .ok none _
    rw [Cursor.carrying_complain, Cursor.carrying_synchronize]
  | outOfFuel => rfl

/-! ### Expressions -/

theorem carries_node {γ : Type} (make : NodeId → γ) :
    Carries cs (freshId >>= fun id => pure (make id)) :=
  carries_freshId.bind fun _ => carries_pure _

theorem superAccess_carries (keyword : Token) : Carries cs (superAccess keyword) :=
  (carries_expect _ _).bind fun _ => (carries_expect _ _).bind fun _ => carries_node _

theorem property_carries (object : Expr) : Carries cs (property object) :=
  (carries_expect _ _).bind fun _ => carries_node _

theorem assignment_carries (target : Expr) (equals : Token) (value : Expr) :
    Carries cs (assignment target equals value) := by
  unfold assignment
  split
  · exact carries_node _
  · exact carries_node _
  · exact (carries_complain _ _).bind fun _ => carries_pure _

structure ExpressionCarries (cs : List Complaint) (n : Nat) : Prop where
  expression : Carries cs (expression n)
  chain (l : Level) : Carries cs (chain n l)
  chainRest (l : Level) (left : Expr) : Carries cs (chainRest n l left)
  operand (l : Level) : Carries cs (operand n l)
  unary : Carries cs (unary n)
  callRest (e : Expr) : Carries cs (callRest n e)
  arguments : Carries cs (arguments n)
  argumentsFrom (count : Nat) : Carries cs (argumentsFrom n count)
  primary : Carries cs (primary n)

theorem expression_carries (ih : ExpressionCarries cs n) : Carries cs (expression (n + 1)) := by
  refine (ih.chain .or).bind fun target => (carries_accept _).bind fun r => ?_
  cases r with
  | none => exact carries_pure target
  | some equals => exact ih.expression.bind fun value => assignment_carries target equals value

theorem chainRest_carries (ih : ExpressionCarries cs n) (l : Level) (left : Expr) :
    Carries cs (chainRest (n + 1) l left) := by
  refine (carries_acceptIf _).bind fun r => ?_
  cases r with
  | none => exact carries_pure left
  | some op => exact (ih.operand l).bind fun _ => carries_freshId.bind fun _ => ih.chainRest l _

theorem operand_carries (ih : ExpressionCarries cs n) (l : Level) :
    Carries cs (operand (n + 1) l) := by
  unfold operand
  split
  · exact ih.chain _
  · exact ih.unary

theorem unary_carries (ih : ExpressionCarries cs n) : Carries cs (unary (n + 1)) := by
  refine (carries_acceptIf _).bind fun r => ?_
  cases r with
  | none => exact ih.primary.bind fun e => ih.callRest e
  | some op => exact ih.unary.bind fun _ => carries_node _

theorem callRest_carries (ih : ExpressionCarries cs n) (e : Expr) :
    Carries cs (callRest (n + 1) e) := by
  refine (carries_accept _).bind fun r => ?_
  cases r with
  | some _ =>
    exact ih.arguments.bind fun _ => (carries_expect _ _).bind fun _ =>
      carries_freshId.bind fun _ => ih.callRest _
  | none =>
    refine (carries_accept _).bind fun r => ?_
    cases r with
    | some _ => exact (property_carries e).bind fun object => ih.callRest object
    | none => exact carries_pure e

theorem arguments_carries (ih : ExpressionCarries cs n) : Carries cs (arguments (n + 1)) := by
  refine (carries_check _).bind fun b => ?_
  cases b with
  | true => exact carries_pure []
  | false => exact ih.argumentsFrom 0

theorem argumentsFrom_carries (ih : ExpressionCarries cs n) (count : Nat) :
    Carries cs (argumentsFrom (n + 1) count) := by
  refine (carries_checkArity _ _).bind fun _ => ih.expression.bind fun e =>
    (carries_accept _).bind fun r => ?_
  cases r with
  | none => exact carries_pure [e]
  | some _ => exact (ih.argumentsFrom (count + 1)).bind fun rest => carries_pure (e :: rest)

theorem primary_carries (ih : ExpressionCarries cs n) : Carries cs (primary (n + 1)) := by
  refine (carries_acceptIf _).bind fun r => ?_
  cases r with
  | some t => exact carries_node _
  | none =>
  refine (carries_accept _).bind fun r => ?_
  cases r with
  | some keyword => exact superAccess_carries keyword
  | none =>
  refine (carries_accept _).bind fun r => ?_
  cases r with
  | some keyword => exact carries_node _
  | none =>
  refine (carries_accept _).bind fun r => ?_
  cases r with
  | some name => exact carries_node _
  | none =>
  refine (carries_accept _).bind fun r => ?_
  cases r with
  | some _ => exact ih.expression.bind fun _ => (carries_expect _ _).bind fun _ => carries_node _
  | none => exact carries_failWith _

theorem expressionCarries (cs : List Complaint) (n : Nat) : ExpressionCarries cs n := by
  induction n with
  | zero =>
    exact ⟨carries_outOfFuel, fun _ => carries_outOfFuel, fun _ _ => carries_outOfFuel,
      fun _ => carries_outOfFuel, carries_outOfFuel, fun _ => carries_outOfFuel,
      carries_outOfFuel, fun _ => carries_outOfFuel, carries_outOfFuel⟩
  | succ n ih =>
    exact
      { expression := expression_carries ih
        chain := fun l => (ih.operand l).bind fun left => ih.chainRest l left
        chainRest := chainRest_carries ih
        operand := operand_carries ih
        unary := unary_carries ih
        callRest := callRest_carries ih
        arguments := arguments_carries ih
        argumentsFrom := argumentsFrom_carries ih
        primary := primary_carries ih }

/-! ### Statements without parts of their own kind -/

theorem expressionUnless_carries (n : Nat) (k : TokenKind) :
    Carries cs (expressionUnless n k) := by
  refine (carries_check _).bind fun b => ?_
  cases b with
  | true => exact carries_pure none
  | false => exact (expressionCarries cs n).expression.bind fun e => carries_pure (some e)

theorem varDeclaration_carries (n : Nat) : Carries cs (varDeclaration n) := by
  refine (carries_expect _ _).bind fun name => (carries_accept _).bind fun r => ?_
  cases r with
  | some _ =>
    exact (expressionCarries cs n).expression.bind fun _ => (carries_expect _ _).bind fun _ =>
      carries_pure _
  | none => exact (carries_expect _ _).bind fun _ => carries_pure _

theorem carries_closed (n : Nat) (what : Expected) (make : Expr → Stmt) :
    Carries cs (expression n >>= fun e => expect (.symbol .semicolon) what >>= fun _ =>
      pure (make e)) :=
  (expressionCarries cs n).expression.bind fun _ => (carries_expect _ _).bind fun _ =>
    carries_pure _

theorem returnStatement_carries (n : Nat) (keyword : Token) :
    Carries cs (returnStatement n keyword) :=
  (expressionUnless_carries n _).bind fun _ => (carries_expect _ _).bind fun _ => carries_pure _

theorem forInit_carries (n : Nat) : Carries cs (forInit n) := by
  refine (carries_accept _).bind fun r => ?_
  cases r with
  | some _ => exact carries_pure none
  | none =>
  refine (carries_accept _).bind fun r => ?_
  cases r with
  | some _ => exact (varDeclaration_carries n).bind fun s => carries_pure (some s)
  | none => exact (carries_closed n _ .expression).bind fun s => carries_pure (some s)

theorem forClauses_carries (n : Nat) : Carries cs (forClauses n) :=
  (carries_expect _ _).bind fun _ => (forInit_carries n).bind fun _ =>
    (expressionUnless_carries n _).bind fun _ => (carries_expect _ _).bind fun _ =>
      (expressionUnless_carries n _).bind fun _ => (carries_expect _ _).bind fun _ =>
        carries_pure _

theorem conditionOrTrue_carries (cond : Option Expr) : Carries cs (conditionOrTrue cond) := by
  cases cond with
  | some e => exact carries_pure e
  | none => exact carries_node _

theorem condition_carries (n : Nat) (opening closing : Expected) :
    Carries cs (condition n opening closing) :=
  (carries_expect _ _).bind fun _ => (expressionCarries cs n).expression.bind fun cond =>
    (carries_expect _ _).bind fun _ => carries_pure cond

theorem superclass_carries : Carries cs superclass := by
  refine (carries_accept _).bind fun r => ?_
  cases r with
  | some _ => exact (carries_expect _ _).bind fun _ => carries_node _
  | none => exact carries_pure none

theorem parametersFrom_carries (n count : Nat) : Carries cs (parametersFrom n count) := by
  induction n generalizing count with
  | zero => exact carries_outOfFuel
  | succ n ih =>
    refine (carries_checkArity _ _).bind fun _ => (carries_expect _ _).bind fun name =>
      (carries_accept _).bind fun r => ?_
    cases r with
    | none => exact carries_pure [name]
    | some _ => exact (ih (count + 1)).bind fun rest => carries_pure (name :: rest)

theorem functionHead_carries (n : Nat) (sort : FunctionSort) :
    Carries cs (functionHead n sort) := by
  have hparams : Carries cs (parameters n) := by
    refine (carries_check _).bind fun b => ?_
    cases b with
    | true => exact carries_pure []
    | false => exact parametersFrom_carries n 0
  exact (carries_expect _ _).bind fun _ => (carries_expect _ _).bind fun _ =>
    hparams.bind fun _ => (carries_expect _ _).bind fun _ => (carries_expect _ _).bind fun _ =>
      carries_pure _

/-! ### Declarations and statements -/

structure DeclarationCarries (cs : List Complaint) (n : Nat) : Prop where
  declaration : Carries cs (declaration n)
  classDeclaration : Carries cs (classDeclaration n)
  methods : Carries cs (methods n)
  function (sort : FunctionSort) : Carries cs (function n sort)
  statement : Carries cs (statement n)
  block : Carries cs (block n)
  declarations (inBlock : Bool) : Carries cs (declarations n inBlock)

theorem declaration_carries (ih : DeclarationCarries cs n) : Carries cs (declaration (n + 1)) := by
  refine carries_recover ((carries_accept _).bind fun r => ?_)
  cases r with
  | some _ => exact ih.classDeclaration
  | none =>
  refine (carries_accept _).bind fun r => ?_
  cases r with
  | some _ => exact (ih.function .function).bind fun _ => carries_pure _
  | none =>
  refine (carries_accept _).bind fun r => ?_
  cases r with
  | some _ => exact varDeclaration_carries n
  | none => exact ih.statement

theorem classDeclaration_carries (ih : DeclarationCarries cs n) :
    Carries cs (classDeclaration (n + 1)) :=
  (carries_expect _ _).bind fun _ => superclass_carries.bind fun _ =>
    (carries_expect _ _).bind fun _ => ih.methods.bind fun _ => (carries_expect _ _).bind fun _ =>
      carries_pure _

theorem methods_carries (ih : DeclarationCarries cs n) : Carries cs (methods (n + 1)) := by
  refine (carries_atClosing _).bind fun b => ?_
  cases b with
  | true => exact carries_pure []
  | false => exact (ih.function .method).bind fun _ => ih.methods.bind fun _ => carries_pure _

theorem statement_carries (ih : DeclarationCarries cs n) : Carries cs (statement (n + 1)) := by
  refine (carries_accept _).bind fun r => ?_
  cases r with
  | some _ =>
    exact (forClauses_carries n).bind fun _ => ih.statement.bind fun _ =>
      (conditionOrTrue_carries _).bind fun _ => carries_pure _
  | none =>
  refine (carries_accept _).bind fun r => ?_
  cases r with
  | some _ =>
    refine (condition_carries n _ _).bind fun _ => ih.statement.bind fun _ =>
      (carries_accept _).bind fun r => ?_
    cases r with
    | some _ => exact ih.statement.bind fun _ => carries_pure _
    | none => exact carries_pure _
  | none =>
  refine (carries_accept _).bind fun r => ?_
  cases r with
  | some _ => exact (condition_carries n _ _).bind fun _ => ih.statement.bind fun _ =>
      carries_pure _
  | none =>
  refine (carries_accept _).bind fun r => ?_
  cases r with
  | some keyword => exact returnStatement_carries n keyword
  | none =>
  refine (carries_accept _).bind fun r => ?_
  cases r with
  | some _ => exact ih.block.bind fun _ => carries_pure _
  | none =>
  refine (carries_accept _).bind fun r => ?_
  cases r with
  | some _ => exact carries_closed n _ .print
  | none => exact carries_closed n _ .expression

theorem declarations_carries (ih : DeclarationCarries cs n) (inBlock : Bool) :
    Carries cs (declarations (n + 1) inBlock) := by
  refine (carries_atClosing _).bind fun b => ?_
  cases b with
  | true => exact carries_pure []
  | false => exact ih.declaration.bind fun _ => (ih.declarations inBlock).bind fun _ =>
      carries_pure _

theorem declarationCarries (cs : List Complaint) (n : Nat) : DeclarationCarries cs n := by
  induction n with
  | zero =>
    exact ⟨carries_outOfFuel, carries_outOfFuel, carries_outOfFuel, fun _ => carries_outOfFuel,
      carries_outOfFuel, carries_outOfFuel, fun _ => carries_outOfFuel⟩
  | succ n ih =>
    exact
      { declaration := declaration_carries ih
        classDeclaration := classDeclaration_carries ih
        methods := methods_carries ih
        function := fun sort => (functionHead_carries n sort).bind fun _ =>
          ih.block.bind fun _ => carries_pure _
        statement := statement_carries ih
        block := (ih.declarations true).bind fun _ => (carries_expect _ _).bind fun _ =>
          carries_pure _
        declarations := declarations_carries ih }

end Parse

end Lox
