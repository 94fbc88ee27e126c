import Lox.Proofs.Grammar.Carrying
import Lox.Proofs.Grammar.Positions
import Lox.Proofs.Mirror.Joining
import Lox.Proofs.Mirror.Reached

/-!
# Recovery after a mistake

A mistake in a statement costs that statement and nothing else, if the statement is one that a
semicolon ends: no other semicolon, no brace and no `for` stands before it, and no keyword after its
first token that would start a statement.

A reader of such a statement that fails does so before the semicolon or at it, whatever follows
(`Parse.Closes`). From there, skipping leads to right after the semicolon
(`Cursor.synchronize_before`). The complaints made so far are carried along, and what follows is
read as it would be alone. What comes before is not affected either, since no `else` follows it.
-/

namespace Lox

/-! ### Before a semicolon -/

/-- Tokens that a semicolon ends: none of them is a semicolon, opens a block or is a `for`. -/
structure Unended (xs : List Token) (semicolon : Token) : Prop where
  isSemicolon : semicolon.kind = .symbol .semicolon
  noSemicolon : ∀ t ∈ xs, t.kind ≠ .symbol .semicolon
  noBrace : ∀ t ∈ xs, t.kind ≠ .symbol .leftBrace
  noFor : ∀ t ∈ xs, t.kind ≠ .keyword .for_

/-- A place within `xs`, or at the semicolon after it, which is the last token. -/
def Cursor.Before (xs : List Token) (semicolon : Token) (c : Cursor) : Prop :=
  ∃ ts, ts <:+ xs ∧ c.ahead = ts ++ [semicolon]

section Places

variable {xs us : List Token} {semicolon eof : Token} {c : Cursor}

theorem Cursor.Before.cases (h : c.Before xs semicolon) :
    c.ahead = [semicolon] ∨ ∃ t rest, t ∈ xs ∧ c.ahead = t :: rest ∧
      ∀ d : Cursor, d.ahead = rest → d.Before xs semicolon := by
  obtain ⟨ts, hts, hahead⟩ := h
  cases ts with
  | nil => exact .inl hahead
  | cons t ts =>
    refine .inr ⟨t, ts ++ [semicolon], hts.subset List.mem_cons_self, hahead, fun d hd => ?_⟩
    exact ⟨ts, (List.suffix_cons t ts).trans hts, hd⟩

theorem Cursor.Before.exists_cons (h : c.Before xs semicolon) :
    ∃ t rest, c.ahead = t :: rest := by
  obtain hlast | ⟨t, rest, -, hahead, -⟩ := h.cases
  · exact ⟨semicolon, [], hlast⟩
  · exact ⟨t, rest, hahead⟩

theorem Cursor.peek_followedBy (h : c.ahead ≠ []) : (c.followedBy us eof).peek = c.peek := by
  obtain ⟨t, rest, hahead⟩ := List.exists_cons_of_ne_nil h
  simp only [Cursor.peek, Cursor.followedBy, hahead, List.cons_append, List.headD_cons]

theorem Cursor.Before.peek_followedBy (h : c.Before xs semicolon) :
    (c.followedBy us eof).peek = c.peek := by
  obtain ⟨t, rest, hahead⟩ := h.exists_cons
  exact Cursor.peek_followedBy (hahead ▸ List.cons_ne_nil t rest)

theorem Cursor.Before.check_followedBy (h : c.Before xs semicolon) (k : TokenKind) :
    (c.followedBy us eof).check k = c.check k := by
  obtain ⟨t, rest, hahead⟩ := h.exists_cons
  simp only [Cursor.check, Cursor.followedBy, hahead, List.cons_append]

theorem Cursor.Before.check_eq_false (h : c.Before xs semicolon) {k : TokenKind}
    (hxs : ∀ t ∈ xs, t.kind ≠ k) (hsemicolon : semicolon.kind ≠ k) : c.check k = false := by
  obtain hlast | ⟨t, rest, ht, hahead, -⟩ := h.cases
  · simp only [Cursor.check, hlast, beq_eq_false_iff_ne]
    exact hsemicolon
  · simp only [Cursor.check, hahead, beq_eq_false_iff_ne]
    exact hxs t ht

/-! ### Skipping -/

theorem Cursor.skipFrom_semicolon {last : Token} (h : last.kind = .symbol .semicolon)
    (us : List Token) : Cursor.skipFrom last us = us := by
  cases us with
  | nil => rfl
  | cons u us => rw [Cursor.skipFrom, h, if_pos (by simp)]

theorem Cursor.skipFrom_before {ts : List Token} {last : Token}
    (hsemicolon : semicolon.kind = .symbol .semicolon)
    (hlast : last.kind ≠ .symbol .semicolon)
    (hts : ∀ t ∈ ts, t.kind ≠ .symbol .semicolon ∧ Cursor.startsStatement t = false)
    (us : List Token) : Cursor.skipFrom last (ts ++ semicolon :: us) = us := by
  induction ts generalizing last with
  | nil =>
    have hstarts : Cursor.startsStatement semicolon = false := by
      rw [Cursor.startsStatement, hsemicolon]
    rw [List.nil_append, Cursor.skipFrom, hstarts, if_neg (by simpa using hlast)]
    exact Cursor.skipFrom_semicolon hsemicolon us
  | cons t ts ih =>
    obtain ⟨⟨hkind, hstarts⟩, hrest⟩ := List.forall_mem_cons.mp hts
    rw [List.cons_append, Cursor.skipFrom, hstarts, if_neg (by simpa using hlast)]
    exact ih hkind hrest

/-- From a mistake before the semicolon, skipping leads to what follows the semicolon. -/
theorem Cursor.synchronize_before (hxs : Unended xs semicolon)
    (hinner : ∀ t ∈ xs.tail, Cursor.startsStatement t = false) (h : c.Before xs semicolon)
    (us : List Token) (eof : Token) :
    (c.followedBy us eof).synchronize = { c with ahead := us, eof } := by
  obtain ⟨ts, hts, hahead⟩ := h
  cases ts with
  | nil =>
    simp only [Cursor.synchronize, Cursor.followedBy, hahead, List.nil_append, List.cons_append,
      Cursor.skipFrom_semicolon hxs.isSemicolon]
  | cons t ts =>
    have htail : ∀ u ∈ ts, u.kind ≠ .symbol .semicolon ∧ Cursor.startsStatement u = false := by
      intro u hu
      refine ⟨hxs.noSemicolon u (hts.subset (List.mem_cons_of_mem t hu)), hinner u ?_⟩
      obtain ⟨front, rfl⟩ := hts
      cases front with
      | nil => exact hu
      | cons _ front => simp [hu]
    have hskip := Cursor.skipFrom_before hxs.isSemicolon
      (hxs.noSemicolon t (hts.subset List.mem_cons_self)) htail us
    simp only [Cursor.synchronize, Cursor.followedBy, hahead, List.cons_append, List.append_assoc,
      List.nil_append, hskip]

end Places

/-! ### Readers before a semicolon -/

section Readers

variable (xs us : List Token) (semicolon eof : Token) {α β : Type}

/-- What becomes of the end of a reader before the semicolon when other tokens follow. A failure
stays as it is, and of a success `R` holds. -/
def Reply.Agrees (R : α → Cursor → Reply α → Prop) : Reply α → Reply α → Prop
  | .ok a d, r => R a d r
  | .fail x d, r => d.Before xs semicolon ∧ r = .fail x (d.followedBy us eof)
  | .outOfFuel, _ => True

/-- Started before the semicolon, the reader ends there in one of the ways of `Reply.Agrees`. -/
def Parse.Agrees (R : α → Cursor → Reply α → Prop) (p : Parse α) : Prop :=
  ∀ c : Cursor, c.Before xs semicolon →
    (p c).Agrees xs us semicolon eof R (p (c.followedBy us eof))

/-- The reader ends before the semicolon, in the same way whatever follows. -/
def Parse.Stays (p : Parse α) : Prop :=
  p.Agrees xs us semicolon eof fun a d r =>
    d.Before xs semicolon ∧ r = .ok a (d.followedBy us eof)

/-- The reader has read the semicolon at the end, or it fails before, whatever follows. -/
def Parse.Closes (p : Parse α) : Prop := p.Agrees xs us semicolon eof fun _ d _ => d.ahead = []

/-- The reader fails before the semicolon, whatever follows. -/
def Parse.Fails (p : Parse α) : Prop := p.Agrees xs us semicolon eof fun _ _ _ => False

namespace Parse

variable {xs us semicolon eof} {R : α → Cursor → Reply α → Prop} {n : Nat}

/-! ### Rules -/

theorem agrees_outOfFuel : (outOfFuel : Parse α).Agrees xs us semicolon eof R := fun _ _ => trivial

theorem agrees_failWith (what : Expected) :
    (failWith what : Parse α).Agrees xs us semicolon eof R := by
  intro c hc
  refine ⟨hc, ?_⟩
  rw [failWith, hc.peek_followedBy]

theorem stays_pure (a : α) : (pure a : Parse α).Stays xs us semicolon eof := fun _ hc => ⟨hc, rfl⟩

theorem stays_freshId : freshId.Stays xs us semicolon eof := fun _ hc => ⟨hc, rfl⟩

theorem stays_complain (t : Token) (e : ParseError) :
    (complain t e).Stays xs us semicolon eof :=
  fun _ hc => ⟨hc, rfl⟩

theorem stays_check (k : TokenKind) : (check k).Stays xs us semicolon eof := by
  intro c hc
  refine ⟨hc, ?_⟩
  rw [check, hc.check_followedBy]

theorem stays_checkArity (count : Nat) (e : ParseError) :
    (checkArity count e).Stays xs us semicolon eof := by
  intro c hc
  unfold checkArity
  rw [hc.peek_followedBy]
  split_ifs
  · exact ⟨hc, rfl⟩
  · exact ⟨hc, rfl⟩

theorem Stays.bind {p : Parse α} {f : α → Parse β} {R : β → Cursor → Reply β → Prop}
    (hp : p.Stays xs us semicolon eof) (hf : ∀ a, (f a).Agrees xs us semicolon eof R) :
    (p >>= f).Agrees xs us semicolon eof R := by
  intro c hc
  have hend := hp c hc
  show (Parse.bind p f c).Agrees _ _ _ _ R (Parse.bind p f _)
  unfold Parse.bind
  cases hrun : p c with
  | ok a d =>
    rw [hrun] at hend
    obtain ⟨hd, hfollowed⟩ := hend
    rw [hfollowed]
    exact hf a d hd
  | fail x d =>
    rw [hrun] at hend
    obtain ⟨hd, hfollowed⟩ := hend
    rw [hfollowed]
    exact ⟨hd, rfl⟩
  | outOfFuel => trivial

theorem Fails.bind {p : Parse α} {f : α → Parse β} {R : β → Cursor → Reply β → Prop}
    (hp : p.Fails xs us semicolon eof) : (p >>= f).Agrees xs us semicolon eof R := by
  intro c hc
  have hend := hp c hc
  show (Parse.bind p f c).Agrees _ _ _ _ R (Parse.bind p f _)
  unfold Parse.bind
  cases hrun : p c with
  | ok a d =>
    rw [hrun] at hend
    exact hend.elim
  | fail x d =>
    rw [hrun] at hend
    obtain ⟨hd, hfollowed⟩ := hend
    rw [hfollowed]
    exact ⟨hd, rfl⟩
  | outOfFuel => trivial

theorem Closes.bind {p : Parse α} {f : α → Parse β} (hp : p.Closes xs us semicolon eof)
    (hf : ∀ a (c : Cursor), c.ahead = [] → ∃ b d, f a c = .ok b d ∧ d.ahead = []) :
    (p >>= f).Closes xs us semicolon eof := by
  intro c hc
  have hend := hp c hc
  show (Parse.bind p f c).Agrees _ _ _ _ _ (Parse.bind p f _)
  unfold Parse.bind
  cases hrun : p c with
  | ok a d =>
    rw [hrun] at hend
    obtain ⟨b, e, hlast, he⟩ := hf a d hend
    dsimp only
    rw [hlast]
    exact he
  | fail x d =>
    rw [hrun] at hend
    obtain ⟨hd, hfollowed⟩ := hend
    rw [hfollowed]
    exact ⟨hd, rfl⟩
  | outOfFuel => trivial

theorem Closes.bind_pure {p : Parse α} (hp : p.Closes xs us semicolon eof) (f : α → β) :
    (p >>= fun a => pure (f a)).Closes xs us semicolon eof :=
  hp.bind fun a c hc => ⟨f a, c, rfl, hc⟩

theorem stays_acceptIf {test : TokenKind → Bool} (htest : test (.symbol .semicolon) = false)
    (hxs : Unended xs semicolon) : (acceptIf test).Stays xs us semicolon eof := by
  intro c hc
  obtain hlast | ⟨t, rest, -, hahead, hrest⟩ := hc.cases
  · simp only [acceptIf, Cursor.followedBy, hlast, List.cons_append, hxs.isSemicolon, htest,
      Bool.false_eq_true, if_false]
    exact ⟨hc, by simp only [hlast, List.cons_append]⟩
  · simp only [acceptIf, Cursor.followedBy, hahead, List.cons_append]
    split_ifs
    · exact ⟨hrest _ rfl, rfl⟩
    · exact ⟨hc, by simp only [hahead, List.cons_append]⟩

theorem stays_accept {k : TokenKind} (hk : k ≠ .symbol .semicolon) (hxs : Unended xs semicolon) :
    (accept k).Stays xs us semicolon eof :=
  stays_acceptIf (beq_eq_false_iff_ne.mpr hk.symm) hxs

theorem accept_eq_none {k : TokenKind} {c : Cursor} (h : c.check k = false) :
    accept k c = .ok none c := by
  unfold Cursor.check at h
  unfold accept acceptIf
  cases hahead : c.ahead with
  | nil => rfl
  | cons t rest =>
    rw [hahead] at h
    exact if_neg (by simpa using h)

theorem agrees_accept_missing {k : TokenKind} {f : Option Token → Parse β}
    {R : β → Cursor → Reply β → Prop} (hk : ∀ t ∈ xs, t.kind ≠ k) (hsemicolon : semicolon.kind ≠ k)
    (hf : (f none).Agrees xs us semicolon eof R) :
    (accept k >>= f).Agrees xs us semicolon eof R := by
  intro c hc
  have hnone := hc.check_eq_false hk hsemicolon
  have hnone' : (c.followedBy us eof).check k = false := by rw [hc.check_followedBy, hnone]
  rw [bind_of_ok (accept_eq_none hnone), bind_of_ok (accept_eq_none hnone')]
  exact hf c hc

theorem stays_expect {k : TokenKind} (hk : k ≠ .symbol .semicolon) (hxs : Unended xs semicolon)
    (what : Expected) : (expect k what).Stays xs us semicolon eof := by
  refine (stays_accept hk hxs).bind fun r => ?_
  cases r with
  | some t => exact stays_pure t
  | none => exact agrees_failWith what

theorem fails_expect_brace (hxs : Unended xs semicolon) (what : Expected) :
    (expect (.symbol .leftBrace) what).Fails xs us semicolon eof := by
  have hsemicolon : semicolon.kind ≠ .symbol .leftBrace := by simp [hxs.isSemicolon]
  exact agrees_accept_missing hxs.noBrace hsemicolon (agrees_failWith what)

theorem closes_expect (hxs : Unended xs semicolon) (what : Expected) :
    (expect (.symbol .semicolon) what).Closes xs us semicolon eof := by
  intro c hc
  obtain hlast | ⟨t, rest, ht, hahead, -⟩ := hc.cases
  · have hread : expect (.symbol .semicolon) what c = .ok semicolon { c with ahead := [] } := by
      have haccept :
          accept (.symbol .semicolon) c = .ok (some semicolon) { c with ahead := [] } := by
        simp [accept, acceptIf, hlast, hxs.isSemicolon]
      rw [expect, bind_of_ok haccept]
      rfl
    rw [hread]
    exact rfl
  · have hnone : c.check (.symbol .semicolon) = false := by
      simpa [Cursor.check, hahead] using hxs.noSemicolon t ht
    have hnone' : (c.followedBy us eof).check (.symbol .semicolon) = false := by
      rw [hc.check_followedBy, hnone]
    rw [expect, bind_of_ok (accept_eq_none hnone), bind_of_ok (accept_eq_none hnone')]
    exact agrees_failWith what c hc

/-! ### Expressions -/

/-- Expressions stay before the semicolon. -/
structure ExpressionStays (xs us : List Token) (semicolon eof : Token) (n : Nat) : Prop where
  expression : (expression n).Stays xs us semicolon eof
  chain (l : Level) : (chain n l).Stays xs us semicolon eof
  chainRest (l : Level) (left : Expr) : (chainRest n l left).Stays xs us semicolon eof
  operand (l : Level) : (operand n l).Stays xs us semicolon eof
  unary : (unary n).Stays xs us semicolon eof
  callRest (e : Expr) : (callRest n e).Stays xs us semicolon eof
  arguments : (arguments n).Stays xs us semicolon eof
  argumentsFrom (count : Nat) : (argumentsFrom n count).Stays xs us semicolon eof
  primary : (primary n).Stays xs us semicolon eof

theorem stays_node {γ : Type} (make : NodeId → γ) :
    (freshId >>= fun id => pure (make id)).Stays xs us semicolon eof :=
  stays_freshId.bind fun _ => stays_pure _

theorem assignment_stays (target : Expr) (equals : Token) (value : Expr) :
    (assignment target equals value).Stays xs us semicolon eof := by
  unfold assignment
  split
  · exact stays_node _
  · exact stays_node _
  · exact (stays_complain _ _).bind fun _ => stays_pure _

section Steps

variable (hxs : Unended xs semicolon) (ih : ExpressionStays xs us semicolon eof n)

include hxs

theorem superAccess_stays (keyword : Token) :
    (superAccess keyword).Stays xs us semicolon eof :=
  (stays_expect (by simp) hxs _).bind fun _ => (stays_expect (by simp) hxs _).bind fun _ =>
    stays_node _

theorem property_stays (object : Expr) : (property object).Stays xs us semicolon eof :=
  (stays_expect (by simp) hxs _).bind fun _ => stays_node _

include ih

theorem expression_stays : (expression (n + 1)).Stays xs us semicolon eof := by
  refine (ih.chain .or).bind fun target => (stays_accept (by simp) hxs).bind fun r => ?_
  cases r with
  | none => exact stays_pure target
  | some equals => exact ih.expression.bind fun value => assignment_stays target equals value

theorem chainRest_stays (l : Level) (left : Expr) :
    (chainRest (n + 1) l left).Stays xs us semicolon eof := by
  have htest : l.hasOperator (.symbol .semicolon) = false := by cases l <;> rfl
  refine (stays_acceptIf htest hxs).bind fun r => ?_
  cases r with
  | none => exact stays_pure left
  | some op => exact (ih.operand l).bind fun _ => stays_freshId.bind fun _ => ih.chainRest l _

theorem unary_stays : (unary (n + 1)).Stays xs us semicolon eof := by
  refine (stays_acceptIf rfl hxs).bind fun r => ?_
  cases r with
  | none => exact ih.primary.bind fun e => ih.callRest e
  | some op => exact ih.unary.bind fun _ => stays_node _

theorem callRest_stays (e : Expr) : (callRest (n + 1) e).Stays xs us semicolon eof := by
  refine (stays_accept (by simp) hxs).bind fun r => ?_
  cases r with
  | some _ =>
    exact ih.arguments.bind fun _ => (stays_expect (by simp) hxs _).bind fun _ =>
      stays_freshId.bind fun _ => ih.callRest _
  | none =>
    refine (stays_accept (by simp) hxs).bind fun r => ?_
    cases r with
    | some _ => exact (property_stays hxs e).bind fun object => ih.callRest object
    | none => exact stays_pure e

theorem argumentsFrom_stays (count : Nat) :
    (argumentsFrom (n + 1) count).Stays xs us semicolon eof := by
  refine (stays_checkArity _ _).bind fun _ => ih.expression.bind fun e =>
    (stays_accept (by simp) hxs).bind fun r => ?_
  cases r with
  | none => exact stays_pure [e]
  | some _ => exact (ih.argumentsFrom (count + 1)).bind fun rest => stays_pure (e :: rest)

theorem primary_stays : (primary (n + 1)).Stays xs us semicolon eof := by
  refine (stays_acceptIf rfl hxs).bind fun r => ?_
  cases r with
  | some t => exact stays_node _
  | none =>
  refine (stays_accept (by simp) hxs).bind fun r => ?_
  cases r with
  | some keyword => exact superAccess_stays hxs keyword
  | none =>
  refine (stays_accept (by simp) hxs).bind fun r => ?_
  cases r with
  | some keyword => exact stays_node _
  | none =>
  refine (stays_accept (by simp) hxs).bind fun r => ?_
  cases r with
  | some name => exact stays_node _
  | none =>
  refine (stays_accept (by simp) hxs).bind fun r => ?_
  cases r with
  | some _ =>
    exact ih.expression.bind fun _ => (stays_expect (by simp) hxs _).bind fun _ => stays_node _
  | none => exact agrees_failWith _

end Steps

theorem operand_stays (ih : ExpressionStays xs us semicolon eof n) (l : Level) :
    (operand (n + 1) l).Stays xs us semicolon eof := by
  unfold operand
  split
  · exact ih.chain _
  · exact ih.unary

theorem arguments_stays (ih : ExpressionStays xs us semicolon eof n) :
    (arguments (n + 1)).Stays xs us semicolon eof := by
  refine (stays_check _).bind fun b => ?_
  cases b with
  | true => exact stays_pure []
  | false => exact ih.argumentsFrom 0

theorem expressionStays (hxs : Unended xs semicolon) (us : List Token) (eof : Token) (n : Nat) :
    ExpressionStays xs us semicolon eof n := by
  induction n with
  | zero =>
    exact ⟨agrees_outOfFuel, fun _ => agrees_outOfFuel, fun _ _ => agrees_outOfFuel,
      fun _ => agrees_outOfFuel, agrees_outOfFuel, fun _ => agrees_outOfFuel,
      agrees_outOfFuel, fun _ => agrees_outOfFuel, agrees_outOfFuel⟩
  | succ n ih =>
    exact
      { expression := expression_stays hxs ih
        chain := fun l => (ih.operand l).bind fun left => ih.chainRest l left
        chainRest := chainRest_stays hxs ih
        operand := operand_stays ih
        unary := unary_stays hxs ih
        callRest := callRest_stays hxs ih
        arguments := arguments_stays ih
        argumentsFrom := argumentsFrom_stays hxs ih
        primary := primary_stays hxs ih }

/-! ### Statements -/

section Statements

variable (hxs : Unended xs semicolon)

include hxs

theorem closes_expression (n : Nat) (what : Expected) (make : Expr → Stmt) :
    (expression n >>= fun e => expect (.symbol .semicolon) what >>= fun _ =>
      pure (make e)).Closes xs us semicolon eof :=
  (expressionStays hxs us eof n).expression.bind fun _ => (closes_expect hxs what).bind_pure _

theorem varDeclaration_closes (n : Nat) : (varDeclaration n).Closes xs us semicolon eof := by
  refine (stays_expect (by simp) hxs _).bind fun name =>
    (stays_accept (by simp) hxs).bind fun r => ?_
  cases r with
  | some _ => exact closes_expression hxs n _ fun init => .var name (some init)
  | none => exact (closes_expect hxs _).bind_pure _

theorem returnStatement_closes (n : Nat) (keyword : Token) :
    (returnStatement n keyword).Closes xs us semicolon eof := by
  have hvalue : (expressionUnless n (.symbol .semicolon)).Stays xs us semicolon eof := by
    refine (stays_check _).bind fun b => ?_
    cases b with
    | true => exact stays_pure none
    | false => exact (expressionStays hxs us eof n).expression.bind fun e => stays_pure (some e)
  exact hvalue.bind fun _ => (closes_expect hxs _).bind_pure _

theorem condition_stays (n : Nat) (opening closing : Expected) :
    (condition n opening closing).Stays xs us semicolon eof :=
  (stays_expect (by simp) hxs _).bind fun _ => (expressionStays hxs us eof n).expression.bind
    fun cond => (stays_expect (by simp) hxs _).bind fun _ => stays_pure cond

theorem statement_closes (n : Nat) : (statement n).Closes xs us semicolon eof := by
  have hsemicolon := hxs.isSemicolon
  induction n with
  | zero => exact agrees_outOfFuel
  | succ n ih =>
    refine agrees_accept_missing hxs.noFor (by simp [hsemicolon]) ?_
    refine (stays_accept (by simp) hxs).bind fun r => ?_
    cases r with
    | some _ =>
      -- the branch has read the semicolon, so no `else` is left to read
      refine (condition_stays hxs n _ _).bind fun cond => ih.bind fun branch c hc => ?_
      have hnone : c.check (.keyword .else_) = false := by simp [Cursor.check, hc]
      exact ⟨_, c, bind_of_ok (accept_eq_none hnone), hc⟩
    | none =>
    refine (stays_accept (by simp) hxs).bind fun r => ?_
    cases r with
    | some _ => exact (condition_stays hxs n _ _).bind fun cond => ih.bind_pure _
    | none =>
    refine (stays_accept (by simp) hxs).bind fun r => ?_
    cases r with
    | some keyword => exact returnStatement_closes hxs n keyword
    | none =>
    refine agrees_accept_missing hxs.noBrace (by simp [hsemicolon]) ?_
    refine (stays_accept (by simp) hxs).bind fun r => ?_
    cases r with
    | some _ => exact closes_expression hxs n _ .print
    | none => exact closes_expression hxs n _ .expression

theorem superclass_stays : superclass.Stays xs us semicolon eof := by
  refine (stays_accept (by simp) hxs).bind fun r => ?_
  cases r with
  | some _ => exact (stays_expect (by simp) hxs _).bind fun _ => stays_node _
  | none => exact stays_pure none

theorem classDeclaration_closes (n : Nat) : (classDeclaration n).Closes xs us semicolon eof := by
  cases n with
  | zero => exact agrees_outOfFuel
  | succ n =>
    exact (stays_expect (by simp) hxs _).bind fun _ => (superclass_stays hxs).bind fun _ =>
      (fails_expect_brace hxs _).bind

theorem parametersFrom_stays (n count : Nat) :
    (parametersFrom n count).Stays xs us semicolon eof := by
  induction n generalizing count with
  | zero => exact agrees_outOfFuel
  | succ n ih =>
    refine (stays_checkArity _ _).bind fun _ => (stays_expect (by simp) hxs _).bind fun name =>
      (stays_accept (by simp) hxs).bind fun r => ?_
    cases r with
    | none => exact stays_pure [name]
    | some _ => exact (ih (count + 1)).bind fun rest => stays_pure (name :: rest)

theorem functionHead_fails (n : Nat) (sort : FunctionSort) :
    (functionHead n sort).Fails xs us semicolon eof := by
  have hparams : (parameters n).Stays xs us semicolon eof := by
    refine (stays_check _).bind fun b => ?_
    cases b with
    | true => exact stays_pure []
    | false => exact parametersFrom_stays hxs n 0
  exact (stays_expect (by simp) hxs _).bind fun _ => (stays_expect (by simp) hxs _).bind fun _ =>
    hparams.bind fun _ => (stays_expect (by simp) hxs _).bind fun _ =>
      (fails_expect_brace hxs _).bind

theorem function_fails (n : Nat) (sort : FunctionSort) :
    (function n sort).Fails xs us semicolon eof := by
  cases n with
  | zero => exact agrees_outOfFuel
  | succ n => exact (functionHead_fails hxs n sort).bind

/-- After a failure, the rest up to the semicolon is skipped, whatever follows. -/
theorem Closes.recover {p : Parse α} (hp : p.Closes xs us semicolon eof)
    (hinner : ∀ t ∈ xs.tail, Cursor.startsStatement t = false) {c d : Cursor}
    (hc : c.Before xs semicolon) (h : recover p c = .ok none d) :
    d.ahead = [] ∧ recover p (c.followedBy us eof) = .ok none (d.followedBy us eof) := by
  have hend := hp c hc
  unfold Parse.recover at h ⊢
  cases hrun : p c with
  | ok a e => simp [hrun] at h
  | fail x e =>
    rw [hrun] at h hend
    obtain ⟨he, hfollowed⟩ := hend
    have hplace : (e.complain x).Before xs semicolon := he
    have halone := Cursor.synchronize_before hxs hinner hplace [] e.eof
    have hskip := Cursor.synchronize_before hxs hinner hplace us eof
    have hsame : (e.complain x).followedBy [] e.eof = e.complain x := by
      simp [Cursor.followedBy, Cursor.complain]
    rw [hsame] at halone
    simp only [halone, Reply.ok.injEq, true_and] at h
    subst h
    rw [hfollowed]
    exact ⟨rfl, congrArg (Reply.ok none) hskip⟩
  | outOfFuel => simp [hrun] at h

theorem declaration_skipped (hinner : ∀ t ∈ xs.tail, Cursor.startsStatement t = false)
    {c d : Cursor} (hc : c.Before xs semicolon) (h : declaration n c = .ok none d) :
    d.ahead = [] ∧ declaration n (c.followedBy us eof) = .ok none (d.followedBy us eof) := by
  cases n with
  | zero => simp [declaration, outOfFuel] at h
  | succ n =>
    rw [declaration] at h ⊢
    refine Closes.recover hxs ?_ hinner hc h
    refine (stays_accept (by simp) hxs).bind fun r => ?_
    cases r with
    | some _ => exact classDeclaration_closes hxs n
    | none =>
    refine (stays_accept (by simp) hxs).bind fun r => ?_
    cases r with
    | some _ => exact (function_fails hxs n .function).bind
    | none =>
    refine (stays_accept (by simp) hxs).bind fun r => ?_
    cases r with
    | some _ => exact varDeclaration_closes hxs n
    | none => exact statement_closes hxs n

end Statements

end Parse

end Readers

/-! ### Programs -/

/-- The same tokens and any identities. -/
def Mirror.anyIds : Mirror := .renumbering (fun _ => True) fun _ _ => True

theorem Mirror.forall₂_anyIds (ts : List Token) : List.Forall₂ Mirror.anyIds.token ts ts :=
  List.forall₂_same.mpr fun _ _ => ⟨trivial, rfl⟩

theorem Complaint.eq_of_anyIds {cs cs' : List Complaint}
    (h : List.Forall₂ (Complaint.Mirrored .anyIds) cs cs') : cs' = cs := by
  induction h with
  | nil => rfl
  | @cons x x' cs cs' hx hrest ih =>
    obtain ⟨token, error⟩ := x
    obtain ⟨token', error'⟩ := x'
    obtain ⟨⟨-, htoken⟩, herror⟩ := hx
    rw [ih]
    simp only at htoken herror
    rw [htoken, herror]

section Programs

variable {as xs bs : List Token} {semicolon eof : Token} {n m : Nat}

theorem Cursor.mirrored_anyIds (ts : List Token) (eof : Token) (i j : Nat) :
    Cursor.Mirrored .anyIds ⟨ts, eof, i, []⟩ ⟨ts, eof, j, []⟩ :=
  ⟨Mirror.forall₂_anyIds ts, ⟨trivial, rfl⟩, fun _ => trivial, .nil⟩

/-- With enough fuel a declaration fails alike, whatever the next identity. -/
theorem Parse.declaration_fails_alike {ts : List Token} {i : Nat} {d : Cursor}
    (h : declaration n ⟨ts, eof, i, []⟩ = .ok none d) (hts : ts ≠ [])
    (hm : 32 * ts.length + 17 ≤ m) (j : Nat) :
    ∃ d', declaration m ⟨ts, eof, j, []⟩ = .ok none d' ∧ d'.complaints = d.complaints := by
  have hmore := (declarationMirrored .anyIds (Nat.le_max_left n m)).declaration _ _
    (Cursor.mirrored_anyIds ts eof i j)
  have hless := (declarationMirrored .anyIds (Nat.le_max_right n m)).declaration _ _
    (Cursor.mirrored_anyIds ts eof j j)
  have hended := Spec.ended ((statementRecognizes m).declaration ⟨ts, eof, j, []⟩ hts hm)
  rw [h] at hmore
  generalize declaration (max n m) _ = r at hmore hless
  cases hmore with
  | ok hnone hd =>
    cases hnone
    generalize declaration m _ = r at hless hended ⊢
    cases hless with
    | ok hnone' hd' =>
      cases hnone'
      refine ⟨_, rfl, ?_⟩
      rw [← Complaint.eq_of_anyIds hd'.complaints, Complaint.eq_of_anyIds hd.complaints]
    | starved r => exact absurd rfl hended

theorem Program.declarations_alike {ts : List Token} (hts : ∀ t ∈ ts, t.isEof = false)
    (heof : eof.isEof = true) (hm : Parse.fuelFor (ts.length + 1) ≤ m) (i j : Nat) :
    ∃ ss d, Parse.declarations m false ⟨ts, eof, j, []⟩ = .ok ss d ∧
      MirroredAll .anyIds (Program.ofTokens (ts ++ [eof]) i).statements ss ∧
      d.complaints = (Program.ofTokens (ts ++ [eof]) i).complaints := by
  have hread := (Parse.declarationMirrored .anyIds hm).declarations false _ _
    (Cursor.mirrored_anyIds ts eof i j)
  have hended := Parse.Spec.ended ((Parse.statementRecognizes (Parse.fuelFor (ts.length + 1))
    ).declarations false ⟨ts, eof, i, []⟩ (by simp only [Parse.fuelFor]; omega))
  have hnever := Parse.declarations_neverFails (Parse.fuelFor (ts.length + 1)) false
    ⟨ts, eof, i, []⟩
  rw [Program.ofTokens, Cursor.ofTokens_append hts heof, List.length_append, List.length_singleton]
  generalize Parse.declarations _ false ⟨ts, eof, i, []⟩ = r,
    Parse.declarations _ false ⟨ts, eof, j, []⟩ = r' at hread hended hnever
  cases hread with
  | ok hss hd => exact ⟨_, _, rfl, hss, Complaint.eq_of_anyIds hd.complaints⟩
  | fail hx hd => exact hnever.elim
  | starved r => exact absurd rfl hended

/-- A broken statement and what follows it: nothing is read of the former, and the latter is read as
it would be alone. -/
theorem Parse.declarations_broken (hxs : Unended xs semicolon)
    (hinner : ∀ t ∈ xs.tail, Cursor.startsStatement t = false) {eofX : Token} {i : Nat}
    {d : Cursor} (hfails : declaration n ⟨xs ++ [semicolon], eofX, i, []⟩ = .ok none d)
    (hm : fuelFor (xs.length + bs.length + 1) ≤ m) (eof : Token) (j : Nat) :
    ∃ j', declarations (m + 1) false ⟨xs ++ [semicolon] ++ bs, eof, j, []⟩ =
      (declarations m false ⟨bs, eof, j', []⟩).carrying d.complaints := by
  have hne : xs ++ [semicolon] ≠ [] := by simp
  have hfuel : 32 * (xs ++ [semicolon]).length + 17 ≤ m := by
    simp only [List.length_append, List.length_singleton]
    simp only [fuelFor] at hm
    omega
  obtain ⟨e, hrun, hcomplaints⟩ := declaration_fails_alike hfails hne hfuel j
  obtain ⟨hahead, hfollowed⟩ : e.ahead = [] ∧
      declaration m (Cursor.followedBy ⟨xs ++ [semicolon], eofX, j, []⟩ bs eof) =
        .ok none (e.followedBy bs eof) :=
    declaration_skipped hxs hinner ⟨xs, List.suffix_refl xs, rfl⟩ hrun
  have hrest : e.followedBy bs eof = Cursor.carrying d.complaints ⟨bs, eof, e.made, []⟩ := by
    simp [Cursor.followedBy, Cursor.carrying, hahead, hcomplaints]
  refine ⟨e.made, ?_⟩
  rw [declarations_step (by simp)]
  show (declaration m >>= _) (Cursor.followedBy ⟨xs ++ [semicolon], eofX, j, []⟩ bs eof) = _
  rw [bind_of_ok hfollowed, Option.toList_none, prepend_nil, hrest]
  exact (declarationCarries d.complaints m).declarations false _

theorem Program.ofTokens_broken (hxs : Unended xs semicolon)
    (hinner : ∀ t ∈ xs.tail, Cursor.startsStatement t = false)
    (hnot : ∀ t ∈ xs ++ [semicolon], t.isEof = false) (heof : eof.isEof = true) {i : Nat}
    {d : Cursor} (hfails : Parse.declaration n ⟨xs ++ [semicolon], eof, i, []⟩ = .ok none d) :
    (Program.ofTokens (xs ++ [semicolon] ++ [eof]) i).complaints = d.complaints := by
  have hm :
      Parse.fuelFor (xs.length + ([] : List Token).length + 1) ≤ 32 * (xs.length + 2) + 31 := by
    simp only [Parse.fuelFor, List.length_nil]
    omega
  obtain ⟨j, hrun⟩ := Parse.declarations_broken hxs hinner hfails hm eof i
  have hfuel :
      Parse.fuelFor (xs ++ [semicolon] ++ [eof]).length = 32 * (xs.length + 2) + 31 + 1 := by
    simp only [Parse.fuelFor, List.length_append, List.length_singleton]
    omega
  have hend : Parse.declarations (32 * (xs.length + 2) + 31) false ⟨[], eof, j, []⟩ =
      .ok [] ⟨[], eof, j, []⟩ := Parse.declarations_end rfl
  rw [List.append_nil, hend] at hrun
  rw [Program.ofTokens, Cursor.ofTokens_append hnot heof, hfuel, hrun]
  exact List.append_nil _

theorem Program.ofTokens_alike (ts : List Token) (heof : eof.isEof = true) (i j : Nat) :
    (Program.ofTokens (ts ++ [eof]) i).Mirrored .anyIds (Program.ofTokens (ts ++ [eof]) j) := by
  refine (Program.ofTokens_mirrored (Mirror.forall₂_anyIds _) ?_ fun _ => trivial).1
  rw [List.find?_isSome]
  exact ⟨eof, by simp, heof⟩

/-- After a program without a mistake, what follows is read as it would be alone. -/
theorem Program.declarations_after {rest : List Token} {i : Nat}
    (has : ∀ t ∈ as, t.isEof = false) (heof : eof.isEof = true)
    (hclean : (Program.ofTokens (as ++ [eof]) i).complaints = [])
    (helse : ∀ t ∈ rest.head?, t.kind ≠ .keyword .else_)
    (hm : Parse.fuelFor (as.length + 1) ≤ m) {k : Nat} (hk : as.length + k ≤ m) :
    ∃ k' j, k ≤ k' ∧ Parse.declarations m false ⟨as ++ rest, eof, i, []⟩ =
      Parse.prepend (Program.ofTokens (as ++ [eof]) i).statements
        (Parse.declarations k' false) ⟨rest, eof, j, []⟩ := by
  obtain ⟨d, hrun, hahead, hcomplaints, -⟩ := Program.declarations_of_clean hclean
  rw [Cursor.ofTokens_append has heof, List.length_append, List.length_singleton] at hrun
  obtain ⟨k', hk', hwhole⟩ := Parse.declarations_followedBy helse eof hrun hcomplaints hm hk
  have hplace : d.followedBy rest eof = ⟨rest, eof, d.made, []⟩ := by
    simp [Cursor.followedBy, hahead, hcomplaints]
  exact ⟨k', d.made, hk', by rw [← hplace]; exact hwhole⟩

theorem Program.declarations_around (hxs : Unended xs semicolon)
    (hinner : ∀ t ∈ xs.tail, Cursor.startsStatement t = false)
    (helse : ∀ t ∈ (xs ++ [semicolon]).head?, t.kind ≠ .keyword .else_) {i k : Nat} {d : Cursor}
    (hfails : Parse.declaration n ⟨xs ++ [semicolon], eof, k, []⟩ = .ok none d)
    (has : ∀ t ∈ as, t.isEof = false) (hbs : ∀ t ∈ bs, t.isEof = false) (heof : eof.isEof = true)
    (hclean : (Program.ofTokens (as ++ [eof]) i).complaints = [])
    (hm : Parse.fuelFor (as.length + xs.length + bs.length + 2) ≤ m) (l : Nat) :
    ∃ ss e, Parse.declarations m false ⟨as ++ (xs ++ [semicolon]) ++ bs, eof, i, []⟩ =
        .ok ((Program.ofTokens (as ++ [eof]) i).statements ++ ss) e ∧
      MirroredAll .anyIds (Program.ofTokens (bs ++ [eof]) l).statements ss ∧
      e.complaints = d.complaints ++ (Program.ofTokens (bs ++ [eof]) l).complaints := by
  have hhead : ∀ t ∈ (xs ++ [semicolon] ++ bs).head?, t.kind ≠ .keyword .else_ := by
    rwa [List.head?_append_of_ne_nil _ (by simp)]
  simp only [Parse.fuelFor] at hm
  -- the program is read as it would be alone
  obtain ⟨m, j, hm, hwhole⟩ := Program.declarations_after has heof hclean hhead (m := m)
    (k := Parse.fuelFor (xs.length + bs.length + 1) + 1) (by simp only [Parse.fuelFor]; omega)
    (by simp only [Parse.fuelFor]; omega)
  obtain ⟨m, rfl⟩ : ∃ m', m = m' + 1 := ⟨m - 1, by omega⟩
  -- the broken statement is skipped, and what follows is read with its complaints in hand
  obtain ⟨j', hbroken⟩ := Parse.declarations_broken hxs hinner hfails
    (Nat.le_of_succ_le_succ hm) eof j
  obtain ⟨ss, e, hrest, hafter, hcomplaints⟩ := Program.declarations_alike hbs heof
    (m := m) (by simp only [Parse.fuelFor] at hm ⊢; omega) l j'
  rw [hrest] at hbroken
  refine ⟨ss, e.carrying d.complaints, ?_, hafter, congrArg (d.complaints ++ ·) hcomplaints⟩
  rw [List.append_assoc as, hwhole, Parse.prepend, Parse.bind_of_ok hbroken]
  rfl

end Programs

theorem Cursor.startsStatement_eq_false {t : Token} (hfor : t.kind ≠ .keyword .for_)
    (h : t.kind ∉ [.keyword .class_, .keyword .fun_, .keyword .var, .keyword .if_,
      .keyword .while_, .keyword .print, .keyword .return_]) :
    Cursor.startsStatement t = false := by
  unfold Cursor.startsStatement
  split <;> simp_all

/-- A declaration was read that had a mistake in it. -/
def Reply.isDropped : Reply (Option Stmt) → Bool
  | .ok none _ => true
  | _ => false

theorem Reply.isDropped_iff {r : Reply (Option Stmt)} :
    r.isDropped = true ↔ ∃ d, r = .ok none d := by
  unfold Reply.isDropped
  split <;> simp_all

/-- Let a program be read without a report, let a statement that a semicolon ends be broken, and let
any tokens follow. Then the statements of the program and of what follows are all that is read, up
to the identities of nodes, and what is reported is what is reported of the broken statement alone
and then of what follows alone.

The broken statement holds no other semicolon, no brace, no `for` and no end of file, no keyword but
its first token starts a statement, and it does not begin with `else`. -/
theorem mistake_costs_its_statement {as xs bs : List Token} {semicolon eof : Token}
    (i j k l : Nat) (heof : eof.isEof = true) (has : ∀ t ∈ as, t.isEof = false)
    (hclean : (Program.ofTokens (as ++ [eof]) j).complaints = [])
    (hsemicolon : semicolon.kind = .symbol .semicolon)
    (hxs : ∀ t ∈ xs, t.kind ∉ [.symbol .semicolon, .symbol .leftBrace, .symbol .rightBrace,
      .keyword .for_, .eof])
    (hinner : ∀ t ∈ xs.tail, t.kind ∉ [.keyword .class_, .keyword .fun_, .keyword .var,
      .keyword .if_, .keyword .while_, .keyword .print, .keyword .return_])
    (helse : ∀ t ∈ (xs ++ [semicolon]).head?, t.kind ≠ .keyword .else_)
    (hfails : ∃ n, (Parse.declaration n
      (Cursor.ofTokens (xs ++ [semicolon] ++ [eof]) k)).isDropped = true)
    (hbs : ∀ t ∈ bs, t.isEof = false) :
    let whole := Program.ofTokens (as ++ (xs ++ [semicolon]) ++ bs ++ [eof]) i
    let before := Program.ofTokens (as ++ [eof]) j
    let broken := Program.ofTokens (xs ++ [semicolon] ++ [eof]) k
    let after := Program.ofTokens (bs ++ [eof]) l
    MirroredAll .anyIds (before.statements ++ after.statements) whole.statements ∧
      whole.complaints = broken.complaints ++ after.complaints := by
  have hunended : Unended xs semicolon :=
    ⟨hsemicolon, fun t ht h => hxs t ht (by simp [h]), fun t ht h => hxs t ht (by simp [h]),
      fun t ht h => hxs t ht (by simp [h])⟩
  have hstarts : ∀ t ∈ xs.tail, Cursor.startsStatement t = false := fun t ht =>
    Cursor.startsStatement_eq_false (hunended.noFor t (List.mem_of_mem_tail ht)) (hinner t ht)
  have hnot : ∀ t ∈ xs ++ [semicolon], t.isEof = false := by
    refine List.forall_mem_append.mpr ⟨fun t ht => ?_, List.forall_mem_singleton.mpr ?_⟩
    · exact beq_eq_false_iff_ne.mpr fun h => hxs t ht (by simp [h])
    · rw [Token.isEof, hsemicolon]
      rfl
  have hall : ∀ t ∈ as ++ (xs ++ [semicolon]) ++ bs, t.isEof = false :=
    List.forall_mem_append.mpr ⟨List.forall_mem_append.mpr ⟨has, hnot⟩, hbs⟩
  obtain ⟨n, hfails⟩ := hfails
  obtain ⟨d, hfails⟩ := Reply.isDropped_iff.mp hfails
  rw [Cursor.ofTokens_append hnot heof] at hfails
  -- the program is read in the same way from the identity `i` on
  have hbefore := Program.ofTokens_alike as heof j i
  have hclean' : (Program.ofTokens (as ++ [eof]) i).complaints = [] := by
    rw [Complaint.eq_of_anyIds hbefore.complaints, hclean]
  have hfuel : Parse.fuelFor (as.length + xs.length + bs.length + 2) ≤
      Parse.fuelFor (as ++ (xs ++ [semicolon]) ++ bs ++ [eof]).length := by
    simp only [Parse.fuelFor, List.length_append, List.length_singleton]
    omega
  obtain ⟨ss, e, hread, hafter, hcomplaints⟩ := Program.declarations_around hunended hstarts helse
    hfails has hbs heof hclean' hfuel l
  intro whole before broken after
  have hwhole : whole =
      ⟨(Program.ofTokens (as ++ [eof]) i).statements ++ ss, e.complaints, e.made⟩ := by
    show Program.ofTokens _ i = _
    rw [Program.ofTokens, Cursor.ofTokens_append hall heof, hread]
  have hbroken : broken.complaints = d.complaints :=
    Program.ofTokens_broken hunended hstarts hnot heof hfails
  rw [hwhole, hbroken]
  exact ⟨hbefore.statements.append hafter, hcomplaints⟩

/-- A declaration that breaks off at its semicolon, after an `if` and before an `else` that has no
`if` of its own. -/
theorem broken_variable_costs_itself :
    let before := tokensOnly "if (a) b;"
    let broken := tokensOnly "var x = (1 +"
    let after := tokensOnly "else c; print 2;"
    let semicolon : Token := ⟨.symbol .semicolon, ";", 1⟩
    let eof : Token := ⟨.eof, "", 1⟩
    let whole := Program.ofTokens (before ++ (broken ++ [semicolon]) ++ after ++ [eof]) 0
    whole.statements.length = 2 ∧
      whole.complaints = [⟨semicolon, .expected .expression⟩,
        ⟨⟨.keyword .else_, "else", 1⟩, .expected .expression⟩] ∧
      MirroredAll .anyIds ((Program.ofTokens (before ++ [eof]) 0).statements ++
        (Program.ofTokens (after ++ [eof]) 0).statements) whole.statements ∧
      whole.complaints = (Program.ofTokens (broken ++ [semicolon] ++ [eof]) 0).complaints ++
        (Program.ofTokens (after ++ [eof]) 0).complaints := by
  intro before broken after semicolon eof whole
  refine ⟨by decide +kernel, by decide +kernel, ?_⟩
  exact mistake_costs_its_statement 0 0 0 0 rfl (by decide +kernel) (by decide +kernel) rfl
    (by decide +kernel) (by decide +kernel) (by decide +kernel) ⟨200, by decide +kernel⟩
    (by decide +kernel)

end Lox
