import Lox.Proofs.Grammar.Recognition

/-!
# What readers see of later tokens

A reader that ends well has read some tokens and may have looked at the next one. Had other tokens
followed at the end of the input, it would have ended in the same place with the same result, unless
it had come to the end and looked at what follows there.

`Parse.Local` states this for three kinds of readers. An expression *peeks*: it ends where no
operator follows, so a token must be left for it to look at. A statement *spans*: it reads a token
at least, and its last token is one that it needs. The only statement that looks further is an `if`
without `else`; no `else` may follow. What lies between, such as the handing out of an identity,
*ends* without looking at all.

So the declarations of a program are read as before when other ones follow
(`Parse.declarations_followedBy`).
-/

namespace Lox

/-- The same place, with further tokens behind those ahead. -/
def Cursor.followedBy (c : Cursor) (us : List Token) (eof : Token) : Cursor :=
  { c with ahead := c.ahead ++ us, eof }

/-- How far a reader looks. -/
inductive Extent where
  | peeks
  | ends
  | spans

namespace Extent

/-- What is left at the end suffices. -/
def Suffices : Extent → Cursor → Prop
  | peeks, d => d.ahead ≠ []
  | ends, _ => True
  | spans, _ => True

/-- What was read in between. -/
def Reads : Extent → Cursor → Cursor → Prop
  | peeks, _, _ => True
  | ends, _, _ => True
  | spans, c, d => d.ahead.length < c.ahead.length

end Extent

theorem Cursor.Onward.ahead_ne_nil {c d : Cursor} (h : c.Onward d) (hd : d.ahead ≠ []) :
    c.ahead ≠ [] := by
  intro hc
  have hsuffix := h.ahead
  rw [hc, List.suffix_nil] at hsuffix
  exact hd hsuffix

namespace Parse

variable {α β : Type} (us : List Token) (eof : Token)

/-- Where `p` ends without a complaint, `p'` ends in the same way although further tokens follow.
The two are the same reader, where `p'` may have more fuel. -/
def Local (x : Extent) (p p' : Parse α) : Prop :=
  ∀ c, Spec True p c fun a d => d.complaints = c.complaints → x.Suffices d →
    x.Reads c d ∧ p' (c.followedBy us eof) = .ok a (d.followedBy us eof)

variable {us eof} {x y z : Extent} {p p' : Parse α} {f f' : α → Parse β}

/-! ### Putting readers together -/

theorem Local.bind_of (hp : Local us eof x p p') (hf : ∀ a, Local us eof y (f a) (f' a))
    (h : ∀ c mid d : Cursor, c.Onward mid → mid.Onward d → z.Suffices d →
      y.Suffices d ∧ (y.Reads mid d → x.Suffices mid ∧ (x.Reads c mid → z.Reads c d))) :
    Local us eof z (p >>= f) (p' >>= f') := by
  intro c
  refine Spec.bind (hp c) fun a mid hcm hmid => Spec.mono (hf a mid) fun b d hmd hd => ?_
  intro hclean hz
  obtain ⟨hfirst, hsecond⟩ := complaints_between hcm hmd hclean
  obtain ⟨hy, hreads⟩ := h c mid d hcm hmd hz
  obtain ⟨hlater, hsecondRun⟩ := hd hsecond hy
  obtain ⟨hx, hall⟩ := hreads hlater
  obtain ⟨hearlier, hfirstRun⟩ := hmid hfirst hx
  refine ⟨hall hearlier, ?_⟩
  show Parse.bind p' f' (c.followedBy us eof) = _
  rw [Parse.bind, hfirstRun]
  exact hsecondRun

/-- All that ends well also ends well with a token left to look at. -/
theorem Local.peeks (hp : Local us eof x p p') : Local us eof .peeks p p' := by
  refine fun c => Spec.mono (hp c) fun a d _ hd hclean hne => ⟨trivial, ?_⟩
  cases x with
  | peeks => exact (hd hclean hne).2
  | ends => exact (hd hclean trivial).2
  | spans => exact (hd hclean trivial).2

theorem Local.ends (hp : Local us eof .spans p p') : Local us eof .ends p p' :=
  fun c => Spec.mono (hp c) fun _ _ _ hd hclean _ => ⟨trivial, (hd hclean trivial).2⟩

/-- Inside of what is read, every reader has a token left to look at. -/
theorem Local.bind (hp : Local us eof x p p') (hf : ∀ a, Local us eof .peeks (f a) (f' a)) :
    Local us eof .peeks (p >>= f) (p' >>= f') :=
  hp.peeks.bind_of hf fun _ _ _ _ hmd hne =>
    ⟨hne, fun _ => ⟨hmd.ahead_ne_nil hne, fun _ => trivial⟩⟩

theorem Local.before (hp : Local us eof x p p') (hf : ∀ a, Local us eof .spans (f a) (f' a)) :
    Local us eof .spans (p >>= f) (p' >>= f') :=
  hp.peeks.bind_of hf fun _ _ _ hcm _ _ =>
    ⟨trivial, fun hread => ⟨List.ne_nil_of_length_pos (Nat.zero_lt_of_lt hread),
      fun _ => lt_of_lt_of_le hread hcm.length_le⟩⟩

/-- After the last token that is needed, nothing may look further. -/
theorem Local.andThen (hp : Local us eof .spans p p') (hf : ∀ a, Local us eof .ends (f a) (f' a)) :
    Local us eof .spans (p >>= f) (p' >>= f') :=
  hp.bind_of hf fun _ _ _ _ hmd _ =>
    ⟨trivial, fun _ => ⟨trivial, fun hread => lt_of_le_of_lt hmd.length_le hread⟩⟩

theorem Local.bindEnds (hp : Local us eof .ends p p') (hf : ∀ a, Local us eof .ends (f a) (f' a)) :
    Local us eof .ends (p >>= f) (p' >>= f') :=
  hp.bind_of hf fun _ _ _ _ _ _ => ⟨trivial, fun _ => ⟨trivial, fun _ => trivial⟩⟩

/-! ### Steps -/

theorem local_outOfFuel (p : Parse α) : Local us eof x outOfFuel p :=
  fun _ => spec_outOfFuel trivial

theorem local_failWith (what : Expected) (p : Parse α) : Local us eof x (failWith what) p :=
  fun _ => spec_failWith what

theorem local_pure (a : α) : Local us eof .ends (pure a) (pure a) :=
  fun _ => spec_pure fun _ _ => ⟨trivial, rfl⟩

theorem local_freshId : Local us eof .ends freshId freshId :=
  fun c => ⟨Cursor.onward_made (Nat.le_succ c.made), fun _ _ => ⟨trivial, rfl⟩⟩

theorem local_check (k : TokenKind) : Local us eof .peeks (check k) (check k) := by
  refine fun c => ⟨Cursor.Onward.refl c, fun _ hne => ⟨trivial, ?_⟩⟩
  obtain ⟨t, rest, heq⟩ := List.exists_cons_of_ne_nil hne
  simp only [check, Cursor.check, Cursor.followedBy, heq, List.cons_append]

theorem local_atClosing : Local us eof .peeks (atClosing true) (atClosing true) := by
  refine fun c => ⟨Cursor.Onward.refl c, fun _ hne => ⟨trivial, ?_⟩⟩
  obtain ⟨t, rest, heq⟩ := List.exists_cons_of_ne_nil hne
  simp only [atClosing, Cursor.check, Cursor.followedBy, heq, List.cons_append, List.isEmpty_cons]

theorem local_complain (t : Token) (e : ParseError) :
    Local us eof x (complain t e) (complain t e) := by
  refine fun c => ⟨Cursor.onward_complain c _, fun hclean => ?_⟩
  simp [Cursor.complain] at hclean

theorem local_checkArity (count : Nat) (e : ParseError) :
    Local us eof .ends (checkArity count e) (checkArity count e) := by
  intro c
  by_cases hcount : maxArity ≤ count
  · simp only [Spec, checkArity, if_pos hcount]
    refine ⟨Cursor.onward_complain c _, fun hclean => ?_⟩
    simp [Cursor.complain] at hclean
  · simp only [Spec, checkArity, if_neg hcount]
    exact ⟨Cursor.Onward.refl c, fun _ _ => ⟨trivial, rfl⟩⟩

/-- At the end nothing is accepted. Before it, the next token decides, whatever follows. -/
theorem acceptIf_cases (us : List Token) (eof : Token) (test : TokenKind → Bool) (c : Cursor) :
    c.ahead = [] ∧ acceptIf test c = .ok none c ∨
      ∃ r d, c.Onward d ∧ (r = none ∨ d.ahead.length < c.ahead.length) ∧
        acceptIf test c = .ok r d ∧
        acceptIf test (c.followedBy us eof) = .ok r (d.followedBy us eof) := by
  cases hahead : c.ahead with
  | nil => exact .inl ⟨rfl, by rw [acceptIf, hahead]⟩
  | cons t rest =>
    right
    simp only [acceptIf, Cursor.followedBy, hahead, List.cons_append]
    split_ifs
    · refine ⟨some t, _, Cursor.onward_ahead ?_, .inr (Nat.lt_succ_self _), rfl, rfl⟩
      rw [hahead]
      exact List.suffix_cons t rest
    · exact ⟨none, c, Cursor.Onward.refl c, .inl rfl, rfl, by rw [hahead, List.cons_append]⟩

theorem local_acceptIf (test : TokenKind → Bool) :
    Local us eof .peeks (acceptIf test) (acceptIf test) := by
  intro c
  obtain ⟨hnil, hrun⟩ | ⟨r, d, hcd, -, hrun, hfollowed⟩ := acceptIf_cases us eof test c
  · rw [Spec, hrun]
    exact ⟨Cursor.Onward.refl c, fun _ hne => absurd hnil hne⟩
  · rw [Spec, hrun]
    exact ⟨hcd, fun _ _ => ⟨trivial, hfollowed⟩⟩

theorem local_accept (k : TokenKind) : Local us eof .peeks (accept k) (accept k) :=
  local_acceptIf _

theorem local_acceptIf_of_head? {test : TokenKind → Bool}
    (hus : ∀ t ∈ us.head?, test t.kind = false) :
    Local us eof .ends (acceptIf test) (acceptIf test) := by
  intro c
  obtain ⟨hnil, hrun⟩ | ⟨r, d, hcd, -, hrun, hfollowed⟩ := acceptIf_cases us eof test c
  · rw [Spec, hrun]
    refine ⟨Cursor.Onward.refl c, fun _ _ => ⟨trivial, ?_⟩⟩
    simp only [acceptIf, Cursor.followedBy, hnil, List.nil_append]
    cases us with
    | nil => rfl
    | cons t rest => exact if_neg (by simp [hus t rfl])
  · rw [Spec, hrun]
    exact ⟨hcd, fun _ _ => ⟨trivial, hfollowed⟩⟩

theorem local_accept_of_head? {k : TokenKind} (hus : ∀ t ∈ us.head?, t.kind ≠ k) :
    Local us eof .ends (accept k) (accept k) :=
  local_acceptIf_of_head? fun t ht => beq_eq_false_iff_ne.mpr (hus t ht)

/-- Without the token, what is read instead must span. -/
theorem local_accept_spans {k : TokenKind} {f f' : Option Token → Parse β}
    (hnone : Local us eof .spans (f none) (f' none))
    (hsome : ∀ t, Local us eof .ends (f (some t)) (f' (some t))) :
    Local us eof .spans (accept k >>= f) (accept k >>= f') := by
  intro c
  have hfollow : ∀ {r : Option Token} {d e : Cursor} {b : β},
      acceptIf (· == k) (c.followedBy us eof) = .ok r (d.followedBy us eof) →
      f' r (d.followedBy us eof) = .ok b (e.followedBy us eof) →
      (accept k >>= f') (c.followedBy us eof) = .ok b (e.followedBy us eof) := by
    intro r d e b hrun hrest
    show Parse.bind (acceptIf _) f' (c.followedBy us eof) = _
    rw [Parse.bind, hrun]
    exact hrest
  obtain ⟨hnil, hrun⟩ | ⟨r, d, hcd, hread, hrun, hfollowed⟩ := acceptIf_cases us eof (· == k) c
  · refine spec_bind_of_ok hrun (Cursor.Onward.refl c) (Spec.mono (hnone c) ?_)
    intro b e _ he hclean _
    have hless := (he hclean trivial).1
    simp [Extent.Reads, hnil] at hless
  · refine spec_bind_of_ok hrun hcd ?_
    cases r with
    | none =>
      refine Spec.mono (hnone d) fun b e hde he hclean _ => ?_
      obtain ⟨hless, hrest⟩ := he (complaints_between hcd hde hclean).2 trivial
      exact ⟨lt_of_lt_of_le hless hcd.length_le, hfollow hfollowed hrest⟩
    | some t =>
      refine Spec.mono (hsome t d) fun b e hde he hclean _ => ?_
      obtain ⟨-, hrest⟩ := he (complaints_between hcd hde hclean).2 trivial
      have hless : d.ahead.length < c.ahead.length := by simpa using hread
      exact ⟨lt_of_le_of_lt hde.length_le hless, hfollow hfollowed hrest⟩

theorem local_expect (k : TokenKind) (what : Expected) :
    Local us eof .spans (expect k what) (expect k what) :=
  local_accept_spans (local_failWith what _) fun t => local_pure t

theorem local_recover (hp : Local us eof .spans p p') :
    Local us eof .spans (recover p) (recover p') := by
  intro c
  have hend := hp c
  unfold Spec at hend ⊢
  unfold recover
  cases hrun : p c with
  | ok a d =>
    rw [hrun] at hend
    refine ⟨hend.1, fun hclean hd => ?_⟩
    obtain ⟨hc, hfollowed⟩ := hend.2 hclean hd
    exact ⟨hc, by rw [hfollowed]⟩
  | fail e d =>
    rw [hrun] at hend
    have hafter := Cursor.onward_synchronize (d.complain e)
    refine ⟨hend.trans ((Cursor.onward_complain d e).trans hafter), fun hclean => ?_⟩
    have hdone := (complaints_between (hend.trans (Cursor.onward_complain d e)) hafter hclean).1
    have hlength := congrArg List.length hdone
    have hbefore := hend.complaints.length_le
    simp only [Cursor.complain, List.length_append, List.length_singleton] at hlength
    omega
  | outOfFuel => trivial

/-! ### Expressions -/

theorem superAccess_local (keyword : Token) :
    Local us eof .spans (superAccess keyword) (superAccess keyword) :=
  (local_expect _ _).before fun _ => (local_expect _ _).andThen fun _ =>
    local_freshId.bindEnds fun _ => local_pure _

theorem property_local (object : Expr) : Local us eof .spans (property object) (property object) :=
  (local_expect _ _).andThen fun _ => local_freshId.bindEnds fun _ => local_pure _

theorem assignment_local (target : Expr) (equals : Token) (value : Expr) :
    Local us eof .ends (assignment target equals value) (assignment target equals value) := by
  unfold assignment
  split
  · exact local_freshId.bindEnds fun _ => local_pure _
  · exact local_freshId.bindEnds fun _ => local_pure _
  · exact (local_complain _ _).bindEnds fun _ => local_pure _

/-- Expressions peek. -/
structure ExpressionLocal (us : List Token) (eof : Token) (n n' : Nat) : Prop where
  expression : Local us eof .peeks (expression n) (expression n')
  chain (l : Level) : Local us eof .peeks (chain n l) (chain n' l)
  chainRest (l : Level) (left : Expr) :
    Local us eof .peeks (chainRest n l left) (chainRest n' l left)
  operand (l : Level) : Local us eof .peeks (operand n l) (operand n' l)
  unary : Local us eof .peeks (unary n) (unary n')
  callRest (e : Expr) : Local us eof .peeks (callRest n e) (callRest n' e)
  arguments : Local us eof .peeks (arguments n) (arguments n')
  argumentsFrom (count : Nat) :
    Local us eof .peeks (argumentsFrom n count) (argumentsFrom n' count)
  primary : Local us eof .peeks (primary n) (primary n')

variable {n n' : Nat}

theorem expression_local (ih : ExpressionLocal us eof n n') :
    Local us eof .peeks (expression (n + 1)) (expression (n' + 1)) := by
  refine (ih.chain .or).bind fun target => (local_accept _).bind fun r => ?_
  cases r with
  | none => exact (local_pure _).peeks
  | some equals =>
    exact ih.expression.bind fun value => (assignment_local target equals value).peeks

theorem chainRest_local (ih : ExpressionLocal us eof n n') (l : Level) (left : Expr) :
    Local us eof .peeks (chainRest (n + 1) l left) (chainRest (n' + 1) l left) := by
  refine (local_acceptIf _).bind fun r => ?_
  cases r with
  | none => exact (local_pure _).peeks
  | some op => exact (ih.operand l).bind fun _ => local_freshId.bind fun _ => ih.chainRest l _

theorem operand_local (ih : ExpressionLocal us eof n n') (l : Level) :
    Local us eof .peeks (operand (n + 1) l) (operand (n' + 1) l) := by
  unfold operand
  split
  · exact ih.chain _
  · exact ih.unary

theorem unary_local (ih : ExpressionLocal us eof n n') :
    Local us eof .peeks (unary (n + 1)) (unary (n' + 1)) := by
  refine (local_acceptIf _).bind fun r => ?_
  cases r with
  | none => exact ih.primary.bind fun e => ih.callRest e
  | some op => exact ih.unary.bind fun _ => local_freshId.bind fun _ => (local_pure _).peeks

theorem callRest_local (ih : ExpressionLocal us eof n n') (e : Expr) :
    Local us eof .peeks (callRest (n + 1) e) (callRest (n' + 1) e) := by
  refine (local_accept _).bind fun r => ?_
  cases r with
  | some _ =>
    exact ih.arguments.bind fun _ => (local_expect _ _).bind fun _ => local_freshId.bind fun _ =>
      ih.callRest _
  | none =>
    refine (local_accept _).bind fun r => ?_
    cases r with
    | some _ => exact (property_local e).bind fun object => ih.callRest object
    | none => exact (local_pure _).peeks

theorem arguments_local (ih : ExpressionLocal us eof n n') :
    Local us eof .peeks (arguments (n + 1)) (arguments (n' + 1)) := by
  refine (local_check _).bind fun b => ?_
  cases b with
  | true => exact (local_pure _).peeks
  | false => exact ih.argumentsFrom 0

theorem argumentsFrom_local (ih : ExpressionLocal us eof n n') (count : Nat) :
    Local us eof .peeks (argumentsFrom (n + 1) count) (argumentsFrom (n' + 1) count) := by
  refine (local_checkArity _ _).bind fun _ => ih.expression.bind fun _ =>
    (local_accept _).bind fun r => ?_
  cases r with
  | none => exact (local_pure _).peeks
  | some _ => exact (ih.argumentsFrom (count + 1)).bind fun _ => (local_pure _).peeks

theorem primary_local (ih : ExpressionLocal us eof n n') :
    Local us eof .peeks (primary (n + 1)) (primary (n' + 1)) := by
  have hnode : ∀ make : NodeId → Expr, Local us eof .peeks (freshId >>= fun id => pure (make id))
      (freshId >>= fun id => pure (make id)) :=
    fun make => local_freshId.bind fun _ => (local_pure _).peeks
  refine (local_acceptIf _).bind fun r => ?_
  cases r with
  | some t => exact hnode _
  | none =>
  refine (local_accept _).bind fun r => ?_
  cases r with
  | some keyword => exact (superAccess_local keyword).peeks
  | none =>
  refine (local_accept _).bind fun r => ?_
  cases r with
  | some keyword => exact hnode _
  | none =>
  refine (local_accept _).bind fun r => ?_
  cases r with
  | some name => exact hnode _
  | none =>
  refine (local_accept _).bind fun r => ?_
  cases r with
  | some _ => exact ih.expression.bind fun _ => (local_expect _ _).bind fun _ => hnode _
  | none => exact local_failWith _ _

theorem expressionLocal (us : List Token) (eof : Token) {n n' : Nat} (h : n ≤ n') :
    ExpressionLocal us eof n n' := by
  induction n generalizing n' with
  | zero =>
    exact ⟨local_outOfFuel _, fun _ => local_outOfFuel _, fun _ _ => local_outOfFuel _,
      fun _ => local_outOfFuel _, local_outOfFuel _, fun _ => local_outOfFuel _,
      local_outOfFuel _, fun _ => local_outOfFuel _, local_outOfFuel _⟩
  | succ n hn =>
    cases n' with
    | zero => omega
    | succ n' =>
      have ih := hn (show n ≤ n' by omega)
      exact
        { expression := expression_local ih
          chain := fun l => (ih.operand l).bind fun left => ih.chainRest l left
          chainRest := chainRest_local ih
          operand := operand_local ih
          unary := unary_local ih
          callRest := callRest_local ih
          arguments := arguments_local ih
          argumentsFrom := argumentsFrom_local ih
          primary := primary_local ih }

/-! ### Statements without parts of their own kind -/

section Plain

variable (h : n ≤ n')

include h

theorem expressionUnless_local (k : TokenKind) :
    Local us eof .peeks (expressionUnless n k) (expressionUnless n' k) := by
  refine (local_check _).bind fun b => ?_
  cases b with
  | true => exact (local_pure _).peeks
  | false => exact (expressionLocal us eof h).expression.bind fun _ => (local_pure _).peeks

theorem varDeclaration_local : Local us eof .spans (varDeclaration n) (varDeclaration n') := by
  refine (local_expect _ _).before fun name => local_accept_spans ?_ fun t => Local.ends ?_
  · exact (local_expect _ _).andThen fun _ => local_pure _
  · exact (expressionLocal us eof h).expression.before fun _ =>
      (local_expect _ _).andThen fun _ => local_pure _

theorem expressionStatement_local :
    Local us eof .spans (expressionStatement n) (expressionStatement n') :=
  (expressionLocal us eof h).expression.before fun _ =>
    (local_expect _ _).andThen fun _ => local_pure _

theorem printStatement_local : Local us eof .spans (printStatement n) (printStatement n') :=
  (expressionLocal us eof h).expression.before fun _ =>
    (local_expect _ _).andThen fun _ => local_pure _

theorem returnStatement_local (keyword : Token) :
    Local us eof .spans (returnStatement n keyword) (returnStatement n' keyword) :=
  (expressionUnless_local h _).before fun _ => (local_expect _ _).andThen fun _ => local_pure _

theorem forInit_local : Local us eof .spans (forInit n) (forInit n') := by
  refine local_accept_spans ?_ fun _ => local_pure _
  refine local_accept_spans ?_ fun _ => Local.ends ?_
  · exact (expressionStatement_local h).andThen fun _ => local_pure _
  · exact (varDeclaration_local h).andThen fun _ => local_pure _

theorem forClauses_local : Local us eof .spans (forClauses n) (forClauses n') :=
  (local_expect _ _).before fun _ => (forInit_local h).before fun _ =>
    (expressionUnless_local h _).before fun _ => (local_expect _ _).before fun _ =>
      (expressionUnless_local h _).before fun _ => (local_expect _ _).andThen fun _ => local_pure _

theorem condition_local (opening closing : Expected) :
    Local us eof .spans (condition n opening closing) (condition n' opening closing) :=
  (local_expect _ _).before fun _ => (expressionLocal us eof h).expression.before fun _ =>
    (local_expect _ _).andThen fun _ => local_pure _

theorem parametersFrom_local (count : Nat) :
    Local us eof .peeks (parametersFrom n count) (parametersFrom n' count) := by
  induction n generalizing n' count with
  | zero => exact local_outOfFuel _
  | succ n ih =>
    cases n' with
    | zero => omega
    | succ n' =>
      refine (local_checkArity _ _).bind fun _ => (local_expect _ _).bind fun _ =>
        (local_accept _).bind fun r => ?_
      cases r with
      | none => exact (local_pure _).peeks
      | some _ => exact (ih (by omega) (count + 1)).bind fun _ => (local_pure _).peeks

theorem functionHead_local (sort : FunctionSort) :
    Local us eof .spans (functionHead n sort) (functionHead n' sort) := by
  have hparams : Local us eof .peeks (parameters n) (parameters n') := by
    refine (local_check _).bind fun b => ?_
    cases b with
    | true => exact (local_pure _).peeks
    | false => exact parametersFrom_local h 0
  exact (local_expect _ _).before fun _ => (local_expect _ _).before fun _ =>
    hparams.before fun _ => (local_expect _ _).before fun _ => (local_expect _ _).andThen fun _ =>
      local_pure _

end Plain

theorem conditionOrTrue_local (cond : Option Expr) :
    Local us eof .ends (conditionOrTrue cond) (conditionOrTrue cond) := by
  cases cond with
  | some e => exact local_pure e
  | none => exact local_freshId.bindEnds fun _ => local_pure _

theorem superclass_local : Local us eof .peeks superclass superclass := by
  refine (local_accept _).bind fun r => ?_
  cases r with
  | some _ =>
    exact (local_expect _ _).bind fun _ => local_freshId.bind fun _ => (local_pure _).peeks
  | none => exact (local_pure _).peeks

/-! ### Declarations and statements -/

/-- Declarations and statements span, and lists of them in braces peek. -/
structure DeclarationLocal (us : List Token) (eof : Token) (n n' : Nat) : Prop where
  declaration : Local us eof .spans (declaration n) (declaration n')
  classDeclaration : Local us eof .spans (classDeclaration n) (classDeclaration n')
  methods : Local us eof .peeks (methods n) (methods n')
  function (sort : FunctionSort) : Local us eof .spans (function n sort) (function n' sort)
  statement : Local us eof .spans (statement n) (statement n')
  block : Local us eof .spans (block n) (block n')
  declarations : Local us eof .peeks (declarations n true) (declarations n' true)

theorem declaration_local (h : n ≤ n') (ih : DeclarationLocal us eof n n') :
    Local us eof .spans (declaration (n + 1)) (declaration (n' + 1)) := by
  refine local_recover (local_accept_spans ?_ fun _ => ih.classDeclaration.ends)
  refine local_accept_spans ?_ fun _ => Local.ends ?_
  · exact local_accept_spans ih.statement fun _ => (varDeclaration_local h).ends
  · exact (ih.function .function).andThen fun _ => local_pure _

theorem classDeclaration_local (ih : DeclarationLocal us eof n n') :
    Local us eof .spans (classDeclaration (n + 1)) (classDeclaration (n' + 1)) :=
  (local_expect _ _).before fun _ => superclass_local.before fun _ =>
    (local_expect _ _).before fun _ => ih.methods.before fun _ =>
      (local_expect _ _).andThen fun _ => local_pure _

theorem methods_local (ih : DeclarationLocal us eof n n') :
    Local us eof .peeks (methods (n + 1)) (methods (n' + 1)) := by
  refine local_atClosing.bind fun b => ?_
  cases b with
  | true => exact (local_pure _).peeks
  | false => exact (ih.function .method).bind fun _ => ih.methods.bind fun _ =>
      (local_pure _).peeks

theorem statement_local (helse : ∀ t ∈ us.head?, t.kind ≠ .keyword .else_) (h : n ≤ n')
    (ih : DeclarationLocal us eof n n') :
    Local us eof .spans (statement (n + 1)) (statement (n' + 1)) := by
  refine local_accept_spans ?_ fun _ => Local.ends ?_
  swap
  · exact (forClauses_local h).before fun _ => ih.statement.andThen fun _ =>
      (conditionOrTrue_local _).bindEnds fun _ => local_pure _
  refine local_accept_spans ?_ fun _ => Local.ends ?_
  swap
  · refine (condition_local h _ _).before fun cond => ih.statement.andThen fun thenBranch =>
      (local_accept_of_head? helse).bindEnds fun r => ?_
    cases r with
    | some _ => exact (ih.statement.andThen fun _ => local_pure _).ends
    | none => exact local_pure _
  refine local_accept_spans ?_ fun _ => Local.ends ?_
  swap
  · exact (condition_local h _ _).before fun _ => ih.statement.andThen fun _ => local_pure _
  refine local_accept_spans ?_ fun keyword => (returnStatement_local h keyword).ends
  refine local_accept_spans ?_ fun _ => Local.ends ?_
  swap
  · exact ih.block.andThen fun _ => local_pure _
  exact local_accept_spans (expressionStatement_local h) fun _ => (printStatement_local h).ends

theorem declarations_local (ih : DeclarationLocal us eof n n') :
    Local us eof .peeks (declarations (n + 1) true) (declarations (n' + 1) true) := by
  refine local_atClosing.bind fun b => ?_
  cases b with
  | true => exact (local_pure _).peeks
  | false => exact ih.declaration.bind fun _ => ih.declarations.bind fun _ =>
      (local_pure _).peeks

theorem declarationLocal (helse : ∀ t ∈ us.head?, t.kind ≠ .keyword .else_) (eof : Token)
    {n n' : Nat} (h : n ≤ n') : DeclarationLocal us eof n n' := by
  induction n generalizing n' with
  | zero =>
    exact ⟨local_outOfFuel _, local_outOfFuel _, local_outOfFuel _, fun _ => local_outOfFuel _,
      local_outOfFuel _, local_outOfFuel _, local_outOfFuel _⟩
  | succ n hn =>
    cases n' with
    | zero => omega
    | succ n' =>
      have hle : n ≤ n' := by omega
      have ih := hn hle
      exact
        { declaration := declaration_local hle ih
          classDeclaration := classDeclaration_local ih
          methods := methods_local ih
          function := fun sort => (functionHead_local hle sort).before fun _ =>
            ih.block.andThen fun _ => local_pure _
          statement := statement_local helse hle ih
          block := ih.declarations.before fun _ =>
            (local_expect _ _).andThen fun _ => local_pure _
          declarations := declarations_local ih }

/-! ### Programs -/

variable {c d mid : Cursor}

theorem bind_eq_ok {b : β} (h : (p >>= f) c = .ok b d) :
    ∃ a mid, p c = .ok a mid ∧ f a mid = .ok b d := by
  change Parse.bind p f c = _ at h
  unfold Parse.bind at h
  cases hp : p c with
  | ok a mid =>
    rw [hp] at h
    exact ⟨a, mid, rfl, h⟩
  | fail e mid => simp [hp] at h
  | outOfFuel => simp [hp] at h

theorem bind_of_ok {a : α} (h : p c = .ok a mid) : (p >>= f) c = f a mid := by
  show Parse.bind p f c = _
  rw [Parse.bind, h]

/-- Statements that were read before others. -/
def prepend (ss : List Stmt) (p : Parse (List Stmt)) : Parse (List Stmt) := do
  let rest ← p
  return ss ++ rest

theorem prepend_nil (p : Parse (List Stmt)) : prepend [] p = p := by
  funext c
  show Parse.bind p _ c = p c
  unfold Parse.bind
  cases p c <;> rfl

theorem prepend_prepend (ss ss' : List Stmt) (p : Parse (List Stmt)) :
    prepend ss (prepend ss' p) = prepend (ss ++ ss') p := by
  funext c
  show Parse.bind (Parse.bind p _) _ c = Parse.bind p _ c
  unfold Parse.bind
  cases p c with
  | ok rest d => exact congrArg (Reply.ok · d) (List.append_assoc ss ss' rest).symm
  | fail e d => rfl
  | outOfFuel => rfl

theorem prepend_eq_ok {ss all : List Stmt} {p : Parse (List Stmt)}
    (h : prepend ss p c = .ok all d) : ∃ rest, p c = .ok rest d ∧ ss ++ rest = all := by
  obtain ⟨rest, d', hp, hpure⟩ := bind_eq_ok h
  cases hpure
  exact ⟨rest, hp, rfl⟩

theorem prepend_congr {ss : List Stmt} {p q : Parse (List Stmt)} (h : p c = q d) :
    prepend ss p c = prepend ss q d := by
  show Parse.bind _ _ _ = Parse.bind _ _ _
  rw [Parse.bind, Parse.bind, h]

theorem declarations_end (h : c.ahead = []) : declarations (n + 1) false c = .ok [] c := by
  show (if c.ahead.isEmpty || (false && _) then pure [] else _ : Parse (List Stmt)) c = _
  rw [h]
  rfl

theorem declarations_step (hne : c.ahead ≠ []) :
    declarations (n + 1) false c =
      (declaration n >>= fun first => prepend first.toList (declarations n false)) c := by
  show (if c.ahead.isEmpty || (false && _) then pure [] else _ : Parse (List Stmt)) c = _
  rw [if_neg (by simpa using hne)]
  rfl

theorem declarations_onward (n : Nat) (c : Cursor) :
    Spec True (declarations n false) c fun _ _ => True := by
  induction n generalizing c with
  | zero => exact spec_outOfFuel trivial
  | succ n ih =>
    refine spec_atClosing ?_
    split_ifs
    · exact spec_pure trivial
    · have hnone : ∀ t ∈ ([] : List Token).head?, t.kind ≠ .keyword .else_ := by simp
      have hfirst := (declarationLocal hnone c.eof (le_refl n)).declaration c
      refine Spec.bind hfirst fun first mid _ _ => Spec.bind (ih mid) fun _ _ _ _ => ?_
      exact spec_pure trivial

/-- Declarations that are read without a complaint up to the end of the input are read in the same
way if others follow, and fuel is left for these. -/
theorem declarations_followedBy (helse : ∀ t ∈ us.head?, t.kind ≠ .keyword .else_) (eof : Token)
    {ss : List Stmt} (hrun : declarations n false c = .ok ss d)
    (hclean : d.complaints = c.complaints) (hn : n ≤ n') {m : Nat}
    (hm : c.ahead.length + m ≤ n') :
    ∃ k, m ≤ k ∧ declarations n' false (c.followedBy us eof) =
      prepend ss (declarations k false) (d.followedBy us eof) := by
  induction n generalizing n' c ss with
  | zero => simp [declarations, outOfFuel] at hrun
  | succ n ih =>
    by_cases hend : c.ahead = []
    · rw [declarations_end hend, Reply.ok.injEq] at hrun
      obtain ⟨rfl, rfl⟩ := hrun
      exact ⟨n', by omega, by rw [prepend_nil]⟩
    · cases n' with
      | zero => omega
      | succ n' =>
        rw [declarations_step hend] at hrun
        obtain ⟨first, mid, hfirst, hlast⟩ := bind_eq_ok hrun
        obtain ⟨rest, hrest, rfl⟩ := prepend_eq_ok hlast
        have hlocal := (declarationLocal helse eof (Nat.le_of_succ_le_succ hn)).declaration
        obtain ⟨hcm, hfirstLocal⟩ := (hlocal c).of_ok hfirst
        obtain ⟨hmd, -⟩ := (declarations_onward n mid).of_ok hrest
        obtain ⟨hclean₁, hclean₂⟩ := complaints_between hcm hmd hclean
        obtain ⟨hread, hfollowed⟩ := hfirstLocal hclean₁ trivial
        simp only [Extent.Reads] at hread
        have hless : mid.ahead.length + m ≤ n' := by omega
        obtain ⟨k, hk, hlater⟩ := ih hrest hclean₂ (Nat.le_of_succ_le_succ hn) hless
        refine ⟨k, hk, ?_⟩
        have hne : (c.followedBy us eof).ahead ≠ [] := by simp [Cursor.followedBy, hend]
        calc declarations (n' + 1) false (c.followedBy us eof)
            = prepend first.toList (declarations n' false) (mid.followedBy us eof) := by
              rw [declarations_step hne, bind_of_ok hfollowed]
          _ = prepend first.toList (prepend rest (declarations k false)) (d.followedBy us eof) :=
              prepend_congr hlater
          _ = prepend (first.toList ++ rest) (declarations k false) (d.followedBy us eof) := by
              rw [prepend_prepend]

end Parse

end Lox
