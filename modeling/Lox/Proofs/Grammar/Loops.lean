import Lox.Proofs.Grammar.Clauses
import Lox.Proofs.Mirror.SameText

/-!
# What a `for` loop is short for

A `for` loop is read as its expansion is: a `while` loop, with the third clause at the end of its
body and the first clause in front of it. The expansion is stated on the tokens
(`LoopClauses.expansion`), so that this is a statement about two texts and what they are read as.

The clauses stand in other places of the two texts. The first one ends a declaration of a block in
one text and a clause in the other, and the body is in front of a brace, of an expression or of
nothing. `ReadsAsStmt.declaration` and `ReadsAsExpr.expression` say that this does not matter.
-/

namespace Lox

/-! ### Readers of statements -/

theorem Begins.of_expression {w : Word} (h : Begins opensExpression w) :
    Begins opensStatement w := by
  refine h.mono fun k hk => ?_
  unfold opensStatement
  split <;> trivial

theorem Begins.of_statement {w : Word} (h : Begins opensStatement w) :
    Begins opensDeclaration w := by
  refine h.mono fun k hk => ?_
  unfold opensDeclaration
  split <;> trivial

namespace Parse

section

variable {s body : Stmt} {ss : List Stmt} {cond e : Expr} {ts us vs rest : List Token}
  {keyword opening closing semicolon : Token}

theorem declaration_yields (hbegins : Begins opensStatement (ts.map Token.kind))
    (h : Yields (s.Mirrored .sameText) statement ts us) :
    Yields (Option.Rel (Stmt.Mirrored .sameText) (some s)) declaration ts us := by
  refine Yields.succ (yields_recover (Q := s.Mirrored .sameText) ?_ fun _ => .some)
  refine yields_accept_none (hbegins.head?_ne rfl) ?_
  refine yields_accept_none (hbegins.head?_ne rfl) ?_
  exact yields_accept_none (hbegins.head?_ne rfl) h

theorem yields_atClosing {α : Type} {R : α → Prop} {f : Nat → Bool → Parse α} {t : Token} {b : Bool}
    (ht : (b = true ↔ t.kind = .symbol .rightBrace))
    (hf : Yields R (fun n => f n b) (t :: ts) us) :
    Yields R (fun n => atClosing true >>= f n) (t :: ts) us := by
  refine hf.of_gives fun i a j => gives_step fun eof complaints => ?_
  have hb : b = (t.kind == .symbol .rightBrace) := by
    rw [Bool.eq_iff_iff, ht, beq_iff_eq]
  rw [hb]
  rfl

theorem declarations_yields_nil (hclosing : closing.kind = .symbol .rightBrace) :
    Yields (MirroredAll .sameText []) (declarations · true) (closing :: rest)
      (closing :: rest) := by
  refine Yields.succ ?_
  simp only [declarations]
  exact yields_atClosing (b := true) (by simp [hclosing]) (yields_pure .nil)

theorem declarations_yields_cons (hbegins : Begins opensDeclaration (ts.map Token.kind))
    (h : Yields (Option.Rel (Stmt.Mirrored .sameText) (some s)) declaration ts us)
    (hrest : Yields (MirroredAll .sameText ss) (declarations · true) us vs) :
    Yields (MirroredAll .sameText (s :: ss)) (declarations · true) ts vs := by
  cases ts with
  | nil => exact absurd rfl hbegins.ne_nil
  | cons t ts =>
    have ht : t.kind ≠ .symbol .rightBrace := fun hkind =>
      hbegins.head?_ne (k := .symbol .rightBrace) rfl (by simp [hkind])
    refine Yields.succ ?_
    simp only [declarations]
    refine yields_atClosing (b := false) (by simp [ht]) ?_
    refine h.bind fun first hfirst => hrest.bind fun rest hrest => ?_
    cases hfirst with
    | some hs => exact yields_pure (.cons hs hrest)

theorem statement_yields_block (hopening : opening.kind = .symbol .leftBrace)
    (hclosing : closing.kind = .symbol .rightBrace)
    (h : Yields (MirroredAll .sameText ss) (declarations · true) ts (closing :: rest)) :
    Yields ((Stmt.block ss).Mirrored .sameText) statement (opening :: ts) rest := by
  have hblock : Yields (MirroredAll .sameText ss) block ts rest := by
    refine Yields.succ (h.bind fun body hbody => ?_)
    exact yields_expect hclosing (yields_pure hbody)
  refine Yields.succ ?_
  simp only [statement]
  iterate 4 refine yields_accept_none (by simp [hopening]) ?_
  exact yields_accept_some hopening (hblock.bind fun body hbody => yields_pure (.block hbody))

theorem statement_yields_while (hkeyword : keyword.kind = .keyword .while_)
    (hopening : opening.kind = .symbol .leftParen) (hclosing : closing.kind = .symbol .rightParen)
    (hcond : Yields (cond.Mirrored .sameText) expression ts (closing :: us))
    (hbody : Yields (body.Mirrored .sameText) statement us rest) :
    Yields ((Stmt.while_ cond body).Mirrored .sameText) statement (keyword :: opening :: ts)
      rest := by
  have hcondition : Yields (cond.Mirrored .sameText)
      (condition · .whileCondition .whileConditionEnd) (opening :: ts) us := by
    refine yields_expect hopening (hcond.bind fun cond' hcond' => ?_)
    exact yields_expect hclosing (yields_pure hcond')
  refine Yields.succ ?_
  simp only [statement]
  iterate 2 refine yields_accept_none (by simp [hkeyword]) ?_
  refine yields_accept_some hkeyword (hcondition.bind fun cond' hcond' => ?_)
  exact hbody.bind fun body' hbody' => yields_pure (.while_ hcond' hbody')

theorem statement_yields_expression (hbegins : Begins opensExpression (ts.map Token.kind))
    (hsemicolon : semicolon.kind = .symbol .semicolon)
    (h : Yields (e.Mirrored .sameText) expression ts (semicolon :: rest)) :
    Yields ((Stmt.expression e).Mirrored .sameText) statement ts rest := by
  refine Yields.succ ?_
  simp only [statement]
  iterate 6 refine yields_accept_none (hbegins.head?_ne rfl) ?_
  exact h.bind fun e' he' => yields_expect hsemicolon (yields_pure (.expression he'))

/-- The condition that a loop without one has. -/
def conditionOf (cond : Option Expr) : Expr := cond.getD (.literal 0 (.bool true))

theorem conditionOrTrue_yields {cond cond' : Option Expr}
    (h : Option.Rel (Expr.Mirrored .sameText) cond cond') :
    Yields ((conditionOf cond).Mirrored .sameText) (fun _ => conditionOrTrue cond') ts ts := by
  cases h with
  | none => exact yields_freshId fun id => yields_pure (.literal trivial _)
  | some he => exact yields_pure he

theorem statement_yields_for {init : Option Stmt} {cond step : Option Expr}
    {ts₁ ts₂ ts₃ ts₄ : List Token} (hkeyword : keyword.kind = .keyword .for_)
    (hopening : opening.kind = .symbol .leftParen)
    (hsemicolon : semicolon.kind = .symbol .semicolon)
    (hclosing : closing.kind = .symbol .rightParen)
    (hinit : Yields (Option.Rel (Stmt.Mirrored .sameText) init) forInit ts₁ ts₂)
    (hcond : Yields (Option.Rel (Expr.Mirrored .sameText) cond)
      (expressionUnless · (.symbol .semicolon)) ts₂ (semicolon :: ts₃))
    (hstep : Yields (Option.Rel (Expr.Mirrored .sameText) step)
      (expressionUnless · (.symbol .rightParen)) ts₃ (closing :: ts₄))
    (hbody : Yields (body.Mirrored .sameText) statement ts₄ rest) :
    Yields ((forLoop init (conditionOf cond) step body).Mirrored .sameText) statement
      (keyword :: opening :: ts₁) rest := by
  have hclauses : Yields (ClausesMirrored .sameText (init, cond, step)) forClauses
      (opening :: ts₁) ts₄ := by
    refine yields_expect hopening (hinit.bind fun init' hinit' => hcond.bind fun cond' hcond' => ?_)
    refine yields_expect hsemicolon (hstep.bind fun step' hstep' => ?_)
    exact yields_expect hclosing (yields_pure ⟨hinit', hcond', hstep'⟩)
  refine Yields.succ ?_
  simp only [statement]
  refine yields_accept_some hkeyword (hclauses.bind ?_)
  rintro ⟨init', cond', step'⟩ ⟨hinit', hcond', hstep'⟩
  refine hbody.bind fun body' hbody' => (conditionOrTrue_yields hcond').bind fun e he => ?_
  exact yields_pure (forLoop_mirrored hinit' he hstep' hbody')

theorem declarations_gives_single {i j : Nat} (hne : ts ≠ [])
    (h : Gives declaration ts i (some s) [] j) : Gives (declarations · false) ts i [s] [] j := by
  intro eof complaints
  obtain ⟨k, hk⟩ := h eof complaints
  refine ⟨k + 2, fun n hn => ?_⟩
  obtain ⟨n, rfl⟩ : ∃ m, n = m + 2 := ⟨n - 2, by omega⟩
  show declarations (n + 2) false _ = _
  rw [declarations_step hne, bind_of_ok (hk (n + 1) (by omega)), prepend,
    bind_of_ok (declarations_end rfl)]
  rfl

theorem declarations_mono {n n' : Nat} {c d : Cursor}
    (hrun : declarations n false c = .ok ss d) (hclean : d.complaints = c.complaints)
    (hend : d.ahead = []) (hle : n ≤ n') (hroom : c.ahead.length + 1 ≤ n') :
    ∃ d', declarations n' false c = .ok ss d' := by
  have helse : ∀ t ∈ ([] : List Token).head?, t.kind ≠ .keyword .else_ := by simp
  obtain ⟨m, hm, hmore⟩ := declarations_followedBy helse c.eof hrun hclean hle hroom
  obtain ⟨m, rfl⟩ := Nat.exists_eq_add_of_le' hm
  have hnone : declarations (m + 1) false (d.followedBy [] c.eof) =
      .ok [] (d.followedBy [] c.eof) :=
    declarations_end (by simp [Cursor.followedBy, hend])
  have hstart : c.followedBy [] c.eof = c := by simp [Cursor.followedBy]
  rw [hstart, prepend, bind_of_ok hnone] at hmore
  exact ⟨_, hmore.trans (by rw [List.append_nil]; rfl)⟩

end

end Parse

/-- The fuel that is given suffices, so that more of it does not change what is read. -/
theorem Program.ofTokens_of_gives {ts : List Token} {eof : Token} {made j : Nat} {ss : List Stmt}
    (hts : ∀ t ∈ ts, t.isEof = false) (heof : eof.isEof = true)
    (h : Parse.Gives (Parse.declarations · false) ts made ss [] j) :
    (Program.ofTokens (ts ++ [eof]) made).statements = ss ∧
      (Program.ofTokens (ts ++ [eof]) made).complaints = [] := by
  rw [Program.ofTokens, Cursor.ofTokens_append hts heof made]
  have hfuel : 32 * ts.length + 18 ≤ Parse.fuelFor (ts ++ [eof]).length := by
    rw [Parse.fuelFor, List.length_append, List.length_singleton]
    omega
  generalize Parse.fuelFor (ts ++ [eof]).length = n at hfuel
  have hended := Parse.Spec.ended
    ((Parse.statementRecognizes n).declarations false ⟨ts, eof, made, []⟩ hfuel)
  obtain ⟨k, hk⟩ := h eof []
  have hmore : Parse.declarations (max n k) false ⟨ts, eof, made, []⟩ =
      .ok ss ⟨[], eof, j, []⟩ := hk _ (by omega)
  have hself : (Cursor.mk ts eof made []).Mirrored .sameText ⟨ts, eof, made, []⟩ :=
    ⟨List.forall₂_same.mpr fun _ _ => ⟨rfl, rfl⟩, ⟨rfl, rfl⟩, trivial, .nil⟩
  have hmirrored := (Parse.declarationMirrored .sameText
    (le_max_left n k)).declarations false _ _ hself
  rw [hmore] at hmirrored
  generalize hrun : Parse.declarations n false ⟨ts, eof, made, []⟩ = r at hmirrored hended
  cases hmirrored with
  | @ok ss' _ d _ hss hd =>
    have hclean : d.complaints = [] := List.forall₂_nil_right_iff.mp hd.complaints
    have hahead : d.ahead = [] := List.forall₂_nil_right_iff.mp hd.ahead
    obtain ⟨d', hsame⟩ :=
      Parse.declarations_mono hrun hclean hahead (le_max_left n k) (by simp only; omega)
    rw [hmore, Reply.ok.injEq] at hsame
    exact ⟨hsame.1.symm, hclean⟩
  | starved r => exact absurd rfl hended

/-! ### Loops as texts -/

/-- The clauses of `for (init cond; step) body`, as tokens. The first one has a semicolon of its
own. -/
structure LoopClauses where
  init : List Token
  cond : List Token
  step : List Token
  body : List Token

namespace LoopClauses

/-- The tokens of a clause, written on whatever lines. -/
def kept (ts : List Token) : List Mark := ts.map .kept

def braced (ms : List Mark) : List Mark :=
  .made (.symbol .leftBrace) :: (ms ++ [.made (.symbol .rightBrace)])

variable (k : LoopClauses)

def forText : List Mark :=
  .made (.keyword .for_) :: .made (.symbol .leftParen) :: (kept k.init ++ (kept k.cond ++
    .made (.symbol .semicolon) :: (kept k.step ++ .made (.symbol .rightParen) :: kept k.body)))

/-- A loop without a condition goes on for ever. -/
def conditionText : List Mark :=
  if k.cond = [] then [.made (.keyword .true)] else kept k.cond

/-- The third clause comes after the body, each time. -/
def bodyText : List Mark :=
  if k.step = [] then kept k.body
  else braced (kept k.body ++ (kept k.step ++ [.made (.symbol .semicolon)]))

def whileText : List Mark :=
  .made (.keyword .while_) :: .made (.symbol .leftParen) :: (k.conditionText ++
    .made (.symbol .rightParen) :: k.bodyText)

/-- The text that a `for` loop is short for. -/
def expansion : List Mark :=
  if k.init.map Token.kind = [.symbol .semicolon] then k.whileText
  else braced (kept k.init ++ k.whileText)

end LoopClauses

/-- What the first clause is read as; a semicolon stands for none. -/
inductive InitReads : List Token → Option Stmt → Prop where
  | semicolon {t : Token} (ht : t.kind = .symbol .semicolon) : InitReads [t] none
  | clause {ts : List Token} {s : Stmt} (h : ReadsAsStmt ts s) (hs : s.isInit = true) :
    InitReads ts (some s)

/-- What a clause is read as that may be empty. -/
inductive ClauseReads : List Token → Option Expr → Prop where
  | empty : ClauseReads [] none
  | expression {ts : List Token} {e : Expr} (h : ReadsAsExpr ts e) : ClauseReads ts (some e)

/-- What the clauses are read as, each for itself and without a mistake. -/
structure LoopClauses.Reads (k : LoopClauses) (init : Option Stmt) (cond step : Option Expr)
    (body : Stmt) : Prop where
  init : InitReads k.init init
  cond : ClauseReads k.cond cond
  step : ClauseReads k.step step
  isStatement : body.isDeclaration = false
  body : ReadsAsStmt k.body body

/-! ### Clauses in their places -/

section

variable {ts ts' rest : List Token} {t closing : Token} {k : LoopClauses}
  {init : Option Stmt} {cond step : Option Expr} {body : Stmt}

theorem LoopClauses.fits_kept :
    List.Forall₂ (Mark.Fits Mirror.sameText.token) (LoopClauses.kept ts) ts' ↔
      List.Forall₂ Mirror.sameText.token ts ts' :=
  List.forall₂_map_left_iff

theorem InitReads.forInit (h : InitReads ts init)
    (hts : List.Forall₂ Mirror.sameText.token ts ts')
    (helse : (rest.map Token.kind).head? ≠ some (.keyword .else_)) :
    Parse.Yields (Option.Rel (Stmt.Mirrored .sameText) init) Parse.forInit (ts' ++ rest) rest := by
  cases h with
  | semicolon ht =>
    obtain _ | ⟨ht', _ | _⟩ := hts
    exact Parse.yields_accept_some (ht'.1.trans ht) (Parse.yields_pure .none)
  | clause h hs =>
    exact (h.declaration hts helse).forInit hs ((h.begins.moved hts rest).head?_ne rfl)

theorem ClauseReads.expressionUnless {e : Option Expr} {s : Symbol} (h : ClauseReads ts e)
    (hts : List.Forall₂ Mirror.sameText.token ts ts') (hclosing : closing.kind = .symbol s)
    (hs : s = .semicolon ∨ s = .rightParen) :
    Parse.Yields (Option.Rel (Expr.Mirrored .sameText) e) (Parse.expressionUnless · (.symbol s))
      (ts' ++ closing :: rest) (closing :: rest) := by
  cases h with
  | empty =>
    cases hts
    exact Parse.yields_check (c := true) (by simp [hclosing]) (Parse.yields_pure .none)
  | expression h =>
    have hopens : opensExpression (.symbol s) = false := by rcases hs with rfl | rfl <;> rfl
    have hbegins := h.begins.moved hts (closing :: rest)
    have hcloses : Closes ((closing :: rest).map Token.kind) :=
      closes_of_symbol hclosing (by rcases hs with rfl | rfl <;> simp) rest
    refine Parse.yields_check (c := false)
      (iff_of_false Bool.false_ne_true (hbegins.head?_ne hopens)) ?_
    exact (h.expression hts hcloses).bind fun e' he' => Parse.yields_pure (.some he')

theorem ClauseReads.head?_ne_else {e : Option Expr} {s : Symbol} (h : ClauseReads ts e)
    (hts : List.Forall₂ Mirror.sameText.token ts ts') (hclosing : closing.kind = .symbol s) :
    ((ts' ++ closing :: rest).map Token.kind).head? ≠ some (.keyword .else_) := by
  cases h with
  | empty =>
    cases hts
    simp [hclosing]
  | expression h => exact (h.begins.moved hts _).head?_ne rfl

theorem ClauseReads.condition (h : ClauseReads k.cond cond)
    (hts : List.Forall₂ (Mark.Fits Mirror.sameText.token) k.conditionText ts')
    (hclosing : closing.kind = .symbol .rightParen) :
    Parse.Yields ((Parse.conditionOf cond).Mirrored .sameText) Parse.expression
      (ts' ++ closing :: rest) (closing :: rest) := by
  have hcloses : Closes ((closing :: rest).map Token.kind) :=
    closes_of_symbol hclosing (by simp) rest
  unfold LoopClauses.conditionText at hts
  generalize k.cond = ts at h hts
  cases h with
  | empty =>
    have hgrade : Expr.OfGrade .expression (.literal 0 (.bool true)) :=
      .chain (.operand (.operand (.operand (.operand (.operand (.operand
        (.ofCall (.ofPrimary (.literal 0 (.bool true))))))))))
    exact Parse.rereadsAs (fun _ _ => trivial) hgrade ts' _ hts hcloses
  | expression h =>
    rw [if_neg h.begins.tokens_ne_nil, LoopClauses.fits_kept] at hts
    exact h.expression hts hcloses

/-- What a loop repeats. -/
def loopBody (step : Option Expr) (body : Stmt) : Stmt :=
  match step with
  | some e => .block [body, .expression e]
  | none => body

namespace LoopClauses.Reads

/-- The body ends before a brace, an expression or nothing, and never before `else`. -/
theorem statement (h : k.Reads init cond step body)
    (hts : List.Forall₂ Mirror.sameText.token k.body ts')
    (helse : (rest.map Token.kind).head? ≠ some (.keyword .else_)) :
    Parse.Yields (body.Mirrored .sameText) Parse.statement (ts' ++ rest) rest :=
  (h.body.declaration hts helse).statement h.isStatement

theorem loopBody (h : k.Reads init cond step body)
    (hts : List.Forall₂ (Mark.Fits Mirror.sameText.token) k.bodyText ts')
    (helse : (rest.map Token.kind).head? ≠ some (.keyword .else_)) :
    Parse.Yields ((Lox.loopBody step body).Mirrored .sameText) Parse.statement (ts' ++ rest)
      rest := by
  have hstep := h.step
  unfold bodyText at hts
  generalize k.step = us at hstep hts
  cases hstep with
  | empty =>
    rw [if_pos rfl, fits_kept] at hts
    exact h.statement hts helse
  | @expression _ e hstep =>
    rw [if_neg hstep.begins.tokens_ne_nil, braced] at hts
    obtain _ | ⟨hopening, hts⟩ := hts
    obtain ⟨inner, _, hinner, _ | ⟨hclosing, _ | _⟩, rfl⟩ := Mark.forall₂_append hts
    obtain ⟨bs, _, hbs, hlast, rfl⟩ := Mark.forall₂_append hinner
    obtain ⟨es, _, hes, _ | ⟨hsemicolon, _ | _⟩, rfl⟩ := Mark.forall₂_append hlast
    rename_i opening closing semicolon
    rw [fits_kept] at hbs hes
    have hbegins := hstep.begins.moved hes (semicolon :: closing :: rest)
    have hfirst := h.body.begins.moved hbs (es ++ semicolon :: closing :: rest)
    have hlast := Parse.statement_yields_expression hbegins hsemicolon
      (hstep.expression hes (closes_of_symbol hsemicolon (by simp) _))
    have hall := Parse.declarations_yields_cons hfirst
      (h.body.declaration hbs (hbegins.head?_ne rfl))
      (Parse.declarations_yields_cons hbegins.of_expression.of_statement
        (Parse.declaration_yields hbegins.of_expression hlast)
        (Parse.declarations_yields_nil hclosing))
    have hblock := Parse.statement_yields_block hopening hclosing hall
    simpa [Lox.loopBody] using hblock

theorem whileLoop (h : k.Reads init cond step body)
    (hts : List.Forall₂ (Mark.Fits Mirror.sameText.token) k.whileText ts') (rest : List Token)
    (helse : (rest.map Token.kind).head? ≠ some (.keyword .else_)) :
    Begins opensStatement ((ts' ++ rest).map Token.kind) ∧
      Parse.Yields ((forLoop none (Parse.conditionOf cond) step body).Mirrored .sameText)
        Parse.statement (ts' ++ rest) rest := by
  obtain _ | ⟨hkeyword, _ | ⟨hopening, hts⟩⟩ := hts
  obtain ⟨cs, _, hcs, _ | ⟨hclosing, hbs⟩, rfl⟩ := Mark.forall₂_append hts
  rename_i keyword opening closing bs
  refine ⟨⟨keyword.kind, _, rfl, by rw [hkeyword]; rfl⟩, ?_⟩
  have hloop := Parse.statement_yields_while hkeyword hopening hclosing
    (h.cond.condition hcs hclosing) (h.loopBody hbs helse)
  have hshape : forLoop none (Parse.conditionOf cond) step body =
      .while_ (Parse.conditionOf cond) (Lox.loopBody step body) := by
    cases step <;> rfl
  rw [hshape]
  simpa using hloop

/-- The expansion is read as the loop that the clauses make. -/
theorem expansion (h : k.Reads init cond step body)
    (hts : List.Forall₂ (Mark.Fits Mirror.sameText.token) k.expansion ts') :
    Parse.Yields ((forLoop init (Parse.conditionOf cond) step body).Mirrored .sameText)
      Parse.statement ts' [] := by
  have hinit := h.init
  unfold LoopClauses.expansion at hts
  generalize k.init = is at hinit hts
  cases hinit with
  | semicolon ht =>
    rw [if_pos (by simp [ht])] at hts
    simpa using (h.whileLoop hts [] (by simp)).2
  | @clause _ s hclause hs =>
    have hne : is.map Token.kind ≠ [.symbol .semicolon] := by
      intro heq
      exact hclause.begins.head?_ne (k := .symbol .semicolon) rfl (by rw [heq]; rfl)
    rw [if_neg hne, braced] at hts
    obtain _ | ⟨hopening, hts⟩ := hts
    obtain ⟨inner, _, hinner, _ | ⟨hclosing, _ | _⟩, rfl⟩ := Mark.forall₂_append hts
    obtain ⟨is', ws, his, hws, rfl⟩ := Mark.forall₂_append hinner
    rename_i opening closing
    rw [fits_kept] at his
    have hbrace : closing.kind = .symbol .rightBrace := hclosing
    obtain ⟨hbegins, hloop⟩ := h.whileLoop hws [closing] (by simp [hbrace])
    have hfirst := hclause.begins.moved his (ws ++ [closing])
    have hall := Parse.declarations_yields_cons hfirst
      (hclause.declaration his (hbegins.head?_ne rfl))
      (Parse.declarations_yields_cons hbegins.of_statement (Parse.declaration_yields hbegins hloop)
        (Parse.declarations_yields_nil hbrace))
    have hblock := Parse.statement_yields_block hopening hbrace hall
    have hshape : forLoop (some s) (Parse.conditionOf cond) step body =
        .block [s, forLoop none (Parse.conditionOf cond) step body] := by
      cases step <;> rfl
    rw [hshape]
    simpa using hblock

theorem forLoop (h : k.Reads init cond step body)
    (hts : List.Forall₂ (Mark.Fits Mirror.sameText.token) k.forText ts') :
    Parse.Yields ((Lox.forLoop init (Parse.conditionOf cond) step body).Mirrored .sameText)
      Parse.statement ts' [] := by
  obtain _ | ⟨hkeyword, _ | ⟨hopening, hts⟩⟩ := hts
  obtain ⟨is, _, his, hafterInit, rfl⟩ := Mark.forall₂_append hts
  obtain ⟨cs, _, hcs, _ | ⟨hsemicolon, hafterCond⟩, rfl⟩ := Mark.forall₂_append hafterInit
  obtain ⟨es, _, hes, _ | ⟨hclosing, hbs⟩, rfl⟩ := Mark.forall₂_append hafterCond
  rename_i keyword opening semicolon closing bs
  rw [fits_kept] at his hcs hes hbs
  have hstatement : Parse.Yields (body.Mirrored .sameText) Parse.statement (bs ++ []) [] :=
    h.statement hbs (by simp)
  rw [List.append_nil] at hstatement
  refine Parse.statement_yields_for hkeyword hopening hsemicolon hclosing
    (h.init.forInit his ?_) (h.cond.expressionUnless hcs hsemicolon (.inl rfl))
    (h.step.expressionUnless hes hclosing (.inr rfl)) hstatement
  exact h.cond.head?_ne_else hcs hsemicolon

end LoopClauses.Reads

/-! ### No end of file within -/

theorem InitReads.notEof (h : InitReads ts init) : ∀ t ∈ ts, t.isEof = false := by
  cases h with
  | semicolon ht => simp [Token.isEof, ht]
  | clause h _ => exact h.notEof

theorem ClauseReads.notEof {e : Option Expr} (h : ClauseReads ts e) :
    ∀ t ∈ ts, t.isEof = false := by
  cases h with
  | empty => simp
  | expression h => exact h.notEof

namespace LoopClauses

theorem kept_ne_eof (h : ∀ t ∈ ts, t.isEof = false) : ∀ m ∈ kept ts, m.kind ≠ .eof := by
  rw [kept, List.forall_mem_map]
  exact fun t ht => beq_eq_false_iff_ne.mp (h t ht)

theorem braced_ne_eof {ms : List Mark} (h : ∀ m ∈ ms, m.kind ≠ .eof) :
    ∀ m ∈ braced ms, m.kind ≠ .eof := by
  rw [braced, List.forall_mem_cons, List.forall_mem_append, List.forall_mem_singleton]
  exact ⟨TokenKind.noConfusion, h, TokenKind.noConfusion⟩

theorem Reads.forText_ne_eof (h : k.Reads init cond step body) :
    ∀ m ∈ k.forText, m.kind ≠ .eof := by
  simp only [forText, List.forall_mem_cons, List.forall_mem_append]
  exact ⟨TokenKind.noConfusion, TokenKind.noConfusion, kept_ne_eof h.init.notEof,
    kept_ne_eof h.cond.notEof, TokenKind.noConfusion, kept_ne_eof h.step.notEof,
    TokenKind.noConfusion, kept_ne_eof h.body.notEof⟩

theorem Reads.bodyText_ne_eof (h : k.Reads init cond step body) :
    ∀ m ∈ k.bodyText, m.kind ≠ .eof := by
  unfold bodyText
  split_ifs
  · exact kept_ne_eof h.body.notEof
  · refine braced_ne_eof ?_
    rw [List.forall_mem_append, List.forall_mem_append, List.forall_mem_singleton]
    exact ⟨kept_ne_eof h.body.notEof, kept_ne_eof h.step.notEof, TokenKind.noConfusion⟩

theorem Reads.whileText_ne_eof (h : k.Reads init cond step body) :
    ∀ m ∈ k.whileText, m.kind ≠ .eof := by
  simp only [whileText, List.forall_mem_cons, List.forall_mem_append]
  refine ⟨TokenKind.noConfusion, TokenKind.noConfusion, ?_, TokenKind.noConfusion,
    h.bodyText_ne_eof⟩
  unfold conditionText
  split_ifs
  · exact List.forall_mem_singleton.mpr TokenKind.noConfusion
  · exact kept_ne_eof h.cond.notEof

theorem Reads.expansion_ne_eof (h : k.Reads init cond step body) :
    ∀ m ∈ k.expansion, m.kind ≠ .eof := by
  unfold LoopClauses.expansion
  split_ifs
  · exact h.whileText_ne_eof
  · exact braced_ne_eof
      (List.forall_mem_append.mpr ⟨kept_ne_eof h.init.notEof, h.whileText_ne_eof⟩)

end LoopClauses

/-! ### Two texts for one loop -/

theorem Program.ofTokens_of_statement {ms : List Mark} {s : Stmt} {eof : Token}
    (hts : List.Forall₂ (Mark.Fits Mirror.sameText.token) ms ts') (hms : ∀ m ∈ ms, m.kind ≠ .eof)
    (heof : eof.isEof = true) (hbegins : Begins opensStatement (ts'.map Token.kind))
    (h : Parse.Yields (s.Mirrored .sameText) Parse.statement ts' []) (made : Nat) :
    ∃ s', (Program.ofTokens (ts' ++ [eof]) made).statements = [s'] ∧
      (Program.ofTokens (ts' ++ [eof]) made).complaints = [] ∧ s.Mirrored .sameText s' := by
  have hnot : ∀ t ∈ ts', t.isEof = false := by
    intro t ht
    have hkind : t.kind ∈ ms.map Mark.kind := by
      rw [← Mark.kinds_of_forall₂ hts]
      exact List.mem_map_of_mem ht
    obtain ⟨m, hm, heq⟩ := List.mem_map.mp hkind
    exact beq_eq_false_iff_ne.mpr (heq ▸ hms m hm)
  obtain ⟨r, j, hr, hgives⟩ := Parse.declaration_yields hbegins h made
  cases hr with
  | @some _ s' hs =>
    obtain ⟨hstatements, hclean⟩ := Program.ofTokens_of_gives hnot heof
      (Parse.declarations_gives_single hbegins.tokens_ne_nil hgives)
    exact ⟨s', hstatements, hclean, hs⟩

instance (m : Mark) (t : Token) : Decidable (m.Fits Mirror.sameText.token t) :=
  match m with
  | .kept u => inferInstanceAs (Decidable (t.kind = u.kind ∧ t.lexeme = u.lexeme))
  | .made k => inferInstanceAs (Decidable (t.kind = k))

/-- A `for` loop is read as its expansion is, whatever its clauses are, without a complaint. -/
theorem for_loops_are_their_expansions {ts us : List Token} {eof eof' : Token}
    (h : k.Reads init cond step body)
    (hts : List.Forall₂ (Mark.Fits Mirror.sameText.token) k.forText ts)
    (hus : List.Forall₂ (Mark.Fits Mirror.sameText.token) k.expansion us)
    (heof : eof.isEof = true) (heof' : eof'.isEof = true) (made made' : Nat) :
    ∃ s s', (Program.ofTokens (ts ++ [eof]) made).statements = [s] ∧
      (Program.ofTokens (ts ++ [eof]) made).complaints = [] ∧
      (Program.ofTokens (us ++ [eof']) made').statements = [s'] ∧
      (Program.ofTokens (us ++ [eof']) made').complaints = [] ∧
      s.Mirrored .sameText s' ∧
      (forLoop init (Parse.conditionOf cond) step body).Mirrored .sameText s := by
  have hfor : Begins opensStatement (ts.map Token.kind) := by
    rw [Mark.kinds_of_forall₂ hts]
    exact ⟨_, _, rfl, rfl⟩
  have hexpansion : Begins opensStatement (us.map Token.kind) := by
    rw [Mark.kinds_of_forall₂ hus]
    unfold LoopClauses.expansion
    split_ifs <;> exact ⟨_, _, rfl, rfl⟩
  obtain ⟨s, hs, hclean, hmirrored⟩ :=
    Program.ofTokens_of_statement hts h.forText_ne_eof heof hfor (h.forLoop hts) made
  obtain ⟨s', hs', hclean', hmirrored'⟩ :=
    Program.ofTokens_of_statement hus h.expansion_ne_eof heof' hexpansion (h.expansion hus) made'
  exact ⟨s, s', hs, hclean, hs', hclean', hmirrored.common hmirrored', hmirrored⟩

/-- The clauses of a loop over an `if` without `else`, which is followed by nothing in the one text
and by the third clause in the other. -/
theorem for_loop_over_dangling_if :
    let k : LoopClauses := ⟨tokensOnly "var i = 0;", tokensOnly "i < 3", tokensOnly "i = i + 1",
      tokensOnly "if (i) print i;"⟩
    let ts := tokensOnly "for (var i = 0; i < 3; i = i + 1) if (i) print i;"
    let us := tokensOnly "\x7b var i = 0;\nwhile (i < 3) \x7b if (i) print i;\ni = i + 1; \x7d \x7d"
    (∃ init cond step body, k.Reads init cond step body) ∧
      List.Forall₂ (Mark.Fits Mirror.sameText.token) k.forText ts ∧
      List.Forall₂ (Mark.Fits Mirror.sameText.token) k.expansion us ∧
      ∃ s s', (Program.ofTokens (ts ++ [⟨.eof, "", 1⟩]) 0).statements = [s] ∧
        (Program.ofTokens (us ++ [⟨.eof, "", 3⟩]) 7).statements = [s'] ∧
        s.Mirrored .sameText s' := by
  intro k ts us
  have hstmt : ∀ (source : String) (test : Stmt → Bool),
      (Program.ofTokens (tokens source) 0).complaints = [] ∧
        (Program.ofTokens (tokens source) 0).statements.length = 1 ∧
        (Program.ofTokens (tokens source) 0).statements.all test = true →
      ∃ s, ReadsAsStmt (tokensOnly source) s ∧ test s = true := by
    rintro source test ⟨hclean, hlength, hall⟩
    obtain ⟨s, hs⟩ := List.length_eq_one_iff.mp hlength
    exact ⟨s, .of_source hs hclean, List.all_eq_true.mp hall s (by simp [hs])⟩
  have hexpr : ∀ source : String,
      (ParsedExpr.ofTokens (tokens source) 0).complaints = [] ∧
        (ParsedExpr.ofTokens (tokens source) 0).expr?.isSome = true →
      ∃ e, ReadsAsExpr (tokensOnly source) e := by
    rintro source ⟨hclean, hsome⟩
    obtain ⟨e, he⟩ := Option.isSome_iff_exists.mp hsome
    exact ⟨e, .of_source he hclean⟩
  obtain ⟨init, hinit, hclause⟩ := hstmt "var i = 0;" Stmt.isInit (by decide +kernel)
  obtain ⟨cond, hcond⟩ := hexpr "i < 3" (by decide +kernel)
  obtain ⟨step, hstep⟩ := hexpr "i = i + 1" (by decide +kernel)
  obtain ⟨body, hbody, hplain⟩ := hstmt "if (i) print i;" (!·.isDeclaration) (by decide +kernel)
  have hreads : k.Reads (some init) (some cond) (some step) body :=
    ⟨.clause hinit hclause, .expression hcond, .expression hstep, by simpa using hplain, hbody⟩
  have hts : List.Forall₂ (Mark.Fits Mirror.sameText.token) k.forText ts := by decide +kernel
  have hus : List.Forall₂ (Mark.Fits Mirror.sameText.token) k.expansion us := by decide +kernel
  have heof : ∀ line, Token.isEof ⟨.eof, "", line⟩ = true := fun _ => rfl
  obtain ⟨s, s', hs, -, hs', -, hsame, -⟩ :=
    for_loops_are_their_expansions hreads hts hus (heof 1) (heof 3) 0 7
  exact ⟨⟨_, _, _, _, hreads⟩, hts, hus, s, s', hs, hs', hsame⟩

end

end Lox
