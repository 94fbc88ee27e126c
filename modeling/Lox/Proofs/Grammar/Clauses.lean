import Lox.Proofs.Grammar.Carrying
import Lox.Proofs.Grammar.RoundTrip

/-!
# Clauses in any place

A part of a statement is read in the same way wherever it stands. For expressions this was shown by
writing them back. Of a single declaration it holds because a declaration looks at the kinds of
tokens only, does not look past its end unless an `else` follows, and takes no notice of complaints
made before. So a token list that is read as a program of one declaration is read as this
declaration in front of whatever else (`ReadsAsStmt.declaration`), as a statement where a statement
is asked for (`Parse.Yields.statement`), and as the first clause of a loop
(`Parse.Yields.forInit`).
-/

namespace Lox

/-- A statement that may be the first clause of a loop. -/
def Stmt.isInit : Stmt → Bool
  | .var _ _ | .expression _ => true
  | _ => false

theorem Stmt.Mirrored.isDeclaration {μ : Mirror} {s s' : Stmt} (h : s.Mirrored μ s') :
    s'.isDeclaration = s.isDeclaration := by
  cases h <;> rfl

namespace Parse

/-! ### Readers and the identities of nodes -/

section

variable {α β : Type} {Q : α → Prop} {R : β → Prop} {ts us vs : List Token}

/-- With enough fuel the reader goes from the tokens `ts` to `us` without a complaint and returns
something with `Q`, from whatever node identity on. -/
def Yields (Q : α → Prop) (p : Nat → Parse α) (ts us : List Token) : Prop :=
  ∀ i, ∃ a j, Q a ∧ Gives p ts i a us j

theorem yields_pure {a : α} (h : Q a) : Yields Q (fun _ => (pure a : Parse α)) ts ts :=
  fun i => ⟨a, i, h, gives_pure⟩

theorem Yields.bind {p : Nat → Parse α} {f : Nat → α → Parse β} (hp : Yields Q p ts us)
    (hf : ∀ a, Q a → Yields R (fun n => f n a) us vs) :
    Yields R (fun n => p n >>= f n) ts vs := by
  intro i
  obtain ⟨a, j, ha, hgives⟩ := hp i
  obtain ⟨b, k, hb, hrest⟩ := hf a ha j
  exact ⟨b, k, hb, hgives.bind hrest⟩

theorem Yields.of_gives {p q : Nat → Parse α} (h : Yields Q p us vs)
    (hq : ∀ i a j, Gives p us i a vs j → Gives q ts i a vs j) : Yields Q q ts vs := by
  intro i
  obtain ⟨a, j, ha, hgives⟩ := h i
  exact ⟨a, j, ha, hq i a j hgives⟩

theorem Yields.succ {p : Nat → Parse α} (h : Yields Q (fun n => p (n + 1)) ts us) :
    Yields Q p ts us :=
  h.of_gives fun _ _ _ => Gives.succ

theorem yields_freshId {f : Nat → NodeId → Parse β}
    (hf : ∀ id, Yields R (fun n => f n id) ts us) : Yields R (fun n => freshId >>= f n) ts us := by
  intro i
  obtain ⟨b, j, hb, hgives⟩ := hf (.ofNat i) (i + 1)
  exact ⟨b, j, hb, gives_freshId hgives⟩

variable {k : TokenKind} {t : Token}

theorem yields_accept_some {f : Nat → Option Token → Parse β} (ht : t.kind = k)
    (hf : Yields R (fun n => f n (some t)) ts us) :
    Yields R (fun n => accept k >>= f n) (t :: ts) us :=
  hf.of_gives fun _ _ _ => gives_accept_some ht

theorem yields_accept_none {f : Nat → Option Token → Parse β}
    (hk : (ts.map Token.kind).head? ≠ some k) (hf : Yields R (fun n => f n none) ts us) :
    Yields R (fun n => accept k >>= f n) ts us :=
  hf.of_gives fun _ _ _ => gives_accept_none hk

theorem yields_expect {what : Expected} {f : Nat → Token → Parse β} (ht : t.kind = k)
    (hf : Yields R (fun n => f n t) ts us) :
    Yields R (fun n => expect k what >>= f n) (t :: ts) us :=
  hf.of_gives fun _ _ _ => gives_expect ht

theorem yields_check {f : Nat → Bool → Parse β} {c : Bool}
    (hk : (c = true ↔ (ts.map Token.kind).head? = some k))
    (hf : Yields R (fun n => f n c) ts us) : Yields R (fun n => check k >>= f n) ts us :=
  hf.of_gives fun _ _ _ => gives_check hk

theorem recover_of_ok {p : Parse α} {a : α} {c d : Cursor} (h : p c = .ok a d) :
    recover p c = .ok (some a) d := by
  unfold recover
  rw [h]

theorem yields_recover {p : Nat → Parse α} {S : Option α → Prop} (h : Yields Q p ts us)
    (hS : ∀ a, Q a → S (some a)) : Yields S (fun n => recover (p n)) ts us := by
  intro i
  obtain ⟨a, j, ha, hgives⟩ := h i
  refine ⟨some a, j, hS a ha, fun eof complaints => ?_⟩
  obtain ⟨k, hk⟩ := hgives eof complaints
  exact ⟨k, fun n hn => recover_of_ok (hk n hn)⟩

end

/-! ### What a reader returned -/

section

variable {α β : Type} {a : α} {b : β} {c d : Cursor}

/-- The reader never returns `a`. -/
def Avoids (p : Parse α) (a : α) : Prop := ∀ c d, p c ≠ .ok a d

theorem avoids_outOfFuel : Avoids outOfFuel a := fun _ _ h => by cases h

theorem avoids_pure {a' : α} (h : a' ≠ a) : Avoids (pure a') a := by
  intro c d heq
  cases heq
  exact h rfl

theorem avoids_bind {p : Parse α} {f : α → Parse β} (h : ∀ x, Avoids (f x) b) :
    Avoids (p >>= f) b := by
  intro c d heq
  obtain ⟨x, mid, -, hf⟩ := bind_eq_ok heq
  exact h x mid d hf

theorem recover_eq_some {p : Parse α} (h : recover p c = .ok (some a) d) : p c = .ok a d := by
  unfold recover at h
  split at h
  · rename_i heq
    cases h
    exact heq
  · cases h
  · cases h

theorem bind_accept_eq_ok {k : TokenKind} {f : Option Token → Parse β}
    (h : (accept k >>= f) c = .ok b d) :
    c.kinds.head? ≠ some k ∧ f none c = .ok b d ∨
      ∃ t rest, c.ahead = t :: rest ∧ t.kind = k ∧
        f (some t) { c with ahead := rest } = .ok b d := by
  obtain ⟨r, mid, haccept, hf⟩ := bind_eq_ok h
  unfold accept acceptIf at haccept
  rw [Cursor.kinds]
  split at haccept
  · rename_i hahead
    cases haccept
    exact .inl ⟨by simp [hahead], hf⟩
  · rename_i t rest hahead
    split_ifs at haccept with ht
    · cases haccept
      exact .inr ⟨t, rest, hahead, by simpa using ht, hf⟩
    · cases haccept
      exact .inl ⟨by simpa [hahead] using ht, hf⟩

/-- If what follows the token never returns `b`, the token was not there. -/
theorem bind_accept_eq_none {k : TokenKind} {f : Option Token → Parse β}
    (h : (accept k >>= f) c = .ok b d) (hsome : ∀ t, Avoids (f (some t)) b) :
    c.kinds.head? ≠ some k ∧ f none c = .ok b d := by
  rcases bind_accept_eq_ok h with hnone | ⟨t, rest, -, -, hf⟩
  · exact hnone
  · exact absurd hf (hsome t _ d)

end

/-! ### Single declarations -/

section

variable {n : Nat} {s : Stmt} {c d : Cursor}

theorem classDeclaration_avoids (hs : ∀ name super methods, .class_ name super methods ≠ s) :
    Avoids (classDeclaration n) s := by
  cases n with
  | zero => exact avoids_outOfFuel
  | succ n =>
    exact avoids_bind fun _ => avoids_bind fun _ => avoids_bind fun _ => avoids_bind fun _ =>
      avoids_bind fun _ => avoids_pure (hs _ _ _)

theorem varDeclaration_avoids (hs : ∀ name init, .var name init ≠ s) :
    Avoids (varDeclaration n) s := by
  refine avoids_bind fun _ => avoids_bind fun r => ?_
  cases r with
  | none => exact avoids_bind fun _ => avoids_pure (hs _ _)
  | some _ => exact avoids_bind fun _ => avoids_bind fun _ => avoids_pure (hs _ _)

theorem isDeclaration_of_statement (h : statement n c = .ok s d) : s.isDeclaration = false :=
  ((declarationMakes (fun _ => True) n).statement c (fun _ _ => trivial) |>.of_ok h).2.1.1

theorem statement_of_declaration (h : declaration (n + 1) c = .ok (some s) d)
    (hs : s.isDeclaration = false) :
    c.kinds.head? ≠ some (.keyword .var) ∧ statement n c = .ok s d := by
  obtain ⟨-, h⟩ := bind_accept_eq_none (recover_eq_some h) fun t =>
    classDeclaration_avoids (by rintro _ _ _ rfl; cases hs)
  obtain ⟨-, h⟩ := bind_accept_eq_none h fun t => avoids_bind fun _ =>
    avoids_pure (by rintro rfl; cases hs)
  exact bind_accept_eq_none h fun t => varDeclaration_avoids (by rintro _ _ rfl; cases hs)

theorem accept_of_head? {k : TokenKind} (h : c.kinds.head? ≠ some k) :
    accept k c = .ok none c := by
  obtain ⟨ahead, eof, id, complaints⟩ := c
  cases ahead with
  | nil => rfl
  | cons t rest => exact if_neg (by simpa [Cursor.kinds] using h)

theorem forInit_of_varDeclaration {name : Token} {init : Option Expr}
    (h : declaration (n + 1) c = .ok (some (.var name init)) d) :
    forInit n c = .ok (some (.var name init)) d := by
  obtain ⟨-, h⟩ := bind_accept_eq_none (recover_eq_some h) fun t =>
    classDeclaration_avoids fun _ _ _ => Stmt.noConfusion
  obtain ⟨-, h⟩ := bind_accept_eq_none h fun t => avoids_bind fun _ => avoids_pure Stmt.noConfusion
  rcases bind_accept_eq_ok h with ⟨-, h⟩ | ⟨t, rest, hahead, ht, h⟩
  · cases isDeclaration_of_statement h
  · have hhead : c.kinds.head? ≠ some (.symbol .semicolon) := by simp [Cursor.kinds, hahead, ht]
    have hvar : accept (.keyword .var) c = .ok (some t) { c with ahead := rest } := by
      unfold accept acceptIf
      rw [hahead]
      exact if_pos (by simp [ht])
    rw [forInit, bind_of_ok (accept_of_head? hhead)]
    show (accept (.keyword .var) >>= _) c = _
    rw [bind_of_ok hvar]
    exact bind_of_ok h

theorem forLoop_ne_expression (init : Option Stmt) (cond : Expr) (step : Option Expr) (body : Stmt)
    (e : Expr) : forLoop init cond step body ≠ .expression e := by
  cases init <;> cases step <;> exact Stmt.noConfusion

theorem forInit_of_expressionStatement {e : Expr}
    (h : declaration (n + 2) c = .ok (some (.expression e)) d)
    (hhead : c.kinds.head? ≠ some (.symbol .semicolon)) :
    forInit n c = .ok (some (.expression e)) d := by
  obtain ⟨hvar, h⟩ := statement_of_declaration h rfl
  obtain ⟨-, h⟩ := bind_accept_eq_none h fun t => avoids_bind fun _ => avoids_bind fun _ =>
    avoids_bind fun _ => avoids_pure (forLoop_ne_expression _ _ _ _ _)
  obtain ⟨-, h⟩ := bind_accept_eq_none h fun t => avoids_bind fun _ => avoids_bind fun _ =>
    avoids_bind fun r => by cases r with
      | none => exact avoids_pure Stmt.noConfusion
      | some _ => exact avoids_bind fun _ => avoids_pure Stmt.noConfusion
  obtain ⟨-, h⟩ := bind_accept_eq_none h fun t => avoids_bind fun _ => avoids_bind fun _ =>
    avoids_pure Stmt.noConfusion
  obtain ⟨-, h⟩ := bind_accept_eq_none h fun t => avoids_bind fun _ => avoids_bind fun _ =>
    avoids_pure Stmt.noConfusion
  obtain ⟨-, h⟩ := bind_accept_eq_none h fun t => avoids_bind fun _ => avoids_pure Stmt.noConfusion
  obtain ⟨-, h⟩ := bind_accept_eq_none h fun t => avoids_bind fun _ => avoids_bind fun _ =>
    avoids_pure Stmt.noConfusion
  rw [forInit, bind_of_ok (accept_of_head? hhead)]
  show (accept (.keyword .var) >>= _) c = _
  rw [bind_of_ok (accept_of_head? hvar)]
  exact bind_of_ok h

theorem declaration_spans (n : Nat) : Local [] default .spans (declaration n) (declaration n) :=
  (declarationLocal (by simp) default (le_refl n)).declaration

theorem declaration_eq_some {r : Option Stmt} (h : declaration n c = .ok r d)
    (hclean : d.complaints = []) : ∃ s, r = some s := by
  cases n with
  | zero => cases h
  | succ n =>
    unfold declaration recover at h
    split at h
    · cases h
      exact ⟨_, rfl⟩
    · rename_i x next _
      cases h
      have hkept := (Cursor.onward_synchronize (next.complain x)).complaints
      rw [hclean, List.prefix_nil] at hkept
      simp [Cursor.complain] at hkept
    · cases h

theorem ahead_of_declarations_nil (h : declarations n false c = .ok [] d)
    (hclean : d.complaints = []) : c.ahead = [] := by
  cases n with
  | zero => cases h
  | succ n =>
    by_contra hne
    rw [declarations_step hne] at h
    obtain ⟨first, mid, hfirst, hlast⟩ := bind_eq_ok h
    obtain ⟨rest, hrest, hall⟩ := prepend_eq_ok hlast
    have hprefix := ((declarations_onward n mid).of_ok hrest).1.complaints
    rw [hclean, List.prefix_nil] at hprefix
    obtain ⟨s, rfl⟩ := declaration_eq_some hfirst hprefix
    cases hall

end

section

variable {μ : Mirror} {s : Stmt} {ts us : List Token}

theorem Yields.statement (h : Yields (Option.Rel (Stmt.Mirrored μ) (some s)) declaration ts us)
    (hs : s.isDeclaration = false) : Yields (s.Mirrored μ) statement ts us := by
  intro i
  obtain ⟨r, j, hr, hgives⟩ := h i
  cases hr with
  | @some _ s' hmirrored =>
    refine ⟨s', j, hmirrored, fun eof complaints => ?_⟩
    obtain ⟨k, hk⟩ := hgives eof complaints
    exact ⟨k, fun n hn => (statement_of_declaration (hk (n + 1) (by omega))
      (hmirrored.isDeclaration.trans hs)).2⟩

theorem Yields.forInit (h : Yields (Option.Rel (Stmt.Mirrored μ) (some s)) declaration ts us)
    (hs : s.isInit = true) (hhead : (ts.map Token.kind).head? ≠ some (.symbol .semicolon)) :
    Yields (Option.Rel (Stmt.Mirrored μ) (some s)) forInit ts us := by
  refine fun i => ?_
  obtain ⟨r, j, hr, hgives⟩ := h i
  refine ⟨r, j, hr, fun eof complaints => ?_⟩
  obtain ⟨k, hk⟩ := hgives eof complaints
  refine ⟨k, fun n hn => ?_⟩
  cases hr with
  | some hmirrored =>
    cases hmirrored with
    | var hname hinit => exact forInit_of_varDeclaration (hk (n + 1) (by omega))
    | expression he => exact forInit_of_expressionStatement (hk (n + 2) (by omega)) hhead
    | _ => cases hs

end

end Parse

/-! ### Token lists that are read as one expression or statement -/

section

variable {ts ts' : List Token}

theorem kinds_of_sameText (h : List.Forall₂ Mirror.sameText.token ts ts') :
    ts'.map Token.kind = ts.map Token.kind := by
  induction h with
  | nil => rfl
  | cons ht _ ih => rw [List.map_cons, List.map_cons, ht.1, ih]

theorem Begins.moved {test : TokenKind → Bool} (h : Begins test (ts.map Token.kind))
    (hts : List.Forall₂ Mirror.sameText.token ts ts') (rest : List Token) :
    Begins test ((ts' ++ rest).map Token.kind) := by
  rw [List.map_append, kinds_of_sameText hts]
  exact h.append _

theorem Begins.tokens_ne_nil {test : TokenKind → Bool} (h : Begins test (ts.map Token.kind)) :
    ts ≠ [] := fun hnil => h.ne_nil (by rw [hnil]; rfl)

theorem Expr.WrittenAs.moved {e : Expr} (h : e.WrittenAs Eq ts)
    (hts : List.Forall₂ Mirror.sameText.token ts ts') : e.WrittenAs Mirror.sameText.token ts' := by
  unfold Expr.WrittenAs at h ⊢
  generalize e.unparse = ms at h
  induction hts generalizing ms with
  | nil =>
    cases h
    exact .nil
  | @cons t t' _ _ ht _ ih =>
    cases h with
    | @cons m _ _ _ hfits hrest =>
      refine .cons ?_ (ih _ hrest)
      cases m with
      | kept u =>
        obtain rfl : u = t := hfits
        exact ht
      | made k => exact ht.1.trans hfits

end

/-- The tokens are those of a single declaration or statement, without a mistake. -/
structure ReadsAsStmt (ts : List Token) (s : Stmt) : Prop where
  notEof : ∀ t ∈ ts, t.isEof = false
  read : ∃ eof made, eof.isEof = true ∧ (Program.ofTokens (ts ++ [eof]) made).statements = [s] ∧
    (Program.ofTokens (ts ++ [eof]) made).complaints = []

/-- The tokens are those of a single expression, without a mistake. -/
structure ReadsAsExpr (ts : List Token) (e : Expr) : Prop where
  notEof : ∀ t ∈ ts, t.isEof = false
  read : ∃ eof made, eof.isEof = true ∧ (ParsedExpr.ofTokens (ts ++ [eof]) made).expr? = some e ∧
    (ParsedExpr.ofTokens (ts ++ [eof]) made).complaints = []

theorem ReadsAsStmt.of_source {source : String} {made : Nat} {s : Stmt}
    (hs : (Program.ofTokens (tokens source) made).statements = [s])
    (hclean : (Program.ofTokens (tokens source) made).complaints = []) :
    ReadsAsStmt (tokensOnly source) s := by
  rw [tokens_eq] at hs hclean
  exact ⟨tokensOnly_notEof source, _, made, rfl, hs, hclean⟩

theorem ReadsAsExpr.of_source {source : String} {made : Nat} {e : Expr}
    (he : (ParsedExpr.ofTokens (tokens source) made).expr? = some e)
    (hclean : (ParsedExpr.ofTokens (tokens source) made).complaints = []) :
    ReadsAsExpr (tokensOnly source) e := by
  rw [tokens_eq] at he hclean
  exact ⟨tokensOnly_notEof source, _, made, rfl, he, hclean⟩

namespace ReadsAsExpr

variable {ts ts' rest : List Token} {e : Expr}

theorem readFrom (h : ReadsAsExpr ts e) : e.ReadFrom .expression ts := by
  obtain ⟨eof, made, heof, he, hclean⟩ := h.read
  exact ParsedExpr.readFrom h.notEof heof he hclean

theorem begins (h : ReadsAsExpr ts e) : Begins opensExpression (ts.map Token.kind) := by
  have hwritten := h.readFrom.written.moved (List.forall₂_same.mpr fun _ _ => ⟨rfl, rfl⟩)
  rw [Mark.kinds_of_forall₂ hwritten]
  exact h.readFrom.grade.begins

theorem expression (h : ReadsAsExpr ts e) (hts : List.Forall₂ Mirror.sameText.token ts ts')
    (hrest : Closes (rest.map Token.kind)) :
    Parse.Yields (e.Mirrored .sameText) Parse.expression (ts' ++ rest) rest :=
  Parse.rereadsAs (fun _ _ => trivial) h.readFrom.grade ts' rest (h.readFrom.written.moved hts)
    hrest

end ReadsAsExpr

namespace ReadsAsStmt

variable {ts : List Token} {s : Stmt}

theorem run (h : ReadsAsStmt ts s) : ∃ n eof i j,
    Parse.declaration n ⟨ts, eof, i, []⟩ = .ok (some s) ⟨[], eof, j, []⟩ := by
  obtain ⟨eof, made, heof, hs, hclean⟩ := h.read
  obtain ⟨d, hrun, -, hd, -⟩ := Program.declarations_of_clean hclean
  rw [Cursor.ofTokens_append h.notEof heof, hs] at hrun
  generalize Parse.fuelFor _ = n at hrun
  cases n with
  | zero => cases hrun
  | succ n =>
    by_cases hne : ts = []
    · rw [Parse.declarations_end hne] at hrun
      cases hrun
    · rw [Parse.declarations_step hne] at hrun
      obtain ⟨first, mid, hfirst, hlast⟩ := Parse.bind_eq_ok hrun
      obtain ⟨rest, hrest, hall⟩ := Parse.prepend_eq_ok hlast
      have hprefix := ((Parse.declarations_onward n mid).of_ok hrest).1.complaints
      rw [hd, List.prefix_nil] at hprefix
      obtain ⟨s', rfl⟩ := Parse.declaration_eq_some hfirst hprefix
      cases hall
      have hmid := Parse.ahead_of_declarations_nil hrest hd
      have heof' := ((Parse.declaration_spans n _).of_ok hfirst).1.eof
      obtain ⟨ahead, eof', j, complaints⟩ := mid
      simp only at hprefix hmid heof'
      subst hprefix hmid heof'
      exact ⟨n, _, made, j, hfirst⟩

theorem begins (h : ReadsAsStmt ts s) : Begins opensDeclaration (ts.map Token.kind) := by
  obtain ⟨eof, made, heof, hs, hclean⟩ := h.read
  have hword := derives_of_program hclean
  rw [Cursor.ofTokens_append h.notEof heof] at hword
  rcases derives_many.mp (derives_rule.mp hword) with hnil | ⟨u, v, heq, hfirst, -⟩
  · have hnone : ts = [] := List.map_eq_nil_iff.mp hnil
    obtain ⟨n, eof, i, j, hrun⟩ := h.run
    obtain ⟨-, hread⟩ := (Parse.declaration_spans n _).of_ok hrun
    exact absurd (hread rfl trivial).1 (by simp [Extent.Reads, hnone])
  · have hkinds : ts.map Token.kind = u ++ v := heq
    rw [hkinds]
    exact (declaration_begins hfirst).append v

variable {ts' rest : List Token}

/-- In front of whatever else, the tokens of a declaration are read as this declaration, even if
they stand on other lines. -/
theorem declaration (h : ReadsAsStmt ts s) (hts : List.Forall₂ Mirror.sameText.token ts ts')
    (helse : (rest.map Token.kind).head? ≠ some (.keyword .else_)) :
    Parse.Yields (Option.Rel (Stmt.Mirrored .sameText) (some s)) Parse.declaration (ts' ++ rest)
      rest := by
  intro i
  obtain ⟨n, eof, made, j, hrun⟩ := h.run
  have hstart : Cursor.Mirrored .sameText ⟨ts, eof, made, []⟩ ⟨ts', eof, i, []⟩ :=
    ⟨hts, ⟨rfl, rfl⟩, trivial, .nil⟩
  have hmirrored := (Parse.declarationMirrored .sameText (le_refl n)).declaration _ _ hstart
  rw [hrun] at hmirrored
  generalize hmoved : Parse.declaration n ⟨ts', eof, i, []⟩ = r at hmirrored
  cases hmirrored with
  | @ok _ s' _ d hs hd =>
    have hahead : d.ahead = [] := List.forall₂_nil_left_iff.mp hd.ahead
    have hclean : d.complaints = [] := List.forall₂_nil_left_iff.mp hd.complaints
    have hhead : ∀ t ∈ rest.head?, t.kind ≠ .keyword .else_ := by
      intro t ht hkind
      exact helse (by rw [List.head?_map, ht, ← hkind]; rfl)
    refine ⟨s', d.made, hs, fun eof' complaints => ⟨n, fun n' hn => ?_⟩⟩
    obtain ⟨-, hlocal⟩ := ((Parse.declarationLocal hhead eof' hn).declaration _).of_ok hmoved
    have hfollowed := (hlocal hclean trivial).2
    have hcarried := (Parse.declarationCarries complaints n').declaration
      (Cursor.followedBy ⟨ts', eof, i, []⟩ rest eof')
    rw [hfollowed] at hcarried
    simpa [Cursor.followedBy, Cursor.carrying, Reply.carrying, hahead, hclean] using hcarried

end ReadsAsStmt

end Lox
