import Lox.Proofs.Grammar.Lookahead
import Lox.Proofs.Grammar.Prediction
import Lox.Proofs.Mirror.Basic
import Lox.Proofs.Tree.Unparsing

/-!
# Reading written expressions

The tokens of an expression are read as this expression again, if every part of it is of the grade
that its place asks for, and if what follows is not taken for a part of it. This goes by induction
on the expression, along the rules that make it of its grade.

Calls and chains of operators are read from left to right, and the readers do not know when they
are at the end of one. So of an expression on these levels nothing is said that looks like a result:
after its tokens the reader goes on from the expression as from what it has read so far
(`Resumes`). Whoever knows what comes next turns this into a result.
-/

namespace Lox

namespace Parse

/-! ### Readers with enough fuel -/

section

variable {α β : Type} {ts us vs : List Token} {i j k : Nat} {a : α} {b : β}

/-- With enough fuel the reader goes from the tokens `ts` to `us` and returns `a` without a
complaint; the number of nodes made goes from `i` to `j`. -/
def Gives (p : Nat → Parse α) (ts : List Token) (i : Nat) (a : α) (us : List Token)
    (j : Nat) : Prop :=
  ∀ eof complaints, ∃ k, ∀ n, k ≤ n → p n ⟨ts, eof, i, complaints⟩ = .ok a ⟨us, eof, j, complaints⟩

theorem gives_pure : Gives (fun _ => (pure a : Parse α)) ts i a ts i :=
  fun _ _ => ⟨0, fun _ _ => rfl⟩

theorem Gives.succ {p : Nat → Parse α} (h : Gives (fun n => p (n + 1)) ts i a us j) :
    Gives p ts i a us j := by
  intro eof complaints
  obtain ⟨k, hk⟩ := h eof complaints
  refine ⟨k + 1, fun n hn => ?_⟩
  obtain ⟨n, rfl⟩ : ∃ m, n = m + 1 := ⟨n - 1, by omega⟩
  exact hk n (by omega)

theorem Gives.bind {p : Nat → Parse α} {f : Nat → α → Parse β} (hp : Gives p ts i a us j)
    (hf : Gives (fun n => f n a) us j b vs k) : Gives (fun n => p n >>= f n) ts i b vs k := by
  intro eof complaints
  obtain ⟨k₁, hp⟩ := hp eof complaints
  obtain ⟨k₂, hf⟩ := hf eof complaints
  refine ⟨max k₁ k₂, fun n hn => ?_⟩
  exact (bind_of_ok (hp n (by omega))).trans (hf n (by omega))

theorem gives_step {p : Parse α} {f : Nat → α → Parse β}
    (hp : ∀ eof complaints, p ⟨ts, eof, i, complaints⟩ = .ok a ⟨us, eof, j, complaints⟩)
    (hf : Gives (fun n => f n a) us j b vs k) : Gives (fun n => p >>= f n) ts i b vs k :=
  Gives.bind (p := fun _ => p) (fun eof complaints => ⟨0, fun _ _ => hp eof complaints⟩) hf

theorem gives_freshId {f : Nat → NodeId → Parse β}
    (hf : Gives (fun n => f n (.ofNat i)) ts (i + 1) b us j) :
    Gives (fun n => freshId >>= f n) ts i b us j :=
  gives_step (fun _ _ => rfl) hf

theorem gives_acceptIf_some {test : TokenKind → Bool} {t : Token} {f : Nat → Option Token → Parse β}
    (ht : test t.kind = true) (hf : Gives (fun n => f n (some t)) ts i b us j) :
    Gives (fun n => acceptIf test >>= f n) (t :: ts) i b us j :=
  gives_step (fun _ _ => if_pos ht) hf

theorem gives_acceptIf_none {test : TokenKind → Bool} {f : Nat → Option Token → Parse β}
    (htest : ∀ k, (ts.map Token.kind).head? = some k → test k = false)
    (hf : Gives (fun n => f n none) ts i b us j) :
    Gives (fun n => acceptIf test >>= f n) ts i b us j := by
  refine gives_step (fun _ _ => ?_) hf
  cases ts with
  | nil => rfl
  | cons t ts => exact if_neg (by simp [htest t.kind rfl])

theorem gives_accept_some {k : TokenKind} {t : Token} {f : Nat → Option Token → Parse β}
    (ht : t.kind = k) (hf : Gives (fun n => f n (some t)) ts i b us j) :
    Gives (fun n => accept k >>= f n) (t :: ts) i b us j :=
  gives_acceptIf_some (by simp [ht]) hf

theorem gives_accept_none {k : TokenKind} {f : Nat → Option Token → Parse β}
    (hk : (ts.map Token.kind).head? ≠ some k) (hf : Gives (fun n => f n none) ts i b us j) :
    Gives (fun n => accept k >>= f n) ts i b us j := by
  refine gives_acceptIf_none (fun k' hk' => beq_eq_false_iff_ne.mpr ?_) hf
  rintro rfl
  exact hk hk'

theorem gives_expect {k : TokenKind} {what : Expected} {t : Token} {f : Nat → Token → Parse β}
    (ht : t.kind = k) (hf : Gives (fun n => f n t) ts i b us j) :
    Gives (fun n => expect k what >>= f n) (t :: ts) i b us j := by
  refine gives_step (fun eof complaints => ?_) hf
  have haccept : accept k ⟨t :: ts, eof, i, complaints⟩ = .ok (some t) ⟨ts, eof, i, complaints⟩ :=
    if_pos (by simp [ht])
  rw [expect, bind_of_ok haccept]
  rfl

theorem gives_check {k : TokenKind} {f : Nat → Bool → Parse β} {c : Bool}
    (hk : (c = true ↔ (ts.map Token.kind).head? = some k))
    (hf : Gives (fun n => f n c) ts i b us j) : Gives (fun n => check k >>= f n) ts i b us j := by
  refine gives_step (fun eof complaints => ?_) hf
  have hcheck := check_kinds (k := k) ⟨ts, eof, i, complaints⟩
  rw [check, Bool.eq_iff_iff.mpr (hcheck.trans hk.symm)]

theorem gives_checkArity {count : Nat} {x : ParseError} {f : Nat → Unit → Parse β}
    (hcount : count < maxArity) (hf : Gives (fun n => f n ()) ts i b us j) :
    Gives (fun n => checkArity count x >>= f n) ts i b us j :=
  gives_step (fun _ _ => if_neg (by omega)) hf

end

/-! ### From one grade to the next -/

section

variable (μ : Mirror)

/-- The tokens are read as a mirror image of the expression. -/
def Rereads (p : Nat → Parse Expr) (e : Expr) (ts rest : List Token) : Prop :=
  ∀ i, ∃ e' j, e.Mirrored μ e' ∧ Gives p (ts ++ rest) i e' rest j

/-- After the tokens, the reader `p` goes on like `q` from a mirror image of the expression. -/
def Resumes (p : Nat → Parse Expr) (q : Nat → Expr → Parse Expr) (e : Expr)
    (ts rest : List Token) : Prop :=
  ∀ i, ∃ e' j, e.Mirrored μ e' ∧
    ∀ x us k, Gives (fun n => q n e') rest j x us k → Gives p (ts ++ rest) i x us k

end

variable {μ : Mirror} {e : Expr} {ts us rest : List Token} {l : Level}

theorem Resumes.rereads {p : Nat → Parse Expr} {q : Nat → Expr → Parse Expr}
    (h : Resumes μ p q e ts rest) (hq : ∀ e j, Gives (fun n => q n e) rest j e rest j) :
    Rereads μ p e ts rest := by
  intro i
  obtain ⟨e', j, he, hp⟩ := h i
  exact ⟨e', j, he, hp e' rest j (hq e' j)⟩

theorem chainRest_gives (hrest : Stops (l.depth + 1) (rest.map Token.kind)) (e : Expr)
    (j : Nat) : Gives (fun n => chainRest n l e) rest j e rest j := by
  refine Gives.succ ?_
  simp only [chainRest]
  exact gives_acceptIf_none (hrest.not_operator (Nat.lt_succ_self _)) gives_pure

theorem callRest_gives (hrest : Stops 0 (rest.map Token.kind)) (e : Expr) (j : Nat) :
    Gives (fun n => callRest n e) rest j e rest j := by
  refine Gives.succ ?_
  simp only [callRest]
  refine gives_accept_none hrest.head?_ne_leftParen ?_
  exact gives_accept_none hrest.head?_ne_dot gives_pure

/-- What is known of reading the tokens of an expression of some grade. -/
def RereadsAs (μ : Mirror) : Grade → Expr → List Token → List Token → Prop
  | .expression => Rereads μ expression
  | .chain l => Resumes μ (chain · l) (chainRest · l)
  | .unary => Rereads μ unary
  | .call | .primary => Resumes μ unary callRest

theorem operand_rereads (h : RereadsAs μ l.operandGrade e ts rest)
    (hrest : Stops l.depth (rest.map Token.kind)) : Rereads μ (operand · l) e ts rest := by
  have hoperand : ∀ p, (∀ n, operand (n + 1) l = p n) → Rereads μ p e ts rest →
      Rereads μ (operand · l) e ts rest := by
    intro p hp hread i
    obtain ⟨e', j, he, hgives⟩ := hread i
    exact ⟨e', j, he, Gives.succ (by simpa only [hp] using hgives)⟩
  cases hl : l.tighter? with
  | none =>
    rw [Level.operandGrade, hl] at h
    exact hoperand unary (fun n => by rw [operand, hl]) h
  | some l' =>
    rw [Level.operandGrade, hl] at h
    refine hoperand (chain · l') (fun n => by rw [operand, hl]) (h.rereads (chainRest_gives ?_))
    obtain ⟨-, hdepth⟩ := Level.of_tighter? hl
    exact hrest.mono hdepth.ge

/-- An operand is a chain without operators, which may go on behind it. -/
theorem chain_resumes (h : Rereads μ (operand · l) e ts rest) :
    Resumes μ (chain · l) (chainRest · l) e ts rest := by
  intro i
  obtain ⟨e', j, he, hgives⟩ := h i
  refine ⟨e', j, he, fun x us k hx => Gives.succ ?_⟩
  simp only [chain]
  exact hgives.bind hx

theorem expression_rereads (h : Resumes μ (chain · .or) (chainRest · .or) e ts rest)
    (hrest : Closes (rest.map Token.kind)) : Rereads μ expression e ts rest := by
  intro i
  obtain ⟨e', j, he, hgives⟩ := h.rereads (chainRest_gives hrest.stops) i
  refine ⟨e', j, he, Gives.succ ?_⟩
  simp only [expression]
  exact hgives.bind (gives_accept_none hrest.not_equal gives_pure)

theorem chain_resumes_of_call (h : Resumes μ unary callRest e ts rest) (l : Level)
    (hrest : Stops l.depth (rest.map Token.kind)) :
    Resumes μ (chain · l) (chainRest · l) e ts rest := by
  induction l using Level.induct_tighter with
  | hfactor => exact chain_resumes (operand_rereads (h.rereads (callRest_gives hrest)) hrest)
  | hstep l l' hl ih =>
    obtain ⟨-, hdepth⟩ := Level.of_tighter? hl
    have hoperand : RereadsAs μ l.operandGrade e ts rest := by
      rw [Level.operandGrade, hl]
      exact ih (hrest.mono (by omega))
    exact chain_resumes (operand_rereads hoperand hrest)

theorem Resumes.of_primary {t : Token} (ht : isUnaryOperator t.kind = false)
    (h : Rereads μ primary e (t :: ts) rest) : Resumes μ unary callRest e (t :: ts) rest := by
  intro i
  obtain ⟨e', j, he, hgives⟩ := h i
  refine ⟨e', j, he, fun x us k hx => Gives.succ ?_⟩
  simp only [unary]
  exact gives_acceptIf_none (by simp [ht]) (hgives.bind hx)

theorem chain_rereads_of_call {equals : Token}
    (h : Resumes μ unary callRest e ts (equals :: rest))
    (hequals : equals.kind = .symbol .equal) :
    Rereads μ (chain · .or) e ts (equals :: rest) := by
  have hstops : ∀ d, Stops d ((equals :: rest).map Token.kind) := by
    intro d
    rw [List.map_cons, hequals]
    exact stops_equal d _
  exact (chain_resumes_of_call h .or (hstops _)).rereads (chainRest_gives (hstops _))

/-- What is read before and after an equals sign becomes an assignment. -/
theorem expression_gives {target value : Expr} {equals : Token} {i j k : Nat}
    (hequals : equals.kind = .symbol .equal)
    (htarget : Gives (chain · .or) ts i target (equals :: us) j)
    (hvalue : Gives expression us j value rest k)
    (hassign : Gives (fun _ => assignment target equals value) rest k e rest (k + 1)) :
    Gives expression ts i e rest (k + 1) := by
  refine Gives.succ ?_
  simp only [expression]
  exact htarget.bind (gives_accept_some hequals (hvalue.bind hassign))

/-! ### Operators, calls and assignments -/

section

variable (hnode : ∀ i j, μ.node i j) {id : NodeId} {op op' name name' : Token}

include hnode

theorem Resumes.join {left right : Expr} (hop : l.hasOperator op.kind = true)
    (hmirror : μ.token op op')
    (hleft : Resumes μ (chain · l) (chainRest · l) left ts (op' :: (us ++ rest)))
    (hright : Rereads μ (operand · l) right us rest) :
    Resumes μ (chain · l) (chainRest · l) (l.join id left op right) (ts ++ op' :: us) rest := by
  intro i
  obtain ⟨left', j, hmleft, hleft⟩ := hleft i
  obtain ⟨right', k, hmright, hright⟩ := hright j
  refine ⟨l.join (.ofNat k) left' op' right', k + 1, ?_, fun x vs m hx => ?_⟩
  · cases l <;> first
      | exact .logical (hnode _ _) hmleft hmirror hmright
      | exact .binary (hnode _ _) hmleft hmirror hmright
  · rw [List.append_assoc, List.cons_append]
    refine hleft x vs m (Gives.succ ?_)
    simp only [chainRest]
    refine gives_acceptIf_some (by rwa [μ.kind hmirror]) ?_
    exact hright.bind (gives_freshId hx)

theorem Rereads.unary {right : Expr} (hop : isUnaryOperator op.kind = true)
    (hmirror : μ.token op op') (hright : Rereads μ unary right ts rest) :
    Rereads μ unary (.unary id op right) (op' :: ts) rest := by
  intro i
  obtain ⟨right', j, hmright, hright⟩ := hright i
  refine ⟨.unary (.ofNat j) op' right', j + 1, .unary (hnode _ _) hmirror hmright, Gives.succ ?_⟩
  simp only [Parse.unary]
  refine gives_acceptIf_some (by rwa [μ.kind hmirror]) ?_
  exact hright.bind (gives_freshId gives_pure)

theorem Resumes.get {object : Expr} {dot : Token} (hdot : dot.kind = .symbol .dot)
    (hname : name.kind = .identifier) (hmirror : μ.token name name')
    (hobject : Resumes μ unary callRest object ts (dot :: name' :: rest)) :
    Resumes μ unary callRest (.get id object name) (ts ++ [dot, name']) rest := by
  intro i
  obtain ⟨object', j, hmobject, hobject⟩ := hobject i
  refine ⟨.get (.ofNat j) object' name', j + 1, .get (hnode _ _) hmobject hmirror, ?_⟩
  intro x us k hx
  rw [List.append_assoc]
  refine hobject x us k (Gives.succ ?_)
  simp only [callRest]
  refine gives_accept_none (by simp [hdot]) (gives_accept_some hdot ?_)
  have hget : Gives (fun _ => property object') (name' :: rest) j
      (.get (.ofNat j) object' name') rest (j + 1) :=
    gives_expect (by rwa [μ.kind hmirror]) (gives_freshId gives_pure)
  exact hget.bind hx

theorem Resumes.call {callee : Expr} {args : List Expr} {opening paren paren' : Token}
    (hopening : opening.kind = .symbol .leftParen) (hparen : paren.kind = .symbol .rightParen)
    (hmirror : μ.token paren paren')
    (hcallee : Resumes μ unary callRest callee ts (opening :: (us ++ paren' :: rest)))
    (hargs : ∀ i, ∃ args' j, MirroredArgs μ args args' ∧
      Gives arguments (us ++ paren' :: rest) i args' (paren' :: rest) j) :
    Resumes μ unary callRest (.call id callee paren args) (ts ++ opening :: (us ++ [paren']))
      rest := by
  intro i
  obtain ⟨callee', j, hmcallee, hcallee⟩ := hcallee i
  obtain ⟨args', k, hmargs, hargs⟩ := hargs j
  have hmirrored := Expr.Mirrored.call (hnode id (.ofNat k)) hmcallee hmirror hmargs
  refine ⟨.call (.ofNat k) callee' paren' args', k + 1, hmirrored, ?_⟩
  intro x vs m hx
  rw [List.append_assoc, List.cons_append, List.append_assoc]
  refine hcallee x vs m (Gives.succ ?_)
  simp only [callRest]
  refine gives_accept_some hopening (hargs.bind ?_)
  exact gives_expect (by rwa [μ.kind hmirror]) (gives_freshId hx)

/-! ### Primary expressions -/

theorem resumes_literal {v : Literal} {t : Token} (ht : t.kind = v.kind) :
    Resumes μ unary callRest (.literal id v) [t] rest := by
  have hunary : isUnaryOperator t.kind = false := by
    rw [ht]
    cases v with
    | bool b => cases b <;> rfl
    | _ => rfl
  refine .of_primary hunary fun i => ?_
  refine ⟨.literal (.ofNat i) v, i + 1, .literal (hnode _ _) v, Gives.succ ?_⟩
  simp only [primary]
  refine gives_acceptIf_some (by simp [ht, literalOf?_kind]) (gives_freshId ?_)
  simp only [ht, literalOf?_kind, Option.getD_some]
  exact gives_pure

theorem resumes_this (hname : name.kind = .keyword .this) (hmirror : μ.token name name') :
    Resumes μ unary callRest (.this id name) [name'] rest := by
  have hkind : name'.kind = .keyword .this := by rw [μ.kind hmirror, hname]
  refine .of_primary (by rw [hkind]; rfl) fun i =>
    ⟨.this (.ofNat i) name', i + 1, .this (hnode _ _) hmirror, Gives.succ ?_⟩
  simp only [primary]
  refine gives_acceptIf_none (by simp [hkind, literalOf?]) ?_
  refine gives_accept_none (by simp [hkind]) (gives_accept_some hkind ?_)
  exact gives_freshId gives_pure

theorem resumes_var (hname : name.kind = .identifier) (hmirror : μ.token name name') :
    Resumes μ unary callRest (.var id name) [name'] rest := by
  have hkind : name'.kind = .identifier := by rw [μ.kind hmirror, hname]
  refine .of_primary (by rw [hkind]; rfl) fun i =>
    ⟨.var (.ofNat i) name', i + 1, .var (hnode _ _) hmirror, Gives.succ ?_⟩
  simp only [primary]
  refine gives_acceptIf_none (by simp [hkind, literalOf?]) ?_
  refine gives_accept_none (by simp [hkind]) (gives_accept_none (by simp [hkind]) ?_)
  exact gives_accept_some hkind (gives_freshId gives_pure)

theorem resumes_super {keyword keyword' dot : Token} (hkeyword : keyword.kind = .keyword .super)
    (hmkeyword : μ.token keyword keyword') (hdot : dot.kind = .symbol .dot)
    (hname : name.kind = .identifier) (hmirror : μ.token name name') :
    Resumes μ unary callRest (.super id keyword name) [keyword', dot, name'] rest := by
  have hkind : keyword'.kind = .keyword .super := by rw [μ.kind hmkeyword, hkeyword]
  refine .of_primary (by rw [hkind]; rfl) fun i =>
    ⟨.super (.ofNat i) keyword' name', i + 1, .super (hnode _ _) hmkeyword hmirror, Gives.succ ?_⟩
  simp only [primary]
  refine gives_acceptIf_none (by simp [hkind, literalOf?]) (gives_accept_some hkind ?_)
  refine gives_expect hdot (gives_expect (by rwa [μ.kind hmirror]) ?_)
  exact gives_freshId gives_pure

theorem Resumes.grouping {inner : Expr} {opening closing : Token}
    (hopening : opening.kind = .symbol .leftParen) (hclosing : closing.kind = .symbol .rightParen)
    (hinner : Rereads μ expression inner ts (closing :: rest)) :
    Resumes μ unary callRest (.grouping id inner) (opening :: (ts ++ [closing])) rest := by
  refine .of_primary (by rw [hopening]; rfl) fun i => ?_
  obtain ⟨inner', j, hminner, hinner⟩ := hinner i
  refine ⟨.grouping (.ofNat j) inner', j + 1, .grouping (hnode _ _) hminner, Gives.succ ?_⟩
  simp only [primary, List.cons_append, List.append_assoc]
  refine gives_acceptIf_none (by simp [hopening, literalOf?]) ?_
  refine gives_accept_none (by simp [hopening]) (gives_accept_none (by simp [hopening]) ?_)
  refine gives_accept_none (by simp [hopening]) (gives_accept_some hopening ?_)
  exact hinner.bind (gives_expect hclosing (gives_freshId gives_pure))

/-! ### Assignments -/

theorem Rereads.assign {value : Expr} {equals : Token} (hequals : equals.kind = .symbol .equal)
    (hname : name.kind = .identifier) (hmirror : μ.token name name')
    (hvalue : Rereads μ expression value us rest) :
    Rereads μ expression (.assign id name value) (name' :: equals :: us) rest := by
  intro i
  have hvar :
      Resumes μ Parse.unary callRest (.var (.ofNat i) name) [name'] (equals :: (us ++ rest)) :=
    resumes_var hnode hname hmirror
  obtain ⟨target, j, hmtarget, htarget⟩ := chain_rereads_of_call hvar hequals i
  obtain ⟨value', k, hmvalue, hvalue⟩ := hvalue j
  cases hmtarget with
  | var hid hmname =>
    refine ⟨.assign (.ofNat k) _ value', k + 1, .assign (hnode _ _) hmname hmvalue, ?_⟩
    exact expression_gives hequals htarget hvalue (gives_freshId gives_pure)

theorem Rereads.set {object value : Expr} {dot equals : Token} (hdot : dot.kind = .symbol .dot)
    (hequals : equals.kind = .symbol .equal) (hname : name.kind = .identifier)
    (hmirror : μ.token name name')
    (hobject : Resumes μ Parse.unary callRest object ts (dot :: name' :: equals :: (us ++ rest)))
    (hvalue : Rereads μ expression value us rest) :
    Rereads μ expression (.set id object name value) (ts ++ dot :: name' :: equals :: us) rest := by
  intro i
  have hget : Resumes μ Parse.unary callRest (.get (.ofNat i) object name) (ts ++ [dot, name'])
      (equals :: (us ++ rest)) := hobject.get hnode hdot hname hmirror
  obtain ⟨target, j, hmtarget, htarget⟩ := chain_rereads_of_call hget hequals i
  obtain ⟨value', k, hmvalue, hvalue⟩ := hvalue j
  cases hmtarget with
  | get hid hmobject hmname =>
    refine ⟨.set (.ofNat k) _ _ value', k + 1, .set (hnode _ _) hmobject hmname hmvalue, ?_⟩
    have hread := expression_gives hequals htarget hvalue (gives_freshId gives_pure)
    simpa using hread

end

/-! ### All expressions -/

end Parse

/-- What must follow an expression of some grade, so that it is not taken for a part of it. -/
def Grade.Ends : Grade → Word → Prop
  | .expression, rest => Closes rest
  | .chain l, rest => Stops l.depth rest
  | .unary, rest => Stops 0 rest
  | .call, _ | .primary, _ => True

theorem Level.operandGrade_ends {l : Level} {rest : Word} (h : Stops l.depth rest) :
    l.operandGrade.Ends rest := by
  unfold operandGrade
  cases hl : l.tighter? with
  | none => exact h.mono (Nat.zero_le _)
  | some l' =>
    obtain ⟨-, hdepth⟩ := of_tighter? hl
    exact h.mono (by omega)

theorem closes_of_symbol {t : Token} {s : Symbol} (ht : t.kind = .symbol s)
    (hs : s ∈ [Symbol.comma, .semicolon, .rightParen]) (rest : List Token) :
    Closes ((t :: rest).map Token.kind) := by
  rw [List.map_cons, ht]
  exact closes_symbol hs _

theorem Expr.OfGrade.begins {g : Grade} {e : Expr} (h : e.OfGrade g) :
    Begins opensExpression (e.unparse.map Mark.kind) := by
  induction h with
  | chain _ ih | operand _ ih | ofCall _ ih | ofPrimary _ ih => exact ih
  | join _ _ _ _ ihleft _ =>
    rw [Level.unparse_join, List.map_append]
    exact ihleft.append _
  | set _ _ _ ihobject _ =>
    rw [unparse, List.map_append]
    exact ihobject.append _
  | call _ _ _ _ ihcallee _ =>
    rw [unparse, List.map_append]
    exact ihcallee.append _
  | get _ _ ihobject =>
    rw [unparse, List.map_append]
    exact ihobject.append _
  | assign hname _ _ => exact ⟨_, _, rfl, by simp [Mark.kind, hname, opensExpression, opensPrimary]⟩
  | unary hop _ _ => exact ⟨_, _, rfl, by simp [Mark.kind, hop, opensExpression]⟩
  | literal _ value =>
    refine ⟨_, _, rfl, ?_⟩
    cases value with
    | bool b => cases b <;> rfl
    | _ => rfl
  | this hkeyword => exact ⟨_, _, rfl, by simp [Mark.kind, hkeyword, opensExpression, opensPrimary]⟩
  | var hname => exact ⟨_, _, rfl, by simp [Mark.kind, hname, opensExpression, opensPrimary]⟩
  | super hkeyword _ =>
    exact ⟨_, _, rfl, by simp [Mark.kind, hkeyword, opensExpression, opensPrimary]⟩
  | grouping _ _ => exact ⟨_, _, rfl, rfl⟩

theorem unparseArgs_begins {es : List Expr} (hne : es ≠ [])
    (hgrade : ∀ e ∈ es, e.OfGrade .expression) :
    Begins opensExpression ((unparseArgs es).map Mark.kind) := by
  obtain ⟨e, es, rfl⟩ := List.exists_cons_of_ne_nil hne
  have hfirst := (hgrade e List.mem_cons_self).begins
  by_cases hlast : es = []
  · subst hlast
    exact hfirst
  · rw [unparseArgs_cons hlast, List.map_append]
    exact hfirst.append _

variable {μ : Mirror}

theorem Mark.kinds_of_forall₂ {ms : List Mark} {ts : List Token}
    (h : List.Forall₂ (Fits μ.token) ms ts) : ts.map Token.kind = ms.map Mark.kind := by
  induction h with
  | nil => rfl
  | @cons m t ms ts hfits _ ih =>
    have hkind : t.kind = m.kind := by
      cases m with
      | kept u => exact μ.kind hfits
      | made k => exact hfits
    rw [List.map_cons, List.map_cons, hkind, ih]

namespace Parse

section

variable {es : List Expr} {closing : Token} {ts rest : List Token}
  (hes : ∀ e ∈ es, ∀ ts rest, e.WrittenAs μ.token ts → Closes (rest.map Token.kind) →
    Rereads μ expression e ts rest)
  (hclosing : closing.kind = .symbol .rightParen)
  (hts : List.Forall₂ (Mark.Fits μ.token) (unparseArgs es) ts)

include hes hclosing hts

theorem argumentsFrom_rereads (hne : es ≠ []) (count : Nat) (hcount : count + es.length ≤ maxArity)
    (i : Nat) :
    ∃ es' j, MirroredArgs μ es es' ∧
      Gives (argumentsFrom · count) (ts ++ closing :: rest) i es' (closing :: rest) j := by
  induction es generalizing count ts i with
  | nil => exact absurd rfl hne
  | cons e es ih =>
    rw [List.forall_mem_cons] at hes
    rw [List.length_cons] at hcount
    by_cases hlast : es = []
    · subst hlast
      obtain ⟨e', j, he, hgives⟩ := hes.1 ts (closing :: rest) hts
        (closes_of_symbol hclosing (by simp) _) i
      refine ⟨[e'], j, .cons he .nil, Gives.succ ?_⟩
      simp only [argumentsFrom]
      refine gives_checkArity (by omega) (hgives.bind ?_)
      exact gives_accept_none (by simp [hclosing]) gives_pure
    · rw [unparseArgs_cons hlast] at hts
      obtain ⟨us, _, hus, _ | ⟨hcomma, hvs⟩, rfl⟩ := Mark.forall₂_append hts
      rename_i comma vs
      obtain ⟨e', j, he, hgives⟩ := hes.1 us (comma :: (vs ++ closing :: rest)) hus
        (closes_of_symbol hcomma (by simp) _) i
      obtain ⟨es', k, hmirrored, hrest⟩ := ih hes.2 hvs hlast (count + 1) (by omega) j
      refine ⟨e' :: es', k, .cons he hmirrored, Gives.succ ?_⟩
      simp only [argumentsFrom, List.append_assoc, List.cons_append]
      refine gives_checkArity (by omega) (hgives.bind ?_)
      exact gives_accept_some hcomma (hrest.bind gives_pure)

theorem arguments_rereads (hgrade : ∀ e ∈ es, e.OfGrade .expression) (hcount : es.length ≤ maxArity)
    (i : Nat) :
    ∃ es' j, MirroredArgs μ es es' ∧
      Gives arguments (ts ++ closing :: rest) i es' (closing :: rest) j := by
  by_cases hnone : es = []
  · subst hnone
    cases hts
    refine ⟨[], i, .nil, Gives.succ ?_⟩
    simp only [arguments]
    refine gives_check (c := true) ?_ gives_pure
    simp [hclosing]
  · obtain ⟨es', j, hmirrored, hgives⟩ :=
      argumentsFrom_rereads hes hclosing hts hnone 0 (by omega) i
    refine ⟨es', j, hmirrored, Gives.succ ?_⟩
    simp only [arguments]
    have hbegins : Begins opensExpression ((ts ++ closing :: rest).map Token.kind) := by
      rw [List.map_append, Mark.kinds_of_forall₂ hts]
      exact (unparseArgs_begins hnone hgrade).append _
    exact gives_check (c := false) (iff_of_false (by simp) (hbegins.head?_ne rfl)) hgives

end

/-- The tokens of an expression of some grade are read as it again. -/
theorem rereadsAs (hnode : ∀ i j, μ.node i j) {g : Grade} {e : Expr} (h : e.OfGrade g)
    (ts rest : List Token) (hts : e.WrittenAs μ.token ts) (hrest : g.Ends (rest.map Token.kind)) :
    RereadsAs μ g e ts rest := by
  induction h generalizing ts rest with
  | assign hname _ ih =>
    obtain _ | ⟨hmirror, _ | ⟨hequals, hus⟩⟩ := hts
    exact (ih _ rest hus hrest).assign hnode hequals hname hmirror
  | set _ hname _ ihobject ihvalue =>
    obtain ⟨us, _, hus, _ | ⟨hdot, _ | ⟨hmirror, _ | ⟨hequals, hvs⟩⟩⟩, rfl⟩ :=
      Mark.forall₂_append hts
    exact .set hnode hdot hequals hname hmirror (ihobject us _ hus trivial)
      (ihvalue _ rest hvs hrest)
  | chain _ ih => exact expression_rereads (ih ts rest hts (hrest.stops.mono (by decide))) hrest
  | join id _ hop _ ihleft ihright =>
    rw [Expr.WrittenAs, Level.unparse_join] at hts
    obtain ⟨us, _, hus, _ | ⟨hmirror, hvs⟩, rfl⟩ := Mark.forall₂_append hts
    have hright := ihright _ rest hvs (Level.operandGrade_ends hrest)
    refine Resumes.join hnode hop hmirror (ihleft us _ hus ?_) (operand_rereads hright hrest)
    -- The operator is not of a tighter level, so it does not go on with the left operand.
    rw [List.map_cons, μ.kind hmirror]
    exact stops_operator hop _
  | operand _ ih =>
    exact chain_resumes (operand_rereads (ih ts rest hts (Level.operandGrade_ends hrest)) hrest)
  | unary hop _ ih =>
    obtain _ | ⟨hmirror, hus⟩ := hts
    exact (ih _ rest hus hrest).unary hnode hop hmirror
  | ofCall _ ih => exact (ih ts rest hts trivial).rereads (callRest_gives hrest)
  | call _ hargs hcount hparen ihcallee ihargs =>
    obtain ⟨us, _, hus, _ | ⟨hopening, hvs⟩, rfl⟩ := Mark.forall₂_append hts
    obtain ⟨vs, _, hargs', _ | ⟨hmirror, _ | _⟩, rfl⟩ := Mark.forall₂_append hvs
    refine .call hnode hopening hparen hmirror (ihcallee us _ hus trivial) ?_
    exact arguments_rereads ihargs (by rwa [μ.kind hmirror]) hargs' hargs hcount
  | get _ hname ih =>
    obtain ⟨us, _, hus, _ | ⟨hdot, _ | ⟨hmirror, _ | _⟩⟩, rfl⟩ := Mark.forall₂_append hts
    exact (ih us _ hus trivial).get hnode hdot hname hmirror
  | ofPrimary _ ih => exact ih ts rest hts trivial
  | literal id value =>
    obtain _ | ⟨hkind, _ | _⟩ := hts
    exact resumes_literal hnode hkind
  | this hkeyword =>
    obtain _ | ⟨hmirror, _ | _⟩ := hts
    exact resumes_this hnode hkeyword hmirror
  | var hname =>
    obtain _ | ⟨hmirror, _ | _⟩ := hts
    exact resumes_var hnode hname hmirror
  | super hkeyword hmethod =>
    obtain _ | ⟨hmkeyword, _ | ⟨hdot, _ | ⟨hmirror, _ | _⟩⟩⟩ := hts
    exact resumes_super hnode hkeyword hmkeyword hdot hmethod hmirror
  | grouping _ ih =>
    obtain _ | ⟨hopening, hus⟩ := hts
    obtain ⟨vs, _, hvs, _ | ⟨hclosing, _ | _⟩, rfl⟩ := Mark.forall₂_append hus
    have hinner := ih vs _ hvs (closes_of_symbol hclosing (by simp) rest)
    exact Resumes.grouping hnode hopening hclosing hinner

theorem wholeExpression_rereads {e : Expr} {ts : List Token}
    (h : Rereads μ expression e ts []) (i : Nat) :
    ∃ e' j, e.Mirrored μ e' ∧ Gives wholeExpression ts i e' [] j := by
  obtain ⟨e', j, he, hgives⟩ := h i
  rw [List.append_nil] at hgives
  exact ⟨e', j, he, hgives.bind (gives_step (fun _ _ => rfl) gives_pure)⟩

end Parse

end Lox
