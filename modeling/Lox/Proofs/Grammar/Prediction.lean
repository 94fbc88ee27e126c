import Lox.Proofs.Grammar.Recognition

/-!
# Reading a known word

A reader decides by the next token alone how to go on. `Takes p input rest Q` says that on an input
the reader returns something for which `Q` holds, leaves `rest`, and makes no complaint. The rules
take a reader apart along its steps. Where a step depends on the next token, the input shows which
way it goes.

The grammar fits this. `Begins` says with which tokens the words of a rule begin, and `Stops` and
`Closes` which tokens may follow an expression without being taken for a part of it.
-/

namespace Lox

theorem Cursor.ahead_of_kinds {c : Cursor} {k : TokenKind} {input : Word}
    (h : c.kinds = k :: input) :
    ∃ t ts, c.ahead = t :: ts ∧ t.kind = k ∧ ({ c with ahead := ts } : Cursor).kinds = input := by
  unfold Cursor.kinds at h ⊢
  cases hahead : c.ahead with
  | nil => simp [hahead] at h
  | cons t ts =>
    rw [hahead, List.map_cons, List.cons.injEq] at h
    exact ⟨t, ts, rfl, h.1, h.2⟩

theorem Cursor.ahead_eq_nil {c : Cursor} (h : c.kinds = []) : c.ahead = [] :=
  List.map_eq_nil_iff.mp h

namespace Parse

variable {α β : Type} {p : Parse α} {input middle rest : Word} {k : TokenKind} {P : α → Prop}
  {Q : β → Prop}

/-- On the input, the reader returns something for which `Q` holds, leaves `rest`, and makes no
complaint. -/
def Takes (p : Parse α) (input rest : Word) (Q : α → Prop) : Prop :=
  ∀ c : Cursor, c.kinds = input →
    ∃ a d, p c = .ok a d ∧ d.kinds = rest ∧ d.complaints = c.complaints ∧ Q a

/-! ### Rules -/

theorem Takes.mono {P' : α → Prop} (h : Takes p input rest P) (hP : ∀ a, P a → P' a) :
    Takes p input rest P' := by
  intro c hc
  obtain ⟨a, d, hp, hd, hcomplaints, ha⟩ := h c hc
  exact ⟨a, d, hp, hd, hcomplaints, hP a ha⟩

theorem takes_pure {a : α} (h : P a) : Takes (pure a : Parse α) rest rest P :=
  fun c hc => ⟨a, c, rfl, hc, rfl, h⟩

theorem Takes.bind {f : α → Parse β} (hp : Takes p input middle P)
    (hf : ∀ a, P a → Takes (f a) middle rest Q) : Takes (p >>= f) input rest Q := by
  intro c hc
  obtain ⟨a, d, hpc, hd, hcomplaints, ha⟩ := hp c hc
  obtain ⟨b, e, hfd, he, hcomplaints', hb⟩ := hf a ha d hd
  refine ⟨b, e, ?_, he, hcomplaints'.trans hcomplaints, hb⟩
  change Parse.bind p f c = _
  rw [Parse.bind, hpc]
  exact hfd

theorem takes_look {a : α} {f : α → Parse β} (hp : ∀ c, c.kinds = input → p c = .ok a c)
    (hf : Takes (f a) input rest Q) : Takes (p >>= f) input rest Q := by
  have hlook : Takes p input input fun b => b = a := fun c hc => ⟨a, c, hp c hc, hc, rfl, rfl⟩
  exact hlook.bind fun b hb => hb ▸ hf

theorem takes_freshId {f : NodeId → Parse β} (hf : ∀ id, Takes (f id) input rest Q) :
    Takes (freshId >>= f) input rest Q := by
  have hfresh : Takes freshId input input fun _ => True :=
    fun c hc => ⟨.ofNat c.made, _, rfl, hc, rfl, trivial⟩
  exact hfresh.bind fun id _ => hf id

theorem takes_acceptIf_some {test : TokenKind → Bool} {f : Option Token → Parse β}
    (htest : test k = true) (hf : ∀ t, Takes (f (some t)) input rest Q) :
    Takes (acceptIf test >>= f) (k :: input) rest Q := by
  have haccept : Takes (acceptIf test) (k :: input) input fun o => ∃ t, o = some t := by
    intro c hc
    obtain ⟨t, ts, hahead, hkind, hts⟩ := Cursor.ahead_of_kinds hc
    refine ⟨some t, { c with ahead := ts }, ?_, hts, rfl, t, rfl⟩
    rw [acceptIf, hahead]
    exact if_pos (hkind ▸ htest)
  refine haccept.bind ?_
  rintro _ ⟨t, rfl⟩
  exact hf t

theorem takes_acceptIf_none {test : TokenKind → Bool} {f : Option Token → Parse β}
    (htest : ∀ k, input.head? = some k → test k = false) (hf : Takes (f none) input rest Q) :
    Takes (acceptIf test >>= f) input rest Q := by
  refine takes_look (fun c hc => ?_) hf
  cases input with
  | nil => rw [acceptIf, Cursor.ahead_eq_nil hc]
  | cons k input =>
    obtain ⟨t, ts, hahead, hkind, -⟩ := Cursor.ahead_of_kinds hc
    rw [acceptIf, hahead]
    exact if_neg (by simp [hkind, htest k rfl])

theorem takes_accept_some {f : Option Token → Parse β}
    (hf : ∀ t, Takes (f (some t)) input rest Q) :
    Takes (accept k >>= f) (k :: input) rest Q :=
  takes_acceptIf_some (beq_self_eq_true k) hf

theorem takes_accept_none {f : Option Token → Parse β} (hk : input.head? ≠ some k)
    (hf : Takes (f none) input rest Q) : Takes (accept k >>= f) input rest Q := by
  refine takes_acceptIf_none (fun k' hk' => beq_eq_false_iff_ne.mpr ?_) hf
  rintro rfl
  exact hk hk'

theorem takes_expect {what : Expected} {f : Token → Parse β}
    (hf : ∀ t, Takes (f t) input rest Q) :
    Takes (expect k what >>= f) (k :: input) rest Q := by
  have hexpect : Takes (expect k what) (k :: input) input fun _ => True :=
    takes_accept_some fun t => takes_pure trivial
  exact hexpect.bind fun t _ => hf t

theorem check_kinds (c : Cursor) : c.check k = true ↔ c.kinds.head? = some k := by
  unfold Cursor.check Cursor.kinds
  cases c.ahead <;> simp

theorem takes_check_true {f : Bool → Parse β} (hf : Takes (f true) (k :: input) rest Q) :
    Takes (check k >>= f) (k :: input) rest Q := by
  refine takes_look (fun c hc => ?_) hf
  rw [check, (check_kinds c).mpr (by rw [hc]; rfl)]

theorem takes_check_false {f : Bool → Parse β} (hk : input.head? ≠ some k)
    (hf : Takes (f false) input rest Q) : Takes (check k >>= f) input rest Q := by
  refine takes_look (fun c hc => ?_) hf
  rw [check, Bool.eq_false_iff.mpr (fun hcheck => hk (hc ▸ (check_kinds c).mp hcheck))]

theorem takes_atEnd {f : Bool → Parse β} (hf : Takes (f true) [] rest Q) :
    Takes (atEnd >>= f) [] rest Q :=
  takes_look (fun c hc => by rw [atEnd, Cursor.ahead_eq_nil hc]; rfl) hf

theorem takes_atClosing_nil {inBraces : Bool} {f : Bool → Parse β}
    (hf : Takes (f true) [] rest Q) : Takes (atClosing inBraces >>= f) [] rest Q :=
  takes_look (fun c hc => by rw [atClosing, Cursor.ahead_eq_nil hc]; rfl) hf

theorem takes_atClosing_brace {f : Bool → Parse β}
    (hf : Takes (f true) (.symbol .rightBrace :: input) rest Q) :
    Takes (atClosing true >>= f) (.symbol .rightBrace :: input) rest Q := by
  refine takes_look (fun c hc => ?_) hf
  rw [atClosing, (check_kinds c).mpr (by rw [hc]; rfl), Bool.and_self, Bool.or_true]

theorem takes_atClosing_false {inBraces : Bool} {f : Bool → Parse β} (hnil : input ≠ [])
    (hbrace : input.head? ≠ some (.symbol .rightBrace)) (hf : Takes (f false) input rest Q) :
    Takes (atClosing inBraces >>= f) input rest Q := by
  refine takes_look (fun c hc => ?_) hf
  have hcheck : c.check (.symbol .rightBrace) = false :=
    Bool.eq_false_iff.mpr fun hcheck => hbrace (hc ▸ (check_kinds c).mp hcheck)
  have hahead : c.ahead.isEmpty = false := by
    rw [List.isEmpty_eq_false_iff]
    rintro hahead
    exact hnil (by rw [← hc, Cursor.kinds, hahead, List.map_nil])
  rw [atClosing, hcheck, hahead, Bool.and_false, Bool.or_false]

theorem takes_checkArity {count : Nat} {x : ParseError} {f : Unit → Parse β}
    (hcount : count < maxArity) (hf : Takes (f ()) input rest Q) :
    Takes (checkArity count x >>= f) input rest Q :=
  takes_look (fun _ _ => if_neg (by omega)) hf

theorem takes_recover (hp : Takes p input rest P) :
    Takes (recover p) input rest fun o => ∃ a, o = some a ∧ P a := by
  intro c hc
  obtain ⟨a, d, hpc, hd, hcomplaints, ha⟩ := hp c hc
  refine ⟨some a, d, ?_, hd, hcomplaints, a, rfl, ha⟩
  rw [recover, hpc]

end Parse

/-! ### Beginnings -/

/-- A token that begins a primary expression. -/
def opensPrimary : TokenKind → Bool
  | .number _ | .string _ | .identifier | .keyword .true | .keyword .false | .keyword .nil
  | .keyword .this | .keyword .super | .symbol .leftParen => true
  | _ => false

/-- A token that begins an expression. -/
def opensExpression (k : TokenKind) : Bool := opensPrimary k || isUnaryOperator k

/-- A token that begins a statement. -/
def opensStatement (k : TokenKind) : Bool :=
  match k with
  | .keyword .for_ | .keyword .if_ | .keyword .print | .keyword .return_ | .keyword .while_
  | .symbol .leftBrace => true
  | k => opensExpression k

/-- A token that begins a declaration. -/
def opensDeclaration (k : TokenKind) : Bool :=
  match k with
  | .keyword .class_ | .keyword .fun_ | .keyword .var => true
  | k => opensStatement k

/-- The first token passes a test. -/
def Begins (test : TokenKind → Bool) (w : Word) : Prop := ∃ k v, w = k :: v ∧ test k = true

variable {test test' : TokenKind → Bool} {u v w rest : Word} {k : TokenKind}

namespace Begins

theorem append (h : Begins test u) (v : Word) : Begins test (u ++ v) := by
  obtain ⟨k, u, rfl, hk⟩ := h
  exact ⟨k, u ++ v, rfl, hk⟩

theorem mono (h : Begins test w) (htest : ∀ k, test k = true → test' k = true) :
    Begins test' w := by
  obtain ⟨k, v, rfl, hk⟩ := h
  exact ⟨k, v, rfl, htest k hk⟩

theorem of_head? (h : Begins test w) (hk : w.head? = some k) : test k = true := by
  obtain ⟨k', v, rfl, hk'⟩ := h
  exact Option.some.inj hk ▸ hk'

theorem head?_ne (h : Begins test w) (hk : test k = false) : w.head? ≠ some k :=
  fun hhead => absurd (h.of_head? hhead) (by simp [hk])

theorem ne_nil (h : Begins test w) : w ≠ [] := by
  obtain ⟨k, v, rfl, -⟩ := h
  exact List.cons_ne_nil k v

end Begins

theorem primary_begins (h : Derives (.rule .primary) w) : Begins opensPrimary w := by
  rcases derives_primary.mp h with ⟨k, rfl, hk⟩ | rfl | rfl | ⟨u, rfl, -⟩ | rfl
  · refine ⟨k, [], rfl, ?_⟩
    rcases isSome_literalOf?.mp hk with ⟨n, rfl⟩ | ⟨s, rfl⟩ | rfl | rfl | rfl <;> rfl
  all_goals exact ⟨_, _, rfl, rfl⟩

theorem call_begins (h : Derives (.rule .call) w) : Begins opensPrimary w := by
  obtain ⟨u, v, rfl, hu, -⟩ := derives_call.mp h
  exact (primary_begins hu).append v

theorem Begins.of_primary (h : Begins opensPrimary w) : Begins opensExpression w :=
  h.mono fun k hk => by simp [opensExpression, hk]

theorem unary_begins (h : Derives (.rule .unary) w) : Begins opensExpression w := by
  rcases derives_unary.mp h with ⟨k, u, rfl, hk, -⟩ | hcall
  · exact ⟨k, u, rfl, by simp [opensExpression, hk]⟩
  · exact (call_begins hcall).of_primary

theorem chain_begins (l : Level) (h : Derives (.rule l.rule) w) : Begins opensExpression w := by
  induction l using Level.induct_tighter generalizing w with
  | hfactor =>
    obtain ⟨u, v, rfl, hu, -⟩ := derives_chain.mp h
    exact (unary_begins hu).append v
  | hstep l l' hl ih =>
    obtain ⟨u, v, rfl, hu, -⟩ := derives_chain.mp h
    rw [(Level.of_tighter? hl).1] at hu
    exact (ih hu).append v

theorem target_begins (h : Derives .target w) : Begins opensPrimary w := by
  rcases derives_target.mp h with rfl | ⟨u, rfl, hu⟩
  · exact ⟨_, _, rfl, rfl⟩
  · exact (call_begins hu).append _

theorem expression_begins (h : Derives (.rule .expression) w) : Begins opensExpression w := by
  rcases derives_expression.mp h with ⟨u, v, rfl, hu, -⟩ | hchain
  · exact (target_begins hu).of_primary.append _
  · exact chain_begins .or hchain

theorem function_begins (h : Derives (.rule .function) w) : Begins opensPrimary w := by
  obtain ⟨u, v, rfl, hu, -⟩ := derives_function.mp h
  obtain ⟨p, rfl, -⟩ := derives_functionHead.mp hu
  exact ⟨_, _, rfl, rfl⟩

theorem statement_begins (h : Derives (.rule .statement) w) : Begins opensStatement w := by
  rcases derives_statement.mp h with h | h | h | h | h | h | h
  · obtain ⟨e, rfl, he⟩ := derives_exprStmt.mp h
    refine ((expression_begins he).mono fun k hk => ?_).append _
    unfold opensStatement
    split <;> trivial
  · obtain ⟨u, v, rfl, -⟩ := derives_forStmt.mp h
    exact ⟨_, _, rfl, rfl⟩
  · obtain ⟨u, v, x, rfl, -⟩ := derives_ifStmt.mp h
    exact ⟨_, _, rfl, rfl⟩
  · obtain ⟨e, rfl, -⟩ := derives_printStmt.mp h
    exact ⟨_, _, rfl, rfl⟩
  · obtain ⟨e, rfl, -⟩ := derives_returnStmt.mp h
    exact ⟨_, _, rfl, rfl⟩
  · obtain ⟨u, v, rfl, -⟩ := derives_whileStmt.mp h
    exact ⟨_, _, rfl, rfl⟩
  · obtain ⟨u, rfl, -⟩ := derives_block.mp h
    exact ⟨_, _, rfl, rfl⟩

theorem declaration_begins (h : Derives (.rule .declaration) w) : Begins opensDeclaration w := by
  rcases derives_declaration.mp h with h | h | h | h
  · obtain ⟨u, rfl, -⟩ := derives_classDecl.mp h
    exact ⟨_, _, rfl, rfl⟩
  · obtain ⟨u, rfl, -⟩ := derives_funDecl.mp h
    exact ⟨_, _, rfl, rfl⟩
  · obtain ⟨u, rfl, -⟩ := derives_varDecl.mp h
    exact ⟨_, _, rfl, rfl⟩
  · refine (statement_begins h).mono fun k hk => ?_
    unfold opensDeclaration
    split <;> trivial

/-! ### Ends of expressions -/

/-- What follows is not taken for a part of an expression with operators of fewer than `d` tighter
levels. -/
def Stops (d : Nat) (rest : Word) : Prop :=
  ∀ k, rest.head? = some k → k ≠ .symbol .leftParen ∧ k ≠ .symbol .dot ∧
    ∀ l : Level, l.depth < d → l.hasOperator k = false

/-- What follows is not taken for a part of an expression. -/
structure Closes (rest : Word) : Prop where
  stops : Stops 6 rest
  not_equal : rest.head? ≠ some (.symbol .equal)

theorem Stops.mono {d d' : Nat} (h : Stops d rest) (hd : d' ≤ d) : Stops d' rest := by
  intro k hk
  obtain ⟨hcall, hdot, hoperator⟩ := h k hk
  exact ⟨hcall, hdot, fun l hl => hoperator l (lt_of_lt_of_le hl hd)⟩

theorem Stops.not_operator {d : Nat} {l : Level} (h : Stops d rest) (hl : l.depth < d) :
    ∀ k, rest.head? = some k → l.hasOperator k = false :=
  fun k hk => (h k hk).2.2 l hl

theorem Stops.head?_ne_leftParen {d : Nat} (h : Stops d rest) :
    rest.head? ≠ some (.symbol .leftParen) :=
  fun hk => (h _ hk).1 rfl

theorem Stops.head?_ne_dot {d : Nat} (h : Stops d rest) : rest.head? ≠ some (.symbol .dot) :=
  fun hk => (h _ hk).2.1 rfl

theorem stops_cons {d : Nat} (hcall : k ≠ .symbol .leftParen) (hdot : k ≠ .symbol .dot)
    (hoperator : ∀ l : Level, l.depth < d → l.hasOperator k = false) : Stops d (k :: rest) := by
  intro k' hk'
  obtain rfl := Option.some.inj hk'
  exact ⟨hcall, hdot, hoperator⟩

theorem stops_equal (d : Nat) (rest : Word) : Stops d (.symbol .equal :: rest) :=
  stops_cons (by simp) (by simp) fun l _ => by cases l <;> rfl

theorem closes_nil : Closes [] := ⟨fun k hk => by simp at hk, by simp⟩

theorem closes_symbol {s : Symbol} (hs : s ∈ [Symbol.comma, .semicolon, .rightParen])
    (rest : Word) : Closes (.symbol s :: rest) := by
  simp only [List.mem_cons, List.not_mem_nil, or_false] at hs
  refine ⟨stops_cons ?_ ?_ fun l _ => ?_, ?_⟩
  · rcases hs with rfl | rfl | rfl <;> simp
  · rcases hs with rfl | rfl | rfl <;> simp
  · rcases hs with rfl | rfl | rfl <;> cases l <;> rfl
  · rcases hs with rfl | rfl | rfl <;> simp

/-- Levels do not share operators. -/
theorem Level.eq_of_hasOperator {l l' : Level} (h : l.hasOperator k = true)
    (h' : l'.hasOperator k = true) : l = l' := by
  unfold Level.hasOperator at h
  split at h <;> cases l' <;> first | rfl | simp [Level.hasOperator] at h h'

theorem stops_operator {l : Level} (h : l.hasOperator k = true) (rest : Word) :
    Stops l.depth (k :: rest) := by
  refine stops_cons ?_ ?_ fun l' hl' => ?_
  · rintro rfl
    cases l <;> simp [Level.hasOperator] at h
  · rintro rfl
    cases l <;> simp [Level.hasOperator] at h
  · by_contra hoperator
    rw [Bool.not_eq_false] at hoperator
    rw [Level.eq_of_hasOperator h hoperator] at hl'
    exact lt_irrefl _ hl'

theorem stops_steps {l : Level} (hv : Derives (.many l.step) v) (hrest : Stops (l.depth + 1) rest) :
    Stops l.depth (v ++ rest) := by
  rcases derives_many.mp hv with rfl | ⟨u, w, rfl, hu, -⟩
  · exact hrest.mono (Nat.le_succ _)
  · obtain ⟨k, x, rfl, hk, -⟩ := derives_step.mp hu
    exact stops_operator hk _

end Lox
