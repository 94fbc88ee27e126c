import Mathlib.Tactic.FinCases
import Lox.Proofs.Grammar.Constants
import Lox.Proofs.Grammar.RoundTrip
import Lox.Proofs.Number.Literals
import Lox.Proofs.Tree.Forms

/-!
# Parenthesised texts are unambiguous

Two expressions that were read and have the same parenthesised text are the same, but for the lines
of their tokens and the identities of their nodes. The text tells the outline
(`Form.eq_of_text`), and the outline tells the tree: the construct is told by the head word, the
number of parts and whether the first part is a word (`Form.construct`), and a lexeme is of one kind
only (`TokenKind.Spelled.unique`).

Strings are shown without their quotes, and an infinite number by a name, so neither can be told
from a variable. Expressions with such constants are left out.
-/

namespace Lox

/-! ### Lexemes -/

section

variable {k : TokenKind} {t t' : Token} {text : List Char}

theorem TokenKind.Spelled.symbol_eq {s : Symbol} (h : Spelled (.symbol s) text) :
    text = s.spelling := by
  cases h
  rfl

theorem TokenKind.Spelled.keyword_eq {k : Keyword} (h : Spelled (.keyword k) text) :
    text = k.spelling := by
  cases h
  rfl

theorem isWordChar_of {p : Char → Bool} (hblank : p ' ' = false) (hopening : p '(' = false)
    (hclosing : p ')' = false) {c : Char} (hc : p c = true) : isWordChar c = true := by
  have hne : ∀ {d : Char}, p d = false → (c != d) = true := by
    intro d hd
    rw [bne_iff_ne]
    rintro rfl
    rw [hd] at hc
    cases hc
  rw [isWordChar, hne hblank, hne hopening, hne hclosing]
  rfl

/-- Every lexeme is a word of a form, but for strings and parentheses. -/
theorem TokenKind.Spelled.isWordChar (h : k.Spelled text) (hstring : ∀ s, k ≠ .string s)
    (hopening : k ≠ .symbol .leftParen) (hclosing : k ≠ .symbol .rightParen) :
    ∀ c ∈ text, Lox.isWordChar c = true := by
  have hstart : ∀ c, isNameStart c = true → Lox.isWordChar c = true :=
    fun c => isWordChar_of (by decide) (by decide) (by decide)
  have hname : ∀ c, isNameChar c = true → Lox.isWordChar c = true :=
    fun c => isWordChar_of (by decide) (by decide) (by decide)
  have hdigit : ∀ c, c.isDigit = true → Lox.isWordChar c = true :=
    fun c => isWordChar_of (by decide) (by decide) (by decide)
  cases h with
  | symbol s =>
    cases s with
    | leftParen => exact absurd rfl hopening
    | rightParen => exact absurd rfl hclosing
    | _ => exact List.all_eq_true.mp (by decide)
  | keyword k =>
    obtain ⟨c, cs, hspelling, hc, hcs⟩ := k.spelling_eq_cons
    rw [hspelling, List.forall_mem_cons]
    exact ⟨hstart c hc, fun d hd => hname d (hcs d hd)⟩
  | identifier hc hcs _ =>
    rw [List.forall_mem_cons]
    exact ⟨hstart _ hc, fun d hd => hname d (hcs d hd)⟩
  | string _ => exact absurd rfl (hstring _)
  | number _ hwhole => exact fun d hd => hdigit d (hwhole d hd)
  | decimal _ hwhole _ hfraction =>
    rw [List.forall_mem_append, List.forall_mem_cons]
    exact ⟨fun d hd => hdigit d (hwhole d hd), by decide, fun d hd => hdigit d (hfraction d hd)⟩

/-- The lexical grammar has the lexeme of the token; the end of file has none. -/
def Token.Scanned (t : Token) : Prop := t.kind ≠ .eof → t.toLexeme.Valid

namespace Token.Scanned

theorem spelled (h : t.Scanned) (hkind : t.kind = k) (hk : k ≠ .eof) :
    k.Spelled t.lexeme.toList := by
  subst hkind
  exact h hk

theorem symbol {s : Symbol} (h : t.Scanned) (hkind : t.kind = .symbol s) :
    t.lexeme.toList = s.spelling :=
  (h.spelled hkind TokenKind.noConfusion).symbol_eq

theorem keyword {k : Keyword} (h : t.Scanned) (hkind : t.kind = .keyword k) :
    t.lexeme.toList = k.spelling :=
  (h.spelled hkind TokenKind.noConfusion).keyword_eq

theorem identifier (h : t.Is Token.Scanned .identifier) :
    TokenKind.Spelled .identifier t.lexeme.toList :=
  h.2.spelled h.1 TokenKind.noConfusion

theorem name_isWordChar (h : t.Is Token.Scanned .identifier) :
    ∀ c ∈ t.lexeme.toList, isWordChar c = true :=
  (identifier h).isWordChar (fun _ => TokenKind.noConfusion) TokenKind.noConfusion
    TokenKind.noConfusion

theorem sameText (h : t.Scanned) (h' : t'.Scanned) (hk : t.kind ≠ .eof) (hk' : t'.kind ≠ .eof)
    (htext : t.lexeme.toList = t'.lexeme.toList) : Mirror.sameText.token t t' := by
  have hspelled : t'.kind.Spelled t.lexeme.toList := htext ▸ h' hk'
  exact ⟨hspelled.unique (h hk), (String.toList_inj.mp htext).symm⟩

theorem sameText_name (h : t.Is Token.Scanned .identifier) (h' : t'.Is Token.Scanned .identifier)
    (htext : t.lexeme.toList = t'.lexeme.toList) : Mirror.sameText.token t t' :=
  ⟨h'.1.trans h.1.symm, (String.toList_inj.mp htext).symm⟩

theorem sameText_keyword {k : Keyword} (h : t.Is Token.Scanned (.keyword k))
    (h' : t'.Is Token.Scanned (.keyword k)) : Mirror.sameText.token t t' :=
  ⟨h'.1.trans h.1.symm, String.toList_inj.mp ((h'.2.keyword h'.1).trans (h.2.keyword h.1).symm)⟩

theorem sameText_symbol {s : Symbol} (h : t.Is Token.Scanned (.symbol s))
    (h' : t'.Is Token.Scanned (.symbol s)) : Mirror.sameText.token t t' :=
  ⟨h'.1.trans h.1.symm, String.toList_inj.mp ((h'.2.symbol h'.1).trans (h.2.symbol h.1).symm)⟩

end Token.Scanned

end

/-! ### Legible expressions -/

/-- Neither a string nor an infinite number. -/
def Literal.isPlain : Literal → Bool
  | .nil | .bool _ => true
  | .number n => !n.isInfinite
  | .string _ => false

/-- The text of the constant is a lexeme that stands for it. -/
structure Literal.Legible (l : Literal) : Prop where
  plain : l.isPlain = true
  spelled : l.kind.Spelled l.render.toList

structure Expr.Legible (e : Expr) : Prop where
  formed : e.Formed Token.Scanned
  literals : ∀ l ∈ e.literals, l.Legible

structure LegibleArgs (es : List Expr) : Prop where
  formed : formedArgs Token.Scanned es
  literals : ∀ l ∈ literalsOfArgs es, l.Legible

theorem Literal.From.legible {l : Literal} (h : l.From Token.Scanned) (hplain : l.isPlain = true) :
    l.Legible := by
  refine ⟨hplain, ?_⟩
  cases l with
  | nil => exact .keyword .nil
  | bool b =>
    cases b with
    | true => exact .keyword .true
    | false => exact .keyword .false
  | number n =>
    obtain ⟨t, hscanned, ht⟩ := h
    have hspelled : TokenKind.Spelled (.number n) t.lexeme.toList :=
      hscanned.spelled (kind_of_literalOf? ht).symm TokenKind.noConfusion
    obtain ⟨hsign, hle⟩ := Number.of_spelled hspelled
    have hne : n.magnitude ≠ Number.infiniteMagnitude := by
      simpa [isPlain, Number.isInfinite] using hplain
    have hfinite : n.isFinite = true := decide_eq_true (lt_of_le_of_ne hle hne)
    rw [render, Number.literal, String.toList_ofList]
    exact Number.spelled_literalChars hfinite hsign
  | string s => cases hplain

section

variable {id : NodeId} {left right callee object value e : Expr} {op name paren : Token}
  {args es : List Expr}

theorem Expr.Legible.binary (h : (Expr.binary id left op right).Legible) :
    left.Legible ∧ right.Legible := by
  obtain ⟨hl, hr⟩ := List.forall_mem_append.mp h.literals
  exact ⟨⟨h.formed.2.1, hl⟩, h.formed.2.2, hr⟩

theorem Expr.Legible.logical (h : (Expr.logical id left op right).Legible) :
    left.Legible ∧ right.Legible := by
  obtain ⟨hl, hr⟩ := List.forall_mem_append.mp h.literals
  exact ⟨⟨h.formed.2.1, hl⟩, h.formed.2.2, hr⟩

theorem Expr.Legible.call (h : (Expr.call id callee paren args).Legible) :
    callee.Legible ∧ LegibleArgs args := by
  obtain ⟨hc, ha⟩ := List.forall_mem_append.mp h.literals
  exact ⟨⟨h.formed.2.1, hc⟩, h.formed.2.2, ha⟩

theorem Expr.Legible.set (h : (Expr.set id object name value).Legible) :
    object.Legible ∧ value.Legible := by
  obtain ⟨ho, hv⟩ := List.forall_mem_append.mp h.literals
  exact ⟨⟨h.formed.2.1, ho⟩, h.formed.2.2, hv⟩

theorem LegibleArgs.cons (h : LegibleArgs (e :: es)) : e.Legible ∧ LegibleArgs es := by
  obtain ⟨he, hes⟩ := List.forall_mem_append.mp h.literals
  exact ⟨⟨h.formed.1, he⟩, h.formed.2, hes⟩

end

/-! ### Operators -/

def binaryOperators : List Symbol :=
  [.bangEqual, .equalEqual, .greater, .greaterEqual, .less, .lessEqual, .minus, .plus, .star,
    .slash]

section

variable {k : TokenKind} {l : Level} {op : Token}

theorem unaryOperator_cases (h : isUnaryOperator k = true) :
    k = .symbol .bang ∨ k = .symbol .minus := by
  unfold isUnaryOperator at h
  split at h
  · exact .inl rfl
  · exact .inr rfl
  · cases h

theorem Level.binary_cases (hl : l.isLogical = false) (h : l.hasOperator k = true) :
    ∃ s ∈ binaryOperators, k = .symbol s := by
  unfold hasOperator at h
  split at h
  · cases hl
  · cases hl
  all_goals first | exact ⟨_, by decide, rfl⟩ | cases h

theorem Level.logical_cases (hl : l.isLogical = true) (h : l.hasOperator k = true) :
    k = .keyword .or ∨ k = .keyword .and := by
  unfold hasOperator at h
  split at h
  · exact .inl rfl
  · exact .inr rfl
  all_goals first | cases hl | cases h

end

/-! ### The construct of an outline -/

/-- The twelve sorts of expressions. -/
inductive Construct where
  | literal | grouping | unary | binary | logical | var | assign | call | get | set | this | super

def Expr.construct : Expr → Construct
  | .literal _ _ => .literal
  | .grouping _ _ => .grouping
  | .unary _ _ _ => .unary
  | .binary _ _ _ _ => .binary
  | .logical _ _ _ _ => .logical
  | .var _ _ => .var
  | .assign _ _ _ => .assign
  | .call _ _ _ _ => .call
  | .get _ _ _ => .get
  | .set _ _ _ _ => .set
  | .this _ _ => .this
  | .super _ _ _ => .super

/-- The construct that a word of some kind stands for. -/
def TokenKind.construct : TokenKind → Construct
  | .identifier => .var
  | .keyword .this => .this
  | _ => .literal

/-- The construct of the first lexeme of a text. -/
def constructOfWord (text : List Char) : Construct :=
  match pieces text with
  | .token kind _ :: _ => kind.construct
  | _ => .literal

/-- An equals sign heads an assignment to a variable, which is a word, or to a property. -/
def constructOfTarget : List Form → Construct
  | .word _ :: _ => .assign
  | _ => .set

/-- An operator with one operand is unary. -/
def constructOfOperator (op : List Char) : List Form → Construct
  | [_] => .unary
  | _ =>
    if op = Keyword.and.spelling ∨ op = Keyword.or.spelling then .logical else .binary

/-- The construct that has a form for its outline. -/
def Form.construct : Form → Construct
  | .word text => constructOfWord text
  | .group head parts =>
    if head = groupHead then .grouping
    else if head = callHead then .call
    else if head = Keyword.super.spelling then .super
    else if head = Symbol.dot.spelling then .get
    else if head = Symbol.equal.spelling then constructOfTarget parts
    else constructOfOperator head parts

theorem constructOfWord_of_spelled {k : TokenKind} {text : List Char} (h : k.Spelled text) :
    constructOfWord text = k.construct := by
  have hpieces := h.pieces .nil
  rw [List.append_nil] at hpieces
  rw [constructOfWord, hpieces]

theorem Literal.construct_kind (l : Literal) : l.kind.construct = .literal := by
  cases l with
  | bool b => cases b <;> rfl
  | _ => rfl

theorem Expr.construct_outline {e : Expr} (h : e.Legible) : e.outline.construct = e.construct := by
  cases e with
  | literal id value =>
    have hvalue : value.Legible := h.literals value (List.mem_singleton.mpr rfl)
    exact (constructOfWord_of_spelled hvalue.spelled).trans value.construct_kind
  | unary id op right =>
    rw [outline]
    rcases unaryOperator_cases h.formed.1.1 with hkind | hkind <;>
      rw [h.formed.1.2.symbol hkind] <;> rfl
  | binary id left op right =>
    obtain ⟨l, hl, hop, hscanned⟩ := h.formed.1
    obtain ⟨s, hs, hkind⟩ := l.binary_cases hl hop
    rw [outline, hscanned.symbol hkind]
    fin_cases hs <;> rfl
  | logical id left op right =>
    obtain ⟨l, hl, hop, hscanned⟩ := h.formed.1
    rw [outline]
    rcases l.logical_cases hl hop with hkind | hkind <;> rw [hscanned.keyword hkind] <;> rfl
  | var id name => exact constructOfWord_of_spelled (Token.Scanned.identifier h.formed)
  | this id keyword => exact constructOfWord_of_spelled (.keyword .this)
  | _ => rfl

/-! ### Words -/

theorem Literal.Legible.isWordChar {l : Literal} (h : l.Legible) :
    ∀ c ∈ l.render.toList, Lox.isWordChar c = true := by
  cases l with
  | string s => exact absurd h.plain Bool.false_ne_true
  | bool b =>
    cases b <;> exact h.spelled.isWordChar (fun _ => TokenKind.noConfusion)
      TokenKind.noConfusion TokenKind.noConfusion
  | _ =>
    exact h.spelled.isWordChar (fun _ => TokenKind.noConfusion) TokenKind.noConfusion
      TokenKind.noConfusion

section

variable {test : TokenKind → Bool} {t t' : Token}

theorem Token.kind_ne {k : TokenKind} (ht : test t.kind = true) (hk : test k = false) :
    t.kind ≠ k := by
  rintro rfl
  rw [hk] at ht
  cases ht

theorem Token.Scanned.isWordChar (h : t.Scanned) (ht : test t.kind = true)
    (heof : test .eof = false) (hstring : ∀ s, test (.string s) = false)
    (hopening : test (.symbol .leftParen) = false)
    (hclosing : test (.symbol .rightParen) = false) :
    ∀ c ∈ t.lexeme.toList, Lox.isWordChar c = true :=
  (h (kind_ne ht heof)).isWordChar (fun s => kind_ne ht (hstring s)) (kind_ne ht hopening)
    (kind_ne ht hclosing)

theorem Level.isWordChar {l : Level} (h : t.Scanned) (ht : l.hasOperator t.kind = true) :
    ∀ c ∈ t.lexeme.toList, Lox.isWordChar c = true := by
  cases l <;> exact h.isWordChar ht rfl (fun _ => rfl) rfl rfl

end

mutual

theorem Expr.plain_outline : ∀ e : Expr, e.Legible → e.outline.Plain
  | .literal _ value, h => (h.literals value (List.mem_singleton.mpr rfl)).isWordChar
  | .grouping _ inner, h =>
    ⟨List.all_eq_true.mp (by decide), inner.plain_outline ⟨h.formed, h.literals⟩, trivial⟩
  | .unary _ op right, h =>
    ⟨h.formed.1.2.isWordChar h.formed.1.1 rfl (fun _ => rfl) rfl rfl,
      right.plain_outline ⟨h.formed.2, h.literals⟩, trivial⟩
  | .binary _ left op right, h => by
    obtain ⟨l, -, hop, hscanned⟩ := h.formed.1
    exact ⟨l.isWordChar hscanned hop, left.plain_outline h.binary.1, right.plain_outline h.binary.2,
      trivial⟩
  | .logical _ left op right, h => by
    obtain ⟨l, -, hop, hscanned⟩ := h.formed.1
    exact ⟨l.isWordChar hscanned hop, left.plain_outline h.logical.1,
      right.plain_outline h.logical.2, trivial⟩
  | .var _ name, h => Token.Scanned.name_isWordChar h.formed
  | .assign _ name value, h =>
    ⟨List.all_eq_true.mp (by decide), Token.Scanned.name_isWordChar h.formed.1,
      value.plain_outline ⟨h.formed.2, h.literals⟩, trivial⟩
  | .call _ callee paren args, h =>
    ⟨List.all_eq_true.mp (by decide), callee.plain_outline h.call.1,
      plain_outlineArgs args h.call.2⟩
  | .get _ object name, h =>
    ⟨List.all_eq_true.mp (by decide), object.plain_outline ⟨h.formed.2, h.literals⟩,
      Token.Scanned.name_isWordChar h.formed.1, trivial⟩
  | .set _ object name value, h =>
    ⟨List.all_eq_true.mp (by decide),
      ⟨List.all_eq_true.mp (by decide), object.plain_outline h.set.1,
        Token.Scanned.name_isWordChar h.formed.1, trivial⟩,
      value.plain_outline h.set.2, trivial⟩
  | .this _ _, _ => List.all_eq_true.mp (by decide)
  | .super _ _ method, h =>
    ⟨List.all_eq_true.mp (by decide), Token.Scanned.name_isWordChar h.formed.2, trivial⟩
termination_by structural e => e

theorem plain_outlineArgs : ∀ es : List Expr, LegibleArgs es → plainParts (outlineArgs es)
  | [], _ => trivial
  | e :: es, h => ⟨e.plain_outline h.cons.1, plain_outlineArgs es h.cons.2⟩
termination_by structural es => es

end

/-! ### From outlines to trees -/

theorem Expr.Legible.construct_eq {e e' : Expr} (h : e.Legible) (h' : e'.Legible)
    (heq : e.outline = e'.outline) : e.construct = e'.construct := by
  rw [← construct_outline h, heq, construct_outline h']

mutual

/-- The outline tells the tree. The constructs agree, so that of the second tree only the case of
the same construct is left. -/
theorem Expr.mirrored_of_outline : ∀ e e' : Expr, e.Legible → e'.Legible →
    e.outline = e'.outline → e.Mirrored .sameText e'
  | .literal id value, e', h, h', heq => by
    have hconstruct := h.construct_eq h' heq
    cases e' with
    | literal id' value' =>
      have hvalue : value.Legible := h.literals value (List.mem_singleton.mpr rfl)
      have hvalue' : value'.Legible := h'.literals value' (List.mem_singleton.mpr rfl)
      simp only [Expr.outline, Form.word.injEq] at heq
      have hkind : value.kind = value'.kind := hvalue.spelled.unique (heq ▸ hvalue'.spelled)
      have hsome := literalOf?_kind value
      rw [hkind, literalOf?_kind, Option.some.injEq] at hsome
      exact hsome ▸ .literal trivial value'
    | _ => cases hconstruct
  | .grouping id inner, e', h, h', heq => by
    have hconstruct := h.construct_eq h' heq
    cases e' with
    | grouping id' inner' =>
      simp only [Expr.outline, Form.group.injEq, List.cons.injEq, and_true, true_and] at heq
      exact .grouping trivial
        (inner.mirrored_of_outline inner' ⟨h.formed, h.literals⟩ ⟨h'.formed, h'.literals⟩ heq)
    | _ => cases hconstruct
  | .unary id op right, e', h, h', heq => by
    have hconstruct := h.construct_eq h' heq
    cases e' with
    | unary id' op' right' =>
      obtain ⟨⟨hop, hscanned⟩, hright⟩ := h.formed
      obtain ⟨⟨hop', hscanned'⟩, hright'⟩ := h'.formed
      simp only [Expr.outline, Form.group.injEq, List.cons.injEq, and_true] at heq
      exact .unary trivial
        (hscanned.sameText hscanned' (Token.kind_ne hop rfl) (Token.kind_ne hop' rfl) heq.1)
        (right.mirrored_of_outline right' ⟨hright, h.literals⟩ ⟨hright', h'.literals⟩ heq.2)
    | _ => cases hconstruct
  | .binary id left op right, e', h, h', heq => by
    have hconstruct := h.construct_eq h' heq
    cases e' with
    | binary id' left' op' right' =>
      obtain ⟨l, -, hop, hscanned⟩ := h.formed.1
      obtain ⟨l', -, hop', hscanned'⟩ := h'.formed.1
      simp only [Expr.outline, Form.group.injEq, List.cons.injEq, and_true] at heq
      obtain ⟨htext, hleft, hright⟩ := heq
      exact .binary trivial (left.mirrored_of_outline left' h.binary.1 h'.binary.1 hleft)
        (hscanned.sameText hscanned' (Level.kind_ne_eof hop) (Level.kind_ne_eof hop') htext)
        (right.mirrored_of_outline right' h.binary.2 h'.binary.2 hright)
    | _ => cases hconstruct
  | .logical id left op right, e', h, h', heq => by
    have hconstruct := h.construct_eq h' heq
    cases e' with
    | logical id' left' op' right' =>
      obtain ⟨l, -, hop, hscanned⟩ := h.formed.1
      obtain ⟨l', -, hop', hscanned'⟩ := h'.formed.1
      simp only [Expr.outline, Form.group.injEq, List.cons.injEq, and_true] at heq
      obtain ⟨htext, hleft, hright⟩ := heq
      exact .logical trivial (left.mirrored_of_outline left' h.logical.1 h'.logical.1 hleft)
        (hscanned.sameText hscanned' (Level.kind_ne_eof hop) (Level.kind_ne_eof hop') htext)
        (right.mirrored_of_outline right' h.logical.2 h'.logical.2 hright)
    | _ => cases hconstruct
  | .var id name, e', h, h', heq => by
    have hconstruct := h.construct_eq h' heq
    cases e' with
    | var id' name' =>
      simp only [Expr.outline, Form.word.injEq] at heq
      exact .var trivial (Token.Scanned.sameText_name h.formed h'.formed heq)
    | _ => cases hconstruct
  | .assign id name value, e', h, h', heq => by
    have hconstruct := h.construct_eq h' heq
    cases e' with
    | assign id' name' value' =>
      simp only [Expr.outline, Form.group.injEq, List.cons.injEq, Form.word.injEq, and_true,
        true_and] at heq
      exact .assign trivial (Token.Scanned.sameText_name h.formed.1 h'.formed.1 heq.1)
        (value.mirrored_of_outline value' ⟨h.formed.2, h.literals⟩ ⟨h'.formed.2, h'.literals⟩
          heq.2)
    | _ => cases hconstruct
  | .call id callee paren args, e', h, h', heq => by
    have hconstruct := h.construct_eq h' heq
    cases e' with
    | call id' callee' paren' args' =>
      simp only [Expr.outline, Form.group.injEq, List.cons.injEq, true_and] at heq
      exact .call trivial (callee.mirrored_of_outline callee' h.call.1 h'.call.1 heq.1)
        (Token.Scanned.sameText_symbol h.formed.1 h'.formed.1)
        (mirroredArgs_of_outline args args' h.call.2 h'.call.2 heq.2)
    | _ => cases hconstruct
  | .get id object name, e', h, h', heq => by
    have hconstruct := h.construct_eq h' heq
    cases e' with
    | get id' object' name' =>
      simp only [Expr.outline, Form.group.injEq, List.cons.injEq, Form.word.injEq, and_true,
        true_and] at heq
      exact .get trivial
        (object.mirrored_of_outline object' ⟨h.formed.2, h.literals⟩ ⟨h'.formed.2, h'.literals⟩
          heq.1)
        (Token.Scanned.sameText_name h.formed.1 h'.formed.1 heq.2)
    | _ => cases hconstruct
  | .set id object name value, e', h, h', heq => by
    have hconstruct := h.construct_eq h' heq
    cases e' with
    | set id' object' name' value' =>
      simp only [Expr.outline, Form.group.injEq, List.cons.injEq, Form.word.injEq, and_true,
        true_and] at heq
      obtain ⟨⟨hobject, hname⟩, hvalue⟩ := heq
      exact .set trivial (object.mirrored_of_outline object' h.set.1 h'.set.1 hobject)
        (Token.Scanned.sameText_name h.formed.1 h'.formed.1 hname)
        (value.mirrored_of_outline value' h.set.2 h'.set.2 hvalue)
    | _ => cases hconstruct
  | .this id keyword, e', h, h', heq => by
    have hconstruct := h.construct_eq h' heq
    cases e' with
    | this id' keyword' =>
      exact .this trivial (Token.Scanned.sameText_keyword h.formed h'.formed)
    | _ => cases hconstruct
  | .super id keyword method, e', h, h', heq => by
    have hconstruct := h.construct_eq h' heq
    cases e' with
    | super id' keyword' method' =>
      simp only [Expr.outline, Form.group.injEq, List.cons.injEq, Form.word.injEq, and_true,
        true_and] at heq
      exact .super trivial (Token.Scanned.sameText_keyword h.formed.1 h'.formed.1)
        (Token.Scanned.sameText_name h.formed.2 h'.formed.2 heq)
    | _ => cases hconstruct
termination_by structural e => e

theorem mirroredArgs_of_outline : ∀ es es' : List Expr, LegibleArgs es → LegibleArgs es' →
    outlineArgs es = outlineArgs es' → MirroredArgs .sameText es es'
  | [], [], _, _, _ => .nil
  | [], _ :: _, _, _, heq => absurd heq (List.cons_ne_nil _ _).symm
  | _ :: _, [], _, _, heq => absurd heq (List.cons_ne_nil _ _)
  | e :: es, e' :: es', h, h', heq => by
    rw [outlineArgs, outlineArgs, List.cons.injEq] at heq
    exact .cons (e.mirrored_of_outline e' h.cons.1 h'.cons.1 heq.1)
      (mirroredArgs_of_outline es es' h.cons.2 h'.cons.2 heq.2)
termination_by structural es => es

end

/-! ### Expressions of sources -/

theorem ParsedExpr.legible {source : String} {made : Nat} {e : Expr}
    (he : (ParsedExpr.ofTokens (tokens source) made).expr? = some e)
    (hplain : ∀ l ∈ e.literals, l.isPlain = true) : e.Legible := by
  have hscanned : ∀ t ∈ tokens source, t.Scanned := fun t => tokens_valid source
  refine ⟨((parsedExpr_made hscanned made).1 e he).1, fun l hl => ?_⟩
  exact (parsedExpr_literals hscanned he l hl).legible (hplain l hl)

/-- Whatever is read from two sources, with or without complaints: if no constant in it is a string
or an infinite number, the parenthesised texts are the same only if the trees are, but for the
identities of nodes and the lines of tokens. -/
theorem rendering_is_unambiguous {source source' : String} {made made' : Nat} {e e' : Expr}
    (he : (ParsedExpr.ofTokens (tokens source) made).expr? = some e)
    (he' : (ParsedExpr.ofTokens (tokens source') made').expr? = some e')
    (hplain : ∀ l ∈ e.literals, l.isPlain = true) (hplain' : ∀ l ∈ e'.literals, l.isPlain = true)
    (h : e.render = e'.render) : e.Mirrored .sameText e' := by
  have hlegible := ParsedExpr.legible he hplain
  have hlegible' := ParsedExpr.legible he' hplain'
  refine e.mirrored_of_outline e' hlegible hlegible' ?_
  refine Form.eq_of_text (e.plain_outline hlegible) (e'.plain_outline hlegible') ?_
  rw [e.text_outline, e'.text_outline, h]

/-- A property, a call without arguments and both sorts of minus signs. The second equals sign of
the first source is a complaint, and what follows it is not in the tree. -/
theorem minus_signs_are_told_apart :
    ∃ e e' : Expr,
      ((ParsedExpr.ofTokens (tokens "o.p = f() - -1 = 2") 0).expr? = some e ∧
        (∀ l ∈ e.literals, l.isPlain = true) ∧ e.render = "(= (. o p) (- (call f) (- 1.0)))") ∧
      ((ParsedExpr.ofTokens (tokens "o\n.p = f() - -1.0") 7).expr? = some e' ∧
        (∀ l ∈ e'.literals, l.isPlain = true) ∧ e'.render = "(= (. o p) (- (call f) (- 1.0)))") ∧
      e.Mirrored .sameText e' := by
  have hread : ∀ (r : ParsedExpr) (text : String),
      (r.expr?.any fun e => e.literals.all Literal.isPlain && e.render == text) = true →
      ∃ e, r.expr? = some e ∧ (∀ l ∈ e.literals, l.isPlain = true) ∧ e.render = text := by
    intro r text h
    cases hr : r.expr? with
    | none =>
      rw [hr] at h
      cases h
    | some e =>
      rw [hr, Option.any_some, Bool.and_eq_true, List.all_eq_true, beq_iff_eq] at h
      exact ⟨e, rfl, h⟩
  obtain ⟨e, he⟩ := hread (ParsedExpr.ofTokens (tokens "o.p = f() - -1 = 2") 0)
    "(= (. o p) (- (call f) (- 1.0)))" (by decide +kernel)
  obtain ⟨e', he'⟩ := hread (ParsedExpr.ofTokens (tokens "o\n.p = f() - -1.0") 7)
    "(= (. o p) (- (call f) (- 1.0)))" (by decide +kernel)
  have htext : e.render = e'.render := he.2.2.trans he'.2.2.symm
  exact ⟨e, e', he, he', rendering_is_unambiguous he.1 he'.1 he.2.1 he'.2.1 htext⟩

end Lox
