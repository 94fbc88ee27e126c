import Mathlib.Tactic.Common
import Lox.Grammar.Statement

/-!
# The grammar of the language

The grammar in extended Backus-Naur form. A rule stands for a phrase; choices, optional parts and
repetitions are phrases too, so that the table `grammar` has one entry for each rule:

    program     → declaration*
    declaration → classDecl | funDecl | varDecl | statement
    classDecl   → "class" IDENT ( "<" IDENT )? "{" function* "}"
    funDecl     → "fun" function
    function    → IDENT "(" parameters? ")" block
    parameters  → IDENT ( "," IDENT )*
    varDecl     → "var" IDENT ( "=" expression )? ";"
    statement   → exprStmt | forStmt | ifStmt | printStmt | returnStmt | whileStmt | block
    exprStmt    → expression ";"
    forStmt     → "for" "(" ( varDecl | exprStmt | ";" ) expression? ";" expression? ")" statement
    ifStmt      → "if" "(" expression ")" statement ( "else" statement )?
    printStmt   → "print" expression ";"
    returnStmt  → "return" expression? ";"
    whileStmt   → "while" "(" expression ")" statement
    block       → "{" declaration* "}"
    expression  → assignment
    assignment  → ( call "." )? IDENT "=" assignment | logicOr
    logicOr     → logicAnd ( "or" logicAnd )*
    logicAnd    → equality ( "and" equality )*
    equality    → comparison ( ( "!=" | "==" ) comparison )*
    comparison  → term ( ( ">" | ">=" | "<" | "<=" ) term )*
    term        → factor ( ( "-" | "+" ) factor )*
    factor      → unary ( ( "/" | "*" ) unary )*
    unary       → ( "!" | "-" ) unary | call
    call        → primary ( "(" arguments? ")" | "." IDENT )*
    arguments   → expression ( "," expression )*
    primary     → NUMBER | STRING | "true" | "false" | "nil" | "this" | IDENT
                | "(" expression ")" | "super" "." IDENT

A list of parameters or arguments has at most `maxArity` entries. `Derives x w` says that the word
`w` can be derived from the phrase `x`. Words consist of token kinds, without the end of file.
-/

namespace Lox

/-- A word of the language. -/
abbrev Word := List TokenKind

/-- What the grammar says of a single token. -/
inductive Terminal where
  | symbol (s : Symbol)
  | keyword (k : Keyword)
  | identifier
  | number
  | string

/-- A token kind is what a terminal stands for. -/
def Terminal.Matches : Terminal → TokenKind → Prop
  | symbol s, k => k = .symbol s
  | keyword w, k => k = .keyword w
  | identifier, k => k = .identifier
  | number, k => ∃ n, k = .number n
  | string, k => ∃ s, k = .string s

/-- The rules of the grammar. -/
inductive Rule where
  | program | declaration | classDecl | funDecl | function | parameters | varDecl | statement
  | exprStmt | forStmt | ifStmt | printStmt | returnStmt | whileStmt | block | expression
  | assignment | logicOr | logicAnd | equality | comparison | term | factor | unary | call
  | arguments | primary

inductive Phrase where
  /-- A choice among nothing. -/
  | never
  | empty
  | terminal (t : Terminal)
  | rule (r : Rule)
  | seq (a b : Phrase)
  | alt (a b : Phrase)
  /-- Any number of times, or not at all. -/
  | many (a : Phrase)

namespace Phrase

def sym (s : Symbol) : Phrase := .terminal (.symbol s)

def word (k : Keyword) : Phrase := .terminal (.keyword k)

def ident : Phrase := .terminal .identifier

/-- One phrase after the other. -/
def all : List Phrase → Phrase
  | [] => .empty
  | a :: rest => .seq a (all rest)

/-- One of some phrases. -/
def any : List Phrase → Phrase
  | [] => .never
  | a :: rest => .alt a (any rest)

def opt (a : Phrase) : Phrase := .alt a .empty

/-- At most `n` times. -/
def upTo : Nat → Phrase → Phrase
  | 0, _ => .empty
  | n + 1, a => opt (.seq a (upTo n a))

/-- At least one item and at most `n` more, with commas in between. -/
def listOf (n : Nat) (item : Phrase) : Phrase := all [item, upTo n (all [sym .comma, item])]

end Phrase

open Phrase in
/-- The phrase that a rule stands for. -/
def grammar : Rule → Phrase
  | .program => many (rule .declaration)
  | .declaration => any [rule .classDecl, rule .funDecl, rule .varDecl, rule .statement]
  | .classDecl =>
    all [word .class_, ident, opt (all [sym .less, ident]), sym .leftBrace, many (rule .function),
      sym .rightBrace]
  | .funDecl => all [word .fun_, rule .function]
  | .function =>
    all [ident, sym .leftParen, opt (rule .parameters), sym .rightParen, rule .block]
  | .parameters => listOf (maxArity - 1) ident
  | .varDecl =>
    all [word .var, ident, opt (all [sym .equal, rule .expression]), sym .semicolon]
  | .statement =>
    any [rule .exprStmt, rule .forStmt, rule .ifStmt, rule .printStmt, rule .returnStmt,
      rule .whileStmt, rule .block]
  | .exprStmt => all [rule .expression, sym .semicolon]
  | .forStmt =>
    all [word .for_, sym .leftParen, any [rule .varDecl, rule .exprStmt, sym .semicolon],
      opt (rule .expression), sym .semicolon, opt (rule .expression), sym .rightParen,
      rule .statement]
  | .ifStmt =>
    all [word .if_, sym .leftParen, rule .expression, sym .rightParen, rule .statement,
      opt (all [word .else_, rule .statement])]
  | .printStmt => all [word .print, rule .expression, sym .semicolon]
  | .returnStmt => all [word .return_, opt (rule .expression), sym .semicolon]
  | .whileStmt =>
    all [word .while_, sym .leftParen, rule .expression, sym .rightParen, rule .statement]
  | .block => all [sym .leftBrace, many (rule .declaration), sym .rightBrace]
  | .expression => rule .assignment
  | .assignment =>
    any [all [opt (all [rule .call, sym .dot]), ident, sym .equal, rule .assignment],
      rule .logicOr]
  | .logicOr => all [rule .logicAnd, many (all [word .or, rule .logicAnd])]
  | .logicAnd => all [rule .equality, many (all [word .and, rule .equality])]
  | .equality =>
    all [rule .comparison,
      many (all [any [sym .bangEqual, sym .equalEqual], rule .comparison])]
  | .comparison =>
    all [rule .term,
      many (all [any [sym .greater, sym .greaterEqual, sym .less, sym .lessEqual], rule .term])]
  | .term => all [rule .factor, many (all [any [sym .minus, sym .plus], rule .factor])]
  | .factor => all [rule .unary, many (all [any [sym .slash, sym .star], rule .unary])]
  | .unary => any [all [any [sym .bang, sym .minus], rule .unary], rule .call]
  | .call =>
    all [rule .primary,
      many (any [all [sym .leftParen, opt (rule .arguments), sym .rightParen],
        all [sym .dot, ident]])]
  | .arguments => listOf (maxArity - 1) (rule .expression)
  | .primary =>
    any [.terminal .number, .terminal .string, word .true, word .false, word .nil, word .this,
      ident, all [sym .leftParen, rule .expression, sym .rightParen],
      all [word .super, sym .dot, ident]]

/-- A word can be derived from a phrase. -/
inductive Derives : Phrase → Word → Prop where
  | empty : Derives .empty []
  | terminal {t : Terminal} {k : TokenKind} (h : t.Matches k) : Derives (.terminal t) [k]
  | rule {r : Rule} {w : Word} (h : Derives (grammar r) w) : Derives (.rule r) w
  | seq {a b : Phrase} {u v : Word} (ha : Derives a u) (hb : Derives b v) :
    Derives (.seq a b) (u ++ v)
  | left {a b : Phrase} {w : Word} (h : Derives a w) : Derives (.alt a b) w
  | right {a b : Phrase} {w : Word} (h : Derives b w) : Derives (.alt a b) w
  | done {a : Phrase} : Derives (.many a) []
  | more {a : Phrase} {u v : Word} (ha : Derives a u) (hb : Derives (.many a) v) :
    Derives (.many a) (u ++ v)

variable {a b : Phrase} {u v w : Word} {k : TokenKind} {s : Symbol} {x : Keyword} {r : Rule}

/-! ### Derivations from a phrase -/

@[simp] theorem derives_empty : Derives .empty w ↔ w = [] :=
  ⟨fun h => by cases h; rfl, fun h => h ▸ .empty⟩

theorem derives_terminal {t : Terminal} : Derives (.terminal t) w ↔ ∃ k, w = [k] ∧ t.Matches k := by
  constructor
  · intro h
    cases h with
    | terminal h => exact ⟨_, rfl, h⟩
  · rintro ⟨k, rfl, h⟩
    exact .terminal h

@[simp] theorem derives_sym : Derives (.sym s) w ↔ w = [.symbol s] := by
  rw [Phrase.sym, derives_terminal]
  exact ⟨fun ⟨_, hw, hk⟩ => hk ▸ hw, fun h => ⟨_, h, rfl⟩⟩

@[simp] theorem derives_word : Derives (.word x) w ↔ w = [.keyword x] := by
  rw [Phrase.word, derives_terminal]
  exact ⟨fun ⟨_, hw, hk⟩ => hk ▸ hw, fun h => ⟨_, h, rfl⟩⟩

@[simp] theorem derives_ident : Derives .ident w ↔ w = [.identifier] := by
  rw [Phrase.ident, derives_terminal]
  exact ⟨fun ⟨_, hw, hk⟩ => hk ▸ hw, fun h => ⟨_, h, rfl⟩⟩

theorem derives_rule : Derives (.rule r) w ↔ Derives (grammar r) w := by
  constructor
  · intro h
    cases h with
    | rule h => exact h
  · exact .rule

theorem derives_seq : Derives (.seq a b) w ↔ ∃ u v, w = u ++ v ∧ Derives a u ∧ Derives b v := by
  constructor
  · intro h
    cases h with
    | seq ha hb => exact ⟨_, _, rfl, ha, hb⟩
  · rintro ⟨u, v, rfl, ha, hb⟩
    exact .seq ha hb

theorem derives_alt : Derives (.alt a b) w ↔ Derives a w ∨ Derives b w := by
  constructor
  · intro h
    cases h with
    | left h => exact Or.inl h
    | right h => exact Or.inr h
  · rintro (h | h)
    · exact .left h
    · exact .right h

@[simp] theorem derives_opt : Derives (.opt a) w ↔ Derives a w ∨ w = [] := by
  rw [Phrase.opt, derives_alt, derives_empty]

theorem derives_many : Derives (.many a) w ↔
    w = [] ∨ ∃ u v, w = u ++ v ∧ Derives a u ∧ Derives (.many a) v := by
  constructor
  · intro h
    cases h with
    | done => exact Or.inl rfl
    | more ha hb => exact Or.inr ⟨_, _, rfl, ha, hb⟩
  · rintro (rfl | ⟨u, v, rfl, ha, hb⟩)
    · exact .done
    · exact .more ha hb

@[simp] theorem derives_any {as : List Phrase} : Derives (.any as) w ↔ ∃ a ∈ as, Derives a w := by
  induction as with
  | nil =>
    constructor
    · intro h
      cases h
    · rintro ⟨a, ha, -⟩
      exact absurd ha List.not_mem_nil
  | cons a as ih =>
    rw [Phrase.any, derives_alt, ih]
    simp

@[simp] theorem derives_all_nil : Derives (.all []) w ↔ w = [] := derives_empty

@[simp] theorem derives_all_cons {as : List Phrase} :
    Derives (.all (a :: as)) w ↔ ∃ u v, w = u ++ v ∧ Derives a u ∧ Derives (.all as) v :=
  derives_seq

theorem derives_all_append (as bs : List Phrase) :
    Derives (.all (as ++ bs)) w ↔
      ∃ u v, w = u ++ v ∧ Derives (.all as) u ∧ Derives (.all bs) v := by
  induction as generalizing w with
  | nil => simp [derives_all_nil]
  | cons a as ih =>
    simp only [List.cons_append, derives_all_cons, ih]
    constructor
    · rintro ⟨x, _, rfl, hx, y, z, rfl, hy, hz⟩
      exact ⟨x ++ y, z, (List.append_assoc x y z).symm, ⟨x, y, rfl, hx, hy⟩, hz⟩
    · rintro ⟨_, z, rfl, ⟨x, y, rfl, hx, hy⟩, hz⟩
      exact ⟨x, y ++ z, List.append_assoc x y z, hx, y, z, rfl, hy, hz⟩

theorem derives_sym_cons {as : List Phrase} :
    Derives (.all (.sym s :: as)) w ↔ ∃ v, w = .symbol s :: v ∧ Derives (.all as) v := by
  simp

theorem derives_word_cons {as : List Phrase} :
    Derives (.all (.word x :: as)) w ↔ ∃ v, w = .keyword x :: v ∧ Derives (.all as) v := by
  simp

theorem derives_word_append (as bs : List Phrase) :
    Derives (.all (.word x :: (as ++ bs))) w ↔
      ∃ u v, w = .keyword x :: (u ++ v) ∧ Derives (.all as) u ∧ Derives (.all bs) v := by
  rw [derives_word_cons]
  constructor
  · rintro ⟨_, rfl, h⟩
    obtain ⟨u, v, rfl, hu, hv⟩ := (derives_all_append as bs).mp h
    exact ⟨u, v, rfl, hu, hv⟩
  · rintro ⟨u, v, rfl, hu, hv⟩
    exact ⟨u ++ v, rfl, (derives_all_append as bs).mpr ⟨u, v, rfl, hu, hv⟩⟩

theorem derives_all_one : Derives (.all [a]) w ↔ Derives a w := by
  simp [derives_all_cons, derives_all_nil]

/-! ### Derivations to a phrase -/

namespace Derives

theorem present (h : Derives a w) : Derives (.opt a) w := derives_opt.mpr (Or.inl h)

theorem absent : Derives (.opt a) [] := derives_opt.mpr (Or.inr rfl)

theorem snoc (hu : Derives (.many a) u) (hv : Derives a v) : Derives (.many a) (u ++ v) := by
  generalize hx : Phrase.many a = x at hu
  induction hu with
  | done =>
    cases hx
    have hone : Derives (.many a) (v ++ []) := .more hv .done
    rwa [List.append_nil] at hone
  | more ha hb iha ihb =>
    cases hx
    rw [List.append_assoc]
    exact .more ha (ihb rfl)
  | _ => cases hx

end Derives

/-! ### Lists with commas -/

theorem derives_listOf {n : Nat} : Derives (.listOf n a) w ↔ Derives a w ∨
    ∃ m u v, n = m + 1 ∧ w = u ++ .symbol .comma :: v ∧ Derives a u ∧ Derives (.listOf m a) v := by
  cases n with
  | zero => simp [Phrase.listOf, Phrase.upTo]
  | succ n =>
    simp only [Phrase.listOf, Phrase.upTo, derives_all_cons, derives_all_nil, derives_opt,
      derives_seq, derives_sym]
    constructor
    · rintro ⟨u, _, rfl, hu, _, _, rfl, ⟨_, y, rfl, ⟨_, _, rfl, rfl, x, _, rfl, hx, rfl⟩, hy⟩ | rfl,
        rfl⟩
      · exact Or.inr ⟨n, u, x ++ y, rfl, by simp, hu, x, y, by simp, hx, y, [], by simp, hy, rfl⟩
      · exact Or.inl (by simpa using hu)
    · rintro (hw | ⟨m, u, _, hnm, rfl, hu, x, _, rfl, hx, y, _, rfl, hy, rfl⟩)
      · exact ⟨w, [], by simp, hw, [], [], rfl, Or.inr rfl, rfl⟩
      · obtain rfl : n = m := by omega
        refine ⟨u, _, rfl, hu, .symbol .comma :: (x ++ y), [], by simp, Or.inl ?_, rfl⟩
        exact ⟨.symbol .comma :: x, y, rfl, ⟨_, x, rfl, rfl, x, [], by simp, hx, rfl⟩, hy⟩

theorem intercalate_comma_cons {entries : List Word} (h : entries ≠ []) :
    [TokenKind.symbol .comma].intercalate (u :: entries) =
      u ++ .symbol .comma :: [.symbol .comma].intercalate entries := by
  obtain ⟨v, entries, rfl⟩ := List.exists_cons_of_ne_nil h
  simp [List.intercalate]

/-- The words of such a list are its entries with commas in between. -/
theorem derives_listOf_iff_entries {n : Nat} : Derives (.listOf n a) w ↔
    ∃ entries : List Word, entries ≠ [] ∧ entries.length ≤ n + 1 ∧
      (∀ u ∈ entries, Derives a u) ∧ w = [.symbol .comma].intercalate entries := by
  induction n using Nat.strongRecOn generalizing w with
  | ind n ih =>
    rw [derives_listOf]
    constructor
    · rintro (hw | ⟨m, u, v, rfl, rfl, hu, hv⟩)
      · exact ⟨[w], by simp, by simp, by simpa using hw, by simp [List.intercalate]⟩
      · obtain ⟨entries, hne, hlength, hentries, rfl⟩ := (ih m (Nat.lt_succ_self m)).mp hv
        have hall := List.forall_mem_cons.mpr ⟨hu, hentries⟩
        exact ⟨u :: entries, by simp, by simpa using hlength, hall,
          (intercalate_comma_cons hne).symm⟩
    · rintro ⟨_ | ⟨u, entries⟩, hne, hlength, hentries, rfl⟩
      · exact absurd rfl hne
      · obtain ⟨hu, hentries⟩ := List.forall_mem_cons.mp hentries
        by_cases hone : entries = []
        · subst hone
          exact Or.inl (by simpa [List.intercalate] using hu)
        · have hpos := List.length_pos_iff.mpr hone
          rw [List.length_cons] at hlength
          refine Or.inr ⟨n - 1, u, _, by omega, intercalate_comma_cons hone, hu, ?_⟩
          exact (ih (n - 1) (by omega)).mpr ⟨entries, hone, by omega, hentries, rfl⟩

end Lox
