import Lox.Proofs.Grammar.Completeness
import Lox.Proofs.Grammar.Soundness

/-!
# The language of the readers

The tokens before the end of file are read as a program without a complaint exactly if they can be
derived from the rule for programs, and as an expression exactly if they can be derived from the
rule for expressions. The limit on parameters and arguments is part of the rules for them.
-/

namespace Lox

variable {tokens : List Token} {made : Nat}

theorem Cursor.length_ahead_ofTokens (tokens : List Token) (made : Nat) :
    (Cursor.ofTokens tokens made).ahead.length ≤ tokens.length :=
  (List.takeWhile_sublist _).length_le

theorem Cursor.kinds_ofTokens {ts : List Token} {eof : Token} (hts : ∀ t ∈ ts, t.isEof = false)
    (heof : eof.isEof = true) (made : Nat) :
    (Cursor.ofTokens (ts ++ [eof]) made).kinds = ts.map Token.kind := by
  have hahead : (Cursor.ofTokens (ts ++ [eof]) made).ahead = ts := by
    have hall : ∀ t ∈ ts, (!t.isEof) = true := fun t ht => by rw [hts t ht]; rfl
    simp [Cursor.ofTokens, List.takeWhile_append_of_pos hall, heof]
  rw [Cursor.kinds, hahead]

theorem Parse.Recognizes.derives {α : Type} {p : Parse α} {c d : Cursor} {a : α} {y : Phrase}
    (hread : Recognizes p c 1 fun _ w => Derives y w) (hp : p c = .ok a d)
    (hclean : d.complaints = c.complaints) : Derives y c.kinds := by
  obtain ⟨-, hlength, hword⟩ := Spec.of_ok hread hp
  obtain ⟨w, hkinds, hw⟩ := hword hclean
  have hnil : d.ahead = [] := List.length_eq_zero_iff.mp (Nat.lt_one_iff.mp hlength)
  rw [hkinds, Cursor.kinds, hnil, List.map_nil, List.append_nil]
  exact hw

/-! ### Programs -/

theorem derives_of_program (h : (Program.ofTokens tokens made).complaints = []) :
    Derives (.rule .program) (Cursor.ofTokens tokens made).kinds := by
  have hfuel := Cursor.length_ahead_ofTokens tokens made
  have hread := (Parse.statementRecognizes (Parse.fuelFor tokens.length)).declarations false
    (Cursor.ofTokens tokens made) (by rw [Parse.fuelFor]; omega)
  unfold Program.ofTokens at h
  split at h
  · rename_i statements d heq
    exact .rule (Parse.Recognizes.derives hread heq h)
  · simp [Cursor.complain] at h
  · rename_i heq
    rw [Parse.Recognizes, Parse.Spec, heq] at hread
    exact hread.elim

theorem program_of_derives (h : Derives (.rule .program) (Cursor.ofTokens tokens made).kinds) :
    (Program.ofTokens tokens made).complaints = [] := by
  have hfuel := Cursor.length_ahead_ofTokens tokens made
  have hread := (Parse.statementTakes (Parse.fuelFor tokens.length)).declarations false _ []
    (derives_rule.mp h) (Or.inl rfl) (by rw [Parse.fuelFor, Cursor.kinds, List.length_map]; omega)
  rw [List.append_nil] at hread
  obtain ⟨statements, d, heq, -, hcomplaints, -⟩ := hread _ rfl
  rw [Program.ofTokens, heq]
  exact hcomplaints

/-! ### Expressions -/

theorem derives_of_expression (hsome : (ParsedExpr.ofTokens tokens made).expr?.isSome = true)
    (h : (ParsedExpr.ofTokens tokens made).complaints = []) :
    Derives (.rule .expression) (Cursor.ofTokens tokens made).kinds := by
  have hfuel := Cursor.length_ahead_ofTokens tokens made
  have hread := Parse.wholeExpression_recognizes (n := Parse.fuelFor tokens.length)
    (c := Cursor.ofTokens tokens made) (by rw [Parse.fuelFor]; omega)
  unfold ParsedExpr.ofTokens at h hsome
  split at h
  · rename_i e d heq
    exact hread.derives heq h
  · simp [Cursor.complain] at h
  · rename_i heq
    simp [heq] at hsome

theorem expression_of_derives
    (h : Derives (.rule .expression) (Cursor.ofTokens tokens made).kinds) :
    (ParsedExpr.ofTokens tokens made).expr?.isSome = true ∧
      (ParsedExpr.ofTokens tokens made).complaints = [] := by
  have hfuel := Cursor.length_ahead_ofTokens tokens made
  have hread := Parse.wholeExpression_takes (n := Parse.fuelFor tokens.length) h
    (by rw [Parse.fuelFor, Cursor.kinds, List.length_map]; omega)
  obtain ⟨e, d, heq, -, hcomplaints, -⟩ := hread _ rfl
  rw [ParsedExpr.ofTokens, heq]
  exact ⟨rfl, hcomplaints⟩

/-- The readers accept the words of the grammar and nothing else. -/
theorem readers_accept_the_grammar {ts : List Token} {eof : Token}
    (hts : ∀ t ∈ ts, t.isEof = false) (heof : eof.isEof = true) (made : Nat) :
    ((Program.ofTokens (ts ++ [eof]) made).complaints = [] ↔
      Derives (.rule .program) (ts.map Token.kind)) ∧
    ((ParsedExpr.ofTokens (ts ++ [eof]) made).expr?.isSome = true ∧
        (ParsedExpr.ofTokens (ts ++ [eof]) made).complaints = [] ↔
      Derives (.rule .expression) (ts.map Token.kind)) := by
  have hkinds := Cursor.kinds_ofTokens hts heof made
  refine ⟨⟨fun h => ?_, fun h => ?_⟩, ⟨fun h => ?_, fun h => ?_⟩⟩
  · exact hkinds ▸ derives_of_program h
  · exact program_of_derives (hkinds.symm ▸ h)
  · exact hkinds ▸ derives_of_expression h.1 h.2
  · exact expression_of_derives (hkinds.symm ▸ h)

/-- Tokens of some kinds. -/
def tokensOf (w : Word) : List Token := w.map fun k => ⟨k, "", 1⟩

/-- An assignment to a property and an `else` that could go with either of two conditions. -/
def danglingElse : List Token :=
  tokensOf [.keyword .if_, .symbol .leftParen, .identifier, .symbol .rightParen, .keyword .if_,
    .symbol .leftParen, .identifier, .symbol .rightParen, .identifier, .symbol .dot, .identifier,
    .symbol .equal, .string "s", .symbol .semicolon, .keyword .else_, .keyword .print,
    .symbol .minus, .identifier, .symbol .semicolon]

/-- A call with a number of arguments. -/
def callOf (count : Nat) : List Token :=
  tokensOf (.identifier :: .symbol .leftParen ::
    ((List.replicate count TokenKind.identifier).intersperse (.symbol .comma) ++
      [.symbol .rightParen]))

theorem longest_call_has_255_arguments :
    Derives (.rule .program) (danglingElse.map Token.kind) ∧
      Derives (.rule .expression) ((callOf 255).map Token.kind) ∧
      ¬ Derives (.rule .expression) ((callOf 256).map Token.kind) := by
  have heof : (⟨.eof, "", 1⟩ : Token).isEof = true := rfl
  have helse : ∀ t ∈ danglingElse, t.isEof = false := by decide +kernel
  have hfull : ∀ t ∈ callOf 255, t.isEof = false := by decide +kernel
  have hlong : ∀ t ∈ callOf 256, t.isEof = false := by decide +kernel
  refine ⟨(readers_accept_the_grammar helse heof 0).1.mp (by decide +kernel),
    (readers_accept_the_grammar hfull heof 0).2.mp (by decide +kernel), fun h => ?_⟩
  exact absurd ((readers_accept_the_grammar hlong heof 0).2.mpr h) (by decide +kernel)

end Lox
