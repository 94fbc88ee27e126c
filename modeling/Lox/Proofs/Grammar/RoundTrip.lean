import Lox.Proofs.Grammar.Consumption
import Lox.Proofs.Grammar.Rereading
import Lox.Proofs.Mirror.Joining
import Lox.Proofs.Mirror.Reached

/-!
# Reading and writing expressions

Reading an expression and writing its tokens are inverse to each other. What is read without a
complaint is written as the tokens that it was read from. What is written for an expression, each
part of which is of the grade that its place asks for, is read as this expression again, but for the
identities of its nodes and the lines of its tokens.
-/

namespace Lox

/-- Tokens of the same kind and with the same text correspond, on whatever lines. So do any two
nodes. -/
def Mirror.sameText : Mirror where
  token t t' := t'.kind = t.kind ∧ t'.lexeme = t.lexeme
  node _ _ := True
  made _ _ := True
  output _ _ := True
  kind h := h.1
  lexeme h := h.2
  next _ := ⟨trivial, trivial⟩
  write _ _ := trivial

variable {ts : List Token} {eof : Token} {made : Nat} {e : Expr}

theorem ParsedExpr.readFrom (hts : ∀ t ∈ ts, t.isEof = false) (heof : eof.isEof = true)
    (he : (ParsedExpr.ofTokens (ts ++ [eof]) made).expr? = some e)
    (hclean : (ParsedExpr.ofTokens (ts ++ [eof]) made).complaints = []) :
    e.ReadFrom .expression ts := by
  have hread := Parse.wholeExpression_consumes (Parse.fuelFor (ts ++ [eof]).length)
    (Cursor.ofTokens (ts ++ [eof]) made)
  unfold ParsedExpr.ofTokens at he hclean
  rw [Cursor.ofTokens_append hts heof made] at he hclean hread
  split at he
  · rename_i e' d heq
    rw [heq] at hclean
    obtain rfl := Option.some.inj he
    exact (hread.of_ok heq).2 hclean
  · cases he
  · cases he

theorem ParsedExpr.ofTokens_of_gives {j : Nat} (hts : ∀ t ∈ ts, t.isEof = false)
    (heof : eof.isEof = true) (h : Parse.Gives Parse.wholeExpression ts made e [] j) :
    (ParsedExpr.ofTokens (ts ++ [eof]) made).expr? = some e ∧
      (ParsedExpr.ofTokens (ts ++ [eof]) made).complaints = [] := by
  obtain ⟨k, hk⟩ := h eof []
  have hself : (Cursor.mk ts eof made []).Mirrored (.own (fun _ => True) fun _ => True)
      ⟨ts, eof, made, []⟩ :=
    ⟨List.forall₂_same.mpr fun _ _ => ⟨trivial, rfl⟩, ⟨trivial, rfl⟩, fun _ => ⟨trivial, rfl⟩, .nil⟩
  have hread := Parse.wholeExpression_mirrored _
    (le_max_left (Parse.fuelFor (ts ++ [eof]).length) k) _ _ hself
  have hfuel : 32 * ts.length + 15 ≤ Parse.fuelFor (ts ++ [eof]).length := by
    rw [Parse.fuelFor, List.length_append]
    omega
  have hended := Parse.Spec.ended
    (Parse.wholeExpression_recognizes (c := ⟨ts, eof, made, []⟩) hfuel)
  rw [hk _ (le_max_right _ _)] at hread
  rw [ParsedExpr.ofTokens, Cursor.ofTokens_append hts heof made]
  generalize Parse.wholeExpression _ _ = r at hread hended
  cases hread with
  | ok he hd =>
    obtain rfl := he.eq_of_own
    exact ⟨rfl, List.forall₂_nil_right_iff.mp hd.complaints⟩
  | starved r => exact absurd rfl hended

theorem Expr.WrittenAs.isEof {g : Grade} (hgrade : e.OfGrade g)
    (h : e.WrittenAs Mirror.sameText.token ts) : ∀ t ∈ ts, t.isEof = false := by
  intro t ht
  have hkind : t.kind ∈ e.unparse.map Mark.kind := by
    rw [← Mark.kinds_of_forall₂ h]
    exact List.mem_map_of_mem ht
  obtain ⟨m, hm, heq⟩ := List.mem_map.mp hkind
  exact beq_eq_false_iff_ne.mpr (heq ▸ hgrade.kind_ne_eof m hm)

/-- Reading an expression and writing it are inverse to each other. -/
theorem reading_inverts_unparsing :
    (∀ (ts : List Token) (eof : Token) (made : Nat) (e : Expr),
      (∀ t ∈ ts, t.isEof = false) → eof.isEof = true →
      (ParsedExpr.ofTokens (ts ++ [eof]) made).expr? = some e →
      (ParsedExpr.ofTokens (ts ++ [eof]) made).complaints = [] →
      e.WrittenAs Eq ts ∧ e.OfGrade .expression) ∧
    ∀ (e : Expr) (ts : List Token) (eof : Token) (made : Nat),
      e.OfGrade .expression → e.WrittenAs Mirror.sameText.token ts → eof.isEof = true →
      ∃ e', (ParsedExpr.ofTokens (ts ++ [eof]) made).expr? = some e' ∧
        (ParsedExpr.ofTokens (ts ++ [eof]) made).complaints = [] ∧ e.Mirrored .sameText e' := by
  refine ⟨fun ts eof made e hts heof he hclean => ?_, fun e ts eof made hgrade hwritten heof => ?_⟩
  · have hread := ParsedExpr.readFrom hts heof he hclean
    exact ⟨hread.written, hread.grade⟩
  · have hread := Parse.rereadsAs (fun _ _ => trivial) hgrade ts [] hwritten closes_nil
    obtain ⟨e', j, hmirrored, hgives⟩ := Parse.wholeExpression_rereads hread made
    obtain ⟨he', hclean⟩ := ParsedExpr.ofTokens_of_gives (hwritten.isEof hgrade) heof hgives
    exact ⟨e', he', hclean, hmirrored⟩

/-- The tokens of `a.b = !f(nil, "s") or super.m` on a line. -/
def assignmentTokens (line : Nat) : List Token :=
  [⟨.identifier, "a", line⟩, ⟨.symbol .dot, ".", line⟩, ⟨.identifier, "b", line⟩,
    ⟨.symbol .equal, "=", line⟩, ⟨.symbol .bang, "!", line⟩, ⟨.identifier, "f", line⟩,
    ⟨.symbol .leftParen, "(", line⟩, ⟨.keyword .nil, "nil", line⟩, ⟨.symbol .comma, ",", line⟩,
    ⟨.string "s", "\"s\"", line⟩, ⟨.symbol .rightParen, ")", line⟩, ⟨.keyword .or, "or", line⟩,
    ⟨.keyword .super, "super", line⟩, ⟨.symbol .dot, ".", line⟩, ⟨.identifier, "m", line⟩]

/-- An assignment is read, written on another line and read again. -/
theorem assignment_is_read_again :
    ∃ e e', (ParsedExpr.ofTokens (assignmentTokens 1 ++ [⟨.eof, "", 1⟩]) 0).expr? = some e ∧
      e.WrittenAs Eq (assignmentTokens 1) ∧ e.OfGrade .expression ∧
      e.WrittenAs Mirror.sameText.token (assignmentTokens 2) ∧
      (ParsedExpr.ofTokens (assignmentTokens 2 ++ [⟨.eof, "", 3⟩]) 20).expr? = some e' ∧
      e.Mirrored .sameText e' := by
  have hread : (ParsedExpr.ofTokens (assignmentTokens 1 ++ [⟨.eof, "", 1⟩]) 0).expr?.isSome = true ∧
      (ParsedExpr.ofTokens (assignmentTokens 1 ++ [⟨.eof, "", 1⟩]) 0).complaints = [] := by
    decide +kernel
  obtain ⟨e, he⟩ := Option.isSome_iff_exists.mp hread.1
  obtain ⟨hwritten, hgrade⟩ := reading_inverts_unparsing.1 (assignmentTokens 1) ⟨.eof, "", 1⟩ 0 e
    (by decide) rfl he hread.2
  have hagain : e.WrittenAs Mirror.sameText.token (assignmentTokens 2) := by
    have hlines : assignmentTokens 2 = (assignmentTokens 1).map fun t => { t with line := 2 } := rfl
    rw [hlines, Expr.WrittenAs, List.forall₂_map_right_iff]
    refine hwritten.imp fun m t hfits => ?_
    cases m with
    | kept u =>
      obtain rfl : u = t := hfits
      exact ⟨rfl, rfl⟩
    | made k => exact hfits
  obtain ⟨e', he', -, hmirrored⟩ := reading_inverts_unparsing.2 e (assignmentTokens 2) ⟨.eof, "", 3⟩
    20 hgrade hagain rfl
  exact ⟨e, e', he, hwritten, hgrade, hagain, he', hmirrored⟩

end Lox
