import Mathlib.Tactic.Common
import Lox.Token.Scan

/-!
# Spelling of names and keywords

A scanned token that counts as a keyword is spelled like it, and no identifier is spelled like a
keyword. So a variable can be told apart by its text from the names `this` and `super`, which live
in scopes of their own.
-/

namespace Lox

/-- The text of a keyword is that keyword's spelling; the text of an identifier is no keyword's. -/
def TokenKind.Spells (text : List Char) : TokenKind → Prop
  | .keyword k => k.spelling = text
  | .identifier => Keyword.ofWord? text = none
  | _ => True

def Token.Spelled (t : Token) : Prop := t.kind.Spells t.lexeme.toList

def Piece.Spelled : Piece → Prop
  | .token kind text => kind.Spells text
  | _ => True

theorem Keyword.spelling_of_ofWord? {word : List Char} {k : Keyword}
    (h : Keyword.ofWord? word = some k) : k.spelling = word := by
  have := List.find?_some h
  simpa using this

theorem wordPiece_spelled (c : Char) (after : List Char) : (wordPiece c after).1.Spelled := by
  unfold wordPiece
  simp only [Piece.Spelled]
  split
  · exact Keyword.spelling_of_ofWord? ‹_›
  · assumption

theorem stringPiece_spelled (after : List Char) : (stringPiece after).1.Spelled := by
  unfold stringPiece
  split <;> trivial

theorem markPiece_spelled (c : Char) (after : List Char) : (markPiece c after).1.Spelled := by
  unfold markPiece
  split
  · trivial
  · split <;> trivial

theorem nextPiece_spelled (c : Char) (after : List Char) : (nextPiece c after).1.Spelled := by
  unfold nextPiece
  split_ifs
  · trivial
  · exact stringPiece_spelled after
  · trivial
  · exact wordPiece_spelled c after
  · exact markPiece_spelled c after

theorem pieces_spelled (source : List Char) : ∀ p ∈ pieces source, p.Spelled := by
  fun_induction pieces source with
  | case1 => simp
  | case2 c after ih =>
    intro p hp
    rcases List.mem_cons.mp hp with rfl | hp
    · exact nextPiece_spelled c after
    · exact ih p hp

theorem locate_spelled (line : Nat) (ps : List Piece) (h : ∀ p ∈ ps, p.Spelled) :
    ∀ t, Item.token t ∈ locate line ps → t.Spelled := by
  induction ps generalizing line with
  | nil =>
    intro t ht
    simp only [locate, List.mem_singleton, Item.token.injEq] at ht
    subst ht
    trivial
  | cons p ps ih =>
    intro t ht
    rcases List.mem_append.mp ht with ht | ht
    · have hp := h p List.mem_cons_self
      cases p with
      | token kind text =>
        simp only [Piece.item?, Option.toList_some, List.mem_singleton, Item.token.injEq] at ht
        subst ht
        simpa [Token.Spelled, Piece.Spelled] using hp
      | blank text => simp [Piece.item?] at ht
      | fault cause text => simp [Piece.item?] at ht
    · exact ih _ (fun q hq => h q (List.mem_cons_of_mem p hq)) t ht

theorem tokens_spelled (source : String) : ∀ t ∈ tokens source, t.Spelled := by
  intro t ht
  obtain ⟨item, hitem, htoken⟩ := List.mem_filterMap.mp ht
  cases item with
  | token u =>
    simp only [Item.token?, Option.some.injEq] at htoken
    subst htoken
    exact locate_spelled 1 _ (pieces_spelled _) _ hitem
  | error line cause => simp [Item.token?] at htoken

theorem Keyword.ofWord?_spelling (k : Keyword) : Keyword.ofWord? k.spelling = some k := by
  cases k <;> decide

namespace Token

variable {t : Token}

theorem Spelled.lexeme_eq (h : t.Spelled) {k : Keyword} (hkind : t.kind = .keyword k) :
    t.lexeme = String.ofList k.spelling := by
  rw [Spelled, hkind] at h
  rw [show k.spelling = t.lexeme.toList from h, String.ofList_toList]

theorem Spelled.lexeme_ne (h : t.Spelled) (hkind : t.kind = .identifier) (k : Keyword) :
    t.lexeme ≠ String.ofList k.spelling := by
  intro heq
  rw [Spelled, hkind, heq, String.toList_ofList] at h
  exact absurd (h.symm.trans k.ofWord?_spelling) (by simp)

theorem Spelled.lexeme_eq_this (h : t.Spelled) (hkind : t.kind = .keyword .this) :
    t.lexeme = "this" :=
  h.lexeme_eq hkind

theorem Spelled.lexeme_eq_super (h : t.Spelled) (hkind : t.kind = .keyword .super) :
    t.lexeme = "super" :=
  h.lexeme_eq hkind

theorem Spelled.lexeme_ne_this (h : t.Spelled) (hkind : t.kind = .identifier) :
    t.lexeme ≠ "this" :=
  h.lexeme_ne hkind .this

theorem Spelled.lexeme_ne_super (h : t.Spelled) (hkind : t.kind = .identifier) :
    t.lexeme ≠ "super" :=
  h.lexeme_ne hkind .super

end Token

end Lox
