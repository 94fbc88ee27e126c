import Lox.Tree.Render

/-!
# Parenthesised forms

The parenthesised text of an expression shows less than the tree: words, and groups of a head word
and some parts. `Expr.outline` is this view of an expression, and `Expr.text_outline` says that the
text shows nothing but the view.

The text of a form shows all of the form. As words hold no blanks and no parentheses, a text that
starts with a form starts with no other one, and what follows the form is told by the text, too
(`Form.eq_of_text_append`).
-/

namespace Lox

/-- A word, or a head word with parts in a pair of parentheses. -/
inductive Form where
  | word (text : List Char)
  | group (head : List Char) (parts : List Form)

mutual

def Form.text : Form → List Char
  | .word text => text
  | .group head parts => '(' :: (head ++ (textOfParts parts ++ [')']))
termination_by structural f => f

/-- Each part after a blank. -/
def textOfParts : List Form → List Char
  | [] => []
  | f :: fs => ' ' :: (f.text ++ textOfParts fs)
termination_by structural fs => fs

end

/-! ### Reading a form off its text -/

def isWordChar (c : Char) : Bool := c != ' ' && c != '(' && c != ')'

mutual

/-- All words hold word characters only. -/
def Form.Plain : Form → Prop
  | .word text => ∀ c ∈ text, isWordChar c = true
  | .group head parts => (∀ c ∈ head, isWordChar c = true) ∧ plainParts parts
termination_by structural f => f

def plainParts : List Form → Prop
  | [] => True
  | f :: fs => f.Plain ∧ plainParts fs
termination_by structural fs => fs

end

/-- A text that may follow a form. -/
inductive Bounded : List Char → Prop where
  | nil : Bounded []
  | blank (tail : List Char) : Bounded (' ' :: tail)
  | closing (tail : List Char) : Bounded (')' :: tail)

section

variable {text text' head s s' : List Char}

theorem Bounded.takeWhile_append (hs : Bounded s) (h : ∀ c ∈ text, isWordChar c = true) :
    (text ++ s).takeWhile isWordChar = text := by
  rw [List.takeWhile_append_of_pos h]
  cases hs <;> simp [isWordChar]

theorem Bounded.word_eq (hs : Bounded s) (hs' : Bounded s')
    (h : ∀ c ∈ text, isWordChar c = true) (h' : ∀ c ∈ text', isWordChar c = true)
    (heq : text ++ s = text' ++ s') : text = text' ∧ s = s' := by
  have htext : text = text' := by
    rw [← hs.takeWhile_append h, heq, hs'.takeWhile_append h']
  subst htext
  exact ⟨rfl, List.append_cancel_left heq⟩

theorem Bounded.word_ne_group (hs : Bounded s) (h : ∀ c ∈ text, isWordChar c = true)
    (tail : List Char) : text ++ s ≠ '(' :: tail := by
  intro heq
  cases text with
  | nil => cases hs <;> cases heq
  | cons c cs =>
    cases heq
    exact absurd (h '(' List.mem_cons_self) (by decide)

theorem bounded_textOfParts (fs : List Form) (s : List Char) :
    Bounded (textOfParts fs ++ ')' :: s) := by
  cases fs with
  | nil => exact .closing s
  | cons f fs => exact .blank _

end

theorem Form.text_group_append (head : List Char) (parts : List Form) (s : List Char) :
    (Form.group head parts).text ++ s = '(' :: (head ++ (textOfParts parts ++ ')' :: s)) := by
  simp [Form.text]

theorem textOfParts_cons_append (f : Form) (fs : List Form) (s : List Char) :
    textOfParts (f :: fs) ++ ')' :: s = ' ' :: (f.text ++ (textOfParts fs ++ ')' :: s)) := by
  simp [textOfParts]

mutual

/-- A text starts with at most one form. -/
theorem Form.eq_of_text_append : ∀ (f g : Form) {s t : List Char}, f.Plain → g.Plain →
    Bounded s → Bounded t → f.text ++ s = g.text ++ t → f = g ∧ s = t
  | .word text, .word text', s, t, hf, hg, hs, ht, h => by
    obtain ⟨rfl, rfl⟩ := hs.word_eq ht hf hg h
    exact ⟨rfl, rfl⟩
  | .word text, .group head parts, s, t, hf, _, hs, _, h => by
    rw [Form.text_group_append] at h
    exact absurd h (hs.word_ne_group hf _)
  | .group head parts, .word text, s, t, _, hg, _, ht, h => by
    rw [Form.text_group_append] at h
    exact absurd h.symm (ht.word_ne_group hg _)
  | .group head parts, .group head' parts', s, t, hf, hg, _, _, h => by
    rw [Form.text_group_append, Form.text_group_append, List.cons.injEq] at h
    obtain ⟨rfl, hparts⟩ := (bounded_textOfParts parts s).word_eq (bounded_textOfParts parts' t)
      hf.1 hg.1 h.2
    obtain ⟨rfl, rfl⟩ := parts_eq_of_text_append parts parts' hf.2 hg.2 hparts
    exact ⟨rfl, rfl⟩
termination_by structural f => f

theorem parts_eq_of_text_append : ∀ (fs gs : List Form) {s t : List Char}, plainParts fs →
    plainParts gs → textOfParts fs ++ ')' :: s = textOfParts gs ++ ')' :: t → fs = gs ∧ s = t
  | [], [], s, t, _, _, h => ⟨rfl, (List.cons.inj h).2⟩
  | [], g :: gs, s, t, _, _, h => by
    rw [textOfParts_cons_append] at h
    cases h
  | f :: fs, [], s, t, _, _, h => by
    rw [textOfParts_cons_append] at h
    cases h
  | f :: fs, g :: gs, s, t, hf, hg, h => by
    rw [textOfParts_cons_append, textOfParts_cons_append, List.cons.injEq] at h
    obtain ⟨rfl, hrest⟩ := f.eq_of_text_append g hf.1 hg.1 (bounded_textOfParts fs s)
      (bounded_textOfParts gs t) h.2
    obtain ⟨rfl, rfl⟩ := parts_eq_of_text_append fs gs hf.2 hg.2 hrest
    exact ⟨rfl, rfl⟩
termination_by structural fs => fs

end

theorem Form.eq_of_text {f g : Form} (hf : f.Plain) (hg : g.Plain) (h : f.text = g.text) :
    f = g :=
  (f.eq_of_text_append g hf hg .nil .nil (by rw [h])).1

/-! ### The outline of an expression -/

/-- The head of a grouping. -/
def groupHead : List Char := ['g', 'r', 'o', 'u', 'p']

/-- The head of a call. -/
def callHead : List Char := ['c', 'a', 'l', 'l']

mutual

/-- The parenthesised form of an expression, before it is written. -/
def Expr.outline : Expr → Form
  | .literal _ value => .word value.render.toList
  | .grouping _ inner => .group groupHead [inner.outline]
  | .unary _ op right => .group op.lexeme.toList [right.outline]
  | .binary _ left op right => .group op.lexeme.toList [left.outline, right.outline]
  | .logical _ left op right => .group op.lexeme.toList [left.outline, right.outline]
  | .var _ name => .word name.lexeme.toList
  | .assign _ name value =>
    .group Symbol.equal.spelling [.word name.lexeme.toList, value.outline]
  | .call _ callee _ args => .group callHead (callee.outline :: outlineArgs args)
  | .get _ object name => .group Symbol.dot.spelling [object.outline, .word name.lexeme.toList]
  | .set _ object name value =>
    .group Symbol.equal.spelling
      [.group Symbol.dot.spelling [object.outline, .word name.lexeme.toList], value.outline]
  | .this _ _ => .word Keyword.this.spelling
  | .super _ _ method => .group Keyword.super.spelling [.word method.lexeme.toList]
termination_by structural e => e

def outlineArgs : List Expr → List Form
  | [] => []
  | e :: es => e.outline :: outlineArgs es
termination_by structural es => es

end

mutual

/-- The text of an expression shows its outline and nothing else. -/
theorem Expr.text_outline : ∀ e : Expr, e.outline.text = e.render.toList
  | .literal _ _ => rfl
  | .grouping _ inner => by
    simp [Expr.outline, Expr.render, Form.text, textOfParts, groupHead, inner.text_outline]
  | .unary _ op right => by
    simp [Expr.outline, Expr.render, Form.text, textOfParts, right.text_outline]
  | .binary _ left op right => by
    simp [Expr.outline, Expr.render, Form.text, textOfParts, left.text_outline, right.text_outline]
  | .logical _ left op right => by
    simp [Expr.outline, Expr.render, Form.text, textOfParts, left.text_outline, right.text_outline]
  | .var _ _ => rfl
  | .assign _ name value => by
    simp [Expr.outline, Expr.render, Form.text, textOfParts, Symbol.spelling, value.text_outline]
  | .call _ callee _ args => by
    simp [Expr.outline, Expr.render, Form.text, textOfParts, callHead, callee.text_outline,
      text_outlineArgs args]
  | .get _ object name => by
    simp [Expr.outline, Expr.render, Form.text, textOfParts, Symbol.spelling, object.text_outline]
  | .set _ object name value => by
    simp [Expr.outline, Expr.render, Form.text, textOfParts, Symbol.spelling, object.text_outline,
      value.text_outline]
  | .this _ _ => by simp [Expr.outline, Expr.render, Form.text, Keyword.spelling]
  | .super _ _ method => by
    simp [Expr.outline, Expr.render, Form.text, textOfParts, Keyword.spelling]
termination_by structural e => e

theorem text_outlineArgs : ∀ es : List Expr, textOfParts (outlineArgs es) = (renderArgs es).toList
  | [] => rfl
  | e :: es => by
    simp [outlineArgs, renderArgs, textOfParts, e.text_outline, text_outlineArgs es]
termination_by structural es => es

end

end Lox
