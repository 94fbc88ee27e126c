import Mathlib.Data.List.Basic
import Mathlib.Tactic.Common
import Lox.Token.Scan

/-!
# Scanning line by line

No piece of source text but a string reaches beyond its line, and where a piece ends does not depend
on what comes on later lines. So a source followed by a newline and another source is scanned as the
first and then the second, with the lines of the second counted on from those of the first, unless
the first ends within a string (`scan_lines`).

The texts of all pieces in order make up the source (`pieces_text`), so that lines are counted over
the whole source; and every scan ends with its only end of file.
-/

namespace Lox

/-! ### Texts of pieces -/

theorem read?_text {c : Char} {after rest : List Char} {s : Symbol}
    (h : Symbol.read? c after = some (s, rest)) : s.spelling ++ rest = c :: after := by
  unfold Symbol.read? at h
  split at h <;> cases h <;> rfl

theorem splitFraction_text (cs : List Char) :
    (if (splitFraction cs).1.isEmpty then [] else '.' :: (splitFraction cs).1) ++
      (splitFraction cs).2 = cs := by
  unfold splitFraction
  split
  · split_ifs <;> simp_all
  · rfl

theorem nextPiece_text (c : Char) (after : List Char) :
    (nextPiece c after).1.text ++ (nextPiece c after).2 = c :: after := by
  unfold nextPiece
  split_ifs with hblank hquote hdigit hname
  · rfl
  · have hc : c = '"' := by simpa using hquote
    have hsplit := List.takeWhile_append_dropWhile (p := (· != '"')) (l := after)
    unfold stringPiece
    cases hrest : after.dropWhile (· != '"') with
    | nil =>
      rw [hrest] at hsplit
      simp only [Piece.text, hc, List.cons_append, hsplit]
    | cons quote rest =>
      rw [hrest] at hsplit
      simp only [Piece.text, hc, List.cons_append, List.append_assoc, List.nil_append, hsplit]
  · have hfraction := splitFraction_text (after.dropWhile Char.isDigit)
    have hsplit := List.takeWhile_append_dropWhile (p := Char.isDigit) (l := after)
    rw [← hfraction] at hsplit
    unfold numberPiece
    dsimp only [Piece.text]
    cases hempty : (splitFraction (after.dropWhile Char.isDigit)).1.isEmpty <;>
      simp_all
  · show (c :: after.takeWhile isNameChar) ++ after.dropWhile isNameChar = c :: after
    rw [List.cons_append, List.takeWhile_append_dropWhile]
  · unfold markPiece
    split
    · simp [Piece.text, List.takeWhile_append_dropWhile]
    · split
      · exact read?_text ‹_›
      · rfl

/-- The texts of the pieces of a source make up the source. -/
theorem pieces_text (source : List Char) : (pieces source).flatMap Piece.text = source := by
  fun_induction pieces source with
  | case1 => rfl
  | case2 c after ih => rw [List.flatMap_cons, ih, nextPiece_text]

/-! ### A newline ends every piece but a string -/

section Newline

variable (rest : List Char)

theorem takeWhile_newline {p : Char → Bool} (hp : p '\n' = false) (cs : List Char) :
    (cs ++ '\n' :: rest).takeWhile p = cs.takeWhile p := by
  induction cs with
  | nil => rw [List.nil_append, List.takeWhile_cons_of_neg (by simp [hp]), List.takeWhile_nil]
  | cons c cs ih => rw [List.cons_append, List.takeWhile_cons, List.takeWhile_cons, ih]

theorem dropWhile_newline {p : Char → Bool} (hp : p '\n' = false) (cs : List Char) :
    (cs ++ '\n' :: rest).dropWhile p = cs.dropWhile p ++ '\n' :: rest := by
  induction cs with
  | nil => rw [List.nil_append, List.dropWhile_cons_of_neg (by simp [hp]), List.dropWhile_nil]; rfl
  | cons c cs ih =>
    rw [List.cons_append, List.dropWhile_cons, List.dropWhile_cons, ih]
    split_ifs <;> rfl

theorem read?_newline (c : Char) (after : List Char) :
    Symbol.read? c (after ++ '\n' :: rest) =
      (Symbol.read? c after).map fun r => (r.1, r.2 ++ '\n' :: rest) := by
  cases after with
  | nil => unfold Symbol.read?; split <;> simp_all
  | cons d after => unfold Symbol.read?; split <;> simp_all

omit rest in
theorem splitFraction_of_ne {c : Char} (h : c ≠ '.') (cs : List Char) :
    splitFraction (c :: cs) = ([], c :: cs) := by
  unfold splitFraction
  split
  · rename_i heq
    rw [List.cons.injEq] at heq
    exact absurd heq.1 h
  · rfl

theorem splitFraction_newline (cs : List Char) :
    splitFraction (cs ++ '\n' :: rest) =
      ((splitFraction cs).1, (splitFraction cs).2 ++ '\n' :: rest) := by
  cases cs with
  | nil => exact splitFraction_of_ne (by decide) rest
  | cons c cs =>
    by_cases hc : c = '.'
    · subst hc
      cases cs with
      | nil => rfl
      | cons d cs =>
        by_cases hd : d.isDigit = true
        · simp only [List.cons_append, splitFraction, if_pos hd]
          rw [takeWhile_newline rest rfl, dropWhile_newline rest rfl]
        · simp only [List.cons_append, splitFraction, if_neg hd]
    · rw [List.cons_append, splitFraction_of_ne hc, splitFraction_of_ne hc, List.cons_append]

theorem stringPiece_newline {after : List Char} (h : after.dropWhile (· != '"') ≠ []) :
    stringPiece (after ++ '\n' :: rest) =
      ((stringPiece after).1, (stringPiece after).2 ++ '\n' :: rest) := by
  have htake : (after ++ '\n' :: rest).takeWhile (· != '"') = after.takeWhile (· != '"') := by
    induction after with
    | nil => simp at h
    | cons c cs ih =>
      rw [List.dropWhile_cons] at h
      rw [List.cons_append, List.takeWhile_cons, List.takeWhile_cons]
      split_ifs at h ⊢ with hc
      · rw [ih h]
      · rfl
  have hdrop : (after ++ '\n' :: rest).dropWhile (· != '"') =
      after.dropWhile (· != '"') ++ '\n' :: rest := by
    have hwhole : after.takeWhile (· != '"') ++ (after ++ '\n' :: rest).dropWhile (· != '"') =
        after.takeWhile (· != '"') ++ (after.dropWhile (· != '"') ++ '\n' :: rest) := by
      rw [← htake, List.takeWhile_append_dropWhile, htake, ← List.append_assoc,
        List.takeWhile_append_dropWhile]
    exact List.append_cancel_left hwhole
  unfold stringPiece
  rw [htake, hdrop]
  cases hquote : after.dropWhile (· != '"') with
  | nil => exact absurd hquote h
  | cons quote tail => rfl

theorem markPiece_of_ne {c : Char} {after : List Char}
    (h : ∀ tail, ¬(c = '/' ∧ after = '/' :: tail)) :
    markPiece c after =
      ((Symbol.read? c after).map fun r => (.token (.symbol r.1) r.1.spelling, r.2)).getD
        (.fault .unexpectedCharacter [c], after) := by
  unfold markPiece
  split
  · rename_i tail
    exact absurd ⟨rfl, rfl⟩ (h tail)
  · cases Symbol.read? c after with
    | none => rfl
    | some r => rfl

theorem markPiece_newline (c : Char) (after : List Char) :
    markPiece c (after ++ '\n' :: rest) =
      ((markPiece c after).1, (markPiece c after).2 ++ '\n' :: rest) := by
  by_cases hcomment : ∃ tail, c = '/' ∧ after = '/' :: tail
  · obtain ⟨tail, rfl, rfl⟩ := hcomment
    show (Piece.blank ('/' :: '/' :: (tail ++ '\n' :: rest).takeWhile (· != '\n')),
      (tail ++ '\n' :: rest).dropWhile (· != '\n')) = _
    rw [takeWhile_newline rest rfl, dropWhile_newline rest rfl]
    rfl
  · have hnone : ∀ tail, ¬(c = '/' ∧ after = '/' :: tail) := fun tail h => hcomment ⟨tail, h⟩
    have hnone' : ∀ tail, ¬(c = '/' ∧ after ++ '\n' :: rest = '/' :: tail) := by
      rintro tail ⟨hc, heq⟩
      cases after with
      | nil => simp at heq
      | cons d after =>
        rw [List.cons_append, List.cons.injEq] at heq
        exact hnone after ⟨hc, by rw [heq.1]⟩
    rw [markPiece_of_ne hnone, markPiece_of_ne hnone', read?_newline]
    cases Symbol.read? c after with
    | none => rfl
    | some r => rfl

/-- A piece that is no open string does not depend on the lines that follow. -/
theorem nextPiece_newline (c : Char) (after : List Char)
    (h : ∀ text, (nextPiece c after).1 ≠ .fault .unterminatedString text) :
    nextPiece c (after ++ '\n' :: rest) =
      ((nextPiece c after).1, (nextPiece c after).2 ++ '\n' :: rest) := by
  unfold nextPiece at h ⊢
  split_ifs at h ⊢ with hblank hquote hdigit hname
  · rfl
  · refine stringPiece_newline rest fun hnone => ?_
    unfold stringPiece at h
    rw [hnone] at h
    exact h _ rfl
  · unfold numberPiece
    rw [takeWhile_newline rest rfl, dropWhile_newline rest rfl, splitFraction_newline]
  · unfold wordPiece
    rw [takeWhile_newline rest rfl, dropWhile_newline rest rfl]
  · exact markPiece_newline rest c after

end Newline

theorem pieces_newline (source rest : List Char)
    (h : ∀ text, .fault .unterminatedString text ∉ pieces source) :
    pieces (source ++ '\n' :: rest) = pieces source ++ .blank ['\n'] :: pieces rest := by
  fun_induction pieces source with
  | case1 => rw [List.nil_append, List.nil_append, pieces]; rfl
  | case2 c after ih =>
    have hnext := nextPiece_newline rest c after fun text heq =>
      h text (heq ▸ List.mem_cons_self)
    rw [List.cons_append, pieces, hnext, ih fun text hmem => h text (List.mem_cons_of_mem _ hmem)]
    rfl

/-! ### Lines -/

/-- The same token a number of lines further down. -/
def Token.later (k : Nat) (t : Token) : Token := { t with line := t.line + k }

def Item.later (k : Nat) : Item → Item
  | .token t => .token (t.later k)
  | .error line cause => .error (line + k) cause

/-- The items of pieces, without the end of file. -/
def locateOnly (line : Nat) : List Piece → List Item
  | [] => []
  | p :: ps => (p.item? line).toList ++ locateOnly (line + newlines p.text) ps

theorem newlines_append (xs ys : List Char) : newlines (xs ++ ys) = newlines xs + newlines ys :=
  List.count_append

theorem locate_append (line : Nat) (ps qs : List Piece) :
    locate line (ps ++ qs) =
      locateOnly line ps ++ locate (line + newlines (ps.flatMap Piece.text)) qs := by
  induction ps generalizing line with
  | nil => rfl
  | cons p ps ih =>
    rw [List.cons_append, locate, locateOnly, ih, List.flatMap_cons, newlines_append,
      List.append_assoc, Nat.add_assoc]

theorem item?_later (k line : Nat) (p : Piece) :
    p.item? (line + k) = (p.item? line).map (Item.later k) := by
  cases p with
  | token kind text =>
    simp only [Piece.item?, Option.map_some, Item.later, Token.later]
    rw [Nat.add_right_comm]
  | blank text => rfl
  | fault cause text => rfl

theorem locate_later (k line : Nat) (ps : List Piece) :
    locate (line + k) ps = (locate line ps).map (Item.later k) := by
  induction ps generalizing line with
  | nil => rfl
  | cons p ps ih =>
    rw [locate, locate, List.map_append, ← ih, item?_later, Nat.add_right_comm]
    cases p.item? line with
    | none => rfl
    | some item => rfl

theorem mem_locate_of_fault (line : Nat) {ps : List Piece} {cause : LexError} {text : List Char}
    (h : .fault cause text ∈ ps) : ∃ at_, Item.error at_ cause ∈ locate line ps := by
  induction ps generalizing line with
  | nil => simp at h
  | cons p ps ih =>
    rw [locate]
    rcases List.mem_cons.mp h with hp | hp
    · subst hp
      exact ⟨line, List.mem_append_left _ (by simp [Piece.item?])⟩
    · obtain ⟨at_, hat⟩ := ih (line + newlines p.text) hp
      exact ⟨at_, List.mem_append_right _ hat⟩

/-- All items of a source but its last, the end of file. -/
def scanOnly (source : String) : List Item := locateOnly 1 (pieces source.toList)

theorem scan_eq (source : String) :
    scan source = scanOnly source ++ [.token ⟨.eof, "", 1 + newlines source.toList⟩] := by
  have hlocate := locate_append 1 (pieces source.toList) []
  rw [List.append_nil, pieces_text] at hlocate
  exact hlocate

/-- The lines of a source that do not end within a string, and the lines after them. -/
theorem scan_lines (a b : String)
    (h : ∀ line, Item.error line .unterminatedString ∉ scan a) :
    scan (a ++ "\n" ++ b) =
      scanOnly a ++ (scan b).map (Item.later (1 + newlines a.toList)) := by
  have hopen : ∀ text, .fault .unterminatedString text ∉ pieces a.toList := by
    intro text hmem
    obtain ⟨line, hline⟩ := mem_locate_of_fault 1 hmem
    exact h line hline
  rw [scan, String.toList_append, String.toList_append, List.append_assoc]
  show locate 1 (pieces (a.toList ++ '\n' :: b.toList)) = _
  rw [pieces_newline _ _ hopen, locate_append, pieces_text, locate, scan, ← locate_later,
    Nat.add_comm 1 (1 + newlines a.toList)]
  rfl

/-! ### Tokens -/

/-- The tokens of a source before its end of file. -/
def tokensOnly (source : String) : List Token := (scanOnly source).filterMap Item.token?

theorem tokens_eq (source : String) :
    tokens source = tokensOnly source ++ [⟨.eof, "", 1 + newlines source.toList⟩] := by
  rw [tokens, scan_eq, List.filterMap_append]
  rfl

/-- No piece of source text is an end of file. -/
def Piece.NotEof : Piece → Prop
  | .token kind _ => kind ≠ .eof
  | _ => True

theorem nextPiece_notEof (c : Char) (after : List Char) : (nextPiece c after).1.NotEof := by
  unfold nextPiece
  split_ifs
  · trivial
  · unfold stringPiece
    split
    · trivial
    · exact TokenKind.noConfusion
  · exact TokenKind.noConfusion
  · unfold wordPiece
    dsimp only [Piece.NotEof]
    split <;> exact TokenKind.noConfusion
  · unfold markPiece
    split
    · trivial
    · split
      · exact TokenKind.noConfusion
      · trivial

theorem pieces_notEof (source : List Char) : ∀ p ∈ pieces source, p.NotEof := by
  fun_induction pieces source with
  | case1 => simp
  | case2 c after ih =>
    intro p hp
    rcases List.mem_cons.mp hp with rfl | hp
    · exact nextPiece_notEof c after
    · exact ih p hp

theorem locateOnly_notEof (line : Nat) {ps : List Piece} (h : ∀ p ∈ ps, p.NotEof) {t : Token}
    (ht : Item.token t ∈ locateOnly line ps) : t.isEof = false := by
  induction ps generalizing line with
  | nil => simp [locateOnly] at ht
  | cons p ps ih =>
    rcases List.mem_append.mp ht with ht | ht
    · cases p with
      | token kind text =>
        have hkind : kind ≠ .eof := h _ List.mem_cons_self
        simp only [Piece.item?, Option.toList_some, List.mem_singleton, Item.token.injEq] at ht
        subst ht
        simpa [Token.isEof] using hkind
      | blank text => simp [Piece.item?] at ht
      | fault cause text => simp [Piece.item?] at ht
    · exact ih _ (fun q hq => h q (List.mem_cons_of_mem p hq)) ht

theorem tokensOnly_notEof (source : String) : ∀ t ∈ tokensOnly source, t.isEof = false := by
  intro t ht
  obtain ⟨item, hitem, htoken⟩ := List.mem_filterMap.mp ht
  cases item with
  | token u =>
    rw [Item.token?, Option.some.injEq] at htoken
    rw [← htoken]
    exact locateOnly_notEof 1 (pieces_notEof _) hitem
  | error line cause => simp [Item.token?] at htoken

theorem tokens_lines (a b : String)
    (h : ∀ line, Item.error line .unterminatedString ∉ scan a) :
    tokens (a ++ "\n" ++ b) =
      tokensOnly a ++ (tokens b).map (Token.later (1 + newlines a.toList)) := by
  rw [tokens, scan_lines a b h, List.filterMap_append, tokens, List.map_filterMap,
    List.filterMap_map]
  refine congrArg _ (List.filterMap_congr fun item _ => ?_)
  cases item with
  | token t => rfl
  | error line cause => rfl

theorem line_of_mem_locate (line : Nat) (ps : List Piece) {t : Token}
    (ht : .token t ∈ locate line ps) :
    line ≤ t.line ∧ t.line ≤ line + newlines (ps.flatMap Piece.text) := by
  induction ps generalizing line with
  | nil =>
    rw [locate, List.mem_singleton, Item.token.injEq] at ht
    simp [ht]
  | cons p ps ih =>
    rw [List.flatMap_cons, newlines_append]
    rw [locate, List.mem_append, Option.mem_toList] at ht
    rcases ht with hp | hps
    · cases p with
      | token kind text =>
        simp only [Piece.item?, Option.some.injEq, Item.token.injEq] at hp
        simp only [← hp, Piece.text]
        omega
      | blank text => simp [Piece.item?] at hp
      | fault cause text => simp [Piece.item?] at hp
    · have hlater := ih (line + newlines p.text) hps
      omega

theorem line_of_mem_tokens {source : String} {t : Token} (ht : t ∈ tokens source) :
    1 ≤ t.line ∧ t.line ≤ 1 + newlines source.toList := by
  obtain ⟨item, hitem, hsome⟩ := List.mem_filterMap.mp ht
  cases item with
  | error line cause => simp [Item.token?] at hsome
  | token u =>
    rw [Item.token?, Option.some.injEq] at hsome
    have hline := line_of_mem_locate 1 (pieces source.toList) (hsome ▸ hitem)
    rwa [pieces_text] at hline

end Lox
