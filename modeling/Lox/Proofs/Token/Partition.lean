import Lox.Proofs.Token.Scanner
import Lox.Proofs.Token.Spelling

/-!
# How a source is divided

A source falls into stretches of text: tokens, white space, comments, characters that start nothing,
and at the end perhaps an open string. `Divided` says so, with the line of every item counted over
the source: a token stands on the line where it ends, an error on the line where it starts.

`scanning_divides_the_source` states this of what `scan` lists, and that the scanner, which walks
over bytes, hands out the same.
-/

namespace Lox

/-- The texts that a token of some kind may have. -/
inductive TokenKind.Spelled : TokenKind → List Char → Prop where
  | symbol (s : Symbol) : Spelled (.symbol s) s.spelling
  | keyword (k : Keyword) : Spelled (.keyword k) k.spelling
  | identifier {c : Char} {cs : List Char} (hc : isNameStart c = true)
    (hcs : ∀ d ∈ cs, isNameChar d = true) (hword : ∀ k : Keyword, k.spelling ≠ c :: cs) :
    Spelled .identifier (c :: cs)
  | string {contents : String} (h : '"' ∉ contents.toList) :
    Spelled (.string contents) ('"' :: (contents.toList ++ ['"']))
  | number {whole : List Char} (hne : whole ≠ []) (hwhole : ∀ d ∈ whole, d.isDigit = true) :
    Spelled (.number (Number.ofDigits whole [])) whole
  | decimal {whole fraction : List Char} (hne : whole ≠ [])
    (hwhole : ∀ d ∈ whole, d.isDigit = true) (hfne : fraction ≠ [])
    (hfraction : ∀ d ∈ fraction, d.isDigit = true) :
    Spelled (.number (Number.ofDigits whole fraction)) (whole ++ '.' :: fraction)

/-- No token and no blank starts with a character. -/
structure StartsNothing (c : Char) : Prop where
  blank : isBlankChar c = false
  quote : c ≠ '"'
  digit : c.isDigit = false
  name : isNameStart c = false
  symbol : ∀ s : Symbol, s.spelling.head? ≠ some c

/-- After the text `before`, the text that is left divides into stretches, and the given items are
those of its tokens and errors. -/
inductive Divided : List Char → List Char → List Item → Prop where
  | eof (before : List Char) : Divided before [] [.token ⟨.eof, "", 1 + newlines before⟩]
  | token {before text rest : List Char} {kind : TokenKind} {items : List Item}
    (hkind : kind.Spelled text) (h : Divided (before ++ text) rest items) :
    Divided before (text ++ rest)
      (.token ⟨kind, String.ofList text, 1 + newlines (before ++ text)⟩ :: items)
  | blank {before rest : List Char} {c : Char} {items : List Item}
    (hc : c = ' ' ∨ c = '\t' ∨ c = '\r' ∨ c = '\n') (h : Divided (before ++ [c]) rest items) :
    Divided before ([c] ++ rest) items
  | comment {before body rest : List Char} {items : List Item} (hbody : '\n' ∉ body)
    (hend : rest = [] ∨ rest.head? = some '\n')
    (h : Divided (before ++ ('/' :: '/' :: body)) rest items) :
    Divided before ('/' :: '/' :: body ++ rest) items
  | unexpected {before rest : List Char} {c : Char} {items : List Item} (hc : StartsNothing c)
    (h : Divided (before ++ [c]) rest items) :
    Divided before ([c] ++ rest) (.error (1 + newlines before) .unexpectedCharacter :: items)
  | unterminated {before body : List Char} {items : List Item} (hbody : '"' ∉ body)
    (h : Divided (before ++ ('"' :: body)) [] items) :
    Divided before ('"' :: body) (.error (1 + newlines before) .unterminatedString :: items)

variable {c : Char} {before after : List Char} {items : List Item}

theorem notMem_takeWhile (d : Char) (cs : List Char) : d ∉ cs.takeWhile (· != d) := by
  intro hmem
  have hpass := List.mem_takeWhile_imp hmem
  simp at hpass

/-! ### Pieces -/

/-- What a piece may be, in front of the text `rest`. -/
inductive Piece.Fits : Piece → List Char → Prop where
  | token {kind : TokenKind} {text : List Char} (hkind : kind.Spelled text) (rest : List Char) :
    Fits (.token kind text) rest
  | blank {c : Char} (hc : isBlankChar c = true) (rest : List Char) : Fits (.blank [c]) rest
  | comment {body rest : List Char} (hbody : '\n' ∉ body)
    (hend : rest = [] ∨ rest.head? = some '\n') : Fits (.blank ('/' :: '/' :: body)) rest
  | unexpected {c : Char} (hc : StartsNothing c) (rest : List Char) :
    Fits (.fault .unexpectedCharacter [c]) rest
  | unterminated {body : List Char} (hbody : '"' ∉ body) :
    Fits (.fault .unterminatedString ('"' :: body)) []

theorem stringPiece_fits (after : List Char) :
    (stringPiece after).1.Fits (stringPiece after).2 := by
  have hbody := notMem_takeWhile '"' after
  unfold stringPiece
  cases hrest : after.dropWhile (· != '"') with
  | nil => exact .unterminated hbody
  | cons quote rest =>
    obtain rfl : quote = '"' := by
      have hquote := List.head_dropWhile_not (· != '"') (l := after) (by simp [hrest])
      simpa [hrest] using hquote
    have hspelled : TokenKind.Spelled (.string (String.ofList (after.takeWhile (· != '"'))))
        ('"' :: ((String.ofList (after.takeWhile (· != '"'))).toList ++ ['"'])) :=
      .string (by rwa [String.toList_ofList])
    rw [String.toList_ofList] at hspelled
    exact .token hspelled rest

theorem splitFraction_isDigit (cs : List Char) :
    ∀ d ∈ (splitFraction cs).1, d.isDigit = true := by
  unfold splitFraction
  split
  · split_ifs with hd
    · rintro d (_ | ⟨_, hmem⟩)
      · exact hd
      · exact List.mem_takeWhile_imp hmem
    · simp
  · simp

theorem numberPiece_fits (hc : c.isDigit = true) (after : List Char) :
    (numberPiece c after).1.Fits (numberPiece c after).2 := by
  have hwhole : ∀ d ∈ c :: after.takeWhile Char.isDigit, d.isDigit = true := by
    rintro d (_ | ⟨_, hd⟩)
    · exact hc
    · exact List.mem_takeWhile_imp hd
  have hfraction := splitFraction_isDigit (after.dropWhile Char.isDigit)
  rw [numberPiece_fst]
  cases hempty : (splitFraction (after.dropWhile Char.isDigit)).1 with
  | nil =>
    rw [List.isEmpty_nil, if_pos rfl, List.append_nil]
    exact .token (.number (List.cons_ne_nil _ _) hwhole) _
  | cons d fraction =>
    rw [hempty] at hfraction
    exact .token (.decimal (List.cons_ne_nil _ _) hwhole (List.cons_ne_nil _ _) hfraction) _

theorem wordPiece_fits (hc : isNameStart c = true) (after : List Char) :
    (wordPiece c after).1.Fits (wordPiece c after).2 := by
  unfold wordPiece
  dsimp only
  cases hword : Keyword.ofWord? (c :: after.takeWhile isNameChar) with
  | some k =>
    rw [← Keyword.spelling_of_ofWord? hword]
    exact .token (.keyword k) _
  | none =>
    refine .token (.identifier hc (fun d hd => List.mem_takeWhile_imp hd) fun k => ?_) _
    have hall : k ∈ Keyword.all := by cases k <;> decide
    simpa using List.find?_eq_none.mp hword k hall

theorem read?_isSome {s : Symbol} (h : s.spelling.head? = some c) (after : List Char) :
    (Symbol.read? c after).isSome = true := by
  cases s <;> cases h <;> unfold Symbol.read? <;> split <;> simp_all

theorem markPiece_fits (hblank : isBlankChar c = false) (hquote : c ≠ '"')
    (hdigit : c.isDigit = false) (hname : isNameStart c = false) (after : List Char) :
    (markPiece c after).1.Fits (markPiece c after).2 := by
  unfold markPiece
  split
  · rename_i rest
    refine .comment (notMem_takeWhile '\n' rest) ?_
    cases hrest : rest.dropWhile (· != '\n') with
    | nil => exact .inl rfl
    | cons d tail =>
      have hd := List.head_dropWhile_not (· != '\n') (l := rest) (by simp [hrest])
      refine .inr ?_
      simpa [hrest] using hd
  · cases hread : Symbol.read? c after with
    | some r => exact .token (.symbol r.1) _
    | none =>
      refine .unexpected ⟨hblank, hquote, hdigit, hname, fun s hs => ?_⟩ _
      have hsome := read?_isSome hs after
      simp [hread] at hsome

theorem nextPiece_fits (c : Char) (after : List Char) :
    (nextPiece c after).1.Fits (nextPiece c after).2 := by
  unfold nextPiece
  split_ifs with hblank hquote hdigit hname
  · exact .blank hblank after
  · exact stringPiece_fits after
  · exact numberPiece_fits hdigit after
  · exact wordPiece_fits hname after
  · exact markPiece_fits (by simpa using hblank) (by simpa using hquote) (by simpa using hdigit)
      (by simpa using hname) after

theorem Divided.piece {p : Piece} {rest : List Char} (hp : p.Fits rest)
    (h : Divided (before ++ p.text) rest items) :
    Divided before (p.text ++ rest) ((p.item? (1 + newlines before)).toList ++ items) := by
  cases hp with
  | token hkind rest =>
    rw [Piece.item?, Nat.add_assoc, ← newlines_append]
    exact .token hkind h
  | blank hc rest =>
    refine .blank ?_ h
    simp only [isBlankChar, Bool.or_eq_true, beq_iff_eq] at hc
    tauto
  | comment hbody hend => exact .comment hbody hend h
  | unexpected hc rest => exact .unexpected hc h
  | unterminated hbody =>
    rw [List.append_nil]
    exact .unterminated hbody h

theorem divided_pieces (rest before : List Char) :
    Divided before rest (locate (1 + newlines before) (pieces rest)) := by
  fun_induction pieces rest generalizing before with
  | case1 => exact .eof before
  | case2 c after ih =>
    have hnext := ih (before ++ (nextPiece c after).1.text)
    rw [newlines_append, ← Nat.add_assoc] at hnext
    rw [locate, ← nextPiece_text c after]
    exact .piece (nextPiece_fits c after) hnext

/-! ### The source -/

/-- The source divides into tokens, blanks and faulty text, whose items are those that are listed;
the last of them and no other is the end of file. The scanner, byte by byte, hands out the same
items and then nothing any more, and all texts that it cuts out lie between characters. -/
theorem scanning_divides_the_source (source : String) :
    Divided [] source.toList (scan source) ∧
    (∃ items, scan source = items ++ [.token ⟨.eof, "", 1 + newlines source.toList⟩] ∧
      ∀ t, .token t ∈ items → t.kind ≠ .eof) ∧
    ∃ last, (Scanner.new source).Yields (scan source) last ∧ last.next? = some (none, last) := by
  refine ⟨divided_pieces source.toList [], ⟨scanOnly source, scan_eq source, fun t ht => ?_⟩,
    Scanner.yields_scan source⟩
  have hnot := locateOnly_notEof 1 (pieces_notEof source.toList) ht
  simpa [Token.isEof] using hnot

end Lox
