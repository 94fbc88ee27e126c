import Lox.Proofs.Token.Partition

/-!
# Scans of texts put together

There are two ways to put texts together so that each is scanned as if it stood alone.

A newline between two sources ends whatever the first one ends with, unless that is an open string;
the second one is then scanned with its lines counted on (`lines_are_scanned_apart`).

A blank between two lexemes ends the first one, whatever their kinds (`TokenKind.Spelled.pieces`).
So lexemes joined by blanks are scanned back, and the lexemes of any scan are such lexemes
(`lexemes_are_scanned_back`).
-/

namespace Lox

/-! ### Lines -/

/-- A source that ends within no string, and another one on the lines after it: the items are those
of the first one but its end of file, and those of the second one as many lines further down as the
first one has. The scanner, byte by byte, hands out the same. -/
theorem lines_are_scanned_apart (a b : String)
    (h : ∀ line, Item.error line .unterminatedString ∉ scan a) :
    scan a = (scan a).dropLast ++ [.token ⟨.eof, "", 1 + newlines a.toList⟩] ∧
      scan (a ++ "\n" ++ b) =
        (scan a).dropLast ++ (scan b).map (Item.later (1 + newlines a.toList)) ∧
      ∃ last, (Scanner.new (a ++ "\n" ++ b)).Yields
          ((scan a).dropLast ++ (scan b).map (Item.later (1 + newlines a.toList))) last ∧
        last.next? = some (none, last) := by
  have honly : (scan a).dropLast = scanOnly a := by rw [scan_eq, List.dropLast_concat]
  have hlines := scan_lines a b h
  rw [honly, ← hlines]
  exact ⟨scan_eq a, rfl, Scanner.yields_scan _⟩

/-- A point at the end of a line is not that of a fraction on the next line, and two slashes on two
lines start no comment. The second string is open, but the first one is closed on another line. -/
theorem point_and_slash_end_with_their_lines :
    (∀ line, Item.error line .unterminatedString ∉ scan "\"\n\" 1.") ∧
      scan ("\"\n\" 1." ++ "\n" ++ "5/\n/ \"") =
        [.token ⟨.string "\n", "\"\n\"", 2⟩, .token ⟨.number (Number.ofDigits ['1'] []), "1", 2⟩,
          .token ⟨.symbol .dot, ".", 2⟩, .token ⟨.number (Number.ofDigits ['5'] []), "5", 3⟩,
          .token ⟨.symbol .slash, "/", 3⟩, .token ⟨.symbol .slash, "/", 4⟩,
          .error 4 .unterminatedString, .token ⟨.eof, "", 4⟩] := by
  have hfirst : scan "\"\n\" 1." =
      [.token ⟨.string "\n", "\"\n\"", 2⟩, .token ⟨.number (Number.ofDigits ['1'] []), "1", 2⟩,
        .token ⟨.symbol .dot, ".", 2⟩, .token ⟨.eof, "", 2⟩] := by
    decide +kernel
  have hsecond : scan "5/\n/ \"" =
      [.token ⟨.number (Number.ofDigits ['5'] []), "5", 1⟩, .token ⟨.symbol .slash, "/", 1⟩,
        .token ⟨.symbol .slash, "/", 2⟩, .error 2 .unterminatedString, .token ⟨.eof, "", 2⟩] := by
    decide +kernel
  have hopen : ∀ line, Item.error line .unterminatedString ∉ scan "\"\n\" 1." := by
    simp [hfirst]
  obtain ⟨-, hlines, -⟩ := lines_are_scanned_apart _ "5/\n/ \"" hopen
  refine ⟨hopen, hlines.trans ?_⟩
  rw [hfirst, hsecond]
  rfl

/-! ### Where a lexeme ends -/

/-- A text that no token before it goes on into. -/
inductive Separated : List Char → Prop where
  | nil : Separated []
  | blank (tail : List Char) : Separated (' ' :: tail)

section Separated

variable {c : Char} {cs rest text : List Char} {p : Char → Bool} {kind : TokenKind}

theorem Separated.takeWhile_append (h : Separated rest) (hp : p ' ' = false)
    (hcs : ∀ c ∈ cs, p c = true) : (cs ++ rest).takeWhile p = cs := by
  rw [List.takeWhile_append_of_pos hcs]
  cases h <;> simp [hp]

theorem Separated.dropWhile_append (h : Separated rest) (hp : p ' ' = false)
    (hcs : ∀ c ∈ cs, p c = true) : (cs ++ rest).dropWhile p = rest := by
  rw [List.dropWhile_append_of_pos hcs]
  cases h <;> simp [hp]

theorem pieces_of_nextPiece {after : List Char} {piece : Piece}
    (h : nextPiece c after = (piece, rest)) : pieces (c :: after) = piece :: pieces rest := by
  rw [pieces, h]

theorem nextPiece_nameStart (hc : isNameStart c = true) (after : List Char) :
    nextPiece c after = wordPiece c after := by
  obtain ⟨hblank, hquote, hdigit⟩ := forall_ascii (P := fun c => isNameStart c = true →
    isBlankChar c = false ∧ (c == '"') = false ∧ c.isDigit = false) (by decide +kernel)
    (isNameStart_ascii c hc) hc
  rw [nextPiece, hblank, hquote, hdigit, hc]
  rfl

theorem nextPiece_digit (hc : c.isDigit = true) (after : List Char) :
    nextPiece c after = numberPiece c after := by
  obtain ⟨hblank, hquote⟩ := forall_ascii (P := fun c => c.isDigit = true →
    isBlankChar c = false ∧ (c == '"') = false) (by decide +kernel) (isDigit_ascii c hc) hc
  rw [nextPiece, hblank, hquote, hc]
  rfl

theorem pieces_word (hrest : Separated rest) (hc : isNameStart c = true)
    (hcs : ∀ d ∈ cs, isNameChar d = true) :
    pieces (c :: cs ++ rest) = .token (kindOfWord (c :: cs)) (c :: cs) :: pieces rest := by
  rw [List.cons_append]
  refine pieces_of_nextPiece ?_
  rw [nextPiece_nameStart hc, wordPiece, hrest.takeWhile_append (by decide) hcs,
    hrest.dropWhile_append (by decide) hcs]
  rfl

theorem kindOfWord_identifier (h : ∀ k : Keyword, k.spelling ≠ text) :
    kindOfWord text = .identifier := by
  have hnone : Keyword.ofWord? text = none := by
    refine List.find?_eq_none.mpr fun k _ => ?_
    simpa using h k
  rw [kindOfWord, hnone]

theorem kindOfWord_keyword (k : Keyword) : kindOfWord k.spelling = .keyword k := by
  rw [kindOfWord, Keyword.ofWord?_spelling]

theorem Keyword.spelling_eq_cons (k : Keyword) : ∃ c cs, k.spelling = c :: cs ∧
    isNameStart c ∧ ∀ d ∈ cs, isNameChar d := by
  -- as a boolean, so that nothing runs through all characters
  cases k <;> exact ⟨_, _, rfl, by decide, List.all_eq_true.mp (by decide)⟩

theorem pieces_string (hbody : '"' ∉ text) (rest : List Char) :
    pieces ('"' :: (text ++ ['"']) ++ rest) =
      .token (.string (String.ofList text)) ('"' :: (text ++ ['"'])) :: pieces rest := by
  have hpass : ∀ c ∈ text, (c != '"') = true := by
    intro c hc
    rw [bne_iff_ne]
    rintro rfl
    exact hbody hc
  rw [List.cons_append, List.append_assoc]
  refine pieces_of_nextPiece ?_
  show stringPiece (text ++ ('"' :: rest)) = _
  rw [stringPiece, List.takeWhile_append_of_pos hpass, List.dropWhile_append_of_pos hpass]
  simp

theorem splitFraction_separated (hrest : Separated rest) : splitFraction rest = ([], rest) := by
  cases hrest with
  | nil => rfl
  | blank tail => exact splitFraction_of_ne (by decide) tail

theorem pieces_number (hrest : Separated rest) (hc : c.isDigit = true)
    (hcs : ∀ d ∈ cs, d.isDigit = true) :
    pieces (c :: cs ++ rest) =
      .token (.number (Number.ofDigits (c :: cs) [])) (c :: cs) :: pieces rest := by
  rw [List.cons_append]
  refine pieces_of_nextPiece ?_
  rw [nextPiece_digit hc, numberPiece, hrest.takeWhile_append (by decide) hcs,
    hrest.dropWhile_append (by decide) hcs, splitFraction_separated hrest]
  rfl

theorem pieces_decimal {d : Char} {ds : List Char} (hrest : Separated rest)
    (hc : c.isDigit = true) (hcs : ∀ e ∈ cs, e.isDigit = true) (hd : d.isDigit = true)
    (hds : ∀ e ∈ ds, e.isDigit = true) :
    pieces (c :: cs ++ '.' :: d :: ds ++ rest) =
      .token (.number (Number.ofDigits (c :: cs) (d :: ds))) (c :: cs ++ '.' :: d :: ds) ::
        pieces rest := by
  rw [List.append_assoc, List.cons_append]
  refine pieces_of_nextPiece ?_
  have hfraction : splitFraction ('.' :: d :: (ds ++ rest)) = (d :: ds, rest) := by
    rw [splitFraction, if_pos hd, hrest.takeWhile_append (by decide) hds,
      hrest.dropWhile_append (by decide) hds]
  rw [nextPiece_digit hc, numberPiece, List.takeWhile_append_of_pos hcs,
    List.dropWhile_append_of_pos hcs]
  simp [hfraction]

/-- A lexeme in front of the end of the source, or of a blank, is a piece of its own. -/
theorem TokenKind.Spelled.pieces (h : kind.Spelled text) (hrest : Separated rest) :
    Lox.pieces (text ++ rest) = .token kind text :: Lox.pieces rest := by
  cases h with
  | symbol s =>
    -- A longer symbol or a comment would need an equals sign or a slash at the start of `rest`.
    cases s <;> cases hrest <;> exact pieces_of_nextPiece rfl
  | keyword k =>
    obtain ⟨c, cs, hspelling, hc, hcs⟩ := k.spelling_eq_cons
    have hword := pieces_word hrest hc hcs
    rwa [← hspelling, kindOfWord_keyword] at hword
  | identifier hc hcs hword =>
    rw [pieces_word hrest hc hcs, kindOfWord_identifier hword]
  | string hbody =>
    rw [pieces_string hbody, String.ofList_toList]
  | number hne hwhole =>
    obtain ⟨c, cs, rfl⟩ := List.exists_cons_of_ne_nil hne
    obtain ⟨hc, hcs⟩ := List.forall_mem_cons.mp hwhole
    exact pieces_number hrest hc hcs
  | decimal hne hwhole hfne hfraction =>
    obtain ⟨c, cs, rfl⟩ := List.exists_cons_of_ne_nil hne
    obtain ⟨d, ds, rfl⟩ := List.exists_cons_of_ne_nil hfne
    obtain ⟨hc, hcs⟩ := List.forall_mem_cons.mp hwhole
    obtain ⟨hd, hds⟩ := List.forall_mem_cons.mp hfraction
    exact pieces_decimal hrest hc hcs hd hds

/-- A lexeme is of one kind only, and a number in it has one value. -/
theorem TokenKind.Spelled.unique {kind' : TokenKind} (h : kind.Spelled text)
    (h' : kind'.Spelled text) : kind = kind' := by
  have hpieces := h.pieces .nil
  rw [h'.pieces .nil, List.cons.injEq, Piece.token.injEq] at hpieces
  exact hpieces.1.1.symm

end Separated

/-! ### Lexemes -/

/-- A kind of token and a text for it. -/
abbrev Lexeme := TokenKind × String

/-- The text is one that tokens of the kind have. -/
def Lexeme.Valid (w : Lexeme) : Prop := w.1.Spelled w.2.toList

/-- A token without its line. -/
def Token.toLexeme (t : Token) : Lexeme := (t.kind, t.lexeme)

/-- An item without its line; nothing for an error. -/
def Item.lexeme? : Item → Option Lexeme
  | .token t => some t.toLexeme
  | .error _ _ => none

/-- The lexemes of a piece, with nothing for an error. -/
def Piece.lexemes : Piece → List (Option Lexeme)
  | .token kind text => [some (kind, String.ofList text)]
  | .blank _ => []
  | .fault _ _ => [none]

theorem locate_lexemes (line : Nat) (ps : List Piece) :
    (locate line ps).map Item.lexeme? = ps.flatMap Piece.lexemes ++ [some (.eof, "")] := by
  induction ps generalizing line with
  | nil => rfl
  | cons p ps ih =>
    rw [locate, List.map_append, ih, List.flatMap_cons, List.append_assoc]
    cases p <;> rfl

theorem joined_lexemes {ws : List Lexeme} (h : ∀ w ∈ ws, w.Valid) :
    (pieces (" ".intercalate (ws.map Prod.snd)).toList).flatMap Piece.lexemes = ws.map some := by
  induction ws with
  | nil =>
    rw [List.map_nil, String.intercalate_nil, String.toList_empty, pieces]
    rfl
  | cons w ws ih =>
    obtain ⟨hw, hws⟩ := List.forall_mem_cons.mp h
    have hpiece : Piece.lexemes (.token w.1 w.2.toList) = [some w] := by
      rw [Piece.lexemes, String.ofList_toList]
    cases ws with
    | nil =>
      have hpieces := TokenKind.Spelled.pieces hw .nil
      rw [List.append_nil] at hpieces
      rw [List.map_singleton, String.intercalate_singleton, hpieces, List.flatMap_cons, hpiece,
        pieces]
      rfl
    | cons w' ws =>
      have htext : (" ".intercalate ((w :: w' :: ws).map Prod.snd)).toList =
          w.2.toList ++ ' ' :: (" ".intercalate ((w' :: ws).map Prod.snd)).toList := by
        rw [List.map_cons, List.map_cons, String.intercalate_cons_cons, String.toList_append,
          String.toList_append, List.append_assoc]
        rfl
      have hblank : ∀ text, pieces (' ' :: text) = .blank [' '] :: pieces text :=
        fun text => pieces_of_nextPiece rfl
      rw [htext, TokenKind.Spelled.pieces hw (.blank _), List.flatMap_cons, hpiece, hblank,
        List.flatMap_cons, ih hws]
      rfl

theorem scan_joined {ws : List Lexeme} (h : ∀ w ∈ ws, w.Valid) :
    (scan (" ".intercalate (ws.map Prod.snd))).map Item.lexeme? =
      ws.map some ++ [some (.eof, "")] := by
  rw [scan, locate_lexemes, joined_lexemes h]

theorem Divided.valid {before rest : List Char} {items : List Item}
    (h : Divided before rest items) {t : Token} (ht : .token t ∈ items) (hkind : t.kind ≠ .eof) :
    t.toLexeme.Valid := by
  induction h with
  | eof before =>
    rw [List.mem_singleton, Item.token.injEq] at ht
    exact absurd (ht ▸ rfl) hkind
  | token hspelled _ ih =>
    rcases List.mem_cons.mp ht with heq | ht
    · cases heq
      rw [Lexeme.Valid, Token.toLexeme, String.toList_ofList]
      exact hspelled
    · exact ih ht
  | blank _ _ ih => exact ih ht
  | comment _ _ _ ih => exact ih ht
  | unexpected _ _ ih => exact ih ((List.mem_cons.mp ht).resolve_left Item.noConfusion)
  | unterminated _ _ ih => exact ih ((List.mem_cons.mp ht).resolve_left Item.noConfusion)

theorem tokens_valid (source : String) {t : Token} (ht : t ∈ tokens source)
    (hkind : t.kind ≠ .eof) : t.toLexeme.Valid := by
  obtain ⟨item, hitem, htoken⟩ := List.mem_filterMap.mp ht
  cases item with
  | token u =>
    cases htoken
    exact (divided_pieces source.toList []).valid hitem hkind
  | error line cause => cases htoken

/-- Whatever lexemes are joined by single blanks, the scan of the text has no error; it has exactly
their kinds, with the values of literals, and their texts in order, and then the end of file. And
the tokens of every source, but for the end of file, have such lexemes, so that joined by blanks
they are scanned back. -/
theorem lexemes_are_scanned_back :
    (∀ ws : List Lexeme, (∀ w ∈ ws, w.Valid) →
      (scan (" ".intercalate (ws.map Prod.snd))).map Item.lexeme? =
        ws.map some ++ [some (.eof, "")]) ∧
      ∀ source : String, (∀ t ∈ tokens source, t.kind ≠ .eof → t.toLexeme.Valid) ∧
        (scan (" ".intercalate
            (((tokens source).filter fun t => t.kind ≠ .eof).map Token.lexeme))).map Item.lexeme? =
          ((tokens source).filter fun t => t.kind ≠ .eof).map (fun t => some t.toLexeme) ++
            [some (.eof, "")] := by
  refine ⟨fun ws => scan_joined, fun source => ⟨fun t => tokens_valid source, ?_⟩⟩
  have hvalid : ∀ w ∈ ((tokens source).filter fun t => t.kind ≠ .eof).map Token.toLexeme,
      w.Valid := by
    rw [List.forall_mem_map]
    intro t ht
    obtain ⟨hmem, hkind⟩ := List.mem_filter.mp ht
    exact tokens_valid source hmem (of_decide_eq_true hkind)
  have hscan := scan_joined hvalid
  rw [List.map_map, List.map_map] at hscan
  exact hscan

/-- Lexemes that without the blanks would run together, or into a comment. -/
theorem equals_signs_and_slashes_are_scanned_back :
    let ws : List Lexeme := [(.symbol .equal, "="), (.symbol .equalEqual, "=="),
      (.symbol .slash, "/"), (.symbol .slash, "/"), (.string "// \n", "\"// \n\""),
      (.keyword .or, "or"), (.identifier, "orchid"),
      (.number (Number.ofDigits ['0', '7'] []), "07"), (.symbol .dot, "."),
      (.number (Number.ofDigits ['1'] ['5', '0']), "1.50")]
    (∀ w ∈ ws, w.Valid) ∧
      (scan "= == / / \"// \n\" or orchid 07 . 1.50").map Item.lexeme? =
        ws.map some ++ [some (.eof, "")] := by
  intro ws
  have hname : TokenKind.Spelled .identifier ['o', 'r', 'c', 'h', 'i', 'd'] :=
    .identifier (by decide) (List.all_eq_true.mp (by decide)) (by intro k; cases k <;> decide)
  have hstring : TokenKind.Spelled (.string "// \n") ['"', '/', '/', ' ', '\n', '"'] :=
    .string (by decide)
  have hwhole : TokenKind.Spelled (.number (Number.ofDigits ['0', '7'] [])) ['0', '7'] :=
    .number (by decide) (List.all_eq_true.mp (by decide))
  have hdecimal : TokenKind.Spelled (.number (Number.ofDigits ['1'] ['5', '0']))
      ['1', '.', '5', '0'] :=
    .decimal (by decide) (List.all_eq_true.mp (by decide)) (by decide)
      (List.all_eq_true.mp (by decide))
  have hvalid : ∀ w ∈ ws, w.Valid := by
    simp only [ws, List.forall_mem_cons]
    exact ⟨.symbol .equal, .symbol .equalEqual, .symbol .slash, .symbol .slash, hstring,
      .keyword .or, hname, hwhole, .symbol .dot, hdecimal, List.forall_mem_nil _⟩
  exact ⟨hvalid, lexemes_are_scanned_back.1 ws hvalid⟩

end Lox
