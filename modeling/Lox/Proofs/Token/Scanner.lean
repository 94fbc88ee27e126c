import Mathlib.Data.List.TakeWhile
import Lox.Proofs.Token.Lines
import Lox.Proofs.Token.Utf8

/-!
# Scanning byte by byte

A `Scanner` walks over the bytes of a source by position, hands out one item at a time, and counts
lines as it goes. It cuts texts out of the source between two of its positions, which fails inside
of a character; its end of file is the item that it hands out at the last position, and it then
goes one position further and stays there.

A turn of its loop takes the bytes of the next piece (`Scanner.turn?_eq`). So it never fails, and it
hands out what `scan` lists and then nothing, however often it is asked (`Scanner.yields_scan`).
-/

namespace Lox

/-! ### Classes of bytes -/

def isDigitByte (b : UInt8) : Bool := '0'.toUInt8 ≤ b && b ≤ '9'.toUInt8

def isNameStartByte (b : UInt8) : Bool :=
  'a'.toUInt8 ≤ b && b ≤ 'z'.toUInt8 || 'A'.toUInt8 ≤ b && b ≤ 'Z'.toUInt8 || b == '_'.toUInt8

def isNameByte (b : UInt8) : Bool := isNameStartByte b || isDigitByte b

/-- The symbol that is spelled by some bytes. -/
def Symbol.ofBytes? (bs : List UInt8) : Option Symbol :=
  Symbol.all.find? fun s => s.spelling.map Char.toUInt8 == bs

/-- The number that a literal stands for. -/
def numberOf (literal : List Char) : Number :=
  Number.ofDigits (literal.takeWhile (· != '.')) (literal.dropWhile (· != '.')).tail

def kindOfWord (word : List Char) : TokenKind :=
  match Keyword.ofWord? word with
  | some k => .keyword k
  | none => .identifier

/-! ### The scanner -/

/-- A place in a source. -/
structure Scanner where
  source : String
  /-- The first byte of the piece that is being scanned. -/
  start : Nat
  /-- The byte to be looked at next. -/
  curr : Nat
  line : Nat

/-- What a piece turns out to be. -/
inductive Found where
  | nothing
  | token (kind : TokenKind)
  | error (line : Nat) (cause : LexError)

namespace Scanner

def new (source : String) : Scanner := ⟨source, 0, 0, 1⟩

/-- The bytes still to be looked at. -/
def ahead (s : Scanner) : List UInt8 := (bytesOf s.source).drop s.curr

/-- The byte to be looked at next, or zero at the end. -/
def peek (s : Scanner) : UInt8 := s.ahead.headD 0

def advance (s : Scanner) : Scanner := { s with curr := s.curr + 1 }

/-- Go on to the first byte that fails a test. -/
def skipWhile (p : UInt8 → Bool) (s : Scanner) : Scanner :=
  { s with curr := s.curr + (s.ahead.takeWhile p).length }

/-- The text of the piece so far. -/
def lexeme? (s : Scanner) : Option String := slice? s.source s.start s.curr

/-- A string after its opening quote. -/
def string? (s : Scanner) : Option (Found × Scanner) :=
  let inside := s.ahead.takeWhile (· != '"'.toUInt8)
  let closing : Scanner :=
    { s with curr := s.curr + inside.length, line := s.line + inside.count '\n'.toUInt8 }
  if closing.ahead.isEmpty then some (.error s.line .unterminatedString, closing)
  else do
    let contents ← slice? s.source (s.start + 1) (closing.advance.curr - 1)
    return (.token (.string contents), closing.advance)

/-- The digits after a decimal point, if there are any. -/
def skipFraction (s : Scanner) : Scanner :=
  match s.ahead with
  | point :: d :: _ =>
    if point == '.'.toUInt8 && isDigitByte d then s.advance.skipWhile isDigitByte else s
  | _ => s

/-- A number after its first digit. -/
def number? (s : Scanner) : Option (Found × Scanner) := do
  let next := (s.skipWhile isDigitByte).skipFraction
  let literal ← next.lexeme?
  return (.token (.number (numberOf literal.toList)), next)

/-- A name or keyword after its first character. -/
def word? (s : Scanner) : Option (Found × Scanner) := do
  let next := s.skipWhile isNameByte
  let word ← next.lexeme?
  return (.token (kindOfWord word.toList), next)

/-- The rest of a character that starts nothing. -/
def unexpected? (s : Scanner) : Option (Found × Scanner) := do
  let next := s.skipWhile isContinuation
  let _ ← next.lexeme?
  return (.error next.line .unexpectedCharacter, next)

/-- A comment after its first slash, a symbol after its first byte `b`, or the rest of a character
that starts nothing. -/
def mark? (b : UInt8) (s : Scanner) : Option (Found × Scanner) :=
  if b == '/'.toUInt8 && s.peek == '/'.toUInt8 then
    some (.nothing, s.advance.skipWhile (· != '\n'.toUInt8))
  else
    match Symbol.ofBytes? [b, s.peek], Symbol.ofBytes? [b] with
    | some long, _ => some (.token (.symbol long), s.advance)
    | none, some short => some (.token (.symbol short), s)
    | none, none => s.unexpected?

/-- Scan one piece. There is none at the end of the source. -/
def scanPiece? (s : Scanner) : Option (Found × Scanner) :=
  match s.ahead with
  | [] => none
  | b :: _ =>
    if b == '\n'.toUInt8 then some (.nothing, { s.advance with line := s.line + 1 })
    else if b == ' '.toUInt8 || b == '\r'.toUInt8 || b == '\t'.toUInt8 then
      some (.nothing, s.advance)
    else if b == '"'.toUInt8 then s.advance.string?
    else if isDigitByte b then s.advance.number?
    else if isNameStartByte b then s.advance.word?
    else s.advance.mark? b

/-- What one turn of the main loop comes to. -/
inductive Turn where
  | exhausted
  | skipped (next : Scanner)
  | yielded (item : Item) (next : Scanner)

/-- A new piece starts here. -/
def begin (s : Scanner) : Scanner := { s with start := s.curr }

/-- One turn of the main loop. It fails if a text is cut inside of a character. -/
def turn? (s : Scanner) : Option Turn :=
  if (bytesOf s.source).length < s.curr then some .exhausted
  else if s.curr = (bytesOf s.source).length then
    some (.yielded (.token ⟨.eof, "", s.line⟩) s.advance)
  else do
    match ← s.begin.scanPiece? with
    | (.nothing, next) => return .skipped next
    | (.token kind, next) => return .yielded (.token ⟨kind, ← next.lexeme?, next.line⟩) next
    | (.error line cause, next) => return .yielded (.error line cause) next

theorem scanPiece?_nothing {s next : Scanner} (h : s.scanPiece? = some (.nothing, next)) :
    next.source = s.source ∧ s.curr < next.curr := by
  unfold scanPiece? at h
  cases hahead : s.ahead with
  | nil => simp [hahead] at h
  | cons b bs =>
    simp only [hahead] at h
    split_ifs at h with hnewline hblank hquote hdigit hname
    · cases h
      exact ⟨rfl, Nat.lt_succ_self _⟩
    · cases h
      exact ⟨rfl, Nat.lt_succ_self _⟩
    · simp only [string?] at h
      split_ifs at h
      · cases h
      · simp [Option.bind_eq_some_iff] at h
    · simp [number?, Option.bind_eq_some_iff] at h
    · simp [word?, Option.bind_eq_some_iff] at h
    · simp only [mark?] at h
      split_ifs at h
      · cases h
        refine ⟨rfl, ?_⟩
        simp only [skipWhile, advance]
        omega
      · split at h
        · cases h
        · cases h
        · simp [unexpected?, Option.bind_eq_some_iff] at h

theorem turn?_skipped {s next : Scanner} (h : s.turn? = some (.skipped next)) :
    next.source = s.source ∧ s.curr < next.curr ∧ s.curr < (bytesOf s.source).length := by
  unfold turn? at h
  split_ifs at h with hpast hend
  · cases h
  · cases h
  · obtain ⟨⟨found, next'⟩, hscan, h⟩ := Option.bind_eq_some_iff.mp h
    cases found with
    | nothing =>
      cases h
      obtain ⟨hsource, hcurr⟩ := scanPiece?_nothing hscan
      exact ⟨hsource, hcurr, by omega⟩
    | token kind => simp [Option.bind_eq_some_iff] at h
    | error line cause => cases h

/-- The next item, or nothing once the end of file has been handed out. It fails if a text is cut
inside of a character. -/
def next? (s : Scanner) : Option (Option Item × Scanner) :=
  match _h : s.turn? with
  | none => none
  | some .exhausted => some (none, s)
  | some (.yielded item next) => some (some item, next)
  | some (.skipped next) => next.next?
termination_by (bytesOf s.source).length - s.curr
decreasing_by
  obtain ⟨hsource, hcurr, hlength⟩ := turn?_skipped ‹_›
  rw [hsource]
  omega

theorem next?_of_yielded {s next : Scanner} {item : Item}
    (h : s.turn? = some (.yielded item next)) : s.next? = some (some item, next) := by
  rw [next?]
  split <;> simp_all

theorem next?_of_skipped {s next : Scanner} (h : s.turn? = some (.skipped next)) :
    s.next? = next.next? := by
  rw [next?]
  split <;> simp_all

theorem next?_of_exhausted {s : Scanner} (h : s.turn? = some .exhausted) :
    s.next? = some (none, s) := by
  rw [next?]
  split <;> simp_all

/-! ### Places between characters -/

/-- The scanner is between the characters `before` and `rest` of its source. -/
structure At (s : Scanner) (before rest : List Char) : Prop where
  source : s.source.toList = before ++ rest
  curr : s.curr = (encoded before).length

/-- The same scanner behind some text. -/
def past (s : Scanner) (text : List Char) : Scanner :=
  { s with curr := s.curr + (encoded text).length, line := s.line + newlines text }

variable {s : Scanner} {before rest text : List Char}

theorem At.ahead (h : s.At before rest) : s.ahead = encoded rest := by
  rw [Scanner.ahead, bytesOf_eq, h.source, encoded_append, h.curr, List.drop_left]

theorem At.past (h : s.At before (text ++ rest)) : (s.past text).At (before ++ text) rest where
  source := by
    show s.source.toList = _
    rw [h.source, List.append_assoc]
  curr := by
    show s.curr + _ = _
    rw [h.curr, encoded_append, List.length_append]

theorem At.length (h : s.At before rest) :
    (bytesOf s.source).length = s.curr + (encoded rest).length := by
  rw [bytesOf_eq, h.source, encoded_append, List.length_append, h.curr]

theorem At.slice? (h : s.At before (text ++ rest)) :
    slice? s.source s.curr (s.curr + (encoded text).length) = some (String.ofList text) := by
  rw [h.curr]
  exact slice?_append h.source

theorem At.skipWhile {p : UInt8 → Bool} {q : Char → Bool} (hp : Tells p q)
    (h : s.At before rest) :
    s.skipWhile p = { s with curr := s.curr + (encoded (rest.takeWhile q)).length } := by
  rw [Scanner.skipWhile, h.ahead, hp.takeWhile_encoded]

end Scanner

/-! ### Classes of bytes and of characters -/

theorem not_ascii {p : Char → Bool} (h : ∀ c, p c = true → c.toNat < 128) (c : Char)
    (hc : 128 ≤ c.toNat) : p c = false := by
  cases hp : p c with
  | false => rfl
  | true => exact absurd (h c hp) (Nat.not_lt.mpr hc)

theorem ascii_of_le {c d : Char} (h : c.val ≤ d.val) (hd : d.toNat < 128) : c.toNat < 128 :=
  Nat.lt_of_le_of_lt (UInt32.le_iff_toNat_le.mp h) hd

theorem isDigit_ascii (c : Char) (h : c.isDigit = true) : c.toNat < 128 := by
  simp only [Char.isDigit, Bool.and_eq_true, decide_eq_true_eq] at h
  exact ascii_of_le h.2 (by decide)

theorem isNameChar_ascii (c : Char) (h : isNameChar c = true) : c.toNat < 128 := by
  have hclass : (((c.isUpper || c.isLower) || c.isDigit) || c == '_') = true := h
  simp only [Bool.or_eq_true, beq_iff_eq] at hclass
  rcases hclass with ((hupper | hlower) | hdigit) | hunderscore
  · have hrange : c.val ≥ 'A'.val ∧ c.val ≤ 'Z'.val := of_decide_eq_true hupper
    exact ascii_of_le hrange.2 (by decide)
  · have hrange := of_decide_eq_true (Bool.and_eq_true_iff.mp hlower).2
    exact ascii_of_le hrange (by decide)
  · exact isDigit_ascii c hdigit
  · rw [hunderscore]
    decide

theorem isNameChar_of_isNameStart {c : Char} (h : isNameStart c = true) : isNameChar c = true := by
  simp only [isNameStart, isNameChar, Char.isAlphanum, Bool.or_eq_true] at h ⊢
  tauto

theorem isNameStart_ascii (c : Char) (h : isNameStart c = true) : c.toNat < 128 :=
  isNameChar_ascii c (isNameChar_of_isNameStart h)

theorem tells_digit : Tells isDigitByte Char.isDigit := by
  refine tells false (by decide +kernel) ?_ (not_ascii isDigit_ascii)
  exact forall_byte (P := fun b => 128 ≤ b.toNat → isDigitByte b = false) (by decide +kernel)

theorem tells_name : Tells isNameByte isNameChar := by
  refine tells false (by decide +kernel) ?_ (not_ascii isNameChar_ascii)
  exact forall_byte (P := fun b => 128 ≤ b.toNat → isNameByte b = false) (by decide +kernel)

/-! ### One piece -/

/-- What a piece that starts on `line` turns out to be. -/
def Piece.found (line : Nat) : Piece → Found
  | token kind _ => .token kind
  | blank _ => .nothing
  | fault cause _ => .error line cause

theorem newlines_eq_zero {text : List Char} (h : '\n' ∉ text) : newlines text = 0 :=
  List.count_eq_zero.mpr h

theorem newlines_of_class {q : Char → Bool} (hq : q '\n' = false) {text : List Char}
    (h : ∀ c ∈ text, q c = true) : newlines text = 0 := by
  refine newlines_eq_zero fun hmem => ?_
  rw [h _ hmem] at hq
  cases hq

theorem numberOf_text {whole fraction : List Char} (h : ∀ c ∈ whole, c.isDigit = true) :
    numberOf (whole ++ if fraction.isEmpty then [] else '.' :: fraction) =
      Number.ofDigits whole fraction := by
  have hpass : ∀ c ∈ whole, (c != '.') = true := by
    intro c hc
    rw [bne_iff_ne]
    rintro rfl
    cases h _ hc
  unfold numberOf
  rw [List.takeWhile_append_of_pos hpass, List.dropWhile_append_of_pos hpass]
  cases fraction with
  | nil => simp
  | cons d fraction => simp

theorem numberPiece_fst (c : Char) (after : List Char) :
    (numberPiece c after).1 =
      .token (.number (Number.ofDigits (c :: after.takeWhile Char.isDigit)
          (splitFraction (after.dropWhile Char.isDigit)).1))
        ((c :: after.takeWhile Char.isDigit) ++
          if (splitFraction (after.dropWhile Char.isDigit)).1.isEmpty then []
          else '.' :: (splitFraction (after.dropWhile Char.isDigit)).1) := by
  unfold numberPiece
  dsimp only
  split_ifs <;> simp

theorem nextPiece_wide {c : Char} (hc : 128 ≤ c.toNat) (after : List Char) :
    nextPiece c after = (.fault .unexpectedCharacter [c], after) := by
  have hne : ∀ d : Char, d.toNat < 128 → c ≠ d := by
    rintro d hd rfl
    omega
  have hblank : isBlankChar c = false := by simp [isBlankChar, hne]
  have hdigit : c.isDigit = false := not_ascii isDigit_ascii c hc
  have hname : isNameStart c = false := not_ascii isNameStart_ascii c hc
  have hslash : ∀ tail, ¬(c = '/' ∧ after = '/' :: tail) := fun _ h => hne '/' (by decide) h.1
  have hread : Symbol.read? c after = none := by
    unfold Symbol.read?
    split <;> first | rfl | exact absurd rfl (hne _ (by decide))
  rw [nextPiece, hblank, hdigit, hname, beq_false_of_ne (hne '"' (by decide)),
    markPiece_of_ne hslash, hread]
  rfl

namespace Scanner

variable {s : Scanner} {c : Char} {before after : List Char}

/-- `s` is about to scan what is left of its source. -/
structure Begins (s : Scanner) (before rest : List Char) : Prop extends s.At before rest where
  start : s.start = s.curr

theorem At.advance (h : s.At before (c :: after)) (hc : c.toNat < 128) :
    s.advance.At (before ++ [c]) after where
  source := by
    show s.source.toList = _
    rw [h.source, List.append_assoc, List.singleton_append]
  curr := by
    show s.curr + 1 = _
    rw [h.curr, encoded_append, encoded_cons, encoded_ascii hc]
    simp

theorem Begins.lexeme? {text rest : List Char} (h : s.Begins before (text ++ rest)) :
    (s.past text).lexeme? = some (String.ofList text) := by
  show Lox.slice? s.source s.start _ = _
  rw [h.start]
  exact h.toAt.slice?

theorem advance_past {text : List Char} (hc : c.toNat < 128) (hline : c ≠ '\n') :
    s.advance.past text = s.past (c :: text) := by
  have hcount : newlines (c :: text) = newlines text := List.count_cons_of_ne hline
  simp only [past, advance, encoded_cons, encoded_ascii hc, hcount, List.length_append,
    List.length_singleton, Nat.add_assoc]

theorem past_advance {text : List Char} (hc : c.toNat < 128) (hline : c ≠ '\n') :
    (s.past text).advance = s.past (text ++ [c]) := by
  have hcount : newlines (text ++ [c]) = newlines text := by
    rw [newlines_append, newlines, newlines, List.count_cons_of_ne hline]
    rfl
  simp only [past, advance, encoded_append, encoded_cons, encoded_ascii hc, encoded_nil, hcount,
    List.length_append, List.length_singleton, List.append_nil, Nat.add_assoc]

theorem string?_eq (h : s.Begins before ('"' :: after)) :
    s.advance.string? =
      some ((stringPiece after).1.found s.line, s.past (stringPiece after).1.text) := by
  have hnext := h.toAt.advance (by decide)
  have hsplit := List.takeWhile_append_dropWhile (p := (· != '"')) (l := after)
  have hinside : s.advance.ahead.takeWhile (· != '"'.toUInt8) =
      encoded (after.takeWhile (· != '"')) := by
    rw [hnext.ahead, (tells_until (by decide)).takeWhile_encoded]
  have hclosing : (s.advance.past (after.takeWhile (· != '"'))).ahead =
      encoded (after.dropWhile (· != '"')) := by
    rw [← hsplit] at hnext
    exact hnext.past.ahead
  have hscan : s.advance.string? =
      if (s.advance.past (after.takeWhile (· != '"'))).ahead.isEmpty then
        some (.error s.line .unterminatedString, s.advance.past (after.takeWhile (· != '"')))
      else do
        let contents ← slice? s.source (s.start + 1)
          ((s.advance.past (after.takeWhile (· != '"'))).advance.curr - 1)
        return (.token (.string contents), (s.advance.past (after.takeWhile (· != '"'))).advance)
      := by
    rw [string?, hinside, count_encoded (by decide)]
    rfl
  rw [hscan, hclosing, advance_past (c := '"') (by decide) (by decide), stringPiece]
  cases hrest : after.dropWhile (· != '"') with
  | nil => rfl
  | cons quote rest =>
    obtain rfl : quote = '"' := by
      have hquote := List.head_dropWhile_not (· != '"') (l := after) (by simp [hrest])
      simpa [hrest] using hquote
    have hslice : slice? s.source (s.start + 1)
        ((s.past ('"' :: after.takeWhile (· != '"'))).advance.curr - 1) =
          some (String.ofList (after.takeWhile (· != '"'))) := by
      rw [← hsplit] at hnext
      have hslice := hnext.slice?
      rw [← advance_past (by decide) (by decide), h.start]
      exact hslice
    rw [encoded_cons, hslice, past_advance (c := '"') (by decide) (by decide)]
    rfl

theorem past_nil (s : Scanner) : s.past [] = s := rfl

theorem past_past (s : Scanner) (text more : List Char) :
    (s.past text).past more = s.past (text ++ more) := by
  simp only [past, encoded_append, newlines_append, List.length_append, Nat.add_assoc]

theorem At.skipWhile_past {p : UInt8 → Bool} {q : Char → Bool} {rest : List Char} (hp : Tells p q)
    (hq : q '\n' = false) (h : s.At before rest) : s.skipWhile p = s.past (rest.takeWhile q) := by
  rw [h.skipWhile hp, Scanner.past, newlines_of_class hq fun _ => List.mem_takeWhile_imp]
  rfl

theorem skipFraction_eq {rest : List Char} (h : s.At before rest) :
    s.skipFraction = s.past
      (if (splitFraction rest).1.isEmpty then [] else '.' :: (splitFraction rest).1) := by
  have hskip : s.skipFraction =
      match encoded rest with
      | point :: d :: _ =>
        if point == '.'.toUInt8 && isDigitByte d then s.advance.skipWhile isDigitByte else s
      | _ => s := by
    rw [skipFraction, h.ahead]
  rw [hskip]
  cases rest with
  | nil => rfl
  | cons c rest =>
    by_cases hc : c = '.'
    · subst hc
      cases rest with
      | nil => rfl
      | cons d rest =>
        cases hd : d.isDigit with
        | false =>
          obtain ⟨b, bs, heq, hb⟩ := tells_digit.stops d hd
          simp [encoded_ascii (c := '.') (by decide), heq, hb, splitFraction, hd, past_nil]
        | true =>
          have hnext : s.advance.At (before ++ ['.']) (d :: rest) :=
            h.advance (by decide)
          have hdigit : isDigitByte d.toUInt8 = true :=
            tells_digit.passes d hd _ (by simp [encoded_ascii (isDigit_ascii d hd)])
          have hfraction : (splitFraction ('.' :: d :: rest)).1 =
              (d :: rest).takeWhile Char.isDigit := by
            simp [splitFraction, hd]
          rw [hfraction, if_neg (by simp [hd]), ← advance_past (c := '.') (by decide) (by decide),
            ← hnext.skipWhile_past tells_digit rfl]
          simp [encoded_ascii (c := '.') (by decide), encoded_ascii (isDigit_ascii d hd), hdigit]
    · obtain ⟨b, bs, heq⟩ : ∃ b bs, String.utf8EncodeChar c = b :: bs :=
        List.exists_cons_of_ne_nil String.utf8EncodeChar_ne_nil
      have hb : b ≠ '.'.toUInt8 := by
        have hpass := (tells_until (d := '.') (by decide)).passes c (by simpa using hc) b
          (by simp [heq])
        simpa using hpass
      rw [splitFraction_of_ne hc]
      simp only [encoded_cons, heq, List.cons_append, List.isEmpty_nil, if_true, past_nil]
      split
      · simp_all
      · rfl

theorem number?_eq (h : s.Begins before (c :: after)) (hc : c.isDigit = true)
    (htext : (numberPiece c after).1.text ++ (numberPiece c after).2 = c :: after) :
    s.advance.number? =
      some ((numberPiece c after).1.found s.line, s.past (numberPiece c after).1.text) := by
  have hascii := isDigit_ascii c hc
  have hline : c ≠ '\n' := by
    rintro rfl
    cases hc
  have hdigits : ∀ d ∈ c :: after.takeWhile Char.isDigit, d.isDigit = true := by
    rintro d (_ | ⟨_, hd⟩)
    · exact hc
    · exact List.mem_takeWhile_imp hd
  have hnext := h.toAt.advance hascii
  have hend : (s.advance.skipWhile isDigitByte).skipFraction =
      s.past (numberPiece c after).1.text := by
    have hrest := hnext
    rw [← List.takeWhile_append_dropWhile (p := Char.isDigit) (l := after)] at hrest
    rw [hnext.skipWhile_past tells_digit rfl, skipFraction_eq hrest.past, past_past,
      advance_past hascii hline, numberPiece_fst]
    rfl
  rw [← htext] at h
  rw [number?, hend, h.lexeme?, numberPiece_fst, Option.bind_eq_bind, Option.bind_some,
    String.toList_ofList, Piece.text, numberOf_text hdigits]
  rfl

theorem word?_eq (h : s.Begins before (c :: after)) (hc : isNameStart c = true) :
    s.advance.word? =
      some ((wordPiece c after).1.found s.line, s.past (wordPiece c after).1.text) := by
  have hline : c ≠ '\n' := by
    rintro rfl
    cases hc
  have hascii := isNameStart_ascii c hc
  have hend : s.advance.skipWhile isNameByte = s.past (wordPiece c after).1.text := by
    rw [(h.toAt.advance hascii).skipWhile_past tells_name rfl, advance_past hascii hline]
    rfl
  have hsplit : (wordPiece c after).1.text ++ (wordPiece c after).2 = c :: after := by
    show (c :: after.takeWhile isNameChar) ++ after.dropWhile isNameChar = c :: after
    rw [List.cons_append, List.takeWhile_append_dropWhile]
  rw [← hsplit] at h
  rw [word?, hend, h.lexeme?, Option.bind_eq_bind, Option.bind_some, String.toList_ofList]
  rfl

end Scanner

/-! ### Symbols -/

theorem Symbol.ofBytes?_eq_some {bs : List UInt8} {k : Symbol} (h : Symbol.ofBytes? bs = some k) :
    k.spelling.map Char.toUInt8 = bs := by
  have hfound := List.find?_some h
  exact eq_of_beq hfound

theorem Symbol.ofBytes?_pair {a b : UInt8} (h : b ≠ '='.toUInt8) :
    Symbol.ofBytes? [a, b] = none := by
  rw [Option.eq_none_iff_forall_ne_some]
  intro k hk
  have hpair : ∀ k : Symbol,
      (k.spelling.map Char.toUInt8)[1]?.all (· == '='.toUInt8) = true := by
    intro k
    cases k <;> decide
  have hb := hpair k
  rw [Symbol.ofBytes?_eq_some hk] at hb
  exact h (eq_of_beq hb)

theorem Symbol.ofBytes?_wide {b : UInt8} (hb : 128 ≤ b.toNat) (bs : List UInt8) :
    Symbol.ofBytes? (b :: bs) = none := by
  rw [Option.eq_none_iff_forall_ne_some]
  intro k hk
  have hfirst : ∀ k : Symbol,
      (k.spelling.map Char.toUInt8).head?.all (fun x => decide (x.toNat < 128)) = true := by
    intro k
    cases k <;> decide
  have hlt := hfirst k
  rw [Symbol.ofBytes?_eq_some hk] at hlt
  exact Nat.not_lt.mpr hb (of_decide_eq_true hlt)

theorem read?_of_head?_ne {c : Char} {after : List Char} (h : after.head? ≠ some '=') :
    Symbol.read? c after = (Symbol.read? c []).map fun r => (r.1, after) := by
  cases after with
  | nil => unfold Symbol.read?; split <;> simp_all
  | cons d after => unfold Symbol.read?; split <;> simp_all

theorem read?_equal (c : Char) (rest : List Char) :
    Symbol.read? c ('=' :: rest) = (Symbol.read? c ['=']).map fun r => (r.1, r.2 ++ rest) := by
  unfold Symbol.read?
  split <;> simp_all

theorem headD_encoded {d : Char} (hd : d.toNat < 128) (hzero : d.toUInt8 ≠ 0) (cs : List Char) :
    (encoded cs).headD 0 = d.toUInt8 ↔ cs.head? = some d := by
  cases cs with
  | nil => simpa using hzero.symm
  | cons e cs =>
    by_cases he : e = d
    · simp [he, encoded_ascii hd]
    · obtain ⟨b, bs, heq⟩ : ∃ b bs, String.utf8EncodeChar e = b :: bs :=
        List.exists_cons_of_ne_nil String.utf8EncodeChar_ne_nil
      have hb := (tells_until hd).passes e (by simpa using he) b (by simp [heq])
      simp only [bne_iff_ne] at hb
      simp [heq, hb, he]

theorem read?_bytes {c : Char} (hc : c.toNat < 128) (after : List Char) :
    Symbol.read? c after =
      match Symbol.ofBytes? [c.toUInt8, (encoded after).headD 0],
        Symbol.ofBytes? [c.toUInt8] with
      | some long, _ => some (long, after.tail)
      | none, some short => some (short, after)
      | none, none => none := by
  by_cases hequal : after.head? = some '='
  · have hhead := (headD_encoded (d := '=') (by decide) (by decide) after).mpr hequal
    obtain ⟨rest, rfl⟩ := List.head?_eq_some_iff.mp hequal
    rw [hhead, read?_equal, forall_ascii (P := fun c => Symbol.read? c ['='] =
      match Symbol.ofBytes? [c.toUInt8, '='.toUInt8], Symbol.ofBytes? [c.toUInt8] with
      | some long, _ => some (long, [])
      | none, some short => some (short, ['='])
      | none, none => none) (by decide +kernel) hc]
    split <;> rfl
  · have hhead := mt (headD_encoded (d := '=') (by decide) (by decide) after).mp hequal
    rw [read?_of_head?_ne hequal, Symbol.ofBytes?_pair hhead, forall_ascii (P := fun c =>
      Symbol.read? c [] = (Symbol.ofBytes? [c.toUInt8]).map (·, [])) (by decide +kernel) hc]
    cases Symbol.ofBytes? [c.toUInt8] <;> rfl

namespace Scanner

variable {s : Scanner} {c : Char} {before after : List Char}

/-- A character is its first byte and the continuation bytes after it. -/
theorem skip_character (h : s.At before (c :: after)) (hline : c ≠ '\n') :
    s.advance.skipWhile isContinuation = s.past [c] := by
  obtain ⟨b, bs, heq, hmore⟩ : ∃ b bs, String.utf8EncodeChar c = b :: bs ∧
      ∀ d ∈ bs, isContinuation d = true := by
    by_cases hc : c.toNat < 128
    · exact ⟨_, [], encoded_ascii hc, by simp⟩
    · obtain ⟨b, bs, heq, -, hmore⟩ := encoded_wide (Nat.le_of_not_lt hc)
      exact ⟨b, bs, heq, hmore⟩
  have hahead : s.advance.ahead = bs ++ encoded after := by
    have hall := h.ahead
    rw [encoded_cons, heq, List.cons_append] at hall
    rw [Scanner.ahead] at hall ⊢
    show List.drop (s.curr + 1) (bytesOf s.source) = _
    rw [← List.drop_drop, hall]
    rfl
  have hstop : (encoded after).takeWhile isContinuation = [] := by
    rw [List.takeWhile_eq_nil_iff]
    intro hlength
    have hhead := isContinuation_head after ((encoded after)[0]) (by simp [List.head?_eq_getElem?])
    simp [hhead]
  have hcount : newlines [c] = 0 := newlines_eq_zero (by simpa using hline.symm)
  rw [skipWhile, hahead, List.takeWhile_append_of_pos hmore, hstop, List.append_nil, past, hcount]
  simp only [advance, encoded_cons, heq, encoded_nil, List.append_nil, List.length_cons]
  congr 1
  omega

theorem unexpected?_eq (h : s.Begins before (c :: after)) (hline : c ≠ '\n') :
    s.advance.unexpected? = some (.error s.line .unexpectedCharacter, s.past [c]) := by
  have htext : (s.past [c]).lexeme? = some (String.ofList [c]) := Begins.lexeme? h
  have hsame : (s.past [c]).line = s.line := by
    show s.line + newlines [c] = s.line
    rw [newlines_eq_zero (by simpa using hline.symm), Nat.add_zero]
  rw [unexpected?, skip_character h.toAt hline, htext, hsame]
  rfl

theorem mark?_wide {b : UInt8} (hb : 128 ≤ b.toNat) (s : Scanner) : s.mark? b = s.unexpected? := by
  have hslash : b ≠ '/'.toUInt8 := by
    rintro rfl
    exact absurd hb (by decide)
  rw [mark?, Symbol.ofBytes?_wide hb, Symbol.ofBytes?_wide hb, beq_false_of_ne hslash]
  rfl

theorem past_spelling {k : Symbol} {bs : List UInt8} (h : Symbol.ofBytes? bs = some k) :
    s.past k.spelling = { s with curr := s.curr + bs.length } := by
  have hsize : (encoded k.spelling).length = k.spelling.length ∧ newlines k.spelling = 0 := by
    cases k <;> decide
  rw [past, hsize.1, hsize.2, ← Symbol.ofBytes?_eq_some h, List.length_map]
  rfl

theorem mark?_eq (h : s.Begins before (c :: after)) (hc : c.toNat < 128) (hline : c ≠ '\n') :
    s.advance.mark? c.toUInt8 =
      some ((markPiece c after).1.found s.line, s.past (markPiece c after).1.text) := by
  have hnext := h.toAt.advance hc
  have hpeek : s.advance.peek = (encoded after).headD 0 := by rw [peek, hnext.ahead]
  have hslash : (c.toUInt8 == '/'.toUInt8 && s.advance.peek == '/'.toUInt8) = true ↔
      c = '/' ∧ after.head? = some '/' := by
    rw [Bool.and_eq_true, beq_iff_eq, beq_iff_eq, toUInt8_inj hc (by decide), hpeek,
      headD_encoded (by decide) (by decide)]
  by_cases hcomment : c = '/' ∧ after.head? = some '/'
  · obtain ⟨rfl, hhead⟩ := hcomment
    obtain ⟨rest, rfl⟩ := List.head?_eq_some_iff.mp hhead
    have hbody := (hnext.advance (by decide)).skipWhile_past
      (tells_until (d := '\n') (by decide)) rfl
    rw [mark?, if_pos (hslash.mpr ⟨rfl, hhead⟩), hbody,
      advance_past (c := '/') (by decide) (by decide),
      advance_past (c := '/') (by decide) (by decide)]
    rfl
  · have hnone : ∀ tail, ¬(c = '/' ∧ after = '/' :: tail) := by
      rintro tail ⟨hc, rfl⟩
      exact hcomment ⟨hc, rfl⟩
    rw [mark?, if_neg (mt hslash.mp hcomment), hpeek, markPiece_of_ne hnone, read?_bytes hc]
    cases hlong : Symbol.ofBytes? [c.toUInt8, (encoded after).headD 0] with
    | some long =>
      show some (Found.token (.symbol long), s.advance.advance) = some (_, s.past long.spelling)
      rw [past_spelling hlong]
      rfl
    | none =>
      cases hshort : Symbol.ofBytes? [c.toUInt8] with
      | some short =>
        show some (Found.token (.symbol short), s.advance) = some (_, s.past short.spelling)
        rw [past_spelling hshort]
        rfl
      | none => exact unexpected?_eq h hline

/-! ### One turn of the loop -/

theorem scanPiece?_eq (h : s.Begins before (c :: after)) :
    s.scanPiece? =
      some ((nextPiece c after).1.found s.line, s.past (nextPiece c after).1.text) := by
  by_cases hc : c.toNat < 128
  · have hahead : s.ahead = c.toUInt8 :: encoded after := by
      rw [h.toAt.ahead, encoded_cons, encoded_ascii hc]
      rfl
    have hbyte : ∀ {d : Char}, d.toNat < 128 → (c.toUInt8 == d.toUInt8) = (c == d) := by
      intro d hd
      rw [Bool.eq_iff_iff, beq_iff_eq, beq_iff_eq, toUInt8_inj hc hd]
    have hdigit : isDigitByte c.toUInt8 = c.isDigit :=
      forall_ascii (P := fun c => isDigitByte c.toUInt8 = c.isDigit) (by decide +kernel) hc
    have hname : isNameStartByte c.toUInt8 = isNameStart c :=
      forall_ascii (P := fun c => isNameStartByte c.toUInt8 = isNameStart c) (by decide +kernel) hc
    have htext := nextPiece_text c after
    rw [scanPiece?, hahead]
    dsimp only
    rw [hbyte (by decide), hbyte (by decide), hbyte (by decide), hbyte (by decide),
      hbyte (by decide), hdigit, hname]
    by_cases hline : c = '\n'
    · subst hline
      rfl
    · have hblank : isBlankChar c = (c == ' ' || c == '\r' || c == '\t') := by
        rw [isBlankChar, beq_false_of_ne hline, Bool.or_false]
      rw [beq_false_of_ne hline, ← hblank, if_neg Bool.false_ne_true]
      unfold nextPiece at htext ⊢
      split_ifs at htext ⊢ with hblank hquote hdigit hname
      · show some (Found.nothing, s.advance.past []) = some (_, s.past [c])
        rw [advance_past hc hline]
        rfl
      · obtain rfl : c = '"' := eq_of_beq hquote
        exact string?_eq h
      · exact number?_eq h hdigit htext
      · exact word?_eq h hname
      · exact mark?_eq h hc hline
  · obtain ⟨b, bs, heq, hb, -⟩ := encoded_wide (Nat.le_of_not_lt hc)
    have hahead : s.ahead = b :: (bs ++ encoded after) := by
      rw [h.toAt.ahead, encoded_cons, heq]
      rfl
    have hbyte : ∀ {d : Char}, d.toNat < 128 → (b == d.toUInt8) = false := by
      intro d hd
      rw [beq_eq_false_iff_ne, Ne, ← UInt8.toNat_inj, toNat_toUInt8 hd]
      omega
    have hdigit : isDigitByte b = false :=
      forall_byte (P := fun b => 192 ≤ b.toNat → isDigitByte b = false) (by decide +kernel) b hb
    have hname : isNameStartByte b = false :=
      forall_byte (P := fun b => 192 ≤ b.toNat → isNameStartByte b = false) (by decide +kernel) b hb
    have hline : c ≠ '\n' := by
      rintro rfl
      exact hc (by decide)
    rw [nextPiece_wide (Nat.le_of_not_lt hc), scanPiece?, hahead]
    dsimp only
    rw [hbyte (by decide), hbyte (by decide), hbyte (by decide), hbyte (by decide),
      hbyte (by decide), hdigit, hname, mark?_wide (by omega)]
    exact unexpected?_eq h hline

/-- A turn of the loop takes the next piece and hands out its item, if it has one. -/
theorem turn?_eq (h : s.At before (c :: after)) :
    ∃ next : Scanner, next.At (before ++ (nextPiece c after).1.text) (nextPiece c after).2 ∧
      next.line = s.line + newlines (nextPiece c after).1.text ∧
      s.turn? = some (match (nextPiece c after).1.item? s.line with
        | some item => .yielded item next
        | none => .skipped next) := by
  have hbegin : s.begin.Begins before (c :: after) := ⟨⟨h.source, h.curr⟩, rfl⟩
  have hscan := scanPiece?_eq hbegin
  have hlength := h.length
  have hpos : 0 < (encoded (c :: after)).length := by
    rw [List.length_pos_iff, Ne, encoded_eq_nil]
    simp
  rw [← nextPiece_text c after] at hbegin
  refine ⟨_, hbegin.toAt.past, rfl, ?_⟩
  rw [turn?, if_neg (by omega), if_neg (by omega), hscan]
  have hlexeme := hbegin.lexeme?
  cases hpiece : (nextPiece c after).1 with
  | token kind text =>
    rw [hpiece, Piece.text] at hlexeme
    show Option.bind (s.begin.past text).lexeme? _ = _
    rw [hlexeme]
    rfl
  | blank text => rfl
  | fault cause text => rfl

/-! ### All items -/

/-- The scanner hands out some items one after the other. -/
inductive Yields : Scanner → List Item → Scanner → Prop where
  | nil (s : Scanner) : Yields s [] s
  | cons {s next last : Scanner} {item : Item} {items : List Item}
    (hnext : s.next? = some (some item, next)) (h : Yields next items last) :
    Yields s (item :: items) last

theorem Yields.of_skipped {s next last : Scanner} {item : Item} {items : List Item}
    (hskip : s.turn? = some (.skipped next)) (h : next.Yields (item :: items) last) :
    s.Yields (item :: items) last := by
  cases h with
  | cons hnext h => exact .cons ((next?_of_skipped hskip).trans hnext) h

theorem locate_eq_cons (line : Nat) (ps : List Piece) :
    ∃ item items, locate line ps = item :: items := by
  induction ps generalizing line with
  | nil => exact ⟨_, _, rfl⟩
  | cons p ps ih =>
    rw [locate]
    cases p.item? line with
    | some item => exact ⟨_, _, rfl⟩
    | none => exact ih _

/-- From a place between characters, the items of the pieces ahead come next. -/
theorem yields_pieces (rest : List Char) {before : List Char} {s : Scanner} (h : s.At before rest) :
    ∃ last, s.Yields (locate s.line (pieces rest)) last ∧ last.next? = some (none, last) := by
  fun_induction pieces rest generalizing before s with
  | case1 =>
    have hlength := h.length
    rw [encoded_nil, List.length_nil, Nat.add_zero] at hlength
    have hend : s.turn? = some (.yielded (.token ⟨.eof, "", s.line⟩) s.advance) := by
      rw [turn?, if_neg (by omega), if_pos hlength.symm]
    have hlast : s.advance.turn? = some .exhausted := by
      have hpast : (bytesOf s.advance.source).length < s.advance.curr := by
        show (bytesOf s.source).length < s.curr + 1
        omega
      rw [turn?, if_pos hpast]
    exact ⟨s.advance, .cons (next?_of_yielded hend) (.nil _), next?_of_exhausted hlast⟩
  | case2 c after ih =>
    obtain ⟨next, hat, hline, hturn⟩ := turn?_eq h
    obtain ⟨last, hyields, hlast⟩ := ih hat
    refine ⟨last, ?_, hlast⟩
    rw [locate, ← hline]
    cases hitem : (nextPiece c after).1.item? s.line with
    | some item =>
      rw [hitem] at hturn
      exact .cons (next?_of_yielded hturn) hyields
    | none =>
      rw [hitem] at hturn
      obtain ⟨item, items, heq⟩ := locate_eq_cons next.line (pieces (nextPiece c after).2)
      rw [heq] at hyields ⊢
      exact hyields.of_skipped hturn

/-- The scanner of a source hands out the items that `scan` lists, and then nothing any more. -/
theorem yields_scan (source : String) :
    ∃ last, (Scanner.new source).Yields (scan source) last ∧ last.next? = some (none, last) := by
  have hstart : (Scanner.new source).At [] source.toList := ⟨rfl, rfl⟩
  exact yields_pieces source.toList hstart

end Scanner

end Lox
