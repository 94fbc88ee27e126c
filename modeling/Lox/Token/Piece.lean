import Lox.Number.Rounding
import Lox.Token

/-!
# Pieces of source text

`pieces` cuts a source text into consecutive pieces: tokens, blanks (white space and comments) and
faults (text that starts no token). Every piece keeps its own text, and the texts of all pieces in
order make up the source. Which piece comes next depends on the text that follows only through
`nextPiece`, which takes the longest piece that starts with a given character.
-/

namespace Lox

/-- Why a piece of text is no token. -/
inductive LexError where
  | unexpectedCharacter
  | unterminatedString
  deriving DecidableEq

namespace LexError

def message : LexError → String
  | unexpectedCharacter => "Unexpected character."
  | unterminatedString => "Unterminated string."

end LexError

/-- A stretch of source text and what it stands for. -/
inductive Piece where
  | token (kind : TokenKind) (text : List Char)
  | blank (text : List Char)
  | fault (cause : LexError) (text : List Char)
  deriving DecidableEq

namespace Piece

def text : Piece → List Char
  | token _ text => text
  | blank text => text
  | fault _ text => text

end Piece

/-! ### Character classes -/

def isBlankChar (c : Char) : Bool := c == ' ' || c == '\r' || c == '\t' || c == '\n'

/-- Characters that start a name: ASCII letters and the underscore. -/
def isNameStart (c : Char) : Bool := c.isAlpha || c == '_'

/-- Characters that continue a name. -/
def isNameChar (c : Char) : Bool := c.isAlphanum || c == '_'

/-! ### One piece -/

/-- A symbol that starts with `c`, preferring two characters to one, and the text after it. -/
def Symbol.read? (c : Char) (after : List Char) : Option (Symbol × List Char) :=
  match c, after with
  | '!', '=' :: rest => some (.bangEqual, rest)
  | '=', '=' :: rest => some (.equalEqual, rest)
  | '<', '=' :: rest => some (.lessEqual, rest)
  | '>', '=' :: rest => some (.greaterEqual, rest)
  | '!', rest => some (.bang, rest)
  | '=', rest => some (.equal, rest)
  | '<', rest => some (.less, rest)
  | '>', rest => some (.greater, rest)
  | '(', rest => some (.leftParen, rest)
  | ')', rest => some (.rightParen, rest)
  | '\x7b', rest => some (.leftBrace, rest)
  | '\x7d', rest => some (.rightBrace, rest)
  | ',', rest => some (.comma, rest)
  | '.', rest => some (.dot, rest)
  | '-', rest => some (.minus, rest)
  | '+', rest => some (.plus, rest)
  | ';', rest => some (.semicolon, rest)
  | '/', rest => some (.slash, rest)
  | '*', rest => some (.star, rest)
  | _, _ => none

/-- A string literal after its opening quote. It may span lines, and it runs to the end of the
source if it is never closed. -/
def stringPiece (after : List Char) : Piece × List Char :=
  let body := after.takeWhile (· != '"')
  match after.dropWhile (· != '"') with
  | [] => (.fault .unterminatedString ('"' :: body), [])
  | quote :: rest => (.token (.string (String.ofList body)) ('"' :: (body ++ [quote])), rest)

/-- The fraction digits of a number literal, which follow a decimal point, and the text after them.
A point without a digit is left alone. -/
def splitFraction : List Char → List Char × List Char
  | '.' :: d :: rest =>
    if d.isDigit then (d :: rest.takeWhile Char.isDigit, rest.dropWhile Char.isDigit)
    else ([], '.' :: d :: rest)
  | rest => ([], rest)

/-- A number literal that starts with the digit `c`. -/
def numberPiece (c : Char) (after : List Char) : Piece × List Char :=
  let whole := c :: after.takeWhile Char.isDigit
  let (fraction, rest) := splitFraction (after.dropWhile Char.isDigit)
  let text := if fraction.isEmpty then whole else whole ++ '.' :: fraction
  (.token (.number (Number.ofDigits whole fraction)) text, rest)

/-- A name or keyword that starts with `c`. -/
def wordPiece (c : Char) (after : List Char) : Piece × List Char :=
  let word := c :: after.takeWhile isNameChar
  let kind := match Keyword.ofWord? word with
    | some k => .keyword k
    | none => .identifier
  (.token kind word, after.dropWhile isNameChar)

/-- A comment after its first slash, up to the end of its line; a symbol; or a character that starts
nothing. -/
def markPiece (c : Char) (after : List Char) : Piece × List Char :=
  match c, after with
  | '/', '/' :: rest =>
    (.blank ('/' :: '/' :: rest.takeWhile (· != '\n')), rest.dropWhile (· != '\n'))
  | _, _ =>
    match Symbol.read? c after with
    | some (s, rest) => (.token (.symbol s) s.spelling, rest)
    | none => (.fault .unexpectedCharacter [c], after)

/-- The piece that starts with `c`, and the text after it. -/
def nextPiece (c : Char) (after : List Char) : Piece × List Char :=
  if isBlankChar c then (.blank [c], after)
  else if c == '"' then stringPiece after
  else if c.isDigit then numberPiece c after
  else if isNameStart c then wordPiece c after
  else markPiece c after

/-! ### The text after a piece is shorter -/

theorem length_dropWhile_le (p : Char → Bool) (cs : List Char) :
    (cs.dropWhile p).length ≤ cs.length :=
  (List.dropWhile_suffix p).length_le

theorem length_read?_le {c : Char} {after rest : List Char} {s : Symbol}
    (h : Symbol.read? c after = some (s, rest)) :
    rest.length ≤ after.length := by
  unfold Symbol.read? at h
  split at h <;> simp_all

theorem length_stringPiece_le (after : List Char) :
    (stringPiece after).2.length ≤ after.length := by
  have h := length_dropWhile_le (· != '"') after
  unfold stringPiece
  split
  all_goals simp_all
  all_goals omega

theorem length_splitFraction_le (cs : List Char) : (splitFraction cs).2.length ≤ cs.length := by
  unfold splitFraction
  split
  · rename_i d rest
    have := length_dropWhile_le Char.isDigit rest
    split
    all_goals simp
    all_goals omega
  · simp

theorem length_nextPiece_le (c : Char) (after : List Char) :
    (nextPiece c after).2.length ≤ after.length := by
  unfold nextPiece
  split
  · simp
  split
  · exact length_stringPiece_le after
  split
  · exact Nat.le_trans (length_splitFraction_le _) (length_dropWhile_le _ _)
  split
  · exact length_dropWhile_le _ _
  · unfold markPiece
    split
    · have := length_dropWhile_le (· != '\n') ‹_›
      simp; omega
    · split
      · exact length_read?_le ‹_›
      · simp

/-! ### The whole source -/

/-- All pieces of a source text, in order. -/
def pieces : List Char → List Piece
  | [] => []
  | c :: after => (nextPiece c after).1 :: pieces (nextPiece c after).2
termination_by source => source.length
decreasing_by
  have := length_nextPiece_le c after
  simp; omega

end Lox
