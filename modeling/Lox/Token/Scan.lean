import Lox.Token.Piece

/-!
# Scanning

`scan` lists the tokens and lexical errors of a source in order, each with its line, and ends with
one end-of-file token. Lines are counted by newline characters only, starting from one. A token
stands on the line where it ends; an error is blamed on the line where its text starts.
-/

namespace Lox

/-- A token, or an error with its line. -/
inductive Item where
  | token (token : Token)
  | error (line : Nat) (cause : LexError)
  deriving DecidableEq

namespace Item

def token? : Item → Option Token
  | token t => some t
  | error _ _ => none

end Item

def newlines (text : List Char) : Nat := text.count '\n'

/-- What a piece that starts on `line` contributes. -/
def Piece.item? (line : Nat) : Piece → Option Item
  | token kind text => some (.token ⟨kind, String.ofList text, line + newlines text⟩)
  | blank _ => none
  | fault cause _ => some (.error line cause)

/-- Number the lines of consecutive pieces, the first of which starts on `line`. -/
def locate (line : Nat) : List Piece → List Item
  | [] => [.token ⟨.eof, "", line⟩]
  | p :: ps => (p.item? line).toList ++ locate (line + newlines p.text) ps

/-- The tokens and errors of a source. -/
def scan (source : String) : List Item := locate 1 (pieces source.toList)

/-- The tokens of a source, without its errors. -/
def tokens (source : String) : List Token := (scan source).filterMap Item.token?

end Lox
