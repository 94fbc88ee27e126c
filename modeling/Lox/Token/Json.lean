import Lox.Token

/-!
# Tokens as JSON

`tokensJson` lists tokens as a JSON document, indented by two blanks a level. A token is an object
of its kind, its text and its line. The kind is a name, or an object from the name to the value of a
literal.
-/

namespace Lox

/-- A hexadecimal digit in lower case. -/
def hexDigit (n : Nat) : Char := if n < 10 then Char.ofNat (48 + n) else Char.ofNat (87 + n)

/-- A character inside a JSON string. Only quotes, backslashes and control characters are escaped.
-/
def jsonChar (c : Char) : List Char :=
  match c with
  | '"' => ['\\', '"']
  | '\\' => ['\\', '\\']
  | '\x08' => ['\\', 'b']
  | '\t' => ['\\', 't']
  | '\n' => ['\\', 'n']
  | '\x0c' => ['\\', 'f']
  | '\r' => ['\\', 'r']
  | c =>
    if c.toNat < 0x20 then
      ['\\', 'u', '0', '0', hexDigit (c.toNat / 16), hexDigit (c.toNat % 16)]
    else [c]

def jsonString (s : String) : String := String.ofList ('"' :: (s.toList.flatMap jsonChar ++ ['"']))

/-- The kind of a token as the value of a field. -/
def TokenKind.json : TokenKind → String
  | .string contents => "\x7b\n      \"STRING\": " ++ jsonString contents ++ "\n    \x7d"
  | .number value => "\x7b\n      \"NUMBER\": " ++ value.json ++ "\n    \x7d"
  | kind => jsonString kind.name

def Token.json (t : Token) : String :=
  "  \x7b\n    \"token_type\": " ++ t.kind.json ++ ",\n    \"lexeme\": " ++ jsonString t.lexeme ++
    ",\n    \"line\": " ++ toString t.line ++ "\n  \x7d"

/-- A list of tokens as a JSON document. -/
def tokensJson (ts : List Token) : String :=
  if ts.isEmpty then "[]" else "[\n" ++ String.intercalate ",\n" (ts.map Token.json) ++ "\n]"

end Lox
