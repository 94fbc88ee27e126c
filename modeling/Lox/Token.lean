import Lox.Number.Text

/-!
# Tokens

The lexical units of a program. A token carries its kind, the text it was written as, and the line
on which it ends. Punctuation and operators are `Symbol`s, reserved words are `Keyword`s; both have
a `spelling` and a `name`, and `TokenKind.name` extends the names to all kinds.

Two kinds are *alike* when they have the same name, whatever a string or number literal holds;
`Token.alike` compares tokens in that sense.
-/

namespace Lox

/-- Punctuation and operators. -/
inductive Symbol where
  | leftParen | rightParen | leftBrace | rightBrace | comma | dot | minus | plus | semicolon | slash
  | star | bang | bangEqual | equal | equalEqual | greater | greaterEqual | less | lessEqual
  deriving DecidableEq, Inhabited

namespace Symbol

def all : List Symbol :=
  [.leftParen, .rightParen, .leftBrace, .rightBrace, .comma, .dot, .minus, .plus, .semicolon,
    .slash, .star, .bang, .bangEqual, .equal, .equalEqual, .greater, .greaterEqual, .less,
    .lessEqual]

def spelling : Symbol → List Char
  | leftParen => ['('] | rightParen => [')'] | leftBrace => ['\x7b'] | rightBrace => ['\x7d']
  | comma => [','] | dot => ['.'] | minus => ['-'] | plus => ['+'] | semicolon => [';']
  | slash => ['/'] | star => ['*'] | bang => ['!'] | bangEqual => ['!', '='] | equal => ['=']
  | equalEqual => ['=', '='] | greater => ['>'] | greaterEqual => ['>', '='] | less => ['<']
  | lessEqual => ['<', '=']

def name : Symbol → String
  | leftParen => "LEFT_PAREN" | rightParen => "RIGHT_PAREN" | leftBrace => "LEFT_BRACE"
  | rightBrace => "RIGHT_BRACE" | comma => "COMMA" | dot => "DOT" | minus => "MINUS"
  | plus => "PLUS" | semicolon => "SEMICOLON" | slash => "SLASH" | star => "STAR" | bang => "BANG"
  | bangEqual => "BANG_EQUAL" | equal => "EQUAL" | equalEqual => "EQUAL_EQUAL"
  | greater => "GREATER" | greaterEqual => "GREATER_EQUAL" | less => "LESS"
  | lessEqual => "LESS_EQUAL"

end Symbol

/-- Reserved words. -/
inductive Keyword where
  | and | class_ | else_ | false | fun_ | for_ | if_ | nil | or | print | return_ | super | this
  | true | var | while_
  deriving DecidableEq, Inhabited

namespace Keyword

def all : List Keyword :=
  [.and, .class_, .else_, .false, .fun_, .for_, .if_, .nil, .or, .print, .return_, .super, .this,
    .true, .var, .while_]

def spelling : Keyword → List Char
  | .and => ['a', 'n', 'd'] | .class_ => ['c', 'l', 'a', 's', 's'] | .else_ => ['e', 'l', 's', 'e']
  | .false => ['f', 'a', 'l', 's', 'e'] | .fun_ => ['f', 'u', 'n'] | .for_ => ['f', 'o', 'r']
  | .if_ => ['i', 'f'] | .nil => ['n', 'i', 'l'] | .or => ['o', 'r']
  | .print => ['p', 'r', 'i', 'n', 't'] | .return_ => ['r', 'e', 't', 'u', 'r', 'n']
  | .super => ['s', 'u', 'p', 'e', 'r'] | .this => ['t', 'h', 'i', 's']
  | .true => ['t', 'r', 'u', 'e'] | .var => ['v', 'a', 'r'] | .while_ => ['w', 'h', 'i', 'l', 'e']

def name : Keyword → String
  | .and => "AND" | .class_ => "CLASS" | .else_ => "ELSE" | .false => "FALSE" | .fun_ => "FUN"
  | .for_ => "FOR" | .if_ => "IF" | .nil => "NIL" | .or => "OR" | .print => "PRINT"
  | .return_ => "RETURN" | .super => "SUPER" | .this => "THIS" | .true => "TRUE" | .var => "VAR"
  | .while_ => "WHILE"

/-- The keyword spelled by a word. -/
def ofWord? (word : List Char) : Option Keyword := all.find? fun k => k.spelling == word

end Keyword

/-- What a token is; literals carry their value. -/
inductive TokenKind where
  | symbol (s : Symbol)
  | keyword (k : Keyword)
  | identifier
  | string (contents : String)
  | number (value : Number)
  | eof
  deriving DecidableEq, Inhabited

namespace TokenKind

/-- The upper-case name of a kind, without the value of a literal. -/
def name : TokenKind → String
  | symbol s => s.name
  | keyword k => k.name
  | identifier => "IDENTIFIER"
  | string _ => "STRING"
  | number _ => "NUMBER"
  | eof => "EOF"

/-- The same kind up to the value of a literal. -/
def alike : TokenKind → TokenKind → Bool
  | symbol s, symbol t => s == t
  | keyword k, keyword l => k == l
  | identifier, identifier => true
  | string _, string _ => true
  | number _, number _ => true
  | eof, eof => true
  | _, _ => false

end TokenKind

/-- A token with its text and the line where it ends. -/
structure Token where
  kind : TokenKind
  lexeme : String
  line : Nat
  deriving DecidableEq, Inhabited

namespace Token

def isEof (t : Token) : Bool := t.kind == .eof

/-- The same token up to the value of a literal. -/
def alike (t u : Token) : Bool := t.kind.alike u.kind && t.lexeme == u.lexeme && t.line == u.line

/-- The value column of a token's one-line form. -/
def valueText (t : Token) : String :=
  match t.kind with
  | .string contents => contents
  | .number value => value.literal
  | _ => "null"

/-- The one-line form: name, text and value. -/
def display (t : Token) : String := t.kind.name ++ " " ++ t.lexeme ++ " " ++ t.valueText

end Token

end Lox
