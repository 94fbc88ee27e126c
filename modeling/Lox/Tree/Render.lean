import Lox.Tree

/-!
# Expressions in parenthesised form

`Expr.render` writes an expression with every operator in front of its operands and a pair of
parentheses around each operation, so that the grouping of the tree can be read off the text.
-/

namespace Lox

namespace Literal

def render : Literal → String
  | nil => "nil"
  | bool true => "true"
  | bool false => "false"
  | number n => n.literal
  | string s => s

end Literal

mutual

/-- The parenthesised form of an expression. -/
def Expr.render : Expr → String
  | .literal _ value => value.render
  | .grouping _ inner => "(group " ++ inner.render ++ ")"
  | .unary _ op right => "(" ++ op.lexeme ++ " " ++ right.render ++ ")"
  | .binary _ left op right => "(" ++ op.lexeme ++ " " ++ left.render ++ " " ++ right.render ++ ")"
  | .logical _ left op right => "(" ++ op.lexeme ++ " " ++ left.render ++ " " ++ right.render ++ ")"
  | .var _ name => name.lexeme
  | .assign _ name value => "(= " ++ name.lexeme ++ " " ++ value.render ++ ")"
  | .call _ callee _ args => "(call " ++ callee.render ++ renderArgs args ++ ")"
  | .get _ object name => "(. " ++ object.render ++ " " ++ name.lexeme ++ ")"
  | .set _ object name value =>
    "(= (. " ++ object.render ++ " " ++ name.lexeme ++ ") " ++ value.render ++ ")"
  | .this _ _ => "this"
  | .super _ _ method => "(super " ++ method.lexeme ++ ")"
termination_by structural e => e

/-- The arguments of a call, each after a blank. -/
def renderArgs : List Expr → String
  | [] => ""
  | e :: es => " " ++ e.render ++ renderArgs es
termination_by structural es => es

end

end Lox
