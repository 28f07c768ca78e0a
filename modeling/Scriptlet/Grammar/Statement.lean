import Scriptlet.Grammar.Expression

/-!
# Statements

A statement is a loop, a conditional, an assignment, a block, or an expression with a semicolon
after it. An assignment begins like an expression, so it is given up without a trace where it fails.
An alternative belongs to the nearest conditional before it.
-/

namespace Scriptlet

namespace Grammar

open Lexeme

/-- `while (condition) statement`. -/
def loop (statement : Parser Expr) : Parser Expr := do
  keyword "while"
  let condition ← parenthesized expression
  let body ← statement
  return .loop condition body

/-- A conditional from its parts, of which the last may be missing. -/
def conditionalOf (condition consequence : Expr) : Option Expr → Expr
  | some alternative => .ifElse condition consequence alternative
  | none => .ifThen condition consequence

/-- `if (condition) statement`, and `else statement` where it follows. -/
def conditional (statement : Parser Expr) : Parser Expr := do
  keyword "if"
  let condition ← parenthesized expression
  let consequence ← statement
  let alternative ← (keyword "else" *> statement).optional
  return conditionalOf condition consequence alternative

/-- `name = expression;`. -/
def assignment : Parser Expr := do
  let name ← identifier
  symbol "="
  let value ← expression
  symbol ";"
  return .assign name value

/-- Statements in braces. -/
def block (statement : Parser Expr) : Parser Expr :=
  Expr.block <$> statement.many.between (symbol "\x7b") (symbol "\x7d")

/-- A statement in terms of the statements inside it. -/
def statementRule (statement : Parser Expr) : Parser Expr :=
  loop statement
    <|> conditional statement
    <|> assignment.attempt
    <|> block statement
    <|> expression <* symbol ";"

/-- A statement. -/
def statement : Parser Expr :=
  Parser.recursive "statement" statementRule

end Grammar

end Scriptlet
