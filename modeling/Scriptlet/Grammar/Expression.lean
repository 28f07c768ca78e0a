import Scriptlet.Lexeme
import Scriptlet.Parsing.Recursion
import Scriptlet.Parsing.Repetition
import Scriptlet.Tree.Program

/-!
# Expressions

Operators bind on three levels: comparisons weakest, then sums, then products. The operands of each
level are those of the next, joined from the left, and the operands of products are the primary
expressions: parentheses, literals, calls, arrays and names.

A name may begin a call, a labelled call or a plain variable, so the two calls are tried first and
given up without a trace where no bracket follows.
-/

namespace Scriptlet

namespace Grammar

open Lexeme

/-! ### Brackets and lists -/

/-- Something in parentheses. -/
def parenthesized {α : Type} (p : Parser α) : Parser α :=
  p.between (symbol "(") (symbol ")")

/-- Something in square brackets. -/
def bracketed {α : Type} (p : Parser α) : Parser α :=
  p.between (symbol "[") (symbol "]")

/-- Things with commas between. -/
def commaSeparated {α : Type} (p : Parser α) : Parser (List α) :=
  p.sepBy (symbol ",")

/-! ### Operators -/

/-- One operator, as the way to join its operands. -/
def operator (op : Operator) : Parser (Expr → Expr → Expr) :=
  (fun _ => Expr.binary op) <$> symbol op.symbol

/-- The operators that bind strongest. -/
def productOperator : Parser (Expr → Expr → Expr) :=
  operator .multiply <|> operator .divide

/-- The operators that bind weaker than products. -/
def sumOperator : Parser (Expr → Expr → Expr) :=
  operator .add <|> operator .subtract

/-- The operators that bind weakest. -/
def comparisonOperator : Parser (Expr → Expr → Expr) :=
  operator .lessOrEqual <|> operator .greaterOrEqual <|> operator .equal <|> operator .notEqual
    <|> operator .lessThan <|> operator .greaterThan

/-! ### Primary expressions -/

/-- A call with arguments by position: `name(argument, ...)`. -/
def call (expression : Parser Expr) : Parser Expr := do
  let function ← identifier
  let arguments ← parenthesized (commaSeparated expression)
  return .call function arguments

/-- An argument with its parameter's name: `label = argument`. -/
def labelledArgument (expression : Parser Expr) : Parser (String × Expr) := do
  let label ← identifier
  symbol "="
  let value ← expression
  return (label, value)

/-- A call with arguments by name: `name[label = argument, ...]`. -/
def labelledCall (expression : Parser Expr) : Parser Expr := do
  let function ← identifier
  let arguments ← bracketed (commaSeparated (labelledArgument expression))
  return .labelledCall function arguments

/-- An array: `[item, ...]`. -/
def array (expression : Parser Expr) : Parser Expr :=
  Expr.array <$> bracketed (commaSeparated expression)

/-- A literal truth value. -/
def boolean : Parser Expr :=
  (fun _ => Expr.boolean true) <$> keyword "true"
    <|> (fun _ => Expr.boolean false) <$> keyword "false"

/-- An expression that is no application of an operator, or one in parentheses. -/
def primary (expression : Parser Expr) : Parser Expr :=
  parenthesized expression
    <|> Expr.integer <$> integer
    <|> (call expression).attempt
    <|> (labelledCall expression).attempt
    <|> array expression
    <|> boolean
    <|> Expr.variable <$> identifier

/-! ### The levels -/

/-- Primary expressions joined by products. -/
def product (expression : Parser Expr) : Parser Expr :=
  (primary expression).chainLeft productOperator

/-- Products joined by sums. -/
def sum (expression : Parser Expr) : Parser Expr :=
  (product expression).chainLeft sumOperator

/-- Sums joined by comparisons, which is an expression in terms of the expressions inside it. -/
def comparison (expression : Parser Expr) : Parser Expr :=
  (sum expression).chainLeft comparisonOperator

/-- An expression. -/
def expression : Parser Expr :=
  (Parser.recursive "expression" comparison).label "expression"

end Grammar

end Scriptlet
