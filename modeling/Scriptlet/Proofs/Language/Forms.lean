import Scriptlet.Proofs.Language.Honesty
import Scriptlet.Proofs.Language.Rules

/-!
# How parsers are put together

A parser is a function, and a function does not tell how its replies come about. A rule that calls
itself for ever and a rule that refuses every text can be the same function. What a run does, and
whether there is one, can only be said of the expression that the parser was made by. A `Form` is
such an expression: lexemes put together by the combinators, in which a rule that refers to itself
stands by its name.

The bodies of the rules are in a `Rulebook`, together with the parsers that the rules are as
functions. So each form has a parser (`Rulebook.parser`), and the same definitions that make the
grammar out of parsers make it out of forms (`Grammar.Written`). The parsers of these forms are the
parsers of the grammar (`parser_program`, `parser_whole_expression`).
-/

namespace Scriptlet

open Lexeme (Atom Primitive)

/-- An expression for a parser of values of type `α`. The rules that refer to themselves have
values of type `ν`, and stand for themselves by name. -/
inductive Form (Rule ν : Type) : Type → Type 1
  | atom {α : Type} (a : Atom α) (isPrimitive : Primitive α a.parser) : Form Rule ν α
  | pure {α : Type} (a : α) : Form Rule ν α
  | map {α β : Type} (f : α → β) (p : Form Rule ν α) : Form Rule ν β
  | bind {α β : Type} (p : Form Rule ν α) (f : α → Form Rule ν β) : Form Rule ν β
  | orElse {α : Type} (p q : Form Rule ν α) : Form Rule ν α
  | attempt {α : Type} (p : Form Rule ν α) : Form Rule ν α
  | optional {α : Type} (p : Form Rule ν α) : Form Rule ν (Option α)
  | label {α : Type} (p : Form Rule ν α) (name : String) : Form Rule ν α
  | many {α : Type} (p : Form Rule ν α) : Form Rule ν (List α)
  | rule (r : Rule) : Form Rule ν ν

namespace Form

variable {Rule ν α β γ : Type}

instance : Monad (Form Rule ν) where
  pure := .pure
  bind := .bind
  map := .map

instance : OrElse (Form Rule ν α) where
  orElse p q := .orElse p (q ())

/-! ### Lexemes -/

def symbol (text : String) (h : text ≠ "" := by decide) : Form Rule ν Unit :=
  .atom (.symbol text) (.symbol h)

def keyword (word : String) (h : word ≠ "" := by decide) : Form Rule ν Unit :=
  .atom (.keyword word) (.keyword h)

def identifier : Form Rule ν String :=
  .atom .identifier .identifier

def integer : Form Rule ν Integer :=
  .atom .integer .integer

def spacing : Form Rule ν Unit :=
  .atom .spacing .spacing

def endOfInput : Form Rule ν Unit :=
  .atom .endOfInput .endOfInput

/-! ### Combinators that are made of others -/

def between (p : Form Rule ν α) (opening : Form Rule ν β) (closing : Form Rule ν γ) :
    Form Rule ν α :=
  opening *> p <* closing

def sepBy1 (p : Form Rule ν α) (separator : Form Rule ν β) : Form Rule ν (List α) := do
  let first ← p
  let others ← many (separator *> p)
  return first :: others

def sepBy (p : Form Rule ν α) (separator : Form Rule ν β) : Form Rule ν (List α) :=
  (·.getD []) <$> (p.sepBy1 separator).optional

def chainLeft (p : Form Rule ν α) (operator : Form Rule ν (α → α → α)) : Form Rule ν α := do
  let first ← p
  let others ← many do
    let join ← operator
    let operand ← p
    return (join, operand)
  return others.foldl (fun left (join, right) => join left right) first

/-! ### The parser of a form -/

/-- The parser that the form is an expression for, where each rule stands for the given parser. -/
def parser (handle : Rule → Parser ν) : {α : Type} → Form Rule ν α → Parser α
  | _, .atom a _ => a.parser
  | _, .pure a => Pure.pure a
  | _, .map f p => f <$> p.parser handle
  | _, .bind p f => p.parser handle >>= fun a => (f a).parser handle
  | _, .orElse p q => p.parser handle <|> q.parser handle
  | _, .attempt p => (p.parser handle).attempt
  | _, .optional p => (p.parser handle).optional
  | _, .label p name => (p.parser handle).label name
  | _, .many p => (p.parser handle).many
  | _, .rule r => handle r

end Form

/-- The bodies of rules, and the parsers that the rules are as functions. -/
structure Rulebook (Rule ν : Type) where
  body : Rule → Form Rule ν ν
  handle : Rule → Parser ν
  /-- Each rule is the parser of its body, in which the rules stand for themselves. -/
  handle_eq : ∀ r, handle r = (body r).parser handle

/-- The parser that a form is an expression for. -/
abbrev Rulebook.parser {Rule ν α : Type} (G : Rulebook Rule ν) (p : Form Rule ν α) : Parser α :=
  Form.parser G.handle p

namespace Grammar

/-- The rules that refer to themselves. -/
inductive Rule where
  | expression
  | statement
deriving DecidableEq

/-- The expressions that the grammar is written in. -/
abbrev Written (α : Type) :=
  Form Rule Expr α

namespace Written

open Form

variable {α : Type}

/-! ### Expressions -/

def parenthesized (p : Written α) : Written α :=
  p.between (symbol "(") (symbol ")")

def bracketed (p : Written α) : Written α :=
  p.between (symbol "[") (symbol "]")

def commaSeparated (p : Written α) : Written (List α) :=
  p.sepBy (symbol ",")

def operator (op : Operator) : Written (Expr → Expr → Expr) :=
  (fun _ => Expr.binary op) <$> symbol op.symbol (by cases op <;> decide)

def productOperator : Written (Expr → Expr → Expr) :=
  operator .multiply <|> operator .divide

def sumOperator : Written (Expr → Expr → Expr) :=
  operator .add <|> operator .subtract

def comparisonOperator : Written (Expr → Expr → Expr) :=
  operator .lessOrEqual <|> operator .greaterOrEqual <|> operator .equal <|> operator .notEqual
    <|> operator .lessThan <|> operator .greaterThan

def call (expression : Written Expr) : Written Expr := do
  let function ← identifier
  let arguments ← parenthesized (commaSeparated expression)
  return .call function arguments

def labelledArgument (expression : Written Expr) : Written (String × Expr) := do
  let label ← identifier
  symbol "="
  let value ← expression
  return (label, value)

def labelledCall (expression : Written Expr) : Written Expr := do
  let function ← identifier
  let arguments ← bracketed (commaSeparated (labelledArgument expression))
  return .labelledCall function arguments

def array (expression : Written Expr) : Written Expr :=
  Expr.array <$> bracketed (commaSeparated expression)

def boolean : Written Expr :=
  (fun _ => Expr.boolean true) <$> keyword "true"
    <|> (fun _ => Expr.boolean false) <$> keyword "false"

def primary (expression : Written Expr) : Written Expr :=
  parenthesized expression
    <|> Expr.integer <$> integer
    <|> (call expression).attempt
    <|> (labelledCall expression).attempt
    <|> array expression
    <|> boolean
    <|> Expr.variable <$> identifier

def product (expression : Written Expr) : Written Expr :=
  (primary expression).chainLeft productOperator

def sum (expression : Written Expr) : Written Expr :=
  (product expression).chainLeft sumOperator

def comparison (expression : Written Expr) : Written Expr :=
  (sum expression).chainLeft comparisonOperator

def expression : Written Expr :=
  (Form.rule .expression).label "expression"

/-! ### Statements -/

def loop (statement : Written Expr) : Written Expr := do
  keyword "while"
  let condition ← parenthesized expression
  let body ← statement
  return .loop condition body

def conditional (statement : Written Expr) : Written Expr := do
  keyword "if"
  let condition ← parenthesized expression
  let consequence ← statement
  let alternative ← (keyword "else" *> statement).optional
  return conditionalOf condition consequence alternative

def assignment : Written Expr := do
  let name ← identifier
  symbol "="
  let value ← expression
  symbol ";"
  return .assign name value

def block (statement : Written Expr) : Written Expr :=
  Expr.block <$> statement.many.between (symbol "\x7b") (symbol "\x7d")

def statementRule (statement : Written Expr) : Written Expr :=
  loop statement
    <|> conditional statement
    <|> assignment.attempt
    <|> block statement
    <|> expression <* symbol ";"

def statement : Written Expr :=
  .rule .statement

/-! ### Whole texts -/

def globalDefinition : Written Definition := do
  keyword "global"
  let name ← identifier
  symbol "="
  let initializer ← expression
  symbol ";"
  return .global ⟨name, initializer⟩

def functionDefinition : Written Definition := do
  keyword "define"
  let name ← identifier
  let parameters ← parenthesized (commaSeparated identifier)
  let body ← block statement
  return .function ⟨name, parameters, body⟩

def whole (p : Written α) : Written α :=
  spacing *> p <* endOfInput

def program : Written Program :=
  whole (Program.mk <$> (globalDefinition <|> functionDefinition).many)

end Written

/-! ### The rules of the grammar -/

/-- The expression that a rule is written as. -/
def Rule.body : Rule → Written Expr
  | .expression => Written.comparison (.rule .expression)
  | .statement => Written.statementRule (.rule .statement)

/-- What a rule is as a function. -/
def Rule.handle : Rule → Parser Expr
  | .expression => unlabelled
  | .statement => Grammar.statement

/-- The rules of the grammar are fixed points, so their parsers are those of their bodies. -/
def rulebook : Rulebook Rule Expr where
  body := Rule.body
  handle := Rule.handle
  handle_eq r := by
    cases r with
    | expression => exact unlabelled_eq
    | statement => exact statement_eq

theorem parser_program : rulebook.parser Written.program = program := rfl

theorem parser_whole_expression :
    rulebook.parser (Written.whole Written.expression) = whole expression := rfl

end Grammar

end Scriptlet
