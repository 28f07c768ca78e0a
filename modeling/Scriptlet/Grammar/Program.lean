import Scriptlet.Grammar.Statement
import Scriptlet.Grammar.SyntaxError

/-!
# Programs

A program is a list of definitions up to the end of the text. `Program.parse` and `Expr.parse` read
a whole text and report the failure that got farthest as a syntax error.
-/

namespace Scriptlet

namespace Grammar

open Lexeme

/-- `global name = expression;`. -/
def globalDefinition : Parser Definition := do
  keyword "global"
  let name ← identifier
  symbol "="
  let initializer ← expression
  symbol ";"
  return .global ⟨name, initializer⟩

/-- `define name(parameter, ...) block`. -/
def functionDefinition : Parser Definition := do
  keyword "define"
  let name ← identifier
  let parameters ← parenthesized (commaSeparated identifier)
  let body ← block statement
  return .function ⟨name, parameters, body⟩

/-- Something that takes up a whole text, with blanks and comments before it. -/
def whole {α : Type} (p : Parser α) : Parser α :=
  spacing *> p <* Parser.endOfInput

/-- A program. -/
def program : Parser Program :=
  whole (Program.mk <$> (globalDefinition <|> functionDefinition).many)

/-- Runs a parser from the start of a text. -/
def parseText {α : Type} (p : Parser α) (source : String) : Except SyntaxError α :=
  match (p.run (.start source.toList)).result with
  | .ok (a, _) => .ok a
  | .error f => .error (.ofFailure source.toList f)

end Grammar

/-- Reads a program. -/
def Program.parse (source : String) : Except SyntaxError Program :=
  Grammar.parseText Grammar.program source

/-- Reads one expression. -/
def Expr.parse (source : String) : Except SyntaxError Expr :=
  Grammar.parseText (Grammar.whole Grammar.expression) source

end Scriptlet
