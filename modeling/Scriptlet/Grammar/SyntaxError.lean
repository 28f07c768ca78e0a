import Scriptlet.Lexeme
import Scriptlet.Parsing.Failure
import Scriptlet.Text.Location

/-!
# Syntax errors

A syntax error tells where a text stops being a program, what could have gone on there, and what
stands there instead: a whole word, any other single character, or nothing.
-/

namespace Scriptlet

/-- Why a text is refused. -/
structure SyntaxError where
  /-- The byte position of the failure. -/
  offset : Nat
  /-- The line and column of that position. -/
  location : Location
  /-- What would have been accepted there. -/
  expected : List Expectation
  /-- What stands there. -/
  found : String
deriving DecidableEq

namespace SyntaxError

/-- Shows the beginning of a text: its first word, its first character, or that it is empty. -/
def describe : List Char → String
  | [] => "end of input"
  | c :: cs =>
    let text := if Lexeme.isWordChar c then (c :: cs).takeWhile Lexeme.isWordChar else [c]
    "`" ++ String.ofList text ++ "`"

/-- The error for a failure of parsing `source`. -/
def ofFailure (source : List Char) (f : Failure) : SyntaxError where
  offset := f.pos
  location := .after (takeBytes f.pos source)
  expected := f.expected
  found := describe (dropBytes f.pos source)

/-- Lists alternatives: `a`, `a or b`, `a, b or c`. -/
def listAlternatives : List String → String
  | [] => ""
  | [a] => a
  | [a, b] => a ++ " or " ++ b
  | a :: as => a ++ ", " ++ listAlternatives as

/-- The error as one line of text. -/
def message (e : SyntaxError) : String :=
  let expected := listAlternatives (e.expected.map Expectation.describe)
  s!"syntax error at {e.location.line}:{e.location.column}: expected {expected}, found {e.found}"

end SyntaxError

end Scriptlet
