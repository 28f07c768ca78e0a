/-!
# Failures

A failure is a place and what would have been accepted there. When several alternatives fail, the
failure that got farthest is kept; failures at one place are joined, in the order in which their
expectations were first seen.
-/

namespace Scriptlet

/-- Something that would have been accepted. -/
inductive Expectation where
  /-- A piece of source text, such as a symbol or a keyword. -/
  | token (text : String)
  /-- A category with a name, such as an identifier. -/
  | named (name : String)
  /-- The end of the text. -/
  | endOfInput
deriving DecidableEq

namespace Expectation

/-- A token is shown in backquotes, a category by its name. -/
def describe : Expectation → String
  | token text => "`" ++ text ++ "`"
  | named name => name
  | endOfInput => "end of input"

end Expectation

/-- A byte position and the expectations that were not met there. -/
@[ext]
structure Failure where
  pos : Nat
  expected : List Expectation
deriving DecidableEq

namespace Failure

/-- The failure to meet one expectation. -/
def single (pos : Nat) (e : Expectation) : Failure :=
  ⟨pos, [e]⟩

/-- Adds an expectation at the end, unless the list has it already. -/
def addNew (seen : List Expectation) (e : Expectation) : List Expectation :=
  if e ∈ seen then seen else seen ++ [e]

/-- The farther of two failures, or at one place their union in first-seen order. -/
def merge (f g : Failure) : Failure :=
  if g.pos < f.pos then f
  else if f.pos < g.pos then g
  else ⟨f.pos, g.expected.foldl addNew f.expected⟩

end Failure

end Scriptlet
