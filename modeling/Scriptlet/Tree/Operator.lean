/-!
# Binary operators

Four operators compute an integer and six compare two integers.
-/

namespace Scriptlet

/-- The binary operators of the language. -/
inductive Operator where
  | add
  | subtract
  | multiply
  | divide
  | lessThan
  | lessOrEqual
  | greaterThan
  | greaterOrEqual
  | equal
  | notEqual
deriving DecidableEq

namespace Operator

/-- All operators, arithmetic before comparison. -/
def all : List Operator :=
  [add, subtract, multiply, divide, lessThan, lessOrEqual, greaterThan, greaterOrEqual, equal,
    notEqual]

/-- How an operator is written. -/
def symbol : Operator → String
  | add => "+"
  | subtract => "-"
  | multiply => "*"
  | divide => "/"
  | lessThan => "<"
  | lessOrEqual => "<="
  | greaterThan => ">"
  | greaterOrEqual => ">="
  | equal => "=="
  | notEqual => "!="

/-- Whether an operator compares, so that its result is a truth value. -/
def isComparison : Operator → Bool
  | add | subtract | multiply | divide => false
  | lessThan | lessOrEqual | greaterThan | greaterOrEqual | equal | notEqual => true

/-- The operator that is written in a given way. -/
def ofSymbol? (text : String) : Option Operator :=
  all.find? (·.symbol == text)

end Operator

end Scriptlet
