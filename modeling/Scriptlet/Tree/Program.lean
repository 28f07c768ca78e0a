import Scriptlet.Integer
import Scriptlet.Tree.Operator

/-!
# Programs as trees

Statements and expressions are one type, since every statement has a value. A program is a list of
definitions in source order: functions, which may be used before they are defined, and globals,
whose order matters.
-/

namespace Scriptlet

/-- An expression or a statement. -/
inductive Expr where
  /-- An integer literal. -/
  | integer (n : Integer)
  /-- A literal truth value. -/
  | boolean (b : Bool)
  /-- The value of a variable. -/
  | variable (name : String)
  /-- A list of items in brackets. -/
  | array (items : List Expr)
  /-- An operator with its two operands. -/
  | binary (op : Operator) (left right : Expr)
  /-- A call with arguments by position. -/
  | call (function : String) (arguments : List Expr)
  /-- A call with arguments by parameter name. -/
  | labelledCall (function : String) (arguments : List (String × Expr))
  /-- An assignment to a variable. -/
  | assign (name : String) (value : Expr)
  /-- Statements in braces. -/
  | block (statements : List Expr)
  /-- A conditional statement without an alternative. -/
  | ifThen (condition consequence : Expr)
  /-- A conditional statement with an alternative. -/
  | ifElse (condition consequence alternative : Expr)
  /-- A statement that is repeated while a condition holds. -/
  | loop (condition body : Expr)

/-- A function with its parameters by position. -/
structure FunctionDecl where
  name : String
  parameters : List String
  body : Expr

/-- A global variable with the expression for its first value. -/
structure GlobalDecl where
  name : String
  initializer : Expr

/-- One item of a program. -/
inductive Definition where
  | function (f : FunctionDecl)
  | global (g : GlobalDecl)

/-- The definitions of a program in source order. -/
structure Program where
  definitions : List Definition

namespace Program

/-- The functions of a program in source order. -/
def functions (p : Program) : List FunctionDecl :=
  p.definitions.filterMap fun
    | .function f => some f
    | .global _ => none

/-- The globals of a program in source order. -/
def globals (p : Program) : List GlobalDecl :=
  p.definitions.filterMap fun
    | .function _ => none
    | .global g => some g

end Program

end Scriptlet
