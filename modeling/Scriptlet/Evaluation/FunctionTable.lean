import Std.Data.ExtTreeMap
import Scriptlet.Evaluation.Error
import Scriptlet.Tree.Program

/-!
# Function tables

The functions of a program by name. A name is taken by the first function that comes with it.
-/

namespace Scriptlet

/-- Functions by name. -/
structure FunctionTable where
  functions : Std.ExtTreeMap String FunctionDecl

namespace FunctionTable

/-- The table without functions. -/
def empty : FunctionTable :=
  ⟨∅⟩

/-- The function with a name. -/
def get? (table : FunctionTable) (name : String) : Option FunctionDecl :=
  table.functions[name]?

/-- The number of functions. -/
def size (table : FunctionTable) : Nat :=
  table.functions.size

/-- Whether there is no function. -/
def isEmpty (table : FunctionTable) : Bool :=
  table.functions.isEmpty

/-- The table with a function under its name. -/
def insert (table : FunctionTable) (f : FunctionDecl) : FunctionTable :=
  ⟨table.functions.insert f.name f⟩

theorem get?_insert (table : FunctionTable) (f : FunctionDecl) (name : String) :
    (table.insert f).get? name = if f.name = name then some f else table.get? name := by
  simp [insert, get?, Std.ExtTreeMap.getElem?_insert]

/-- Steps on a table that may fail, and in both cases leave the table as it is then. -/
abbrev Registration := ExceptT ErrorKind (StateM FunctionTable)

/-- Adds a function, unless its name is taken. -/
def register (f : FunctionDecl) : Registration Unit := do
  if (← get).functions.contains f.name then
    throw (.duplicateFunction f.name)
  modify (·.insert f)

/-- The functions of a program, whose names have to differ. -/
def ofProgram (p : Program) : Except ErrorKind FunctionTable :=
  match p.functions.forM register empty with
  | (.ok (), table) => .ok table
  | (.error kind, _) => .error kind

end FunctionTable

end Scriptlet
