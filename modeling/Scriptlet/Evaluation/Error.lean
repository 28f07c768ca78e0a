/-!
# Errors of evaluation

What can go wrong while a program runs, with the text that tells it, and the chain of calls that
were active when it did. Faults are kept apart from errors: no program causes one, since they tell
that scopes or calls were left in another order than they were entered in.
-/

namespace Scriptlet

/-- What went wrong. -/
inductive ErrorKind where
  /-- No scope in sight binds the name. -/
  | unboundIdentifier (name : String)
  /-- No function has the name. -/
  | undefinedFunction (name : String)
  /-- A value has another type than its use asks for. -/
  | typeMismatch (expected found : String)
  /-- A call has too many or too few arguments. -/
  | arityMismatch (function : String) (expected found : Nat)
  /-- A label names no parameter, or one that has its argument already. -/
  | invalidLabel (function label : String)
  /-- Two functions of a program have one name. -/
  | duplicateFunction (name : String)
  /-- A program has no function to start with. -/
  | missingEntryPoint
  /-- The divisor is zero. -/
  | divisionByZero
  /-- The exact result of an operation is no integer of the language. -/
  | overflow (operation : String)
  /-- A call would be nested deeper than the limit. -/
  | stackExhausted (limit : Nat)
deriving DecidableEq

namespace ErrorKind

/-- The error as one line of text. -/
def message : ErrorKind → String
  | unboundIdentifier name => s!"unbound identifier `{name}`"
  | undefinedFunction name => s!"undefined function `{name}`"
  | typeMismatch expected found => s!"type mismatch: expected {expected}, found {found}"
  | arityMismatch function expected found =>
    s!"`{function}` takes {expected} argument(s) but {found} were supplied"
  | invalidLabel function label => s!"invalid label `{label}` in call to `{function}`"
  | duplicateFunction name => s!"function `{name}` is defined more than once"
  | missingEntryPoint => "no `main` function defined"
  | divisionByZero => "division by zero"
  | overflow operation => s!"integer overflow in {operation}"
  | stackExhausted limit => s!"call depth exceeded the limit of {limit}"

end ErrorKind

/-- An error with the functions whose calls were active when it arose, innermost first. The list is
empty for an error outside all calls. -/
structure EvalError where
  kind : ErrorKind
  backtrace : List String
deriving DecidableEq

namespace EvalError

/-- Adds the active calls to an error that has none yet, so that the innermost record is kept. -/
def withBacktrace (e : EvalError) (active : List String) : EvalError :=
  if e.backtrace.isEmpty then ⟨e.kind, active⟩ else e

end EvalError

/-- A broken promise about the use of scopes and calls. -/
inductive Fault where
  /-- A scope is looked up after it is gone. -/
  | danglingScope
  /-- The parents of a scope lead back to it. -/
  | endlessChain
  /-- A scope is left although an outer one was left before it. -/
  | leftOutOfOrder
  /-- A call ends although none is active. -/
  | noActiveCall
deriving DecidableEq

end Scriptlet
