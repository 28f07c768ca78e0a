import Scriptlet.Evaluation.FunctionTable
import Scriptlet.Evaluation.Machine
import Scriptlet.Value.Arithmetic

/-!
# Evaluation

Expressions are evaluated from left to right. A call evaluates its arguments where it stands, and
its body in a new scope that binds the parameters. The parent of that scope is the caller's scope or
the root, as the scoping asks.

Programs need not end, so evaluation takes fuel: a bound on how deep evaluations are nested, where
each round of a loop is nested in the one before. A result that is reached with some fuel is reached
with any more.
-/

namespace Scriptlet

/-- What a function sees besides its parameters. -/
inductive Scoping where
  /-- The variables of its caller, and so on outward. -/
  | dynamic
  /-- The globals only. -/
  | lexical
deriving DecidableEq

/-- The parent of the scope of a call. -/
def Scoping.parent (scoping : Scoping) (env : Environment) : ScopeId :=
  match scoping with
  | dynamic => env.current
  | lexical => Environment.root

/-- What evaluation depends on and does not change. -/
structure Context where
  functions : FunctionTable
  scoping : Scoping

namespace Eval

/-! ### Calls -/

/-- Runs the body of a call with its parameters bound. The scope is left and the call ended whatever
the body's end is, and an error that leaves the body takes the active calls with it. -/
def inCall (scoping : Scoping) (name : String) (parameters : List (String × Value))
    (body : Eval Value) : Eval Value := do
  pushCall name
  let mark ← inspect fun env => .ok env.mark
  update fun env => .ok (env.enter (scoping.parent env))
  parameters.forM fun (parameter, value) => update (·.define parameter value)
  let result ← observe body
  let active ← activeCalls
  update (·.leave mark)
  popCall
  match result with
  | .ok value => return value
  | .error e => throw (e.withBacktrace active)

/-- Calls a function with one argument for each parameter. -/
def callFunction (scoping : Scoping) (evaluate : Expr → Eval Value) (f : FunctionDecl)
    (arguments : List Value) : Eval Value := do
  unless arguments.length = f.parameters.length do
    raise (.arityMismatch f.name f.parameters.length arguments.length)
  inCall scoping f.name (f.parameters.zip arguments) (evaluate f.body)

/-- Evaluates one labelled argument and adds it to those before it. Its label has to be a parameter
that has no argument yet. -/
def bindLabel (evaluate : Expr → Eval Value) (name : String) (parameters : List String)
    (bound : List (String × Value)) (argument : String × Expr) :
    Eval (List (String × Value)) := do
  let value ← evaluate argument.2
  unless parameters.contains argument.1 && (bound.lookup argument.1).isNone do
    raise (.invalidLabel name argument.1)
  return bound ++ [(argument.1, value)]

/-- Evaluates labelled arguments in order and lists their values by parameter. -/
def labelledArguments (evaluate : Expr → Eval Value) (name : String) (parameters : List String)
    (arguments : List (String × Expr)) : Eval (List Value) := do
  let bound ← arguments.foldlM (bindLabel evaluate name parameters) []
  unless arguments.length = parameters.length do
    raise (.arityMismatch name parameters.length arguments.length)
  return parameters.filterMap fun parameter => bound.lookup parameter

/-! ### Expressions -/

/-- Evaluates an expression. -/
def evaluate (ctx : Context) : Nat → Expr → Eval Value
  | 0, _ => outOfFuel
  | fuel + 1, e =>
    match e with
    | .integer n => return .int n
    | .boolean b => return .bool b
    | .variable name => do
      require (.unboundIdentifier name) (← inspect (·.lookup name))
    | .array items => return .array (← items.mapM (evaluate ctx fuel))
    | .binary op left right => do
      let a ← evaluate ctx fuel left
      let b ← evaluate ctx fuel right
      check (op.apply a b)
    | .call name arguments => do
      let f ← require (.undefinedFunction name) (ctx.functions.get? name)
      let values ← arguments.mapM (evaluate ctx fuel)
      callFunction ctx.scoping (evaluate ctx fuel) f values
    | .labelledCall name arguments => do
      let f ← require (.undefinedFunction name) (ctx.functions.get? name)
      let values ← labelledArguments (evaluate ctx fuel) name f.parameters arguments
      callFunction ctx.scoping (evaluate ctx fuel) f values
    | .assign name e => do
      let value ← evaluate ctx fuel e
      update (·.assign name value)
      return value
    | .block statements => statements.foldlM (fun _ s => evaluate ctx fuel s) .unit
    | .ifThen condition consequence => do
      if ← check (← evaluate ctx fuel condition).asBool then
        evaluate ctx fuel consequence
      else
        return .unit
    | .ifElse condition consequence alternative => do
      if ← check (← evaluate ctx fuel condition).asBool then
        evaluate ctx fuel consequence
      else
        evaluate ctx fuel alternative
    | .loop condition body => do
      if ← check (← evaluate ctx fuel condition).asBool then
        let _ ← evaluate ctx fuel body
        evaluate ctx fuel (.loop condition body)
      else
        return .bool true

/-! ### Programs -/

/-- Gives the globals their first values, in source order, and then calls the function `main`. -/
def runProgram (ctx : Context) (fuel : Nat) (p : Program) : Eval Value := do
  p.globals.forM fun g => do
    let value ← evaluate ctx fuel g.initializer
    update (·.defineGlobal g.name value)
  let main ← require .missingEntryPoint (ctx.functions.get? "main")
  callFunction ctx.scoping (evaluate ctx fuel) main []

end Eval

end Scriptlet
