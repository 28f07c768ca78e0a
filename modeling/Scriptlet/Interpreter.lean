import Scriptlet.Evaluation.Evaluate
import Scriptlet.Grammar.Program

/-!
# Interpreters

An interpreter has settings and a machine, and takes programs and expressions one after the other.
Every program starts from the seed environment, so nothing is left from what ran before it. An
expression is evaluated in the environment that is there.
-/

namespace Scriptlet

/-- How an interpreter runs programs. -/
structure Settings where
  scoping : Scoping := .dynamic
  /-- The largest number of active calls; `none` where there is no limit. -/
  callLimit : Option Nat := some CallStack.defaultLimit
  /-- The environment that every program starts from. -/
  seed : Environment := .empty

/-- Settings, and the machine that the last program or expression left. -/
structure Interpreter where
  settings : Settings
  machine : Machine

/-- The machine that every program starts on. -/
def Settings.machine (settings : Settings) : Machine :=
  ⟨settings.seed, .empty settings.callLimit⟩

namespace Interpreter

/-- An interpreter that has run nothing. -/
def ofSettings (settings : Settings) : Interpreter :=
  ⟨settings, settings.machine⟩

/-- A fuel that outlasts any run: a machine that nests one evaluation in a nanosecond takes eleven
days to use it up. -/
def ampleFuel : Nat := 1000000000000000

/-- The end of steps on the machine, and the interpreter with the machine that they leave. -/
def perform {α : Type} (i : Interpreter) (steps : Eval α) :
    Except Interrupt (Except EvalError α × Interpreter) :=
  (steps i.machine).map fun (result, machine) => (result, ⟨i.settings, machine⟩)

/-- Runs a program from the seed environment. -/
def run (i : Interpreter) (fuel : Nat) (p : Program) :
    Except Interrupt (Except EvalError Value × Interpreter) :=
  perform ⟨i.settings, i.settings.machine⟩ do
    let functions ← Eval.check (FunctionTable.ofProgram p)
    Eval.runProgram ⟨functions, i.settings.scoping⟩ fuel p

/-- Evaluates an expression with the given functions, in the environment that is there. -/
def evaluate (i : Interpreter) (fuel : Nat) (functions : FunctionTable) (e : Expr) :
    Except Interrupt (Except EvalError Value × Interpreter) :=
  i.perform (Eval.evaluate ⟨functions, i.settings.scoping⟩ fuel e)

end Interpreter

/-- Runs a program on an interpreter of its own. -/
def Program.run (p : Program) (fuel : Nat) (settings : Settings) :
    Except Interrupt (Except EvalError Value) :=
  ((Interpreter.ofSettings settings).run fuel p).map (·.1)

/-- Reads a program and runs it. -/
def runSource (source : String) (fuel : Nat) (settings : Settings) :
    Except SyntaxError (Except Interrupt (Except EvalError Value)) :=
  (Program.parse source).map (·.run fuel settings)

end Scriptlet
