import Scriptlet.Evaluation.CallStack
import Scriptlet.Evaluation.Environment

/-!
# Machines

A machine is what evaluation changes: the environment and the active calls. `Eval` is the monad of
steps on a machine. A step ends with a value or an error of the language, and in both cases with the
machine as it is then; or it is interrupted, without any machine to go on with, by a fault or
because the fuel that bounds the evaluation is used up.
-/

namespace Scriptlet

/-- What evaluation changes. -/
structure Machine where
  env : Environment
  calls : CallStack

/-- Why evaluation has no result. -/
inductive Interrupt where
  /-- The bound on the length of the evaluation is reached. -/
  | outOfFuel
  /-- The machine is not well formed. -/
  | fault (f : Fault)
deriving DecidableEq

/-- Steps on a machine that end with a value or an error. -/
abbrev Eval := ExceptT EvalError (StateT Machine (Except Interrupt))

namespace Eval

variable {α β : Type}

/-! ### Sequencing -/

@[simp]
theorem pure_apply (a : α) (m : Machine) : (pure a : Eval α) m = .ok (.ok a, m) := rfl

@[simp]
theorem throw_apply (e : EvalError) (m : Machine) : (throw e : Eval α) m = .ok (.error e, m) := rfl

/-- After a value the second part runs on the machine that the first leaves. -/
theorem bind_apply_of_ok {x : Eval α} {m m' : Machine} {a : α} (h : x m = .ok (.ok a, m'))
    (f : α → Eval β) : (x >>= f) m = f a m' := by
  show (x m >>= fun (r, m) => ExceptT.bindCont f r m) = _
  rw [h]
  rfl

/-- An error of the first part is the end of the whole. -/
theorem bind_apply_of_error {x : Eval α} {m m' : Machine} {e : EvalError}
    (h : x m = .ok (.error e, m')) (f : α → Eval β) : (x >>= f) m = .ok (.error e, m') := by
  show (x m >>= fun (r, m) => ExceptT.bindCont f r m) = _
  rw [h]
  rfl

/-- An interrupt of the first part interrupts the whole. -/
theorem bind_apply_of_interrupt {x : Eval α} {m : Machine} {i : Interrupt} (h : x m = .error i)
    (f : α → Eval β) : (x >>= f) m = .error i := by
  show (x m >>= fun (r, m) => ExceptT.bindCont f r m) = _
  rw [h]
  rfl

/-! ### Ends -/

/-- Stops for want of fuel. -/
def outOfFuel : Eval α :=
  ExceptT.mk fun _ => .error .outOfFuel

/-- Ends with an error that has no backtrace yet. -/
def raise (kind : ErrorKind) : Eval α :=
  throw ⟨kind, []⟩

/-- Goes on with a result, or ends with its error. -/
def check : Except ErrorKind α → Eval α
  | .ok a => pure a
  | .error kind => raise kind

/-- Goes on with a value that may be missing, or ends with an error. -/
def require (missing : ErrorKind) : Option α → Eval α
  | some a => pure a
  | none => raise missing

/-- Runs a step and gives its end, error or not, as a value. -/
def observe (step : Eval α) : Eval (Except EvalError α) :=
  ExceptT.mk fun m => (step m).map fun (result, m) => (.ok result, m)

/-! ### The environment -/

/-- Looks at the environment. -/
def inspect (f : Environment → Except Fault α) : Eval α :=
  ExceptT.mk fun m =>
    match f m.env with
    | .ok a => .ok (.ok a, m)
    | .error e => .error (.fault e)

/-- Changes the environment. -/
def update (f : Environment → Except Fault Environment) : Eval Unit :=
  ExceptT.mk fun ⟨env, calls⟩ =>
    match f env with
    | .ok env => .ok (.ok (), ⟨env, calls⟩)
    | .error e => .error (.fault e)

/-! ### The active calls -/

/-- Begins a call. -/
def pushCall (name : String) : Eval Unit :=
  ExceptT.mk fun ⟨env, calls⟩ =>
    match calls.push name with
    | .ok calls => .ok (.ok (), ⟨env, calls⟩)
    | .error kind => .ok (.error ⟨kind, []⟩, ⟨env, calls⟩)

/-- Ends the innermost call. -/
def popCall : Eval Unit :=
  ExceptT.mk fun ⟨env, calls⟩ =>
    match calls.pop with
    | .ok calls => .ok (.ok (), ⟨env, calls⟩)
    | .error e => .error (.fault e)

/-- The names of the active calls, innermost first. -/
def activeCalls : Eval (List String) :=
  ExceptT.mk fun m => .ok (.ok m.calls.active, m)

end Eval

end Scriptlet
