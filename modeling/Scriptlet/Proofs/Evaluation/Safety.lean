import Scriptlet.Proofs.Evaluation.BoundNames
import Scriptlet.Proofs.Evaluation.Slots

/-!
# No fault is ever reached

Faults are the broken promises of evaluation: a scope that is not there, scopes left out of order, a
call ended that was not begun. Nothing catches them, so that one at any depth is the end of the
whole run. In a well-formed environment neither programs nor expressions meet one, and since scopes
and calls are restored, neither does what comes after them (`keeps_restoring_runProgram`).

Three promises are kept by how evaluation is written, on all machines. The scope that a name was
found in is there (`lookup_eq_lookupOr`), each labelled argument has its slot
(`labelledArguments_eq_slotArguments`), and of the two kinds of operators each has an answer to
every operator that is sent to it (`apply_eq_applyByKind`). They are stated with a trap for the case
that the promise is broken, and evaluation is the same whatever the trap is.
-/

namespace Scriptlet

/-! ### The scope of a name -/

namespace Environment

/-- The value of a name, read from the scope that `find` gives. What happens if there is no such
scope is the `trap`. -/
def lookupOr (trap : Except Fault (Option Value)) (env : Environment) (name : String) :
    Except Fault (Option Value) := do
  match ← env.find name with
  | none => return none
  | some owner =>
    match env.scopes[owner]? with
    | none => trap
    | some scope => return scope.bindings[name]?

/-- The scope that binds a name is there, in every environment. -/
theorem lookup_eq_lookupOr (trap : Except Fault (Option Value)) (env : Environment)
    (name : String) : env.lookup name = env.lookupOr trap name := by
  unfold lookup lookupOr
  match hfind : env.find name with
  | .error fault => rfl
  | .ok none => rfl
  | .ok (some owner) =>
    have hlt : owner < env.scopes.size := lt_size_of_binds (binds_of_findFrom hfind)
    have hscope : env.scopes[owner]? = some env.scopes[owner] := Array.getElem?_eq_getElem hlt
    show Except.ok (env.scopes[owner]? >>= fun scope => scope.bindings[name]?) =
      match env.scopes[owner]? with
      | none => trap
      | some scope => pure scope.bindings[name]?
    rw [hscope]
    rfl

end Environment

/-! ### The two kinds of operators -/

namespace Operator

/-- What an arithmetic operator computes. A comparison has no case here. -/
def compute? (a b : Int) : Operator → Option (Except ErrorKind Value)
  | add => some (Value.exact "addition" (a + b))
  | subtract => some (Value.exact "subtraction" (a - b))
  | multiply => some (Value.exact "multiplication" (a * b))
  | divide => some (if b = 0 then .error .divisionByZero else Value.exact "division" (a.tdiv b))
  | _ => none

/-- What a comparison tells. An arithmetic operator has no case here. -/
def compare? (a b : Int) : Operator → Option Bool
  | lessThan => some (a < b)
  | lessOrEqual => some (a ≤ b)
  | greaterThan => some (b < a)
  | greaterOrEqual => some (b ≤ a)
  | equal => some (a = b)
  | notEqual => some (a ≠ b)
  | _ => none

/-- An operator on two values, by its kind. What happens at an operator without a case is the
`trap`. -/
def applyByKind (trap : Except ErrorKind Value) (op : Operator) (left right : Value) :
    Except ErrorKind Value := do
  let a ← left.asInt
  let b ← right.asInt
  if op.isComparison then
    (op.compare? a.toInt b.toInt).elim trap fun holds => .ok (.bool holds)
  else
    (op.compute? a.toInt b.toInt).getD trap

/-- Every operator has a case in its kind. -/
theorem apply_eq_applyByKind (trap : Except ErrorKind Value) (op : Operator) (left right : Value) :
    op.apply left right = op.applyByKind trap left right := by
  have hints (a b : Integer) : op.applyInt a.toInt b.toInt =
      if op.isComparison then
        (op.compare? a.toInt b.toInt).elim trap fun holds => .ok (.bool holds)
      else
        (op.compute? a.toInt b.toInt).getD trap := by
    cases op <;> rfl
  unfold apply applyByKind
  simp only [hints]

end Operator

/-! ### Programs -/

namespace Eval

open Environment

theorem keeps_defineGlobal (name : String) (value : Value) :
    Keeps restoring (update (·.defineGlobal name value)) := by
  intro m hm
  have hroot : root < m.env.scopes.size := Nat.zero_lt_of_lt hm.current_lt
  obtain ⟨env, henv, hshape⟩ := sameShape_bindAt hroot name value
  have hdefine : m.env.defineGlobal name value = .ok env := henv
  rw [update_apply, hdefine]
  refine ⟨nofun, fun r m' h => ?_⟩
  obtain ⟨-, rfl⟩ := Prod.mk.inj (Except.ok.inj h)
  exact ⟨hshape.wellFormed hm, hshape, rfl⟩

/-- A whole program restores scopes and calls: the globals are bound in a scope that was there, and
`main` is a call like any other. -/
theorem keeps_restoring_runProgram (ctx : Context) (fuel : Nat) (p : Program) :
    Keeps restoring (runProgram ctx fuel p) := by
  have hglobal (g : GlobalDecl) : Keeps restoring (setGlobal ctx fuel g) :=
    (keeps_restoring_evaluate ctx fuel g.initializer).bind fun value =>
      keeps_defineGlobal g.name value
  rw [runProgram_eq]
  refine (Keeps.forM fun g _ => hglobal g).bind fun _ => (keeps_require _ _).bind fun main => ?_
  exact keeps_callFunction (keeps_inCall _ _ _ _ (keeps_restoring_evaluate ctx fuel main.body))

end Eval

namespace Interpreter

open Environment Eval

variable {i : Interpreter}

/-- A run leaves the scopes of the seed and no active call. -/
theorem run_of_wellFormed (hseed : i.settings.seed.WellFormed) (fuel : Nat) (p : Program) :
    (∀ f, i.run fuel p ≠ .error (.fault f)) ∧
      ∀ r i', i.run fuel p = .ok (r, i') → i'.settings = i.settings ∧
        SameShape i.settings.seed i'.machine.env ∧
        i'.machine.calls = .empty i.settings.callLimit := by
  have hsteps : Keeps restoring (do
      let functions ← check (FunctionTable.ofProgram p)
      runProgram ⟨functions, i.settings.scoping⟩ fuel p) :=
    (keeps_check _).bind fun functions => keeps_restoring_runProgram _ fuel p
  exact hsteps.perform (i := ⟨i.settings, i.settings.machine⟩) hseed

theorem evaluate_of_wellFormed (hwf : i.machine.env.WellFormed) (fuel : Nat)
    (functions : FunctionTable) (e : Expr) :
    (∀ f, i.evaluate fuel functions e ≠ .error (.fault f)) ∧
      ∀ r i', i.evaluate fuel functions e = .ok (r, i') → i'.settings = i.settings ∧
        SameShape i.machine.env i'.machine.env ∧ i'.machine.calls = i.machine.calls :=
  (keeps_restoring_evaluate ⟨functions, i.settings.scoping⟩ fuel e).perform hwf

/-- In well-formed environments neither a run nor an evaluation ever meets a fault, and they leave a
well-formed environment for what comes after them. On all machines, a variable is read from a scope
that is there, an operator has a case in its kind, and a labelled argument has its slot: whatever
the traps are, evaluation is the same. -/
theorem never_faults (i : Interpreter) (hseed : i.settings.seed.WellFormed)
    (henv : i.machine.env.WellFormed) :
    (∀ (fuel : Nat) (p : Program), (∀ f, i.run fuel p ≠ .error (.fault f)) ∧
      ∀ r i', i.run fuel p = .ok (r, i') →
        i'.settings = i.settings ∧ i'.machine.env.WellFormed) ∧
    (∀ (fuel : Nat) (functions : FunctionTable) (e : Expr),
      (∀ f, i.evaluate fuel functions e ≠ .error (.fault f)) ∧
      ∀ r i', i.evaluate fuel functions e = .ok (r, i') →
        i'.settings = i.settings ∧ i'.machine.env.WellFormed) ∧
    ∀ (ctx : Context) (fuel : Nat),
      (∀ (trap : Except Fault (Option Value)) (name : String),
        Eval.evaluate ctx (fuel + 1) (.variable name) = do
          require (.unboundIdentifier name) (← inspect (·.lookupOr trap name))) ∧
      (∀ (trap : Except ErrorKind Value) (op : Operator) (left right : Expr),
        Eval.evaluate ctx (fuel + 1) (.binary op left right) = do
          let a ← Eval.evaluate ctx fuel left
          let b ← Eval.evaluate ctx fuel right
          check (op.applyByKind trap a b)) ∧
      ∀ (trap : Eval Slots) (name : String) (arguments : List (String × Expr)),
        Eval.evaluate ctx (fuel + 1) (.labelledCall name arguments) = (do
          let f ← require (.undefinedFunction name) (ctx.functions.get? name)
          let values ← slotArguments trap (Eval.evaluate ctx fuel) name f.parameters arguments
          callFunction ctx.scoping (Eval.evaluate ctx fuel) f values) := by
  refine ⟨fun fuel p => ?_, fun fuel functions e => ?_, fun ctx fuel => ⟨fun trap name => ?_,
    fun trap op left right => ?_, fun trap name arguments => ?_⟩⟩
  · obtain ⟨hfault, hend⟩ := run_of_wellFormed hseed fuel p
    refine ⟨hfault, fun r i' hrun => ?_⟩
    obtain ⟨hsettings, hshape, -⟩ := hend r i' hrun
    exact ⟨hsettings, hshape.wellFormed hseed⟩
  · obtain ⟨hfault, hend⟩ := evaluate_of_wellFormed henv fuel functions e
    refine ⟨hfault, fun r i' hrun => ?_⟩
    obtain ⟨hsettings, hshape, -⟩ := hend r i' hrun
    exact ⟨hsettings, hshape.wellFormed henv⟩
  · simp only [← lookup_eq_lookupOr]
    rfl
  · simp only [← Operator.apply_eq_applyByKind]
    rfl
  · simp only [← labelledArguments_eq_slotArguments]
    rfl

end Interpreter

/-- From a scope above the root, labelled arguments in another order than the parameters reach a
division by zero two calls deep, and no fault. In an environment without its current scope the same
interpreter does meet one. -/
theorem never_faults_labelled_call :
    ∃ (i broken : Interpreter) (p : Program), i.settings.seed.WellFormed ∧
      i.settings.seed.current = 1 ∧
      Program.parse "define f(a, b) \x7ba / b;\x7d define main() \x7bf[b = zero, a = one];\x7d" =
        .ok p ∧
      (∃ i', i.run 9 p = .ok (.error ⟨.divisionByZero, ["f", "main"]⟩, i') ∧
        i'.machine.env.WellFormed) ∧
      (∀ fuel fault, i.run fuel p ≠ .error (.fault fault)) ∧
      broken.settings = i.settings ∧
      broken.evaluate 9 .empty (.variable "zero") = .error (.fault .danglingScope) := by
  let inner : Bindings := ((∅ : Bindings).insert "zero" (.int 0)).insert "one" (.int 1)
  let env : Environment := ⟨1, #[⟨∅, none⟩, ⟨inner, some 0⟩]⟩
  let i : Interpreter := .ofSettings ⟨.dynamic, some 2, env⟩
  let p : Program :=
    ⟨[.function ⟨"f", ["a", "b"], .block [.binary .divide (.variable "a") (.variable "b")]⟩,
      .function ⟨"main", [],
        .block [.labelledCall "f" [("b", .variable "zero"), ("a", .variable "one")]]⟩]⟩
  have hwf : env.WellFormed :=
    Environment.wellFormed_push (Environment.wellFormed_ofRoot ∅) inner Nat.zero_lt_one
  obtain ⟨i', hrun⟩ : ∃ i', i.run 9 p = .ok (.error ⟨.divisionByZero, ["f", "main"]⟩, i') :=
    ⟨_, rfl⟩
  obtain ⟨hruns, -, -⟩ := Interpreter.never_faults i hwf hwf
  obtain ⟨-, hend⟩ := hruns 9 p
  exact ⟨i, ⟨i.settings, ⟨⟨5, env.scopes⟩, .empty none⟩⟩, p, hwf, rfl, rfl,
    ⟨i', hrun, (hend _ i' hrun).2⟩, fun fuel => (hruns fuel p).1, rfl, rfl⟩

end Scriptlet
