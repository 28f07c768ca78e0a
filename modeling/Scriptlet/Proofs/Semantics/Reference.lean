import Scriptlet.Evaluation.Evaluate

/-!
# The meaning of programs

What programs do, as rules and without places of scopes. Stores say what scoping means: under
dynamic scoping a store is the list of the frames of the active calls, innermost first, and under
lexical scoping it is the frame of the innermost call together with the globals. The rules are the
same for both, since they use a store only to look up, to assign, and to go into a call and back.

A rule has the form `Evaluates L active s e r s'`: with the calls `active` and the store `s`, the
tree `e` has the result `r`, a value or an error with its backtrace, and leaves the store `s'`.
There is no rule for a tree whose evaluation does not end.
-/

namespace Scriptlet

namespace Reference

/-! ### Stores -/

/-- What scoping means. -/
structure Store (σ : Type) where
  /-- The value of a name. -/
  lookup : σ → String → Option Value
  /-- Gives a name a value. -/
  assign : σ → String → Value → σ
  /-- The store inside a call with these parameters, from the caller's. -/
  enter : σ → Bindings → σ
  /-- The store after a call, from the caller's before the call and the one at the end of the
  body. -/
  leave : σ → σ → σ
  /-- The store outside all calls. -/
  top : Bindings → σ
  /-- The globals. -/
  globals : σ → Bindings

/-- Gives a name a value in the first frame that binds it, if any does. -/
def rebind (name : String) (value : Value) : List Bindings → Option (List Bindings)
  | [] => none
  | frame :: outer =>
    if frame.contains name then
      some (frame.insert name value :: outer)
    else
      (rebind name value outer).map (frame :: ·)

/-- Frames, innermost first. A name means the binding in the first frame that has one. It is
assigned there, or else in the innermost frame. -/
def dynamicStore : Store (List Bindings) where
  lookup frames name := frames.findSome? (·[name]?)
  assign frames name value :=
    (rebind name value frames).getD (frames.modifyHead (·.insert name value))
  enter frames parameters := parameters :: frames
  leave _ frames := frames.tail
  top globals := [globals]
  globals frames := frames.getLast?.getD ∅

/-- The frame of the innermost call, if any, and the globals. -/
structure Frames where
  locals : Option Bindings
  globals : Bindings

/-- Outside all calls the globals are the only frame. -/
def lexicalStore : Store Frames where
  lookup s name := (s.locals.bind (·[name]?)).or s.globals[name]?
  assign s name value :=
    match s.locals with
    | none => ⟨none, s.globals.insert name value⟩
    | some frame =>
      if !frame.contains name && s.globals.contains name then
        ⟨some frame, s.globals.insert name value⟩
      else
        ⟨some (frame.insert name value), s.globals⟩
  enter s parameters := ⟨some parameters, s.globals⟩
  leave before after := ⟨before.locals, after.globals⟩
  top globals := ⟨none, globals⟩
  globals s := s.globals

/-! ### Expressions and statements -/

/-- What the rules depend on. -/
structure Setting (σ : Type) where
  store : Store σ
  functions : FunctionTable
  /-- The largest number of active calls; `none` where there is no limit. -/
  limit : Option Nat

/-- The result of an error that arises here. -/
def raised {α : Type} (kind : ErrorKind) : Except EvalError α :=
  .error ⟨kind, []⟩

/-- The result of an operation on values. -/
def checked {α : Type} (result : Except ErrorKind α) : Except EvalError α :=
  result.mapError (⟨·, []⟩)

/-- The frame in which the parameters are bound, later ones in front of earlier ones. -/
def frameOf (parameters : List (String × Value)) : Bindings :=
  parameters.foldl (fun frame parameter => frame.insert parameter.1 parameter.2) ∅

variable {σ : Type}

mutual

/-- The result of a tree and the store that it leaves. -/
inductive Evaluates (L : Setting σ) :
    List String → σ → Expr → Except EvalError Value → σ → Prop
  | integer {active s n} : Evaluates L active s (.integer n) (.ok (.int n)) s
  | boolean {active s b} : Evaluates L active s (.boolean b) (.ok (.bool b)) s
  | bound {active s name value} :
    L.store.lookup s name = some value → Evaluates L active s (.variable name) (.ok value) s
  | unbound {active s name} :
    L.store.lookup s name = none →
    Evaluates L active s (.variable name) (raised (.unboundIdentifier name)) s
  | array {active s s' items r} :
    EvaluatesAll L active s items r s' → Evaluates L active s (.array items) (r.map .array) s'
  | binary {active s s₁ s₂ op left right a b} :
    Evaluates L active s left (.ok a) s₁ → Evaluates L active s₁ right (.ok b) s₂ →
    Evaluates L active s (.binary op left right) (checked (op.apply a b)) s₂
  | leftFails {active s s₁ op left right e} :
    Evaluates L active s left (.error e) s₁ →
    Evaluates L active s (.binary op left right) (.error e) s₁
  | rightFails {active s s₁ s₂ op left right a e} :
    Evaluates L active s left (.ok a) s₁ → Evaluates L active s₁ right (.error e) s₂ →
    Evaluates L active s (.binary op left right) (.error e) s₂
  | call {active s s₁ s₂ name f arguments values r} :
    L.functions.get? name = some f → EvaluatesAll L active s arguments (.ok values) s₁ →
    Calls L active s₁ f values r s₂ → Evaluates L active s (.call name arguments) r s₂
  | argumentFails {active s s₁ name f arguments e} :
    L.functions.get? name = some f → EvaluatesAll L active s arguments (.error e) s₁ →
    Evaluates L active s (.call name arguments) (.error e) s₁
  | undefined {active s name arguments} :
    L.functions.get? name = none →
    Evaluates L active s (.call name arguments) (raised (.undefinedFunction name)) s
  | labelledCall {active s s₁ s₂ name f arguments bound r} :
    L.functions.get? name = some f →
    Labels L active s name f.parameters [] arguments (.ok bound) s₁ →
    arguments.length = f.parameters.length →
    Calls L active s₁ f (f.parameters.filterMap fun parameter => bound.lookup parameter) r s₂ →
    Evaluates L active s (.labelledCall name arguments) r s₂
  | labelFails {active s s₁ name f arguments e} :
    L.functions.get? name = some f →
    Labels L active s name f.parameters [] arguments (.error e) s₁ →
    Evaluates L active s (.labelledCall name arguments) (.error e) s₁
  | labelsMissing {active s s₁ name f arguments bound} :
    L.functions.get? name = some f →
    Labels L active s name f.parameters [] arguments (.ok bound) s₁ →
    arguments.length ≠ f.parameters.length →
    Evaluates L active s (.labelledCall name arguments)
      (raised (.arityMismatch name f.parameters.length arguments.length)) s₁
  | labelledUndefined {active s name arguments} :
    L.functions.get? name = none →
    Evaluates L active s (.labelledCall name arguments) (raised (.undefinedFunction name)) s
  | assign {active s s₁ name e value} :
    Evaluates L active s e (.ok value) s₁ →
    Evaluates L active s (.assign name e) (.ok value) (L.store.assign s₁ name value)
  | assignFails {active s s₁ name e error} :
    Evaluates L active s e (.error error) s₁ →
    Evaluates L active s (.assign name e) (.error error) s₁
  | block {active s s₁ statements r} :
    Executes L active s .unit statements r s₁ → Evaluates L active s (.block statements) r s₁
  | ifThenTrue {active s s₁ s₂ condition consequence r} :
    Decides L active s condition (.ok true) s₁ → Evaluates L active s₁ consequence r s₂ →
    Evaluates L active s (.ifThen condition consequence) r s₂
  | ifThenFalse {active s s₁ condition consequence} :
    Decides L active s condition (.ok false) s₁ →
    Evaluates L active s (.ifThen condition consequence) (.ok .unit) s₁
  | ifThenFails {active s s₁ condition consequence e} :
    Decides L active s condition (.error e) s₁ →
    Evaluates L active s (.ifThen condition consequence) (.error e) s₁
  | ifElseTrue {active s s₁ s₂ condition consequence alternative r} :
    Decides L active s condition (.ok true) s₁ → Evaluates L active s₁ consequence r s₂ →
    Evaluates L active s (.ifElse condition consequence alternative) r s₂
  | ifElseFalse {active s s₁ s₂ condition consequence alternative r} :
    Decides L active s condition (.ok false) s₁ → Evaluates L active s₁ alternative r s₂ →
    Evaluates L active s (.ifElse condition consequence alternative) r s₂
  | ifElseFails {active s s₁ condition consequence alternative e} :
    Decides L active s condition (.error e) s₁ →
    Evaluates L active s (.ifElse condition consequence alternative) (.error e) s₁
  | loopTrue {active s s₁ s₂ s₃ condition body value r} :
    Decides L active s condition (.ok true) s₁ → Evaluates L active s₁ body (.ok value) s₂ →
    Evaluates L active s₂ (.loop condition body) r s₃ →
    Evaluates L active s (.loop condition body) r s₃
  | loopFalse {active s s₁ condition body} :
    Decides L active s condition (.ok false) s₁ →
    Evaluates L active s (.loop condition body) (.ok (.bool true)) s₁
  | loopFails {active s s₁ condition body e} :
    Decides L active s condition (.error e) s₁ →
    Evaluates L active s (.loop condition body) (.error e) s₁
  | bodyFails {active s s₁ s₂ condition body e} :
    Decides L active s condition (.ok true) s₁ → Evaluates L active s₁ body (.error e) s₂ →
    Evaluates L active s (.loop condition body) (.error e) s₂

/-- The truth value of a condition. -/
inductive Decides (L : Setting σ) : List String → σ → Expr → Except EvalError Bool → σ → Prop
  | value {active s s₁ condition value} :
    Evaluates L active s condition (.ok value) s₁ →
    Decides L active s condition (checked value.asBool) s₁
  | fails {active s s₁ condition e} :
    Evaluates L active s condition (.error e) s₁ → Decides L active s condition (.error e) s₁

/-- The values of trees, from left to right. -/
inductive EvaluatesAll (L : Setting σ) :
    List String → σ → List Expr → Except EvalError (List Value) → σ → Prop
  | nil {active s} : EvaluatesAll L active s [] (.ok []) s
  | cons {active s s₁ s₂ e es value values} :
    Evaluates L active s e (.ok value) s₁ → EvaluatesAll L active s₁ es (.ok values) s₂ →
    EvaluatesAll L active s (e :: es) (.ok (value :: values)) s₂
  | firstFails {active s s₁ e es error} :
    Evaluates L active s e (.error error) s₁ → EvaluatesAll L active s (e :: es) (.error error) s₁
  | restFails {active s s₁ s₂ e es value error} :
    Evaluates L active s e (.ok value) s₁ → EvaluatesAll L active s₁ es (.error error) s₂ →
    EvaluatesAll L active s (e :: es) (.error error) s₂

/-- The values of labelled arguments, from left to right and after those that are bound already.
Each label is checked after its argument. -/
inductive Labels (L : Setting σ) : List String → σ → String → List String → List (String × Value) →
    List (String × Expr) → Except EvalError (List (String × Value)) → σ → Prop
  | nil {active s name parameters bound} : Labels L active s name parameters bound [] (.ok bound) s
  | cons {active s s₁ s₂ name parameters bound label e arguments value r} :
    Evaluates L active s e (.ok value) s₁ → label ∈ parameters → bound.lookup label = none →
    Labels L active s₁ name parameters (bound ++ [(label, value)]) arguments r s₂ →
    Labels L active s name parameters bound ((label, e) :: arguments) r s₂
  | fails {active s s₁ name parameters bound label e arguments error} :
    Evaluates L active s e (.error error) s₁ →
    Labels L active s name parameters bound ((label, e) :: arguments) (.error error) s₁
  | invalid {active s s₁ name parameters bound label e arguments value} :
    Evaluates L active s e (.ok value) s₁ → ¬ (label ∈ parameters ∧ bound.lookup label = none) →
    Labels L active s name parameters bound ((label, e) :: arguments)
      (raised (.invalidLabel name label)) s₁

/-- The value of the last of some statements, or a given value where there is none. -/
inductive Executes (L : Setting σ) :
    List String → σ → Value → List Expr → Except EvalError Value → σ → Prop
  | nil {active s last} : Executes L active s last [] (.ok last) s
  | cons {active s s₁ s₂ last e es value r} :
    Evaluates L active s e (.ok value) s₁ → Executes L active s₁ value es r s₂ →
    Executes L active s last (e :: es) r s₂
  | fails {active s s₁ last e es error} :
    Evaluates L active s e (.error error) s₁ → Executes L active s last (e :: es) (.error error) s₁

/-- The result of a function for values of its parameters. An error that leaves the body takes the
active calls with it. -/
inductive Calls (L : Setting σ) :
    List String → σ → FunctionDecl → List Value → Except EvalError Value → σ → Prop
  | arity {active s f values} :
    values.length ≠ f.parameters.length →
    Calls L active s f values (raised (.arityMismatch f.name f.parameters.length values.length)) s
  | exhausted {active s f values limit} :
    values.length = f.parameters.length → L.limit = some limit → limit ≤ active.length →
    Calls L active s f values (raised (.stackExhausted limit)) s
  | body {active s s₁ f values r} :
    values.length = f.parameters.length → (∀ limit, L.limit = some limit → active.length < limit) →
    Evaluates L (f.name :: active)
      (L.store.enter s (frameOf (f.parameters.zip values))) f.body r s₁ →
    Calls L active s f values (r.mapError (·.withBacktrace (f.name :: active)))
      (L.store.leave s s₁)

end

/-! ### Programs -/

/-- The globals after they have their first values. -/
inductive Initializes (L : Setting σ) :
    Bindings → List GlobalDecl → Except EvalError Unit → Bindings → Prop
  | nil {globals} : Initializes L globals [] (.ok ()) globals
  | cons {globals globals' g gs value s r} :
    Evaluates L [] (L.store.top globals) g.initializer (.ok value) s →
    Initializes L ((L.store.globals s).insert g.name value) gs r globals' →
    Initializes L globals (g :: gs) r globals'
  | fails {globals g gs e s} :
    Evaluates L [] (L.store.top globals) g.initializer (.error e) s →
    Initializes L globals (g :: gs) (.error e) (L.store.globals s)

/-- The result of a program and the globals that it leaves. -/
inductive Runs (store : Store σ) (limit : Option Nat) :
    Bindings → Program → Except EvalError Value → Bindings → Prop
  | duplicate {globals p kind} :
    FunctionTable.ofProgram p = .error kind → Runs store limit globals p (raised kind) globals
  | globalFails {globals globals' p functions e} :
    FunctionTable.ofProgram p = .ok functions →
    Initializes ⟨store, functions, limit⟩ globals p.globals (.error e) globals' →
    Runs store limit globals p (.error e) globals'
  | missing {globals globals' p functions} :
    FunctionTable.ofProgram p = .ok functions →
    Initializes ⟨store, functions, limit⟩ globals p.globals (.ok ()) globals' →
    functions.get? "main" = none → Runs store limit globals p (raised .missingEntryPoint) globals'
  | main {globals globals' p functions f r s} :
    FunctionTable.ofProgram p = .ok functions →
    Initializes ⟨store, functions, limit⟩ globals p.globals (.ok ()) globals' →
    functions.get? "main" = some f →
    Calls ⟨store, functions, limit⟩ [] (store.top globals') f [] r s →
    Runs store limit globals p r (store.globals s)

/-- The result of a program under either scoping, and the globals that it leaves. -/
def RunsUnder (scoping : Scoping) (limit : Option Nat) (globals : Bindings) (p : Program)
    (r : Except EvalError Value) (globals' : Bindings) : Prop :=
  match scoping with
  | .dynamic => Runs dynamicStore limit globals p r globals'
  | .lexical => Runs lexicalStore limit globals p r globals'

end Reference

end Scriptlet
