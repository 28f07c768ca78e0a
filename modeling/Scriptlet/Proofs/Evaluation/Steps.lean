import Mathlib.Control.Monad.Basic
import Scriptlet.Interpreter
import Scriptlet.Proofs.Tree.Parts

/-!
# Steps on machines

What a step on a machine can do, said once for each kind of step. Two steps in a row end as the
second does, or with an error of the first (`bind_eq_ok_iff`). A call is one equation
(`inCall_apply`): the scope is entered with the parameters bound, the body runs, and however it ends
the scope is left and the call taken off the stack.

A discipline is a property of machines together with what may happen to a machine that has it. If
looking up, assigning and calling keep a discipline, so does all evaluation (`keeps_evaluate`).
Where only some names can be looked up and assigned under it, so does the evaluation of the
expressions that have no others in them (`keeps_evaluate_of_fits`). This is the only induction on
evaluation that such proofs need.
-/

namespace Scriptlet

/-- The environment inside a call: its scope is on top, and the parameters are bound there. -/
def Environment.enterCall (env : Environment) (scoping : Scoping)
    (parameters : List (String × Value)) : Environment where
  current := env.scopes.size
  scopes := env.scopes.push
    ⟨parameters.foldl (fun frame parameter => frame.insert parameter.1 parameter.2) ∅,
      some (scoping.parent env)⟩

/-- The last element of an array is changed alone. -/
theorem modify_push_size {α : Type} (as : Array α) (a : α) (f : α → α) :
    (as.push a).modify as.size f = as.push (f a) := by
  apply Array.ext
  · rw [Array.size_modify, Array.size_push, Array.size_push]
  · intro i hi hi'
    rw [Array.size_push] at hi'
    rw [Array.getElem_modify, Array.getElem_push, Array.getElem_push]
    by_cases hlast : as.size = i
    · rw [if_pos hlast, dif_neg (by omega), dif_neg (by omega)]
    · rw [if_neg hlast, dif_pos (by omega), dif_pos (by omega)]

/-- The other elements are changed as if the last were not there. -/
theorem modify_push_of_lt {α : Type} {as : Array α} {i : Nat} (hi : i < as.size) (a : α)
    (f : α → α) : (as.push a).modify i f = (as.modify i f).push a := by
  apply Array.ext
  · rw [Array.size_modify, Array.size_push, Array.size_push, Array.size_modify]
  · intro j hj hj'
    rw [Array.size_push, Array.size_modify] at hj'
    rw [Array.getElem_modify, Array.getElem_push, Array.getElem_push]
    by_cases hlast : j = as.size
    · rw [if_neg (by omega), dif_neg (by omega), dif_neg (by rw [Array.size_modify]; omega)]
    · rw [dif_pos (by omega), dif_pos (by rw [Array.size_modify]; omega), Array.getElem_modify]

/-- Below the cut the elements are as before, and above it there are none. -/
theorem getElem?_shrink {α : Type} {as : Array α} {n : Nat} (hn : n ≤ as.size) (i : Nat) :
    (as.shrink n)[i]? = if i < n then as[i]? else none := by
  rw [Array.shrink_eq_take, Array.take_eq_extract, Array.getElem?_extract, Nat.sub_zero,
    Nat.min_eq_left hn, Nat.zero_add]

theorem EvalError.kind_withBacktrace (e : EvalError) (active : List String) :
    (e.withBacktrace active).kind = e.kind := by
  unfold withBacktrace
  split <;> rfl

/-- In the scope on top, binding a name adds to the bindings there. -/
theorem Environment.define_push (scopes : Array Scope) (scope : Scope) (name : String)
    (value : Value) : define ⟨scopes.size, scopes.push scope⟩ name value =
      .ok ⟨scopes.size, scopes.push (scope.insert name value)⟩ := by
  unfold define bindAt
  rw [modify_push_size, if_pos (by rw [Array.size_push]; exact Nat.lt_succ_self _)]

namespace Eval

variable {α β : Type} {m m' : Machine}

/-! ### Sequencing -/

/-- Two steps in a row end as the second does, or with an error of the first. -/
theorem bind_eq_ok_iff {x : Eval α} {f : α → Eval β} {r : Except EvalError β} :
    (x >>= f) m = .ok (r, m') ↔
      (∃ a m₁, x m = .ok (.ok a, m₁) ∧ f a m₁ = .ok (r, m')) ∨
        ∃ e, r = .error e ∧ x m = .ok (.error e, m') := by
  match hx : x m with
  | .error i => simp [bind_apply_of_interrupt hx]
  | .ok (.error e, m₁) =>
    rw [bind_apply_of_error hx]
    simp only [Except.ok.injEq, Prod.mk.injEq, reduceCtorEq, false_and, exists_false, false_or]
    constructor
    · rintro ⟨rfl, rfl⟩
      exact ⟨e, rfl, rfl, rfl⟩
    · rintro ⟨e', rfl, he, rfl⟩
      exact ⟨congrArg Except.error (Except.error.inj he), rfl⟩
  | .ok (.ok a, m₁) =>
    rw [bind_apply_of_ok hx]
    constructor
    · intro h
      exact .inl ⟨a, m₁, rfl, h⟩
    · rintro (⟨b, m₂, hb, h⟩ | ⟨e, -, he⟩)
      · obtain ⟨hab, rfl⟩ := Prod.mk.inj (Except.ok.inj hb)
        obtain rfl := Except.ok.inj hab
        exact h
      · cases (Prod.mk.inj (Except.ok.inj he)).1

/-- Two steps in a row are interrupted when one of them is. -/
theorem bind_eq_error_iff {x : Eval α} {f : α → Eval β} {i : Interrupt} :
    (x >>= f) m = .error i ↔
      x m = .error i ∨ ∃ a m₁, x m = .ok (.ok a, m₁) ∧ f a m₁ = .error i := by
  match hx : x m with
  | .error i' => simp [bind_apply_of_interrupt hx]
  | .ok (.error e, m₁) => simp [bind_apply_of_error hx]
  | .ok (.ok a, m₁) =>
    rw [bind_apply_of_ok hx]
    constructor
    · intro h
      exact .inr ⟨a, m₁, rfl, h⟩
    · rintro (h | ⟨b, m₂, hb, h⟩)
      · cases h
      · obtain ⟨hab, rfl⟩ := Prod.mk.inj (Except.ok.inj hb)
        obtain rfl := Except.ok.inj hab
        exact h

/-- Steps that end with a result end on some machine. -/
theorem exists_of_map_fst {σ : Type} {steps : Except Interrupt (α × σ)} {a : α}
    (h : steps.map Prod.fst = .ok a) : ∃ s, steps = .ok (a, s) := by
  cases steps with
  | error i => cases h
  | ok r =>
    obtain ⟨b, s⟩ := r
    obtain rfl := Except.ok.inj h
    exact ⟨s, rfl⟩

theorem raise_apply (kind : ErrorKind) (m : Machine) :
    (raise kind : Eval α) m = .ok (.error ⟨kind, []⟩, m) := rfl

theorem check_apply (result : Except ErrorKind α) (m : Machine) :
    check result m = .ok (result.mapError (⟨·, []⟩), m) := by
  cases result <;> rfl

theorem require_apply (missing : ErrorKind) (value : Option α) (m : Machine) :
    require missing value m =
      .ok ((value.elim (.error ⟨missing, []⟩) .ok : Except EvalError α), m) := by
  cases value <;> rfl

theorem inspect_apply (f : Environment → Except Fault α) (m : Machine) :
    inspect f m = match f m.env with
      | .ok a => .ok (.ok a, m)
      | .error e => .error (.fault e) := rfl

theorem update_apply (f : Environment → Except Fault Environment) (m : Machine) :
    update f m = match f m.env with
      | .ok env => .ok (.ok (), ⟨env, m.calls⟩)
      | .error e => .error (.fault e) := rfl

/-- An update that ends has changed the environment and nothing else. -/
theorem env_of_update {f : Environment → Except Fault Environment} {r : Except EvalError Unit}
    (h : update f m = .ok (r, m')) : f m.env = .ok m'.env ∧ m'.calls = m.calls := by
  rw [update_apply] at h
  split at h
  · rename_i env henv
    obtain ⟨-, rfl⟩ := Prod.mk.inj (Except.ok.inj h)
    exact ⟨henv, rfl⟩
  · cases h

/-- Parameters are bound one after the other in the scope on top. -/
theorem forM_define_apply (parameters : List (String × Value))
    (scopes : Array Scope) (scope : Scope) (calls : CallStack) :
    (parameters.forM fun (parameter, value) => update (·.define parameter value))
        ⟨⟨scopes.size, scopes.push scope⟩, calls⟩ =
      .ok (.ok (), ⟨⟨scopes.size, scopes.push ⟨parameters.foldl
        (fun frame parameter => frame.insert parameter.1 parameter.2) scope.bindings,
        scope.parent⟩⟩, calls⟩) := by
  induction parameters generalizing scope with
  | nil => rfl
  | cons first others ih =>
    have hfirst : update (·.define first.1 first.2) ⟨⟨scopes.size, scopes.push scope⟩, calls⟩ =
        .ok (.ok (), ⟨⟨scopes.size, scopes.push (scope.insert first.1 first.2)⟩, calls⟩) := by
      rw [update_apply, Environment.define_push]
    show (update (·.define first.1 first.2) >>= fun _ => others.forM _) _ = _
    rw [bind_apply_of_ok hfirst]
    exact ih (scope.insert first.1 first.2)

theorem pushCall_apply (name : String) (m : Machine) :
    pushCall name m = match m.calls.push name with
      | .ok calls => .ok (.ok (), ⟨m.env, calls⟩)
      | .error kind => .ok (.error ⟨kind, []⟩, m) := rfl

theorem popCall_apply (m : Machine) :
    popCall m = match m.calls.pop with
      | .ok calls => .ok (.ok (), ⟨m.env, calls⟩)
      | .error f => .error (.fault f) := rfl

theorem observe_apply (step : Eval α) (m : Machine) :
    observe step m = (step m).map fun (result, m) => (.ok result, m) := rfl

/-! ### Calls -/

/-- The end of a call, which is the same however its body ended. -/
theorem leaveCall_apply (result : Except EvalError Value) (mark : Mark) (m : Machine) :
    (do
      let active ← activeCalls
      update (·.leave mark)
      popCall
      match result with
      | .ok value => return value
      | .error e => throw (e.withBacktrace active)) m =
    match m.env.leave mark, m.calls.pop with
    | .ok left, .ok outer =>
      .ok (result.mapError (·.withBacktrace m.calls.active), ⟨left, outer⟩)
    | .error f, _ => .error (.fault f)
    | .ok _, .error f => .error (.fault f) := by
  have hactive : activeCalls m = .ok (.ok m.calls.active, m) := rfl
  have hleave := update_apply (·.leave mark) m
  rw [bind_apply_of_ok hactive]
  cases hleft : m.env.leave mark with
  | error f =>
    rw [hleft] at hleave
    rw [bind_apply_of_interrupt hleave]
  | ok left =>
    rw [hleft] at hleave
    rw [bind_apply_of_ok hleave]
    have hpop := popCall_apply ⟨left, m.calls⟩
    cases houter : m.calls.pop with
    | error f =>
      simp only [houter] at hpop
      rw [bind_apply_of_interrupt hpop]
    | ok outer =>
      simp only [houter] at hpop
      rw [bind_apply_of_ok hpop]
      cases result <;> rfl

/-- A call as one equation. -/
theorem inCall_apply (scoping : Scoping) (name : String) (parameters : List (String × Value))
    (body : Eval Value) (env : Environment) (calls : CallStack) :
    inCall scoping name parameters body ⟨env, calls⟩ =
      match calls.push name with
      | .error kind => .ok (.error ⟨kind, []⟩, ⟨env, calls⟩)
      | .ok inner =>
        match body ⟨env.enterCall scoping parameters, inner⟩ with
        | .error i => .error i
        | .ok (result, after) =>
          match after.env.leave env.mark, after.calls.pop with
          | .ok left, .ok outer =>
            .ok (result.mapError (·.withBacktrace after.calls.active), ⟨left, outer⟩)
          | .error f, _ => .error (.fault f)
          | .ok _, .error f => .error (.fault f) := by
  unfold inCall
  cases hpush : calls.push name with
  | error kind =>
    -- The call is refused before its scope is entered.
    have hfirst : pushCall name ⟨env, calls⟩ = .ok (.error ⟨kind, []⟩, ⟨env, calls⟩) := by
      rw [pushCall_apply, hpush]
    rw [bind_apply_of_error hfirst]
  | ok inner =>
    have hfirst : pushCall name ⟨env, calls⟩ = .ok (.ok (), ⟨env, inner⟩) := by
      rw [pushCall_apply, hpush]
    have henter : update (fun env => .ok (env.enter (scoping.parent env))) ⟨env, inner⟩ =
        .ok (.ok (), ⟨env.enter (scoping.parent env), inner⟩) := rfl
    have hparameters : (parameters.forM fun (parameter, value) => update (·.define parameter value))
        ⟨env.enter (scoping.parent env), inner⟩ =
        .ok (.ok (), ⟨env.enterCall scoping parameters, inner⟩) :=
      forM_define_apply parameters env.scopes ⟨∅, some (scoping.parent env)⟩ inner
    -- The body's end is observed as a value, so what follows runs for errors too.
    have hobserve := observe_apply body ⟨env.enterCall scoping parameters, inner⟩
    rw [bind_apply_of_ok hfirst, bind_apply_of_ok (inspect_apply _ _), bind_apply_of_ok henter,
      bind_apply_of_ok hparameters]
    match hbody : body ⟨env.enterCall scoping parameters, inner⟩ with
    | .error i =>
      rw [hbody] at hobserve
      rw [bind_apply_of_interrupt hobserve]
      simp only [hbody]
    | .ok (result, after) =>
      rw [hbody] at hobserve
      rw [bind_apply_of_ok hobserve]
      simp only [hbody]
      exact leaveCall_apply result env.mark after

theorem callFunction_eq (scoping : Scoping) (evaluate : Expr → Eval Value) (f : FunctionDecl)
    (arguments : List Value) :
    callFunction scoping evaluate f arguments =
      if arguments.length = f.parameters.length then
        inCall scoping f.name (f.parameters.zip arguments) (evaluate f.body)
      else
        raise (.arityMismatch f.name f.parameters.length arguments.length) := rfl

theorem bindLabel_eq (evaluate : Expr → Eval Value) (name : String) (parameters : List String)
    (bound : List (String × Value)) (argument : String × Expr) :
    bindLabel evaluate name parameters bound argument = (do
      let value ← evaluate argument.2
      if parameters.contains argument.1 && (bound.lookup argument.1).isNone then
        pure (bound ++ [(argument.1, value)])
      else
        raise (.invalidLabel name argument.1)) := rfl

theorem labelledArguments_eq (evaluate : Expr → Eval Value) (name : String)
    (parameters : List String) (arguments : List (String × Expr)) :
    labelledArguments evaluate name parameters arguments = (do
      let bound ← arguments.foldlM (bindLabel evaluate name parameters) []
      if arguments.length = parameters.length then
        pure (parameters.filterMap fun parameter => bound.lookup parameter)
      else
        raise (.arityMismatch name parameters.length arguments.length)) := rfl

/-! ### Programs -/

/-- Gives one global its first value. -/
def setGlobal (ctx : Context) (fuel : Nat) (g : GlobalDecl) : Eval Unit := do
  let value ← evaluate ctx fuel g.initializer
  update (·.defineGlobal g.name value)

theorem forM_setGlobal_cons (ctx : Context) (fuel : Nat) (g : GlobalDecl) (gs : List GlobalDecl) :
    (g :: gs).forM (setGlobal ctx fuel) = (do
      let value ← evaluate ctx fuel g.initializer
      update (·.defineGlobal g.name value)
      gs.forM (setGlobal ctx fuel)) := by
  show (setGlobal ctx fuel g >>= fun _ => gs.forM (setGlobal ctx fuel)) = _
  rw [setGlobal, bind_assoc]

theorem runProgram_eq (ctx : Context) (fuel : Nat) (p : Program) :
    runProgram ctx fuel p = (do
      p.globals.forM (setGlobal ctx fuel)
      let main ← require .missingEntryPoint (ctx.functions.get? "main")
      callFunction ctx.scoping (evaluate ctx fuel) main []) := rfl

end Eval

/-- The ends of steps that an interpreter performs are those of the steps on its machine. -/
theorem Interpreter.perform_eq_ok_iff {α : Type} {i i' : Interpreter} {steps : Eval α}
    {r : Except EvalError α} :
    i.perform steps = .ok (r, i') ↔ ∃ m', steps i.machine = .ok (r, m') ∧
      i' = ⟨i.settings, m'⟩ := by
  unfold perform
  constructor
  · intro h
    match hsteps : steps i.machine with
    | .error interrupt =>
      rw [hsteps] at h
      cases h
    | .ok (result, m') =>
      rw [hsteps] at h
      obtain ⟨rfl, rfl⟩ := Prod.mk.inj (Except.ok.inj h)
      exact ⟨m', rfl, rfl⟩
  · rintro ⟨m', hsteps, rfl⟩
    rw [hsteps]
    rfl

theorem Interpreter.perform_eq_error_iff {α : Type} {i : Interpreter} {steps : Eval α}
    {interrupt : Interrupt} :
    i.perform steps = .error interrupt ↔ steps i.machine = .error interrupt := by
  unfold perform
  cases steps i.machine <;> simp [Except.map]

/-- A run with a function table is the run of the program with it. -/
theorem Interpreter.run_of_functions {p : Program} {functions : FunctionTable}
    {settings : Settings} {fuel : Nat} (hfunctions : FunctionTable.ofProgram p = .ok functions)
    (m : Machine) :
    run ⟨settings, m⟩ fuel p = perform ⟨settings, settings.machine⟩
      (Eval.runProgram ⟨functions, settings.scoping⟩ fuel p) := by
  unfold run
  rw [hfunctions]
  rfl

/-! ### Disciplines -/

/-- A property of machines, and what may happen to a machine that has it. -/
structure Discipline where
  valid : Machine → Prop
  allows : Machine → Machine → Prop
  refl : ∀ m, allows m m
  trans : ∀ {m₁ m₂ m₃}, allows m₁ m₂ → allows m₂ m₃ → allows m₁ m₃

namespace Eval

variable {d : Discipline}

/-- On a valid machine the step does not fault. However it ends, it leaves a valid machine, and only
what is allowed has happened to it. -/
def Keeps (d : Discipline) (x : Eval α) : Prop :=
  ∀ m, d.valid m → (∀ f, x m ≠ .error (.fault f)) ∧
    ∀ r m', x m = .ok (r, m') → d.valid m' ∧ d.allows m m'

/-- A step that ends with the machine as it was keeps every discipline. -/
theorem keeps_of_apply_eq {x : Eval α} (h : ∀ m, ∃ r, x m = .ok (r, m)) : Keeps d x := by
  intro m hm
  obtain ⟨r, hr⟩ := h m
  rw [hr]
  refine ⟨nofun, fun r' m' heq => ?_⟩
  obtain ⟨-, rfl⟩ := Prod.mk.inj (Except.ok.inj heq)
  exact ⟨hm, d.refl m⟩

theorem keeps_pure (a : α) : Keeps d (pure a) :=
  keeps_of_apply_eq fun m => ⟨.ok a, pure_apply a m⟩

theorem keeps_raise (kind : ErrorKind) : Keeps d (raise kind : Eval α) :=
  keeps_of_apply_eq fun m => ⟨_, raise_apply kind m⟩

theorem keeps_check (result : Except ErrorKind α) : Keeps d (check result) :=
  keeps_of_apply_eq fun m => ⟨_, check_apply result m⟩

theorem keeps_require (missing : ErrorKind) (value : Option α) : Keeps d (require missing value) :=
  keeps_of_apply_eq fun m => ⟨_, require_apply missing value m⟩

theorem keeps_outOfFuel : Keeps d (outOfFuel : Eval α) :=
  fun _ _ => ⟨nofun, nofun⟩

theorem Keeps.bind {x : Eval α} {f : α → Eval β} (hx : Keeps d x) (hf : ∀ a, Keeps d (f a)) :
    Keeps d (x >>= f) := by
  intro m hm
  obtain ⟨hfault, hend⟩ := hx m hm
  constructor
  · intro fault h
    rcases bind_eq_error_iff.1 h with h | ⟨a, m₁, ha, h⟩
    · exact hfault fault h
    · exact (hf a m₁ (hend _ _ ha).1).1 fault h
  · intro r m' h
    rcases bind_eq_ok_iff.1 h with ⟨a, m₁, ha, h⟩ | ⟨e, rfl, he⟩
    · obtain ⟨hm₁, hallows⟩ := hend _ _ ha
      obtain ⟨hm', hallows'⟩ := (hf a m₁ hm₁).2 _ _ h
      exact ⟨hm', d.trans hallows hallows'⟩
    · exact hend _ _ he

/-- What follows a required value may rely on the value being there. -/
theorem keeps_require_bind {missing : ErrorKind} {value : Option α} {f : α → Eval β}
    (hf : ∀ a, value = some a → Keeps d (f a)) : Keeps d (require missing value >>= f) := by
  cases value with
  | none =>
    exact keeps_of_apply_eq fun m => ⟨_, bind_apply_of_error (require_apply missing none m) f⟩
  | some a => exact hf a rfl

theorem Keeps.mapM {f : α → Eval β} {as : List α} (hf : ∀ a ∈ as, Keeps d (f a)) :
    Keeps d (as.mapM f) := by
  induction as with
  | nil => exact keeps_pure []
  | cons a as ih =>
    obtain ⟨ha, has⟩ := List.forall_mem_cons.1 hf
    rw [List.mapM_cons]
    exact ha.bind fun _ => (ih has).bind fun _ => keeps_pure _

theorem Keeps.foldlM {f : β → α → Eval β} {as : List α} (hf : ∀ a ∈ as, ∀ b, Keeps d (f b a))
    (b : β) : Keeps d (as.foldlM f b) := by
  induction as generalizing b with
  | nil => exact keeps_pure b
  | cons a as ih =>
    obtain ⟨ha, has⟩ := List.forall_mem_cons.1 hf
    rw [List.foldlM_cons]
    exact (ha b).bind (ih has)

theorem Keeps.forM {f : α → Eval Unit} {as : List α} (hf : ∀ a ∈ as, Keeps d (f a)) :
    Keeps d (as.forM f) := by
  induction as with
  | nil => exact keeps_pure ()
  | cons a as ih =>
    obtain ⟨ha, has⟩ := List.forall_mem_cons.1 hf
    exact ha.bind fun _ => ih has

/-- Steps that keep a discipline do so for the interpreter that performs them. -/
theorem Keeps.perform {steps : Eval α} (hsteps : Keeps d steps) {i : Interpreter}
    (hvalid : d.valid i.machine) :
    (∀ f, i.perform steps ≠ .error (.fault f)) ∧
      ∀ r i', i.perform steps = .ok (r, i') →
        i'.settings = i.settings ∧ d.allows i.machine i'.machine := by
  obtain ⟨hfault, hend⟩ := hsteps i.machine hvalid
  refine ⟨fun f h => hfault f (Interpreter.perform_eq_error_iff.1 h), fun r i' h => ?_⟩
  obtain ⟨m', hrun, rfl⟩ := Interpreter.perform_eq_ok_iff.1 h
  exact ⟨rfl, (hend r m' hrun).2⟩

section Evaluate

variable {ctx : Context} {eval : Expr → Eval Value}

theorem keeps_callFunction {f : FunctionDecl} {arguments : List Value}
    (hcall : Keeps d (inCall ctx.scoping f.name (f.parameters.zip arguments) (eval f.body))) :
    Keeps d (callFunction ctx.scoping eval f arguments) := by
  rw [callFunction_eq]
  split
  · exact hcall
  · exact keeps_raise _

theorem keeps_bindLabel {argument : String × Expr} (heval : Keeps d (eval argument.2))
    (name : String) (parameters : List String) (bound : List (String × Value)) :
    Keeps d (bindLabel eval name parameters bound argument) := by
  rw [bindLabel_eq]
  refine heval.bind fun value => ?_
  split
  · exact keeps_pure _
  · exact keeps_raise _

theorem keeps_labelledArguments {arguments : List (String × Expr)}
    (heval : ∀ e ∈ arguments.map Prod.snd, Keeps d (eval e)) (name : String)
    (parameters : List String) : Keeps d (labelledArguments eval name parameters arguments) := by
  have hbind (argument) (hargument : argument ∈ arguments) :=
    keeps_bindLabel (heval _ (List.mem_map_of_mem hargument)) name parameters
  rw [labelledArguments_eq]
  refine (Keeps.foldlM hbind []).bind fun bound => ?_
  split
  · exact keeps_pure _
  · exact keeps_raise _

section Fitting

variable (fits : Expr → Prop) (hparts : ∀ e, fits e → ∀ part ∈ e.children, fits part)
  (hlookup : ∀ name, fits (.variable name) → Keeps d (inspect (·.lookup name)))
  (hassign : ∀ name e value, fits (.assign name e) → Keeps d (update (·.assign name value)))
  (hcall : ∀ e fuel name f arguments, fits e → e.callee? = some name →
    ctx.functions.get? name = some f → (fits f.body → Keeps d (evaluate ctx fuel f.body)) →
    Keeps d (inCall ctx.scoping f.name (f.parameters.zip arguments) (evaluate ctx fuel f.body)))

include hparts hlookup hassign hcall

/-- Evaluation of the expressions that fit keeps a discipline, if looking up and assigning the names
that stand in them do, and the calls of the functions that they name. -/
theorem keeps_evaluate_of_fits (fuel : Nat) (e : Expr) (he : fits e) :
    Keeps d (evaluate ctx fuel e) := by
  induction fuel generalizing e with
  | zero => exact keeps_outOfFuel
  | succ fuel ih =>
    have hchild (part) (hpart : part ∈ e.children) := ih part (hparts e he part hpart)
    have hfunction (name f arguments) (hname : e.callee? = some name)
        (hf : ctx.functions.get? name = some f) :
        Keeps d (callFunction ctx.scoping (evaluate ctx fuel) f arguments) :=
      keeps_callFunction (hcall e fuel name f arguments he hname hf (ih f.body))
    cases e with
    | integer n => exact keeps_pure _
    | boolean b => exact keeps_pure _
    | «variable» name => exact (hlookup name he).bind fun _ => keeps_require _ _
    | array items => exact (Keeps.mapM hchild).bind fun _ => keeps_pure _
    | binary op left right =>
      exact (hchild left (by simp [Expr.children])).bind fun _ =>
        (hchild right (by simp [Expr.children])).bind fun _ => keeps_check _
    | call name arguments =>
      exact keeps_require_bind fun f hf => (Keeps.mapM hchild).bind fun _ =>
        hfunction name f _ rfl hf
    | labelledCall name arguments =>
      exact keeps_require_bind fun f hf =>
        (keeps_labelledArguments hchild name f.parameters).bind fun _ => hfunction name f _ rfl hf
    | assign name e =>
      exact (hchild e (by simp [Expr.children])).bind fun value =>
        (hassign name e value he).bind fun _ => keeps_pure _
    | block statements => exact Keeps.foldlM (fun s hs _ => hchild s hs) _
    | ifThen condition consequence =>
      refine (hchild condition (by simp [Expr.children])).bind fun value =>
        (keeps_check _).bind fun holds => ?_
      split
      · exact hchild consequence (by simp [Expr.children])
      · exact keeps_pure _
    | ifElse condition consequence alternative =>
      refine (hchild condition (by simp [Expr.children])).bind fun value =>
        (keeps_check _).bind fun holds => ?_
      split
      · exact hchild consequence (by simp [Expr.children])
      · exact hchild alternative (by simp [Expr.children])
    | loop condition body =>
      refine (hchild condition (by simp [Expr.children])).bind fun value =>
        (keeps_check _).bind fun holds => ?_
      split
      · -- The loop begins again with less fuel, and fits as before.
        exact (hchild body (by simp [Expr.children])).bind fun _ => ih _ he
      · exact keeps_pure _

end Fitting

/-- Evaluation keeps a discipline that looking up, assigning and calling keep. -/
theorem keeps_evaluate (hlookup : ∀ name, Keeps d (inspect (·.lookup name)))
    (hassign : ∀ name value, Keeps d (update (·.assign name value)))
    (hcall : ∀ name parameters body, Keeps d body →
      Keeps d (inCall ctx.scoping name parameters body))
    (fuel : Nat) (e : Expr) : Keeps d (evaluate ctx fuel e) := by
  refine keeps_evaluate_of_fits (fun _ => True) ?_ ?_ ?_ ?_ fuel e trivial
  · exact fun _ _ _ _ => trivial
  · exact fun name _ => hlookup name
  · exact fun name _ value _ => hassign name value
  · exact fun _ _ _ f _ _ _ _ hbody => hcall f.name _ _ (hbody trivial)

end Evaluate

end Eval

end Scriptlet
