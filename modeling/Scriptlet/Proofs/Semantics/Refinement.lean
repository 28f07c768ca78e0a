import Scriptlet.Proofs.Semantics.Adequacy

/-!
# Interpreters run programs by the rules

A program runs outside all calls, so the machine holds nothing but the globals before and after each
initializer and after `main`. In between, evaluation follows the rules and reaches what they derive.
An interpreter that starts with globals only thus ends with a result and other globals exactly if
the rules derive them for the program, whatever the scoping and the limit on calls are.
-/

namespace Scriptlet

theorem Environment.defineGlobal_ofRoot (bindings : Bindings) (name : String) (value : Value) :
    (ofRoot bindings).defineGlobal name value = .ok (ofRoot (bindings.insert name value)) := by
  have hmodify := modify_push_size #[] (Scope.mk bindings none) (·.insert name value)
  exact congrArg (fun scopes => Except.ok (Environment.mk root scopes)) hmodify

namespace Reference

open Eval Filter

/-- The machine that holds nothing but globals. -/
def startMachine (limit : Option Nat) (globals : Bindings) : Machine :=
  ⟨.ofRoot globals, .empty limit⟩

variable {σ : Type} {store : Store σ} {scoping : Scoping} (l : Layout store scoping)
  {limit : Option Nat} {functions : FunctionTable} {globals globals' : Bindings}

theorem machine_top (limit : Option Nat) (globals : Bindings) :
    l.machine limit [] l.outermost (store.top globals) = startMachine limit globals := by
  rw [Layout.machine, l.environment_top]
  rfl

theorem defineGlobal_startMachine (name : String) (value : Value) :
    update (·.defineGlobal name value) (startMachine limit globals) =
      .ok (.ok (), startMachine limit (globals.insert name value)) := by
  rw [update_apply, startMachine, Environment.defineGlobal_ofRoot]
  rfl

theorem fits_top (globals : Bindings) : l.Fits l.outermost (store.top globals) :=
  l.fits_outermost.2 ⟨globals, rfl⟩

/-- Outside all calls a step that follows a meaning leaves globals only. -/
theorem Follows.startMachine {α : Type} {x : Eval α} {R : Meaning σ α} (h : Follows l limit x R)
    {r : Except EvalError α} {m' : Machine} (hx : x (startMachine limit globals) = .ok (r, m')) :
    ∃ globals', m' = Reference.startMachine limit globals' ∧
      R [] (store.top globals) r (store.top globals') := by
  rw [← machine_top l] at hx
  obtain ⟨s', hfits', rfl, hR⟩ := h _ _ _ (fits_top l globals) _ _ hx
  obtain ⟨globals', rfl⟩ := l.fits_outermost.1 hfits'
  exact ⟨globals', machine_top l limit globals', hR⟩

theorem Reaches.startMachine {α : Type} {x : Nat → Eval α} {r : Except EvalError α} {s : σ}
    (h : Reaches l limit x [] (store.top globals) r s) :
    ∀ᶠ fuel in atTop, x fuel (Reference.startMachine limit globals) =
      .ok (r, Reference.startMachine limit (store.globals s)) := by
  obtain ⟨hfits, h⟩ := h l.outermost (fits_top l globals)
  obtain ⟨globals', rfl⟩ := l.fits_outermost.1 hfits
  rw [machine_top, machine_top] at h
  rw [l.globals_top]
  exact h

/-! ### Globals -/

include l

theorem initializes_of_forM {fuel : Nat} {gs : List GlobalDecl} {r : Except EvalError Unit}
    {m' : Machine}
    (h : gs.forM (setGlobal ⟨functions, scoping⟩ fuel) (startMachine limit globals) = .ok (r, m')) :
    ∃ globals', m' = startMachine limit globals' ∧
      Initializes ⟨store, functions, limit⟩ globals gs r globals' := by
  induction gs generalizing globals with
  | nil =>
    obtain ⟨rfl, rfl⟩ := Prod.mk.inj (Except.ok.inj h)
    exact ⟨globals, rfl, .nil⟩
  | cons g gs ih =>
    rw [forM_setGlobal_cons] at h
    rcases bind_eq_ok_iff.1 h with ⟨value, m₁, hvalue, h⟩ | ⟨e, rfl, he⟩
    · obtain ⟨globals₁, rfl, hg⟩ := (follows_evaluate functions fuel _).startMachine l hvalue
      rw [bind_apply_of_ok (defineGlobal_startMachine g.name value)] at h
      obtain ⟨globals', rfl, hgs⟩ := ih h
      refine ⟨globals', rfl, .cons hg ?_⟩
      rw [l.globals_top]
      exact hgs
    · obtain ⟨globals₁, rfl, hg⟩ := (follows_evaluate functions fuel _).startMachine l he
      refine ⟨globals₁, rfl, ?_⟩
      rw [← l.globals_top globals₁]
      exact .fails hg

theorem forM_of_initializes {gs : List GlobalDecl} {r : Except EvalError Unit}
    (h : Initializes ⟨store, functions, limit⟩ globals gs r globals') :
    ∀ᶠ fuel in atTop, gs.forM (setGlobal ⟨functions, scoping⟩ fuel) (startMachine limit globals) =
      .ok (r, startMachine limit globals') := by
  induction h with
  | nil => exact .of_forall fun _ => rfl
  | cons hg _ ih =>
    filter_upwards [(reaches_of_evaluates hg).startMachine l, ih] with fuel hg hgs
    rw [forM_setGlobal_cons, bind_apply_of_ok hg,
      bind_apply_of_ok (defineGlobal_startMachine _ _), hgs]
  | fails hg =>
    filter_upwards [(reaches_of_evaluates hg).startMachine l] with fuel hg
    rw [forM_setGlobal_cons, bind_apply_of_error hg]

/-! ### Programs -/

variable {p : Program} {r : Except EvalError Value}

theorem runs_of_runProgram {fuel : Nat} {m' : Machine}
    (hfunctions : FunctionTable.ofProgram p = .ok functions)
    (h : runProgram ⟨functions, scoping⟩ fuel p (startMachine limit globals) = .ok (r, m')) :
    ∃ globals', m' = startMachine limit globals' ∧ Runs store limit globals p r globals' := by
  rcases bind_eq_ok_iff.1 h with ⟨_, m₁, hforM, h⟩ | ⟨e, rfl, hforM⟩
  · obtain ⟨globals₁, rfl, hglobals⟩ := initializes_of_forM l hforM
    dsimp only at h
    -- That `main` is missing comes to light only after the globals have their values.
    cases hmain : functions.get? "main" with
    | none =>
      rw [hmain] at h
      obtain ⟨rfl, rfl⟩ := Prod.mk.inj (Except.ok.inj h)
      exact ⟨globals₁, rfl, .missing hfunctions hglobals hmain⟩
    | some f =>
      rw [hmain] at h
      obtain ⟨globals', rfl, hcalls⟩ :=
        (follows_callFunction (follows_evaluate functions fuel) f []).startMachine l h
      refine ⟨globals', rfl, ?_⟩
      rw [← l.globals_top globals']
      exact .main hfunctions hglobals hmain hcalls
  · obtain ⟨globals', rfl, hglobals⟩ := initializes_of_forM l hforM
    exact ⟨globals', rfl, .globalFails hfunctions hglobals⟩

/-- Each end of a program is one that the rules derive. -/
theorem runs_of_steps {fuel : Nat} {m' : Machine}
    (h : (do
      let functions ← check (FunctionTable.ofProgram p)
      runProgram ⟨functions, scoping⟩ fuel p) (startMachine limit globals) = .ok (r, m')) :
    ∃ globals', m' = startMachine limit globals' ∧ Runs store limit globals p r globals' := by
  cases hfunctions : FunctionTable.ofProgram p with
  | error kind =>
    rw [hfunctions] at h
    obtain ⟨rfl, rfl⟩ := Prod.mk.inj (Except.ok.inj h)
    exact ⟨globals, rfl, .duplicate hfunctions⟩
  | ok functions =>
    rw [hfunctions] at h
    exact runs_of_runProgram l hfunctions h

/-- What the rules derive for a program is reached with all large fuels. -/
theorem steps_of_runs (h : Runs store limit globals p r globals') :
    ∀ᶠ fuel in atTop, (do
      let functions ← check (FunctionTable.ofProgram p)
      runProgram ⟨functions, scoping⟩ fuel p) (startMachine limit globals) =
        .ok (r, startMachine limit globals') := by
  cases h with
  | duplicate hfunctions =>
    rw [hfunctions]
    exact .of_forall fun _ => rfl
  | globalFails hfunctions hglobals =>
    rw [hfunctions]
    filter_upwards [forM_of_initializes l hglobals] with fuel hforM
    exact bind_apply_of_error hforM _
  | missing hfunctions hglobals hmain =>
    rw [hfunctions]
    filter_upwards [forM_of_initializes l hglobals] with fuel hforM
    refine (bind_apply_of_ok hforM _).trans ?_
    dsimp only
    rw [hmain]
    rfl
  | main hfunctions hglobals hmain hcalls =>
    rw [hfunctions]
    filter_upwards [forM_of_initializes l hglobals, (reaches_of_calls hcalls).startMachine l]
      with fuel hforM hcall
    refine (bind_apply_of_ok hforM _).trans ?_
    dsimp only
    rw [hmain]
    exact hcall

theorem run_iff_of_layout (m : Machine) :
    (∃ fuel i', Interpreter.run ⟨⟨scoping, limit, .ofRoot globals⟩, m⟩ fuel p = .ok (r, i') ∧
      i'.machine.env.scopes[Environment.root]?.map Scope.bindings = some globals') ↔
      Runs store limit globals p r globals' := by
  constructor
  · rintro ⟨fuel, i', hrun, hglobals'⟩
    obtain ⟨m', hsteps, rfl⟩ := Interpreter.perform_eq_ok_iff.1 hrun
    obtain ⟨final, rfl, hruns⟩ := runs_of_steps l hsteps
    obtain rfl := Option.some.inj hglobals'
    exact hruns
  · intro hruns
    obtain ⟨fuel, hsteps⟩ := (steps_of_runs l hruns).exists
    exact ⟨fuel, _, Interpreter.perform_eq_ok_iff.2 ⟨_, hsteps, rfl⟩, rfl⟩

end Reference

/-- An interpreter with globals only ends a program with a result and other globals exactly if the
rules derive them for the program. Under dynamic scoping the rules are about a list of frames, and
under lexical scoping about one frame and the globals. -/
theorem Interpreter.run_iff_runsUnder (scoping : Scoping) (limit : Option Nat) (globals : Bindings)
    (m : Machine) (p : Program) (r : Except EvalError Value) (globals' : Bindings) :
    (∃ fuel i', Interpreter.run ⟨⟨scoping, limit, .ofRoot globals⟩, m⟩ fuel p = .ok (r, i') ∧
      i'.machine.env.scopes[Environment.root]?.map Scope.bindings = some globals') ↔
      Reference.RunsUnder scoping limit globals p r globals' := by
  cases scoping with
  | dynamic => exact Reference.run_iff_of_layout Reference.dynamicLayout m
  | lexical => exact Reference.run_iff_of_layout Reference.lexicalLayout m

-- The two scopings differ for a function that reads a variable of its caller.
example : ∃ p : Program, Reference.RunsUnder .dynamic none ∅ p (.ok (.int 1)) ∅ ∧
    Reference.RunsUnder .lexical none ∅ p (.error ⟨.unboundIdentifier "x", ["f", "main"]⟩) ∅ := by
  refine ⟨⟨[.function ⟨"f", [], .variable "x"⟩,
    .function ⟨"main", [], .block [.assign "x" (.integer 1), .call "f" []]⟩]⟩, ?_, ?_⟩
  · exact (Reference.run_iff_of_layout Reference.dynamicLayout ⟨.empty, .empty none⟩).1
      ⟨9, _, by rfl, by rfl⟩
  · exact (Reference.run_iff_of_layout Reference.lexicalLayout ⟨.empty, .empty none⟩).1
      ⟨9, _, by rfl, by rfl⟩

end Scriptlet
