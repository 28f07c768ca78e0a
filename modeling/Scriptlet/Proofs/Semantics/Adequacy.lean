import Mathlib.Order.Filter.AtTopBot.Basic
import Scriptlet.Proofs.Semantics.Simulation

/-!
# Evaluation reaches what the rules derive

Steps that take fuel reach a result if they end with it for all large fuels. Fuels that are large
enough for each part of a derivation are large enough for the whole, so the induction on derivations
(`reaches_of_evaluates`) does not have to add up how much fuel the parts take.

With the other direction, evaluation ends with a result exactly if the rules derive it.
-/

namespace Scriptlet

namespace Reference

open Eval Filter

variable {σ α β : Type} {store : Store σ} {scoping : Scoping} {l : Layout store scoping}
  {limit : Option Nat} {active : List String} {s s₁ s' : σ}

/-- For all large fuels the steps have the result and leave the store. -/
def Reaches (l : Layout store scoping) (limit : Option Nat) (x : Nat → Eval α) : Meaning σ α :=
  fun active s r s' => ∀ k, l.Fits k s → l.Fits k s' ∧
    ∀ᶠ fuel in atTop, x fuel (l.machine limit active k s) = .ok (r, l.machine limit active k s')

/-! ### Sequencing -/

/-- A step that changes nothing. -/
theorem reaches_result {x : Eval α} {r : Except EvalError α} (h : ∀ m, x m = .ok (r, m)) :
    Reaches l limit (fun _ => x) active s r s :=
  fun _ hfits => ⟨hfits, .of_forall fun _ => h _⟩

theorem reaches_pure (a : α) : Reaches l limit (fun _ => pure a) active s (.ok a) s :=
  reaches_result (pure_apply a)

theorem reaches_raise (kind : ErrorKind) :
    Reaches l limit (fun _ => (raise kind : Eval α)) active s (raised kind) s :=
  reaches_result (raise_apply kind)

theorem reaches_check (result : Except ErrorKind α) :
    Reaches l limit (fun _ => check result) active s (checked result) s :=
  reaches_result (check_apply result)

theorem reaches_require {missing : ErrorKind} {value : Option α} {a : α} (h : value = some a) :
    Reaches l limit (fun _ => require missing value) active s (.ok a) s := by
  subst h
  exact reaches_result (require_apply missing (some a))

theorem reaches_require_none {missing : ErrorKind} {value : Option α} (h : value = none) :
    Reaches l limit (fun _ => require missing value) active s (raised missing) s := by
  subst h
  exact reaches_result (require_apply missing none)

theorem Reaches.bind {x : Nat → Eval α} {f : Nat → α → Eval β} {a : α} {r : Except EvalError β}
    (hx : Reaches l limit x active s (.ok a) s₁)
    (hf : Reaches l limit (fun fuel => f fuel a) active s₁ r s') :
    Reaches l limit (fun fuel => x fuel >>= f fuel) active s r s' := by
  intro k hfits
  obtain ⟨hfits₁, hx⟩ := hx k hfits
  obtain ⟨hfits', hf⟩ := hf k hfits₁
  refine ⟨hfits', ?_⟩
  filter_upwards [hx, hf] with fuel hx hf
  rw [bind_apply_of_ok hx, hf]

theorem Reaches.bind_error {x : Nat → Eval α} {e : EvalError}
    (hx : Reaches l limit x active s (.error e) s₁) (f : Nat → α → Eval β) :
    Reaches l limit (fun fuel => x fuel >>= f fuel) active s (.error e) s₁ := by
  intro k hfits
  obtain ⟨hfits₁, hx⟩ := hx k hfits
  refine ⟨hfits₁, ?_⟩
  filter_upwards [hx] with fuel hx
  rw [bind_apply_of_error hx]

/-- What is reached with one less is reached. -/
theorem Reaches.succ {x : Nat → Eval α} {r : Except EvalError α}
    (h : Reaches l limit (fun fuel => x (fuel + 1)) active s r s') :
    Reaches l limit x active s r s' := by
  intro k hfits
  obtain ⟨hfits', h⟩ := h k hfits
  refine ⟨hfits', ?_⟩
  rw [← map_add_atTop_eq_nat 1, eventually_map]
  exact h

theorem reaches_lookup_eq {name : String} {value : Option Value} (h : store.lookup s name = value) :
    Reaches l limit (fun _ => inspect (·.lookup name)) active s (.ok value) s := by
  subst h
  exact fun _ hfits => ⟨hfits, .of_forall fun _ => lookup_machine hfits name⟩

theorem reaches_assign (name : String) (value : Value) :
    Reaches l limit (fun _ => update (·.assign name value)) active s (.ok ())
      (store.assign s name value) :=
  fun _ hfits =>
    ⟨(l.assign hfits name value).2, .of_forall fun _ => assign_machine hfits name value⟩

theorem Reaches.inCall {name : String} {parameters : List (String × Value)}
    {body : Nat → Eval Value} {r : Except EvalError Value}
    (hlimit : ∀ n, limit = some n → active.length < n)
    (h : Reaches l limit body (name :: active) (store.enter s (frameOf parameters)) r s₁) :
    Reaches l limit (fun fuel => Eval.inCall scoping name parameters (body fuel)) active s
      (r.mapError (·.withBacktrace (name :: active))) (store.leave s s₁) := by
  intro k hfits
  obtain ⟨hfits₁, h⟩ := h (l.inside k s) (l.enter hfits parameters).2
  refine ⟨(l.leave hfits hfits₁).2, ?_⟩
  filter_upwards [h] with fuel h
  exact inCall_machine_of_body hfits hlimit hfits₁ h

/-- A choice between two steps by the value of a condition. -/
theorem Reaches.branch {x yes no : Nat → Eval Value} {holds : Bool} {r : Except EvalError Value}
    (hcondition : Reaches l limit (fun fuel => x fuel >>= fun value => check value.asBool)
      active s (.ok holds) s₁)
    (h : Reaches l limit (fun fuel => if holds then yes fuel else no fuel) active s₁ r s') :
    Reaches l limit (fun fuel => do if ← check (← x fuel).asBool then yes fuel else no fuel)
      active s r s' := by
  have hbranch := hcondition.bind (f := fun fuel holds => if holds then yes fuel else no fuel) h
  simp only [bind_assoc] at hbranch
  exact hbranch

theorem Reaches.branch_error {x yes no : Nat → Eval Value} {e : EvalError}
    (hcondition : Reaches l limit (fun fuel => x fuel >>= fun value => check value.asBool)
      active s (.error e) s') :
    Reaches l limit (fun fuel => do if ← check (← x fuel).asBool then yes fuel else no fuel)
      active s (.error e) s' := by
  have hbranch := hcondition.bind_error fun fuel holds => if holds then yes fuel else no fuel
  simp only [bind_assoc] at hbranch
  exact hbranch

section Labels

variable {eval : Nat → Expr → Eval Value} {name label : String} {parameters : List String}
  {bound : List (String × Value)} {e : Expr} {value : Value}

theorem reaches_bindLabel (he : Reaches l limit (eval · e) active s (.ok value) s')
    (hlabel : label ∈ parameters) (hbound : bound.lookup label = none) :
    Reaches l limit (fun fuel => bindLabel (eval fuel) name parameters bound (label, e)) active s
      (.ok (bound ++ [(label, value)])) s' := by
  have hcheck : (parameters.contains label && (bound.lookup label).isNone) = true := by
    simp [hlabel, hbound]
  simp only [bindLabel_eq, hcheck]
  exact he.bind (reaches_pure _)

theorem reaches_bindLabel_invalid (he : Reaches l limit (eval · e) active s (.ok value) s')
    (hinvalid : ¬ (label ∈ parameters ∧ bound.lookup label = none)) :
    Reaches l limit (fun fuel => bindLabel (eval fuel) name parameters bound (label, e)) active s
      (raised (.invalidLabel name label)) s' := by
  have hcheck : (parameters.contains label && (bound.lookup label).isNone) = false := by
    simpa using hinvalid
  simp only [bindLabel_eq, hcheck]
  exact he.bind (reaches_raise _)

variable {arguments : List (String × Expr)}

theorem reaches_labelledArguments (hlength : arguments.length = parameters.length)
    (h : Reaches l limit (fun fuel => arguments.foldlM (bindLabel (eval fuel) name parameters) [])
      active s (.ok bound) s') :
    Reaches l limit (fun fuel => labelledArguments (eval fuel) name parameters arguments) active s
      (.ok (parameters.filterMap fun parameter => bound.lookup parameter)) s' := by
  simp only [labelledArguments_eq, if_pos hlength]
  exact h.bind (reaches_pure _)

theorem reaches_labelledArguments_missing (hlength : arguments.length ≠ parameters.length)
    (h : Reaches l limit (fun fuel => arguments.foldlM (bindLabel (eval fuel) name parameters) [])
      active s (.ok bound) s') :
    Reaches l limit (fun fuel => labelledArguments (eval fuel) name parameters arguments) active s
      (raised (.arityMismatch name parameters.length arguments.length)) s' := by
  simp only [labelledArguments_eq, if_neg hlength]
  exact h.bind (reaches_raise _)

theorem reaches_labelledArguments_error {error : EvalError}
    (h : Reaches l limit (fun fuel => arguments.foldlM (bindLabel (eval fuel) name parameters) [])
      active s (.error error) s') :
    Reaches l limit (fun fuel => labelledArguments (eval fuel) name parameters arguments) active s
      (.error error) s' := by
  simp only [labelledArguments_eq]
  exact h.bind_error _

end Labels

/-! ### Derivations -/

variable {functions : FunctionTable}

mutual

/-- Evaluation reaches what the rules derive. -/
theorem reaches_of_evaluates {active : List String} {s s' : σ} {e : Expr}
    {r : Except EvalError Value} (h : Evaluates ⟨store, functions, limit⟩ active s e r s') :
    Reaches l limit (evaluate ⟨functions, scoping⟩ · e) active s r s' := by
  apply Reaches.succ
  -- The recursion is on the derivation, and each rule is the row of steps that evaluation takes.
  match h with
  | .integer => exact reaches_pure _
  | .boolean => exact reaches_pure _
  | .bound hlookup => exact (reaches_lookup_eq hlookup).bind (reaches_pure _)
  | .unbound hlookup => exact (reaches_lookup_eq hlookup).bind (reaches_raise _)
  | .array hitems (r := r) =>
    have hall := reaches_of_evaluatesAll hitems
    cases r with
    | ok values => exact hall.bind (reaches_pure _)
    | error e => exact hall.bind_error _
  | .binary hleft hright =>
    exact (reaches_of_evaluates hleft).bind ((reaches_of_evaluates hright).bind (reaches_check _))
  | .leftFails hleft => exact (reaches_of_evaluates hleft).bind_error _
  | .rightFails hleft hright =>
    exact (reaches_of_evaluates hleft).bind ((reaches_of_evaluates hright).bind_error _)
  | .call hf harguments hcalls =>
    exact (reaches_require hf).bind
      ((reaches_of_evaluatesAll harguments).bind (reaches_of_calls hcalls))
  | .argumentFails hf harguments =>
    exact (reaches_require hf).bind ((reaches_of_evaluatesAll harguments).bind_error _)
  | .undefined hf => exact (reaches_require_none hf).bind_error _
  | .labelledCall hf hlabels hlength hcalls =>
    exact (reaches_require hf).bind
      ((reaches_labelledArguments hlength (reaches_of_labels hlabels)).bind
        (reaches_of_calls hcalls))
  | .labelFails hf hlabels =>
    exact (reaches_require hf).bind
      ((reaches_labelledArguments_error (reaches_of_labels hlabels)).bind_error _)
  | .labelsMissing hf hlabels hlength =>
    exact (reaches_require hf).bind
      ((reaches_labelledArguments_missing hlength (reaches_of_labels hlabels)).bind_error _)
  | .labelledUndefined hf => exact (reaches_require_none hf).bind_error _
  | .assign he =>
    exact (reaches_of_evaluates he).bind ((reaches_assign _ _).bind (reaches_pure _))
  | .assignFails he => exact (reaches_of_evaluates he).bind_error _
  | .block h => exact reaches_of_executes h
  | .ifThenTrue hcondition h =>
    exact (reaches_of_decides hcondition).branch (reaches_of_evaluates h)
  | .ifThenFalse hcondition => exact (reaches_of_decides hcondition).branch (reaches_pure _)
  | .ifThenFails hcondition => exact (reaches_of_decides hcondition).branch_error
  | .ifElseTrue hcondition h =>
    exact (reaches_of_decides hcondition).branch (reaches_of_evaluates h)
  | .ifElseFalse hcondition h =>
    exact (reaches_of_decides hcondition).branch (reaches_of_evaluates h)
  | .ifElseFails hcondition => exact (reaches_of_decides hcondition).branch_error
  | .loopTrue hcondition hbody hloop =>
    exact (reaches_of_decides hcondition).branch
      ((reaches_of_evaluates hbody).bind (reaches_of_evaluates hloop))
  | .loopFalse hcondition => exact (reaches_of_decides hcondition).branch (reaches_pure _)
  | .loopFails hcondition => exact (reaches_of_decides hcondition).branch_error
  | .bodyFails hcondition hbody =>
    exact (reaches_of_decides hcondition).branch ((reaches_of_evaluates hbody).bind_error _)

theorem reaches_of_decides {active : List String} {s s' : σ} {e : Expr}
    {r : Except EvalError Bool} (h : Decides ⟨store, functions, limit⟩ active s e r s') :
    Reaches l limit (fun fuel => evaluate ⟨functions, scoping⟩ fuel e >>= fun value =>
      check value.asBool) active s r s' := by
  match h with
  | .value he => exact (reaches_of_evaluates he).bind (reaches_check _)
  | .fails he => exact (reaches_of_evaluates he).bind_error _

theorem reaches_of_evaluatesAll {active : List String} {s s' : σ} {es : List Expr}
    {r : Except EvalError (List Value)}
    (h : EvaluatesAll ⟨store, functions, limit⟩ active s es r s') :
    Reaches l limit (fun fuel => es.mapM (evaluate ⟨functions, scoping⟩ fuel)) active s r s' := by
  match h with
  | .nil => exact reaches_pure _
  | .cons he hes =>
    simp only [List.mapM_cons]
    exact (reaches_of_evaluates he).bind ((reaches_of_evaluatesAll hes).bind (reaches_pure _))
  | .firstFails he =>
    simp only [List.mapM_cons]
    exact (reaches_of_evaluates he).bind_error _
  | .restFails he hes =>
    simp only [List.mapM_cons]
    exact (reaches_of_evaluates he).bind ((reaches_of_evaluatesAll hes).bind_error _)

theorem reaches_of_labels {active : List String} {s s' : σ} {name : String}
    {parameters : List String} {bound : List (String × Value)} {arguments : List (String × Expr)}
    {r : Except EvalError (List (String × Value))}
    (h : Labels ⟨store, functions, limit⟩ active s name parameters bound arguments r s') :
    Reaches l limit (fun fuel => arguments.foldlM
      (bindLabel (evaluate ⟨functions, scoping⟩ fuel) name parameters) bound) active s r s' := by
  match h with
  | .nil => exact reaches_pure _
  | .cons he hlabel hbound h =>
    simp only [List.foldlM_cons]
    exact (reaches_bindLabel (reaches_of_evaluates he) hlabel hbound).bind (reaches_of_labels h)
  | .fails he =>
    simp only [List.foldlM_cons]
    exact ((reaches_of_evaluates he).bind_error _).bind_error _
  | .invalid he hinvalid =>
    simp only [List.foldlM_cons]
    exact (reaches_bindLabel_invalid (reaches_of_evaluates he) hinvalid).bind_error _

theorem reaches_of_executes {active : List String} {s s' : σ} {last : Value} {es : List Expr}
    {r : Except EvalError Value}
    (h : Executes ⟨store, functions, limit⟩ active s last es r s') :
    Reaches l limit (fun fuel => es.foldlM
      (fun _ e => evaluate ⟨functions, scoping⟩ fuel e) last) active s r s' := by
  match h with
  | .nil => exact reaches_pure _
  | .cons he hes =>
    simp only [List.foldlM_cons]
    exact (reaches_of_evaluates he).bind (reaches_of_executes hes)
  | .fails he =>
    simp only [List.foldlM_cons]
    exact (reaches_of_evaluates he).bind_error _

theorem reaches_of_calls {active : List String} {s s' : σ} {f : FunctionDecl} {values : List Value}
    {r : Except EvalError Value} (h : Calls ⟨store, functions, limit⟩ active s f values r s') :
    Reaches l limit (fun fuel => callFunction scoping (evaluate ⟨functions, scoping⟩ fuel) f values)
      active s r s' := by
  simp only [callFunction_eq]
  match h with
  | .arity harity =>
    simp only [if_neg harity]
    exact reaches_raise _
  | .exhausted harity hlimit hle =>
    simp only [if_pos harity]
    -- No fuel is needed to refuse a call.
    exact fun _ hfits => ⟨hfits, .of_forall fun _ => inCall_machine_of_le hlimit hle _ _ _⟩
  | .body harity hlimit hbody =>
    simp only [if_pos harity]
    exact (reaches_of_evaluates hbody).inCall hlimit

end

end Reference

end Scriptlet
