import Scriptlet.Proofs.Semantics.Layout

/-!
# Evaluation follows the rules

On a machine that holds a store, evaluation does what the rules say about the store. The steps that
touch the environment do so by the laws of the layout, calls included (`inCall_machine_of_body`).

A step follows a meaning if each of its ends on such a machine is an end that the meaning has for
the store. Steps in a row follow their meanings in a row (`Follows.bind`), so that evaluation
follows the rules by induction on the fuel (`follows_evaluate`): each kind of tree is a row of
steps, and the ways in which the row can end are the rules for that kind.
-/

namespace Scriptlet

/-- A call begins where the limit is not reached. -/
theorem CallStack.push_of_lt {active : List String} {limit : Option Nat}
    (h : ∀ n, limit = some n → active.length < n) (name : String) :
    push ⟨active, limit⟩ name = .ok ⟨name :: active, limit⟩ := by
  unfold push
  cases limit with
  | none => rfl
  | some n => exact if_pos (h n rfl)

theorem CallStack.push_of_le {active : List String} {n : Nat} (h : n ≤ active.length)
    (name : String) : push ⟨active, some n⟩ name = .error (.stackExhausted n) :=
  if_neg (Nat.not_lt.2 h)

namespace Reference

open Eval

variable {σ α β : Type} {store : Store σ} {scoping : Scoping}

/-- The machine that holds a store at a place. -/
def Layout.machine (l : Layout store scoping) (limit : Option Nat) (active : List String)
    (k : l.Place) (s : σ) : Machine :=
  ⟨l.environment k s, ⟨active, limit⟩⟩

variable {l : Layout store scoping} {limit : Option Nat} {active : List String}
  {k : l.Place} {s : σ}

/-! ### Steps on a machine that holds a store -/

theorem lookup_machine (h : l.Fits k s) (name : String) :
    inspect (·.lookup name) (l.machine limit active k s) =
      .ok (.ok (store.lookup s name), l.machine limit active k s) := by
  rw [inspect_apply, Layout.machine, l.lookup h]

theorem assign_machine (h : l.Fits k s) (name : String) (value : Value) :
    update (·.assign name value) (l.machine limit active k s) =
      .ok (.ok (), l.machine limit active k (store.assign s name value)) := by
  rw [update_apply, Layout.machine, (l.assign h name value).1]
  rfl

theorem inCall_machine_of_le {n : Nat} (hlimit : limit = some n) (h : n ≤ active.length)
    (name : String) (parameters : List (String × Value)) (body : Eval Value) :
    inCall scoping name parameters body (l.machine limit active k s) =
      .ok (raised (.stackExhausted n), l.machine limit active k s) := by
  subst hlimit
  rw [Layout.machine, inCall_apply, CallStack.push_of_le h]
  rfl

/-- A call is not interrupted only if its body is not. -/
theorem body_of_inCall_machine (hfits : l.Fits k s)
    (hlimit : ∀ n, limit = some n → active.length < n) {name : String}
    {parameters : List (String × Value)} {body : Eval Value} {r : Except EvalError Value}
    {m' : Machine}
    (h : inCall scoping name parameters body (l.machine limit active k s) = .ok (r, m')) :
    ∃ r₁ m₁, body (l.machine limit (name :: active) (l.inside k s)
      (store.enter s (frameOf parameters))) = .ok (r₁, m₁) := by
  rw [Layout.machine, inCall_apply, CallStack.push_of_lt hlimit] at h
  dsimp only at h
  rw [(l.enter hfits parameters).1] at h
  match hbody : body (l.machine limit (name :: active) (l.inside k s)
      (store.enter s (frameOf parameters))) with
  | .ok (r₁, m₁) => exact ⟨r₁, m₁, rfl⟩
  | .error i =>
    rw [Layout.machine] at hbody
    rw [hbody] at h
    cases h

/-- A call ends as its body does, in the store that leaving the call gives. -/
theorem inCall_machine_of_body (hfits : l.Fits k s)
    (hlimit : ∀ n, limit = some n → active.length < n) {name : String}
    {parameters : List (String × Value)} {body : Eval Value} {r : Except EvalError Value} {s₁ : σ}
    (hfits₁ : l.Fits (l.inside k s) s₁)
    (h : body (l.machine limit (name :: active) (l.inside k s)
        (store.enter s (frameOf parameters))) =
      .ok (r, l.machine limit (name :: active) (l.inside k s) s₁)) :
    inCall scoping name parameters body (l.machine limit active k s) =
      .ok (r.mapError (·.withBacktrace (name :: active)),
        l.machine limit active k (store.leave s s₁)) := by
  unfold Layout.machine at h ⊢
  rw [inCall_apply, CallStack.push_of_lt hlimit]
  dsimp only
  rw [(l.enter hfits parameters).1, h]
  dsimp only
  rw [(l.leave hfits hfits₁).1]
  rfl

/-! ### From evaluation to the rules -/

/-- What a step means: its result and the store that it leaves, for each list of active calls and
each store. -/
abbrev Meaning (σ α : Type) := List String → σ → Except EvalError α → σ → Prop

/-- A result that leaves the store as it is. -/
def Meaning.result (r : Except EvalError α) : Meaning σ α :=
  fun _ s r' s' => r' = r ∧ s' = s

/-- One meaning after the other, or an error of the first. -/
def Meaning.bind (R : Meaning σ α) (S : α → Meaning σ β) : Meaning σ β := fun active s r s' =>
  (∃ a s₁, R active s (.ok a) s₁ ∧ S a active s₁ r s') ∨ ∃ e, r = .error e ∧
    R active s (.error e) s'

/-- On a machine that holds a store, each end of the step is one that the meaning has. -/
def Follows (l : Layout store scoping) (limit : Option Nat) (x : Eval α) (R : Meaning σ α) : Prop :=
  ∀ active k s, l.Fits k s → ∀ r m', x (l.machine limit active k s) = .ok (r, m') →
    ∃ s', l.Fits k s' ∧ m' = l.machine limit active k s' ∧ R active s r s'

theorem Follows.mono {x : Eval α} {R S : Meaning σ α} (h : Follows l limit x R)
    (hRS : ∀ active s r s', R active s r s' → S active s r s') : Follows l limit x S := by
  intro active k s hfits r m' hx
  obtain ⟨s', hfits', rfl, hR⟩ := h active k s hfits r m' hx
  exact ⟨s', hfits', rfl, hRS _ _ _ _ hR⟩

/-- A step that changes nothing. -/
theorem follows_result {x : Eval α} {r : Except EvalError α} (h : ∀ m, x m = .ok (r, m)) :
    Follows l limit x (.result r) := by
  intro active k s hfits r' m' hx
  rw [h] at hx
  obtain ⟨rfl, rfl⟩ := Prod.mk.inj (Except.ok.inj hx)
  exact ⟨s, hfits, rfl, rfl, rfl⟩

theorem Follows.bind {x : Eval α} {f : α → Eval β} {R : Meaning σ α} {S : α → Meaning σ β}
    (hx : Follows l limit x R) (hf : ∀ a, Follows l limit (f a) (S a)) :
    Follows l limit (x >>= f) (R.bind S) := by
  intro active k s hfits r m' h
  rcases bind_eq_ok_iff.1 h with ⟨a, m₁, ha, h⟩ | ⟨e, rfl, he⟩
  · obtain ⟨s₁, hfits₁, rfl, hR⟩ := hx active k s hfits _ _ ha
    obtain ⟨s', hfits', rfl, hS⟩ := hf a active k s₁ hfits₁ _ _ h
    exact ⟨s', hfits', rfl, .inl ⟨a, s₁, hR, hS⟩⟩
  · obtain ⟨s', hfits', rfl, hR⟩ := hx active k s hfits _ _ he
    exact ⟨s', hfits', rfl, .inr ⟨e, rfl, hR⟩⟩

theorem follows_pure (a : α) : Follows l limit (pure a) (.result (.ok a)) :=
  follows_result (pure_apply a)

theorem follows_raise (kind : ErrorKind) :
    Follows l limit (raise kind : Eval α) (.result (raised kind)) :=
  follows_result (raise_apply kind)

theorem follows_check (result : Except ErrorKind α) :
    Follows l limit (check result) (.result (checked result)) :=
  follows_result (check_apply result)

theorem follows_require (missing : ErrorKind) (value : Option α) :
    Follows l limit (require missing value) fun _ s r s' =>
      s' = s ∧ ((∃ a, value = some a ∧ r = .ok a) ∨ value = none ∧ r = raised missing) := by
  refine (follows_result (require_apply missing value)).mono ?_
  rintro active s r s' ⟨rfl, rfl⟩
  cases value with
  | none => exact ⟨rfl, .inr ⟨rfl, rfl⟩⟩
  | some a => exact ⟨rfl, .inl ⟨a, rfl, rfl⟩⟩

section

variable {functions : FunctionTable} {eval : Expr → Eval Value}
  (heval : ∀ e, Follows l limit (eval e) fun active s =>
    Evaluates ⟨store, functions, limit⟩ active s e)

include heval

theorem follows_mapM (es : List Expr) :
    Follows l limit (es.mapM eval) fun active s =>
      EvaluatesAll ⟨store, functions, limit⟩ active s es := by
  induction es with
  | nil =>
    refine (follows_pure []).mono ?_
    rintro active s _ _ ⟨rfl, rfl⟩
    exact .nil
  | cons e es ih =>
    rw [List.mapM_cons]
    refine ((heval e).bind fun _ => ih.bind fun _ => follows_pure _).mono ?_
    rintro active s r s' (⟨value, s₁, he, ⟨values, s₂, hes, rfl, rfl⟩ | ⟨error, rfl, hes⟩⟩ |
      ⟨error, rfl, he⟩)
    · exact .cons he hes
    · exact .restFails he hes
    · exact .firstFails he

theorem follows_foldlM_bindLabel (name : String) (parameters : List String)
    (bound : List (String × Value)) (arguments : List (String × Expr)) :
    Follows l limit (arguments.foldlM (bindLabel eval name parameters) bound) fun active s =>
      Labels ⟨store, functions, limit⟩ active s name parameters bound arguments := by
  induction arguments generalizing bound with
  | nil =>
    refine (follows_pure bound).mono ?_
    rintro active s _ _ ⟨rfl, rfl⟩
    exact .nil
  | cons argument arguments ih =>
    obtain ⟨label, e⟩ := argument
    rw [List.foldlM_cons, bindLabel_eq, bind_assoc]
    -- Whether the label is valid does not depend on the store.
    by_cases hvalid : label ∈ parameters ∧ bound.lookup label = none
    · have hcheck : (parameters.contains label && (bound.lookup label).isNone) = true := by
        simpa using hvalid
      simp only [hcheck, if_true]
      refine ((heval e).bind fun value => ih (bound ++ [(label, value)])).mono ?_
      rintro active s r s' (⟨value, s₁, he, hrest⟩ | ⟨error, rfl, he⟩)
      · exact .cons he hvalid.1 hvalid.2 hrest
      · exact .fails he
    · have hcheck : (parameters.contains label && (bound.lookup label).isNone) = false := by
        simpa using hvalid
      simp only [hcheck]
      refine ((heval e).bind fun value => (follows_raise _).bind fun _ => ih _).mono ?_
      rintro active s r s' (⟨value, s₁, he, ⟨_, _, ⟨hr, -⟩, -⟩ | ⟨error, rfl, hr, rfl⟩⟩ |
        ⟨error, rfl, he⟩)
      · cases hr
      · rw [hr]
        exact .invalid he hvalid
      · exact .fails he

theorem follows_foldlM (last : Value) (es : List Expr) :
    Follows l limit (es.foldlM (fun _ e => eval e) last) fun active s =>
      Executes ⟨store, functions, limit⟩ active s last es := by
  induction es generalizing last with
  | nil =>
    refine (follows_pure last).mono ?_
    rintro active s _ _ ⟨rfl, rfl⟩
    exact .nil
  | cons e es ih =>
    rw [List.foldlM_cons]
    refine ((heval e).bind ih).mono ?_
    rintro active s r s' (⟨value, s₁, he, hes⟩ | ⟨error, rfl, he⟩)
    · exact .cons he hes
    · exact .fails he

/-- A choice between two steps by the value of a condition. -/
theorem follows_branch (condition : Expr) {yes no : Eval Value} {R S : Meaning σ Value}
    (hyes : Follows l limit yes R) (hno : Follows l limit no S) :
    Follows l limit (do if ← check (← eval condition).asBool then yes else no)
      fun active s r s' =>
        (∃ s₁, Decides ⟨store, functions, limit⟩ active s condition (.ok true) s₁ ∧
          R active s₁ r s') ∨
        (∃ s₁, Decides ⟨store, functions, limit⟩ active s condition (.ok false) s₁ ∧
          S active s₁ r s') ∨
        ∃ e, r = .error e ∧
          Decides ⟨store, functions, limit⟩ active s condition (.error e) s' := by
  -- Which branch is taken is known only after the check, so both are followed.
  have hbranch (holds : Bool) : Follows l limit (if holds then yes else no)
      (if holds then R else S) := by
    cases holds with
    | true => exact hyes
    | false => exact hno
  refine ((heval condition).bind fun _ => (follows_check _).bind hbranch).mono ?_
  rintro active s r s' (⟨value, s₁, he, ⟨holds, s₂, ⟨hholds, rfl⟩, h⟩ | ⟨e, rfl, hfails, rfl⟩⟩ |
    ⟨e, rfl, he⟩)
  · have hdecides := Decides.value he
    rw [← hholds] at hdecides
    cases holds with
    | true => exact .inl ⟨s₂, hdecides, h⟩
    | false => exact .inr (.inl ⟨s₂, hdecides, h⟩)
  · have hdecides := Decides.value he
    rw [← hfails] at hdecides
    exact .inr (.inr ⟨e, rfl, hdecides⟩)
  · exact .inr (.inr ⟨e, rfl, .fails he⟩)

theorem follows_labelledArguments (name : String) (parameters : List String)
    (arguments : List (String × Expr)) :
    Follows l limit (labelledArguments eval name parameters arguments) fun active s r s' =>
      (∃ bound, Labels ⟨store, functions, limit⟩ active s name parameters [] arguments
        (.ok bound) s' ∧ (arguments.length = parameters.length ∧
            r = .ok (parameters.filterMap fun parameter => bound.lookup parameter) ∨
          arguments.length ≠ parameters.length ∧
            r = raised (.arityMismatch name parameters.length arguments.length))) ∨
      ∃ e, r = .error e ∧
        Labels ⟨store, functions, limit⟩ active s name parameters [] arguments (.error e) s' := by
  rw [labelledArguments_eq]
  by_cases hlength : arguments.length = parameters.length
  · simp only [if_pos hlength]
    refine ((follows_foldlM_bindLabel heval name parameters [] arguments).bind fun _ =>
      follows_pure _).mono ?_
    rintro active s r s' (⟨bound, s₁, hlabels, rfl, rfl⟩ | ⟨e, rfl, hlabels⟩)
    · exact .inl ⟨bound, hlabels, .inl ⟨hlength, rfl⟩⟩
    · exact .inr ⟨e, rfl, hlabels⟩
  · simp only [if_neg hlength]
    refine ((follows_foldlM_bindLabel heval name parameters [] arguments).bind fun _ =>
      follows_raise _).mono ?_
    rintro active s r s' (⟨bound, s₁, hlabels, rfl, rfl⟩ | ⟨e, rfl, hlabels⟩)
    · exact .inl ⟨bound, hlabels, .inr ⟨hlength, rfl⟩⟩
    · exact .inr ⟨e, rfl, hlabels⟩

theorem follows_callFunction (f : FunctionDecl) (values : List Value) :
    Follows l limit (callFunction scoping eval f values) fun active s =>
      Calls ⟨store, functions, limit⟩ active s f values := by
  rw [callFunction_eq]
  by_cases harity : values.length = f.parameters.length
  · rw [if_pos harity]
    intro active k s hfits r m' h
    -- The limit is looked at before the scope is entered.
    by_cases hfull : ∃ n, limit = some n ∧ n ≤ active.length
    · obtain ⟨n, hn, hle⟩ := hfull
      rw [inCall_machine_of_le hn hle] at h
      obtain ⟨rfl, rfl⟩ := Prod.mk.inj (Except.ok.inj h)
      exact ⟨s, hfits, rfl, .exhausted harity hn hle⟩
    · have hlimit (n : Nat) (hn : limit = some n) : active.length < n :=
        Nat.lt_of_not_le fun hle => hfull ⟨n, hn, hle⟩
      obtain ⟨r₁, m₁, hbody⟩ := body_of_inCall_machine hfits hlimit h
      obtain ⟨s₁, hfits₁, rfl, hR⟩ :=
        heval f.body _ _ _ (l.enter hfits (f.parameters.zip values)).2 r₁ m₁ hbody
      rw [inCall_machine_of_body hfits hlimit hfits₁ hbody] at h
      obtain ⟨rfl, rfl⟩ := Prod.mk.inj (Except.ok.inj h)
      exact ⟨store.leave s s₁, (l.leave hfits hfits₁).2, rfl, .body harity hlimit hR⟩
  · rw [if_neg harity]
    refine (follows_raise _).mono ?_
    rintro active s _ _ ⟨rfl, rfl⟩
    exact .arity harity

theorem follows_call (name : String) (arguments : List Expr) :
    Follows l limit (do
      let f ← require (.undefinedFunction name) (functions.get? name)
      let values ← arguments.mapM eval
      callFunction scoping eval f values) fun active s =>
        Evaluates ⟨store, functions, limit⟩ active s (.call name arguments) := by
  refine ((follows_require _ _).bind fun f => (follows_mapM heval arguments).bind fun values =>
    follows_callFunction heval f values).mono ?_
  rintro active s r s' (⟨f, s₁, ⟨rfl, ⟨_, hf, h⟩ | ⟨-, h⟩⟩, hrest⟩ |
    ⟨error, rfl, rfl, ⟨f, -, h⟩ | ⟨hf, h⟩⟩)
  · obtain rfl := Except.ok.inj h
    rcases hrest with ⟨values, s₂, harguments, hcalls⟩ | ⟨error, rfl, harguments⟩
    · exact .call hf harguments hcalls
    · exact .argumentFails hf harguments
  · cases h
  · cases h
  · obtain rfl := Except.error.inj h
    exact .undefined hf

theorem follows_labelledCall (name : String) (arguments : List (String × Expr)) :
    Follows l limit (do
      let f ← require (.undefinedFunction name) (functions.get? name)
      let values ← labelledArguments eval name f.parameters arguments
      callFunction scoping eval f values) fun active s =>
        Evaluates ⟨store, functions, limit⟩ active s (.labelledCall name arguments) := by
  have hcall (f : FunctionDecl) :=
    (follows_labelledArguments heval name f.parameters arguments).bind
      (follows_callFunction heval f)
  refine ((follows_require _ _).bind hcall).mono ?_
  rintro active s r s' (⟨f, s₁, ⟨rfl, ⟨_, hf, h⟩ | ⟨-, h⟩⟩, hrest⟩ |
    ⟨error, rfl, rfl, ⟨f, -, h⟩ | ⟨hf, h⟩⟩)
  · obtain rfl := Except.ok.inj h
    rcases hrest with
      ⟨values, s₂, ⟨bound, hlabels, ⟨hlength, hr⟩ | ⟨-, hr⟩⟩ | ⟨e, hr, -⟩, hcalls⟩ |
      ⟨error, rfl, ⟨bound, hlabels, ⟨-, hr⟩ | ⟨hlength, hr⟩⟩ | ⟨e, hr, hlabels⟩⟩
    · obtain rfl := Except.ok.inj hr
      exact .labelledCall hf hlabels hlength hcalls
    · cases hr
    · cases hr
    · cases hr
    · obtain rfl := Except.error.inj hr
      exact .labelsMissing hf hlabels hlength
    · obtain rfl := Except.error.inj hr
      exact .labelFails hf hlabels
  · cases h
  · cases h
  · obtain rfl := Except.error.inj h
    exact .labelledUndefined hf

end

theorem follows_lookup (name : String) :
    Follows l limit (inspect (·.lookup name)) fun _ s r s' =>
      r = .ok (store.lookup s name) ∧ s' = s := by
  intro active k s hfits r m' h
  rw [lookup_machine hfits] at h
  obtain ⟨rfl, rfl⟩ := Prod.mk.inj (Except.ok.inj h)
  exact ⟨s, hfits, rfl, rfl, rfl⟩

theorem follows_assign (name : String) (value : Value) :
    Follows l limit (update (·.assign name value)) fun _ s r s' =>
      r = .ok () ∧ s' = store.assign s name value := by
  intro active k s hfits r m' h
  rw [assign_machine hfits] at h
  obtain ⟨rfl, rfl⟩ := Prod.mk.inj (Except.ok.inj h)
  exact ⟨_, (l.assign hfits name value).2, rfl, rfl, rfl⟩

/-- Each end of evaluation is one that the rules derive. -/
theorem follows_evaluate (functions : FunctionTable) (fuel : Nat) (e : Expr) :
    Follows l limit (evaluate ⟨functions, scoping⟩ fuel e) fun active s =>
      Evaluates ⟨store, functions, limit⟩ active s e := by
  induction fuel generalizing e with
  | zero =>
    -- Without fuel there is no end to follow.
    intro active k s hfits r m' h
    cases h
  | succ fuel ih =>
    cases e with
    | integer n =>
      refine (follows_pure (Value.int n)).mono ?_
      rintro active s _ _ ⟨rfl, rfl⟩
      exact .integer
    | boolean b =>
      refine (follows_pure (Value.bool b)).mono ?_
      rintro active s _ _ ⟨rfl, rfl⟩
      exact .boolean
    | «variable» name =>
      refine ((follows_lookup name).bind fun _ => follows_require _ _).mono ?_
      rintro active s r s' (⟨_, s₁, ⟨hlookup, rfl⟩, rfl, ⟨value, rfl, rfl⟩ | ⟨rfl, rfl⟩⟩ |
        ⟨error, rfl, herror, -⟩)
      · exact .bound (Except.ok.inj hlookup).symm
      · exact .unbound (Except.ok.inj hlookup).symm
      · cases herror
    | array items =>
      refine ((follows_mapM ih items).bind fun _ => follows_pure _).mono ?_
      rintro active s r s' (⟨values, s₁, hitems, rfl, rfl⟩ | ⟨error, rfl, hitems⟩)
      · exact .array hitems
      · exact .array hitems
    | binary op left right =>
      refine ((ih left).bind fun _ => (ih right).bind fun _ => follows_check _).mono ?_
      rintro active s r s' (⟨a, s₁, hleft, ⟨b, s₂, hright, rfl, rfl⟩ | ⟨error, rfl, hright⟩⟩ |
        ⟨error, rfl, hleft⟩)
      · exact .binary hleft hright
      · exact .rightFails hleft hright
      · exact .leftFails hleft
    | call name arguments => exact follows_call ih name arguments
    | labelledCall name arguments => exact follows_labelledCall ih name arguments
    | assign name e =>
      refine ((ih e).bind fun value => (follows_assign name value).bind fun _ =>
        follows_pure _).mono ?_
      rintro active s r s' (⟨value, s₁, he, ⟨_, s₂, ⟨-, rfl⟩, rfl, rfl⟩ | ⟨error, -, h, -⟩⟩ |
        ⟨error, rfl, he⟩)
      · exact .assign he
      · cases h
      · exact .assignFails he
    | block statements =>
      refine (follows_foldlM ih .unit statements).mono ?_
      intro active s r s' h
      exact .block h
    | ifThen condition consequence =>
      refine (follows_branch ih condition (ih consequence) (follows_pure Value.unit)).mono ?_
      rintro active s r s' (⟨s₁, hcondition, h⟩ | ⟨s₁, hcondition, rfl, rfl⟩ | ⟨e, rfl, hcondition⟩)
      · exact .ifThenTrue hcondition h
      · exact .ifThenFalse hcondition
      · exact .ifThenFails hcondition
    | ifElse condition consequence alternative =>
      refine (follows_branch ih condition (ih consequence) (ih alternative)).mono ?_
      rintro active s r s' (⟨s₁, hcondition, h⟩ | ⟨s₁, hcondition, h⟩ | ⟨e, rfl, hcondition⟩)
      · exact .ifElseTrue hcondition h
      · exact .ifElseFalse hcondition h
      · exact .ifElseFails hcondition
    | loop condition body =>
      refine (follows_branch ih condition ((ih body).bind fun _ => ih (.loop condition body))
        (follows_pure (Value.bool true))).mono ?_
      rintro active s r s' (⟨s₁, hcondition, ⟨value, s₂, hbody, hloop⟩ | ⟨e, rfl, hbody⟩⟩ |
        ⟨s₁, hcondition, rfl, rfl⟩ | ⟨e, rfl, hcondition⟩)
      · exact .loopTrue hcondition hbody hloop
      · exact .bodyFails hcondition hbody
      · exact .loopFalse hcondition
      · exact .loopFails hcondition

end Reference

end Scriptlet
