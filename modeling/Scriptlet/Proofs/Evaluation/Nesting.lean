import Scriptlet.Proofs.Evaluation.Lockstep

/-!
# Evaluations inside evaluations

An evaluation begins others: those of the parts of its expression, and those of the bodies of the
functions that it calls. `Task.Begins` lists them, each with the machine on which it begins and with
the call that is entered for it, if one is, and `Task.Within` goes on from there to any depth. Along
the way the active calls grow by exactly the calls that are entered (`Within.active_eq`), and they
are never more than the limit allows (`Within.boundedBy`).

Nothing catches an error. So if an evaluation that is begun fails, the one that began it fails with
an error of the same kind (`Begins.fails`), and an evaluation whose error comes from none that it
began has raised the error itself, with no backtrace yet (`backtrace_eq_nil_of_fails`).
-/

namespace Scriptlet

/-! ### Rows of steps -/

namespace Eval

variable {α β : Type} {m m' : Machine} {e : EvalError}

/-- A row of steps fails with the first of them that does. -/
theorem mapM_eq_error_iff {f : α → Eval β} {as : List α} :
    as.mapM f m = .ok (.error e, m') ↔ ∃ before a after values m₁, as = before ++ a :: after ∧
      before.mapM f m = .ok (.ok values, m₁) ∧ f a m₁ = .ok (.error e, m') := by
  constructor
  · intro h
    induction as generalizing m with
    | nil => cases h
    | cons a as ih =>
      rw [List.mapM_cons] at h
      rcases bind_eq_ok_iff.1 h with ⟨b, m₁, ha, h⟩ | ⟨e', he', ha⟩
      · rcases bind_eq_ok_iff.1 h with ⟨bs, m₂, -, h⟩ | ⟨e', he', has⟩
        · cases h
        · obtain rfl := Except.error.inj he'
          obtain ⟨before, a', after, values, m₂, rfl, hbefore, ha'⟩ := ih has
          refine ⟨a :: before, a', after, b :: values, m₂, rfl, ?_, ha'⟩
          rw [List.mapM_cons, bind_apply_of_ok ha, bind_apply_of_ok hbefore]
          rfl
      · obtain rfl := Except.error.inj he'
        exact ⟨[], a, as, [], m, rfl, rfl, ha⟩
  · rintro ⟨before, a, after, values, m₁, rfl, hbefore, ha⟩
    have hrow : (a :: after).mapM f m₁ = .ok (.error e, m') := by
      rw [List.mapM_cons]
      exact bind_apply_of_error ha _
    rw [List.mapM_append, bind_apply_of_ok hbefore]
    exact bind_apply_of_error hrow _

theorem foldlM_eq_error_iff {f : β → α → Eval β} {as : List α} {b : β} :
    as.foldlM f b m = .ok (.error e, m') ↔ ∃ before a after b₁ m₁, as = before ++ a :: after ∧
      before.foldlM f b m = .ok (.ok b₁, m₁) ∧ f b₁ a m₁ = .ok (.error e, m') := by
  constructor
  · intro h
    induction as generalizing b m with
    | nil => cases h
    | cons a as ih =>
      rw [List.foldlM_cons] at h
      rcases bind_eq_ok_iff.1 h with ⟨b₁, m₁, ha, h⟩ | ⟨e', he', ha⟩
      · obtain ⟨before, a', after, b₂, m₂, rfl, hbefore, ha'⟩ := ih h
        refine ⟨a :: before, a', after, b₂, m₂, rfl, ?_, ha'⟩
        rw [List.foldlM_cons, bind_apply_of_ok ha, hbefore]
      · obtain rfl := Except.error.inj he'
        exact ⟨[], a, as, b, m, rfl, rfl, ha⟩
  · rintro ⟨before, a, after, b₁, m₁, rfl, hbefore, ha⟩
    rw [List.foldlM_append, bind_apply_of_ok hbefore, List.foldlM_cons]
    exact bind_apply_of_error ha _

theorem forM_eq_error_iff {f : α → Eval Unit} {as : List α} :
    as.forM f m = .ok (.error e, m') ↔ ∃ before a after m₁, as = before ++ a :: after ∧
      before.forM f m = .ok (.ok (), m₁) ∧ f a m₁ = .ok (.error e, m') := by
  constructor
  · intro h
    induction as generalizing m with
    | nil => cases h
    | cons a as ih =>
      rcases bind_eq_ok_iff.1 h with ⟨_, m₁, ha, h⟩ | ⟨e', he', ha⟩
      · obtain ⟨before, a', after, m₂, rfl, hbefore, ha'⟩ := ih h
        refine ⟨a :: before, a', after, m₂, rfl, ?_, ha'⟩
        exact (bind_apply_of_ok ha _).trans hbefore
      · obtain rfl := Except.error.inj he'
        exact ⟨[], a, as, m, rfl, rfl, ha⟩
  · rintro ⟨before, a, after, m₁, rfl, hbefore, ha⟩
    have happend : (before ++ a :: after).forM f = before.forM f >>= fun _ => (a :: after).forM f :=
      List.forM_append
    rw [happend, bind_apply_of_ok hbefore]
    exact bind_apply_of_error ha _

end Eval

/-! ### Tasks -/

/-- The machine inside a call that is not refused. -/
structure Entered (scoping : Scoping) (f : FunctionDecl) (values : List Value) (m m' : Machine) :
    Prop where
  arity : values.length = f.parameters.length
  env : m'.env = m.env.enterCall scoping (f.parameters.zip values)
  calls : m.calls.push f.name = .ok m'.calls

namespace CallStack

/-- The limit is `d`, and no more calls are active than it allows. -/
def BoundedBy (d : Nat) (calls : CallStack) : Prop :=
  calls.limit = some d ∧ calls.depth ≤ d

theorem BoundedBy.push {d : Nat} {calls inner : CallStack} {name : String} (h : calls.BoundedBy d)
    (hpush : calls.push name = .ok inner) : inner.BoundedBy d := by
  unfold CallStack.push at hpush
  rw [h.1] at hpush
  dsimp only at hpush
  split at hpush
  · rename_i hroom
    rw [← Except.ok.inj hpush]
    exact ⟨rfl, hroom⟩
  · cases hpush

end CallStack

/-- An expression that is to be evaluated on a machine, with the fuel for it. -/
structure Task where
  fuel : Nat
  expr : Expr
  machine : Machine

namespace Task

open Eval

variable {ctx : Context} {t t' : Task} {entered chain : List String} {e : EvalError}

/-- The task ends with an error. -/
def Fails (ctx : Context) (t : Task) (e : EvalError) : Prop :=
  ∃ m', evaluate ctx t.fuel t.expr t.machine = .ok (.error e, m')

/-- The tasks that a task begins. The list has the name of the function if the task that is begun is
the body of a call, and is empty otherwise. -/
inductive Begins (ctx : Context) : Task → List String → Task → Prop
  | item {fuel m m₁ before e after values}
    (hbefore : before.mapM (evaluate ctx fuel) m = .ok (.ok values, m₁)) :
    Begins ctx ⟨fuel + 1, .array (before ++ e :: after), m⟩ [] ⟨fuel, e, m₁⟩
  | left {fuel m op a b} : Begins ctx ⟨fuel + 1, .binary op a b, m⟩ [] ⟨fuel, a, m⟩
  | right {fuel m m₁ op a b value} (hleft : evaluate ctx fuel a m = .ok (.ok value, m₁)) :
    Begins ctx ⟨fuel + 1, .binary op a b, m⟩ [] ⟨fuel, b, m₁⟩
  | argument {fuel m m₁ name f before e after values} (hf : ctx.functions.get? name = some f)
    (hbefore : before.mapM (evaluate ctx fuel) m = .ok (.ok values, m₁)) :
    Begins ctx ⟨fuel + 1, .call name (before ++ e :: after), m⟩ [] ⟨fuel, e, m₁⟩
  | body {fuel m m₁ m₂ name f arguments values} (hf : ctx.functions.get? name = some f)
    (harguments : arguments.mapM (evaluate ctx fuel) m = .ok (.ok values, m₁))
    (hentered : Entered ctx.scoping f values m₁ m₂) :
    Begins ctx ⟨fuel + 1, .call name arguments, m⟩ [f.name] ⟨fuel, f.body, m₂⟩
  | labelledArgument {fuel m m₁ name f before label e after bound}
    (hf : ctx.functions.get? name = some f)
    (hbefore : before.foldlM (bindLabel (evaluate ctx fuel) name f.parameters) [] m =
      .ok (.ok bound, m₁)) :
    Begins ctx ⟨fuel + 1, .labelledCall name (before ++ (label, e) :: after), m⟩ [] ⟨fuel, e, m₁⟩
  | labelledBody {fuel m m₁ m₂ name f arguments values} (hf : ctx.functions.get? name = some f)
    (harguments : labelledArguments (evaluate ctx fuel) name f.parameters arguments m =
      .ok (.ok values, m₁))
    (hentered : Entered ctx.scoping f values m₁ m₂) :
    Begins ctx ⟨fuel + 1, .labelledCall name arguments, m⟩ [f.name] ⟨fuel, f.body, m₂⟩
  | value {fuel m name e} : Begins ctx ⟨fuel + 1, .assign name e, m⟩ [] ⟨fuel, e, m⟩
  | statement {fuel m m₁ before e after last}
    (hbefore : before.foldlM (fun _ s => evaluate ctx fuel s) .unit m = .ok (.ok last, m₁)) :
    Begins ctx ⟨fuel + 1, .block (before ++ e :: after), m⟩ [] ⟨fuel, e, m₁⟩
  | ifThenCondition {fuel m c a} : Begins ctx ⟨fuel + 1, .ifThen c a, m⟩ [] ⟨fuel, c, m⟩
  | ifThenConsequence {fuel m m₁ c a} (hc : evaluate ctx fuel c m = .ok (.ok (.bool true), m₁)) :
    Begins ctx ⟨fuel + 1, .ifThen c a, m⟩ [] ⟨fuel, a, m₁⟩
  | ifElseCondition {fuel m c a b} : Begins ctx ⟨fuel + 1, .ifElse c a b, m⟩ [] ⟨fuel, c, m⟩
  | ifElseConsequence {fuel m m₁ c a b} (hc : evaluate ctx fuel c m = .ok (.ok (.bool true), m₁)) :
    Begins ctx ⟨fuel + 1, .ifElse c a b, m⟩ [] ⟨fuel, a, m₁⟩
  | ifElseAlternative {fuel m m₁ c a b} (hc : evaluate ctx fuel c m = .ok (.ok (.bool false), m₁)) :
    Begins ctx ⟨fuel + 1, .ifElse c a b, m⟩ [] ⟨fuel, b, m₁⟩
  | loopCondition {fuel m c a} : Begins ctx ⟨fuel + 1, .loop c a, m⟩ [] ⟨fuel, c, m⟩
  | loopBody {fuel m m₁ c a} (hc : evaluate ctx fuel c m = .ok (.ok (.bool true), m₁)) :
    Begins ctx ⟨fuel + 1, .loop c a, m⟩ [] ⟨fuel, a, m₁⟩
  | loopAgain {fuel m m₁ m₂ c a value} (hc : evaluate ctx fuel c m = .ok (.ok (.bool true), m₁))
    (hbody : evaluate ctx fuel a m₁ = .ok (.ok value, m₂)) :
    Begins ctx ⟨fuel + 1, .loop c a, m⟩ [] ⟨fuel, .loop c a, m₂⟩

/-- The tasks inside a task at any depth. The list has the calls that are entered on the way there,
innermost first. -/
inductive Within (ctx : Context) : Task → List String → Task → Prop
  | refl (t : Task) : Within ctx t [] t
  | step {t t₁ t₂ : Task} {entered chain : List String} (hbegins : t.Begins ctx entered t₁)
    (hwithin : Within ctx t₁ chain t₂) : Within ctx t (chain ++ entered) t₂

/-- A task that is begun has one unit of fuel less. -/
theorem Begins.fuel_eq (h : t.Begins ctx entered t') : t.fuel = t'.fuel + 1 := by
  cases h <;> rfl

/-! ### The active calls -/

/-- A task that is begun has the active calls of the one that began it, and the call that is
entered. -/
theorem Begins.calls (h : t.Begins ctx entered t') :
    t'.machine.calls = t.machine.calls ∧ entered = [] ∨
      ∃ name, entered = [name] ∧ t.machine.calls.push name = .ok t'.machine.calls := by
  cases h with
  | item hbefore | argument _ hbefore => exact .inl ⟨(balanced_mapM _ _ _ _ _ _ hbefore).2, rfl⟩
  | left | value | ifThenCondition | ifElseCondition | loopCondition => exact .inl ⟨rfl, rfl⟩
  | right hleft => exact .inl ⟨(balanced_evaluate _ _ _ _ _ _ hleft).2, rfl⟩
  | body _ harguments hentered =>
    refine .inr ⟨_, rfl, ?_⟩
    rw [← (balanced_mapM _ _ _ _ _ _ harguments).2]
    exact hentered.calls
  | labelledArgument _ hbefore =>
    exact .inl ⟨(balanced_foldlM_bindLabel _ _ _ _ _ _ _ _ _ hbefore).2, rfl⟩
  | labelledBody _ harguments hentered =>
    refine .inr ⟨_, rfl, ?_⟩
    rw [← (balanced_labelledArguments _ _ _ _ _ _ _ _ harguments).2]
    exact hentered.calls
  | statement hbefore => exact .inl ⟨(balanced_foldlM _ _ _ _ _ _ _ hbefore).2, rfl⟩
  | ifThenConsequence hc | ifElseConsequence hc | ifElseAlternative hc | loopBody hc =>
    exact .inl ⟨(balanced_evaluate _ _ _ _ _ _ hc).2, rfl⟩
  | loopAgain hc hbody =>
    have hfirst := (balanced_evaluate _ _ _ _ _ _ hc).2
    have hsecond := (balanced_evaluate _ _ _ _ _ _ hbody).2
    exact .inl ⟨hsecond.trans hfirst, rfl⟩

theorem Begins.active_eq (h : t.Begins ctx entered t') :
    t'.machine.calls.active = entered ++ t.machine.calls.active := by
  rcases h.calls with ⟨hcalls, rfl⟩ | ⟨name, rfl, hpush⟩
  · rw [hcalls]
    rfl
  · exact (CallStack.pop_of_push hpush).1

theorem Within.active_eq (h : t.Within ctx chain t') :
    t'.machine.calls.active = chain ++ t.machine.calls.active := by
  induction h with
  | refl t => rfl
  | step hbegins _ ih => rw [ih, hbegins.active_eq, List.append_assoc]

theorem Within.boundedBy {d : Nat} (h : t.Within ctx chain t') (ht : t.machine.calls.BoundedBy d) :
    t'.machine.calls.BoundedBy d := by
  induction h with
  | refl t => exact ht
  | step hbegins _ ih =>
    apply ih
    rcases hbegins.calls with ⟨hcalls, -⟩ | ⟨name, -, hpush⟩
    · rw [hcalls]
      exact ht
    · exact ht.push hpush

/-! ### Errors on their way out -/

/-- An error as it leaves a task that was begun: at the end of a call it takes the active calls with
it, unless it has a backtrace already. -/
def leaving (e : EvalError) (entered active : List String) : EvalError :=
  match entered with
  | [] => e
  | _ :: _ => e.withBacktrace active

/-- A call ends as its body does, except for the backtrace of an error. -/
theorem callFunction_of_entered {fuel : Nat} {f : FunctionDecl} {values : List Value}
    {m m₁ after : Machine} {r : Except EvalError Value}
    (hentered : Entered ctx.scoping f values m m₁)
    (hbody : evaluate ctx fuel f.body m₁ = .ok (r, after)) :
    ∃ m', callFunction ctx.scoping (evaluate ctx fuel) f values m =
      .ok (r.mapError (·.withBacktrace m₁.calls.active), m') := by
  obtain ⟨env, calls⟩ := m
  obtain ⟨env₁, inner⟩ := m₁
  obtain ⟨harity, henv, hpush⟩ := hentered
  dsimp only at henv hpush
  -- The body leaves as many scopes and the same calls, so its scope and its call can be taken off.
  obtain ⟨hsize, hcalls⟩ := balanced_evaluate ctx fuel f.body _ _ _ hbody
  have hscopes : after.env.scopes.size = env.scopes.size + 1 := by
    rw [hsize, henv]
    exact Array.size_push _
  obtain ⟨left, hleft, -⟩ := Environment.leave_of_size hscopes
  have hpop := (CallStack.pop_of_push hpush).2
  refine ⟨⟨left, calls⟩, ?_⟩
  rw [callFunction_eq, if_pos harity, inCall_apply, hpush, ← henv]
  simp only [hbody, hleft, hcalls, hpop]

/-- A call that fails is refused, or its body fails. -/
theorem entered_of_callFunction {fuel : Nat} {f : FunctionDecl} {values : List Value}
    {m m' : Machine}
    (h : callFunction ctx.scoping (evaluate ctx fuel) f values m = .ok (.error e, m')) :
    e.backtrace = [] ∨
      ∃ m₁ e', Entered ctx.scoping f values m m₁ ∧ Fails ctx ⟨fuel, f.body, m₁⟩ e' := by
  obtain ⟨env, calls⟩ := m
  by_cases harity : values.length = f.parameters.length
  · cases hpush : calls.push f.name with
    | error kind =>
      rw [callFunction_eq, if_pos harity, inCall_apply, hpush] at h
      obtain ⟨he, -⟩ := Prod.mk.inj (Except.ok.inj h)
      rw [← Except.error.inj he]
      exact .inl rfl
    | ok inner =>
      have hentered : Entered ctx.scoping f values ⟨env, calls⟩
          ⟨env.enterCall ctx.scoping (f.parameters.zip values), inner⟩ := ⟨harity, rfl, hpush⟩
      match hbody : evaluate ctx fuel f.body
          ⟨env.enterCall ctx.scoping (f.parameters.zip values), inner⟩ with
      | .error i =>
        rw [callFunction_eq, if_pos harity, inCall_apply, hpush] at h
        simp only [hbody, reduceCtorEq] at h
      | .ok (.error e', after) => exact .inr ⟨_, e', hentered, after, hbody⟩
      | .ok (.ok value, after) =>
        obtain ⟨m'', hcall⟩ := callFunction_of_entered hentered hbody
        rw [hcall] at h
        cases h
  · rw [callFunction_eq, if_neg harity] at h
    obtain ⟨he, -⟩ := Prod.mk.inj (Except.ok.inj h)
    rw [← Except.error.inj he]
    exact .inl rfl

/-- A call of a function that is there evaluates the arguments and enters the function. -/
theorem evaluate_call {name : String} {f : FunctionDecl} (hf : ctx.functions.get? name = some f)
    (fuel : Nat) (arguments : List Expr) (m : Machine) :
    evaluate ctx (fuel + 1) (.call name arguments) m =
      (arguments.mapM (evaluate ctx fuel) >>=
        callFunction ctx.scoping (evaluate ctx fuel) f) m := by
  refine bind_apply_of_ok ?_ _
  rw [require_apply, hf]
  rfl

theorem evaluate_labelledCall {name : String} {f : FunctionDecl}
    (hf : ctx.functions.get? name = some f) (fuel : Nat) (arguments : List (String × Expr))
    (m : Machine) :
    evaluate ctx (fuel + 1) (.labelledCall name arguments) m =
      (labelledArguments (evaluate ctx fuel) name f.parameters arguments >>=
        callFunction ctx.scoping (evaluate ctx fuel) f) m := by
  refine bind_apply_of_ok ?_ _
  rw [require_apply, hf]
  rfl

/-- A task fails when one that it begins does, and with an error of the same kind. -/
theorem Begins.fails (h : t.Begins ctx entered t') (hfails : t'.Fails ctx e) :
    t.Fails ctx (leaving e entered t'.machine.calls.active) := by
  obtain ⟨m', hm'⟩ := hfails
  cases h with
  | item hbefore =>
    exact ⟨m', bind_apply_of_error (mapM_eq_error_iff.2 ⟨_, _, _, _, _, rfl, hbefore, hm'⟩) _⟩
  | left => exact ⟨m', bind_apply_of_error hm' _⟩
  | right hleft => exact ⟨m', (bind_apply_of_ok hleft _).trans (bind_apply_of_error hm' _)⟩
  | argument hf hbefore =>
    refine ⟨m', (evaluate_call hf _ _ _).trans ?_⟩
    exact bind_apply_of_error (mapM_eq_error_iff.2 ⟨_, _, _, _, _, rfl, hbefore, hm'⟩) _
  | body hf harguments hentered =>
    obtain ⟨m'', hcall⟩ := callFunction_of_entered hentered hm'
    refine ⟨m'', (evaluate_call hf _ _ _).trans ?_⟩
    exact (bind_apply_of_ok harguments _).trans hcall
  | labelledArgument hf hbefore =>
    refine ⟨m', (evaluate_labelledCall hf _ _ _).trans (bind_apply_of_error ?_ _)⟩
    refine bind_apply_of_error (foldlM_eq_error_iff.2 ⟨_, _, _, _, _, rfl, hbefore, ?_⟩) _
    exact bind_apply_of_error hm' _
  | labelledBody hf harguments hentered =>
    obtain ⟨m'', hcall⟩ := callFunction_of_entered hentered hm'
    refine ⟨m'', (evaluate_labelledCall hf _ _ _).trans ?_⟩
    exact (bind_apply_of_ok harguments _).trans hcall
  | value => exact ⟨m', bind_apply_of_error hm' _⟩
  | statement hbefore => exact ⟨m', foldlM_eq_error_iff.2 ⟨_, _, _, _, _, rfl, hbefore, hm'⟩⟩
  | ifThenCondition | ifElseCondition | loopCondition => exact ⟨m', bind_apply_of_error hm' _⟩
  | ifThenConsequence hc | ifElseConsequence hc | ifElseAlternative hc =>
    exact ⟨m', (bind_apply_of_ok hc _).trans hm'⟩
  | loopBody hc => exact ⟨m', (bind_apply_of_ok hc _).trans (bind_apply_of_error hm' _)⟩
  | loopAgain hc hbody =>
    exact ⟨m', (bind_apply_of_ok hc _).trans ((bind_apply_of_ok hbody _).trans hm')⟩

/-! ### Where errors are raised -/

/-- The errors of the step itself have no backtrace. -/
def Raises {α : Type} (x : Eval α) : Prop :=
  ∀ m e m', x m = .ok (.error e, m') → e.backtrace = []

theorem raises_check {α : Type} (result : Except ErrorKind α) : Raises (check result) := by
  intro m e m' h
  rw [check_apply] at h
  cases result with
  | ok a => cases h
  | error kind =>
    obtain ⟨he, -⟩ := Prod.mk.inj (Except.ok.inj h)
    rw [← Except.error.inj he]

theorem raises_require {α : Type} (missing : ErrorKind) (value : Option α) :
    Raises (require missing value) := by
  intro m e m' h
  rw [require_apply] at h
  cases value with
  | some a => cases h
  | none =>
    obtain ⟨he, -⟩ := Prod.mk.inj (Except.ok.inj h)
    rw [← Except.error.inj he]

theorem eq_some_of_require {α : Type} {missing : ErrorKind} {value : Option α} {a : α}
    {m m' : Machine} (h : require missing value m = .ok (.ok a, m')) : value = some a ∧ m' = m := by
  rw [require_apply] at h
  cases value with
  | none => cases h
  | some b =>
    cases h
    exact ⟨rfl, rfl⟩

theorem raises_raise {α : Type} (kind : ErrorKind) : Raises (raise kind : Eval α) :=
  raises_check (.error kind)

theorem raises_inspect {α : Type} (f : Environment → Except Fault α) : Raises (inspect f) := by
  intro m e m' h
  rw [inspect_apply] at h
  split at h <;> cases h

theorem raises_update (f : Environment → Except Fault Environment) : Raises (update f) := by
  intro m e m' h
  rw [update_apply] at h
  split at h <;> cases h

/-- Labelled arguments that fail have a label that is not right, or not the right number, or one of
them fails. -/
theorem labelledArguments_fails {eval : Expr → Eval Value} {name : String}
    {parameters : List String} {arguments : List (String × Expr)} {m m' : Machine}
    (h : labelledArguments eval name parameters arguments m = .ok (.error e, m')) :
    e.backtrace = [] ∨ ∃ before label argument after bound m₁,
      arguments = before ++ (label, argument) :: after ∧
      before.foldlM (bindLabel eval name parameters) [] m = .ok (.ok bound, m₁) ∧
      eval argument m₁ = .ok (.error e, m') := by
  rw [labelledArguments_eq] at h
  rcases bind_eq_ok_iff.1 h with ⟨bound, m₁, -, h⟩ | ⟨e', he', harguments⟩
  · split at h
    · cases h
    · exact .inl (raises_raise _ _ _ _ h)
  · obtain rfl := Except.error.inj he'
    obtain ⟨before, ⟨label, argument⟩, after, bound, m₁, rfl, hbefore, hargument⟩ :=
      foldlM_eq_error_iff.1 harguments
    rw [bindLabel_eq] at hargument
    rcases bind_eq_ok_iff.1 hargument with ⟨value, m₂, -, h⟩ | ⟨e', he', hvalue⟩
    · split at h
      · cases h
      · exact .inl (raises_raise _ _ _ _ h)
    · obtain rfl := Except.error.inj he'
      exact .inr ⟨before, label, argument, after, bound, m₁, rfl, hbefore, hvalue⟩

/-- A choice that fails has a condition that fails or is no boolean, or the branch fails that is
taken. -/
theorem branch_fails {x yes no : Eval Value} {m m' : Machine}
    (h : (x >>= fun value => check value.asBool >>= fun holds => if holds then yes else no) m =
      .ok (.error e, m')) :
    e.backtrace = [] ∨ x m = .ok (.error e, m') ∨
      ∃ holds m₁, x m = .ok (.ok (.bool holds), m₁) ∧
        (if holds then yes else no) m₁ = .ok (.error e, m') := by
  rcases bind_eq_ok_iff.1 h with ⟨value, m₁, hx, h⟩ | ⟨e', he', hx⟩
  · rcases bind_eq_ok_iff.1 h with ⟨holds, m₂, hcheck, h⟩ | ⟨e', he', hcheck⟩
    · rw [check_apply] at hcheck
      cases value with
      | bool b =>
        cases hcheck
        exact .inr (.inr ⟨_, _, hx, h⟩)
      | _ => cases hcheck
    · obtain rfl := Except.error.inj he'
      exact .inl (raises_check _ _ _ _ hcheck)
  · obtain rfl := Except.error.inj he'
    exact .inr (.inl hx)

/-- If no task that it begins fails, the error of a task has no backtrace. -/
theorem backtrace_eq_nil_of_fails (hfails : t.Fails ctx e)
    (hnone : ∀ entered t' e', t.Begins ctx entered t' → ¬ t'.Fails ctx e') : e.backtrace = [] := by
  obtain ⟨fuel, expr, m⟩ := t
  obtain ⟨m', h⟩ := hfails
  cases fuel with
  | zero => cases h
  | succ fuel =>
    cases expr with
    | integer n => cases h
    | boolean b => cases h
    | «variable» name =>
      rcases bind_eq_ok_iff.1 h with ⟨value, m₁, -, h⟩ | ⟨e', he', hlookup⟩
      · exact raises_require _ _ _ _ _ h
      · obtain rfl := Except.error.inj he'
        exact raises_inspect _ _ _ _ hlookup
    | array items =>
      rcases bind_eq_ok_iff.1 h with ⟨values, m₁, -, h⟩ | ⟨e', he', hitems⟩
      · cases h
      · obtain ⟨before, item, after, values, m₁, rfl, hbefore, hitem⟩ := mapM_eq_error_iff.1 hitems
        exact absurd ⟨m', hitem⟩ (hnone _ _ e' (.item hbefore))
    | binary op left right =>
      rcases bind_eq_ok_iff.1 h with ⟨a, m₁, hleft, h⟩ | ⟨e', he', hleft⟩
      · rcases bind_eq_ok_iff.1 h with ⟨b, m₂, -, h⟩ | ⟨e', he', hright⟩
        · exact raises_check _ _ _ _ h
        · exact absurd ⟨m', hright⟩ (hnone _ _ e' (.right hleft))
      · exact absurd ⟨m', hleft⟩ (hnone _ _ e' .left)
    | call name arguments =>
      rcases bind_eq_ok_iff.1 h with ⟨f, m₀, hrequire, hrest⟩ | ⟨e', he', hrequire⟩
      · obtain ⟨hf, rfl⟩ := eq_some_of_require hrequire
        rcases bind_eq_ok_iff.1 hrest with ⟨values, m₁, harguments, hcall⟩ | ⟨e', he', harguments⟩
        · rcases entered_of_callFunction hcall with hnil | ⟨m₂, e', hentered, hbody⟩
          · exact hnil
          · exact absurd hbody (hnone _ _ e' (.body hf harguments hentered))
        · obtain ⟨before, item, after, values, m₁, rfl, hbefore, hitem⟩ :=
            mapM_eq_error_iff.1 harguments
          exact absurd ⟨m', hitem⟩ (hnone _ _ e' (.argument hf hbefore))
      · obtain rfl := Except.error.inj he'
        exact raises_require _ _ _ _ _ hrequire
    | labelledCall name arguments =>
      rcases bind_eq_ok_iff.1 h with ⟨f, m₀, hrequire, hrest⟩ | ⟨e', he', hrequire⟩
      · obtain ⟨hf, rfl⟩ := eq_some_of_require hrequire
        rcases bind_eq_ok_iff.1 hrest with ⟨values, m₁, harguments, hcall⟩ | ⟨e', he', harguments⟩
        · rcases entered_of_callFunction hcall with hnil | ⟨m₂, e', hentered, hbody⟩
          · exact hnil
          · exact absurd hbody (hnone _ _ e' (.labelledBody hf harguments hentered))
        · obtain rfl := Except.error.inj he'
          rcases labelledArguments_fails harguments with
            hnil | ⟨before, label, argument, after, bound, m₁, rfl, hbefore, hargument⟩
          · exact hnil
          · exact absurd ⟨m', hargument⟩ (hnone _ _ _ (.labelledArgument hf hbefore))
      · obtain rfl := Except.error.inj he'
        exact raises_require _ _ _ _ _ hrequire
    | assign name e =>
      rcases bind_eq_ok_iff.1 h with ⟨value, m₁, -, h⟩ | ⟨e', he', hvalue⟩
      · rcases bind_eq_ok_iff.1 h with ⟨_, m₂, -, h⟩ | ⟨e', he', hassign⟩
        · cases h
        · obtain rfl := Except.error.inj he'
          exact raises_update _ _ _ _ hassign
      · exact absurd ⟨m', hvalue⟩ (hnone _ _ e' .value)
    | block statements =>
      obtain ⟨before, s, after, last, m₁, rfl, hbefore, hs⟩ := foldlM_eq_error_iff.1 h
      exact absurd ⟨m', hs⟩ (hnone _ _ e (.statement hbefore))
    | ifThen condition consequence =>
      rcases branch_fails h with hnil | hc | ⟨holds, m₁, hc, h⟩
      · exact hnil
      · exact absurd ⟨m', hc⟩ (hnone _ _ e .ifThenCondition)
      · cases holds with
        | false => cases h
        | true => exact absurd ⟨m', h⟩ (hnone _ _ e (.ifThenConsequence hc))
    | ifElse condition consequence alternative =>
      rcases branch_fails h with hnil | hc | ⟨holds, m₁, hc, h⟩
      · exact hnil
      · exact absurd ⟨m', hc⟩ (hnone _ _ e .ifElseCondition)
      · cases holds with
        | false => exact absurd ⟨m', h⟩ (hnone _ _ e (.ifElseAlternative hc))
        | true => exact absurd ⟨m', h⟩ (hnone _ _ e (.ifElseConsequence hc))
    | loop condition body =>
      rcases branch_fails h with hnil | hc | ⟨holds, m₁, hc, h⟩
      · exact hnil
      · exact absurd ⟨m', hc⟩ (hnone _ _ e .loopCondition)
      · cases holds with
        | false => cases h
        | true =>
          rcases bind_eq_ok_iff.1 h with ⟨value, m₂, hbody, h⟩ | ⟨e', he', hbody⟩
          · exact absurd ⟨m', h⟩ (hnone _ _ e (.loopAgain hc hbody))
          · exact absurd ⟨m', hbody⟩ (hnone _ _ e' (.loopBody hc))

end Task

/-! ### Runs of programs -/

namespace Program

open Eval

variable {settings : Settings} {functions : FunctionTable} {fuel : Nat} {p : Program}
  {entered chain : List String} {t : Task}

/-- The tasks that a run of a program begins: the first values of the globals, and the body of
`main`. -/
inductive Begins (settings : Settings) (functions : FunctionTable) (fuel : Nat) (p : Program) :
    List String → Task → Prop
  | initializer {before g after m} (hglobals : p.globals = before ++ g :: after)
    (hbefore : before.forM (setGlobal ⟨functions, settings.scoping⟩ fuel) settings.machine =
      .ok (.ok (), m)) :
    Begins settings functions fuel p [] ⟨fuel, g.initializer, m⟩
  | main {f m m₁}
    (hglobals : p.globals.forM (setGlobal ⟨functions, settings.scoping⟩ fuel) settings.machine =
      .ok (.ok (), m))
    (hmain : functions.get? "main" = some f) (hentered : Entered settings.scoping f [] m m₁) :
    Begins settings functions fuel p [f.name] ⟨fuel, f.body, m₁⟩

/-- The tasks inside a run of a program at any depth. The list has the calls that are entered on the
way there, innermost first. -/
inductive Within (settings : Settings) (fuel : Nat) (p : Program) : List String → Task → Prop
  | mk {functions entered chain t t'} (hfunctions : FunctionTable.ofProgram p = .ok functions)
    (hbegins : Begins settings functions fuel p entered t)
    (hwithin : t.Within ⟨functions, settings.scoping⟩ chain t') :
    Within settings fuel p (chain ++ entered) t'

theorem Begins.calls (h : p.Begins settings functions fuel entered t) :
    t.machine.calls = .empty settings.callLimit ∧ entered = [] ∨
      ∃ name, entered = [name] ∧
        (CallStack.empty settings.callLimit).push name = .ok t.machine.calls := by
  cases h with
  | initializer _ hbefore => exact .inl ⟨(balanced_setGlobals _ _ _ _ _ _ hbefore).2, rfl⟩
  | main hglobals _ hentered =>
    have hcalls := (balanced_setGlobals _ _ _ _ _ _ hglobals).2
    refine .inr ⟨_, rfl, ?_⟩
    rw [← show _ = CallStack.empty settings.callLimit from hcalls]
    exact hentered.calls

/-- The active calls are those that were entered on the way. -/
theorem Within.active_eq (h : p.Within settings fuel chain t) : t.machine.calls.active = chain := by
  obtain ⟨-, hbegins, hwithin⟩ := h
  rw [hwithin.active_eq]
  rcases hbegins.calls with ⟨hcalls, rfl⟩ | ⟨name, rfl, hpush⟩
  · rw [hcalls]
    rfl
  · rw [(CallStack.pop_of_push hpush).1]
    rfl

theorem Within.depth_le (h : p.Within settings fuel chain t) {d : Nat}
    (hd : settings.callLimit = some d) : t.machine.calls.depth ≤ d := by
  obtain ⟨-, hbegins, hwithin⟩ := h
  have hempty : (CallStack.empty settings.callLimit).BoundedBy d := ⟨hd, Nat.zero_le d⟩
  refine (hwithin.boundedBy ?_).2
  rcases hbegins.calls with ⟨hcalls, -⟩ | ⟨name, -, hpush⟩
  · rw [hcalls]
    exact hempty
  · exact hempty.push hpush

end Program

end Scriptlet
