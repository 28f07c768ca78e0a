import Scriptlet.Proofs.Evaluation.Nesting

/-!
# Backtraces

An evaluation fails where it, or an evaluation at some depth inside it, fails without any that it
has begun failing (`Task.FailsAt`). The calls that are active there are those that were active
before, and those that were entered on the way. The first call that the error leaves records them
all, and calls further out keep the record. So the backtrace is the list of the calls active at the
point of failure, or empty if no call is entered on the way there (`Within.fails`).

For a run of a program no calls are active before, and the backtrace is just the chain of calls from
the point of failure outward.
-/

namespace Scriptlet

/-- What a backtrace says for an error inside a chain of calls, with the calls that were active
before. -/
def backtraceOf (chain active : List String) : List String :=
  if chain = [] then [] else chain ++ active

theorem backtraceOf_nil_right (chain : List String) : backtraceOf chain [] = chain := by
  unfold backtraceOf
  split
  · rename_i h
    exact h.symm
  · exact List.append_nil chain

namespace Task

open Eval

variable {ctx : Context} {t t' : Task} {entered chain : List String} {e e' : EvalError}

/-- A step outward makes the chain longer by the call that is left, if one is. -/
theorem leaving_backtraceOf (kind : ErrorKind) (chain entered active : List String) :
    leaving ⟨kind, backtraceOf chain (entered ++ active)⟩ entered (entered ++ active) =
      ⟨kind, backtraceOf (chain ++ entered) active⟩ := by
  cases entered with
  | nil => rw [List.append_nil, List.nil_append, leaving]
  | cons name outer =>
    cases chain with
    | nil => rfl
    | cons first chain => simp [leaving, EvalError.withBacktrace, backtraceOf]

/-- A task ends in one way only. -/
theorem Fails.unique (h : t.Fails ctx e) (h' : t.Fails ctx e') : e = e' := by
  obtain ⟨m, hm⟩ := h
  obtain ⟨m', hm'⟩ := h'
  rw [hm] at hm'
  exact Except.error.inj (Prod.mk.inj (Except.ok.inj hm')).1

/-- An error that arises at some depth is the error of the whole, with its backtrace. -/
theorem Within.fails {kind : ErrorKind} (h : t.Within ctx chain t')
    (hfails : t'.Fails ctx ⟨kind, []⟩) :
    t.Fails ctx ⟨kind, backtraceOf chain t.machine.calls.active⟩ := by
  induction h with
  | refl t => exact hfails
  | step hbegins _ ih =>
    have hleft := hbegins.fails (ih hfails)
    rw [hbegins.active_eq, leaving_backtraceOf] at hleft
    exact hleft

/-- The second task is where the first fails: it fails, and none that it begins does. -/
structure FailsAt (ctx : Context) (t : Task) (chain : List String) (t' : Task) : Prop where
  within : t.Within ctx chain t'
  fails : ∃ e, t'.Fails ctx e
  itself : ∀ entered t'' e, t'.Begins ctx entered t'' → ¬ t''.Fails ctx e

/-- Every failure has a point where it arises. -/
theorem exists_failsAt (h : t.Fails ctx e) : ∃ chain t', t.FailsAt ctx chain t' := by
  obtain ⟨fuel, expr, m⟩ := t
  -- The tasks that are begun have less fuel, so the way inward ends.
  induction fuel generalizing expr m e with
  | zero =>
    obtain ⟨m', hm'⟩ := h
    cases hm'
  | succ fuel ih =>
    by_cases hbegun : ∃ entered t₁ e₁, Begins ctx ⟨fuel + 1, expr, m⟩ entered t₁ ∧ t₁.Fails ctx e₁
    · obtain ⟨entered, ⟨fuel₁, expr₁, m₁⟩, e₁, hbegins, hfails⟩ := hbegun
      obtain rfl : fuel = fuel₁ := Nat.succ.inj hbegins.fuel_eq
      obtain ⟨chain, t', hat⟩ := ih expr₁ m₁ hfails
      exact ⟨chain ++ entered, t', .step hbegins hat.within, hat.fails, hat.itself⟩
    · refine ⟨[], ⟨fuel + 1, expr, m⟩, .refl _, ⟨e, h⟩, fun entered t₁ e₁ hbegins hfails => ?_⟩
      exact hbegun ⟨entered, t₁, e₁, hbegins, hfails⟩

/-- The error of a task, told from the point where it fails. -/
theorem FailsAt.fails_backtraceOf (h : t.FailsAt ctx chain t') :
    ∃ kind, t.Fails ctx ⟨kind, backtraceOf chain t.machine.calls.active⟩ := by
  obtain ⟨⟨kind, trace⟩, hfails⟩ := h.fails
  obtain rfl : trace = [] := backtrace_eq_nil_of_fails hfails h.itself
  exact ⟨kind, h.within.fails hfails⟩

theorem FailsAt.backtrace_eq (h : t.FailsAt ctx chain t') (hfails : t.Fails ctx e) :
    e.backtrace = backtraceOf chain t.machine.calls.active := by
  obtain ⟨kind, hkind⟩ := h.fails_backtraceOf
  rw [hfails.unique hkind]

/-- A call that is not entered ends at once, with no backtrace and the machine as it was. -/
theorem callFunction_of_not_entered {fuel : Nat} {f : FunctionDecl}
    {values : List Value} {m : Machine} (h : ∀ m', ¬ Entered ctx.scoping f values m m') :
    ∃ kind, callFunction ctx.scoping (evaluate ctx fuel) f values m =
      .ok (.error ⟨kind, []⟩, m) := by
  obtain ⟨env, calls⟩ := m
  rw [callFunction_eq]
  split
  · rename_i harity
    rw [inCall_apply]
    cases hpush : calls.push f.name with
    | error kind => exact ⟨kind, rfl⟩
    | ok inner => exact absurd ⟨harity, rfl, hpush⟩ (h ⟨_, inner⟩)
  · exact ⟨_, rfl⟩

end Task

/-! ### Runs of programs -/

namespace Program

open Eval

variable {settings : Settings} {functions : FunctionTable} {fuel : Nat} {p : Program}
  {entered chain : List String} {t : Task} {e : EvalError} {m : Machine} {i' : Interpreter}

/-- No task that the run begins fails. -/
def FailsOutside (settings : Settings) (fuel : Nat) (p : Program) : Prop :=
  ∀ functions entered t e, FunctionTable.ofProgram p = .ok functions →
    p.Begins settings functions fuel entered t → ¬ t.Fails ⟨functions, settings.scoping⟩ e

/-- The task is where the run fails. -/
inductive FailsAt (settings : Settings) (fuel : Nat) (p : Program) : List String → Task → Prop
  | mk {functions entered chain t t'} (hfunctions : FunctionTable.ofProgram p = .ok functions)
    (hbegins : p.Begins settings functions fuel entered t)
    (hat : t.FailsAt ⟨functions, settings.scoping⟩ chain t') :
    FailsAt settings fuel p (chain ++ entered) t'

theorem FailsAt.within (h : p.FailsAt settings fuel chain t) : p.Within settings fuel chain t := by
  obtain ⟨hfunctions, hbegins, hat⟩ := h
  exact .mk hfunctions hbegins hat.within

/-- A run fails when a task that it begins does. -/
theorem Begins.fails (hfunctions : FunctionTable.ofProgram p = .ok functions)
    (h : p.Begins settings functions fuel entered t)
    (hfails : t.Fails ⟨functions, settings.scoping⟩ e) (m : Machine) :
    ∃ i', Interpreter.run ⟨settings, m⟩ fuel p =
      .ok (.error (Task.leaving e entered t.machine.calls.active), i') := by
  rw [Interpreter.run_of_functions hfunctions]
  suffices hsteps : ∃ m', runProgram ⟨functions, settings.scoping⟩ fuel p settings.machine =
      .ok (.error (Task.leaving e entered t.machine.calls.active), m') by
    obtain ⟨m', hm'⟩ := hsteps
    exact ⟨_, Interpreter.perform_eq_ok_iff.2 ⟨m', hm', rfl⟩⟩
  rw [runProgram_eq]
  cases h with
  | initializer hglobals hbefore =>
    obtain ⟨m', hm'⟩ := hfails
    refine ⟨m', bind_apply_of_error ?_ _⟩
    rw [hglobals]
    exact forM_eq_error_iff.2 ⟨_, _, _, _, rfl, hbefore, bind_apply_of_error hm' _⟩
  | main hglobals hmain hentered =>
    obtain ⟨after, hbody⟩ := hfails
    obtain ⟨m', hcall⟩ := Task.callFunction_of_entered hentered hbody
    refine ⟨m', (bind_apply_of_ok hglobals _).trans ?_⟩
    dsimp only
    rw [hmain]
    exact hcall

/-- A run that fails by itself has no calls to record. -/
theorem FailsOutside.backtrace_eq_nil (h : p.FailsOutside settings fuel)
    (hrun : Interpreter.run ⟨settings, m⟩ fuel p = .ok (.error e, i')) : e.backtrace = [] := by
  cases hfunctions : FunctionTable.ofProgram p with
  | error kind =>
    obtain ⟨m', hsteps, -⟩ := Interpreter.perform_eq_ok_iff.1 hrun
    rw [hfunctions] at hsteps
    obtain ⟨he, -⟩ := Prod.mk.inj (Except.ok.inj hsteps)
    rw [← Except.error.inj he]
  | ok functions =>
    rw [Interpreter.run_of_functions hfunctions] at hrun
    obtain ⟨m', hsteps, -⟩ := Interpreter.perform_eq_ok_iff.1 hrun
    rw [runProgram_eq] at hsteps
    rcases bind_eq_ok_iff.1 hsteps with ⟨_, m₁, hglobals, hsteps⟩ | ⟨e', he', hglobals⟩
    · rcases bind_eq_ok_iff.1 hsteps with ⟨f, m₂, hmain, hcall⟩ | ⟨e', he', hmain⟩
      · obtain ⟨hf, rfl⟩ := Task.eq_some_of_require hmain
        rcases Task.entered_of_callFunction hcall with hnil | ⟨m₃, e', hentered, hbody⟩
        · exact hnil
        · exact absurd hbody (h _ _ _ e' hfunctions (.main hglobals hf hentered))
      · obtain rfl := Except.error.inj he'
        exact Task.raises_require _ _ _ _ _ hmain
    · obtain rfl := Except.error.inj he'
      obtain ⟨before, g, after, m₁, hsplit, hbefore, hset⟩ := forM_eq_error_iff.1 hglobals
      rcases bind_eq_ok_iff.1 hset with ⟨value, m₂, -, hdefine⟩ | ⟨e', he', hvalue⟩
      · exact Task.raises_update _ _ _ _ hdefine
      · exact absurd ⟨m', hvalue⟩ (h _ _ _ e' hfunctions (.initializer hsplit hbefore))

/-- The error of a run, told from the point where it fails. -/
theorem FailsAt.backtrace_eq (h : p.FailsAt settings fuel chain t)
    (hrun : Interpreter.run ⟨settings, m⟩ fuel p = .ok (.error e, i')) : e.backtrace = chain := by
  have hactive := h.within.active_eq
  obtain ⟨hfunctions, hbegins, hat⟩ := h
  rename_i functions entered inner t₀
  obtain ⟨kind, hfails⟩ := hat.fails_backtraceOf
  have hentered : t₀.machine.calls.active = entered ++ [] := by
    have htask := hat.within.active_eq
    rw [hactive] at htask
    rw [List.append_nil]
    exact (List.append_cancel_left htask).symm
  obtain ⟨i'', hrun'⟩ := hbegins.fails hfunctions hfails m
  rw [hentered, Task.leaving_backtraceOf, backtraceOf_nil_right, hrun] at hrun'
  rw [Except.error.inj (Prod.mk.inj (Except.ok.inj hrun')).1]

/-- A run that fails does so by itself, or there is a point where it does. -/
theorem failsOutside_or_exists_failsAt (settings : Settings) (fuel : Nat) (p : Program) :
    p.FailsOutside settings fuel ∨ ∃ chain t, p.FailsAt settings fuel chain t := by
  by_cases hat : ∃ chain t, p.FailsAt settings fuel chain t
  · exact .inr hat
  · refine .inl fun functions entered t e hfunctions hbegins hfails => hat ?_
    obtain ⟨chain, t', hat⟩ := Task.exists_failsAt hfails
    exact ⟨chain ++ entered, t', .mk hfunctions hbegins hat⟩

end Program

/-- The backtrace of an evaluation that fails is the list of the calls active at the point of
failure, which are those that were entered on the way there and those that were active before; it is
empty if none was entered. A call that is refused leaves no record of itself. For a run of a program
the backtrace is empty if the run fails outside all tasks, and the chain of calls to the point of
failure otherwise, and it is no longer than the limit on calls. -/
theorem Interpreter.backtrace_eq_active_calls :
    (∀ (i i' : Interpreter) (functions : FunctionTable) (fuel : Nat) (e : Expr) (error : EvalError),
      i.evaluate fuel functions e = .ok (.error error, i') →
        (∃ chain t, Task.FailsAt ⟨functions, i.settings.scoping⟩ ⟨fuel, e, i.machine⟩ chain t) ∧
        ∀ chain t, Task.FailsAt ⟨functions, i.settings.scoping⟩ ⟨fuel, e, i.machine⟩ chain t →
          t.Fails ⟨functions, i.settings.scoping⟩ ⟨error.kind, []⟩ ∧
          t.machine.calls.active = chain ++ i.machine.calls.active ∧
          error.backtrace = if chain = [] then [] else chain ++ i.machine.calls.active) ∧
    (∀ (ctx : Context) (fuel : Nat) (f : FunctionDecl) (values : List Value) (m : Machine),
      values.length ≠ f.parameters.length ∨
          (∃ d, m.calls.limit = some d ∧ d ≤ m.calls.depth) →
        ∃ kind, Eval.callFunction ctx.scoping (Eval.evaluate ctx fuel) f values m =
          .ok (.error ⟨kind, []⟩, m)) ∧
    ∀ (i i' : Interpreter) (fuel : Nat) (p : Program) (error : EvalError),
      i.run fuel p = .ok (.error error, i') →
        (p.FailsOutside i.settings fuel ∧ error.backtrace = [] ∨
          ∃ chain t, p.FailsAt i.settings fuel chain t) ∧
        (∀ chain t, p.FailsAt i.settings fuel chain t →
          t.machine.calls.active = chain ∧ error.backtrace = chain) ∧
        ∀ d, i.settings.callLimit = some d → error.backtrace.length ≤ d := by
  refine ⟨fun i i' functions fuel e error h => ?_, fun ctx fuel f values m h => ?_,
    fun i i' fuel p error h => ?_⟩
  · obtain ⟨m', hm', -⟩ := Interpreter.perform_eq_ok_iff.1 h
    have hfails : Task.Fails ⟨functions, i.settings.scoping⟩ ⟨fuel, e, i.machine⟩ error := ⟨m', hm'⟩
    refine ⟨Task.exists_failsAt hfails, fun chain t hat => ?_⟩
    obtain ⟨⟨kind, trace⟩, hpoint⟩ := hat.fails
    obtain rfl : trace = [] := Task.backtrace_eq_nil_of_fails hpoint hat.itself
    have herror := hfails.unique (hat.within.fails hpoint)
    rw [herror]
    exact ⟨hpoint, hat.within.active_eq, rfl⟩
  · apply Task.callFunction_of_not_entered
    rintro m' ⟨harity, -, hpush⟩
    rcases h with h | ⟨d, hd, hfull⟩
    · exact h harity
    · unfold CallStack.push at hpush
      rw [hd] at hpush
      simp only [if_neg (Nat.not_lt.2 hfull), reduceCtorEq] at hpush
  · have hchain := fun chain t (hat : p.FailsAt i.settings fuel chain t) => hat.backtrace_eq h
    refine ⟨?_, fun chain t hat => ⟨hat.within.active_eq, hchain chain t hat⟩, fun d hd => ?_⟩
    · rcases p.failsOutside_or_exists_failsAt i.settings fuel with hout | hat
      · exact .inl ⟨hout, hout.backtrace_eq_nil h⟩
      · exact .inr hat
    · rcases p.failsOutside_or_exists_failsAt i.settings fuel with hout | ⟨chain, t, hat⟩
      · rw [hout.backtrace_eq_nil h]
        exact Nat.zero_le d
      · rw [hchain chain t hat, ← hat.within.active_eq]
        exact hat.within.depth_le hd

/-- A division by zero two calls deep, with another call active before. -/
theorem backtrace_two_calls_deep :
    ∃ (i i' : Interpreter) (functions : FunctionTable) (chain : List String) (t : Task),
      i.evaluate 9 functions (.call "g" [.integer 1]) =
        .ok (.error ⟨.divisionByZero, ["f", "g", "main"]⟩, i') ∧
      Task.FailsAt ⟨functions, .lexical⟩ ⟨9, .call "g" [.integer 1], i.machine⟩ chain t ∧
      t.machine.calls.active = ["f", "g", "main"] := by
  let division : Expr := .binary .divide (.variable "x") (.integer 0)
  let functions : FunctionTable := ⟨(Std.ExtTreeMap.empty.insert "f" ⟨"f", ["x"], division⟩).insert
    "g" ⟨"g", ["x"], .call "f" [.variable "x"]⟩⟩
  let i : Interpreter := ⟨⟨.lexical, some 3, .empty⟩, ⟨.empty, ⟨["main"], some 3⟩⟩⟩
  obtain ⟨hevaluate, -, -⟩ := Interpreter.backtrace_eq_active_calls
  obtain ⟨⟨chain, t, hat⟩, hpoint⟩ := hevaluate i _ functions 9 (.call "g" [.integer 1])
    ⟨.divisionByZero, ["f", "g", "main"]⟩ rfl
  obtain ⟨-, hactive, htrace⟩ := hpoint chain t hat
  refine ⟨i, _, functions, chain, t, rfl, hat, ?_⟩
  split at htrace
  · cases htrace
  · rw [hactive]
    exact htrace.symm

end Scriptlet
