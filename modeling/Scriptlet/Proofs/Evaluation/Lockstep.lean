import Scriptlet.Proofs.Evaluation.Steps
import Scriptlet.Proofs.Tree.Parts

/-!
# Two runs side by side

A coupling says which pairs of machines two runs may be on at the same time, and with which errors
the first of the two may end on its own. Two steps are in lockstep if from such a pair they lead to
such a pair with one result, or are interrupted alike, or the first ends on its own (`Lockstep`). If
looking up, assigning and calling are in lockstep, so is all evaluation (`lockstep_evaluate`). Where
only some names can be looked up and assigned in lockstep, so is the evaluation of the expressions
that have no others in them (`lockstep_evaluate_of_fits`).

The pairs are indexed, since what the two runs have in common is not the same inside a call as
outside: an index stays for the length of an evaluation and is another one in the calls that it
makes.

The first coupling is of machines that differ in the limit on calls (`Coupling.limits`). With one
limit for both it says of a single run that on every machine, well formed or not, evaluation leaves
as many scopes as it finds, and the same calls active (`balanced_evaluate`).
-/

namespace Scriptlet

/-- Which pairs of machines two runs may be on, and with which errors the first may end alone. -/
structure Coupling (ι : Type) where
  related : ι → Machine → Machine → Prop
  escapes : ι → EvalError → Machine → Prop

/-- How two steps may end that begin on related machines. -/
inductive Coupling.Ends {ι α : Type} (C : Coupling ι) (i : ι) :
    Except Interrupt (Except EvalError α × Machine) →
    Except Interrupt (Except EvalError α × Machine) → Prop
  | interrupted (interrupt : Interrupt) : C.Ends i (.error interrupt) (.error interrupt)
  | together (r : Except EvalError α) {m₁ m₂ : Machine} (h : C.related i m₁ m₂) :
    C.Ends i (.ok (r, m₁)) (.ok (r, m₂))
  | alone {e : EvalError} {m₁ : Machine} (h : C.escapes i e m₁)
    (other : Except Interrupt (Except EvalError α × Machine)) : C.Ends i (.ok (.error e, m₁)) other

theorem Coupling.Ends.imp {ι α : Type} {C D : Coupling ι} {i : ι}
    {end₁ end₂ : Except Interrupt (Except EvalError α × Machine)} (h : C.Ends i end₁ end₂)
    (hrelated : ∀ m₁ m₂, C.related i m₁ m₂ → D.related i m₁ m₂)
    (hescapes : ∀ e m, C.escapes i e m → D.escapes i e m) : D.Ends i end₁ end₂ := by
  cases h with
  | interrupted interrupt => exact .interrupted interrupt
  | together r hm => exact .together r (hrelated _ _ hm)
  | alone he => exact .alone (hescapes _ _ he) _

namespace Eval

variable {ι α β : Type} {C : Coupling ι}

/-- From related machines the two steps end alike, or the first ends alone. -/
def Lockstep (C : Coupling ι) (x y : Eval α) : Prop :=
  ∀ i m₁ m₂, C.related i m₁ m₂ → C.Ends i (x m₁) (y m₂)

/-! ### Single steps -/

/-- A step that ends alike on all machines and leaves them as they are. -/
theorem lockstep_of_apply_eq {x : Eval α} {r : Except EvalError α}
    (h : ∀ m, x m = .ok (r, m)) : Lockstep C x x := by
  intro i m₁ m₂ hm
  rw [h m₁, h m₂]
  exact .together r hm

theorem lockstep_pure (a : α) : Lockstep C (pure a) (pure a) :=
  lockstep_of_apply_eq (pure_apply a)

theorem lockstep_raise (kind : ErrorKind) : Lockstep C (raise kind : Eval α) (raise kind) :=
  lockstep_of_apply_eq (raise_apply kind)

theorem lockstep_check (result : Except ErrorKind α) : Lockstep C (check result) (check result) :=
  lockstep_of_apply_eq (check_apply result)

theorem lockstep_require (missing : ErrorKind) (value : Option α) :
    Lockstep C (require missing value) (require missing value) :=
  lockstep_of_apply_eq (require_apply missing value)

theorem lockstep_outOfFuel : Lockstep C (outOfFuel : Eval α) outOfFuel :=
  fun _ _ _ _ => .interrupted .outOfFuel

/-! ### Steps in a row -/

theorem Lockstep.bind {x y : Eval α} {f g : α → Eval β} (hxy : Lockstep C x y)
    (hfg : ∀ a, Lockstep C (f a) (g a)) : Lockstep C (x >>= f) (y >>= g) := by
  intro i m₁ m₂ hm
  have hends := hxy i m₁ m₂ hm
  generalize hx : x m₁ = xEnd, hy : y m₂ = yEnd at hends
  cases hends with
  | interrupted interrupt =>
    rw [bind_apply_of_interrupt hx, bind_apply_of_interrupt hy]
    exact .interrupted interrupt
  | together r hm' =>
    cases r with
    | error e =>
      rw [bind_apply_of_error hx, bind_apply_of_error hy]
      exact .together _ hm'
    | ok a =>
      rw [bind_apply_of_ok hx, bind_apply_of_ok hy]
      exact hfg a i _ _ hm'
  | alone he =>
    rw [bind_apply_of_error hx]
    exact .alone he _

theorem Lockstep.mapM {f g : α → Eval β} {as : List α} (hfg : ∀ a ∈ as, Lockstep C (f a) (g a)) :
    Lockstep C (as.mapM f) (as.mapM g) := by
  induction as with
  | nil => exact lockstep_pure []
  | cons a as ih =>
    obtain ⟨ha, has⟩ := List.forall_mem_cons.1 hfg
    rw [List.mapM_cons, List.mapM_cons]
    exact ha.bind fun _ => (ih has).bind fun _ => lockstep_pure _

theorem Lockstep.foldlM {f g : β → α → Eval β} {as : List α}
    (hfg : ∀ a ∈ as, ∀ b, Lockstep C (f b a) (g b a)) (b : β) :
    Lockstep C (as.foldlM f b) (as.foldlM g b) := by
  induction as generalizing b with
  | nil => exact lockstep_pure b
  | cons a as ih =>
    obtain ⟨ha, has⟩ := List.forall_mem_cons.1 hfg
    rw [List.foldlM_cons, List.foldlM_cons]
    exact (ha b).bind (ih has)

theorem Lockstep.forM {f g : α → Eval Unit} (hfg : ∀ a, Lockstep C (f a) (g a)) (as : List α) :
    Lockstep C (as.forM f) (as.forM g) := by
  induction as with
  | nil => exact lockstep_pure ()
  | cons a as ih => exact (hfg a).bind fun _ => ih

/-- What follows a required value may rely on the value being there. -/
theorem lockstep_require_bind {missing : ErrorKind} {value : Option α} {f g : α → Eval β}
    (hfg : ∀ a, value = some a → Lockstep C (f a) (g a)) :
    Lockstep C (require missing value >>= f) (require missing value >>= g) := by
  cases value with
  | none =>
    intro i m₁ m₂ hm
    rw [bind_apply_of_error (require_apply missing none m₁),
      bind_apply_of_error (require_apply missing none m₂)]
    exact .together _ hm
  | some a =>
    have hpure (h : α → Eval β) : (require missing (some a) >>= h) = h a := rfl
    rw [hpure, hpure]
    exact hfg a rfl

/-! ### Evaluation -/

section Evaluate

variable {functions : FunctionTable} {scoping₁ scoping₂ : Scoping} {eval₁ eval₂ : Expr → Eval Value}

theorem lockstep_callFunction {f : FunctionDecl} {arguments : List Value}
    (hcall : arguments.length = f.parameters.length →
      Lockstep C (inCall scoping₁ f.name (f.parameters.zip arguments) (eval₁ f.body))
        (inCall scoping₂ f.name (f.parameters.zip arguments) (eval₂ f.body))) :
    Lockstep C (callFunction scoping₁ eval₁ f arguments)
      (callFunction scoping₂ eval₂ f arguments) := by
  rw [callFunction_eq, callFunction_eq]
  split
  · exact hcall ‹_›
  · exact lockstep_raise _

theorem lockstep_bindLabel {argument : String × Expr}
    (heval : Lockstep C (eval₁ argument.2) (eval₂ argument.2)) (name : String)
    (parameters : List String) (bound : List (String × Value)) :
    Lockstep C (bindLabel eval₁ name parameters bound argument)
      (bindLabel eval₂ name parameters bound argument) := by
  rw [bindLabel_eq, bindLabel_eq]
  refine heval.bind fun value => ?_
  split
  · exact lockstep_pure _
  · exact lockstep_raise _

theorem lockstep_labelledArguments {arguments : List (String × Expr)}
    (heval : ∀ e ∈ arguments.map Prod.snd, Lockstep C (eval₁ e) (eval₂ e)) (name : String)
    (parameters : List String) :
    Lockstep C (labelledArguments eval₁ name parameters arguments)
      (labelledArguments eval₂ name parameters arguments) := by
  rw [labelledArguments_eq, labelledArguments_eq]
  have hbind (argument) (hargument : argument ∈ arguments) :=
    lockstep_bindLabel (heval _ (List.mem_map_of_mem hargument)) name parameters
  refine (Lockstep.foldlM hbind []).bind fun bound => ?_
  split
  · exact lockstep_pure _
  · exact lockstep_raise _

section Fitting

variable {κ : Type} (D : κ → Coupling ι) (fits : κ → Expr → Prop)
  (hparts : ∀ k e, fits k e → ∀ d ∈ e.children, fits k d)
  (hlookup : ∀ k name, fits k (.variable name) →
    Lockstep (D k) (inspect (·.lookup name)) (inspect (·.lookup name)))
  (hassign : ∀ k name e value, fits k (.assign name e) →
    Lockstep (D k) (update (·.assign name value)) (update (·.assign name value)))
  (hcall : ∀ k fuel name f arguments, functions.get? name = some f →
    arguments.length = f.parameters.length →
    (∀ k, fits k f.body → Lockstep (D k) (evaluate ⟨functions, scoping₁⟩ fuel f.body)
      (evaluate ⟨functions, scoping₂⟩ fuel f.body)) →
    Lockstep (D k)
      (inCall scoping₁ f.name (f.parameters.zip arguments)
        (evaluate ⟨functions, scoping₁⟩ fuel f.body))
      (inCall scoping₂ f.name (f.parameters.zip arguments)
        (evaluate ⟨functions, scoping₂⟩ fuel f.body)))

include hparts hlookup hassign hcall

/-- Evaluation of the expressions that fit a coupling goes in lockstep, if looking up and assigning
the names that stand in them do, and the calls of functions of the table. The body of a function may
fit another coupling than the call of it. -/
theorem lockstep_evaluate_of_fits (fuel : Nat) (k : κ) (e : Expr) (he : fits k e) :
    Lockstep (D k) (evaluate ⟨functions, scoping₁⟩ fuel e)
      (evaluate ⟨functions, scoping₂⟩ fuel e) := by
  induction fuel generalizing k e with
  | zero => exact lockstep_outOfFuel
  | succ fuel ih =>
    have hchild (d) (hd : d ∈ e.children) := ih k d (hparts k e he d hd)
    have hfunction (name f arguments) (hf : functions.get? name = some f) :
        Lockstep (D k) (callFunction scoping₁ (evaluate ⟨functions, scoping₁⟩ fuel) f arguments)
          (callFunction scoping₂ (evaluate ⟨functions, scoping₂⟩ fuel) f arguments) :=
      lockstep_callFunction fun hlength =>
        hcall k fuel name f arguments hf hlength fun k hbody => ih k f.body hbody
    cases e with
    | integer n => exact lockstep_pure _
    | boolean b => exact lockstep_pure _
    | «variable» name => exact (hlookup k name he).bind fun _ => lockstep_require _ _
    | array items => exact (Lockstep.mapM hchild).bind fun _ => lockstep_pure _
    | binary op left right =>
      exact (hchild left (by simp [Expr.children])).bind fun _ =>
        (hchild right (by simp [Expr.children])).bind fun _ => lockstep_check _
    | call name arguments =>
      exact lockstep_require_bind fun f hf => (Lockstep.mapM hchild).bind fun _ =>
        hfunction name f _ hf
    | labelledCall name arguments =>
      exact lockstep_require_bind fun f hf =>
        (lockstep_labelledArguments hchild name f.parameters).bind fun _ => hfunction name f _ hf
    | assign name e =>
      exact (hchild e (by simp [Expr.children])).bind fun value =>
        (hassign k name e value he).bind fun _ => lockstep_pure _
    | block statements => exact Lockstep.foldlM (fun s hs _ => hchild s hs) _
    | ifThen condition consequence =>
      refine (hchild condition (by simp [Expr.children])).bind fun value =>
        (lockstep_check _).bind fun holds => ?_
      split
      · exact hchild consequence (by simp [Expr.children])
      · exact lockstep_pure _
    | ifElse condition consequence alternative =>
      refine (hchild condition (by simp [Expr.children])).bind fun value =>
        (lockstep_check _).bind fun holds => ?_
      split
      · exact hchild consequence (by simp [Expr.children])
      · exact hchild alternative (by simp [Expr.children])
    | loop condition body =>
      refine (hchild condition (by simp [Expr.children])).bind fun value =>
        (lockstep_check _).bind fun holds => ?_
      split
      · -- The loop begins again with less fuel, and fits as before.
        exact (hchild body (by simp [Expr.children])).bind fun _ => ih k _ he
      · exact lockstep_pure _

end Fitting

variable (hlookup : ∀ name, Lockstep C (inspect (·.lookup name)) (inspect (·.lookup name)))
  (hassign : ∀ name value, Lockstep C (update (·.assign name value)) (update (·.assign name value)))
  (hcall : ∀ name parameters body₁ body₂, Lockstep C body₁ body₂ →
    Lockstep C (inCall scoping₁ name parameters body₁) (inCall scoping₂ name parameters body₂))

include hlookup hassign hcall

/-- Evaluation goes in lockstep if looking up, assigning and calling do. -/
theorem lockstep_evaluate (fuel : Nat) (e : Expr) :
    Lockstep C (evaluate ⟨functions, scoping₁⟩ fuel e) (evaluate ⟨functions, scoping₂⟩ fuel e) := by
  refine lockstep_evaluate_of_fits (fun _ : Unit => C) (fun _ _ => True) ?_ ?_ ?_ ?_ fuel () e
    trivial
  · exact fun _ _ _ _ _ => trivial
  · exact fun _ name _ => hlookup name
  · exact fun _ name _ value _ => hassign name value
  · exact fun _ _ _ f _ _ _ hbody => hcall f.name _ _ _ (hbody () trivial)

variable (hdefine : ∀ name value,
    Lockstep C (update (·.defineGlobal name value)) (update (·.defineGlobal name value)))

include hdefine

theorem lockstep_setGlobals (fuel : Nat) (gs : List GlobalDecl) :
    Lockstep C (gs.forM (setGlobal ⟨functions, scoping₁⟩ fuel))
      (gs.forM (setGlobal ⟨functions, scoping₂⟩ fuel)) := by
  refine Lockstep.forM (fun g => ?_) gs
  refine Lockstep.bind ?_ fun value => hdefine g.name value
  exact lockstep_evaluate hlookup hassign hcall fuel g.initializer

/-- Programs run in lockstep if binding a global does, too. -/
theorem lockstep_runProgram (fuel : Nat) (p : Program) :
    Lockstep C (runProgram ⟨functions, scoping₁⟩ fuel p)
      (runProgram ⟨functions, scoping₂⟩ fuel p) := by
  rw [runProgram_eq, runProgram_eq]
  refine (lockstep_setGlobals hlookup hassign hcall hdefine fuel p.globals).bind fun _ => ?_
  refine (lockstep_require _ _).bind fun main => ?_
  refine lockstep_callFunction fun _ => hcall main.name _ _ _ ?_
  exact lockstep_evaluate hlookup hassign hcall fuel main.body

end Evaluate

end Eval

/-! ### Machines that differ in the limit -/

namespace Environment

variable {env env' : Environment} {name : String} {value : Value}

theorem size_bindAt {id : ScopeId} (h : env.bindAt id name value = .ok env') :
    env'.scopes.size = env.scopes.size := by
  unfold bindAt at h
  split at h
  · rw [← Except.ok.inj h]
    exact Array.size_modify
  · cases h

theorem size_assign (h : env.assign name value = .ok env') :
    env'.scopes.size = env.scopes.size := by
  unfold assign at h
  cases howner : env.find name with
  | error f =>
    rw [howner] at h
    cases h
  | ok owner =>
    rw [howner] at h
    exact size_bindAt h

/-- With as many scopes as inside the call, leaving it succeeds and takes off one. -/
theorem leave_of_size (h : env'.scopes.size = env.scopes.size + 1) :
    ∃ left, env'.leave env.mark = .ok left ∧ left.scopes.size = env.scopes.size := by
  refine ⟨⟨env.current, env'.scopes.shrink env.scopes.size⟩, if_pos ?_, ?_⟩
  · show env.scopes.size ≤ env'.scopes.size
    omega
  · show (env'.scopes.shrink env.scopes.size).size = env.scopes.size
    rw [Array.size_shrink]
    omega

end Environment

namespace CallStack

/-- The first limit allows no more active calls than the second. -/
def LimitLe (limit₁ limit₂ : Option Nat) : Prop :=
  ∀ d₂, limit₂ = some d₂ → ∃ d₁, limit₁ = some d₁ ∧ d₁ ≤ d₂

theorem LimitLe.refl (limit : Option Nat) : LimitLe limit limit :=
  fun d hd => ⟨d, hd, Nat.le_refl d⟩

/-- Beginning a call fails under the smaller limit, or succeeds under both. -/
theorem LimitLe.push {limit₁ limit₂ : Option Nat} (h : LimitLe limit₁ limit₂) (active : List String)
    (name : String) :
    (∃ d, limit₁ = some d ∧ CallStack.push ⟨active, limit₁⟩ name = .error (.stackExhausted d)) ∨
      CallStack.push ⟨active, limit₁⟩ name = .ok ⟨name :: active, limit₁⟩ ∧
        CallStack.push ⟨active, limit₂⟩ name = .ok ⟨name :: active, limit₂⟩ := by
  cases limit₁ with
  | none =>
    cases limit₂ with
    | none => exact .inr ⟨rfl, rfl⟩
    | some d₂ =>
      obtain ⟨d₁, hd₁, -⟩ := h d₂ rfl
      cases hd₁
  | some d₁ =>
    by_cases hroom : active.length < d₁
    · refine .inr ⟨if_pos hroom, ?_⟩
      cases limit₂ with
      | none => rfl
      | some d₂ =>
        obtain ⟨d, hd, hle⟩ := h d₂ rfl
        obtain rfl := Option.some.inj hd
        exact if_pos (Nat.lt_of_lt_of_le hroom hle)
    · exact .inl ⟨d₁, rfl, if_neg hroom⟩

end CallStack

/-- Two machines that differ in the limit only. The index has the number of scopes and the active
calls, and the run under the first limit ends alone when that limit is reached. -/
def Coupling.limits (limit₁ limit₂ : Option Nat) : Coupling (Nat × List String) where
  related i m₁ m₂ :=
    m₁.env = m₂.env ∧ m₁.env.scopes.size = i.1 ∧ m₁.calls = ⟨i.2, limit₁⟩ ∧ m₂.calls = ⟨i.2, limit₂⟩
  escapes i e m :=
    (∃ d, limit₁ = some d ∧ e.kind = .stackExhausted d) ∧
      m.env.scopes.size = i.1 ∧ m.calls = ⟨i.2, limit₁⟩

namespace Eval

variable {limit₁ limit₂ : Option Nat}

theorem lockstep_limits_inspect {α : Type} (f : Environment → Except Fault α) :
    Lockstep (.limits limit₁ limit₂) (inspect f) (inspect f) := by
  rintro i m₁ m₂ hm
  rw [inspect_apply, inspect_apply, ← hm.1]
  cases f m₁.env with
  | error fault => exact .interrupted _
  | ok a => exact .together _ hm

theorem lockstep_limits_update {f : Environment → Except Fault Environment}
    (hf : ∀ env env', f env = .ok env' → env'.scopes.size = env.scopes.size) :
    Lockstep (.limits limit₁ limit₂) (update f) (update f) := by
  rintro i m₁ m₂ ⟨henv, hsize, hcalls₁, hcalls₂⟩
  rw [update_apply, update_apply, ← henv]
  cases hupdate : f m₁.env with
  | error fault => exact .interrupted _
  | ok env => exact .together _ ⟨rfl, (hf _ _ hupdate).trans hsize, hcalls₁, hcalls₂⟩

theorem lockstep_limits_inCall (hlimit : CallStack.LimitLe limit₁ limit₂) (scoping : Scoping)
    (name : String) (parameters : List (String × Value)) (body₁ body₂ : Eval Value)
    (hbody : Lockstep (.limits limit₁ limit₂) body₁ body₂) :
    Lockstep (.limits limit₁ limit₂) (inCall scoping name parameters body₁)
      (inCall scoping name parameters body₂) := by
  rintro ⟨size, active⟩ ⟨env, calls₁⟩ ⟨env₂, calls₂⟩ ⟨henv, hsize, hcalls₁, hcalls₂⟩
  dsimp only at henv hsize hcalls₁ hcalls₂
  subst henv hcalls₁ hcalls₂
  rw [inCall_apply, inCall_apply]
  rcases hlimit.push active name with ⟨d, hd, hpush⟩ | ⟨hpush₁, hpush₂⟩
  · rw [hpush]
    refine .alone ?_ _
    exact ⟨⟨d, hd, rfl⟩, hsize, rfl⟩
  · rw [hpush₁, hpush₂]
    dsimp only
    have hentered : (env.enterCall scoping parameters).scopes.size = size + 1 := by
      rw [← hsize]
      exact Array.size_push _
    have hends := hbody (size + 1, name :: active)
      ⟨env.enterCall scoping parameters, ⟨name :: active, limit₁⟩⟩
      ⟨env.enterCall scoping parameters, ⟨name :: active, limit₂⟩⟩ ⟨rfl, hentered, rfl, rfl⟩
    generalize hrun₁ : body₁ _ = end₁, hrun₂ : body₂ _ = end₂ at hends
    cases hends with
    | interrupted interrupt => exact .interrupted interrupt
    | together r hafter =>
      rename_i after₁ after₂
      obtain ⟨henv, hsize', hcalls₁, hcalls₂⟩ := hafter
      obtain ⟨left, hleft, hleftSize⟩ := Environment.leave_of_size (hsize'.trans (by rw [hsize]))
      simp only [← henv, hleft, hcalls₁, hcalls₂, CallStack.pop]
      exact .together _ ⟨rfl, hleftSize.trans hsize, rfl, rfl⟩
    | alone he =>
      rename_i e after₁
      obtain ⟨⟨d, hd, hkind⟩, hsize', hcalls₁⟩ := he
      obtain ⟨left, hleft, hleftSize⟩ := Environment.leave_of_size (hsize'.trans (by rw [hsize]))
      simp only [hleft, hcalls₁, CallStack.pop]
      refine .alone ?_ _
      exact ⟨⟨d, hd, (EvalError.kind_withBacktrace e _).trans hkind⟩, hleftSize.trans hsize, rfl⟩

variable (ctx : Context) (fuel : Nat)

theorem lockstep_limits_assign (name : String) (value : Value) :
    Lockstep (.limits limit₁ limit₂) (update (·.assign name value))
      (update (·.assign name value)) :=
  lockstep_limits_update fun _ _ => Environment.size_assign

theorem lockstep_limits_defineGlobal (name : String) (value : Value) :
    Lockstep (.limits limit₁ limit₂) (update (·.defineGlobal name value))
      (update (·.defineGlobal name value)) :=
  lockstep_limits_update fun _ _ => Environment.size_bindAt

theorem lockstep_limits_evaluate (hlimit : CallStack.LimitLe limit₁ limit₂) (e : Expr) :
    Lockstep (.limits limit₁ limit₂) (evaluate ctx fuel e) (evaluate ctx fuel e) :=
  lockstep_evaluate (fun _ => lockstep_limits_inspect _) lockstep_limits_assign
    (lockstep_limits_inCall hlimit ctx.scoping) fuel e

/-! ### What steps leave as it is -/

/-- On any machine, the step leaves as many scopes as it finds, and the same calls active. -/
def Balanced {α : Type} (x : Eval α) : Prop :=
  ∀ m r m', x m = .ok (r, m') → m'.env.scopes.size = m.env.scopes.size ∧ m'.calls = m.calls

/-- A step that is in lockstep with itself under one limit is balanced. -/
theorem balanced_of_lockstep {α : Type} {x : Eval α}
    (h : ∀ limit, Lockstep (.limits limit limit) x x) : Balanced x := by
  rintro ⟨env, active, limit⟩ r m' hx
  have hends := h limit (env.scopes.size, active) ⟨env, ⟨active, limit⟩⟩ ⟨env, ⟨active, limit⟩⟩
    ⟨rfl, rfl, rfl, rfl⟩
  rw [hx] at hends
  cases hends with
  | together r hm' => exact ⟨hm'.2.1, hm'.2.2.1⟩
  | alone he => exact ⟨he.2.1, he.2.2⟩

theorem balanced_evaluate (e : Expr) : Balanced (evaluate ctx fuel e) :=
  balanced_of_lockstep fun limit => lockstep_limits_evaluate ctx fuel (.refl limit) e

theorem balanced_mapM (es : List Expr) : Balanced (es.mapM (evaluate ctx fuel)) :=
  balanced_of_lockstep fun limit =>
    Lockstep.mapM fun e _ => lockstep_limits_evaluate ctx fuel (.refl limit) e

theorem balanced_foldlM (es : List Expr) (last : Value) :
    Balanced (es.foldlM (fun _ e => evaluate ctx fuel e) last) :=
  balanced_of_lockstep fun limit =>
    Lockstep.foldlM (fun e _ _ => lockstep_limits_evaluate ctx fuel (.refl limit) e) last

theorem balanced_foldlM_bindLabel (name : String) (parameters : List String)
    (arguments : List (String × Expr)) (bound : List (String × Value)) :
    Balanced (arguments.foldlM (bindLabel (evaluate ctx fuel) name parameters) bound) :=
  balanced_of_lockstep fun limit => Lockstep.foldlM (fun argument _ =>
    lockstep_bindLabel (lockstep_limits_evaluate ctx fuel (.refl limit) argument.2) name parameters)
    bound

theorem balanced_labelledArguments (name : String) (parameters : List String)
    (arguments : List (String × Expr)) :
    Balanced (labelledArguments (evaluate ctx fuel) name parameters arguments) :=
  balanced_of_lockstep fun limit => lockstep_labelledArguments
    (fun e _ => lockstep_limits_evaluate ctx fuel (.refl limit) e) name parameters

theorem balanced_setGlobals (gs : List GlobalDecl) : Balanced (gs.forM (setGlobal ctx fuel)) :=
  balanced_of_lockstep fun limit => lockstep_setGlobals (fun _ => lockstep_limits_inspect _)
    lockstep_limits_assign (lockstep_limits_inCall (.refl limit) ctx.scoping)
    lockstep_limits_defineGlobal fuel gs

end Eval

end Scriptlet
