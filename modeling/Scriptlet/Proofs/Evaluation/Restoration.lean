import Scriptlet.Proofs.Evaluation.Steps

/-!
# Scopes and calls are restored

In a well-formed environment the current scope is there and the parent of each scope is a scope
below it, so the way outward ends after at most as many steps as there are scopes
(`find_of_wellFormed`). Evaluation keeps this, and it keeps more: however it ends, the scopes are as
many as before with the parents that they had, the same one is current, and the same calls are
active (`restoring`). Only the bindings inside the scopes change.

Binding a name changes no parent. A call adds a scope and a call for its body, and since the body
restores both, leaving takes off exactly what was added (`leave_of_sameShape`, `keeps_inCall`).
-/

namespace Scriptlet

namespace Environment

variable {env env' : Environment}

/-- The current scope is there, and the parent of each scope is a scope below it. -/
structure WellFormed (env : Environment) : Prop where
  current_lt : env.current < env.scopes.size
  parent_lt : ∀ (id : ScopeId) (scope : Scope) (parent : ScopeId), env.scopes[id]? = some scope →
    scope.parent = some parent → parent < id

/-- The parents of the scopes, from the bottom. -/
def parents (env : Environment) : Array (Option ScopeId) :=
  env.scopes.map Scope.parent

/-- The same scopes as far as their number, their parents and the current one go. -/
structure SameShape (env env' : Environment) : Prop where
  current : env'.current = env.current
  parents : env'.parents = env.parents

/-! ### Shapes -/

theorem SameShape.refl (env : Environment) : SameShape env env :=
  ⟨rfl, rfl⟩

theorem SameShape.symm (h : SameShape env env') : SameShape env' env :=
  ⟨h.current.symm, h.parents.symm⟩

theorem SameShape.trans {env'' : Environment} (h : SameShape env env') (h' : SameShape env' env'') :
    SameShape env env'' :=
  ⟨h'.current.trans h.current, h'.parents.trans h.parents⟩

theorem size_parents (env : Environment) : env.parents.size = env.scopes.size :=
  Array.size_map

theorem SameShape.size (h : SameShape env env') : env'.scopes.size = env.scopes.size := by
  rw [← size_parents env', h.parents, size_parents]

theorem getElem?_parents (env : Environment) (id : ScopeId) :
    env.parents[id]? = env.scopes[id]?.map Scope.parent :=
  Array.getElem?_map

/-- Well-formedness in terms of the parents only. -/
theorem wellFormed_iff : env.WellFormed ↔ env.current < env.parents.size ∧
    ∀ id parent : ScopeId, env.parents[id]? = some (some parent) → parent < id := by
  constructor
  · rintro ⟨hcurrent, hparent⟩
    refine ⟨by rw [size_parents]; exact hcurrent, fun id parent h => ?_⟩
    rw [getElem?_parents] at h
    obtain ⟨scope, hscope, hp⟩ := Option.map_eq_some_iff.1 h
    exact hparent id scope parent hscope hp
  · rintro ⟨hcurrent, hparent⟩
    refine ⟨by rw [← size_parents]; exact hcurrent, fun id scope parent hscope hp => ?_⟩
    apply hparent id parent
    rw [getElem?_parents, hscope, Option.map_some, hp]

/-- An environment that has only a root scope. -/
theorem wellFormed_ofRoot (bindings : Bindings) : WellFormed (ofRoot bindings) where
  current_lt := Nat.zero_lt_one
  parent_lt id scope parent hscope hparent := by
    obtain ⟨hid, rfl⟩ := Array.getElem?_eq_some_iff.1 hscope
    obtain rfl : id = 0 := Nat.lt_one_iff.1 hid
    cases hparent

theorem SameShape.wellFormed (h : SameShape env env') (hwf : env.WellFormed) : env'.WellFormed := by
  rw [wellFormed_iff] at hwf ⊢
  rw [h.current, h.parents]
  exact hwf

/-! ### Looking up and binding -/

/-- From a scope that is there the way outward goes down, so it ends. -/
theorem findFrom_of_wellFormed (hwf : env.WellFormed) (name : String) {steps : Nat} {id : ScopeId}
    (hsteps : id < steps) (hid : id < env.scopes.size) :
    ∃ owner, findFrom env.scopes name steps id = .ok owner ∧ ∀ i ∈ owner, i < env.scopes.size := by
  induction steps generalizing id with
  | zero => exact absurd hsteps (Nat.not_lt_zero id)
  | succ steps ih =>
    have hscope : env.scopes[id]? = some env.scopes[id] := Array.getElem?_eq_getElem hid
    rw [findFrom, hscope]
    dsimp only
    by_cases hbound : env.scopes[id].bindings.contains name = true
    · rw [if_pos hbound]
      refine ⟨some id, rfl, fun i hi => ?_⟩
      rw [← Option.some.inj hi]
      exact hid
    · rw [if_neg hbound]
      -- The parent is below, so one step less is enough from there.
      cases hparent : env.scopes[id].parent with
      | none => exact ⟨none, rfl, nofun⟩
      | some parent =>
        have hlt : parent < id := hwf.parent_lt id _ parent hscope hparent
        exact ih (Nat.lt_of_lt_of_le hlt (Nat.le_of_lt_succ hsteps)) (Nat.lt_trans hlt hid)

theorem find_of_wellFormed (hwf : env.WellFormed) (name : String) :
    ∃ owner, env.find name = .ok owner ∧ ∀ i ∈ owner, i < env.scopes.size :=
  findFrom_of_wellFormed hwf name (Nat.lt_succ_of_lt hwf.current_lt) hwf.current_lt

theorem lookup_of_wellFormed (hwf : env.WellFormed) (name : String) :
    ∃ value, env.lookup name = .ok value := by
  obtain ⟨owner, howner, -⟩ := find_of_wellFormed hwf name
  unfold lookup
  rw [howner]
  exact ⟨_, rfl⟩

theorem sameShape_bindAt {id : ScopeId} (hid : id < env.scopes.size) (name : String)
    (value : Value) : ∃ env', env.bindAt id name value = .ok env' ∧ SameShape env env' := by
  refine ⟨_, if_pos hid, rfl, ?_⟩
  -- A scope with one more binding has the parent that it had.
  apply Array.ext
  · simp [parents]
  · intro i hi hi'
    simp only [parents, Array.getElem_map, Array.getElem_modify]
    split <;> rfl

theorem lt_size_of_bindAt {id : ScopeId} {name : String} {value : Value}
    (h : env.bindAt id name value = .ok env') : id < env.scopes.size := by
  unfold bindAt at h
  split at h
  · assumption
  · cases h

theorem sameShape_of_bindAt {id : ScopeId} {name : String} {value : Value}
    (h : env.bindAt id name value = .ok env') : SameShape env env' := by
  obtain ⟨_, hbind, hshape⟩ := sameShape_bindAt (lt_size_of_bindAt h) name value
  obtain rfl := Except.ok.inj (h.symm.trans hbind)
  exact hshape

/-- An assignment to the name goes to the scope: the name is found there, or else nowhere, and the
scope is the current one. -/
def Receives (env : Environment) (name : String) (id : ScopeId) : Prop :=
  ∃ found, env.find name = .ok found ∧ id = found.getD env.current

theorem Receives.assign_eq {name : String} {id : ScopeId} (h : env.Receives name id)
    (value : Value) : env.assign name value = env.bindAt id name value := by
  obtain ⟨found, hfound, rfl⟩ := h
  unfold assign
  rw [hfound]
  rfl

theorem WellFormed.exists_receives (h : env.WellFormed) (name : String) :
    ∃ id, env.Receives name id ∧ id < env.scopes.size := by
  obtain ⟨found, hfound, hlt⟩ := find_of_wellFormed h name
  refine ⟨found.getD env.current, ⟨found, hfound, rfl⟩, ?_⟩
  cases found with
  | none => exact h.current_lt
  | some id => exact hlt id rfl

theorem sameShape_assign (hwf : env.WellFormed) (name : String) (value : Value) :
    ∃ env', env.assign name value = .ok env' ∧ SameShape env env' := by
  obtain ⟨id, hreceives, hid⟩ := hwf.exists_receives name
  rw [hreceives.assign_eq]
  exact sameShape_bindAt hid name value

/-! ### Entering and leaving -/

theorem parent_lt_size (hwf : env.WellFormed) (scoping : Scoping) :
    scoping.parent env < env.scopes.size := by
  cases scoping with
  | dynamic => exact hwf.current_lt
  | lexical => exact Nat.zero_lt_of_lt hwf.current_lt

/-- With one more scope on top, whose parent is one of the others. -/
theorem wellFormed_push (hwf : env.WellFormed) (bindings : Bindings) {parent : ScopeId}
    (hparent : parent < env.scopes.size) :
    WellFormed ⟨env.scopes.size, env.scopes.push ⟨bindings, some parent⟩⟩ where
  current_lt := by
    rw [Array.size_push]
    exact Nat.lt_succ_self _
  parent_lt id scope outer hscope houter := by
    rw [Array.getElem?_push] at hscope
    split at hscope
    · rename_i hid
      obtain rfl := Option.some.inj hscope
      obtain rfl := Option.some.inj houter
      rw [hid]
      exact hparent
    · exact hwf.parent_lt id scope outer hscope houter

theorem wellFormed_enterCall (hwf : env.WellFormed) (scoping : Scoping)
    (parameters : List (String × Value)) : (env.enterCall scoping parameters).WellFormed :=
  wellFormed_push hwf _ (parent_lt_size hwf scoping)

/-- In a call the scopes below its own are as before. -/
theorem getElem?_enterCall (scoping : Scoping) (parameters : List (String × Value)) {id : ScopeId}
    (hid : id < env.scopes.size) :
    (env.enterCall scoping parameters).scopes[id]? = env.scopes[id]? := by
  unfold enterCall
  dsimp only
  rw [Array.getElem?_push, if_neg (Nat.ne_of_lt hid)]

/-- Leaving keeps the scopes below the mark. -/
theorem getElem?_leave {mark : Mark} {id : ScopeId} (h : env.leave mark = .ok env')
    (hid : id < mark.size) : env'.scopes[id]? = env.scopes[id]? := by
  unfold leave at h
  split at h
  · rename_i hle
    obtain rfl := Except.ok.inj h
    rw [getElem?_shrink hle, if_pos hid]
  · cases h

/-- Leaving takes off the scope that a call has put on top. -/
theorem leave_of_sameShape {scoping : Scoping} {parameters : List (String × Value)}
    (h : SameShape (env.enterCall scoping parameters) env') :
    ∃ left, env'.leave env.mark = .ok left ∧ SameShape env left := by
  have hparents : env'.parents = env.parents.push (some (scoping.parent env)) := by
    rw [h.parents]
    simp [parents, enterCall]
  have hsize : env'.scopes.size = env.scopes.size + 1 := by
    rw [h.size]
    exact Array.size_push _
  refine ⟨⟨env.current, env'.scopes.shrink env.scopes.size⟩, ?_, rfl, ?_⟩
  · unfold leave
    rw [if_pos (by rw [hsize]; exact Nat.le_succ _)]
    rfl
  · have hshrink : Environment.parents ⟨env.current, env'.scopes.shrink env.scopes.size⟩ =
        env'.parents.shrink env.parents.size := by
      simp [parents]
    rw [hshrink, hparents]
    simp

end Environment

namespace Eval

open Environment

/-- Machines with a well-formed environment, of which the scopes and the calls stay what they
are. -/
def restoring : Discipline where
  valid m := m.env.WellFormed
  allows m m' := SameShape m.env m'.env ∧ m'.calls = m.calls
  refl m := ⟨SameShape.refl m.env, rfl⟩
  trans h h' := ⟨h.1.trans h'.1, h'.2.trans h.2⟩

/-- Looking up keeps every discipline of machines with well-formed environments. -/
theorem keeps_lookup {d : Discipline} (hd : ∀ m, d.valid m → m.env.WellFormed) (name : String) :
    Keeps d (inspect (·.lookup name)) := by
  intro m hm
  obtain ⟨value, hvalue⟩ := lookup_of_wellFormed (hd m hm) name
  rw [inspect_apply, hvalue]
  refine ⟨nofun, fun r m' h => ?_⟩
  obtain ⟨-, rfl⟩ := Prod.mk.inj (Except.ok.inj h)
  exact ⟨hm, d.refl m⟩

theorem keeps_assign (name : String) (value : Value) :
    Keeps restoring (update (·.assign name value)) := by
  intro m hm
  obtain ⟨env, henv, hshape⟩ := sameShape_assign hm name value
  rw [update_apply, henv]
  refine ⟨nofun, fun r m' h => ?_⟩
  obtain ⟨-, rfl⟩ := Prod.mk.inj (Except.ok.inj h)
  exact ⟨hshape.wellFormed hm, hshape, rfl⟩

/-- A call restores the scopes and the calls if its body does. -/
theorem keeps_inCall (scoping : Scoping) (name : String) (parameters : List (String × Value))
    (body : Eval Value) (hbody : Keeps restoring body) :
    Keeps restoring (inCall scoping name parameters body) := by
  rintro ⟨env, calls⟩ hwf
  rw [inCall_apply]
  cases hpush : calls.push name with
  | error kind =>
    refine ⟨nofun, fun r m' h => ?_⟩
    obtain ⟨-, rfl⟩ := Prod.mk.inj (Except.ok.inj h)
    exact ⟨hwf, SameShape.refl env, rfl⟩
  | ok inner =>
    obtain ⟨hfault, hend⟩ := hbody ⟨env.enterCall scoping parameters, inner⟩
      (wellFormed_enterCall hwf scoping parameters)
    dsimp only
    match hrun : body ⟨env.enterCall scoping parameters, inner⟩ with
    | .error i =>
      refine ⟨fun f h => hfault f ?_, nofun⟩
      rw [hrun]
      exact congrArg Except.error (Except.error.inj h)
    | .ok (result, after) =>
      obtain ⟨-, hafter, hcalls⟩ := hend _ _ hrun
      obtain ⟨left, hleft, hleftShape⟩ := leave_of_sameShape hafter
      -- The body has restored the calls as well, so the one that is popped is the one pushed.
      obtain ⟨-, hpop⟩ := CallStack.pop_of_push hpush
      rw [show inner = after.calls from hcalls.symm] at hpop
      simp only [hleft, hpop]
      refine ⟨nofun, fun r m' h => ?_⟩
      obtain ⟨-, rfl⟩ := Prod.mk.inj (Except.ok.inj h)
      exact ⟨hleftShape.wellFormed hwf, hleftShape, rfl⟩

theorem keeps_restoring_evaluate (ctx : Context) (fuel : Nat) (e : Expr) :
    Keeps restoring (evaluate ctx fuel e) :=
  keeps_evaluate (keeps_lookup fun _ hm => hm) keeps_assign (keeps_inCall ctx.scoping) fuel e

end Eval

/-- Evaluation never faults in a well-formed environment, and however it ends, the scopes, their
parents, the current scope and the active calls are those from before. -/
theorem Interpreter.evaluate_restores (i : Interpreter) (fuel : Nat) (functions : FunctionTable)
    (e : Expr) (hwf : i.machine.env.WellFormed) :
    (∀ f, i.evaluate fuel functions e ≠ .error (.fault f)) ∧
      ∀ (result : Except EvalError Value) (i' : Interpreter),
        i.evaluate fuel functions e = .ok (result, i') →
          i'.machine.env.scopes.size = i.machine.env.scopes.size ∧
          i'.machine.env.current = i.machine.env.current ∧
          (∀ id : ScopeId, i'.machine.env.scopes[id]?.map Scope.parent =
            i.machine.env.scopes[id]?.map Scope.parent) ∧
          i'.machine.calls = i.machine.calls := by
  obtain ⟨hfault, hend⟩ :=
    Eval.keeps_restoring_evaluate ⟨functions, i.settings.scoping⟩ fuel e i.machine hwf
  unfold Interpreter.evaluate Interpreter.perform
  match hrun : Eval.evaluate ⟨functions, i.settings.scoping⟩ fuel e i.machine with
  | .error interrupt =>
    refine ⟨fun f h => hfault f ?_, nofun⟩
    rw [hrun]
    exact congrArg Except.error (Except.error.inj h)
  | .ok (r, m') =>
    refine ⟨nofun, fun result i' h => ?_⟩
    obtain ⟨-, rfl⟩ := Prod.mk.inj (Except.ok.inj h)
    obtain ⟨-, hshape, hcalls⟩ := hend _ _ hrun
    refine ⟨hshape.size, hshape.current, fun id => ?_, hcalls⟩
    rw [← Environment.getElem?_parents, hshape.parents, Environment.getElem?_parents]

/-- A call that divides by zero, from a scope inside the root and with another call active. -/
theorem evaluate_restores_failing_call :
    ∃ (i i' : Interpreter) (functions : FunctionTable), i.machine.env.WellFormed ∧
      i.evaluate 9 functions (.block [.assign "y" (.integer 2), .call "f" [.variable "y"]]) =
        .ok (.error ⟨.divisionByZero, ["f", "g"]⟩, i') ∧
      i'.machine.env.scopes.size = 2 ∧ i'.machine.env.current = 1 ∧
      i'.machine.calls = ⟨["g"], some 3⟩ := by
  let body : Expr := .binary .divide (.variable "x") (.integer 0)
  let functions : FunctionTable := ⟨Std.ExtTreeMap.empty.insert "f" ⟨"f", ["x"], body⟩⟩
  let env : Environment := Environment.empty.enter Environment.root
  let i : Interpreter := ⟨⟨.lexical, some 3, .empty⟩, ⟨env, ⟨["g"], some 3⟩⟩⟩
  have hwf : env.WellFormed :=
    Environment.wellFormed_push (Environment.wellFormed_ofRoot ∅) ∅ Nat.zero_lt_one
  obtain ⟨-, hend⟩ := Interpreter.evaluate_restores i 9 functions
    (.block [.assign "y" (.integer 2), .call "f" [.variable "y"]]) hwf
  obtain ⟨hsize, hcurrent, -, hcalls⟩ := hend (.error ⟨.divisionByZero, ["f", "g"]⟩) _ rfl
  exact ⟨i, _, functions, hwf, rfl, hsize, hcurrent, hcalls⟩

end Scriptlet
