import Scriptlet.Proofs.Evaluation.Lockstep
import Scriptlet.Proofs.Evaluation.Restoration

/-!
# Scopes out of sight

Scopes that lie directly above the root and that no other scope has for its parent are never met on
the way outward, as long as none of them is current. Two environments that differ in such scopes
only are the same up to the places of the scopes: above the root, each place is higher by the number
of those that are hidden (`lift`). `Beside` is this relation. Looking up, assigning, entering and
leaving respect it, so evaluation on the two goes in lockstep, with the same results to the same
fuel (`lockstep_hiding_evaluate`), and so does giving the globals their first values.
-/

namespace Scriptlet

namespace Environment

/-! ### Places above hidden scopes -/

/-- The place of a scope when there are `hidden` more directly above the root. -/
def lift (hidden id : Nat) : Nat :=
  if id = 0 then 0 else id + hidden

variable {hidden id other : Nat}

theorem lift_root (hidden : Nat) : lift hidden root = root :=
  if_pos rfl

theorem lift_of_pos (h : 0 < id) : lift hidden id = id + hidden :=
  if_neg (Nat.ne_of_gt h)

theorem lift_inj : lift hidden id = lift hidden other ↔ id = other := by
  unfold lift
  split <;> split <;> omega

/-- In a stack with a root, the hidden scopes make room for themselves. -/
theorem lift_lt_iff {size : Nat} (hsize : 0 < size) :
    lift hidden id < size + hidden ↔ id < size := by
  unfold lift
  split <;> omega

/-- A scope whose parent has moved. -/
def liftScope (hidden : Nat) (scope : Scope) : Scope :=
  ⟨scope.bindings, scope.parent.map (lift hidden)⟩

/-- The first environment has `hidden` scopes directly above the root that the second does not have,
none of them in sight. -/
structure Beside (hidden : Nat) (env₁ env₂ : Environment) : Prop where
  wellFormed : env₂.WellFormed
  current : env₁.current = lift hidden env₂.current
  size : env₁.scopes.size = env₂.scopes.size + hidden
  scope : ∀ id, env₁.scopes[lift hidden id]? = env₂.scopes[id]?.map (liftScope hidden)

namespace Beside

variable {env₁ env₂ after₁ after₂ : Environment}

theorem size_pos (h : Beside hidden env₁ env₂) : 0 < env₂.scopes.size :=
  Nat.zero_lt_of_lt h.wellFormed.current_lt

theorem lift_lt (h : Beside hidden env₁ env₂) (hid : id < env₂.scopes.size) :
    lift hidden id < env₁.scopes.size := by
  rw [h.size]
  exact (lift_lt_iff h.size_pos).2 hid

/-! ### Looking up and binding -/

/-- The way outward goes through the same scopes. The hidden ones only allow for more steps, which a
way that goes down does not need. -/
theorem findFrom_eq (h : Beside hidden env₁ env₂) (name : String) {steps₁ steps₂ : Nat}
    (hsteps₁ : id < steps₁) (hsteps₂ : id < steps₂) :
    findFrom env₁.scopes name steps₁ (lift hidden id) =
      (findFrom env₂.scopes name steps₂ id).map (Option.map (lift hidden)) := by
  induction steps₂ generalizing steps₁ id with
  | zero => exact absurd hsteps₂ (Nat.not_lt_zero id)
  | succ steps₂ ih =>
    obtain ⟨steps₁, rfl⟩ : ∃ n, steps₁ = n + 1 := ⟨steps₁ - 1, by omega⟩
    rw [findFrom, findFrom, h.scope]
    cases hscope : env₂.scopes[id]? with
    | none => rfl
    | some scope =>
      dsimp only [Option.map_some, liftScope]
      by_cases hbound : scope.bindings.contains name = true
      · rw [if_pos hbound, if_pos hbound]
        rfl
      · rw [if_neg hbound, if_neg hbound]
        cases hparent : scope.parent with
        | none => rfl
        | some parent =>
          have hlt : parent < id := h.wellFormed.parent_lt id scope parent hscope hparent
          exact ih (Nat.lt_of_lt_of_le hlt (Nat.le_of_lt_succ hsteps₁))
            (Nat.lt_of_lt_of_le hlt (Nat.le_of_lt_succ hsteps₂))

theorem find_eq (h : Beside hidden env₁ env₂) (name : String) :
    env₁.find name = (env₂.find name).map (Option.map (lift hidden)) := by
  have hcurrent := h.wellFormed.current_lt
  have hsize : env₂.scopes.size ≤ env₁.scopes.size + 1 := by
    rw [h.size]
    omega
  unfold find
  rw [h.current]
  exact h.findFrom_eq name (Nat.lt_of_lt_of_le hcurrent hsize) (Nat.lt_succ_of_lt hcurrent)

theorem lookup_eq (h : Beside hidden env₁ env₂) (name : String) :
    env₁.lookup name = env₂.lookup name := by
  obtain ⟨owner, howner, -⟩ := find_of_wellFormed h.wellFormed name
  unfold lookup
  rw [h.find_eq, howner]
  cases owner with
  | none => rfl
  | some id =>
    simp only [Except.map, Option.map_some, Option.bind_eq_bind, Option.bind_some, h.scope]
    cases env₂.scopes[id]? <;> rfl

theorem bindAt (h : Beside hidden env₁ env₂) (hid : id < env₂.scopes.size) (name : String)
    (value : Value) :
    ∃ env₁' env₂', env₁.bindAt (lift hidden id) name value = .ok env₁' ∧
      env₂.bindAt id name value = .ok env₂' ∧ Beside hidden env₁' env₂' ∧
      env₂'.scopes.size = env₂.scopes.size := by
  obtain ⟨env₂', henv₂', hshape⟩ := sameShape_bindAt hid name value
  refine ⟨_, env₂', if_pos (h.lift_lt hid), henv₂', ⟨hshape.wellFormed h.wellFormed, ?_, ?_, ?_⟩,
    hshape.size⟩
  · rw [hshape.current]
    exact h.current
  · rw [hshape.size]
    exact Array.size_modify.trans h.size
  · intro other
    obtain rfl := Except.ok.inj ((if_pos hid).symm.trans henv₂')
    dsimp only
    rw [Array.getElem?_modify, Array.getElem?_modify, h.scope]
    by_cases hother : id = other
    · rw [if_pos (lift_inj.2 hother), if_pos hother]
      cases env₂.scopes[other]? <;> rfl
    · rw [if_neg (mt lift_inj.1 hother), if_neg hother]

theorem assign (h : Beside hidden env₁ env₂) (name : String) (value : Value) :
    ∃ env₁' env₂', env₁.assign name value = .ok env₁' ∧ env₂.assign name value = .ok env₂' ∧
      Beside hidden env₁' env₂' ∧ env₂'.scopes.size = env₂.scopes.size := by
  obtain ⟨owner, howner, hlt⟩ := find_of_wellFormed h.wellFormed name
  have hid : owner.getD env₂.current < env₂.scopes.size := by
    cases owner with
    | none => exact h.wellFormed.current_lt
    | some id => exact hlt id rfl
  have htarget : (owner.map (lift hidden)).getD env₁.current =
      lift hidden (owner.getD env₂.current) := by
    cases owner with
    | none => exact h.current
    | some id => rfl
  obtain ⟨env₁', env₂', h₁, h₂, hbeside⟩ := h.bindAt hid name value
  refine ⟨env₁', env₂', ?_, ?_, hbeside⟩
  · unfold Environment.assign
    rw [h.find_eq, howner]
    show env₁.bindAt ((owner.map (lift hidden)).getD env₁.current) name value = _
    rw [htarget]
    exact h₁
  · unfold Environment.assign
    rw [howner]
    exact h₂

/-! ### Entering and leaving -/

/-- The parent of a new scope is in sight, or it is the root. -/
theorem parent_eq (h : Beside hidden env₁ env₂) (scoping : Scoping) :
    scoping.parent env₁ = lift hidden (scoping.parent env₂) := by
  cases scoping with
  | dynamic => exact h.current
  | lexical => exact (lift_root hidden).symm

theorem enterCall (h : Beside hidden env₁ env₂) (scoping : Scoping)
    (parameters : List (String × Value)) :
    Beside hidden (env₁.enterCall scoping parameters) (env₂.enterCall scoping parameters) where
  wellFormed := wellFormed_enterCall h.wellFormed scoping parameters
  current := by
    show env₁.scopes.size = lift hidden env₂.scopes.size
    rw [lift_of_pos h.size_pos, h.size]
  size := by
    show (env₁.scopes.push _).size = (env₂.scopes.push _).size + hidden
    rw [Array.size_push, Array.size_push, h.size]
    omega
  scope id := by
    have htop : lift hidden id = env₁.scopes.size ↔ id = env₂.scopes.size := by
      rw [h.size, ← lift_of_pos h.size_pos]
      exact lift_inj
    show (env₁.scopes.push _)[lift hidden id]? = (env₂.scopes.push _)[id]?.map (liftScope hidden)
    rw [Array.getElem?_push, Array.getElem?_push, h.scope]
    by_cases hid : id = env₂.scopes.size
    · rw [if_pos (htop.2 hid), if_pos hid, h.parent_eq]
      rfl
    · rw [if_neg (mt htop.1 hid), if_neg hid]

/-- After a call that leaves one scope more than it found, both go back to where they were. -/
theorem leave (h : Beside hidden env₁ env₂) (hafter : Beside hidden after₁ after₂)
    (hsize : after₂.scopes.size = env₂.scopes.size + 1) :
    ∃ left₁ left₂, after₁.leave env₁.mark = .ok left₁ ∧ after₂.leave env₂.mark = .ok left₂ ∧
      Beside hidden left₁ left₂ ∧ left₂.scopes.size = env₂.scopes.size := by
  have hsize₁ := h.size
  have hsizeAfter₁ := hafter.size
  have hle₁ : env₁.scopes.size ≤ after₁.scopes.size := by omega
  have hle₂ : env₂.scopes.size ≤ after₂.scopes.size := by omega
  have hshrink₂ : (after₂.scopes.shrink env₂.scopes.size).size = env₂.scopes.size := by
    rw [Array.size_shrink]
    omega
  refine ⟨_, _, if_pos hle₁, if_pos hle₂, ⟨⟨?_, ?_⟩, h.current, ?_, ?_⟩, hshrink₂⟩
  · exact hshrink₂.symm ▸ h.wellFormed.current_lt
  · intro id scope parent hscope hparent
    have hbelow : (after₂.scopes.shrink env₂.scopes.size)[id]? = some scope := hscope
    rw [getElem?_shrink hle₂] at hbelow
    split at hbelow
    · exact hafter.wellFormed.parent_lt id scope parent hbelow hparent
    · cases hbelow
  · show (after₁.scopes.shrink env₁.scopes.size).size = _ + hidden
    rw [show (env₂.mark).size = env₂.scopes.size from rfl, hshrink₂, Array.size_shrink]
    omega
  · intro id
    show (after₁.scopes.shrink env₁.scopes.size)[lift hidden id]? =
      (after₂.scopes.shrink env₂.scopes.size)[id]?.map (liftScope hidden)
    rw [getElem?_shrink hle₁, getElem?_shrink hle₂, hafter.scope, hsize₁]
    by_cases hid : id < env₂.scopes.size
    · rw [if_pos ((lift_lt_iff h.size_pos).2 hid), if_pos hid]
    · rw [if_neg (mt (lift_lt_iff h.size_pos).1 hid), if_neg hid]
      rfl

end Beside

end Environment

open Environment

/-- Two machines of which the first has hidden scopes. The index has the number of scopes of the
second, and the calls, which are the same on both. -/
def Coupling.hiding (hidden : Nat) : Coupling (Nat × CallStack) where
  related i m₁ m₂ :=
    Beside hidden m₁.env m₂.env ∧ m₂.env.scopes.size = i.1 ∧ m₁.calls = i.2 ∧ m₂.calls = i.2
  escapes _ _ _ := False

namespace Eval

variable {hidden : Nat}

theorem lockstep_hiding_lookup (name : String) :
    Lockstep (.hiding hidden) (inspect (·.lookup name)) (inspect (·.lookup name)) := by
  intro i m₁ m₂ hm
  rw [inspect_apply, inspect_apply, hm.1.lookup_eq]
  cases m₂.env.lookup name with
  | error fault => exact .interrupted _
  | ok value => exact .together _ hm

theorem lockstep_hiding_assign (name : String) (value : Value) :
    Lockstep (.hiding hidden) (update (·.assign name value)) (update (·.assign name value)) := by
  rintro i m₁ m₂ ⟨hbeside, hsize, hcalls⟩
  obtain ⟨env₁, env₂, h₁, h₂, hbeside', hsize'⟩ := hbeside.assign name value
  rw [update_apply, update_apply, h₁, h₂]
  exact .together _ ⟨hbeside', hsize'.trans hsize, hcalls⟩

theorem lockstep_hiding_defineGlobal (name : String) (value : Value) :
    Lockstep (.hiding hidden) (update (·.defineGlobal name value))
      (update (·.defineGlobal name value)) := by
  rintro i m₁ m₂ ⟨hbeside, hsize, hcalls⟩
  obtain ⟨env₁, env₂, h₁, h₂, hbeside', hsize'⟩ := hbeside.bindAt hbeside.size_pos name value
  have hroot : m₁.env.defineGlobal name value = .ok env₁ := by
    rw [← h₁, show (0 : ScopeId) = root from rfl, lift_root]
    rfl
  rw [update_apply, update_apply, hroot, show m₂.env.defineGlobal name value = .ok env₂ from h₂]
  exact .together _ ⟨hbeside', hsize'.trans hsize, hcalls⟩

theorem lockstep_hiding_inCall (scoping : Scoping) (name : String)
    (parameters : List (String × Value)) (body₁ body₂ : Eval Value)
    (hbody : Lockstep (.hiding hidden) body₁ body₂) :
    Lockstep (.hiding hidden) (inCall scoping name parameters body₁)
      (inCall scoping name parameters body₂) := by
  rintro ⟨size, calls⟩ ⟨env₁, calls₁⟩ ⟨env₂, calls₂⟩ ⟨hbeside, hsize, hcalls₁, hcalls₂⟩
  dsimp only at hbeside hsize hcalls₁ hcalls₂
  subst hsize hcalls₁ hcalls₂
  rw [inCall_apply, inCall_apply]
  cases hpush : calls₂.push name with
  | error kind => exact .together _ ⟨hbeside, rfl, rfl, rfl⟩
  | ok inner =>
    dsimp only
    have hentered : (env₂.enterCall scoping parameters).scopes.size = env₂.scopes.size + 1 :=
      Array.size_push _
    have hends := hbody (env₂.scopes.size + 1, inner) ⟨env₁.enterCall scoping parameters, inner⟩
      ⟨env₂.enterCall scoping parameters, inner⟩
      ⟨hbeside.enterCall scoping parameters, hentered, rfl, rfl⟩
    generalize hrun₁ : body₁ _ = end₁, hrun₂ : body₂ _ = end₂ at hends
    cases hends with
    | interrupted interrupt => exact .interrupted interrupt
    | together r hafter =>
      obtain ⟨hafter, hsize, hinner₁, hinner₂⟩ := hafter
      obtain ⟨left₁, left₂, hleft₁, hleft₂, hleft, hleftSize⟩ := hbeside.leave hafter hsize
      obtain ⟨-, hpop⟩ := CallStack.pop_of_push hpush
      simp only [hleft₁, hleft₂, hinner₁, hinner₂, hpop]
      exact .together _ ⟨hleft, hleftSize, rfl, rfl⟩
    | alone he => exact he.elim

variable (ctx : Context) (fuel : Nat)

theorem lockstep_hiding_evaluate (e : Expr) :
    Lockstep (.hiding hidden) (evaluate ctx fuel e) (evaluate ctx fuel e) :=
  lockstep_evaluate lockstep_hiding_lookup lockstep_hiding_assign
    (lockstep_hiding_inCall ctx.scoping) fuel e

theorem lockstep_hiding_setGlobals (gs : List GlobalDecl) :
    Lockstep (.hiding hidden) (gs.forM (setGlobal ctx fuel)) (gs.forM (setGlobal ctx fuel)) :=
  lockstep_setGlobals lockstep_hiding_lookup lockstep_hiding_assign
    (lockstep_hiding_inCall ctx.scoping) lockstep_hiding_defineGlobal fuel gs

/-- Steps in lockstep have one result, whether there are hidden scopes or not. -/
theorem Lockstep.map_fst_eq {α : Type} {x : Eval α} (hx : Lockstep (.hiding hidden) x x)
    {m₁ m₂ : Machine} (henv : Beside hidden m₁.env m₂.env) (hcalls : m₁.calls = m₂.calls) :
    (x m₁).map Prod.fst = (x m₂).map Prod.fst := by
  have hends := hx (m₂.env.scopes.size, m₂.calls) m₁ m₂ ⟨henv, rfl, hcalls, rfl⟩
  generalize x m₁ = end₁, x m₂ = end₂ at hends
  cases hends with
  | interrupted interrupt => rfl
  | together r _ => rfl
  | alone he => exact he.elim

end Eval

end Scriptlet
