import Scriptlet.Proofs.Evaluation.Restoration
import Scriptlet.Proofs.Semantics.Adequacy

/-!
# Calls see the globals only

Under lexical scoping the scope of a call has the root for its parent, so nothing inside the call
reaches the other scopes that are there. Whatever these are and whichever is current, a call ends as
the rules say for a store of the globals alone, and the other scopes are afterwards what they were
(`calls_of_callFunction`, `callFunction_of_calls`). Two well-formed environments with the same
globals thus cannot be told apart by a call.
-/

namespace Scriptlet

namespace Environment

variable {env : Environment}

/-- The bindings of the root scope. -/
def globals? (env : Environment) : Option Bindings :=
  env.scopes[root]?.map Scope.bindings

/-- A root scope with other scopes above it, of which any may be current. -/
def withRoot (globals : Bindings) (others : List Scope) (current : ScopeId) : Environment where
  current := current
  scopes := (Scope.mk globals none :: others).toArray

/-- A well-formed environment has a root scope, and it has no parent. -/
theorem WellFormed.exists_withRoot (h : env.WellFormed) :
    ∃ globals others, env = withRoot globals others env.current := by
  obtain ⟨current, ⟨scopes⟩⟩ := env
  cases scopes with
  | nil => exact absurd h.current_lt (Nat.not_lt_zero _)
  | cons scope others =>
    obtain ⟨globals, parent⟩ := scope
    cases parent with
    | none => exact ⟨globals, others, rfl⟩
    | some parent => exact absurd (h.parent_lt 0 _ parent rfl rfl) (Nat.not_lt_zero parent)

/-- Above the root, the globals make no difference. -/
theorem getElem?_withRoot {id : ScopeId} (hid : id ≠ root) (globals globals' : Bindings)
    (others : List Scope) (current : ScopeId) :
    (withRoot globals others current).scopes[id]? =
      (withRoot globals' others current).scopes[id]? := by
  cases id with
  | zero => exact absurd rfl hid
  | succ id => simp [withRoot]

/-- Leaving a call takes its scope off, and what was below is there with other globals. -/
theorem leave_callEnvironment_withRoot (globals globals' frame : Bindings) (others : List Scope)
    (current : ScopeId) :
    (Reference.callEnvironment globals' frame others).leave (withRoot globals others current).mark =
      .ok (withRoot globals' others current) := by
  have hmark : (withRoot globals others current).mark =
      ⟨(withRoot globals' others current).scopes.size, current⟩ := by
    simp [mark, withRoot]
  rw [hmark]
  exact leave_push _ _ _ _

end Environment

namespace Reference

open Eval Environment

variable {functions : FunctionTable} {limit : Option Nat} {active : List String} {f : FunctionDecl}
  {values : List Value} {globals globals' : Bindings} {others : List Scope} {current : ScopeId}
  {r : Except EvalError Value} {m' : Machine}

/-- The machine inside a call, as a layout sees it. -/
theorem enterCall_withRoot (parameters : List (String × Value)) :
    (⟨(withRoot globals others current).enterCall .lexical parameters, ⟨active, limit⟩⟩ : Machine) =
      lexicalLayout.machine limit active (some others) ⟨some (frameOf parameters), globals⟩ := by
  have hsize : (Scope.mk globals none :: others).toArray.size = others.length + 1 := by
    rw [List.size_toArray, List.length_cons]
  show Machine.mk ⟨_, _⟩ _ = Machine.mk ⟨_, _⟩ _
  rw [withRoot, hsize]
  rfl

/-- A call whose body ends in a store leaves the globals of that store and the other scopes. -/
theorem inCall_withRoot {name : String} {parameters : List (String × Value)} {body : Eval Value}
    {s : Frames} (hlimit : ∀ n, limit = some n → active.length < n)
    (hbody : body (lexicalLayout.machine limit (name :: active) (some others)
      ⟨some (frameOf parameters), globals⟩) =
        .ok (r, lexicalLayout.machine limit (name :: active) (some others) s)) :
    inCall .lexical name parameters body ⟨withRoot globals others current, ⟨active, limit⟩⟩ =
      .ok (r.mapError (·.withBacktrace (name :: active)),
        ⟨withRoot s.globals others current, ⟨active, limit⟩⟩) := by
  rw [inCall_apply, CallStack.push_of_lt hlimit]
  dsimp only
  rw [enterCall_withRoot, hbody]
  have hleave : (lexicalLayout.environment (some others) s).leave
      (withRoot globals others current).mark = .ok (withRoot s.globals others current) :=
    leave_callEnvironment_withRoot globals s.globals (s.locals.getD ∅) others current
  simp only [Layout.machine, hleave, CallStack.pop]

/-- Each end of a call is one that the rules derive for the globals, and leaves the other scopes as
they were. -/
theorem calls_of_callFunction {fuel : Nat}
    (h : callFunction .lexical (evaluate ⟨functions, .lexical⟩ fuel) f values
      ⟨withRoot globals others current, ⟨active, limit⟩⟩ = .ok (r, m')) :
    ∃ s, m' = ⟨withRoot s.globals others current, ⟨active, limit⟩⟩ ∧
      Calls ⟨lexicalStore, functions, limit⟩ active ⟨none, globals⟩ f values r s := by
  rw [callFunction_eq] at h
  split at h
  · rename_i harity
    by_cases hfull : ∃ n, limit = some n ∧ n ≤ active.length
    · obtain ⟨n, rfl, hle⟩ := hfull
      rw [inCall_apply, CallStack.push_of_le hle] at h
      obtain ⟨rfl, rfl⟩ := Prod.mk.inj (Except.ok.inj h)
      exact ⟨_, rfl, .exhausted harity rfl hle⟩
    · have hlimit (n : Nat) (hn : limit = some n) : active.length < n :=
        Nat.lt_of_not_le fun hle => hfull ⟨n, hn, hle⟩
      match hbody : evaluate ⟨functions, .lexical⟩ fuel f.body
          (lexicalLayout.machine limit (f.name :: active) (some others)
            ⟨some (frameOf (f.parameters.zip values)), globals⟩) with
      | .error i =>
        rw [inCall_apply, CallStack.push_of_lt hlimit] at h
        dsimp only at h
        rw [enterCall_withRoot, hbody] at h
        cases h
      | .ok (r₁, m₁) =>
        -- By the rules the body ends in a store, which has the globals after the call.
        obtain ⟨s, hfits, rfl, hrules⟩ := follows_evaluate functions fuel f.body _ _ _ rfl _ _ hbody
        rw [inCall_withRoot hlimit hbody] at h
        obtain ⟨rfl, rfl⟩ := Prod.mk.inj (Except.ok.inj h)
        exact ⟨⟨none, s.globals⟩, rfl, .body harity hlimit hrules⟩
  · rename_i harity
    obtain ⟨rfl, rfl⟩ := Prod.mk.inj (Except.ok.inj h)
    exact ⟨_, rfl, .arity harity⟩

/-- What the rules derive for the globals is reached with some fuel, whatever the other scopes
are. -/
theorem callFunction_of_calls {s : Frames}
    (h : Calls ⟨lexicalStore, functions, limit⟩ active ⟨none, globals⟩ f values r s)
    (others : List Scope) (current : ScopeId) :
    ∃ fuel, callFunction .lexical (evaluate ⟨functions, .lexical⟩ fuel) f values
      ⟨withRoot globals others current, ⟨active, limit⟩⟩ =
        .ok (r, ⟨withRoot s.globals others current, ⟨active, limit⟩⟩) := by
  cases h with
  | arity harity =>
    refine ⟨0, ?_⟩
    rw [callFunction_eq, if_neg harity]
    rfl
  | exhausted harity hlimit hle =>
    dsimp only at hlimit
    subst hlimit
    refine ⟨0, ?_⟩
    rw [callFunction_eq, if_pos harity, inCall_apply, CallStack.push_of_le hle]
    rfl
  | body harity hlimit hrules =>
    obtain ⟨-, hreaches⟩ := reaches_of_evaluates (l := lexicalLayout) hrules (some others) rfl
    obtain ⟨fuel, hbody⟩ := hreaches.exists
    refine ⟨fuel, ?_⟩
    rw [callFunction_eq, if_pos harity]
    exact (inCall_withRoot hlimit hbody).trans rfl

/-- A call that ends with a result and globals does so among any other scopes. -/
theorem callFunction_among_others {fuel : Nat}
    (h : callFunction .lexical (evaluate ⟨functions, .lexical⟩ fuel) f values
      ⟨withRoot globals others current, ⟨active, limit⟩⟩ = .ok (r, m'))
    (others' : List Scope) (current' : ScopeId) :
    ∃ fuel' m'', callFunction .lexical (evaluate ⟨functions, .lexical⟩ fuel') f values
        ⟨withRoot globals others' current', ⟨active, limit⟩⟩ = .ok (r, m'') ∧
      m''.env.globals? = m'.env.globals? := by
  obtain ⟨s, rfl, hrules⟩ := calls_of_callFunction h
  obtain ⟨fuel', h'⟩ := callFunction_of_calls hrules others' current'
  exact ⟨fuel', _, h', rfl⟩

end Reference

open Environment Reference in
/-- Under lexical scoping a call neither reads nor writes the locals of its callers. From two
machines with the same active calls, the same limit and the same globals, it ends with a result and
globals on the one exactly if it does on the other, and on each it leaves every scope but the root
as it was. -/
theorem Eval.callFunction_lexical_isolated (functions : FunctionTable) (f : FunctionDecl)
    (values : List Value) (m₁ m₂ : Machine) (hwf₁ : m₁.env.WellFormed) (hwf₂ : m₂.env.WellFormed)
    (hcalls : m₁.calls = m₂.calls) (hglobals : m₁.env.globals? = m₂.env.globals?) :
    (∀ r globals',
      (∃ fuel m', callFunction .lexical (evaluate ⟨functions, .lexical⟩ fuel) f values m₁ =
        .ok (r, m') ∧ m'.env.globals? = some globals') ↔
      ∃ fuel m', callFunction .lexical (evaluate ⟨functions, .lexical⟩ fuel) f values m₂ =
        .ok (r, m') ∧ m'.env.globals? = some globals') ∧
    ∀ m, m = m₁ ∨ m = m₂ → ∀ fuel r m',
      callFunction .lexical (evaluate ⟨functions, .lexical⟩ fuel) f values m = .ok (r, m') →
        m'.env.globals?.isSome ∧ m'.env.scopes.size = m.env.scopes.size ∧
        m'.env.current = m.env.current ∧
        ∀ id, id ≠ root → m'.env.scopes[id]? = m.env.scopes[id]? := by
  obtain ⟨env₁, active, limit⟩ := m₁
  obtain ⟨env₂, calls⟩ := m₂
  dsimp only at hwf₁ hwf₂ hcalls hglobals
  subst hcalls
  obtain ⟨globals, others₁, henv₁⟩ := hwf₁.exists_withRoot
  obtain ⟨globals₂, others₂, henv₂⟩ := hwf₂.exists_withRoot
  rw [henv₁, henv₂] at hglobals
  obtain rfl : globals = globals₂ := Option.some.inj hglobals
  rw [henv₁, henv₂]
  constructor
  · intro r globals'
    constructor
    · rintro ⟨fuel, m', h, hglobals'⟩
      obtain ⟨fuel', m'', h', hsame⟩ := callFunction_among_others h others₂ env₂.current
      exact ⟨fuel', m'', h', hsame.trans hglobals'⟩
    · rintro ⟨fuel, m', h, hglobals'⟩
      obtain ⟨fuel', m'', h', hsame⟩ := callFunction_among_others h others₁ env₁.current
      exact ⟨fuel', m'', h', hsame.trans hglobals'⟩
  · rintro m (rfl | rfl) fuel r m' h
    all_goals
      obtain ⟨s, rfl, -⟩ := calls_of_callFunction h
      exact ⟨rfl, rfl, rfl, fun id hid => getElem?_withRoot hid _ _ _ _⟩

/-- A function that assigns to a variable which its caller has, too, and to a global. It ends alike
from outside all scopes, and the caller's variable stays what it was. -/
theorem callFunction_isolated_assignment :
    ∃ (f : FunctionDecl) (m₁ m₂ m₁' m₂' : Machine) (fuel : Nat),
      Eval.callFunction .lexical (Eval.evaluate ⟨.empty, .lexical⟩ 9) f [] m₁ =
        .ok (.ok (.int 2), m₁') ∧
      Eval.callFunction .lexical (Eval.evaluate ⟨.empty, .lexical⟩ fuel) f [] m₂ =
        .ok (.ok (.int 2), m₂') ∧
      m₁.env.scopes.size = 2 ∧ m₂.env.scopes.size = 1 ∧
      m₁'.env.scopes[1]? = m₁.env.scopes[1]? ∧ m₂'.env.globals? = m₁'.env.globals? := by
  let globals : Bindings := (∅ : Bindings).insert "g" (.int 0)
  let f : FunctionDecl := ⟨"f", [], .block [.assign "x" (.integer 1), .assign "g" (.integer 2)]⟩
  let env₁ : Environment := ⟨1, #[⟨globals, none⟩, ⟨(∅ : Bindings).insert "x" (.int 5), some 0⟩]⟩
  have hwf₂ := Environment.wellFormed_ofRoot globals
  have hwf₁ : env₁.WellFormed := Environment.wellFormed_push hwf₂ _ Nat.zero_lt_one
  obtain ⟨hsame, hscopes⟩ := Eval.callFunction_lexical_isolated .empty f [] ⟨env₁, .empty none⟩
    ⟨.ofRoot globals, .empty none⟩ hwf₁ hwf₂ rfl rfl
  obtain ⟨fuel, m₂', hcall, hglobals⟩ := (hsame (.ok (.int 2)) _).1 ⟨9, _, rfl, rfl⟩
  obtain ⟨-, -, -, hothers⟩ := hscopes _ (.inl rfl) 9 (.ok (.int 2)) _ rfl
  exact ⟨f, _, _, _, m₂', fuel, rfl, hcall, rfl, rfl, hothers 1 Nat.one_ne_zero, hglobals⟩

end Scriptlet
