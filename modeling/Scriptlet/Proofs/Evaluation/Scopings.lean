import Scriptlet.Proofs.Evaluation.Chains
import Scriptlet.Proofs.Evaluation.Lockstep

/-!
# When the two scopings agree

Under dynamic scoping the way outward from a call leads through the callers, under lexical scoping
straight to the root. The difference shows only where a name is met in a caller's scope. A function
is self-contained, for given names of globals, if it mentions its own parameters and globals only,
and no parameter is named as a global. If all functions are, the scopes of callers bind no global,
and each function binds all else that it mentions, so that every name is found in the current scope
or in the root, under either scoping (`Apart.find_eq`).

Hence runs under the two scopings can be on environments that differ in the parents of scopes only
(`Mirrors`). Main statement: a call of a self-contained function on a root scope has the same
outcome under both, to every fuel (`callFunction_of_selfContained`).
-/

namespace Scriptlet

namespace Environment

variable {env env' env₁ env₂ : Environment} {id : ScopeId} {name : String} {value : Value}

/-! ### Environments that differ in parents only -/

/-- The bindings of the scopes, from the bottom. -/
def frames (env : Environment) : Array Bindings :=
  env.scopes.map Scope.bindings

theorem size_frames (env : Environment) : env.frames.size = env.scopes.size :=
  Array.size_map

theorem getElem?_frames (env : Environment) (id : ScopeId) :
    env.frames[id]? = env.scopes[id]?.map Scope.bindings :=
  Array.getElem?_map

theorem valueAt?_eq_frames (env : Environment) (id : ScopeId) (name : String) :
    env.valueAt? id name = env.frames[id]?.bind (·[name]?) := by
  rw [getElem?_frames]
  unfold valueAt?
  cases env.scopes[id]? <;> rfl

/-- The frames, the parents and the current scope make up an environment. -/
theorem eq_of_frames_eq (hcurrent : env₁.current = env₂.current)
    (hframes : env₁.frames = env₂.frames) (hparents : env₁.parents = env₂.parents) :
    env₁ = env₂ := by
  refine eq_of_valueAt?_eq ⟨hcurrent, hparents⟩ fun id name => ?_
  rw [valueAt?_eq_frames, valueAt?_eq_frames, hframes]

/-- The same scope is current, and each scope has the same bindings in both. -/
structure Mirrors (env₁ env₂ : Environment) : Prop where
  current : env₁.current = env₂.current
  frames : env₁.frames = env₂.frames

theorem Mirrors.size (h : Mirrors env₁ env₂) : env₁.scopes.size = env₂.scopes.size := by
  rw [← size_frames, h.frames, size_frames]

theorem Mirrors.lookup_eq (h : Mirrors env₁ env₂) (hfind : env₁.find name = env₂.find name) :
    env₁.lookup name = env₂.lookup name := by
  unfold lookup
  rw [hfind]
  congr 1
  funext owner
  cases owner with
  | none => rfl
  | some id =>
    have hframe := congrArg (·[id]?) h.frames
    simp only [getElem?_frames] at hframe
    cases h₁ : env₁.scopes[id]? <;> cases h₂ : env₂.scopes[id]? <;> simp_all

theorem frames_bindAt (h : env.bindAt id name value = .ok env') :
    env'.current = env.current ∧ env'.frames = env.frames.modify id (·.insert name value) := by
  unfold bindAt at h
  split at h
  · obtain rfl := Except.ok.inj h
    refine ⟨rfl, ?_⟩
    apply Array.ext
    · simp [frames]
    · intro i hi hi'
      simp only [frames, Array.getElem_map, Array.getElem_modify]
      split <;> rfl
  · cases h

theorem Mirrors.bindAt {env₁' env₂' : Environment} (h : Mirrors env₁ env₂)
    (h₁ : env₁.bindAt id name value = .ok env₁') (h₂ : env₂.bindAt id name value = .ok env₂') :
    Mirrors env₁' env₂' := by
  obtain ⟨hcurrent₁, hframes₁⟩ := frames_bindAt h₁
  obtain ⟨hcurrent₂, hframes₂⟩ := frames_bindAt h₂
  constructor
  · rw [hcurrent₁, hcurrent₂, h.current]
  · rw [hframes₁, hframes₂, h.frames]

/-- Calls with the same parameters add the same frame, whatever its parent is. -/
theorem Mirrors.enterCall (h : Mirrors env₁ env₂) (scoping₁ scoping₂ : Scoping)
    (parameters : List (String × Value)) :
    Mirrors (env₁.enterCall scoping₁ parameters) (env₂.enterCall scoping₂ parameters) where
  current := h.size
  frames := by
    have hframes := h.frames
    unfold Environment.frames at hframes
    simp only [Environment.frames, Environment.enterCall, Array.map_push, hframes]

theorem Mirrors.leave (h : Mirrors env₁ env₂) (mark : Mark) :
    (∃ fault, env₁.leave mark = .error fault ∧ env₂.leave mark = .error fault) ∨
      ∃ left₁ left₂, env₁.leave mark = .ok left₁ ∧ env₂.leave mark = .ok left₂ ∧
        Mirrors left₁ left₂ := by
  unfold Environment.leave
  rw [h.size]
  split
  · refine .inr ⟨_, _, rfl, rfl, rfl, ?_⟩
    have hframes := h.frames
    unfold Environment.frames at hframes
    simp only [Environment.frames, Array.shrink_eq_take, Array.take_eq_extract, Array.map_extract,
      hframes]
  · exact .inl ⟨_, rfl, rfl⟩

/-! ### Names that are found at once or in the root -/

/-- The names of globals are bound in the root and nowhere else, and the current scope binds the
local names. -/
structure Apart (globals : Bindings) (locals : List String) (env : Environment) : Prop where
  rooted : env.Rooted
  root_binds : ∀ name ∈ globals, env.Binds root name
  root_only : ∀ name ∈ globals, ∀ id, env.Binds id name → id = root
  current_binds : ∀ name ∈ locals, env.Binds env.current name

variable {globals : Bindings} {locals : List String}

theorem Outward.head_eq {chain : List ScopeId} (h : Outward env id chain) :
    ∃ rest, chain = id :: rest := by
  cases h with
  | last => exact ⟨[], rfl⟩
  | step => exact ⟨_, rfl⟩

/-- Names of either kind are found without a look at the scopes in between. -/
theorem Apart.find_eq (h : Apart globals locals env) (hname : name ∈ locals ∨ name ∈ globals) :
    env.find name = .ok (some (if name ∈ locals then env.current else root)) := by
  obtain ⟨above, hway, habove⟩ := h.rooted.exists_outward h.rooted.current_lt
  rw [hway.find_eq h.rooted.wellFormed]
  by_cases hlocal : name ∈ locals
  · obtain ⟨rest, hrest⟩ := hway.head_eq
    have hbinds := h.current_binds name hlocal
    simp [hrest, hlocal, hbinds]
  · have hglobal : name ∈ globals := hname.resolve_left hlocal
    have hnone : above.find? (env.Binds · name) = none := by
      rw [List.find?_eq_none]
      intro i hi
      have hne : i ≠ root := Nat.ne_of_gt (habove i hi).1
      simpa using mt (h.root_only name hglobal i) hne
    have hroot := h.root_binds name hglobal
    simp [List.find?_append, hnone, hlocal, hroot]

theorem Apart.binds_owner (h : Apart globals locals env) (hname : name ∈ locals ∨ name ∈ globals) :
    env.Binds (if name ∈ locals then env.current else root) name := by
  split
  · exact h.current_binds name ‹_›
  · exact h.root_binds name (hname.resolve_left ‹_›)

/-- It is a matter of the shape and of which names are bound where. -/
theorem Apart.of_sameNames (h : Apart globals locals env) (hshape : SameShape env env')
    (hnames : ∀ id, SameNames env env' id) : Apart globals locals env' where
  rooted := hshape.rooted h.rooted
  root_binds name hname := (hnames root name).2 (h.root_binds name hname)
  root_only name hname id hbinds := h.root_only name hname id ((hnames id name).1 hbinds)
  current_binds name hname := by
    rw [hshape.current]
    exact (hnames _ name).2 (h.current_binds name hname)

/-- To bind a name where it is bound already changes no names. -/
theorem sameNames_bindAt (h : env.bindAt id name value = .ok env') (hbinds : env.Binds id name)
    (other : ScopeId) : SameNames env env' other := by
  intro x
  rw [binds_bindAt h]
  constructor
  · rintro (hx | ⟨rfl, rfl⟩)
    · exact hx
    · exact hbinds
  · exact .inl

/-- An assignment to a name of either kind changes the value where the name is found. -/
theorem Apart.assign (h : Apart globals locals env) (hname : name ∈ locals ∨ name ∈ globals)
    (value : Value) : ∃ env', env.assign name value = .ok env' ∧
      env.bindAt (if name ∈ locals then env.current else root) name value = .ok env' ∧
      Apart globals locals env' := by
  have hbinds := h.binds_owner hname
  obtain ⟨env', hbind, hshape⟩ := sameShape_bindAt (lt_size_of_binds hbinds) name value
  refine ⟨env', ?_, hbind, h.of_sameNames hshape (sameNames_bindAt hbind hbinds)⟩
  unfold Environment.assign
  rw [h.find_eq hname]
  exact hbind

/-- In a call the parameters are the local names, provided that none is named as a global. -/
theorem Apart.enterCall (h : Apart globals locals env) (scoping : Scoping)
    {parameters : List (String × Value)}
    (hfresh : ∀ name ∈ parameters.map Prod.fst, name ∉ globals) :
    Apart globals (parameters.map Prod.fst) (env.enterCall scoping parameters) where
  rooted := rooted_push h.rooted _ (parent_lt_size h.rooted.wellFormed scoping)
  root_binds name hname :=
    (binds_enterCall scoping parameters (lt_size_of_binds (h.root_binds name hname))).2
      (h.root_binds name hname)
  root_only name hname id hbinds := by
    have hid : id < env.scopes.size + 1 := by
      have hlt := lt_size_of_binds hbinds
      simpa [Environment.enterCall] using hlt
    rcases Nat.eq_or_lt_of_le (Nat.le_of_lt_succ hid) with rfl | hid
    · exact absurd hname (hfresh name ((binds_enterCall_top scoping parameters).1 hbinds))
    · exact h.root_only name hname id ((binds_enterCall scoping parameters hid).1 hbinds)
  current_binds name hname := (binds_enterCall_top scoping parameters).2 hname

theorem apart_ofRoot (globals : Bindings) : Apart globals [] (ofRoot globals) where
  rooted := rooted_ofRoot globals
  root_binds name hname := ⟨⟨globals, none⟩, rfl, hname⟩
  root_only name _ id hbinds := Nat.lt_one_iff.1 (lt_size_of_binds hbinds)
  current_binds := by simp

end Environment

open Environment

/-- The function mentions its parameters and globals only, and no parameter is named as a global. -/
def FunctionDecl.SelfContained (globals : Bindings) (f : FunctionDecl) : Prop :=
  (∀ name ∈ f.parameters, name ∉ globals) ∧
    ∀ name, f.body.Mentions name → name ∈ f.parameters ∨ name ∈ globals

/-- Two machines that differ in the parents of scopes only. -/
def Coupling.mirrors : Coupling Unit where
  related _ m₁ m₂ := Mirrors m₁.env m₂.env ∧ m₁.calls = m₂.calls
  escapes _ _ _ := False

/-- Two such machines in functions with the given local names. -/
def Coupling.scopings (globals : Bindings) (locals : List String) : Coupling Unit where
  related i m₁ m₂ :=
    Apart globals locals m₁.env ∧ Apart globals locals m₂.env ∧ Coupling.mirrors.related i m₁ m₂
  escapes _ _ _ := False

namespace Eval

variable {globals : Bindings} {locals : List String} {name : String}

theorem lockstep_scopings_lookup (hname : name ∈ locals ∨ name ∈ globals) :
    Lockstep (.scopings globals locals) (inspect (·.lookup name)) (inspect (·.lookup name)) := by
  intro i m₁ m₂ hm
  have hfind : m₁.env.find name = m₂.env.find name := by
    rw [hm.1.find_eq hname, hm.2.1.find_eq hname, hm.2.2.1.current]
  rw [inspect_apply, inspect_apply, hm.2.2.1.lookup_eq hfind]
  cases m₂.env.lookup name with
  | error fault => exact .interrupted _
  | ok value => exact .together _ hm

theorem lockstep_scopings_assign (hname : name ∈ locals ∨ name ∈ globals) (value : Value) :
    Lockstep (.scopings globals locals) (update (·.assign name value))
      (update (·.assign name value)) := by
  rintro i m₁ m₂ ⟨hapart₁, hapart₂, hmirrors, hcalls⟩
  obtain ⟨env₁, hassign₁, hbind₁, hapart₁'⟩ := hapart₁.assign hname value
  obtain ⟨env₂, hassign₂, hbind₂, hapart₂'⟩ := hapart₂.assign hname value
  rw [hmirrors.current] at hbind₁
  rw [update_apply, update_apply, hassign₁, hassign₂]
  exact .together _ ⟨hapart₁', hapart₂', hmirrors.bindAt hbind₁ hbind₂, hcalls⟩

/-- If bodies end on machines that mirror each other, so do calls of them. -/
theorem ends_mirrors_inCall (name : String) {scoping₁ scoping₂ : Scoping}
    {parameters : List (String × Value)} {body₁ body₂ : Eval Value} {env₁ env₂ : Environment}
    (hmirrors : Mirrors env₁ env₂) (calls : CallStack)
    (hbody : ∀ inner, Coupling.mirrors.Ends () (body₁ ⟨env₁.enterCall scoping₁ parameters, inner⟩)
      (body₂ ⟨env₂.enterCall scoping₂ parameters, inner⟩)) :
    Coupling.mirrors.Ends () (inCall scoping₁ name parameters body₁ ⟨env₁, calls⟩)
      (inCall scoping₂ name parameters body₂ ⟨env₂, calls⟩) := by
  have hmark : env₁.mark = env₂.mark := by
    unfold mark
    rw [hmirrors.size, hmirrors.current]
  rw [inCall_apply, inCall_apply, hmark]
  cases calls.push name with
  | error kind => exact .together _ ⟨hmirrors, rfl⟩
  | ok inner =>
    have hends := hbody inner
    dsimp only
    generalize body₁ _ = end₁, body₂ _ = end₂ at hends ⊢
    cases hends with
    | interrupted interrupt => exact .interrupted interrupt
    | alone he => exact he.elim
    | @together r after₁ after₂ hafter =>
      obtain ⟨hmirrors', hcalls'⟩ := hafter
      dsimp only
      rw [hcalls']
      rcases hmirrors'.leave env₂.mark with ⟨fault, hleft₁, hleft₂⟩ |
        ⟨left₁, left₂, hleft₁, hleft₂, hmirrors''⟩
      · rw [hleft₁, hleft₂]
        exact .interrupted _
      · rw [hleft₁, hleft₂]
        cases after₂.calls.pop with
        | error fault => exact .interrupted _
        | ok outer => exact .together _ ⟨hmirrors'', rfl⟩

variable {functions : FunctionTable} {fuel : Nat} {f : FunctionDecl} {values : List Value}

/-- A call of a self-contained function, from wherever. -/
theorem lockstep_scopings_inCall (scoping₁ scoping₂ : Scoping) (hf : f.SelfContained globals)
    (hlength : values.length = f.parameters.length)
    (hbody : Lockstep (.scopings globals f.parameters) (evaluate ⟨functions, scoping₁⟩ fuel f.body)
      (evaluate ⟨functions, scoping₂⟩ fuel f.body)) :
    Lockstep (.scopings globals locals)
      (inCall scoping₁ f.name (f.parameters.zip values)
        (evaluate ⟨functions, scoping₁⟩ fuel f.body))
      (inCall scoping₂ f.name (f.parameters.zip values)
        (evaluate ⟨functions, scoping₂⟩ fuel f.body)) := by
  rintro i ⟨env₁, calls⟩ ⟨env₂, calls₂⟩ ⟨hapart₁, hapart₂, hmirrors, hcalls⟩
  obtain rfl : calls = calls₂ := hcalls
  have hnames : (f.parameters.zip values).map Prod.fst = f.parameters :=
    List.map_fst_zip (Nat.le_of_eq hlength.symm)
  have hfresh : ∀ name ∈ (f.parameters.zip values).map Prod.fst, name ∉ globals := by
    rw [hnames]
    exact hf.1
  have hinside₁ := hapart₁.enterCall scoping₁ hfresh
  have hinside₂ := hapart₂.enterCall scoping₂ hfresh
  rw [hnames] at hinside₁ hinside₂
  have hends := ends_mirrors_inCall f.name hmirrors calls fun inner =>
    (hbody i ⟨_, inner⟩ ⟨_, inner⟩
      ⟨hinside₁, hinside₂, hmirrors.enterCall scoping₁ scoping₂ _, rfl⟩).imp
      (fun _ _ hm => hm.2.2) fun _ _ he => he
  -- The caller's scope has the names that it had, since a call adds none to the scopes that it
  -- finds.
  have hkept₁ := (keeps_frozen_inCall scoping₁ f.name (f.parameters.zip values)
    (keeps_naming_evaluate ⟨functions, scoping₁⟩ fuel f.body) ⟨env₁, calls⟩
    hapart₁.rooted.wellFormed).2
  have hkept₂ := (keeps_frozen_inCall scoping₂ f.name (f.parameters.zip values)
    (keeps_naming_evaluate ⟨functions, scoping₂⟩ fuel f.body) ⟨env₂, calls⟩
    hapart₂.rooted.wellFormed).2
  generalize inCall scoping₁ _ _ _ _ = end₁, inCall scoping₂ _ _ _ _ = end₂ at hends hkept₁ hkept₂ ⊢
  cases hends with
  | interrupted interrupt => exact .interrupted interrupt
  | alone he => exact he.elim
  | together r hafter =>
    obtain ⟨-, ⟨hshape₁, -⟩, hnames₁⟩ := hkept₁ _ _ rfl
    obtain ⟨-, ⟨hshape₂, -⟩, hnames₂⟩ := hkept₂ _ _ rfl
    exact .together _
      ⟨hapart₁.of_sameNames hshape₁ hnames₁, hapart₂.of_sameNames hshape₂ hnames₂, hafter⟩

theorem lockstep_scopings_callFunction (scoping₁ scoping₂ : Scoping)
    (hfunctions : ∀ name g, functions.get? name = some g → g.SelfContained globals)
    (hf : f.SelfContained globals) (fuel : Nat) (values : List Value) :
    Lockstep (.scopings globals locals)
      (callFunction scoping₁ (evaluate ⟨functions, scoping₁⟩ fuel) f values)
      (callFunction scoping₂ (evaluate ⟨functions, scoping₂⟩ fuel) f values) := by
  refine lockstep_callFunction fun hlength =>
    lockstep_scopings_inCall scoping₁ scoping₂ hf hlength ?_
  refine lockstep_evaluate_of_fits (Coupling.scopings globals)
    (fun locals e => ∀ name, e.Mentions name → name ∈ locals ∨ name ∈ globals) ?_ ?_ ?_ ?_
    fuel f.parameters f.body hf.2
  · exact fun _ e he d hd name hname => he name (hname.of_child hd)
  · exact fun _ name he => lockstep_scopings_lookup (he name (Expr.mentions_of_ownName? rfl))
  · exact fun _ name e value he =>
      lockstep_scopings_assign (he name (Expr.mentions_of_ownName? rfl)) value
  · intro _ fuel name g arguments hg hlength hbody
    have hcontained := hfunctions name g hg
    exact lockstep_scopings_inCall scoping₁ scoping₂ hcontained hlength
      (hbody g.parameters hcontained.2)

end Eval

/-- What has the shape of a root scope alone is a root scope alone. -/
theorem Environment.eq_ofRoot_of_sameShape {globals : Bindings} {env : Environment}
    (h : SameShape (ofRoot globals) env) : ∃ bindings, env = .ofRoot bindings := by
  have hsize : env.frames.size = 1 := (size_frames env).trans h.size
  obtain ⟨bindings, hframes⟩ := Array.size_eq_one_iff.1 hsize
  refine ⟨bindings, eq_of_frames_eq h.current ?_ ?_⟩
  · rw [hframes]
    simp [frames, ofRoot]
  · rw [h.parents]
    simp [parents, ofRoot]

namespace Eval

/-- Where a root scope is all there is and every function is self-contained for the names that it
binds, a call has one outcome under both scopings: to each fuel both run out of it, or both end with
the same value or error, on the same machine. That is again a root scope with the same names, under
the calls from before. -/
theorem callFunction_of_selfContained (functions : FunctionTable) (globals : Bindings)
    (calls : CallStack) (f : FunctionDecl) (values : List Value)
    (hfunctions : ∀ name g, functions.get? name = some g → g.SelfContained globals)
    (hf : f.SelfContained globals) (fuel : Nat) :
    ∃ outcome,
      callFunction .dynamic (evaluate ⟨functions, .dynamic⟩ fuel) f values
        ⟨.ofRoot globals, calls⟩ = outcome ∧
      callFunction .lexical (evaluate ⟨functions, .lexical⟩ fuel) f values
        ⟨.ofRoot globals, calls⟩ = outcome ∧
      (outcome = .error .outOfFuel ∨
        ∃ r globals', outcome = .ok (r, ⟨.ofRoot globals', calls⟩) ∧
          ∀ name, name ∈ globals' ↔ name ∈ globals) := by
  let m : Machine := ⟨.ofRoot globals, calls⟩
  have hrelated : (Coupling.scopings globals []).related () m m :=
    ⟨apart_ofRoot globals, apart_ofRoot globals, ⟨rfl, rfl⟩, rfl⟩
  have hends :=
    lockstep_scopings_callFunction .dynamic .lexical hfunctions hf fuel values () m m hrelated
  have hkept (scoping : Scoping) := keeps_frozen_callFunction ⟨functions, scoping⟩ fuel f values m
    (wellFormed_ofRoot globals)
  obtain ⟨-, hkept₁⟩ := hkept .dynamic
  obtain ⟨hfault, hkept₂⟩ := hkept .lexical
  dsimp only at hkept₁ hkept₂ hfault
  generalize callFunction .dynamic _ f values _ = end₁, callFunction .lexical _ f values _ = end₂
    at hends hkept₁ hkept₂ hfault ⊢
  cases hends with
  | alone he => exact he.elim
  | interrupted interrupt =>
    refine ⟨_, rfl, rfl, .inl ?_⟩
    cases interrupt with
    | outOfFuel => rfl
    | fault fault => exact absurd rfl (hfault fault)
  | @together r m₁ m₂ hafter =>
    obtain ⟨-, -, hmirrors, hcalls⟩ := hafter
    obtain ⟨-, ⟨hshape₁, hcalls₁⟩, hnames⟩ := hkept₁ _ _ rfl
    obtain ⟨-, ⟨hshape₂, -⟩, -⟩ := hkept₂ _ _ rfl
    obtain ⟨env₁, calls₁⟩ := m₁
    obtain ⟨env₂, calls₂⟩ := m₂
    obtain rfl : calls₁ = calls₂ := hcalls
    obtain rfl : calls₁ = calls := hcalls₁
    have hparents : env₁.parents = env₂.parents := hshape₁.parents.trans hshape₂.parents.symm
    obtain rfl : env₁ = env₂ := eq_of_frames_eq hmirrors.current hmirrors.frames hparents
    obtain ⟨globals', rfl⟩ := eq_ofRoot_of_sameShape hshape₁
    refine ⟨_, rfl, rfl, .inr ⟨r, globals', rfl, fun name => ?_⟩⟩
    simpa [m, binds_ofRoot_iff] using hnames root name

/-- The first function sets a global to its argument and then calls the second, which reads the
global. -/
theorem callFunction_of_selfContained_nested :
    ∃ (set get : FunctionDecl) (functions : FunctionTable) (globals globals' : Bindings),
      functions.get? "set" = some set ∧ functions.get? "get" = some get ∧
      (∀ name g, functions.get? name = some g → g.SelfContained globals) ∧
      globals["g"]? = some (.bool false) ∧ globals'["g"]? = some (.bool true) ∧
      callFunction .dynamic (evaluate ⟨functions, .dynamic⟩ 4) set [.bool true]
        ⟨.ofRoot globals, ⟨[], none⟩⟩ =
          .ok (.ok (.bool true), ⟨.ofRoot globals', ⟨[], none⟩⟩) ∧
      callFunction .lexical (evaluate ⟨functions, .lexical⟩ 4) set [.bool true]
        ⟨.ofRoot globals, ⟨[], none⟩⟩ =
          .ok (.ok (.bool true), ⟨.ofRoot globals', ⟨[], none⟩⟩) := by
  let set : FunctionDecl := ⟨"set", ["x"],
    .block [.assign "g" (.variable "x"), .call "get" [.variable "x"]]⟩
  let get : FunctionDecl := ⟨"get", ["y"], .variable "g"⟩
  let functions : FunctionTable :=
    ⟨((∅ : Std.ExtTreeMap String FunctionDecl).insert "set" set).insert "get" get⟩
  let globals : Bindings := (∅ : Bindings).insert "g" (.bool false)
  have hset : set.SelfContained globals := by
    refine ⟨by simp [set, globals], fun name hname => ?_⟩
    simp [set, globals] at hname ⊢
    tauto
  have hget : get.SelfContained globals := by
    refine ⟨by simp [get, globals], fun name hname => ?_⟩
    simp [get, globals] at hname ⊢
    tauto
  have hfunctions (name g) (hg : functions.get? name = some g) : g.SelfContained globals := by
    simp only [functions, FunctionTable.get?, Std.ExtTreeMap.getElem?_insert] at hg
    split at hg
    · exact Option.some.inj hg ▸ hget
    · split at hg
      · exact Option.some.inj hg ▸ hset
      · simp at hg
  obtain ⟨outcome, hdynamic, hlexical, -⟩ :=
    callFunction_of_selfContained functions globals ⟨[], none⟩ set [.bool true] hfunctions hset 4
  have hrun : callFunction .lexical (evaluate ⟨functions, .lexical⟩ 4) set [.bool true]
      ⟨.ofRoot globals, ⟨[], none⟩⟩ =
        .ok (.ok (.bool true), ⟨.ofRoot (globals.insert "g" (.bool true)), ⟨[], none⟩⟩) :=
    rfl
  refine ⟨set, get, functions, globals, globals.insert "g" (.bool true), rfl, rfl,
    hfunctions, rfl, rfl, ?_, hrun⟩
  rw [hdynamic, ← hlexical, hrun]

end Eval

end Scriptlet
