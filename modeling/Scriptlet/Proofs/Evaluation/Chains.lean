import Scriptlet.Proofs.Evaluation.BoundNames

/-!
# The way outward

An environment is rooted when its current scope is there, the root has no parent, and every other
scope has a parent below it. From each scope there is then one way outward, which goes down to the
root (`Rooted.exists_outward`, `Outward.unique`). Main statement: `find` and `lookup` search the
scopes on that way, in its order (`Outward.find_eq`, `Outward.lookup_eq`).

`find` walks with a bound on its steps. The way goes down, so it has at most as many scopes as there
are places up to where it begins, and the bound is never met.
-/

namespace Scriptlet

namespace Environment

variable {env env' : Environment} {id parent : ScopeId} {chain : List ScopeId} {name : String}

/-- The current scope is there, the root has no parent, and the parent of any other scope is below
it. -/
structure Rooted (env : Environment) : Prop where
  current_lt : env.current < env.depth
  root_parent : env.parents[root]? = some none
  parent_lt : ∀ id, root < id → id < env.depth →
    ∃ parent, env.parents[id]? = some (some parent) ∧ parent < id

theorem depth_eq (env : Environment) : env.depth = env.parents.size :=
  (size_parents env).symm

theorem Rooted.wellFormed (h : env.Rooted) : env.WellFormed := by
  rw [wellFormed_iff, ← depth_eq]
  refine ⟨h.current_lt, fun id parent hparent => ?_⟩
  have hid : id < env.depth := by
    rw [depth_eq]
    exact (Array.getElem?_eq_some_iff.1 hparent).1
  rcases Nat.eq_zero_or_pos id with rfl | hpos
  · have hnone := h.root_parent
    rw [show (root : ScopeId) = 0 from rfl, hparent] at hnone
    cases hnone
  · obtain ⟨other, hother, hlt⟩ := h.parent_lt id hpos hid
    rw [hparent] at hother
    have heq : parent = other := by simpa using hother
    exact heq ▸ hlt

/-- Being rooted is a matter of the current scope and the parents. -/
theorem SameShape.rooted (h : SameShape env env') (hrooted : env.Rooted) : env'.Rooted where
  current_lt := by
    rw [depth_eq, h.parents, h.current, ← depth_eq]
    exact hrooted.current_lt
  root_parent := by
    rw [h.parents]
    exact hrooted.root_parent
  parent_lt := by
    rw [depth_eq, h.parents, ← depth_eq]
    exact hrooted.parent_lt

theorem rooted_ofRoot (bindings : Bindings) : Rooted (ofRoot bindings) where
  current_lt := Nat.zero_lt_one
  root_parent := by simp [ofRoot, parents, root]
  parent_lt _ hpos hlt := absurd hlt (Nat.not_lt.2 hpos)

/-- One more scope on top, whose parent is one of the others. -/
theorem rooted_push (h : env.Rooted) (bindings : Bindings) (hparent : parent < env.depth) :
    Rooted ⟨env.depth, env.scopes.push ⟨bindings, some parent⟩⟩ := by
  have hparents : parents ⟨env.depth, env.scopes.push ⟨bindings, some parent⟩⟩ =
      env.parents.push (some parent) := by
    simp [parents]
  have hdepth : depth ⟨env.depth, env.scopes.push ⟨bindings, some parent⟩⟩ = env.depth + 1 := by
    simp [depth]
  have hsize := depth_eq env
  refine ⟨?_, ?_, fun id hpos hid => ?_⟩
  · rw [hdepth]
    exact Nat.lt_succ_self _
  · have hroot : root < env.parents.size := hsize ▸ Nat.zero_lt_of_lt h.current_lt
    rw [hparents, Array.getElem?_push_lt hroot, ← Array.getElem?_eq_getElem hroot]
    exact h.root_parent
  · rw [hdepth] at hid
    rw [hparents, Array.getElem?_push, ← hsize]
    by_cases htop : id = env.depth
    · rw [if_pos htop]
      exact ⟨parent, rfl, htop ▸ hparent⟩
    · rw [if_neg htop]
      exact h.parent_lt id hpos (Nat.lt_of_le_of_ne (Nat.le_of_lt_succ hid) htop)

/-! ### Ways -/

/-- The scopes on the way from one outward, which ends at a scope without a parent. -/
inductive Outward (env : Environment) : ScopeId → List ScopeId → Prop
  | last {id : ScopeId} : env.parents[id]? = some none → Outward env id [id]
  | step {id parent : ScopeId} {chain : List ScopeId} : env.parents[id]? = some (some parent) →
    Outward env parent chain → Outward env id (id :: chain)

/-- There is one way outward from each scope. -/
theorem Outward.unique {chain' : List ScopeId} (h : Outward env id chain)
    (h' : Outward env id chain') : chain = chain' := by
  induction h generalizing chain' with
  | last hnone =>
    cases h' with
    | last => rfl
    | step hsome => simp [hnone] at hsome
  | step hsome _ ih =>
    cases h' with
    | last hnone => simp [hsome] at hnone
    | step hsome' hrest =>
      have heq : _ = _ := hsome.symm.trans hsome'
      simp only [Option.some.injEq] at heq
      subst heq
      rw [ih hrest]

/-- In a rooted environment the way outward from a scope is there and leads down to the root,
through no other scope without a parent. -/
theorem Rooted.exists_outward (h : env.Rooted) (hid : id < env.depth) :
    ∃ above, Outward env id (above ++ [root]) ∧ ∀ i ∈ above, root < i ∧ i ≤ id := by
  induction hn : id using Nat.strongRecOn generalizing id with
  | _ n ih =>
    subst hn
    rcases Nat.eq_zero_or_pos id with rfl | hpos
    · exact ⟨[], .last h.root_parent, by simp⟩
    · obtain ⟨parent, hparent, hlt⟩ := h.parent_lt id hpos hid
      obtain ⟨above, hrest, habove⟩ := ih parent hlt (Nat.lt_trans hlt hid) rfl
      refine ⟨id :: above, .step hparent hrest, fun i hi => ?_⟩
      rcases List.mem_cons.1 hi with rfl | hi
      · exact ⟨hpos, Nat.le_refl i⟩
      · have hi := habove i hi
        exact ⟨hi.1, Nat.le_trans hi.2 (Nat.le_of_lt hlt)⟩

/-- A way down has at most one scope for each place up to its beginning. -/
theorem Outward.length_le (hwf : env.WellFormed) (h : Outward env id chain) :
    chain.length ≤ id + 1 := by
  induction h with
  | last => simp
  | step hparent _ ih =>
    have hlt := (wellFormed_iff.1 hwf).2 _ _ hparent
    rw [List.length_cons]
    exact Nat.succ_le_succ (Nat.le_trans ih hlt)

/-! ### Searching -/

instance (env : Environment) (id : ScopeId) (name : String) : Decidable (env.Binds id name) :=
  decidable_of_iff (env.scopes[id]?.any (·.bindings.contains name) = true) (by
    simp [Binds, Option.any_eq_true])

/-- The value that a scope itself has for a name. -/
def valueAt? (env : Environment) (id : ScopeId) (name : String) : Option Value := do
  let scope ← env.scopes[id]?
  scope.bindings[name]?

theorem isSome_valueAt?_iff : (env.valueAt? id name).isSome = true ↔ env.Binds id name := by
  unfold valueAt? Binds
  cases env.scopes[id]? with
  | none => simp
  | some scope => simp

/-- An environment is determined by the shape of its scopes and the values in them. -/
theorem eq_of_valueAt?_eq (hshape : SameShape env env')
    (hvalues : ∀ id name, env'.valueAt? id name = env.valueAt? id name) : env' = env := by
  have hscopes : env'.scopes = env.scopes := by
    refine Array.ext_getElem? fun id => ?_
    have hparent := congrArg (·[id]?) hshape.parents
    have hvalue := hvalues id
    simp only [getElem?_parents] at hparent
    unfold valueAt? at hvalue
    cases h : env.scopes[id]? with
    | none => simpa [h] using hparent
    | some scope =>
      cases h' : env'.scopes[id]? with
      | none => simp [h, h'] at hparent
      | some scope' =>
        obtain ⟨bindings, parent⟩ := scope
        obtain ⟨bindings', parent'⟩ := scope'
        obtain rfl : parent' = parent := by simpa [h, h'] using hparent
        have hbindings : bindings' = bindings :=
          Std.ExtTreeMap.ext_getElem? fun name => by simpa [h, h'] using hvalue name
        rw [hbindings]
  obtain ⟨current, scopes⟩ := env
  obtain ⟨current', scopes'⟩ := env'
  exact congr (congrArg mk hshape.current) hscopes

theorem lookup_eq_map_find (env : Environment) (name : String) :
    env.lookup name = (env.find name).map (·.bind (env.valueAt? · name)) := rfl

/-- The scopes of a way are searched in its order, if there are enough steps for them. -/
theorem Outward.findFrom_eq (h : Outward env id chain) {steps : Nat}
    (hsteps : chain.length ≤ steps) :
    findFrom env.scopes name steps id = .ok (chain.find? (env.Binds · name)) := by
  induction h generalizing steps with
  | @last id hnone =>
    obtain ⟨steps, rfl⟩ : ∃ n, steps = n + 1 := ⟨steps - 1, by simp at hsteps; omega⟩
    rw [getElem?_parents] at hnone
    obtain ⟨scope, hscope, hparent⟩ := Option.map_eq_some_iff.1 hnone
    have hbinds : env.Binds id name ↔ scope.bindings.contains name = true := by simp [Binds, hscope]
    rw [findFrom, hscope, List.find?_cons]
    by_cases hbound : scope.bindings.contains name = true
    · simp [hbound, hbinds]
    · simp [hbound, hbinds, hparent]
  | @step id parent chain hsome _ ih =>
    rw [List.length_cons] at hsteps
    obtain ⟨steps, rfl⟩ : ∃ n, steps = n + 1 := ⟨steps - 1, by omega⟩
    rw [getElem?_parents] at hsome
    obtain ⟨scope, hscope, hparent⟩ := Option.map_eq_some_iff.1 hsome
    have hbinds : env.Binds id name ↔ scope.bindings.contains name = true := by simp [Binds, hscope]
    rw [findFrom, hscope, List.find?_cons]
    by_cases hbound : scope.bindings.contains name = true
    · simp [hbound, hbinds]
    · -- The scope does not bind the name, so the search goes on at its parent with one step less.
      have hrest : findFrom env.scopes name steps parent = .ok (chain.find? (env.Binds · name)) :=
        ih (by omega)
      simp [hbound, hbinds, hparent, hrest]

/-- `find` gives the first scope on the way outward that binds the name. -/
theorem Outward.find_eq (hwf : env.WellFormed) (h : Outward env env.current chain) (name : String) :
    env.find name = .ok (chain.find? (env.Binds · name)) := by
  have hlength : chain.length ≤ env.current + 1 := h.length_le hwf
  have hsteps : env.current + 1 ≤ env.scopes.size + 1 := Nat.le_succ_of_le hwf.current_lt
  exact h.findFrom_eq (Nat.le_trans hlength hsteps)

/-- `lookup` gives the first value for the name on the way outward. -/
theorem Outward.lookup_eq (hwf : env.WellFormed) (h : Outward env env.current chain)
    (name : String) : env.lookup name = .ok (chain.findSome? (env.valueAt? · name)) := by
  rw [lookup_eq_map_find, h.find_eq hwf]
  show Except.ok ((chain.find? (env.Binds · name)).bind (env.valueAt? · name)) = _
  congr 1
  -- A scope that binds the name is one that has a value for it.
  clear h
  induction chain with
  | nil => rfl
  | cons id chain ih =>
    rw [List.find?_cons, List.findSome?_cons]
    cases hvalue : env.valueAt? id name with
    | none =>
      have hbinds : ¬ env.Binds id name := by rw [← isSome_valueAt?_iff, hvalue]; simp
      simp [hbinds, ih]
    | some value =>
      have hbinds : env.Binds id name := by rw [← isSome_valueAt?_iff, hvalue]; rfl
      simp [hbinds, hvalue]

end Environment

end Scriptlet
