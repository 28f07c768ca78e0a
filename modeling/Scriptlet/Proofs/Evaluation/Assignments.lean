import Scriptlet.Proofs.Evaluation.Chains

/-!
# The laws of assignment

An assignment sets one value in one scope: where the name is found, or else in the current scope
(`Receives`). Where a name is found depends on the parents and on which scopes bind it
(`find_eq_of_binds_iff`). So no binding sends the search for another name elsewhere
(`find_bindAt_of_ne`), and a name is found in the scope that has received it
(`Receives.find_bindAt`).

An environment is its shape and its values, so that two orders of bindings can be compared value by
value. Main statement: assignments are the updates of a store (`assign_laws`). What was assigned is
looked up and all else is as before, of two assignments to one name the second counts, and
assignments to different names can be exchanged.
-/

namespace Scriptlet

namespace Environment

variable {env env' env₁ env₂ : Environment} {id other : ScopeId} {name x : String}
  {value value' : Value}

/-! ### Where a name is found -/

/-- The search outward goes down, so it depends only on the parents of the scopes below a bound and
on which of them bind the name. -/
theorem findFrom_eq_of_agree (hwf : env.WellFormed) {bound : Nat}
    (hparents : ∀ i < bound, env'.parents[i]? = env.parents[i]?)
    (hbinds : ∀ i < bound, env'.Binds i name ↔ env.Binds i name) (steps : Nat) (hid : id < bound) :
    findFrom env'.scopes name steps id = findFrom env.scopes name steps id := by
  induction steps generalizing id with
  | zero => rfl
  | succ steps ih =>
    have hparent := hparents id hid
    have hbind := hbinds id hid
    rw [getElem?_parents, getElem?_parents] at hparent
    unfold Binds at hbind
    rw [findFrom, findFrom]
    cases h : env.scopes[id]? with
    | none =>
      have h' : env'.scopes[id]? = none := by simpa [h] using hparent
      rw [h']
    | some scope =>
      obtain ⟨scope', h', hsame⟩ := Option.map_eq_some_iff.1 (hparent.trans (by rw [h]; rfl))
      have hcontains : scope'.bindings.contains name = scope.bindings.contains name := by
        rw [Bool.eq_iff_iff]
        simpa [h, h'] using hbind
      simp only [h', hcontains, hsame]
      cases houter : scope.parent with
      | none => rfl
      | some parent =>
        -- The parent is below the scope, and so below the bound.
        have hlt : parent < id := hwf.parent_lt id scope parent h houter
        dsimp only
        rw [ih (Nat.lt_trans hlt hid)]

theorem find_eq_of_binds_iff (hwf : env.WellFormed) (hshape : SameShape env env')
    (hbinds : ∀ id, env'.Binds id name ↔ env.Binds id name) : env'.find name = env.find name := by
  unfold find
  rw [hshape.size, hshape.current]
  refine findFrom_eq_of_agree hwf (fun i _ => ?_) (fun i _ => hbinds i) _ hwf.current_lt
  rw [hshape.parents]

/-- A name that the current scope binds is found there. -/
theorem find_of_binds_current (h : env.Binds env.current name) :
    env.find name = .ok (some env.current) := by
  obtain ⟨scope, hscope, hbound⟩ := h
  unfold find
  rw [findFrom, hscope]
  exact if_pos hbound

/-! ### One binding -/

/-- Binding sets one value in one scope. -/
theorem valueAt?_bindAt (h : env.bindAt id name value = .ok env') (other : ScopeId) (x : String) :
    env'.valueAt? other x = if other = id ∧ x = name then some value else env.valueAt? other x := by
  have hid := lt_size_of_bindAt h
  have hscope : env.scopes[id]? = some env.scopes[id] := Array.getElem?_eq_getElem hid
  obtain rfl := Except.ok.inj ((if_pos hid).symm.trans h)
  unfold valueAt?
  dsimp only
  by_cases hother : other = id
  · subst hother
    rw [Array.getElem?_modify, if_pos rfl, hscope]
    simp [Scope.insert, Std.ExtTreeMap.getElem?_insert, eq_comm (a := x)]
  · rw [Array.getElem?_modify, if_neg (Ne.symm hother), if_neg (fun h => hother h.1)]

/-- Binding one name does not change where another is found. -/
theorem find_bindAt_of_ne (hwf : env.WellFormed) (h : env.bindAt id name value = .ok env')
    (hx : x ≠ name) : env'.find x = env.find x := by
  refine find_eq_of_binds_iff hwf (sameShape_of_bindAt h) fun other => ?_
  rw [binds_bindAt h]
  simp [hx]

theorem lookup_bindAt_of_ne (hwf : env.WellFormed) (h : env.bindAt id name value = .ok env')
    (hx : x ≠ name) : env'.lookup x = env.lookup x := by
  have hvalues : (env'.valueAt? · x) = (env.valueAt? · x) := by
    funext other
    rw [valueAt?_bindAt h, if_neg (fun h => hx h.2)]
  rw [lookup_eq_map_find, lookup_eq_map_find, find_bindAt_of_ne hwf h hx, hvalues]

theorem Receives.bindAt_of_ne (hid : env.Receives x id) (hwf : env.WellFormed)
    (h : env.bindAt other name value = .ok env') (hx : x ≠ name) : env'.Receives x id := by
  obtain ⟨found, hfound, rfl⟩ := hid
  refine ⟨found, ?_, ?_⟩
  · rw [find_bindAt_of_ne hwf h hx, hfound]
  · rw [(sameShape_of_bindAt h).current]

/-- A name is found in the scope that has received it. -/
theorem Receives.find_bindAt (hid : env.Receives name id) (hwf : env.WellFormed)
    (h : env.bindAt id name value = .ok env') : env'.find name = .ok (some id) := by
  have hshape := sameShape_of_bindAt h
  have hbinds : env'.Binds id name := (binds_bindAt h id name).2 (.inr ⟨rfl, rfl⟩)
  obtain ⟨found, hfound, rfl⟩ := hid
  cases found with
  | none =>
    -- The name is new, and it is bound where the way outward begins.
    rw [Option.getD_none, ← hshape.current] at hbinds ⊢
    exact find_of_binds_current hbinds
  | some owner =>
    -- The scope has bound the name before, so every scope binds the names that it did.
    refine (find_eq_of_binds_iff hwf hshape fun other => ?_).trans hfound
    rw [binds_bindAt h]
    constructor
    · rintro (hother | ⟨rfl, -⟩)
      · exact hother
      · exact binds_of_findFrom hfound
    · exact .inl

theorem Receives.lookup_bindAt (hid : env.Receives name id) (hwf : env.WellFormed)
    (h : env.bindAt id name value = .ok env') : env'.lookup name = .ok (some value) := by
  rw [lookup_eq_map_find, hid.find_bindAt hwf h]
  show Except.ok (env'.valueAt? id name) = _
  rw [valueAt?_bindAt h, if_pos ⟨rfl, rfl⟩]

/-! ### Two bindings -/

/-- Of two bindings of a name in a scope the second counts. -/
theorem bindAt_bindAt_self (h : env.bindAt id name value = .ok env₁)
    (h' : env.bindAt id name value' = .ok env₂) : env₁.bindAt id name value' = .ok env₂ := by
  have hshape := sameShape_of_bindAt h
  have hid : id < env₁.scopes.size := by
    rw [hshape.size]
    exact lt_size_of_bindAt h
  obtain ⟨env₃, h₃, hshape₃⟩ := sameShape_bindAt hid name value'
  rw [h₃]
  congr 1
  refine eq_of_valueAt?_eq ((sameShape_of_bindAt h').symm.trans (hshape.trans hshape₃))
    fun other x => ?_
  rw [valueAt?_bindAt h₃, valueAt?_bindAt h, valueAt?_bindAt h']
  split <;> rfl

/-- Bindings of different names can be exchanged. -/
theorem bindAt_comm (hx : x ≠ name) (h₁ : env.bindAt id name value = .ok env₁)
    (h₂ : env.bindAt other x value' = .ok env₂) :
    ∃ env', env₁.bindAt other x value' = .ok env' ∧ env₂.bindAt id name value = .ok env' := by
  have hshape₁ := sameShape_of_bindAt h₁
  have hshape₂ := sameShape_of_bindAt h₂
  have hother : other < env₁.scopes.size := by
    rw [hshape₁.size]
    exact lt_size_of_bindAt h₂
  have hid : id < env₂.scopes.size := by
    rw [hshape₂.size]
    exact lt_size_of_bindAt h₁
  obtain ⟨env₁', h₁', hshape₁'⟩ := sameShape_bindAt hother x value'
  obtain ⟨env₂', h₂', hshape₂'⟩ := sameShape_bindAt hid name value
  refine ⟨env₁', h₁', ?_⟩
  rw [h₂']
  congr 1
  refine eq_of_valueAt?_eq ((hshape₁.trans hshape₁').symm.trans (hshape₂.trans hshape₂'))
    fun i y => ?_
  rw [valueAt?_bindAt h₁', valueAt?_bindAt h₁, valueAt?_bindAt h₂', valueAt?_bindAt h₂]
  -- No place has both names.
  split <;> split <;> simp_all

/-! ### Assignments -/

/-- In a well-formed environment assignments are the updates of a store. An assignment sets the
value of the name where it was found, or else in the current scope, and changes no other value in
any scope, nor the scopes themselves. The name is then found there with that value, and every other
name where it was found before with the value that it had. A second assignment to the name makes the
first one void, and an assignment to another name can be made before or after it. -/
theorem assign_laws (env : Environment) (hwf : env.WellFormed) (name : String) (value : Value) :
    ∃ found env', env.find name = .ok found ∧ env.assign name value = .ok env' ∧
      SameShape env env' ∧
      env'.find name = .ok (some (found.getD env.current)) ∧ env'.lookup name = .ok (some value) ∧
      (∀ id x, env'.valueAt? id x =
        if id = found.getD env.current ∧ x = name then some value else env.valueAt? id x) ∧
      (∀ value', ∃ env'', env'.assign name value' = .ok env'' ∧
        env.assign name value' = .ok env'') ∧
      ∀ x, x ≠ name → env'.find x = env.find x ∧ env'.lookup x = env.lookup x ∧
        ∀ value', ∃ env₂ env'', env'.assign x value' = .ok env'' ∧
          env.assign x value' = .ok env₂ ∧ env₂.assign name value = .ok env'' := by
  obtain ⟨id, hreceives, hid⟩ := hwf.exists_receives name
  have ⟨found, hfound, howner⟩ := hreceives
  subst howner
  obtain ⟨env', hbind, hshape⟩ := sameShape_bindAt hid name value
  refine ⟨found, env', hfound, (hreceives.assign_eq value).trans hbind, hshape,
    hreceives.find_bindAt hwf hbind, hreceives.lookup_bindAt hwf hbind, valueAt?_bindAt hbind,
    fun value' => ?_, fun x hx => ⟨find_bindAt_of_ne hwf hbind hx, lookup_bindAt_of_ne hwf hbind hx,
      fun value' => ?_⟩⟩
  · have hreceives' : env'.Receives name (found.getD env.current) :=
      ⟨some _, hreceives.find_bindAt hwf hbind, rfl⟩
    obtain ⟨env'', hbind'', -⟩ := sameShape_bindAt hid name value'
    refine ⟨env'', ?_, (hreceives.assign_eq value').trans hbind''⟩
    rw [hreceives'.assign_eq, bindAt_bindAt_self hbind hbind'']
  · -- Each of the two names goes to the same scope whether or not the other has been assigned.
    obtain ⟨other, hother, hlt⟩ := hwf.exists_receives x
    obtain ⟨env₂, hbind₂, -⟩ := sameShape_bindAt hlt x value'
    obtain ⟨env'', hbind'', hbind₂''⟩ := bindAt_comm hx hbind hbind₂
    refine ⟨env₂, env'', ?_, (hother.assign_eq value').trans hbind₂, ?_⟩
    · rw [(hother.bindAt_of_ne hwf hbind hx).assign_eq, hbind'']
    · rw [(hreceives.bindAt_of_ne hwf hbind₂ hx.symm).assign_eq, hbind₂'']

/-- The name is bound in the root and in a scope beside the way outward, which keeps its value. The
other name is bound nowhere, before and after. -/
theorem assign_laws_beside_way :
    ∃ env env' : Environment, env.WellFormed ∧ env.current = 2 ∧ env.find "x" = .ok (some 0) ∧
      env.assign "x" (.bool true) = .ok env' ∧ env'.find "x" = .ok (some 0) ∧
      env'.lookup "x" = .ok (some (.bool true)) ∧ env'.valueAt? 1 "x" = some .unit ∧
      env'.find "y" = .ok none ∧
      ∃ env₂ env'', env'.assign "y" .unit = .ok env'' ∧ env.assign "y" .unit = .ok env₂ ∧
        env₂.assign "x" (.bool true) = .ok env'' := by
  let globals : Bindings := (∅ : Bindings).insert "x" (.bool false)
  let beside : Bindings := (∅ : Bindings).insert "x" .unit
  let env : Environment := ⟨2, #[⟨globals, none⟩, ⟨beside, some 0⟩, ⟨∅, some 0⟩]⟩
  have hwf₁ : WellFormed ⟨1, #[⟨globals, none⟩, ⟨beside, some 0⟩]⟩ :=
    wellFormed_push (wellFormed_ofRoot globals) beside Nat.zero_lt_one
  have hwf : env.WellFormed := wellFormed_push hwf₁ ∅ Nat.zero_lt_two
  obtain ⟨found, env', hfound, hassign, -, hfind, hlookup, hvalues, -, hothers⟩ :=
    assign_laws env hwf "x" (.bool true)
  obtain rfl : some 0 = found := Except.ok.inj hfound
  obtain ⟨hfindOther, -, hexchange⟩ := hothers "y" (by decide)
  refine ⟨env, env', hwf, rfl, hfound, hassign, hfind, hlookup, ?_, hfindOther, hexchange .unit⟩
  rw [hvalues, if_neg (by decide)]
  rfl

end Environment

end Scriptlet
