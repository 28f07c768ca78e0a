import Mathlib.Data.Fintype.EquivFin
import Mathlib.Data.Set.Finite.Lattice
import Scriptlet.Proofs.Evaluation.BoundNames
import Scriptlet.Proofs.Evaluation.OutOfSight
import Scriptlet.Proofs.Semantics.Isolation

/-!
# Where the globals get their first values

Each initializer is evaluated in the scope that is current in the seed. If that is the root, the
other scopes of the seed are out of sight, and every initializer yields what it yields when the seed
has no scope but the root (`Settings.initialValue_eq_rootOnly`). An initializer that is the name of
an earlier global then yields what the root has for it.

A run of the program splits at each global. It ends as the initializer does where that is with an
error or an interrupt, and else goes on with the value (`Interpreter.run_of_initialValue`).

If another scope is current, this fails. A name that no scope binds can be assigned in the first
initializer, which binds it in the current scope. A global of that name is hidden there from the
initializers that follow (`initialValue_shadowing`). Main statement: initializers see the root
alone, for all programs, exactly if the root is current in the seed
(`Settings.initialValue_root_iff`).
-/

namespace Scriptlet

open Environment Eval

/-- Gives the globals before `g` their first values and evaluates the initializer of `g`. -/
def Eval.initializerAfter (ctx : Context) (fuel : Nat) (before : List GlobalDecl) (g : GlobalDecl) :
    Eval Value := do
  before.forM (setGlobal ctx fuel)
  evaluate ctx fuel g.initializer

/-- What the initializer of `g` yields in a run, after the globals before it have their first
values. -/
def Settings.initialValue (settings : Settings) (fuel : Nat) (functions : FunctionTable)
    (before : List GlobalDecl) (g : GlobalDecl) : Except Interrupt (Except EvalError Value) :=
  (initializerAfter ⟨functions, settings.scoping⟩ fuel before g settings.machine).map Prod.fst

/-- The same settings with a seed that has only a root scope. -/
def Settings.rootOnly (settings : Settings) (globals : Bindings) : Settings :=
  { settings with seed := .ofRoot globals }

/-! ### Runs and initializers -/

namespace Eval

/-- What is left of a run once the initializer of `g` has yielded its value. -/
def resume (ctx : Context) (fuel : Nat) (g : GlobalDecl) (after : List GlobalDecl) (value : Value) :
    Eval Value := do
  update (·.defineGlobal g.name value)
  after.forM (setGlobal ctx fuel)
  let main ← require .missingEntryPoint (ctx.functions.get? "main")
  callFunction ctx.scoping (evaluate ctx fuel) main []

theorem forM_setGlobal_append (ctx : Context) (fuel : Nat) (before gs : List GlobalDecl) :
    (before ++ gs).forM (setGlobal ctx fuel) = (do
      before.forM (setGlobal ctx fuel)
      gs.forM (setGlobal ctx fuel)) := by
  induction before with
  | nil => rfl
  | cons g before ih =>
    rw [List.cons_append, forM_setGlobal_cons, forM_setGlobal_cons, ih]
    simp only [bind_assoc]

/-- A run splits at each global. -/
theorem runProgram_split {p : Program} {before after : List GlobalDecl} {g : GlobalDecl}
    (ctx : Context) (fuel : Nat) (hp : p.globals = before ++ g :: after) :
    runProgram ctx fuel p = initializerAfter ctx fuel before g >>= resume ctx fuel g after := by
  rw [runProgram_eq, hp, forM_setGlobal_append, forM_setGlobal_cons, initializerAfter]
  simp only [bind_assoc]
  rfl

end Eval

namespace Interpreter

/-- The initializer of a global decides how a run goes on. An interrupt or an error of it is the end
of the run, and a value of it is bound in the root before the run goes on with the globals after it,
from the machine that the initializer leaves. -/
theorem run_of_initialValue {settings : Settings} {p : Program} {functions : FunctionTable}
    {before after : List GlobalDecl} {g : GlobalDecl}
    (hfunctions : FunctionTable.ofProgram p = .ok functions)
    (hp : p.globals = before ++ g :: after) (fuel : Nat) (m : Machine) :
    (∀ interrupt, settings.initialValue fuel functions before g = .error interrupt →
      run ⟨settings, m⟩ fuel p = .error interrupt) ∧
    (∀ e, settings.initialValue fuel functions before g = .ok (.error e) →
      ∃ i', run ⟨settings, m⟩ fuel p = .ok (.error e, i')) ∧
    ∀ value, settings.initialValue fuel functions before g = .ok (.ok value) →
      ∃ m', initializerAfter ⟨functions, settings.scoping⟩ fuel before g settings.machine =
          .ok (.ok value, m') ∧
        run ⟨settings, m⟩ fuel p =
          perform ⟨settings, m'⟩ (resume ⟨functions, settings.scoping⟩ fuel g after value) := by
  rw [run_of_functions hfunctions, runProgram_split _ fuel hp]
  unfold Settings.initialValue perform
  dsimp only
  generalize resume ⟨functions, settings.scoping⟩ fuel g after = rest
  match hsteps :
    initializerAfter ⟨functions, settings.scoping⟩ fuel before g settings.machine with
  | .error interrupt =>
    rw [bind_apply_of_interrupt hsteps]
    refine ⟨fun interrupt' h => ?_, nofun, nofun⟩
    rw [← Except.error.inj h]
    rfl
  | .ok (.error e, m') =>
    rw [bind_apply_of_error hsteps]
    refine ⟨nofun, fun e' h => ⟨⟨settings, m'⟩, ?_⟩, nofun⟩
    rw [← Except.error.inj (Except.ok.inj h)]
    rfl
  | .ok (.ok value, m') =>
    rw [bind_apply_of_ok hsteps]
    refine ⟨nofun, nofun, fun value' h => ⟨m', ?_⟩⟩
    obtain rfl := Except.ok.inj (Except.ok.inj h)
    exact ⟨rfl, rfl⟩

end Interpreter

namespace Environment

variable {env : Environment} {globals : Bindings} {name : String} {value : Value}

theorem scope_root_of_globals? (hwf : env.WellFormed) (h : env.globals? = some globals) :
    env.scopes[root]? = some ⟨globals, none⟩ := by
  obtain ⟨globals', others, henv⟩ := hwf.exists_withRoot
  rw [henv] at h ⊢
  obtain rfl : globals' = globals := Option.some.inj h
  rfl

/-- With the root as the current scope, all others are out of sight. -/
theorem beside_ofRoot (hwf : env.WellFormed) (h : env.globals? = some globals)
    (hroot : env.current = root) : ∃ hidden, Beside hidden env (.ofRoot globals) := by
  have hsize : env.scopes.size = 1 + (env.scopes.size - 1) := by
    have hpos := Nat.zero_lt_of_lt hwf.current_lt
    omega
  refine ⟨env.scopes.size - 1, wellFormed_ofRoot globals, ?_, hsize, fun id => ?_⟩
  · rw [hroot]
    exact (lift_root _).symm
  · cases id with
    | zero =>
      rw [show (0 : Nat) = root from rfl, lift_root, scope_root_of_globals? hwf h]
      rfl
    | succ id =>
      rw [lift_of_pos (Nat.succ_pos id), Array.getElem?_eq_none (by omega)]
      rfl

/-- The current scope is the first on the way outward. -/
theorem lookup_of_current {scope : Scope} (hscope : env.scopes[env.current]? = some scope)
    (hvalue : scope.bindings[name]? = some value) : env.lookup name = .ok (some value) := by
  have hbound : scope.bindings.contains name = true := by
    rw [Std.ExtTreeMap.contains_eq_isSome_getElem?, hvalue]
    rfl
  have hfind : env.find name = .ok (some env.current) := by
    unfold find
    rw [findFrom, hscope]
    exact if_pos hbound
  unfold lookup
  rw [hfind]
  simp [Except.map, hscope, hvalue]

/-- There is a name that no scope binds. -/
theorem exists_not_binds (env : Environment) : ∃ name, ∀ id, ¬ env.Binds id name := by
  have hfinite : {name | ∃ id, env.Binds id name}.Finite := by
    have hkeys : (⋃ scope ∈ env.scopes.toList, {name | name ∈ scope.bindings.keys}).Finite :=
      (List.finite_toSet _).biUnion fun scope _ => List.finite_toSet _
    refine hkeys.subset ?_
    rintro name ⟨id, scope, hscope, hname⟩
    have hmem : scope ∈ env.scopes.toList := by
      rw [Array.mem_toList_iff]
      exact Array.mem_of_getElem? hscope
    exact Set.mem_biUnion hmem (Std.ExtTreeMap.mem_keys.2 hname)
  obtain ⟨name, hname⟩ := hfinite.exists_notMem
  exact ⟨name, fun id hbinds => hname ⟨id, hbinds⟩⟩

theorem find_eq_none (hwf : env.WellFormed) (h : ∀ id, ¬ env.Binds id name) :
    env.find name = .ok none := by
  obtain ⟨owner, howner, -⟩ := find_of_wellFormed hwf name
  cases owner with
  | none => exact howner
  | some id => exact absurd (binds_of_findFrom howner) (h id)

end Environment

namespace Settings

variable {settings : Settings} {globals : Bindings} {functions : FunctionTable} {fuel : Nat}
  {before : List GlobalDecl} {g : GlobalDecl} {name : String} {m m' : Machine}

/-- From the root, initializers do not see the other scopes of the seed. -/
theorem initialValue_eq_rootOnly (hwf : settings.seed.WellFormed)
    (hglobals : settings.seed.globals? = some globals) (hroot : settings.seed.current = root)
    (fuel : Nat) (functions : FunctionTable) (before : List GlobalDecl) (g : GlobalDecl) :
    settings.initialValue fuel functions before g =
      (settings.rootOnly globals).initialValue fuel functions before g := by
  obtain ⟨hidden, hbeside⟩ := beside_ofRoot hwf hglobals hroot
  let ctx : Context := ⟨functions, settings.scoping⟩
  have hbefore : Lockstep (.hiding hidden) (before.forM (setGlobal ctx fuel))
      (before.forM (setGlobal ctx fuel)) := lockstep_hiding_setGlobals ctx fuel before
  have hsteps := hbefore.bind fun _ => lockstep_hiding_evaluate ctx fuel g.initializer
  exact hsteps.map_fst_eq hbeside rfl

/-- The value of an initializer is that of its expression on the machine where its turn comes. -/
theorem initialValue_of_reached
    (hreached : before.forM (setGlobal ⟨functions, settings.scoping⟩ fuel) settings.machine =
      .ok (.ok (), m)) :
    settings.initialValue fuel functions before g =
      (evaluate ⟨functions, settings.scoping⟩ fuel g.initializer m).map Prod.fst := by
  unfold initialValue initializerAfter
  rw [bind_apply_of_ok hreached]

/-! ### Initializers from another scope -/

/-- The first global assigns to its own name, and the second takes the name anew. -/
def shadowing (name : String) : List GlobalDecl :=
  [⟨name, .assign name (.boolean true)⟩, ⟨name, .boolean false⟩]

/-- The environment after the globals in `shadowing`, for a name that was not bound. -/
def shadowed (env : Environment) (name : String) : Environment where
  current := env.current
  scopes := ((env.scopes.modify env.current (·.insert name (.bool true))).modify root
    (·.insert name (.bool true))).modify root (·.insert name (.bool false))

theorem setGlobals_shadowing {env : Environment} (hwf : env.WellFormed)
    (hfind : env.find name = .ok none) (ctx : Context) (calls : CallStack) :
    (shadowing name).forM (setGlobal ctx 2) ⟨env, calls⟩ =
      .ok (.ok (), ⟨shadowed env name, calls⟩) := by
  have hpos : root < env.scopes.size := Nat.zero_lt_of_lt hwf.current_lt
  have hassign : env.assign name (.bool true) =
      .ok ⟨env.current, env.scopes.modify env.current (·.insert name (.bool true))⟩ := by
    unfold assign
    rw [hfind]
    exact if_pos hwf.current_lt
  have hdefine (scopes : Array Scope) (hscopes : scopes.size = env.scopes.size) (value : Value) :
      update (·.defineGlobal name value) ⟨⟨env.current, scopes⟩, calls⟩ =
        .ok (.ok (), ⟨⟨env.current, scopes.modify root (·.insert name value)⟩, calls⟩) := by
    have hbind : Environment.defineGlobal ⟨env.current, scopes⟩ name value =
        .ok ⟨env.current, scopes.modify root (·.insert name value)⟩ := if_pos (hscopes ▸ hpos)
    rw [update_apply, hbind]
  have hfirst : evaluate ctx 2 (.assign name (.boolean true)) ⟨env, calls⟩ = .ok (.ok (.bool true),
      ⟨⟨env.current, env.scopes.modify env.current (·.insert name (.bool true))⟩, calls⟩) := by
    have hupdate := update_apply (·.assign name (.bool true)) ⟨env, calls⟩
    rw [hassign] at hupdate
    show (evaluate ctx 1 (.boolean true) >>= fun value => update (·.assign name value) >>= fun _ =>
      pure value) _ = _
    rw [bind_apply_of_ok (show evaluate ctx 1 (.boolean true) ⟨env, calls⟩ = _ from rfl),
      bind_apply_of_ok hupdate]
    rfl
  have hsecond (env' : Environment) : evaluate ctx 2 (.boolean false) ⟨env', calls⟩ =
      .ok (.ok (.bool false), ⟨env', calls⟩) := rfl
  rw [shadowing, forM_setGlobal_cons, bind_apply_of_ok hfirst,
    bind_apply_of_ok (hdefine _ Array.size_modify _), forM_setGlobal_cons,
    bind_apply_of_ok (hsecond _),
    bind_apply_of_ok (hdefine _ (Array.size_modify.trans Array.size_modify) _)]
  rfl

/-- In the root the later value of the two is there, and in any other scope the assigned one is in
front of it. -/
theorem lookup_shadowed {env : Environment} (hwf : env.WellFormed) (name : String) :
    (shadowed env name).lookup name = .ok (some (.bool (decide (env.current ≠ root)))) := by
  obtain ⟨scope, hscope⟩ : ∃ scope, env.scopes[env.current]? = some scope :=
    ⟨_, Array.getElem?_eq_getElem hwf.current_lt⟩
  -- The last two bindings are in the root, and the first is there too only if the root is current.
  by_cases hroot : env.current = root
  · have htop : (shadowed env name).scopes[env.current]? = some (((scope.insert name
        (.bool true)).insert name (.bool true)).insert name (.bool false)) := by
      rw [hroot] at hscope ⊢
      simp [shadowed, Array.getElem?_modify, hroot, hscope]
    refine lookup_of_current htop ?_
    simp [Scope.insert, hroot]
  · have htop : (shadowed env name).scopes[env.current]? =
        some (scope.insert name (.bool true)) := by
      simp [shadowed, Array.getElem?_modify, Ne.symm hroot, hscope]
    refine lookup_of_current htop ?_
    simp [Scope.insert, hroot]

theorem evaluate_variable (ctx : Context) (fuel : Nat) {value : Value}
    (h : m.env.lookup name = .ok (some value)) :
    evaluate ctx (fuel + 1) (.variable name) m = .ok (.ok value, m) := by
  have hinspect := inspect_apply (·.lookup name) m
  rw [h] at hinspect
  show (inspect (·.lookup name) >>= require _) m = _
  rw [bind_apply_of_ok hinspect]
  rfl

theorem initialValue_shadowing (hwf : settings.seed.WellFormed)
    (hfind : settings.seed.find name = .ok none) :
    settings.initialValue 2 .empty (shadowing name) ⟨name, .variable name⟩ =
      .ok (.ok (.bool (decide (settings.seed.current ≠ root)))) := by
  have hreached := setGlobals_shadowing hwf hfind ⟨.empty, settings.scoping⟩
    (.empty settings.callLimit)
  have hvalue := evaluate_variable (m := ⟨shadowed settings.seed name, .empty settings.callLimit⟩)
    ⟨.empty, settings.scoping⟩ 1 (lookup_shadowed hwf name)
  rw [initialValue_of_reached hreached]
  exact congrArg (Except.map Prod.fst) hvalue

/-! ### The names of earlier globals -/

/-- Globals get their values in the scope that was current, no scope loses a name, and the root has
the names of the globals. -/
theorem binds_of_setGlobals {ctx : Context} {gs : List GlobalDecl} (hwf : m.env.WellFormed)
    (h : gs.forM (setGlobal ctx fuel) m = .ok (.ok (), m')) :
    SameShape m.env m'.env ∧ (∀ id name, m.env.Binds id name → m'.env.Binds id name) ∧
      ∀ g ∈ gs, m'.env.Binds root g.name := by
  induction gs generalizing m with
  | nil =>
    obtain ⟨-, rfl⟩ := Prod.mk.inj (Except.ok.inj h)
    exact ⟨SameShape.refl _, fun _ _ hbinds => hbinds, List.forall_mem_nil _⟩
  | cons g gs ih =>
    rcases bind_eq_ok_iff.1 h with ⟨_, m₁, hfirst, hrest⟩ | ⟨_, he, -⟩
    · obtain ⟨value, m₂, hvalue, hbind, hshape⟩ := bindAt_of_setGlobal hwf hfirst
      obtain ⟨-, -, -, hgrows⟩ := (keeps_naming_evaluate ctx fuel _ m hwf).2 _ _ hvalue
      obtain ⟨hshape', hgrows', hglobals⟩ := ih (hshape.wellFormed hwf) hrest
      refine ⟨hshape.trans hshape', fun id name hbinds => ?_, ?_⟩
      · exact hgrows' id name ((binds_bindAt hbind id name).2 (.inl (hgrows id name hbinds)))
      · refine List.forall_mem_cons.2 ⟨hgrows' root g.name ?_, hglobals⟩
        exact (binds_bindAt hbind root g.name).2 (.inr ⟨rfl, rfl⟩)
    · cases he

/-- Without fuel no global gets a value. -/
theorem fuel_pos_of_setGlobals {ctx : Context} {gs : List GlobalDecl} (hg : g ∈ gs)
    (h : gs.forM (setGlobal ctx fuel) m = .ok (.ok (), m')) : ∃ n, fuel = n + 1 := by
  cases fuel with
  | succ n => exact ⟨n, rfl⟩
  | zero =>
    cases gs with
    | nil => cases hg
    | cons first gs =>
      have hout : evaluate ctx 0 first.initializer m = .error .outOfFuel := rfl
      rw [forM_setGlobal_cons, bind_apply_of_interrupt hout] at h
      cases h

/-- With the root as the current scope, the name of an earlier global stands for what the root
has. -/
theorem initialValue_variable (hwf : settings.seed.WellFormed)
    (hroot : settings.seed.current = root)
    (hreached : before.forM (setGlobal ⟨functions, settings.scoping⟩ fuel) settings.machine =
      .ok (.ok (), m))
    (hname : name ∈ before.map GlobalDecl.name) (hg : g.initializer = .variable name) :
    ∃ present value, m.env.globals? = some present ∧ present[name]? = some value ∧
      settings.initialValue fuel functions before g = .ok (.ok value) := by
  obtain ⟨earlier, hearlier, rfl⟩ := List.mem_map.1 hname
  obtain ⟨n, rfl⟩ := fuel_pos_of_setGlobals hearlier hreached
  obtain ⟨hshape, -, hbinds⟩ := binds_of_setGlobals hwf hreached
  obtain ⟨scope, hscope, hmem⟩ := hbinds earlier hearlier
  obtain ⟨value, hvalue⟩ := Option.isSome_iff_exists.1
    (Std.ExtTreeMap.mem_iff_isSome_getElem?.1 hmem)
  have hcurrent : m.env.current = root := hshape.current.trans hroot
  have hlookup : m.env.lookup earlier.name = .ok (some value) :=
    lookup_of_current (by rw [hcurrent]; exact hscope) hvalue
  refine ⟨scope.bindings, value, ?_, hvalue, ?_⟩
  · rw [globals?, hscope]
    rfl
  · rw [initialValue_of_reached hreached, hg, evaluate_variable _ _ hlookup]
    rfl

end Settings

/-- Every initializer is evaluated in the scope that is current in the seed. For all programs, the
initializers yield what they yield with the root scope alone, exactly if that scope is the root.
Then an initializer that is the name of an earlier global yields the value that the root has for it.
What an initializer yields decides how a run of the program goes on: with an interrupt or an error
the run ends, and with a value it goes on by giving that value to the global. -/
theorem Settings.initialValue_root_iff (settings : Settings) (globals : Bindings)
    (hwf : settings.seed.WellFormed) (hglobals : settings.seed.globals? = some globals) :
    (settings.seed.current = root ↔
      ∀ (p : Program) (functions : FunctionTable) (before : List GlobalDecl) (g : GlobalDecl)
        (after : List GlobalDecl) (fuel : Nat),
        FunctionTable.ofProgram p = .ok functions → p.globals = before ++ g :: after →
          settings.initialValue fuel functions before g =
            (settings.rootOnly globals).initialValue fuel functions before g) ∧
    (∀ (p : Program) (functions : FunctionTable) (before : List GlobalDecl) (g : GlobalDecl)
      (after : List GlobalDecl) (fuel : Nat) (m : Machine),
      FunctionTable.ofProgram p = .ok functions → p.globals = before ++ g :: after →
      before.forM (setGlobal ⟨functions, settings.scoping⟩ fuel) settings.machine =
        .ok (.ok (), m) →
      m.env.current = settings.seed.current ∧
        (settings.seed.current = root → ∀ name ∈ before.map GlobalDecl.name,
          g.initializer = .variable name →
            ∃ present value, m.env.globals? = some present ∧ present[name]? = some value ∧
              settings.initialValue fuel functions before g = .ok (.ok value))) ∧
    ∀ (p : Program) (functions : FunctionTable) (before : List GlobalDecl) (g : GlobalDecl)
      (after : List GlobalDecl) (fuel : Nat) (m : Machine),
      FunctionTable.ofProgram p = .ok functions → p.globals = before ++ g :: after →
      (∀ interrupt, settings.initialValue fuel functions before g = .error interrupt →
        Interpreter.run ⟨settings, m⟩ fuel p = .error interrupt) ∧
      (∀ e, settings.initialValue fuel functions before g = .ok (.error e) →
        ∃ i', Interpreter.run ⟨settings, m⟩ fuel p = .ok (.error e, i')) ∧
      ∀ value, settings.initialValue fuel functions before g = .ok (.ok value) →
        ∃ m', initializerAfter ⟨functions, settings.scoping⟩ fuel before g settings.machine =
            .ok (.ok value, m') ∧
          Interpreter.run ⟨settings, m⟩ fuel p = Interpreter.perform ⟨settings, m'⟩
            (resume ⟨functions, settings.scoping⟩ fuel g after value) := by
  refine ⟨⟨fun hroot p functions before g after fuel _ _ =>
    initialValue_eq_rootOnly hwf hglobals hroot fuel functions before g, fun hsame => ?_⟩,
    fun p functions before g after fuel m _ _ hreached => ?_,
    fun p functions before g after fuel m hfunctions hp =>
      Interpreter.run_of_initialValue hfunctions hp fuel m⟩
  · -- A name that is bound nowhere tells the current scope from the root.
    obtain ⟨name, hname⟩ := exists_not_binds settings.seed
    have hname' (id : ScopeId) : ¬ (ofRoot globals).Binds id name := by
      intro hbinds
      obtain ⟨-, hmem⟩ := binds_ofRoot_iff.1 hbinds
      exact hname root ⟨_, scope_root_of_globals? hwf hglobals, hmem⟩
    have hseed := initialValue_shadowing hwf (find_eq_none hwf hname)
    have hwf' : (settings.rootOnly globals).seed.WellFormed := wellFormed_ofRoot globals
    have hrootOnly := initialValue_shadowing hwf' (find_eq_none hwf' hname')
    let p : Program :=
      ⟨[.global ⟨name, .assign name (.boolean true)⟩, .global ⟨name, .boolean false⟩,
        .global ⟨name, .variable name⟩]⟩
    rw [hsame p .empty (shadowing name) ⟨name, .variable name⟩ [] 2 rfl rfl, hrootOnly] at hseed
    have hflags := Value.bool.inj (Except.ok.inj (Except.ok.inj hseed))
    by_contra hne
    rw [decide_eq_true hne] at hflags
    exact of_decide_eq_true hflags rfl
  · obtain ⟨hshape, -, -⟩ := binds_of_setGlobals hwf hreached
    exact ⟨hshape.current, fun hroot name hname hg =>
      initialValue_variable hwf hroot hreached hname hg⟩

/-- Above the root lies a scope with a variable of the same name as a global. From the root an
initializer reads the global, and from that scope the variable. -/
theorem initialValue_root_iff_same_name :
    ∃ (p : Program) (before : List GlobalDecl) (g : GlobalDecl) (scopes : Array Scope),
      p.globals = before ++ [g] ∧ Environment.WellFormed ⟨root, scopes⟩ ∧
      Settings.initialValue ⟨.dynamic, none, ⟨root, scopes⟩⟩ 2 .empty before g =
        .ok (.ok (.int 1)) ∧
      Settings.initialValue ⟨.dynamic, none, ⟨1, scopes⟩⟩ 2 .empty before g =
        .ok (.ok (.int 2)) := by
  let before : List GlobalDecl := [⟨"x", .integer 1⟩]
  let p : Program := ⟨[.global ⟨"x", .integer 1⟩, .global ⟨"y", .variable "x"⟩]⟩
  let inner : Bindings := (∅ : Bindings).insert "x" (.int 2)
  let scopes : Array Scope := #[⟨∅, none⟩, ⟨inner, some root⟩]
  have hparent := (wellFormed_push (wellFormed_ofRoot ∅) inner Nat.zero_lt_one).parent_lt
  have hwf : Environment.WellFormed ⟨root, scopes⟩ := ⟨Nat.zero_lt_two, hparent⟩
  have hroot := (Settings.initialValue_root_iff ⟨.dynamic, none, ⟨root, scopes⟩⟩ ∅ hwf rfl).1.1 rfl
  refine ⟨p, before, ⟨"y", .variable "x"⟩, scopes, rfl, hwf, ?_, rfl⟩
  exact (hroot p .empty before ⟨"y", .variable "x"⟩ [] 2 rfl rfl).trans rfl

end Scriptlet
