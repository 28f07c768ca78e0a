import Scriptlet.Proofs.Evaluation.Assignments
import Scriptlet.Value.Order

/-!
# What evaluation leaves alone

Evaluation changes values by assignments only. A call binds its parameters as well, but in a scope
of its own that is taken off at the end, so that a call changes no value that its body leaves alone
(`allows_sparing_inCall`).

Two statements follow. An expression leads to the bodies of the functions that it calls, of those
that are called in these, and so on. Evaluation of it changes the values of no names but those that
are assigned somewhere on the way (`evaluate_changes_assigned_only`). And under dynamic scoping a
parameter shields the variables of its name in the scopes of the callers
(`callFunction_shields_parameters`): as long as the call is active, the way outward meets the scope
of the call before any that was there, so no assignment to the name gets past it (`Shielded`).
-/

namespace Scriptlet

namespace FunctionTable

/-- The second expression is the first, or the body of a function that is called in it, and so
on. -/
def LeadsTo (functions : FunctionTable) : Expr → Expr → Prop :=
  Relation.ReflTransGen fun e body =>
    ∃ name f, e.CallsFunction name ∧ functions.get? name = some f ∧ f.body = body

/-- The variable is assigned in the expression, or in the body of a function that it leads to. -/
def MayAssign (functions : FunctionTable) (e : Expr) (name : String) : Prop :=
  ∃ body, functions.LeadsTo e body ∧ body.Assigns name

variable {functions : FunctionTable} {e part : Expr} {name x : String} {f : FunctionDecl}

theorem MayAssign.of_child (hpart : part ∈ e.children) (h : functions.MayAssign part name) :
    functions.MayAssign e name := by
  obtain ⟨body, hleads, hassigns⟩ := h
  rcases Relation.ReflTransGen.cases_head hleads with
    rfl | ⟨body', ⟨g, f, hcalls, hf, hbody⟩, hrest⟩
  · exact ⟨e, .refl, hassigns.of_child hpart⟩
  · exact ⟨body, .head ⟨g, f, hcalls.of_child hpart, hf, hbody⟩ hrest, hassigns⟩

theorem MayAssign.of_body (hname : e.callee? = some name) (hf : functions.get? name = some f)
    (h : functions.MayAssign f.body x) : functions.MayAssign e x := by
  obtain ⟨body, hleads, hassigns⟩ := h
  exact ⟨body, .head ⟨name, f, ⟨e, .refl, hname⟩, hf, rfl⟩ hleads, hassigns⟩

theorem mayAssign_assign (functions : FunctionTable) (name : String) (e : Expr) :
    functions.MayAssign (.assign name e) name :=
  ⟨_, .refl, e, .refl⟩

/-- What may be assigned is assigned in the expression or in some function. -/
theorem MayAssign.assigns_or (h : functions.MayAssign e name) :
    e.Assigns name ∨ ∃ g f, functions.get? g = some f ∧ f.body.Assigns name := by
  obtain ⟨body, hleads, hassigns⟩ := h
  rcases Relation.ReflTransGen.cases_tail hleads with rfl | ⟨_, _, g, f, -, hf, rfl⟩
  · exact .inl hassigns
  · exact .inr ⟨g, f, hf, hassigns⟩

end FunctionTable

namespace Environment

variable {env env' : Environment} {id base : ScopeId} {name x : String} {value : Value}

/-! ### Calls and the scopes below them -/

theorem valueAt?_enterCall (scoping : Scoping) (parameters : List (String × Value))
    (hid : id < env.scopes.size) :
    (env.enterCall scoping parameters).valueAt? id name = env.valueAt? id name := by
  unfold valueAt?
  rw [getElem?_enterCall scoping parameters hid]

theorem valueAt?_leave {mark : Mark} (h : env.leave mark = .ok env') (hid : id < mark.size) :
    env'.valueAt? id name = env.valueAt? id name := by
  unfold valueAt?
  rw [getElem?_leave h hid]

theorem valueAt?_of_size_le (h : env.scopes.size ≤ id) : env.valueAt? id name = none := by
  unfold valueAt?
  rw [Array.getElem?_eq_none h]
  rfl

/-- In a call under dynamic scoping a name is found in the scope of the call if it is a parameter,
and otherwise where the caller finds it. -/
theorem find_enterCall_dynamic (hwf : env.WellFormed) (parameters : List (String × Value))
    (name : String) : (env.enterCall .dynamic parameters).find name =
      if name ∈ parameters.map Prod.fst then .ok (some env.scopes.size) else env.find name := by
  have htop : (env.enterCall .dynamic parameters).Binds env.scopes.size name ↔
      name ∈ parameters.map Prod.fst := binds_enterCall_top .dynamic parameters
  by_cases hparameter : name ∈ parameters.map Prod.fst
  · rw [if_pos hparameter]
    exact find_of_binds_current (htop.2 hparameter)
  · -- The scope on top does not bind the name, so the search goes on where the caller begins it.
    rw [if_neg hparameter]
    have hsize : (env.enterCall .dynamic parameters).scopes.size = env.scopes.size + 1 :=
      Array.size_push _
    obtain ⟨frame, hscope⟩ : ∃ frame, (env.enterCall .dynamic parameters).scopes[env.scopes.size]? =
        some ⟨frame, some env.current⟩ := ⟨_, Array.getElem?_push_size⟩
    have hunbound : ¬ frame.contains name = true := fun h => hparameter (htop.1 ⟨_, hscope, h⟩)
    have hbelow : findFrom (env.enterCall .dynamic parameters).scopes name (env.scopes.size + 1)
        env.current = env.find name := by
      refine findFrom_eq_of_agree hwf (fun i hi => ?_)
        (fun i hi => binds_enterCall .dynamic parameters hi) _ hwf.current_lt
      rw [getElem?_parents, getElem?_parents, getElem?_enterCall .dynamic parameters hi]
    unfold find
    rw [hsize, show (env.enterCall .dynamic parameters).current = env.scopes.size from rfl,
      findFrom, hscope]
    dsimp only
    rw [if_neg hunbound]
    exact hbelow

/-! ### Shields -/

/-- The name is found in no scope below the given place: whatever is bound there is out of its
reach. -/
def Shielded (env : Environment) (name : String) (base : ScopeId) : Prop :=
  ∃ owner, env.find name = .ok (some owner) ∧ base ≤ owner

namespace Shielded

theorem le_of_receives (h : env.Shielded name base) (hid : env.Receives name id) : base ≤ id := by
  obtain ⟨owner, howner, hle⟩ := h
  obtain ⟨found, hfound, rfl⟩ := hid
  obtain rfl := Except.ok.inj (hfound.symm.trans howner)
  exact hle

/-- An assignment to the name stays in the scope where it is found, and one to another name does not
matter for it. -/
theorem assign (h : env.Shielded name base) (hwf : env.WellFormed)
    (hassign : env.assign x value = .ok env') : env'.Shielded name base := by
  obtain ⟨id, hid, -⟩ := hwf.exists_receives x
  rw [hid.assign_eq] at hassign
  by_cases hx : name = x
  · subst hx
    exact ⟨id, hid.find_bindAt hwf hassign, h.le_of_receives hid⟩
  · obtain ⟨owner, howner, hle⟩ := h
    exact ⟨owner, (find_bindAt_of_ne hwf hassign hx).trans howner, hle⟩

theorem enterCall (h : env.Shielded name base) (hwf : env.WellFormed)
    (parameters : List (String × Value)) :
    (env.enterCall .dynamic parameters).Shielded name base := by
  obtain ⟨owner, howner, hle⟩ := h
  unfold Shielded
  rw [find_enterCall_dynamic hwf, howner]
  split
  · have hlt : owner < env.scopes.size := lt_size_of_binds (binds_of_findFrom howner)
    exact ⟨env.scopes.size, rfl, Nat.le_of_lt (Nat.lt_of_le_of_lt hle hlt)⟩
  · exact ⟨owner, rfl, hle⟩

theorem of_sameNames (h : env.Shielded name base) (hwf : env.WellFormed)
    (hshape : SameShape env env') (hnames : ∀ id, SameNames env env' id) :
    env'.Shielded name base := by
  obtain ⟨owner, howner, hle⟩ := h
  exact ⟨owner, (find_eq_of_binds_iff hwf hshape fun id => hnames id name).trans howner, hle⟩

end Shielded

end Environment

namespace Eval

open Environment

variable {m m' : Machine} {name : String} {value : Value}

/-- Scopes and calls are restored, and the spared values are what they were. -/
def sparing (spared : ScopeId → String → Prop) : Discipline where
  valid m := m.env.WellFormed
  allows m m' := restoring.allows m m' ∧
    ∀ id name, spared id name → m'.env.valueAt? id name = m.env.valueAt? id name
  refl m := ⟨restoring.refl m, fun _ _ _ => rfl⟩
  trans h h' := ⟨restoring.trans h.1 h'.1,
    fun id name hspared => (h'.2 id name hspared).trans (h.2 id name hspared)⟩

/-- The name is out of reach below the given place, and its values there are what they were. -/
def shielding (name : String) (base : ScopeId) : Discipline where
  valid m := m.env.WellFormed ∧ m.env.Shielded name base
  allows := (sparing fun id x => id < base ∧ x = name).allows
  refl := (sparing _).refl
  trans := (sparing _).trans

variable {spared : ScopeId → String → Prop}

/-! ### Single steps -/

/-- An assignment changes the one value where the name goes to. -/
theorem allows_sparing_assign {r : Except EvalError Unit} (hwf : m.env.WellFormed)
    (hspared : ∀ id, m.env.Receives name id → ¬ spared id name)
    (h : update (·.assign name value) m = .ok (r, m')) : (sparing spared).allows m m' := by
  obtain ⟨-, hrestores⟩ := (keeps_assign name value m hwf).2 r m' h
  obtain ⟨hassign, -⟩ := env_of_update h
  obtain ⟨id, hid, -⟩ := hwf.exists_receives name
  rw [hid.assign_eq] at hassign
  refine ⟨hrestores, fun other x hx => ?_⟩
  rw [valueAt?_bindAt hassign, if_neg]
  rintro ⟨rfl, rfl⟩
  exact hspared other hid hx

/-- A call changes no value that its body leaves alone: the parameters are bound in a scope that is
taken off at the end. -/
theorem allows_sparing_inCall {scoping : Scoping} {parameters : List (String × Value)}
    {body : Eval Value} {r : Except EvalError Value} {env : Environment} {calls : CallStack}
    (hwf : env.WellFormed) (hbody : Keeps restoring body)
    (hspared : ∀ inner result after,
      body ⟨env.enterCall scoping parameters, inner⟩ = .ok (result, after) →
        (sparing spared).allows ⟨env.enterCall scoping parameters, inner⟩ after)
    (h : inCall scoping name parameters body ⟨env, calls⟩ = .ok (r, m')) :
    (sparing spared).allows ⟨env, calls⟩ m' := by
  obtain ⟨-, hshape, hcalls⟩ :=
    (keeps_inCall scoping name parameters body hbody ⟨env, calls⟩ hwf).2 r m' h
  refine ⟨⟨hshape, hcalls⟩, fun id x hx => ?_⟩
  by_cases hid : id < env.scopes.size
  · rcases leave_of_inCall h with rfl | ⟨inner, result, after, hafter, hleft⟩
    · rfl
    · calc m'.env.valueAt? id x
          = after.env.valueAt? id x := valueAt?_leave hleft hid
        _ = (env.enterCall scoping parameters).valueAt? id x :=
            (hspared inner result after hafter).2 id x hx
        _ = env.valueAt? id x := valueAt?_enterCall scoping parameters hid
  · -- There are as many scopes after the call as before, so none has a value here.
    rw [Nat.not_lt] at hid
    rw [valueAt?_of_size_le (hshape.size ▸ hid), valueAt?_of_size_le hid]

/-! ### Evaluation -/

/-- Evaluation spares the names that are assigned nowhere on the way. -/
theorem keeps_sparing_evaluate (ctx : Context) (fuel : Nat) (e : Expr) :
    Keeps (sparing fun _ name => ¬ ctx.functions.MayAssign e name) (evaluate ctx fuel e) := by
  -- What is spared stays fixed when the evaluation goes to parts and bodies, which may assign less.
  refine keeps_evaluate_of_fits
    (fun d => ∀ name, ctx.functions.MayAssign d name → ctx.functions.MayAssign e name)
    ?_ ?_ ?_ ?_ fuel e (fun _ h => h)
  · exact fun d hd part hpart name hname => hd name (hname.of_child hpart)
  · exact fun name _ => keeps_lookup (fun _ hm => hm) name
  · intro name d value hd m hm
    obtain ⟨hfault, hend⟩ := keeps_assign name value m hm
    refine ⟨hfault, fun r m' hrun => ⟨(hend r m' hrun).1, allows_sparing_assign hm ?_ hrun⟩⟩
    intro id hid hspared
    exact hspared (hd name (FunctionTable.mayAssign_assign _ name d))
  · intro d fuel name f arguments hd hname hf hbody
    have hkeeps := hbody fun x hx => hd x (hx.of_body hname hf)
    have hrestores := keeps_restoring_evaluate ctx fuel f.body
    rintro ⟨env, calls⟩ hwf
    obtain ⟨hfault, hend⟩ :=
      keeps_inCall ctx.scoping f.name (f.parameters.zip arguments) _ hrestores
      ⟨env, calls⟩ hwf
    refine ⟨hfault, fun r m' hrun =>
      ⟨(hend r m' hrun).1, allows_sparing_inCall hwf hrestores ?_ hrun⟩⟩
    intro inner result after hafter
    exact ((hkeeps ⟨_, inner⟩ (wellFormed_enterCall hwf _ _)).2 result after hafter).2

/-- Under dynamic scoping a name that is out of reach below a place stays so. -/
theorem keeps_shielding_evaluate (functions : FunctionTable) (name : String)
    (base : ScopeId) (fuel : Nat) (e : Expr) :
    Keeps (shielding name base) (evaluate ⟨functions, .dynamic⟩ fuel e) := by
  refine keeps_evaluate_of_fits (fun _ => True) ?_ ?_ ?_ ?_ fuel e trivial
  · exact fun _ _ _ _ => trivial
  · exact fun x _ => keeps_lookup (d := shielding name base) (fun _ hm => hm.1) x
  · intro x d value _ m hm
    obtain ⟨hwf, hshielded⟩ := hm
    obtain ⟨hfault, hend⟩ := keeps_assign x value m hwf
    refine ⟨hfault, fun r m' hrun => ⟨⟨(hend r m' hrun).1, ?_⟩, allows_sparing_assign hwf ?_ hrun⟩⟩
    · exact hshielded.assign hwf (env_of_update hrun).1
    · rintro id hid ⟨hlt, rfl⟩
      exact Nat.not_lt.2 (hshielded.le_of_receives hid) hlt
  · intro d fuel _ f arguments _ _ _ hbody
    have hkeeps := hbody trivial
    have hrestores := keeps_restoring_evaluate ⟨functions, .dynamic⟩ fuel f.body
    have hfrozen := keeps_frozen_inCall .dynamic f.name (f.parameters.zip arguments)
      (keeps_naming_evaluate ⟨functions, .dynamic⟩ fuel f.body)
    rintro ⟨env, calls⟩ ⟨hwf, hshielded⟩
    obtain ⟨hfault, hend⟩ := hfrozen ⟨env, calls⟩ hwf
    refine ⟨hfault, fun r m' hrun => ?_⟩
    obtain ⟨hwf', ⟨hshape, -⟩, hnames⟩ := hend r m' hrun
    refine ⟨⟨hwf', hshielded.of_sameNames hwf hshape hnames⟩,
      allows_sparing_inCall hwf hrestores ?_ hrun⟩
    intro inner result after hafter
    have hinside := hshielded.enterCall hwf (f.parameters.zip arguments)
    exact ((hkeeps ⟨_, inner⟩ ⟨wellFormed_enterCall hwf _ _, hinside⟩).2 result after hafter).2

/-- Under dynamic scoping a parameter shields the variables of its name that are there when the
function is called. However the call ends, and whatever is assigned in it and in the calls inside
it, each scope has afterwards the value for the name that it had, or none as before. -/
theorem callFunction_shields_parameters (functions : FunctionTable) (fuel : Nat) (f : FunctionDecl)
    (values : List Value) (m : Machine) (hwf : m.env.WellFormed) (name : String)
    (hname : name ∈ f.parameters) :
    (∀ fault, callFunction .dynamic (evaluate ⟨functions, .dynamic⟩ fuel) f values m ≠
      .error (.fault fault)) ∧
    ∀ r m', callFunction .dynamic (evaluate ⟨functions, .dynamic⟩ fuel) f values m = .ok (r, m') →
      m'.env.depth = m.env.depth ∧ ∀ id, m'.env.valueAt? id name = m.env.valueAt? id name := by
  obtain ⟨hfault, hend⟩ := keeps_frozen_callFunction ⟨functions, .dynamic⟩ fuel f values m hwf
  refine ⟨hfault, fun r m' hrun => ?_⟩
  obtain ⟨-, ⟨hshape, -⟩, -⟩ := hend r m' hrun
  refine ⟨hshape.size, fun id => ?_⟩
  by_cases hid : id < m.env.scopes.size
  · rw [callFunction_eq] at hrun
    split at hrun
    · rename_i hlength
      have hparameter : name ∈ (f.parameters.zip values).map Prod.fst := by
        rw [List.map_fst_zip (Nat.le_of_eq hlength.symm)]
        exact hname
      -- The call begins with the name bound on top, above all scopes that are there.
      have hinside : (m.env.enterCall .dynamic (f.parameters.zip values)).Shielded name
          m.env.scopes.size :=
        ⟨m.env.scopes.size, by rw [find_enterCall_dynamic hwf, if_pos hparameter], Nat.le_refl _⟩
      have hallows : (sparing fun id x => id < m.env.scopes.size ∧ x = name).allows m m' := by
        refine allows_sparing_inCall hwf (keeps_restoring_evaluate _ fuel f.body) ?_ hrun
        intro inner result after hafter
        have hkeeps := keeps_shielding_evaluate functions name m.env.scopes.size fuel f.body
        exact ((hkeeps ⟨_, inner⟩ ⟨wellFormed_enterCall hwf _ _, hinside⟩).2 result after hafter).2
      exact hallows.2 id name ⟨hid, rfl⟩
    · obtain ⟨-, rfl⟩ := Prod.mk.inj (Except.ok.inj hrun)
      rfl
  · rw [Nat.not_lt] at hid
    rw [valueAt?_of_size_le (hshape.size ▸ hid), valueAt?_of_size_le hid]

/-- The function assigns its parameter and calls another, which assigns it again and then fails. The
caller and the root have variables of the name. -/
theorem callFunction_shields_parameters_nested :
    ∃ (f g : FunctionDecl) (functions : FunctionTable) (m m' : Machine), m.env.WellFormed ∧
      functions.get? "g" = some g ∧ g.body.Assigns "p" ∧ "p" ∈ f.parameters ∧
      callFunction .dynamic (evaluate ⟨functions, .dynamic⟩ 9) f [.unit] m =
        .ok (.error ⟨.unboundIdentifier "z", ["g", "f"]⟩, m') ∧
      m'.env.valueAt? 0 "p" = some (.bool false) ∧ m'.env.valueAt? 1 "p" = some (.bool true) := by
  let f : FunctionDecl := ⟨"f", ["p"], .block [.assign "p" (.array []), .call "g" []]⟩
  let g : FunctionDecl := ⟨"g", [], .block [.assign "p" (.array []), .variable "z"]⟩
  let functions : FunctionTable := ⟨(∅ : Std.ExtTreeMap String FunctionDecl).insert "g" g⟩
  let globals : Bindings := (∅ : Bindings).insert "p" (.bool false)
  let locals : Bindings := (∅ : Bindings).insert "p" (.bool true)
  let m : Machine := ⟨⟨1, #[⟨globals, none⟩, ⟨locals, some 0⟩]⟩, .empty none⟩
  have hwf : m.env.WellFormed := wellFormed_push (wellFormed_ofRoot globals) locals Nat.zero_lt_one
  have hresult :
      (callFunction .dynamic (evaluate ⟨functions, .dynamic⟩ 9) f [.unit] m).map Prod.fst =
      .ok (.error ⟨.unboundIdentifier "z", ["g", "f"]⟩) := by decide +kernel
  obtain ⟨m', hcall⟩ := exists_of_map_fst hresult
  have hp : "p" ∈ f.parameters := List.mem_singleton_self "p"
  obtain ⟨-, hend⟩ := callFunction_shields_parameters functions 9 f [.unit] m hwf "p" hp
  obtain ⟨-, hvalues⟩ := hend _ m' hcall
  have hassigns : g.body.Assigns "p" := ⟨.array [], .single List.mem_cons_self⟩
  exact ⟨f, g, functions, m, m', hwf, rfl, hassigns, hp, hcall, (hvalues 0).trans rfl,
    (hvalues 1).trans rfl⟩

end Eval

open Eval in
/-- Evaluation changes no names but those that are assigned in the expression or in the body of a
function that it leads to. However it ends and whatever the scoping is, each scope has afterwards
the value that it had for every other name, or none as before. -/
theorem Interpreter.evaluate_changes_assigned_only (i : Interpreter) (fuel : Nat)
    (functions : FunctionTable) (e : Expr) (hwf : i.machine.env.WellFormed) :
    (∀ fault, i.evaluate fuel functions e ≠ .error (.fault fault)) ∧
      ∀ result i', i.evaluate fuel functions e = .ok (result, i') →
        i'.machine.env.depth = i.machine.env.depth ∧
        ∀ name, ¬ functions.MayAssign e name →
          ∀ id, i'.machine.env.valueAt? id name = i.machine.env.valueAt? id name := by
  have hkeeps := keeps_sparing_evaluate ⟨functions, i.settings.scoping⟩ fuel e
  obtain ⟨hfault, hend⟩ := hkeeps.perform hwf
  refine ⟨hfault, fun result i' hrun => ?_⟩
  obtain ⟨-, ⟨hshape, -⟩, hvalues⟩ := hend result i' hrun
  exact ⟨hshape.size, fun name hname id => hvalues id name hname⟩

/-- A function without end sets a global and calls itself up to the limit. The caller has a variable
with the name of the parameter, which is bound in each call and assigned in none. -/
theorem Interpreter.evaluate_changes_assigned_only_recursive :
    ∃ (i i' : Interpreter) (f : FunctionDecl) (functions : FunctionTable) (e : Expr),
      i.machine.env.WellFormed ∧ functions.get? "f" = some f ∧ f.parameters = ["y"] ∧
      i.evaluate 9 functions e = .ok (.error ⟨.stackExhausted 2, ["f", "f"]⟩, i') ∧
      functions.MayAssign e "x" ∧ i'.machine.env.valueAt? 0 "x" = some (.bool true) ∧
      ¬ functions.MayAssign e "y" ∧ i'.machine.env.valueAt? 1 "y" = some .unit ∧
      i'.machine.env.valueAt? 0 "y" = none := by
  let f : FunctionDecl := ⟨"f", ["y"],
    .block [.assign "x" (.variable "z"), .call "f" [.variable "x"]]⟩
  let e : Expr := .call "f" [.variable "z"]
  let functions : FunctionTable := ⟨(∅ : Std.ExtTreeMap String FunctionDecl).insert "f" f⟩
  let globals : Bindings := ((∅ : Bindings).insert "x" (.bool false)).insert "z" (.bool true)
  let locals : Bindings := (∅ : Bindings).insert "y" .unit
  let env : Environment := ⟨1, #[⟨globals, none⟩, ⟨locals, some 0⟩]⟩
  let i : Interpreter := .ofSettings ⟨.dynamic, some 2, env⟩
  have hwf : env.WellFormed :=
    Environment.wellFormed_push (Environment.wellFormed_ofRoot globals) locals Nat.zero_lt_one
  have hx : functions.MayAssign e "x" :=
    ⟨f.body, .single ⟨"f", f, ⟨e, .refl, rfl⟩, rfl, rfl⟩, .variable "z", .single List.mem_cons_self⟩
  have hy : ¬ functions.MayAssign e "y" := by
    intro h
    rcases h.assigns_or with h | ⟨g, f', hf, h⟩
    · have := h.mentions
      simp [e] at this
    · obtain ⟨-, rfl⟩ : "f" = g ∧ f = f' := by
        simpa [functions, FunctionTable.get?, Std.ExtTreeMap.getElem?_insert] using hf
      have := h.mentions
      simp [f] at this
  have hresult : (i.evaluate 9 functions e).map Prod.fst =
      .ok (.error ⟨.stackExhausted 2, ["f", "f"]⟩) := by decide +kernel
  have hset : (i.evaluate 9 functions e).map (·.2.machine.env.valueAt? 0 "x") =
      .ok (some (.bool true)) := by decide +kernel
  obtain ⟨i', hrun⟩ := Eval.exists_of_map_fst hresult
  rw [hrun] at hset
  obtain ⟨-, hend⟩ := i.evaluate_changes_assigned_only 9 functions e hwf
  obtain ⟨-, hvalues⟩ := hend _ i' hrun
  exact ⟨i, i', f, functions, e, hwf, rfl, rfl, hrun, hx, Except.ok.inj hset, hy,
    (hvalues "y" hy 1).trans rfl, (hvalues "y" hy 0).trans rfl⟩

end Scriptlet
