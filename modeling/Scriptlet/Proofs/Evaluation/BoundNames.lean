import Scriptlet.Proofs.Evaluation.Restoration
import Scriptlet.Proofs.Language.WellFormed

/-!
# The names that scopes bind

An assignment goes to the first scope outward that binds the name, and only a name that none binds
is added, to the current scope. So evaluation adds names to the current scope at most and takes none
away (`naming`). During a call the current scope is the one on top, which is taken off at the end.
Hence a call, however it ends, leaves every scope that was there with the names that it had
(`keeps_frozen_inCall`), under either scoping and with any calls inside it.

Expressions of the grammar have no assignment in them, only calls, so they add no name at all
(`keeps_frozen_of_isExpression`). Main statement: a program that was read from a text leaves the
root scope with the names of its globals and those that the root had before, and every other scope
with the names that it had (`calls_keep_bound_names`).
-/

namespace Scriptlet

namespace Environment

variable {env env' : Environment} {id : ScopeId} {name : String} {value : Value}

/-- The scope is there and binds the name. -/
def Binds (env : Environment) (id : ScopeId) (name : String) : Prop :=
  ∃ scope, env.scopes[id]? = some scope ∧ name ∈ scope.bindings

theorem binds_ofRoot_iff {bindings : Bindings} {id : ScopeId} {name : String} :
    (ofRoot bindings).Binds id name ↔ id = root ∧ name ∈ bindings := by
  cases id with
  | zero => simp [Binds, ofRoot, root]
  | succ id => simp [Binds, ofRoot, root]

/-- The scope binds the same names in both environments. -/
def SameNames (env env' : Environment) (id : ScopeId) : Prop :=
  ∀ name, env'.Binds id name ↔ env.Binds id name

theorem SameNames.refl (env : Environment) (id : ScopeId) : SameNames env env id :=
  fun _ => Iff.rfl

theorem SameNames.trans {env'' : Environment} (h : SameNames env env' id)
    (h' : SameNames env' env'' id) : SameNames env env'' id :=
  fun name => (h' name).trans (h name)

theorem lt_size_of_binds (h : env.Binds id name) : id < env.scopes.size := by
  obtain ⟨scope, hscope, -⟩ := h
  exact (Array.getElem?_eq_some_iff.1 hscope).1

/-! ### Binding -/

/-- Binding adds one name to one scope. -/
theorem binds_bindAt (h : env.bindAt id name value = .ok env') (other : ScopeId) (x : String) :
    env'.Binds other x ↔ env.Binds other x ∨ other = id ∧ x = name := by
  unfold bindAt at h
  split at h
  · rename_i hid
    obtain rfl := Except.ok.inj h
    have hscope : env.scopes[id]? = some env.scopes[id] := Array.getElem?_eq_getElem hid
    unfold Binds
    dsimp only
    by_cases hother : other = id
    · subst hother
      rw [Array.getElem?_modify, if_pos rfl, hscope]
      simp [Scope.insert, Std.ExtTreeMap.mem_insert, or_comm, eq_comm (a := x)]
    · rw [Array.getElem?_modify, if_neg (Ne.symm hother)]
      simp [hother]
  · cases h

theorem binds_of_findFrom {steps : Nat} {start : ScopeId}
    (h : findFrom env.scopes name steps start = .ok (some id)) : env.Binds id name := by
  induction steps generalizing start with
  | zero => cases h
  | succ steps ih =>
    unfold findFrom at h
    split at h
    · cases h
    · rename_i scope hscope
      split at h
      · rename_i hbound
        obtain rfl := Option.some.inj (Except.ok.inj h)
        exact ⟨scope, hscope, hbound⟩
      · split at h
        · cases h
        · exact ih h

/-- An assignment is a binding in a scope that has the name already, or in the current one. -/
theorem exists_bindAt_of_assign (h : env.assign name value = .ok env') :
    ∃ owner, env.bindAt owner name value = .ok env' ∧
      (env.Binds owner name ∨ owner = env.current) := by
  unfold assign at h
  match hfind : env.find name with
  | .error fault =>
    rw [hfind] at h
    cases h
  | .ok none =>
    rw [hfind] at h
    exact ⟨env.current, h, .inr rfl⟩
  | .ok (some owner) =>
    rw [hfind] at h
    exact ⟨owner, h, .inl (binds_of_findFrom hfind)⟩

theorem binds_assign (h : env.assign name value = .ok env') {x : String} (hx : env.Binds id x) :
    env'.Binds id x := by
  obtain ⟨owner, hbind, -⟩ := exists_bindAt_of_assign h
  exact (binds_bindAt hbind id x).2 (.inl hx)

/-- Only the current scope can gain a name by an assignment. -/
theorem sameNames_assign (h : env.assign name value = .ok env') (hid : id ≠ env.current) :
    SameNames env env' id := by
  obtain ⟨owner, hbind, howner⟩ := exists_bindAt_of_assign h
  intro x
  rw [binds_bindAt hbind]
  constructor
  · rintro (hbinds | ⟨rfl, rfl⟩)
    · exact hbinds
    · exact howner.resolve_right hid
  · exact .inl

/-! ### Entering and leaving -/

theorem binds_enterCall (scoping : Scoping) (parameters : List (String × Value))
    (hid : id < env.scopes.size) : (env.enterCall scoping parameters).Binds id name ↔
      env.Binds id name := by
  unfold Binds
  rw [getElem?_enterCall scoping parameters hid]

theorem mem_foldl_insert (parameters : List (String × Value)) (frame : Bindings) :
    name ∈ parameters.foldl (fun frame parameter => frame.insert parameter.1 parameter.2) frame ↔
      name ∈ frame ∨ name ∈ parameters.map Prod.fst := by
  induction parameters generalizing frame with
  | nil => simp
  | cons parameter parameters ih =>
    rw [List.foldl_cons, ih]
    simp only [Std.ExtTreeMap.mem_insert, List.map_cons, List.mem_cons,
      Std.LawfulEqCmp.compare_eq_iff_eq, eq_comm (a := name)]
    tauto

/-- The scope of a call binds the parameters and nothing else. -/
theorem binds_enterCall_top (scoping : Scoping) (parameters : List (String × Value)) :
    (env.enterCall scoping parameters).Binds env.scopes.size name ↔
      name ∈ parameters.map Prod.fst := by
  unfold Binds enterCall
  simp [mem_foldl_insert]

theorem binds_leave {mark : Mark} (h : env.leave mark = .ok env') (hid : id < mark.size) :
    env'.Binds id name ↔ env.Binds id name := by
  unfold Binds
  rw [getElem?_leave h hid]

end Environment

namespace Eval

open Environment Scriptlet.Language

variable {α : Type} {ctx : Context} {fuel : Nat} {x : Eval α}

/-- Scopes and calls are restored, no scope loses a name, and none but the current one gains any. -/
def naming : Discipline where
  valid m := m.env.WellFormed
  allows m m' := restoring.allows m m' ∧ (∀ id, id ≠ m.env.current → SameNames m.env m'.env id) ∧
    ∀ id name, m.env.Binds id name → m'.env.Binds id name
  refl m := ⟨restoring.refl m, fun id _ => SameNames.refl m.env id, fun _ _ h => h⟩
  trans h h' := by
    refine ⟨restoring.trans h.1 h'.1, fun id hid => (h.2.1 id hid).trans (h'.2.1 id ?_), ?_⟩
    · rw [h.1.1.current]
      exact hid
    · exact fun id name hbinds => h'.2.2 id name (h.2.2 id name hbinds)

/-- Scopes and calls are restored, and no scope gains or loses a name. -/
def frozen : Discipline where
  valid m := m.env.WellFormed
  allows m m' := restoring.allows m m' ∧ ∀ id, SameNames m.env m'.env id
  refl m := ⟨restoring.refl m, SameNames.refl m.env⟩
  trans h h' := ⟨restoring.trans h.1 h'.1, fun id => (h.2 id).trans (h'.2 id)⟩

/-! ### Steps -/

theorem Keeps.restoring_of_naming (hx : Keeps naming x) : Keeps restoring x := by
  intro m hm
  obtain ⟨hfault, hend⟩ := hx m hm
  exact ⟨hfault, fun r m' hrun => ⟨(hend r m' hrun).1, (hend r m' hrun).2.1⟩⟩

theorem Keeps.naming_of_frozen (hx : Keeps frozen x) : Keeps naming x := by
  intro m hm
  obtain ⟨hfault, hend⟩ := hx m hm
  refine ⟨hfault, fun r m' hrun => ?_⟩
  obtain ⟨hvalid, hrestores, hnames⟩ := hend r m' hrun
  exact ⟨hvalid, hrestores, fun id _ => hnames id, fun id name => (hnames id name).2⟩

theorem keeps_naming_assign (name : String) (value : Value) :
    Keeps naming (update (·.assign name value)) := by
  intro m hm
  obtain ⟨hfault, hend⟩ := keeps_assign name value m hm
  refine ⟨hfault, fun r m' hrun => ?_⟩
  obtain ⟨hvalid, hallows⟩ := hend r m' hrun
  obtain ⟨henv, -⟩ := env_of_update hrun
  exact ⟨hvalid, hallows, fun id => sameNames_assign henv, fun id x => binds_assign henv⟩

/-- A call that ends was refused, or its body has ended and its scope was left. -/
theorem leave_of_inCall {scoping : Scoping} {name : String} {parameters : List (String × Value)}
    {body : Eval Value} {env : Environment} {calls : CallStack} {r : Except EvalError Value}
    {m' : Machine} (h : inCall scoping name parameters body ⟨env, calls⟩ = .ok (r, m')) :
    m' = ⟨env, calls⟩ ∨ ∃ inner result after,
      body ⟨env.enterCall scoping parameters, inner⟩ = .ok (result, after) ∧
      after.env.leave env.mark = .ok m'.env := by
  rw [inCall_apply] at h
  split at h
  · obtain ⟨-, rfl⟩ := Prod.mk.inj (Except.ok.inj h)
    exact .inl rfl
  · rename_i inner hpush
    split at h
    · cases h
    · rename_i result after hbody
      split at h
      · rename_i left outer hleft hpop
        obtain ⟨-, rfl⟩ := Prod.mk.inj (Except.ok.inj h)
        exact .inr ⟨inner, result, after, hbody, hleft⟩
      · cases h
      · cases h

/-- A call leaves all scopes with their names: what its body adds is in the scope on top. -/
theorem keeps_frozen_inCall (scoping : Scoping) (name : String) (parameters : List (String × Value))
    {body : Eval Value} (hbody : Keeps naming body) :
    Keeps frozen (inCall scoping name parameters body) := by
  rintro ⟨env, calls⟩ hwf
  obtain ⟨hfault, hend⟩ :=
    keeps_inCall scoping name parameters body hbody.restoring_of_naming ⟨env, calls⟩ hwf
  refine ⟨hfault, fun r m' hrun => ?_⟩
  obtain ⟨hvalid, hshape, hcalls⟩ := hend r m' hrun
  refine ⟨hvalid, ⟨hshape, hcalls⟩, fun id x => ?_⟩
  by_cases hid : id < env.scopes.size
  · rcases leave_of_inCall hrun with rfl | ⟨inner, result, after, hafter, hleft⟩
    · exact Iff.rfl
    · obtain ⟨-, -, hnames, -⟩ := (hbody ⟨env.enterCall scoping parameters, inner⟩
        (wellFormed_enterCall hwf scoping parameters)).2 _ _ hafter
      -- Inside the call the scope on top is current, so below it no name is new.
      rw [binds_leave hleft hid, hnames id (Nat.ne_of_lt hid) x,
        binds_enterCall scoping parameters hid]
  · -- There are as many scopes after the call as before, so none binds a name here.
    refine iff_of_false (fun h => hid ?_) (fun h => hid (lt_size_of_binds h))
    rw [← hshape.size]
    exact lt_size_of_binds h

theorem keeps_naming_evaluate (ctx : Context) (fuel : Nat) (e : Expr) :
    Keeps naming (evaluate ctx fuel e) :=
  keeps_evaluate (keeps_lookup fun _ hm => hm) keeps_naming_assign
    (fun name parameters _ hbody =>
      (keeps_frozen_inCall ctx.scoping name parameters hbody).naming_of_frozen) fuel e

theorem keeps_frozen_callFunction (ctx : Context) (fuel : Nat) (f : FunctionDecl)
    (values : List Value) : Keeps frozen (callFunction ctx.scoping (evaluate ctx fuel) f values) :=
  keeps_callFunction (keeps_frozen_inCall _ _ _ (keeps_naming_evaluate ctx fuel f.body))

/-- An expression of the grammar has nothing but such expressions in it. -/
theorem isExpression_of_mem_children {e part : Expr} (h : IsExpression e)
    (hpart : part ∈ e.children) : IsExpression part := by
  cases h with
  | integer | boolean | name => cases hpart
  | array hitems => exact hitems part hpart
  | binary hleft hright =>
    simp only [Expr.children, List.mem_cons, List.not_mem_nil, or_false] at hpart
    rcases hpart with rfl | rfl
    · exact hleft
    · exact hright
  | call _ harguments => exact harguments part hpart
  | labelledCall _ _ harguments =>
    obtain ⟨argument, hargument, rfl⟩ := List.mem_map.1 hpart
    exact harguments argument hargument

/-- An expression of the grammar adds no name to any scope: it assigns in calls only. -/
theorem keeps_frozen_of_isExpression {e : Expr} (h : IsExpression e) (fuel : Nat) :
    Keeps frozen (evaluate ctx fuel e) := by
  refine keeps_evaluate_of_fits IsExpression ?_ ?_ ?_ ?_ fuel e h
  · exact fun _ he _ hpart => isExpression_of_mem_children he hpart
  · exact fun name _ => keeps_lookup (fun _ hm => hm) name
  · exact fun _ _ _ he => by cases he
  · exact fun _ fuel _ f _ _ _ _ _ =>
      keeps_frozen_inCall _ _ _ (keeps_naming_evaluate ctx fuel f.body)

/-! ### Programs -/

/-- A global gets its first value by evaluation and then by a binding in the root. -/
theorem bindAt_of_setGlobal {g : GlobalDecl} {m m' : Machine} (hwf : m.env.WellFormed)
    (h : setGlobal ctx fuel g m = .ok (.ok (), m')) :
    ∃ value m₁, evaluate ctx fuel g.initializer m = .ok (.ok value, m₁) ∧
      m₁.env.bindAt root g.name value = .ok m'.env ∧ SameShape m.env m'.env := by
  rcases bind_eq_ok_iff.1 h with ⟨value, m₁, hvalue, h⟩ | ⟨_, he, -⟩
  · obtain ⟨hwf₁, hshape, -⟩ := (keeps_restoring_evaluate ctx fuel _ m hwf).2 _ _ hvalue
    have hroot : root < m₁.env.scopes.size := Nat.zero_lt_of_lt hwf₁.current_lt
    obtain ⟨env, henv, hshape'⟩ := sameShape_bindAt hroot g.name value
    have hupdate := update_apply (·.defineGlobal g.name value) m₁
    rw [show m₁.env.defineGlobal g.name value = .ok env from henv, h] at hupdate
    obtain ⟨-, rfl⟩ := Prod.mk.inj (Except.ok.inj hupdate)
    exact ⟨value, m₁, hvalue, henv, hshape.trans hshape'⟩
  · cases he

/-- Giving globals their first values adds their names to the root. -/
theorem binds_setGlobals {gs : List GlobalDecl} (hgs : ∀ g ∈ gs, IsExpression g.initializer)
    {m m' : Machine} (hwf : m.env.WellFormed)
    (h : gs.forM (setGlobal ctx fuel) m = .ok (.ok (), m')) :
    SameShape m.env m'.env ∧
      ∀ id name, m'.env.Binds id name ↔ m.env.Binds id name ∨ id = root ∧ ∃ g ∈ gs,
        g.name = name := by
  induction gs generalizing m with
  | nil =>
    obtain ⟨-, rfl⟩ := Prod.mk.inj (Except.ok.inj h)
    exact ⟨SameShape.refl _, by simp⟩
  | cons g gs ih =>
    obtain ⟨hg, hgs⟩ := List.forall_mem_cons.1 hgs
    rcases bind_eq_ok_iff.1 h with ⟨_, m₁, hfirst, hrest⟩ | ⟨_, he, -⟩
    · obtain ⟨value, m₂, hvalue, hbind, hshape⟩ := bindAt_of_setGlobal hwf hfirst
      obtain ⟨-, -, hnames⟩ := (keeps_frozen_of_isExpression hg fuel m hwf).2 _ _ hvalue
      obtain ⟨hshape', hbinds'⟩ := ih hgs (hshape.wellFormed hwf) hrest
      refine ⟨hshape.trans hshape', fun id name => ?_⟩
      rw [hbinds' id name, binds_bindAt hbind, hnames id name]
      simp only [List.exists_mem_cons_iff, eq_comm (a := name)]
      tauto
    · cases he

end Eval

open Scriptlet.Language

theorem Program.WellFormed.isExpression_initializer {p : Program} (h : p.WellFormed) :
    ∀ g ∈ p.globals, IsExpression g.initializer := by
  intro g hg
  obtain ⟨d, hd, hg⟩ := List.mem_filterMap.1 hg
  cases h d hd with
  | global _ hinitializer =>
    obtain rfl := Option.some.inj hg
    exact hinitializer
  | function _ _ _ => cases hg

namespace Eval

open Environment

/-- A call creates no binding that outlives it and removes none: it never faults in a well-formed
environment, and however it ends, the scopes are those from before and each binds the names that it
bound. So after a successful run of a program from a text, the root binds its names in the seed and
the names of the program's globals, and all other scopes bind what they did in the seed. -/
theorem calls_keep_bound_names :
    (∀ (ctx : Context) (fuel : Nat) (f : FunctionDecl) (values : List Value) (m : Machine),
      m.env.WellFormed →
        (∀ fault, callFunction ctx.scoping (evaluate ctx fuel) f values m ≠ .error (.fault fault)) ∧
        ∀ r m', callFunction ctx.scoping (evaluate ctx fuel) f values m = .ok (r, m') →
          SameShape m.env m'.env ∧ ∀ id name, m'.env.Binds id name ↔ m.env.Binds id name) ∧
    ∀ (source : String) (p : Program) (i i' : Interpreter) (fuel : Nat) (value : Value),
      Program.parse source = .ok p → i.settings.seed.WellFormed →
      i.run fuel p = .ok (.ok value, i') →
        SameShape i.settings.seed i'.machine.env ∧
        ∀ id name, i'.machine.env.Binds id name ↔
          i.settings.seed.Binds id name ∨ id = root ∧ ∃ g ∈ p.globals, g.name = name := by
  constructor
  · intro ctx fuel f values m hwf
    obtain ⟨hfault, hend⟩ := keeps_frozen_callFunction ctx fuel f values m hwf
    refine ⟨hfault, fun r m' hrun => ?_⟩
    obtain ⟨-, ⟨hshape, -⟩, hnames⟩ := hend r m' hrun
    exact ⟨hshape, hnames⟩
  · intro source p i i' fuel value hparse hwf hrun
    have hglobals := (wellFormed_of_isProgram (isProgram_of_parse hparse)).isExpression_initializer
    obtain ⟨m', hsteps, rfl⟩ := Interpreter.perform_eq_ok_iff.1 hrun
    rcases bind_eq_ok_iff.1 hsteps with ⟨functions, m₀, hfunctions, hsteps⟩ | ⟨_, he, -⟩
    · rw [check_apply] at hfunctions
      obtain ⟨-, rfl⟩ := Prod.mk.inj (Except.ok.inj hfunctions)
      rw [runProgram_eq] at hsteps
      rcases bind_eq_ok_iff.1 hsteps with ⟨_, m₁, hset, hsteps⟩ | ⟨_, he, -⟩
      · obtain ⟨hshape, hbinds⟩ := binds_setGlobals hglobals hwf hset
        rcases bind_eq_ok_iff.1 hsteps with ⟨main, m₂, hmain, hcall⟩ | ⟨_, he, -⟩
        · rw [require_apply] at hmain
          obtain ⟨-, rfl⟩ := Prod.mk.inj (Except.ok.inj hmain)
          obtain ⟨-, ⟨hshape', -⟩, hnames⟩ := (keeps_frozen_callFunction _ fuel main [] m₁
            (hshape.wellFormed hwf)).2 _ _ hcall
          refine ⟨hshape.trans hshape', fun id name => ?_⟩
          rw [hnames id name, hbinds id name]
          rfl
        · cases he
      · cases he
    · cases he

/-- A call under dynamic scoping assigns to its caller's variable and to a new one and then fails,
and a program does the same with a global: the new variables are gone afterwards. -/
theorem calls_keep_bound_names_assigned :
    (∃ (ctx : Context) (f : FunctionDecl) (m m' : Machine), ctx.scoping = .dynamic ∧
      m.env.WellFormed ∧
      callFunction ctx.scoping (evaluate ctx 9) f [.bool true] m =
        .ok (.error ⟨.unboundIdentifier "z", ["f"]⟩, m') ∧
      m'.env.Binds 1 "x" ∧ ¬ m'.env.Binds 1 "y") ∧
    ∃ (p : Program) (i i' : Interpreter),
      Program.parse "global a = s; define main() \x7bb = a; a = false; b;\x7d" = .ok p ∧
      i.run 9 p = .ok (.ok (.bool true), i') ∧
      ∀ name, i'.machine.env.Binds root name ↔ name = "s" ∨ name = "a" := by
  obtain ⟨hcalls, hruns⟩ := calls_keep_bound_names
  constructor
  · let f : FunctionDecl := ⟨"f", ["p"],
      .block [.assign "x" (.boolean false), .assign "y" (.variable "p"), .variable "z"]⟩
    let outer : Bindings := (∅ : Bindings).insert "x" (.bool true)
    let env : Environment := ⟨1, #[⟨∅, none⟩, ⟨outer, some 0⟩]⟩
    have hwf : env.WellFormed := wellFormed_push (wellFormed_ofRoot ∅) outer Nat.zero_lt_one
    have hbinds (name : String) : env.Binds 1 name ↔ name = "x" := by
      simp [Binds, env, outer, Std.ExtTreeMap.mem_insert, eq_comm (a := name)]
    obtain ⟨m', hcall⟩ : ∃ m', callFunction .dynamic (evaluate ⟨.empty, .dynamic⟩ 9) f [.bool true]
        ⟨env, .empty none⟩ = .ok (.error ⟨.unboundIdentifier "z", ["f"]⟩, m') := ⟨_, rfl⟩
    obtain ⟨-, hend⟩ := hcalls ⟨.empty, .dynamic⟩ 9 f [.bool true] ⟨env, .empty none⟩ hwf
    obtain ⟨-, hnames⟩ := hend _ m' hcall
    refine ⟨⟨.empty, .dynamic⟩, f, ⟨env, .empty none⟩, m', rfl, hwf, hcall,
      (hnames 1 "x").2 ((hbinds "x").2 rfl), fun hy => ?_⟩
    exact absurd ((hbinds "y").1 ((hnames 1 "y").1 hy)) (by decide)
  · let globals : Bindings := (∅ : Bindings).insert "s" (.bool true)
    let i : Interpreter := .ofSettings ⟨.lexical, none, .ofRoot globals⟩
    have hseed (name : String) : i.settings.seed.Binds root name ↔ name = "s" := by
      simp [i, Interpreter.ofSettings, binds_ofRoot_iff, globals, Std.ExtTreeMap.mem_insert,
        eq_comm (a := name)]
    let p : Program := ⟨[.global ⟨"a", .variable "s"⟩, .function ⟨"main", [],
      .block [.assign "b" (.variable "a"), .assign "a" (.boolean false), .variable "b"]⟩]⟩
    have hparse :
        Program.parse "global a = s; define main() \x7bb = a; a = false; b;\x7d" = .ok p :=
      rfl
    obtain ⟨i', hrun⟩ : ∃ i', i.run 9 p = .ok (.ok (.bool true), i') := ⟨_, rfl⟩
    obtain ⟨-, hnames⟩ := hruns _ p i i' 9 _ hparse (wellFormed_ofRoot globals) hrun
    refine ⟨p, i, i', hparse, hrun, fun name => ?_⟩
    rw [hnames root name, hseed name]
    simp [p, Program.globals, eq_comm (a := name)]

end Eval

end Scriptlet
