import Scriptlet.Proofs.Evaluation.FunctionTables
import Scriptlet.Proofs.Evaluation.Fuel
import Scriptlet.Proofs.Evaluation.Nesting
import Scriptlet.Proofs.Evaluation.Safety
import Scriptlet.Proofs.Tree.Parts
import Scriptlet.Value.Order

/-!
# Loop-free programs end

An evaluation that runs out of fuel has begun another one that does, until one has no fuel to begin
with (`Task.Exhausts.begins`). So fuel runs out only along tasks that are begun inside one another
without end.

Without loops there are no such tasks under a limit on calls. A task that is begun is the evaluation
of a smaller expression under the same calls, or of the body of a function under one call more.
Hence the number of calls that may still be entered, and then the height of the expression, go down
lexicographically. As a number this is the room that a task needs (`Task.room`): one height of the
program for each call that may still be entered, and the height of its own expression. What is begun
needs less room (`Task.LoopFree.of_begins`), so that fuel for the first task is fuel for all of
them.

Main statement: a run of a loop-free program under a limit of `d` calls ends with any fuel from `d +
1` heights of the program on, and always in the same way (`Interpreter.run_ends_of_loopFree`).
-/

namespace Scriptlet

/-! ### Rows of steps -/

namespace Eval

variable {α β : Type} {m : Machine} {i : Interrupt}

/-- A row of steps is interrupted by the first of them that is. -/
theorem exists_of_mapM_eq_interrupt {f : α → Eval β} {as : List α} (h : as.mapM f m = .error i) :
    ∃ before a after values m₁, as = before ++ a :: after ∧
      before.mapM f m = .ok (.ok values, m₁) ∧ f a m₁ = .error i := by
  induction as generalizing m with
  | nil => cases h
  | cons a as ih =>
    rw [List.mapM_cons] at h
    rcases bind_eq_error_iff.1 h with ha | ⟨b, m₁, ha, h⟩
    · exact ⟨[], a, as, [], m, rfl, rfl, ha⟩
    · rcases bind_eq_error_iff.1 h with has | ⟨bs, m₂, -, h⟩
      · obtain ⟨before, a', after, values, m₂, rfl, hbefore, ha'⟩ := ih has
        refine ⟨a :: before, a', after, b :: values, m₂, rfl, ?_, ha'⟩
        rw [List.mapM_cons, bind_apply_of_ok ha, bind_apply_of_ok hbefore]
        rfl
      · cases h

theorem exists_of_foldlM_eq_interrupt {f : β → α → Eval β} {as : List α} {b : β}
    (h : as.foldlM f b m = .error i) : ∃ before a after b₁ m₁, as = before ++ a :: after ∧
      before.foldlM f b m = .ok (.ok b₁, m₁) ∧ f b₁ a m₁ = .error i := by
  induction as generalizing b m with
  | nil => cases h
  | cons a as ih =>
    rw [List.foldlM_cons] at h
    rcases bind_eq_error_iff.1 h with ha | ⟨b₁, m₁, ha, h⟩
    · exact ⟨[], a, as, b, m, rfl, rfl, ha⟩
    · obtain ⟨before, a', after, b₂, m₂, rfl, hbefore, ha'⟩ := ih h
      refine ⟨a :: before, a', after, b₂, m₂, rfl, ?_, ha'⟩
      rw [List.foldlM_cons, bind_apply_of_ok ha, hbefore]

theorem exists_of_forM_eq_interrupt {f : α → Eval Unit} {as : List α} (h : as.forM f m = .error i) :
    ∃ before a after m₁, as = before ++ a :: after ∧
      before.forM f m = .ok (.ok (), m₁) ∧ f a m₁ = .error i := by
  induction as generalizing m with
  | nil => cases h
  | cons a as ih =>
    rcases bind_eq_error_iff.1 h with ha | ⟨_, m₁, ha, h⟩
    · exact ⟨[], a, as, m, rfl, rfl, ha⟩
    · obtain ⟨before, a', after, m₂, rfl, hbefore, ha'⟩ := ih h
      refine ⟨a :: before, a', after, m₂, rfl, ?_, ha'⟩
      exact (bind_apply_of_ok ha _).trans hbefore

/-! ### Steps without fuel -/

theorem check_ne_interrupt (result : Except ErrorKind α) : check result m ≠ .error i := by
  rw [check_apply]
  exact nofun

theorem require_ne_interrupt (missing : ErrorKind) (value : Option α) :
    require missing value m ≠ .error i := by
  rw [require_apply]
  exact nofun

theorem inspect_ne_outOfFuel (f : Environment → Except Fault α) :
    inspect f m ≠ .error .outOfFuel := by
  intro h
  rw [inspect_apply] at h
  split at h <;> cases h

theorem update_ne_outOfFuel (f : Environment → Except Fault Environment) :
    update f m ≠ .error .outOfFuel := by
  intro h
  rw [update_apply] at h
  split at h <;> cases h

/-- A choice runs out of fuel in its condition or in the branch that is taken. -/
theorem exists_of_branch_outOfFuel {x yes no : Eval Value}
    (h : (x >>= fun value => check value.asBool >>= fun holds => if holds then yes else no) m =
      .error .outOfFuel) :
    x m = .error .outOfFuel ∨ ∃ holds m₁, x m = .ok (.ok (.bool holds), m₁) ∧
      (if holds then yes else no) m₁ = .error .outOfFuel := by
  rcases bind_eq_error_iff.1 h with hx | ⟨value, m₁, hx, h⟩
  · exact .inl hx
  · rcases bind_eq_error_iff.1 h with hcheck | ⟨holds, m₂, hcheck, h⟩
    · exact absurd hcheck (check_ne_interrupt _)
    · rw [check_apply] at hcheck
      cases value with
      | bool b =>
        cases hcheck
        exact .inr ⟨_, _, hx, h⟩
      | _ => cases hcheck

end Eval

/-! ### Where fuel runs out -/

namespace Task

open Eval

variable {ctx : Context} {t t' : Task} {entered : List String} {fuel : Nat} {m : Machine}

/-- The task runs out of fuel. -/
def Exhausts (ctx : Context) (t : Task) : Prop :=
  evaluate ctx t.fuel t.expr t.machine = .error .outOfFuel

/-- A call that runs out of fuel is entered, and does so in its body. -/
theorem entered_of_callFunction_outOfFuel {f : FunctionDecl} {values : List Value}
    (h : callFunction ctx.scoping (evaluate ctx fuel) f values m = .error .outOfFuel) :
    ∃ m₁, Entered ctx.scoping f values m m₁ ∧ Exhausts ctx ⟨fuel, f.body, m₁⟩ := by
  obtain ⟨env, calls⟩ := m
  rw [callFunction_eq] at h
  split at h
  · rename_i harity
    rw [inCall_apply] at h
    cases hpush : calls.push f.name with
    | error kind =>
      rw [hpush] at h
      cases h
    | ok inner =>
      refine ⟨⟨env.enterCall ctx.scoping (f.parameters.zip values), inner⟩,
        ⟨harity, rfl, hpush⟩, ?_⟩
      rw [hpush] at h
      dsimp only at h
      unfold Exhausts
      split at h
      · rename_i interrupt hbody
        rw [hbody]
        exact congrArg Except.error (Except.error.inj h)
      · split at h <;> cases h
  · cases h

/-- Labelled arguments run out of fuel in one of them. -/
theorem exists_of_labelledArguments_outOfFuel {eval : Expr → Eval Value} {name : String}
    {parameters : List String} {arguments : List (String × Expr)}
    (h : labelledArguments eval name parameters arguments m = .error .outOfFuel) :
    ∃ before label e after bound m₁, arguments = before ++ (label, e) :: after ∧
      before.foldlM (bindLabel eval name parameters) [] m = .ok (.ok bound, m₁) ∧
      eval e m₁ = .error .outOfFuel := by
  rw [labelledArguments_eq] at h
  rcases bind_eq_error_iff.1 h with harguments | ⟨bound, m₁, -, h⟩
  · obtain ⟨before, ⟨label, e⟩, after, bound, m₁, rfl, hbefore, hargument⟩ :=
      exists_of_foldlM_eq_interrupt harguments
    rw [bindLabel_eq] at hargument
    rcases bind_eq_error_iff.1 hargument with he | ⟨value, m₂, -, h⟩
    · exact ⟨before, label, e, after, bound, m₁, rfl, hbefore, he⟩
    · split at h <;> cases h
  · split at h <;> cases h

/-- A task that runs out of fuel has none, or begins one that does. -/
theorem Exhausts.begins (h : t.Exhausts ctx) (hfuel : t.fuel ≠ 0) :
    ∃ entered t', t.Begins ctx entered t' ∧ t'.Exhausts ctx := by
  obtain ⟨fuel, expr, m⟩ := t
  obtain ⟨fuel, rfl⟩ := Nat.exists_eq_succ_of_ne_zero hfuel
  unfold Exhausts at h
  cases expr with
  | integer n => cases h
  | boolean b => cases h
  | «variable» name =>
    rcases bind_eq_error_iff.1 h with hlookup | ⟨value, m₁, -, h⟩
    · exact absurd hlookup (inspect_ne_outOfFuel _)
    · exact absurd h (require_ne_interrupt _ _)
  | array items =>
    rcases bind_eq_error_iff.1 h with hitems | ⟨values, m₁, -, h⟩
    · obtain ⟨before, item, after, values, m₁, rfl, hbefore, hitem⟩ :=
        exists_of_mapM_eq_interrupt hitems
      exact ⟨_, _, .item hbefore, hitem⟩
    · cases h
  | binary op left right =>
    rcases bind_eq_error_iff.1 h with hleft | ⟨a, m₁, hleft, h⟩
    · exact ⟨_, _, .left, hleft⟩
    · rcases bind_eq_error_iff.1 h with hright | ⟨b, m₂, -, h⟩
      · exact ⟨_, _, .right hleft, hright⟩
      · exact absurd h (check_ne_interrupt _)
  | call name arguments =>
    rcases bind_eq_error_iff.1 h with hrequire | ⟨f, m₀, hrequire, hrest⟩
    · exact absurd hrequire (require_ne_interrupt _ _)
    · obtain ⟨hf, rfl⟩ := eq_some_of_require hrequire
      rcases bind_eq_error_iff.1 hrest with harguments | ⟨values, m₁, harguments, hcall⟩
      · obtain ⟨before, e, after, values, m₁, rfl, hbefore, he⟩ :=
          exists_of_mapM_eq_interrupt harguments
        exact ⟨_, _, .argument hf hbefore, he⟩
      · obtain ⟨m₂, hentered, hbody⟩ := entered_of_callFunction_outOfFuel hcall
        exact ⟨_, _, .body hf harguments hentered, hbody⟩
  | labelledCall name arguments =>
    rcases bind_eq_error_iff.1 h with hrequire | ⟨f, m₀, hrequire, hrest⟩
    · exact absurd hrequire (require_ne_interrupt _ _)
    · obtain ⟨hf, rfl⟩ := eq_some_of_require hrequire
      rcases bind_eq_error_iff.1 hrest with harguments | ⟨values, m₁, harguments, hcall⟩
      · obtain ⟨before, label, e, after, bound, m₁, rfl, hbefore, he⟩ :=
          exists_of_labelledArguments_outOfFuel harguments
        exact ⟨_, _, .labelledArgument hf hbefore, he⟩
      · obtain ⟨m₂, hentered, hbody⟩ := entered_of_callFunction_outOfFuel hcall
        exact ⟨_, _, .labelledBody hf harguments hentered, hbody⟩
  | assign name e =>
    rcases bind_eq_error_iff.1 h with hvalue | ⟨value, m₁, -, h⟩
    · exact ⟨_, _, .value, hvalue⟩
    · rcases bind_eq_error_iff.1 h with hassign | ⟨_, m₂, -, h⟩
      · exact absurd hassign (update_ne_outOfFuel _)
      · cases h
  | block statements =>
    obtain ⟨before, s, after, last, m₁, rfl, hbefore, hs⟩ := exists_of_foldlM_eq_interrupt h
    exact ⟨_, _, .statement hbefore, hs⟩
  | ifThen condition consequence =>
    rcases exists_of_branch_outOfFuel h with hc | ⟨holds, m₁, hc, h⟩
    · exact ⟨_, _, .ifThenCondition, hc⟩
    · cases holds with
      | false => cases h
      | true => exact ⟨_, _, .ifThenConsequence hc, h⟩
  | ifElse condition consequence alternative =>
    rcases exists_of_branch_outOfFuel h with hc | ⟨holds, m₁, hc, h⟩
    · exact ⟨_, _, .ifElseCondition, hc⟩
    · cases holds with
      | false => exact ⟨_, _, .ifElseAlternative hc, h⟩
      | true => exact ⟨_, _, .ifElseConsequence hc, h⟩
  | loop condition body =>
    rcases exists_of_branch_outOfFuel h with hc | ⟨holds, m₁, hc, h⟩
    · exact ⟨_, _, .loopCondition, hc⟩
    · cases holds with
      | false => cases h
      | true =>
        rcases bind_eq_error_iff.1 h with hbody | ⟨value, m₂, hbody, h⟩
        · exact ⟨_, _, .loopBody hc, hbody⟩
        · exact ⟨_, _, .loopAgain hc hbody, h⟩

/-! ### The room for a task -/

/-- A task begins the evaluation of an expression that stands directly in its own, or of the body of
a function that it calls, unless it is a loop. -/
theorem Begins.expr (h : t.Begins ctx entered t') :
    entered = [] ∧ t'.expr ∈ t.expr.children ∨
      (∃ name f, ctx.functions.get? name = some f ∧ entered = [f.name] ∧ t'.expr = f.body) ∨
      ∃ condition body, t.expr = .loop condition body := by
  cases h with
  | body hf _ _ | labelledBody hf _ _ => exact .inr (.inl ⟨_, _, hf, rfl, rfl⟩)
  | loopCondition | loopBody _ | loopAgain _ _ => exact .inr (.inr ⟨_, _, rfl⟩)
  | _ =>
    left
    simp [Expr.children]

/-- How many evaluations are inside one another at most, in a task under a limit of `d` calls where
the bodies of functions are at most so high. -/
def room (d height : Nat) (t : Task) : Nat :=
  (d - t.machine.calls.depth) * height + t.expr.height

/-- The expression is free of loops, and no more calls are active than the limit `d` allows. -/
structure LoopFree (d : Nat) (t : Task) : Prop where
  expr : t.expr.LoopFree
  calls : t.machine.calls.BoundedBy d

variable {d height : Nat}

/-- What a loop-free task begins is loop-free, and there is room for it inside the task. -/
theorem LoopFree.of_begins
    (hctx : ∀ name f, ctx.functions.get? name = some f → f.body.LoopFree ∧ f.body.height ≤ height)
    (ht : t.LoopFree d) (h : t.Begins ctx entered t') :
    t'.LoopFree d ∧ t'.room d height < t.room d height := by
  obtain ⟨hnone, hchildren⟩ := Expr.loopFree_iff.1 ht.expr
  rcases h.calls with ⟨hcalls, hentered⟩ | ⟨name, hentered, hpush⟩
  · rcases h.expr with ⟨-, hchild⟩ | ⟨_, f, -, hcall, -⟩ | ⟨condition, body, hloop⟩
    · have hlt := Expr.height_lt_of_mem_children hchild
      refine ⟨⟨hchildren _ hchild, hcalls ▸ ht.calls⟩, ?_⟩
      unfold room
      rw [hcalls]
      omega
    · rw [hentered] at hcall
      cases hcall
    · exact absurd hloop (hnone condition body)
  · rcases h.expr with ⟨hnil, -⟩ | ⟨_, f, hf, -, hbody⟩ | ⟨condition, body, hloop⟩
    · rw [hentered] at hnil
      cases hnil
    · obtain ⟨hfree, hheight⟩ := hctx _ f hf
      have hinner : t'.machine.calls.BoundedBy d := ht.calls.push hpush
      refine ⟨⟨hbody ▸ hfree, hinner⟩, ?_⟩
      -- The call that is entered gives up one height, and the body takes no more than that.
      have hdepth : t'.machine.calls.depth = t.machine.calls.depth + 1 :=
        congrArg List.length (CallStack.pop_of_push hpush).1
      have hleft : d - t.machine.calls.depth = d - t'.machine.calls.depth + 1 := by
        have hle : t'.machine.calls.depth ≤ d := hinner.2
        omega
      have hpos := t.expr.height_pos
      unfold room
      rw [hleft, Nat.succ_mul, hbody]
      omega
    · exact absurd hloop (hnone condition body)

/-- A loop-free task does not run out of fuel if there is as much as it needs room. -/
theorem LoopFree.not_exhausts
    (hctx : ∀ name f, ctx.functions.get? name = some f → f.body.LoopFree ∧ f.body.height ≤ height)
    (ht : t.LoopFree d) (hfuel : t.room d height ≤ t.fuel) : ¬ t.Exhausts ctx := by
  intro hexhausts
  obtain ⟨n, hn⟩ : ∃ n, t.fuel = n := ⟨_, rfl⟩
  induction n generalizing t with
  | zero =>
    have hpos := t.expr.height_pos
    unfold room at hfuel
    omega
  | succ n ih =>
    obtain ⟨entered, t', hbegins, hexhausts'⟩ := hexhausts.begins (by omega)
    obtain ⟨ht', hroom⟩ := ht.of_begins hctx hbegins
    have hfuel' := hbegins.fuel_eq
    exact ih ht' (by omega) hexhausts' (by omega)

end Task

/-! ### Programs -/

namespace Program

open Eval

variable {i : Interpreter} {functions : FunctionTable} {fuel d : Nat} {p : Program} {t : Task}
  {entered : List String}

/-- A run that is out of fuel has begun a task that is. -/
theorem begins_of_run_outOfFuel (h : i.run fuel p = .error .outOfFuel) :
    ∃ functions entered t, FunctionTable.ofProgram p = .ok functions ∧
      p.Begins i.settings functions fuel entered t ∧
        t.Exhausts ⟨functions, i.settings.scoping⟩ := by
  have hsteps := Interpreter.perform_eq_error_iff.1 h
  rcases bind_eq_error_iff.1 hsteps with hcheck | ⟨functions, m₀, hcheck, hprogram⟩
  · exact absurd hcheck (check_ne_interrupt _)
  · cases hfunctions : FunctionTable.ofProgram p with
    | error kind =>
      rw [hfunctions] at hcheck
      cases hcheck
    | ok table =>
      rw [hfunctions] at hcheck
      obtain ⟨hsame, rfl⟩ := Prod.mk.inj (Except.ok.inj hcheck)
      obtain rfl := Except.ok.inj hsame
      rw [runProgram_eq] at hprogram
      rcases bind_eq_error_iff.1 hprogram with hglobals | ⟨_, m₁, hglobals, hmain⟩
      · obtain ⟨before, g, after, m₁, hsplit, hbefore, hg⟩ := exists_of_forM_eq_interrupt hglobals
        rcases bind_eq_error_iff.1 hg with hvalue | ⟨value, m₂, -, hdefine⟩
        · exact ⟨_, _, _, rfl, .initializer hsplit hbefore, hvalue⟩
        · exact absurd hdefine (update_ne_outOfFuel _)
      · rcases bind_eq_error_iff.1 hmain with hrequire | ⟨f, m₂, hrequire, hcall⟩
        · exact absurd hrequire (require_ne_interrupt _ _)
        · obtain ⟨hf, rfl⟩ := Task.eq_some_of_require hrequire
          obtain ⟨m₃, hentered, hbody⟩ := Task.entered_of_callFunction_outOfFuel hcall
          exact ⟨_, _, _, rfl, .main hglobals hf hentered, hbody⟩

theorem mem_expressions_of_get? {name : String} {f : FunctionDecl}
    (h : FunctionTable.ofProgram p = .ok functions) (hf : functions.get? name = some f) :
    f.body ∈ p.expressions := by
  obtain ⟨hmem, -⟩ := (FunctionTable.get?_ofProgram_eq_some_iff h).1 hf
  exact List.mem_append_right _ (List.mem_map_of_mem hmem)

/-- The first tasks of a loop-free program are loop-free, and need no more room than one height of
the program for each call and one for themselves. -/
theorem LoopFree.of_begins {settings : Settings} (hp : p.LoopFree)
    (hlimit : settings.callLimit = some d) (hfunctions : FunctionTable.ofProgram p = .ok functions)
    (h : p.Begins settings functions fuel entered t) :
    t.LoopFree d ∧ t.fuel = fuel ∧ t.room d p.height ≤ (d + 1) * p.height := by
  have hempty : (CallStack.empty settings.callLimit).BoundedBy d := ⟨hlimit, Nat.zero_le d⟩
  have hcalls : t.machine.calls.BoundedBy d := by
    rcases h.calls with ⟨hcalls, -⟩ | ⟨name, -, hpush⟩
    · exact hcalls ▸ hempty
    · exact hempty.push hpush
  have hexpr : t.expr ∈ p.expressions ∧ t.fuel = fuel := by
    cases h with
    | initializer hglobals _ =>
      refine ⟨List.mem_append_left _ (List.mem_map_of_mem ?_), rfl⟩
      rw [hglobals]
      exact List.mem_append_right _ (List.mem_cons_self ..)
    | main _ hmain _ => exact ⟨mem_expressions_of_get? hfunctions hmain, rfl⟩
  refine ⟨⟨hp _ hexpr.1, hcalls⟩, hexpr.2, ?_⟩
  unfold Task.room
  rw [Nat.succ_mul]
  exact Nat.add_le_add (Nat.mul_le_mul_right _ (Nat.sub_le _ _))
    (height_le_of_mem_expressions hexpr.1)

end Program

namespace Interpreter

/-- A run of a loop-free program under a limit on calls does not run out of fuel. -/
theorem run_ne_outOfFuel {i : Interpreter} {p : Program} {d fuel : Nat}
    (hlimit : i.settings.callLimit = some d) (hp : p.LoopFree) (hfuel : (d + 1) * p.height ≤ fuel) :
    i.run fuel p ≠ .error .outOfFuel := by
  intro h
  obtain ⟨functions, entered, t, hfunctions, hbegins, hexhausts⟩ :=
    Program.begins_of_run_outOfFuel h
  have hctx (name : String) (f : FunctionDecl) (hf : functions.get? name = some f) :
      f.body.LoopFree ∧ f.body.height ≤ p.height := by
    have hmem := Program.mem_expressions_of_get? hfunctions hf
    exact ⟨hp _ hmem, Program.height_le_of_mem_expressions hmem⟩
  obtain ⟨ht, hsame, hroom⟩ := hp.of_begins hlimit hfunctions hbegins
  exact ht.not_exhausts hctx (by omega) hexhausts

/-- Without loops a limit on calls makes every run end, however the functions call each other. The
run has one result, a value or an error, and reaches it with any fuel from one height of the program
for each call and one more on. -/
theorem run_ends_of_loopFree (i : Interpreter) (p : Program) (d : Nat)
    (hlimit : i.settings.callLimit = some d) (hseed : i.settings.seed.WellFormed)
    (hp : p.LoopFree) :
    ∃ result i', ∀ fuel, (d + 1) * p.height ≤ fuel → i.run fuel p = .ok (result, i') := by
  have hends (fuel : Nat) (hfuel : (d + 1) * p.height ≤ fuel) : ∃ r, i.run fuel p = .ok r := by
    match hrun : i.run fuel p with
    | .ok r => exact ⟨r, rfl⟩
    | .error .outOfFuel => exact absurd hrun (run_ne_outOfFuel hlimit hp hfuel)
    | .error (.fault fault) => exact absurd hrun ((run_of_wellFormed hseed fuel p).1 fault)
  obtain ⟨⟨result, i'⟩, hleast⟩ := hends _ (Nat.le_refl _)
  refine ⟨result, i', fun fuel hfuel => ?_⟩
  obtain ⟨r, hrun⟩ := hends fuel hfuel
  rw [hrun, run_unique hrun hleast]

end Interpreter

/-- Two functions that call each other without end, one by label and one by position, are stopped by
the limit. The expressions are at most three high, so that a fuel of twelve is enough for a limit of
three. -/
theorem run_ends_of_loopFree_mutual :
    ∃ (i i' : Interpreter) (p : Program),
      Program.parse ("define f(x) \x7bg[y = x];\x7d define g(y) \x7bf(y);\x7d " ++
        "define main() \x7bf(true);\x7d") = .ok p ∧
      i.settings.callLimit = some 3 ∧ i.settings.seed.WellFormed ∧ p.LoopFree ∧
      ∀ fuel, 12 ≤ fuel →
        i.run fuel p = .ok (.error ⟨.stackExhausted 3, ["g", "f", "main"]⟩, i') := by
  let p : Program := ⟨[
    .function ⟨"f", ["x"], .block [.labelledCall "g" [("y", .variable "x")]]⟩,
    .function ⟨"g", ["y"], .block [.call "f" [.variable "y"]]⟩,
    .function ⟨"main", [], .block [.call "f" [.boolean true]]⟩]⟩
  let i : Interpreter := .ofSettings ⟨.dynamic, some 3, .empty⟩
  have hwf : i.settings.seed.WellFormed := Environment.wellFormed_ofRoot ∅
  have hexpressions : p.expressions = [.block [.labelledCall "g" [("y", .variable "x")]],
      .block [.call "f" [.variable "y"]], .block [.call "f" [.boolean true]]] := rfl
  -- Every node has one node below it, down to a name or a truth value.
  have hleaf {e : Expr} (hself : ∀ c b, e ≠ .loop c b) (hnone : e.children = []) : e.LoopFree :=
    Expr.loopFree_iff.2 ⟨hself, hnone ▸ List.forall_mem_nil _⟩
  have hnode {e d : Expr} (hself : ∀ c b, e ≠ .loop c b) (hone : e.children = [d])
      (hd : d.LoopFree) : e.LoopFree :=
    Expr.loopFree_iff.2 ⟨hself, hone ▸ List.forall_mem_singleton.2 hd⟩
  have hfree : p.LoopFree := by
    unfold Program.LoopFree
    rw [hexpressions, List.forall_mem_cons, List.forall_mem_cons, List.forall_mem_singleton]
    exact ⟨hnode nofun rfl (hnode nofun rfl (hleaf nofun rfl)),
      hnode nofun rfl (hnode nofun rfl (hleaf nofun rfl)),
      hnode nofun rfl (hnode nofun rfl (hleaf nofun rfl))⟩
  have hheight : p.height = 3 := by
    rw [Program.height, hexpressions]
    simp [Expr.height_eq, Expr.children]
  obtain ⟨result, i', hruns⟩ := Interpreter.run_ends_of_loopFree i p 3 rfl hwf hfree
  rw [hheight] at hruns
  have hrun : (i.run 12 p).map Prod.fst = .ok (.error ⟨.stackExhausted 3, ["g", "f", "main"]⟩) := by
    decide +kernel
  rw [hruns 12 (Nat.le_refl 12)] at hrun
  obtain rfl := Except.ok.inj hrun
  exact ⟨i, i', p, rfl, rfl, hwf, hfree, hruns⟩

end Scriptlet
