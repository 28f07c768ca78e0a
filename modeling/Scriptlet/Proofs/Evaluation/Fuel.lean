import Scriptlet.Proofs.Evaluation.Steps

/-!
# More fuel

With more fuel an evaluation goes farther and does nothing else. Steps approximate others if on each
machine they run out of fuel or end as the others do (`Approximates`). Sequencing keeps this, so an
evaluation approximates the one with more fuel (`approximates_evaluate`), and so does a whole
program (`approximates_runProgram`). Hence the end of a run and of an evaluation does not depend on
the fuel that it was reached with (`Interpreter.run_unique`, `Interpreter.evaluate_unique`).
-/

namespace Scriptlet

namespace Eval

variable {α β : Type} {x y : Eval α}

/-- On each machine the first steps run out of fuel or end as the second ones do. -/
def Approximates (x y : Eval α) : Prop :=
  ∀ m, x m = .error .outOfFuel ∨ x m = y m

theorem Approximates.refl (x : Eval α) : Approximates x x :=
  fun _ => .inr rfl

theorem approximates_outOfFuel (y : Eval α) : Approximates outOfFuel y :=
  fun _ => .inl rfl

/-- Steps that end do so in the same way with what they approximate. -/
theorem Approximates.eq_ok (h : Approximates x y) {m : Machine} {r : Except EvalError α × Machine}
    (hx : x m = .ok r) : y m = .ok r := by
  rcases h m with hout | hsame
  · rw [hx] at hout
    cases hout
  · rw [← hsame, hx]

/-! ### Steps in a row -/

theorem Approximates.bind {f g : α → Eval β} (hxy : Approximates x y)
    (hfg : ∀ a, Approximates (f a) (g a)) : Approximates (x >>= f) (y >>= g) := by
  intro m
  rcases hxy m with hout | hsame
  · exact .inl (bind_apply_of_interrupt hout f)
  · match hx : x m with
    | .error i =>
      rw [hx] at hsame
      rw [bind_apply_of_interrupt hx, bind_apply_of_interrupt hsame.symm]
      exact .inr rfl
    | .ok (.error e, m₁) =>
      rw [hx] at hsame
      rw [bind_apply_of_error hx, bind_apply_of_error hsame.symm]
      exact .inr rfl
    | .ok (.ok a, m₁) =>
      rw [hx] at hsame
      rw [bind_apply_of_ok hx, bind_apply_of_ok hsame.symm]
      exact hfg a m₁

theorem Approximates.mapM {f g : α → Eval β} (hfg : ∀ a, Approximates (f a) (g a)) (as : List α) :
    Approximates (as.mapM f) (as.mapM g) := by
  induction as with
  | nil => exact .refl _
  | cons a as ih =>
    rw [List.mapM_cons, List.mapM_cons]
    exact (hfg a).bind fun _ => ih.bind fun _ => .refl _

theorem Approximates.foldlM {f g : β → α → Eval β} (hfg : ∀ b a, Approximates (f b a) (g b a))
    (as : List α) (b : β) : Approximates (as.foldlM f b) (as.foldlM g b) := by
  induction as generalizing b with
  | nil => exact .refl _
  | cons a as ih =>
    rw [List.foldlM_cons, List.foldlM_cons]
    exact (hfg b a).bind ih

theorem Approximates.forM {f g : α → Eval Unit} (hfg : ∀ a, Approximates (f a) (g a))
    (as : List α) : Approximates (as.forM f) (as.forM g) := by
  induction as with
  | nil => exact .refl _
  | cons a as ih => exact (hfg a).bind fun _ => ih

/-! ### Calls -/

theorem Approximates.inCall {body₁ body₂ : Eval Value} (h : Approximates body₁ body₂)
    (scoping : Scoping) (name : String) (parameters : List (String × Value)) :
    Approximates (inCall scoping name parameters body₁) (inCall scoping name parameters body₂) := by
  rintro ⟨env, calls⟩
  rw [inCall_apply, inCall_apply]
  cases calls.push name with
  | error kind => exact .inr rfl
  | ok inner =>
    dsimp only
    rcases h ⟨env.enterCall scoping parameters, inner⟩ with hout | hsame
    · left
      rw [hout]
    · right
      rw [hsame]

section Evaluate

variable {scoping : Scoping} {eval₁ eval₂ : Expr → Eval Value}

theorem approximates_callFunction (heval : ∀ e, Approximates (eval₁ e) (eval₂ e)) (f : FunctionDecl)
    (arguments : List Value) :
    Approximates (callFunction scoping eval₁ f arguments)
      (callFunction scoping eval₂ f arguments) := by
  rw [callFunction_eq, callFunction_eq]
  split
  · exact (heval f.body).inCall _ _ _
  · exact .refl _

theorem approximates_labelledArguments (heval : ∀ e, Approximates (eval₁ e) (eval₂ e))
    (name : String) (parameters : List String) (arguments : List (String × Expr)) :
    Approximates (labelledArguments eval₁ name parameters arguments)
      (labelledArguments eval₂ name parameters arguments) := by
  have hbind (bound : List (String × Value)) (argument : String × Expr) :
      Approximates (bindLabel eval₁ name parameters bound argument)
        (bindLabel eval₂ name parameters bound argument) := by
    rw [bindLabel_eq, bindLabel_eq]
    exact (heval argument.2).bind fun _ => .refl _
  rw [labelledArguments_eq, labelledArguments_eq]
  exact (Approximates.foldlM hbind arguments []).bind fun _ => .refl _

end Evaluate

/-! ### Expressions and programs -/

variable {fuel fuel' : Nat}

/-- An evaluation approximates the one with more fuel. -/
theorem approximates_evaluate (ctx : Context) (hle : fuel ≤ fuel') (e : Expr) :
    Approximates (evaluate ctx fuel e) (evaluate ctx fuel' e) := by
  induction fuel generalizing fuel' e with
  | zero => exact approximates_outOfFuel _
  | succ fuel ih =>
    obtain ⟨more, rfl⟩ : ∃ more, fuel' = more + 1 := ⟨fuel' - 1, by omega⟩
    have hparts (e : Expr) : Approximates (evaluate ctx fuel e) (evaluate ctx more e) :=
      ih (by omega) e
    -- The two evaluations take the same steps, with the parts evaluated under less fuel each.
    cases e with
    | integer n => exact .refl _
    | boolean b => exact .refl _
    | «variable» name => exact .refl _
    | array items => exact (Approximates.mapM hparts items).bind fun _ => .refl _
    | binary op left right =>
      exact (hparts left).bind fun _ => (hparts right).bind fun _ => .refl _
    | call name arguments =>
      exact (Approximates.refl _).bind fun f =>
        (Approximates.mapM hparts arguments).bind fun values =>
          approximates_callFunction hparts f values
    | labelledCall name arguments =>
      exact (Approximates.refl _).bind fun f =>
        (approximates_labelledArguments hparts name f.parameters arguments).bind fun values =>
          approximates_callFunction hparts f values
    | assign name e => exact (hparts e).bind fun _ => .refl _
    | block statements => exact Approximates.foldlM (fun _ s => hparts s) statements _
    | ifThen condition consequence =>
      refine (hparts condition).bind fun value => (Approximates.refl _).bind fun holds => ?_
      split
      · exact hparts consequence
      · exact .refl _
    | ifElse condition consequence alternative =>
      refine (hparts condition).bind fun value => (Approximates.refl _).bind fun holds => ?_
      split
      · exact hparts consequence
      · exact hparts alternative
    | loop condition body =>
      refine (hparts condition).bind fun value => (Approximates.refl _).bind fun holds => ?_
      split
      · exact (hparts body).bind fun _ => hparts (.loop condition body)
      · exact .refl _

theorem approximates_runProgram (ctx : Context) (hle : fuel ≤ fuel') (p : Program) :
    Approximates (runProgram ctx fuel p) (runProgram ctx fuel' p) := by
  have hglobal (g : GlobalDecl) : Approximates (setGlobal ctx fuel g) (setGlobal ctx fuel' g) :=
    (approximates_evaluate ctx hle g.initializer).bind fun _ => .refl _
  rw [runProgram_eq, runProgram_eq]
  refine (Approximates.forM hglobal p.globals).bind fun _ =>
    (Approximates.refl _).bind fun main => ?_
  exact approximates_callFunction (approximates_evaluate ctx hle) main []

/-- Two ends of steps that only fuel tells apart are the same. -/
theorem ok_unique {steps : Nat → Eval α}
    (hsteps : ∀ fuel fuel', fuel ≤ fuel' → Approximates (steps fuel) (steps fuel')) {m : Machine}
    {r r' : Except EvalError α × Machine} (h : steps fuel m = .ok r) (h' : steps fuel' m = .ok r') :
    r = r' := by
  rcases Nat.le_total fuel fuel' with hle | hle
  · have hmore := (hsteps fuel fuel' hle).eq_ok h
    exact Except.ok.inj (hmore.symm.trans h')
  · have hmore := (hsteps fuel' fuel hle).eq_ok h'
    exact Except.ok.inj (h.symm.trans hmore)

end Eval

namespace Interpreter

open Eval

variable {i : Interpreter} {fuel fuel' : Nat} {r r' : Except EvalError Value × Interpreter}

theorem perform_unique {α : Type} (steps : Nat → Eval α) {r r' : Except EvalError α × Interpreter}
    (hsteps : ∀ fuel fuel', fuel ≤ fuel' → Approximates (steps fuel) (steps fuel'))
    (h : i.perform (steps fuel) = .ok r) (h' : i.perform (steps fuel') = .ok r') : r = r' := by
  obtain ⟨m, hm, hi⟩ := perform_eq_ok_iff.1 (h : i.perform (steps fuel) = .ok (r.1, r.2))
  obtain ⟨m', hm', hi'⟩ := perform_eq_ok_iff.1 (h' : i.perform (steps fuel') = .ok (r'.1, r'.2))
  obtain ⟨hresult, hmachine⟩ := Prod.mk.inj (ok_unique hsteps hm hm')
  refine Prod.ext hresult ?_
  rw [hi, hi', hmachine]

/-- A run ends in one way, whatever the fuel. -/
theorem run_unique {p : Program} (h : i.run fuel p = .ok r) (h' : i.run fuel' p = .ok r') :
    r = r' := by
  let steps (fuel : Nat) : Eval Value := do
    let functions ← check (FunctionTable.ofProgram p)
    runProgram ⟨functions, i.settings.scoping⟩ fuel p
  have hsteps (fuel fuel' : Nat) (hle : fuel ≤ fuel') : Approximates (steps fuel) (steps fuel') :=
    (Approximates.refl _).bind fun functions => approximates_runProgram _ hle p
  exact perform_unique (i := ⟨i.settings, i.settings.machine⟩) steps hsteps h h'

theorem evaluate_unique {functions : FunctionTable} {e : Expr}
    (h : i.evaluate fuel functions e = .ok r) (h' : i.evaluate fuel' functions e = .ok r') :
    r = r' :=
  perform_unique (Eval.evaluate ⟨functions, i.settings.scoping⟩ · e)
    (fun _ _ hle => approximates_evaluate _ hle e) h h'

end Interpreter

end Scriptlet
