import Scriptlet.Proofs.Evaluation.Nesting

/-!
# The limit on calls is a cut-off

Two runs of one program that differ in the limit on calls only go in lockstep until the smaller
limit is reached, and then the run under it ends. So a run that ends in another way under some limit
ends in that way under every larger one, and raising the limit changes no other result. At no point
of a run are more calls active than its limit allows.
-/

namespace Scriptlet

namespace Interpreter

open Eval

variable {scoping : Scoping} {limit₁ limit₂ : Option Nat} {seed : Environment}
  {p : Program} {fuel : Nat}

/-- A program up to its end, with the function table built first. -/
theorem lockstep_limits_run (hlimit : CallStack.LimitLe limit₁ limit₂)
    (scoping : Scoping) (fuel : Nat) (p : Program) :
    Lockstep (.limits limit₁ limit₂)
      (check (FunctionTable.ofProgram p) >>= fun functions =>
        runProgram ⟨functions, scoping⟩ fuel p)
      (check (FunctionTable.ofProgram p) >>= fun functions =>
        runProgram ⟨functions, scoping⟩ fuel p) :=
  (lockstep_check _).bind fun _ =>
    lockstep_runProgram (fun _ => lockstep_limits_inspect _) lockstep_limits_assign
      (lockstep_limits_inCall hlimit scoping) lockstep_limits_defineGlobal fuel p

/-- The three ways in which two runs end that differ in the limit. -/
theorem run_limits (hlimit : CallStack.LimitLe limit₁ limit₂) (m₁ m₂ : Machine) :
    (∃ d i₁ trace, limit₁ = some d ∧ run ⟨⟨scoping, limit₁, seed⟩, m₁⟩ fuel p =
      .ok (.error ⟨.stackExhausted d, trace⟩, i₁)) ∨
    (∃ interrupt, run ⟨⟨scoping, limit₁, seed⟩, m₁⟩ fuel p = .error interrupt ∧
      run ⟨⟨scoping, limit₂, seed⟩, m₂⟩ fuel p = .error interrupt) ∨
    ∃ r i₁ i₂, run ⟨⟨scoping, limit₁, seed⟩, m₁⟩ fuel p = .ok (r, i₁) ∧
      run ⟨⟨scoping, limit₂, seed⟩, m₂⟩ fuel p = .ok (r, i₂) ∧ i₁.machine.env = i₂.machine.env := by
  have hends := lockstep_limits_run hlimit scoping fuel p (seed.scopes.size, [])
    ⟨seed, ⟨[], limit₁⟩⟩ ⟨seed, ⟨[], limit₂⟩⟩ ⟨rfl, rfl, rfl, rfl⟩
  unfold run perform Settings.machine CallStack.empty
  generalize (check (FunctionTable.ofProgram p) >>= fun functions =>
    runProgram ⟨functions, scoping⟩ fuel p) = steps at hends ⊢
  dsimp only
  generalize steps ⟨seed, ⟨[], limit₁⟩⟩ = end₁, steps ⟨seed, ⟨[], limit₂⟩⟩ = end₂ at hends ⊢
  cases hends with
  | interrupted interrupt => exact .inr (.inl ⟨interrupt, rfl, rfl⟩)
  | together r hm => exact .inr (.inr ⟨r, _, _, rfl, rfl, hm.1⟩)
  | alone he =>
    rename_i e m
    obtain ⟨⟨d, hd, hkind⟩, -, -⟩ := he
    refine .inl ⟨d, ⟨⟨scoping, limit₁, seed⟩, m⟩, e.backtrace, hd, ?_⟩
    rw [← hkind]
    rfl

end Interpreter

/-- A run that does not reach its limit on calls ends alike, in the same environment, under every
larger limit and without one. A run that ends under the larger limit ends under the smaller one too,
alike or because that is reached. Wherever a run has got to, no more calls are active than its limit
allows. -/
theorem Interpreter.callLimit_is_cutOff (scoping : Scoping) (seed : Environment) (p : Program)
    (m₁ m₂ : Machine) (d : Nat) (limit : Option Nat) (hlimit : ∀ d', limit = some d' → d ≤ d') :
    (∀ fuel r i₁, run ⟨⟨scoping, some d, seed⟩, m₁⟩ fuel p = .ok (r, i₁) →
      (∀ trace, r ≠ .error ⟨.stackExhausted d, trace⟩) →
        ∃ i₂, run ⟨⟨scoping, limit, seed⟩, m₂⟩ fuel p = .ok (r, i₂) ∧
          i₂.machine.env = i₁.machine.env) ∧
    (∀ fuel r i₂, run ⟨⟨scoping, limit, seed⟩, m₂⟩ fuel p = .ok (r, i₂) →
      ∃ r' i₁, run ⟨⟨scoping, some d, seed⟩, m₁⟩ fuel p = .ok (r', i₁) ∧
        (r' = r ∧ i₁.machine.env = i₂.machine.env ∨
          ∃ trace, r' = .error ⟨.stackExhausted d, trace⟩)) ∧
    ∀ fuel chain t, p.Within ⟨scoping, some d, seed⟩ fuel chain t → t.machine.calls.depth ≤ d := by
  have hle : CallStack.LimitLe (some d) limit := fun d' hd' => ⟨d, rfl, hlimit d' hd'⟩
  refine ⟨fun fuel r i₁ hrun hr => ?_, fun fuel r i₂ hrun => ?_,
    fun fuel chain t h => h.depth_le rfl⟩
  · rcases run_limits hle m₁ m₂ with
      ⟨d', i, trace, hd', hend⟩ | ⟨_, hend, -⟩ | ⟨r', i, i₂, hend, hrun₂, henv⟩
    · rw [hrun] at hend
      obtain ⟨rfl, -⟩ := Prod.mk.inj (Except.ok.inj hend)
      rw [← Option.some.inj hd'] at hr
      exact absurd rfl (hr trace)
    · rw [hrun] at hend
      cases hend
    · rw [hrun] at hend
      obtain ⟨rfl, rfl⟩ := Prod.mk.inj (Except.ok.inj hend)
      exact ⟨i₂, hrun₂, henv.symm⟩
  · rcases run_limits hle m₁ m₂ with
      ⟨d', i, trace, hd', hend⟩ | ⟨_, -, hend⟩ | ⟨r', i, i', hend, hrun₂, henv⟩
    · rw [← Option.some.inj hd'] at hend
      exact ⟨_, i, hend, .inr ⟨trace, rfl⟩⟩
    · rw [hrun] at hend
      cases hend
    · rw [hrun] at hrun₂
      obtain ⟨rfl, rfl⟩ := Prod.mk.inj (Except.ok.inj hrun₂)
      exact ⟨r, i, hend, .inl ⟨rfl, henv⟩⟩

/-- Three calls inside one another end alike under limits of three and of five. Under a limit of two
the third of them is refused. -/
theorem callLimit_is_cutOff_three_calls :
    ∃ (p : Program) (i₂ i₃ i₅ : Interpreter),
      Interpreter.run ⟨⟨.dynamic, some 3, .empty⟩, ⟨.empty, .empty none⟩⟩ 9 p =
        .ok (.ok (.int 7), i₃) ∧
      Interpreter.run ⟨⟨.dynamic, some 5, .empty⟩, ⟨.empty, .empty none⟩⟩ 9 p =
        .ok (.ok (.int 7), i₅) ∧
      i₅.machine.env = i₃.machine.env ∧
      Interpreter.run ⟨⟨.dynamic, some 2, .empty⟩, ⟨.empty, .empty none⟩⟩ 9 p =
        .ok (.error ⟨.stackExhausted 2, ["f", "main"]⟩, i₂) := by
  let p : Program := ⟨[.function ⟨"main", [], .call "f" []⟩, .function ⟨"f", [], .call "g" []⟩,
    .function ⟨"g", [], .integer 7⟩]⟩
  have hle : ∀ d', some 5 = some d' → 3 ≤ d' := fun d' h => Option.some.inj h ▸ by decide
  obtain ⟨hsame, -, -⟩ := Interpreter.callLimit_is_cutOff .dynamic .empty p ⟨.empty, .empty none⟩
    ⟨.empty, .empty none⟩ 3 (some 5) hle
  obtain ⟨i₅, hrun, henv⟩ := hsame 9 (.ok (.int 7)) _ rfl nofun
  exact ⟨p, _, _, i₅, rfl, hrun, henv, rfl⟩

end Scriptlet
