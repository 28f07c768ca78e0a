import Scriptlet.Proofs.Evaluation.FunctionTables
import Scriptlet.Proofs.Evaluation.Nesting

/-!
# Source order

A run takes two things from a program: the table of its functions, and its globals in source order.
Two programs with the same globals in the same order and the same functions in any order, however
the two are interleaved, have the same table or none. With a table they run alike. Without one both
fail at the first function that repeats a name, and nothing of them is evaluated, not even the
initializer of a global that comes before it. Main statement: `Interpreter.run_source_order`.
-/

namespace Scriptlet

namespace Interpreter

open Eval

variable {i : Interpreter} {p q : Program} {kind : ErrorKind}

/-- A run depends on the function table and the globals only. -/
theorem run_congr (hfunctions : FunctionTable.ofProgram p = FunctionTable.ofProgram q)
    (hglobals : p.globals = q.globals) (fuel : Nat) : i.run fuel p = i.run fuel q := by
  unfold run
  simp only [hfunctions, runProgram_eq, hglobals]

/-- A program without a function table fails on the seed, with whatever fuel. -/
theorem run_of_ofProgram_eq_error (h : FunctionTable.ofProgram p = .error kind) (fuel : Nat) :
    i.run fuel p = .ok (.error ⟨kind, []⟩, ofSettings i.settings) := by
  unfold run
  rw [h]
  rfl

/-- Nothing is evaluated in a run of a program without a function table. -/
theorem not_within_of_ofProgram_eq_error (h : FunctionTable.ofProgram p = .error kind)
    {settings : Settings} {fuel : Nat} {chain : List String} {t : Task} :
    ¬ p.Within settings fuel chain t := by
  rintro ⟨hfunctions, -, -⟩
  rw [h] at hfunctions
  cases hfunctions

/-- Source order matters for globals only. Take two programs with the same globals and with the same
functions in some other order. If the names of the functions differ, both have the table of these
functions and run alike. Otherwise each fails at its first function that repeats a name: no task is
begun, and the environment is the seed. -/
theorem run_source_order (i : Interpreter) (p q : Program) (hglobals : p.globals = q.globals)
    (hfunctions : p.functions.Perm q.functions) :
    (p.functionNames.Nodup →
      (∃ functions, FunctionTable.ofProgram p = .ok functions ∧
        FunctionTable.ofProgram q = .ok functions ∧
        ∀ name f, functions.get? name = some f ↔ f ∈ p.functions ∧ f.name = name) ∧
      ∀ fuel, i.run fuel p = i.run fuel q) ∧
    (¬ p.functionNames.Nodup → ∀ r ∈ [p, q], ∃ name, r.FirstRepeated name ∧
      (∀ fuel, i.run fuel r = .ok (.error ⟨.duplicateFunction name, []⟩, ofSettings i.settings)) ∧
      ∀ fuel chain t, ¬ r.Within i.settings fuel chain t) := by
  constructor
  · intro hnodup
    obtain ⟨functions, hp, hq⟩ := FunctionTable.ofProgram_eq_of_perm hfunctions hnodup
    refine ⟨⟨functions, hp, hq, fun name f => FunctionTable.get?_ofProgram_eq_some_iff hp⟩, ?_⟩
    exact run_congr (hp.trans hq.symm) hglobals
  · intro hrepeated r hr
    have hnames : p.functionNames.Perm q.functionNames := hfunctions.map _
    have hr : ¬ r.functionNames.Nodup := by
      rcases List.mem_pair.1 hr with rfl | rfl
      · exact hrepeated
      · rwa [← hnames.nodup_iff]
    obtain ⟨name, hname, htable⟩ := FunctionTable.ofProgram_of_not_nodup hr
    exact ⟨name, hname, run_of_ofProgram_eq_error htable,
      fun _ _ _ => not_within_of_ofProgram_eq_error htable⟩

end Interpreter

/-- Two programs that differ in where `main` stands yield the same value. Two that define `f` twice
both fail for that, although the initializer of their global cannot be evaluated either. -/
theorem run_source_order_interleaved :
    ∃ p q p' q' : Program,
      Program.parse "global g = s; define f() \x7bg;\x7d define main() \x7bf();\x7d" = .ok p ∧
      Program.parse "define main() \x7bf();\x7d global g = s; define f() \x7bg;\x7d" = .ok q ∧
      Program.parse "global g = t; define f() \x7bg;\x7d define f() \x7bs;\x7d" = .ok p' ∧
      Program.parse "define f() \x7bs;\x7d define f() \x7bg;\x7d global g = t;" = .ok q' ∧
      ∃ i : Interpreter, (∃ i', i.run 5 q = .ok (.ok (.bool true), i')) ∧
        (∀ fuel, i.run fuel p = i.run fuel q) ∧
        (∀ r ∈ [p', q'], ∃ name, r.FirstRepeated name ∧ ∀ fuel, i.run fuel r =
          .ok (.error ⟨.duplicateFunction name, []⟩, .ofSettings i.settings)) := by
  let global (name : String) : Definition := .global ⟨"g", .variable name⟩
  let function (name : String) (e : Expr) : Definition := .function ⟨name, [], .block [e]⟩
  let p : Program := ⟨[global "s", function "f" (.variable "g"), function "main" (.call "f" [])]⟩
  let q : Program := ⟨[function "main" (.call "f" []), global "s", function "f" (.variable "g")]⟩
  let p' : Program := ⟨[global "t", function "f" (.variable "g"), function "f" (.variable "s")]⟩
  let q' : Program := ⟨[function "f" (.variable "s"), function "f" (.variable "g"), global "t"]⟩
  let i : Interpreter := .ofSettings
    ⟨.lexical, none, .ofRoot ((∅ : Bindings).insert "s" (.bool true))⟩
  obtain ⟨i', hrun⟩ : ∃ i', i.run 5 q = .ok (.ok (.bool true), i') := ⟨_, rfl⟩
  obtain ⟨hdistinct, -⟩ := Interpreter.run_source_order i p q rfl (.swap ..)
  obtain ⟨-, hrepeated⟩ := Interpreter.run_source_order i p' q' rfl (.swap ..)
  refine ⟨p, q, p', q', rfl, rfl, rfl, rfl, i, ⟨i', hrun⟩, (hdistinct (by decide)).2,
    fun r hr => ?_⟩
  obtain ⟨name, hname, hfails, -⟩ := hrepeated (by decide) r hr
  exact ⟨name, hname, hfails⟩

end Scriptlet
