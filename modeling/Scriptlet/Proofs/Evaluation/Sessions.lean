import Scriptlet.Proofs.Evaluation.Fuel
import Scriptlet.Proofs.Evaluation.Safety

/-!
# Sessions

One interpreter answers requests one after the other: to run a program, or to evaluate an expression
with some functions. `Session settings past i` says that a new interpreter with these settings has
answered the requests in `past`, the latest first, whether with values or with errors, and is `i`
now.

Between two requests the interpreter is idle: no call is active, and its scopes have the shape of
the seed (`Session.idle`). A run starts from the seed, so it ends as it does on a new interpreter
and makes everything before it irrelevant: the interpreter is what a new one becomes by the requests
from the last run on (`Session.sinceRun`). The fuel of the single requests does not matter either,
since each ends in one way at most (`Session.unique`). Main statement: sessions are isolated by
their runs (`Session.isolated_by_runs`).
-/

namespace Scriptlet

/-- What an interpreter can be asked for. -/
inductive Request where
  | run (p : Program)
  | evaluate (functions : FunctionTable) (e : Expr)

namespace Interpreter

variable {i i' : Interpreter} {settings : Settings}

/-- Does what it is asked for. -/
def answer (i : Interpreter) (fuel : Nat) :
    Request → Except Interrupt (Except EvalError Value × Interpreter)
  | .run p => i.run fuel p
  | .evaluate functions e => i.evaluate fuel functions e

/-- No call is active, and the scopes are those of the seed as far as their number, their parents
and the current one go. -/
structure Idle (settings : Settings) (i : Interpreter) : Prop where
  settings_eq : i.settings = settings
  calls_eq : i.machine.calls = .empty settings.callLimit
  sameShape : Environment.SameShape settings.seed i.machine.env

theorem idle_ofSettings (settings : Settings) : (ofSettings settings).Idle settings :=
  ⟨rfl, rfl, .refl _⟩

/-- A request ends in one way at most, whatever the fuel. -/
theorem answer_unique {fuel fuel' : Nat} {request : Request}
    {r r' : Except EvalError Value × Interpreter} (h : i.answer fuel request = .ok r)
    (h' : i.answer fuel' request = .ok r') : r = r' := by
  cases request with
  | run p => exact run_unique h h'
  | evaluate functions e => exact evaluate_unique h h'

/-- An idle interpreter answers without a fault and is idle afterwards. -/
theorem Idle.answer (h : i.Idle settings) (hseed : settings.seed.WellFormed) (fuel : Nat)
    (request : Request) : (∀ f, i.answer fuel request ≠ .error (.fault f)) ∧
      ∀ r i', i.answer fuel request = .ok (r, i') → i'.Idle settings := by
  obtain ⟨rfl, hcalls, hshape⟩ := h
  cases request with
  | run p =>
    obtain ⟨hfault, hend⟩ := run_of_wellFormed hseed fuel p
    refine ⟨hfault, fun r i' hrun => ?_⟩
    obtain ⟨hsettings, hshape', hcalls'⟩ := hend r i' hrun
    exact ⟨hsettings, hcalls', hshape'⟩
  | evaluate functions e =>
    obtain ⟨hfault, hend⟩ := evaluate_of_wellFormed (hshape.wellFormed hseed) fuel functions e
    refine ⟨hfault, fun r i' hrun => ?_⟩
    obtain ⟨hsettings, hshape', hcalls'⟩ := hend r i' hrun
    exact ⟨hsettings, hcalls'.trans hcalls, hshape.trans hshape'⟩

/-- A run takes nothing from the interpreter but its settings. -/
theorem run_eq_ofSettings (h : i.settings = settings) (fuel : Nat) (p : Program) :
    i.run fuel p = (ofSettings settings).run fuel p := by
  subst h
  rfl

end Interpreter

/-- A new interpreter with the settings has answered these requests, the latest first, and is `i`
now. -/
inductive Session (settings : Settings) : List Request → Interpreter → Prop
  | start : Session settings [] (.ofSettings settings)
  | answered {past : List Request} {i i' : Interpreter} {fuel : Nat} {request : Request}
    {r : Except EvalError Value} (hpast : Session settings past i)
    (hanswer : i.answer fuel request = .ok (r, i')) : Session settings (request :: past) i'

/-- The requests from the last run on, that run included, or all of them if there was none. The
latest is the first of the list. -/
def Request.sinceRun : List Request → List Request
  | [] => []
  | .run p :: _ => [.run p]
  | .evaluate functions e :: past => .evaluate functions e :: sinceRun past

namespace Session

open Interpreter

variable {settings : Settings} {past past' : List Request} {i i' : Interpreter}

theorem idle (h : Session settings past i) (hseed : settings.seed.WellFormed) :
    i.Idle settings := by
  induction h with
  | start => exact idle_ofSettings settings
  | answered _ hanswer ih => exact (ih.answer hseed _ _).2 _ _ hanswer

theorem settings_eq (h : Session settings past i) : i.settings = settings := by
  induction h with
  | start => rfl
  | @answered past i i' fuel request r _ hanswer ih =>
    -- Both kinds of requests are performed, and performing keeps the settings.
    cases request with
    | run p =>
      obtain ⟨m', -, rfl⟩ := perform_eq_ok_iff.1 hanswer
      exact ih
    | evaluate functions e =>
      obtain ⟨m', -, rfl⟩ := perform_eq_ok_iff.1 hanswer
      exact ih

/-- The requests alone determine the interpreter. -/
theorem unique (h : Session settings past i) (h' : Session settings past i') : i = i' := by
  induction h generalizing i' with
  | start =>
    cases h'
    rfl
  | answered _ hanswer ih =>
    cases h' with
    | answered hpast' hanswer' =>
      obtain rfl := ih hpast'
      exact (Prod.mk.inj (answer_unique hanswer hanswer')).2

/-- The interpreter is what a new one becomes by the requests since the last run. -/
theorem sinceRun (h : Session settings past i) : Session settings (Request.sinceRun past) i := by
  induction h with
  | start => exact .start
  | @answered past i i' fuel request r hpast hanswer ih =>
    cases request with
    | run p =>
      have hrun : (ofSettings settings).answer fuel (.run p) = .ok (r, i') :=
        (run_eq_ofSettings hpast.settings_eq fuel p).symm.trans hanswer
      exact .answered .start hrun
    | evaluate functions e => exact .answered ih hanswer

/-- Two sessions with the same requests since their last runs have led to the same interpreter. -/
theorem eq_of_sinceRun_eq (h : Session settings past i) (h' : Session settings past' i')
    (hsame : Request.sinceRun past' = Request.sinceRun past) : i' = i := by
  have hrecent := h'.sinceRun
  rw [hsame] at hrecent
  exact hrecent.unique h.sinceRun

/-- Sessions are isolated by their runs. Before and after each request the interpreter is idle, and
none meets a fault. A run ends as it does on a new interpreter with the same settings and leaves the
same interpreter. What an evaluation ends with depends only on the requests since the last run: it
is the same in any two sessions that agree on them. No end depends on the fuel. -/
theorem isolated_by_runs (settings : Settings) (hseed : settings.seed.WellFormed)
    (past : List Request) (i : Interpreter) (h : Session settings past i) :
    (i.Idle settings ∧ ∀ fuel request, (∀ f, i.answer fuel request ≠ .error (.fault f)) ∧
      ∀ r i', i.answer fuel request = .ok (r, i') → i'.Idle settings) ∧
    (∀ fuel p, i.run fuel p = (ofSettings settings).run fuel p) ∧
    (∀ past' i', Session settings past' i' → Request.sinceRun past' = Request.sinceRun past →
      ∀ fuel functions e, i'.evaluate fuel functions e = i.evaluate fuel functions e) ∧
    ∀ fuel fuel' request r r', i.answer fuel request = .ok r → i.answer fuel' request = .ok r' →
      r = r' := by
  refine ⟨⟨h.idle hseed, (h.idle hseed).answer hseed⟩, run_eq_ofSettings h.settings_eq, ?_,
    fun _ _ _ _ _ => answer_unique⟩
  intro past' i' h' hsame fuel functions e
  rw [h.eq_of_sinceRun_eq h' hsame]

end Session

/-- A session in which a call fails, then a run fails inside `main`, and then the global is read.
After the same run on a new interpreter the global has the same value, which `main` has assigned. -/
theorem isolated_by_runs_after_failure :
    ∃ (settings : Settings) (p : Program) (i i' : Interpreter),
      Program.parse "global g = s; define main() \x7bg = false; f();\x7d" = .ok p ∧
      Session settings [.run p, .evaluate .empty (.call "g" [])] i ∧ Session settings [.run p] i' ∧
      i.Idle settings ∧ (∃ j, i'.evaluate 1 .empty (.variable "g") = .ok (.ok (.bool false), j)) ∧
      i'.evaluate 1 .empty (.variable "g") = i.evaluate 1 .empty (.variable "g") := by
  let globals : Bindings := (∅ : Bindings).insert "s" (.bool true)
  let settings : Settings := ⟨.lexical, some 1, .ofRoot globals⟩
  let p : Program := ⟨[.global ⟨"g", .variable "s"⟩, .function ⟨"main", [],
    .block [.assign "g" (.boolean false), .call "f" []]⟩]⟩
  have hseed : settings.seed.WellFormed := Environment.wellFormed_ofRoot globals
  obtain ⟨j, hcall⟩ :
      ∃ j, (Interpreter.ofSettings settings).answer 1 (.evaluate .empty (.call "g" [])) =
        .ok (.error ⟨.undefinedFunction "g", []⟩, j) := ⟨_, rfl⟩
  obtain ⟨i', hrun, hread⟩ : ∃ i', (Interpreter.ofSettings settings).answer 3 (.run p) =
      .ok (.error ⟨.undefinedFunction "f", ["main"]⟩, i') ∧
      ∃ k, i'.evaluate 1 .empty (.variable "g") = .ok (.ok (.bool false), k) := ⟨_, rfl, _, rfl⟩
  have hfirst : Session settings [.evaluate .empty (.call "g" [])] j := .answered .start hcall
  obtain ⟨-, hfresh, -, -⟩ := Session.isolated_by_runs settings hseed _ j hfirst
  have hi : Session settings [.run p, .evaluate .empty (.call "g" [])] i' :=
    .answered hfirst ((hfresh 3 p).trans hrun)
  have hi' : Session settings [.run p] i' := .answered .start hrun
  obtain ⟨⟨hidle, -⟩, -, hsame, -⟩ := Session.isolated_by_runs settings hseed _ i' hi
  exact ⟨settings, p, i', i', rfl, hi, hi', hidle, hread, hsame _ i' hi' rfl 1 .empty _⟩

end Scriptlet
