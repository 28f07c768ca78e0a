import Scriptlet.Proofs.Language.Rendering
import Scriptlet.Proofs.Evaluation.Steps
import Mathlib.Data.List.Forall2
import Mathlib.Order.Filter.AtTopBot.Basic

/-!
# Values as source text

The text of a value that is made of integers, truth values and arrays is an expression for the
value. `Value.ReadAs` says that the text of a value is read as an expression, in front of whatever
cannot go on with its last word, and `Expr.Yields` that an expression has a value on all machines
and leaves them as they are. Both go from the items of an array to the array (`ReadAs.array`,
`Yields.array`). Main statement: `Value.evaluate_parse_render`.
-/

namespace Scriptlet

open Scriptlet.Language Filter

/-- Values that are made of integers, truth values and arrays. -/
inductive Value.IsLiteral : Value → Prop
  | int (n : Integer) : IsLiteral (.int n)
  | bool (b : Bool) : IsLiteral (.bool b)
  | array {items : List Value} (h : ∀ v ∈ items, IsLiteral v) : IsLiteral (.array items)

attribute [simp] Value.IsLiteral.int Value.IsLiteral.bool

@[simp]
theorem Value.isLiteral_array_iff {items : List Value} :
    (Value.array items).IsLiteral ↔ ∀ v ∈ items, v.IsLiteral :=
  ⟨fun | .array h => h, .array⟩

/-! ### Reading -/

namespace Language

variable {c : Char} {s t u : List Char}

theorem settled_cons (hblank : isBlank c = false) (hsolidus : c ≠ '/') : Settled (c :: s) := by
  refine ⟨fun x hx => ?_, fun hcomment => ?_⟩
  · rw [← Option.some.inj hx]
    exact hblank
  · obtain ⟨rest, hrest⟩ := hcomment
    exact hsolidus (List.cons.inj hrest).1.symm

/-- No word that ends here goes on, and there is nothing to skip. -/
def Stops (s : List Char) : Prop :=
  Settled s ∧ ∀ c ∈ s.head?, Lexeme.isWordChar c = false

theorem stops_cons (h : c = ',' ∨ c = ']') : Stops (c :: s) := by
  have hchar : isBlank c = false ∧ c ≠ '/' ∧ Lexeme.isWordChar c = false := by
    rcases h with rfl | rfl <;> decide
  obtain ⟨hblank, hsolidus, hword⟩ := hchar
  refine ⟨settled_cons hblank hsolidus, fun x hx => ?_⟩
  rw [← Option.some.inj hx]
  exact hword

theorem symbol_append (text : String) (htext : text ∉ Lexeme.extendable) (ht : Trivia u t) :
    Symbol text (text.toList ++ u) t :=
  ⟨u, rfl, fun h => absurd h htext, ht⟩

end Language

namespace Value

variable {v : Value} {vs : List Value} {e : Expr} {es : List Expr}

/-- In front of anything that does not go on with its last word, the text of the value is read as
the expression and no more than it. -/
def ReadAs (v : Value) (e : Expr) : Prop :=
  ∀ u t, (∀ c ∈ u.head?, Lexeme.isWordChar c = false) → Trivia u t →
    Phrase 0 (v.render.toList ++ u) e t ∧ Settled (v.render.toList ++ u)

theorem render_int (n : Integer) : (int n).render = toString n.toInt := by
  rw [render]
  cases n.toInt <;> rfl

theorem readAs_int (n : Integer) : ReadAs (.int n) (.integer n) := by
  intro u t hu ht
  have hdigit : ∀ c ∈ u.head?, c.isDigit = false := by
    intro c hc
    by_contra h
    have hword := isWordChar_of_isDigit (Bool.eq_true_of_not_eq_false h)
    rw [hu c hc] at hword
    cases hword
  have hsettled : Settled ((toString n.toInt).toList ++ u) := by
    obtain ⟨c, cs, htext, hblank, hsolidus⟩ := exists_toList_toString_int n.toInt
    rw [htext]
    exact settled_cons hblank hsolidus
  rw [render_int]
  exact ⟨.integer (literal_toString n hdigit ht), hsettled⟩

theorem readAs_bool (b : Bool) : ReadAs (.bool b) (.boolean b) := by
  intro u t hu ht
  cases b with
  | true => exact ⟨.boolTrue ⟨u, rfl, hu, ht⟩, settled_cons (by decide) (by decide)⟩
  | false => exact ⟨.boolFalse ⟨u, rfl, hu, ht⟩, settled_cons (by decide) (by decide)⟩

/-- The items after the first are read up to the closing bracket. -/
theorem repeated_renderMoreItems (h : List.Forall₂ ReadAs vs es) (u : List Char) :
    Repeated (After (Symbol ",") Expression) ((renderMoreItems vs).toList ++ ']' :: u) es
      (']' :: u) ∧ Stops ((renderMoreItems vs).toList ++ ']' :: u) := by
  induction h with
  | nil => exact ⟨.nil, stops_cons (.inr rfl)⟩
  | @cons v e vs es hv _ ih =>
    -- A comma or the closing bracket follows the item, so that its last word ends there.
    obtain ⟨hmore, hsettled, hword⟩ := ih
    obtain ⟨hread, hbegin⟩ := hv _ _ hword (.done hsettled)
    have htext : (renderMoreItems (v :: vs)).toList ++ ']' :: u =
        ",".toList ++ ' ' :: (v.render.toList ++ ((renderMoreItems vs).toList ++ ']' :: u)) := by
      simp [renderMoreItems]
    rw [htext]
    have hcomma := symbol_append "," (by decide) (.blank (c := ' ') (by decide) (.done hbegin))
    exact ⟨.cons (.mk hcomma (hread.lift (Nat.zero_le 3))) hmore, stops_cons (.inl rfl)⟩

theorem separated_renderItems (h : List.Forall₂ ReadAs vs es) (u : List Char) :
    Separated (Symbol ",") Expression ((renderItems vs).toList ++ ']' :: u) es (']' :: u) ∧
      Settled ((renderItems vs).toList ++ ']' :: u) := by
  cases h with
  | nil => exact ⟨.nil, (stops_cons (.inr rfl)).1⟩
  | @cons v e vs es hv hvs =>
    obtain ⟨hmore, hsettled, hword⟩ := repeated_renderMoreItems hvs u
    obtain ⟨hread, hbegin⟩ := hv _ _ hword (.done hsettled)
    rw [renderItems, String.toList_append, List.append_assoc]
    exact ⟨.cons (hread.lift (Nat.zero_le 3)) hmore, hbegin⟩

theorem ReadAs.array (h : List.Forall₂ ReadAs vs es) : ReadAs (.array vs) (.array es) := by
  intro u t _ ht
  obtain ⟨hitems, hsettled⟩ := separated_renderItems h u
  have htext : (Value.array vs).render.toList ++ u =
      "[".toList ++ ((renderItems vs).toList ++ ']' :: u) := by
    simp [render]
  rw [htext]
  have hopen := symbol_append "[" (by decide) (.done hsettled)
  have hclose := symbol_append "]" (by decide) ht
  exact ⟨.array hopen hitems hclose, settled_cons (by decide) (by decide)⟩

/-- A text that is read as an expression in front of anything is parsed as the expression. -/
theorem ReadAs.parse (h : ReadAs v e) : Expr.parse v.render = .ok e := by
  obtain ⟨hread, hsettled⟩ := h [] [] (by simp) (.done (by decide))
  rw [List.append_nil] at hread hsettled
  exact parse_of_expression (.done hsettled) (hread.lift (Nat.zero_le 3))

end Value

/-! ### Evaluation -/

namespace Expr

variable {es : List Expr} {vs : List Value}

/-- With enough fuel the expression has the value, and its evaluation leaves the machine as it
is. -/
def Yields (e : Expr) (v : Value) : Prop :=
  ∀ᶠ fuel in atTop, ∀ ctx, Eval.evaluate ctx fuel e = pure v

theorem yields_of_succ {e : Expr} {v : Value}
    (h : ∀ᶠ fuel in atTop, ∀ ctx, Eval.evaluate ctx (fuel + 1) e = pure v) : e.Yields v := by
  unfold Yields
  rw [← map_add_atTop_eq_nat 1, eventually_map]
  exact h

theorem yields_integer (n : Integer) : Yields (.integer n) (.int n) :=
  yields_of_succ (.of_forall fun _ _ => rfl)

theorem yields_boolean (b : Bool) : Yields (.boolean b) (.bool b) :=
  yields_of_succ (.of_forall fun _ _ => rfl)

/-- The items have their values, one after the other. -/
theorem eventually_mapM (h : List.Forall₂ Yields es vs) :
    ∀ᶠ fuel in atTop, ∀ ctx, es.mapM (Eval.evaluate ctx fuel) = pure vs := by
  induction h with
  | nil => exact .of_forall fun _ _ => rfl
  | cons he _ ih =>
    filter_upwards [he, ih] with fuel he hes ctx
    rw [List.mapM_cons, he ctx, hes ctx]
    rfl

theorem Yields.array (h : List.Forall₂ Yields es vs) : Yields (.array es) (.array vs) := by
  refine yields_of_succ ?_
  filter_upwards [eventually_mapM h] with fuel hes ctx
  show (es.mapM (Eval.evaluate ctx fuel) >>= fun items => pure (Value.array items)) = _
  rw [hes ctx]
  rfl

end Expr

namespace Value

theorem exists_exprs {vs : List Value} (h : ∀ v ∈ vs, ∃ e, v.ReadAs e ∧ e.Yields v) :
    ∃ es, List.Forall₂ ReadAs vs es ∧ List.Forall₂ Expr.Yields es vs := by
  induction vs with
  | nil => exact ⟨[], .nil, .nil⟩
  | cons v vs ih =>
    obtain ⟨⟨e, hread, hyields⟩, hvs⟩ := List.forall_mem_cons.1 h
    obtain ⟨es, hreads, hes⟩ := ih hvs
    exact ⟨e :: es, .cons hread hreads, .cons hyields hes⟩

/-- A literal value has an expression that its text is read as and that yields it. -/
theorem IsLiteral.exists_expr {v : Value} (h : v.IsLiteral) : ∃ e, v.ReadAs e ∧ e.Yields v := by
  induction h with
  | int n => exact ⟨_, readAs_int n, Expr.yields_integer n⟩
  | bool b => exact ⟨_, readAs_bool b, Expr.yields_boolean b⟩
  | array _ ih =>
    obtain ⟨es, hread, hyields⟩ := exists_exprs ih
    exact ⟨.array es, .array hread, .array hyields⟩

/-- The text of a literal value is source text for it: it is parsed as an expression that has this
value on every interpreter and with any functions, and the interpreter is as before. -/
theorem evaluate_parse_render (v : Value) (h : v.IsLiteral) :
    ∃ e, Expr.parse v.render = .ok e ∧ ∃ least, ∀ fuel, least ≤ fuel →
      ∀ (i : Interpreter) (functions : FunctionTable), i.evaluate fuel functions e =
        .ok (.ok v, i) := by
  obtain ⟨e, hread, hyields⟩ := h.exists_expr
  obtain ⟨least, hleast⟩ := eventually_atTop.1 hyields
  refine ⟨e, hread.parse, least, fun fuel hfuel i functions => ?_⟩
  unfold Interpreter.evaluate
  rw [hleast fuel hfuel]
  rfl

/-- The least integer, an empty array and truth values in nested arrays. -/
theorem evaluate_parse_render_nested :
    ∃ v : Value, v.IsLiteral ∧ v.render = "[-9223372036854775808, [], [[true, 7], false]]" ∧
      ∃ e, Expr.parse "[-9223372036854775808, [], [[true, 7], false]]" = .ok e ∧
        ∃ least, ∀ fuel, least ≤ fuel → ∀ (i : Interpreter) (functions : FunctionTable),
          i.evaluate fuel functions e = .ok (.ok v, i) := by
  let v : Value :=
    .array [.int Int64.minValue, .array [], .array [.array [.bool true, .int 7], .bool false]]
  have hv : v.IsLiteral := by simp [v]
  have htext : v.render = "[-9223372036854775808, [], [[true, 7], false]]" := by decide
  exact ⟨v, hv, htext, htext ▸ evaluate_parse_render v hv⟩

end Value

end Scriptlet
