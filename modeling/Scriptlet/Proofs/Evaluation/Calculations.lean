import Scriptlet.Proofs.Evaluation.Steps
import Scriptlet.Proofs.Tree.Parts

/-!
# Calculations

A calculation is an expression of integers and operators only. It has an exact meaning over all
integers, of whatever size (`exact`, `holds`), and each of its steps can be judged by the exact
meaning of its operands alone: an operand that is a truth value, a divisor that is zero, or a result
out of range (`failure?`). Main statement: evaluation gives the exact meaning if no step fails,
gives the error of the first failing step in post-order otherwise, and in no case changes anything
(`Interpreter.evaluate_calculation`).

The exact meaning of a step after a failed one is of no use, but it is there, so that no definition
here depends on what was reached. Up to the first failure all results are in range, where the
integers of the language and their exact values are in step (`apply_value`).
-/

namespace Scriptlet

/-! ### Exact results -/

/-- The integer is one of the language: at least `-2 ^ 63` and at most `2 ^ 63 - 1`. -/
def Integer.InRange (n : Int) : Prop :=
  -9223372036854775808 ≤ n ∧ n ≤ 9223372036854775807

instance (n : Int) : Decidable (Integer.InRange n) :=
  inferInstanceAs (Decidable (_ ∧ _))

theorem Integer.inRange_toInt (n : Integer) : InRange n.toInt :=
  ⟨n.le_toInt, Int.le_sub_one_of_lt n.toInt_lt⟩

theorem Integer.toInt_ofInt {n : Int} (h : InRange n) : (Int64.ofInt n).toInt = n :=
  Int64.toInt_ofInt_of_le h.1 (Int.lt_of_le_sub_one h.2)

theorem Integer.ofInt_eq_iff {k : Int} {n : Integer} (h : InRange k) :
    Int64.ofInt k = n ↔ n.toInt = k := by
  constructor
  · rintro rfl
    exact toInt_ofInt h
  · intro hn
    rw [← hn, Int64.ofInt_toInt]

theorem Value.exact_eq (operation : String) (n : Int) : Value.exact operation n =
    if Integer.InRange n then .ok (.int (Int64.ofInt n)) else .error (.overflow operation) := by
  have hrange : (-9223372036854775808 ≤ n ∧ n < 9223372036854775808) ↔ Integer.InRange n := by
    unfold Integer.InRange
    omega
  simp only [Value.exact, Integer.ofInt?, hrange]
  by_cases h : Integer.InRange n
  · simp only [if_pos h]
  · simp only [if_neg h]

namespace Operator

/-- What an operator computes over all integers, with division toward zero. Comparisons compute
nothing. -/
def exact (a b : Int) : Operator → Int
  | add => a + b
  | subtract => a - b
  | multiply => a * b
  | divide => a.tdiv b
  | lessThan | lessOrEqual | greaterThan | greaterOrEqual | equal | notEqual => 0

/-- Whether a comparison holds between integers. Other operators compare nothing. -/
def holds (a b : Int) : Operator → Bool
  | lessThan => a < b
  | lessOrEqual => a ≤ b
  | greaterThan => a > b
  | greaterOrEqual => a ≥ b
  | equal => a = b
  | notEqual => a ≠ b
  | add | subtract | multiply | divide => false

/-- The name of what an operator computes. -/
def operation? : Operator → Option String
  | add => some "addition"
  | subtract => some "subtraction"
  | multiply => some "multiplication"
  | divide => some "division"
  | lessThan | lessOrEqual | greaterThan | greaterOrEqual | equal | notEqual => none

/-- What goes wrong with an operator, judged by the exact operands and the exact result. -/
def failure? (a b : Int) (op : Operator) : Option ErrorKind :=
  if op = divide ∧ b = 0 then some .divisionByZero
  else if Integer.InRange (op.exact a b) then none
  else op.operation?.map .overflow

/-- The exact result as a value of the language. -/
def value (a b : Int) (op : Operator) : Value :=
  if op.isComparison then .bool (op.holds a b) else .int (Int64.ofInt (op.exact a b))

variable {op : Operator} {a b : Int}

/-- What comparisons compute is in range. -/
theorem inRange_exact_of_isComparison (h : op.isComparison = true) :
    Integer.InRange (op.exact a b) := by
  have hzero : op.exact a b = 0 := by
    cases op <;> first | rfl | cases h
  rw [hzero]
  decide

theorem failure?_eq_none_iff :
    op.failure? a b = none ↔ (op = divide → b ≠ 0) ∧ Integer.InRange (op.exact a b) := by
  by_cases hzero : op = divide ∧ b = 0
  · simp [failure?, hzero]
  · have hdivisor : op = divide → b ≠ 0 := fun hop hb => hzero ⟨hop, hb⟩
    by_cases hrange : Integer.InRange (op.exact a b)
    · simpa [failure?, hzero, hrange] using hdivisor
    · have hcomputes : op.operation? ≠ none := by
        intro hnone
        refine hrange (inRange_exact_of_isComparison ?_)
        cases op <;> first | rfl | cases hnone
      simp [failure?, hzero, hrange, hcomputes]

/-- What has a name and does not divide by zero is computed exactly, or overflows under its name. -/
theorem exact_of_operation? (op : Operator) (a b : Int) {operation : String}
    (hzero : ¬ (op = divide ∧ b = 0)) (hop : op.operation? = some operation) :
    Value.exact operation (op.exact a b) =
      (op.failure? a b).elim (.ok (.int (Int64.ofInt (op.exact a b)))) .error := by
  rw [Value.exact_eq, failure?, if_neg hzero, hop]
  split <;> rfl

/-- On integers an operator fails or gives the exact result. -/
theorem applyInt_eq (op : Operator) (a b : Int) :
    op.applyInt a b = (op.failure? a b).elim (.ok (op.value a b)) .error := by
  cases op with
  | add => exact exact_of_operation? add a b (by simp) rfl
  | subtract => exact exact_of_operation? subtract a b (by simp) rfl
  | multiply => exact exact_of_operation? multiply a b (by simp) rfl
  | divide =>
    by_cases hzero : b = 0
    · rw [hzero]
      rfl
    · rw [applyInt, if_neg hzero]
      exact exact_of_operation? divide a b (by simpa using hzero) rfl
  | _ =>
    rw [failure?_eq_none_iff.2 ⟨by simp, inRange_exact_of_isComparison rfl⟩]
    rfl

end Operator

/-! ### Calculations and their steps -/

/-- An expression of integers and operators only. -/
inductive Calculation where
  | integer (n : Integer)
  | binary (op : Operator) (left right : Calculation)

namespace Calculation

/-- The calculation as an expression of the language. -/
def toExpr : Calculation → Expr
  | integer n => .integer n
  | binary op left right => .binary op left.toExpr right.toExpr

/-- Whether the outermost operator compares, so that the result is a truth value. -/
def isComparison : Calculation → Bool
  | integer _ => false
  | binary op _ _ => op.isComparison

/-- The exact result. -/
def exact : Calculation → Int
  | integer n => n.toInt
  | binary op left right => op.exact left.exact right.exact

/-- Whether the outermost comparison holds between the exact results of its operands. -/
def holds : Calculation → Bool
  | integer _ => false
  | binary op left right => op.holds left.exact right.exact

/-- The calculations in a calculation in post-order from left to right: operands before what is
computed from them. -/
def postOrder : Calculation → List Calculation
  | integer n => [integer n]
  | binary op left right => left.postOrder ++ right.postOrder ++ [binary op left right]

/-- What goes wrong in the last step, which applies the outermost operator to the exact operands. -/
def failure? : Calculation → Option ErrorKind
  | integer _ => none
  | binary op left right =>
    if left.isComparison ∨ right.isComparison then some (.typeMismatch "int" "bool")
    else op.failure? left.exact right.exact

/-- What goes wrong first. -/
def firstFailure? (c : Calculation) : Option ErrorKind :=
  c.postOrder.findSome? failure?

/-- Nothing goes wrong: no operand is a comparison, no divisor is zero and no result of an
arithmetic operator is out of range. -/
structure Sound (c : Calculation) : Prop where
  operands : ∀ op left right, binary op left right ∈ c.postOrder →
    left.isComparison = false ∧ right.isComparison = false
  divisors : ∀ left right, binary .divide left right ∈ c.postOrder → right.exact ≠ 0
  results : ∀ op left right, binary op left right ∈ c.postOrder → op.isComparison = false →
    Integer.InRange (op.exact left.exact right.exact)

variable {c left right : Calculation} {op : Operator}

theorem mem_postOrder_self (c : Calculation) : c ∈ c.postOrder := by
  cases c <;> simp [postOrder]

theorem failure?_binary_eq_none_iff : (binary op left right).failure? = none ↔
    (left.isComparison = false ∧ right.isComparison = false) ∧
      (op = .divide → right.exact ≠ 0) ∧ Integer.InRange (op.exact left.exact right.exact) := by
  rw [failure?, ← Operator.failure?_eq_none_iff]
  cases left.isComparison <;> cases right.isComparison <;> simp

theorem inRange_of_failure?_eq_none (h : c.failure? = none) : Integer.InRange c.exact := by
  cases c with
  | integer n => exact Integer.inRange_toInt n
  | binary op left right => exact (failure?_binary_eq_none_iff.1 h).2.2

/-- A calculation is sound if no step of it fails. -/
theorem sound_iff : c.Sound ↔ c.firstFailure? = none := by
  rw [firstFailure?, List.findSome?_eq_none_iff]
  constructor
  · intro hsound d hd
    cases d with
    | integer n => rfl
    | binary op left right =>
      refine failure?_binary_eq_none_iff.2 ⟨hsound.operands op left right hd, ?_, ?_⟩
      · rintro rfl
        exact hsound.divisors left right hd
      · cases hop : op.isComparison with
        | true => exact Operator.inRange_exact_of_isComparison hop
        | false => exact hsound.results op left right hd hop
  · intro hnone
    have hstep (op : Operator) (left right : Calculation)
        (hd : binary op left right ∈ c.postOrder) :=
      failure?_binary_eq_none_iff.1 (hnone _ hd)
    exact {
      operands := fun op left right hd => (hstep op left right hd).1
      divisors := fun left right hd => (hstep .divide left right hd).2.1 rfl
      results := fun op left right hd _ => (hstep op left right hd).2.2 }

/-- What goes wrong in the operands goes wrong first, and in the left one before the right one. -/
theorem firstFailure?_binary : (binary op left right).firstFailure? =
    (left.firstFailure?.or right.firstFailure?).or (binary op left right).failure? := by
  simp [firstFailure?, postOrder, List.findSome?_append, Option.or_assoc]

theorem inRange_of_firstFailure?_eq_none (h : c.firstFailure? = none) : Integer.InRange c.exact :=
  inRange_of_failure?_eq_none (List.findSome?_eq_none_iff.1 h c (mem_postOrder_self c))

/-! ### Evaluation -/

/-- The exact result as a value of the language. -/
def value : Calculation → Value
  | integer n => .int n
  | binary op left right => op.value left.exact right.exact

/-- What the evaluation ends with. -/
def result (c : Calculation) : Except EvalError Value :=
  c.firstFailure?.elim (.ok c.value) fun kind => .error ⟨kind, []⟩

theorem value_of_isComparison (h : c.isComparison = true) : c.value = .bool c.holds := by
  cases c with
  | integer n => cases h
  | binary op left right => exact if_pos h

theorem value_of_not_isComparison (h : c.isComparison = false) :
    c.value = .int (Int64.ofInt c.exact) := by
  cases c with
  | integer n => exact congrArg Value.int (Int64.ofInt_toInt n).symm
  | binary op left right => exact if_neg (Bool.eq_false_iff.1 h)

/-- On operands in range an operator does what the exact results say. -/
theorem apply_value (hleft : Integer.InRange left.exact) (hright : Integer.InRange right.exact) :
    op.apply left.value right.value =
      (binary op left right).failure?.elim (.ok (binary op left right).value) .error := by
  cases hl : left.isComparison with
  | true =>
    rw [failure?, if_pos (.inl hl), value_of_isComparison hl]
    rfl
  | false =>
    cases hr : right.isComparison with
    | true =>
      rw [failure?, if_pos (.inr hr), value_of_not_isComparison hl, value_of_isComparison hr]
      rfl
    | false =>
      have hneither : ¬ (left.isComparison = true ∨ right.isComparison = true) := by simp [hl, hr]
      rw [failure?, if_neg hneither, value_of_not_isComparison hl, value_of_not_isComparison hr,
        value, ← Operator.applyInt_eq]
      show op.applyInt (Int64.ofInt left.exact).toInt (Int64.ofInt right.exact).toInt = _
      rw [Integer.toInt_ofInt hleft, Integer.toInt_ofInt hright]

/-- With enough fuel a calculation ends as its exact results say, on the machine that it began
on. -/
theorem evaluate_toExpr (ctx : Context) {fuel : Nat} (hfuel : c.toExpr.height ≤ fuel)
    (m : Machine) : Eval.evaluate ctx fuel c.toExpr m = .ok (c.result, m) := by
  induction c generalizing fuel with
  | integer n =>
    obtain ⟨rest, rfl⟩ : ∃ rest, fuel = rest + 1 :=
      ⟨fuel - 1, by have := Expr.height_pos (integer n).toExpr; omega⟩
    rfl
  | binary op left right ihleft ihright =>
    have hparts : ∀ d ∈ (binary op left right).toExpr.children, d.height < fuel :=
      fun d hd => Nat.lt_of_lt_of_le (Expr.height_lt_of_mem_children hd) hfuel
    obtain ⟨hlow, hlow'⟩ : left.toExpr.height < fuel ∧ right.toExpr.height < fuel := by
      simpa [toExpr, Expr.children] using hparts
    obtain ⟨rest, rfl⟩ : ∃ rest, fuel = rest + 1 := ⟨fuel - 1, by omega⟩
    have hleft := ihleft (Nat.le_of_lt_succ hlow)
    have hright := ihright (Nat.le_of_lt_succ hlow')
    rw [result] at hleft hright
    rw [result, firstFailure?_binary]
    show (Eval.evaluate ctx rest left.toExpr >>= fun a =>
      Eval.evaluate ctx rest right.toExpr >>= fun b => Eval.check (op.apply a b)) m = _
    cases hl : left.firstFailure? with
    | some kind =>
      rw [hl] at hleft
      exact Eval.bind_apply_of_error hleft _
    | none =>
      rw [hl] at hleft
      rw [Eval.bind_apply_of_ok hleft]
      cases hr : right.firstFailure? with
      | some kind =>
        rw [hr] at hright
        exact Eval.bind_apply_of_error hright _
      | none =>
        rw [hr] at hright
        -- Neither operand failed, so both are in range and the operator gets their exact results.
        rw [Eval.bind_apply_of_ok hright, Eval.check_apply, apply_value
          (inRange_of_firstFailure?_eq_none hl) (inRange_of_firstFailure?_eq_none hr)]
        cases (binary op left right).failure? <;> rfl

/-! ### Ends -/

theorem result_eq_error_iff {error : EvalError} :
    c.result = .error error ↔ ∃ kind, c.firstFailure? = some kind ∧ error = ⟨kind, []⟩ := by
  cases h : c.firstFailure? <;> simp [result, h, eq_comm]

theorem result_eq_ok_iff {v : Value} : c.result = .ok v ↔ c.Sound ∧ c.value = v := by
  rw [sound_iff]
  cases h : c.firstFailure? <;> simp [result, h]

theorem value_eq_int_iff (h : c.Sound) (n : Integer) :
    c.value = .int n ↔ c.isComparison = false ∧ n.toInt = c.exact := by
  cases hc : c.isComparison with
  | true => simp [value_of_isComparison hc]
  | false =>
    have hrange : Integer.InRange c.exact := inRange_of_firstFailure?_eq_none (sound_iff.1 h)
    simp [value_of_not_isComparison hc, Integer.ofInt_eq_iff hrange]

theorem value_eq_bool_iff {b : Bool} : c.value = .bool b ↔ c.isComparison = true ∧ b = c.holds := by
  cases hc : c.isComparison with
  | true => simp [value_of_isComparison hc, eq_comm]
  | false => simp [value_of_not_isComparison hc]

end Calculation

/-- A calculation ends whatever the interpreter is like, and leaves it as it is. It gives an integer
or a truth value if and only if it is sound, and that is the exact one. Otherwise it gives the error
of the first step in post-order that fails, outside all calls. -/
theorem Interpreter.evaluate_calculation (i : Interpreter) (functions : FunctionTable)
    (c : Calculation) :
    ∃ result, (∀ fuel ≥ c.toExpr.height, i.evaluate fuel functions c.toExpr = .ok (result, i)) ∧
      (∀ n, result = .ok (.int n) ↔ c.Sound ∧ c.isComparison = false ∧ n.toInt = c.exact) ∧
      (∀ b, result = .ok (.bool b) ↔ c.Sound ∧ c.isComparison = true ∧ b = c.holds) ∧
      (∀ error, result = .error error ↔
        ∃ kind, c.postOrder.findSome? Calculation.failure? = some kind ∧ error = ⟨kind, []⟩) := by
  refine ⟨c.result, fun fuel hfuel => ?_, fun n => ?_, fun b => ?_, fun error => ?_⟩
  · exact perform_eq_ok_iff.2 ⟨i.machine, Calculation.evaluate_toExpr _ hfuel i.machine, rfl⟩
  · rw [Calculation.result_eq_ok_iff]
    exact and_congr_right fun hsound => Calculation.value_eq_int_iff hsound n
  · rw [Calculation.result_eq_ok_iff, Calculation.value_eq_bool_iff]
  · exact Calculation.result_eq_error_iff

/-- The sum of a comparison and a difference of failing divisions. The quotient of the least integer
and `-1` comes first in post-order, and is out of range by one. -/
theorem Interpreter.evaluate_calculation_first_failure :
    let least : Calculation := .binary .divide (.integer (-9223372036854775808)) (.integer (-1))
    let c : Calculation := .binary .add (.binary .lessThan (.integer 1) (.integer 2))
      (.binary .subtract least (.binary .divide (.integer 1) (.integer 0)))
    let i : Interpreter := .ofSettings {}
    least.exact = 9223372036854775808 ∧
      i.evaluate 4 .empty c.toExpr = .ok (.error ⟨.overflow "division", []⟩, i) := by
  intro least c i
  refine ⟨by decide, ?_⟩
  obtain ⟨result, hrun, -, -, herror⟩ := Interpreter.evaluate_calculation i .empty c
  have hfirst : result = .error ⟨.overflow "division", []⟩ := (herror _).2 ⟨_, by decide, rfl⟩
  rw [hfirst] at hrun
  refine hrun 4 ?_
  simp [c, least, Calculation.toExpr, Expr.height_eq, Expr.children]

end Scriptlet
