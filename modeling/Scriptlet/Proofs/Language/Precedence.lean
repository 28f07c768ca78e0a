import Scriptlet.Proofs.Language.Rendering

/-!
# Only the necessary parentheses

`Expr.print` writes an expression as tokens with one space between any two, and with parentheses
only where the tree could not be told from the text without them. A left operand has parentheses if
its operator binds weaker than the one it is an operand of, and a right operand also if both bind
equally. Main statement: an expression is read back from this text (`Expr.parse_print`).

An expression that is printed without parentheses around it is a phrase of the rank of its own
operator (`spells_printTokens`). In front of an operator of the same rank it becomes the beginning
of a longer chain, which is how operators of one level join from the left, and wherever a smaller
rank is asked for it has been put into parentheses (`spells_enclosed`). That no chain goes on too
far is decided by the next token.
-/

namespace Scriptlet

/-! ### Printing -/

/-- How loosely an expression holds together: as loosely as its operator binds, and not at all if it
is no application of one. -/
def Expr.rank : Expr → Nat
  | .binary op _ _ => op.rank
  | _ => 0

/-- Tokens, in parentheses if they are needed. -/
def enclosed (needed : Bool) (tokens : List String) : List String :=
  if needed then "(" :: (tokens ++ [")"]) else tokens

mutual

/-- The tokens of an expression with only the necessary parentheses. Statements are no expressions
and have no tokens here. -/
def Expr.printTokens : Expr → List String
  | .integer n => [toString n.toInt]
  | .boolean b => [if b then "true" else "false"]
  | .variable name => [name]
  | .array items => "[" :: ([","].intercalate (printItems items) ++ ["]"])
  | .binary op left right =>
    enclosed (op.rank < left.rank) left.printTokens ++
      op.symbol :: enclosed (op.rank ≤ right.rank) right.printTokens
  | .call name arguments => name :: "(" :: ([","].intercalate (printItems arguments) ++ [")"])
  | .labelledCall name arguments =>
    name :: "[" :: ([","].intercalate (printLabelled arguments) ++ ["]"])
  | .assign _ _ | .block _ | .ifThen _ _ | .ifElse _ _ _ | .loop _ _ => []

/-- The tokens of each of the expressions. -/
def printItems : List Expr → List (List String)
  | [] => []
  | e :: es => e.printTokens :: printItems es

/-- The tokens of each of the labelled arguments. -/
def printLabelled : List (String × Expr) → List (List String)
  | [] => []
  | (label, e) :: arguments => (label :: "=" :: e.printTokens) :: printLabelled arguments

end

/-- The expression as tokens with one space between any two. -/
def Expr.print (e : Expr) : String :=
  " ".intercalate e.printTokens

theorem printItems_eq (es : List Expr) : printItems es = es.map Expr.printTokens := by
  induction es with
  | nil => rfl
  | cons e es ih => rw [printItems, ih, List.map_cons]

theorem printLabelled_eq (arguments : List (String × Expr)) :
    printLabelled arguments =
      arguments.map fun argument => argument.1 :: "=" :: argument.2.printTokens := by
  induction arguments with
  | nil => rfl
  | cons argument arguments ih => rw [printLabelled, ih, List.map_cons]

/-! ### Reading back -/

namespace Language

variable {e : Expr} {tokens : List String}

theorem rank_le (e : Expr) : e.rank ≤ 3 := by
  cases e with
  | binary op left right => exact (operator_rank_bounds op).2
  | _ => exact Nat.zero_le 3

/-- In parentheses an expression is a phrase of any rank, and without them of each rank from its own
on. -/
theorem spells_enclosed {needed : Bool} {rank : Nat} (h : Spells (Phrase e.rank) tokens e)
    (hneeded : needed = false → e.rank ≤ rank) :
    Spells (Phrase rank) (enclosed needed tokens) e := by
  cases needed with
  | true => exact (spells_group (h.lift (rank_le e))).lift (Nat.zero_le rank)
  | false => exact h.lift (hneeded rfl)

/-- The printed tokens of an expression spell it, as a phrase of the rank of its operator. -/
theorem spells_printTokens (h : IsExpression e) : Spells (Phrase e.rank) e.printTokens e := by
  induction h with
  | integer n => exact spells_integer n
  | boolean b => exact spells_boolean b
  | name hname => exact spells_variable hname
  | array _ ih =>
    rw [Expr.printTokens, printItems_eq]
    exact spells_array fun e he => (ih e he).lift (rank_le e)
  | @binary op left right _ _ ihleft ihright =>
    -- What binds too weakly for its side has been put into parentheses.
    refine spells_binary (spells_enclosed ihleft fun hneeded => ?_)
      (spells_enclosed ihright fun hneeded => ?_)
    · exact Nat.not_lt.1 (of_decide_eq_false hneeded)
    · exact Nat.le_sub_one_of_lt (Nat.not_le.1 (of_decide_eq_false hneeded))
  | call hname _ ih =>
    rw [Expr.printTokens, printItems_eq]
    exact spells_call hname fun e he => (ih e he).lift (rank_le e)
  | labelledCall hname hlabels _ ih =>
    rw [Expr.printTokens, printLabelled_eq]
    exact spells_labelledCall hname hlabels fun argument hmem =>
      (ih argument hmem).lift (rank_le argument.2)

end Language

open Scriptlet.Language

/-- An expression is read back from its text with only the necessary parentheses. -/
theorem Expr.parse_print (e : Expr) (h : IsExpression e) : Expr.parse e.print = .ok e := by
  obtain ⟨hread, hsettled⟩ := (spells_printTokens h).lift (rank_le e) [] settled_spaced_nil
  rw [List.append_nil] at hread hsettled
  have htext : e.print.toList = spaced e.printTokens := String.toList_intercalate
  rw [← htext] at hread hsettled
  exact parse_of_expression (.done hsettled) hread

/-- Operators of all levels, with parentheses on the right of an operator of the same level, around
a weaker operand on either side, and nowhere else. A sign stands after a minus, and comparisons join
from the left. -/
theorem Expr.parse_print_mixed : ∃ e : Expr, IsExpression e ∧
    e.print =
      "a - ( b - -1 ) - 2 * c < ( a + b ) / f ( a == b , [ c ] ) <= g [ x = a * ( b < c ) ]" ∧
    Expr.parse e.print = .ok e := by
  let difference : Expr := .binary .subtract
    (.binary .subtract (.variable "a") (.binary .subtract (.variable "b") (.integer (-1))))
    (.binary .multiply (.integer 2) (.variable "c"))
  let quotient : Expr := .binary .divide (.binary .add (.variable "a") (.variable "b"))
    (.call "f" [.binary .equal (.variable "a") (.variable "b"), .array [.variable "c"]])
  let labelled : Expr := .labelledCall "g"
    [("x", .binary .multiply (.variable "a") (.binary .lessThan (.variable "b") (.variable "c")))]
  have ha : IsExpression (.variable "a") := .name (by decide)
  have hb : IsExpression (.variable "b") := .name (by decide)
  have hc : IsExpression (.variable "c") := .name (by decide)
  have hdifference : IsExpression difference :=
    .binary (.binary ha (.binary hb (.integer _))) (.binary (.integer _) hc)
  have hquotient : IsExpression quotient := by
    refine .binary (.binary ha hb) (.call (by decide) ?_)
    simpa using ⟨.binary ha hb, .array (by simpa using hc)⟩
  have hlabelled : IsExpression labelled := by
    refine .labelledCall (by decide) (by decide) ?_
    simpa using .binary ha (.binary hb hc)
  have he : IsExpression (.binary .lessOrEqual (.binary .lessThan difference quotient) labelled) :=
    .binary (.binary hdifference hquotient) hlabelled
  exact ⟨_, he, by decide +kernel, Expr.parse_print _ he⟩

end Scriptlet
