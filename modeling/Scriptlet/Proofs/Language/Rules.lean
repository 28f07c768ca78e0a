import Scriptlet.Grammar.Program
import Scriptlet.Proofs.Language.Grammar
import Scriptlet.Proofs.Parsing.Recursion

/-!
# The rules of the parser

Every rule of the parser consumes input when it succeeds, and the two rules that refer to themselves
are guarded: in front of each inner expression or statement stands a lexeme. So both are fixed
points (`unlabelled_eq`, `statement_eq`), and the proofs about the parser use these equations in
place of the bound on the number of openings.

The three levels of operators are one rule with a rank as its parameter (`ranked`).
-/

namespace Scriptlet

namespace Grammar

open Lexeme Scriptlet.Language Scriptlet.Parser

variable {p q : Parser Expr} {n : Nat}

/-! ### Operators by rank -/

/-- The operators of a rank, in the order in which they are tried. -/
def operatorsOf : Nat → List Operator
  | 1 => [.multiply, .divide]
  | 2 => [.add, .subtract]
  | 3 => [.lessOrEqual, .greaterOrEqual, .equal, .notEqual, .lessThan, .greaterThan]
  | _ => []

theorem mem_operatorsOf_iff {op : Operator} {rank : Nat} :
    op ∈ operatorsOf rank ↔ op.rank = rank := by
  constructor
  · intro h
    unfold operatorsOf at h
    split at h
    all_goals simp only [List.mem_cons, List.not_mem_nil, or_false] at h
    · rcases h with rfl | rfl <;> rfl
    · rcases h with rfl | rfl <;> rfl
    · rcases h with rfl | rfl | rfl | rfl | rfl | rfl <;> rfl
  · rintro rfl
    cases op <;> decide

/-- Any one of the operators in a list. -/
def oneOf : List Operator → Parser (Expr → Expr → Expr)
  | [] => refuse (.named "operator")
  | [op] => operator op
  | op :: ops => operator op <|> oneOf ops

/-- The expressions of a rank in terms of the expressions inside them. -/
def ranked (p : Parser Expr) : Nat → Parser Expr
  | 0 => primary p
  | rank + 1 => (ranked p rank).chainLeft (oneOf (operatorsOf (rank + 1)))

/-- A property of the choice between operators, from the first operator and the others. -/
theorem oneOf_induction {P : List Operator → Parser (Expr → Expr → Expr) → Prop}
    (hnil : P [] (refuse (.named "operator"))) (hone : ∀ op, P [op] (operator op))
    (hmore : ∀ op ops, P ops (oneOf ops) → P (op :: ops) (operator op <|> oneOf ops))
    (ops : List Operator) : P ops (oneOf ops) := by
  induction ops with
  | nil => exact hnil
  | cons op ops ih =>
    cases ops with
    | nil => exact hone op
    | cons op' ops => exact hmore op (op' :: ops) ih

theorem symbol_toList_ne_nil (op : Operator) : op.symbol.toList ≠ [] := by
  cases op <;> decide

theorem advancing_operator (op : Operator) : (operator op).Advancing :=
  (advancing_symbol (symbol_toList_ne_nil op)).map _

theorem advancing_oneOf (ops : List Operator) : (oneOf ops).Advancing :=
  oneOf_induction (P := fun _ p => p.Advancing) (fun _ _ _ h => absurd h not_gives_refuse)
    advancing_operator (fun op _ ih => (advancing_operator op).orElse ih) ops

/-! ### Expressions -/

theorem advancing_parenthesized {α : Type} {p : Parser α} (hp : p.NeverBack) :
    (parenthesized p).Advancing :=
  (advancing_symbol (by decide)).between hp (advancing_symbol (by decide)).neverBack

theorem advancing_bracketed {α : Type} {p : Parser α} (hp : p.NeverBack) :
    (bracketed p).Advancing :=
  (advancing_symbol (by decide)).between hp (advancing_symbol (by decide)).neverBack

theorem neverBack_commaSeparated {α : Type} {p : Parser α} (hp : p.NeverBack) :
    (commaSeparated p).NeverBack :=
  hp.sepBy (advancing_symbol (by decide)).neverBack

theorem advancing_labelledArgument (hp : p.NeverBack) : (labelledArgument p).Advancing :=
  advancing_identifier.bind fun _ => (advancing_symbol (by decide)).neverBack.bind fun _ =>
    hp.bind fun _ => neverBack_pure _

theorem advancing_call (hp : p.NeverBack) : (call p).Advancing :=
  advancing_identifier.bind fun _ =>
    (advancing_parenthesized (neverBack_commaSeparated hp)).neverBack.bind fun _ => neverBack_pure _

theorem advancing_labelledCall (hp : p.NeverBack) : (labelledCall p).Advancing :=
  advancing_identifier.bind fun _ =>
    (advancing_bracketed (neverBack_commaSeparated
      (advancing_labelledArgument hp).neverBack)).neverBack.bind fun _ => neverBack_pure _

theorem advancing_primary (hp : p.NeverBack) : (primary p).Advancing :=
  (advancing_parenthesized hp).orElse <|
    (advancing_integer.map _).orElse <|
    (advancing_call hp).attempt.orElse <|
    (advancing_labelledCall hp).attempt.orElse <|
    ((advancing_bracketed (neverBack_commaSeparated hp)).map _).orElse <|
    (((advancing_keyword (by decide)).map _).orElse
      ((advancing_keyword (by decide)).map _)).orElse <|
    advancing_identifier.map _

theorem advancing_ranked (hp : p.NeverBack) (rank : Nat) : (ranked p rank).Advancing := by
  induction rank with
  | zero => exact advancing_primary hp
  | succ rank ih => exact ih.chainLeft (advancing_oneOf _)

theorem agree_commaSeparated {α : Type} {p q : Parser α} (h : AgreeBelow n p q) (hp : p.NeverBack) :
    AgreeBelow n (commaSeparated p) (commaSeparated q) :=
  h.sepBy hp (advancing_symbol (by decide))

theorem agree_parenthesized {α : Type} {p q : Parser α} (h : AgreeBelow n p q) (hp : p.NeverBack) :
    AgreeBelow (n + 1) (parenthesized p) (parenthesized q) :=
  h.between (advancing_symbol (by decide)) hp _

theorem agree_bracketed {α : Type} {p q : Parser α} (h : AgreeBelow n p q) (hp : p.NeverBack) :
    AgreeBelow (n + 1) (bracketed p) (bracketed q) :=
  h.between (advancing_symbol (by decide)) hp _

theorem agree_labelledArgument (h : AgreeBelow n p q) (hp : p.NeverBack) :
    AgreeBelow (n + 1) (labelledArgument p) (labelledArgument q) :=
  advancing_identifier.agree_bind fun _ =>
    (agreeBelow_refl n _).bind (advancing_symbol (by decide)).neverBack fun _ =>
      h.bind hp fun _ => agreeBelow_refl _ _

theorem agree_call (h : AgreeBelow n p q) (hp : p.NeverBack) :
    AgreeBelow (n + 1) (call p) (call q) := by
  refine advancing_identifier.agree_bind fun _ => ?_
  have harguments :
      AgreeBelow n (parenthesized (commaSeparated p)) (parenthesized (commaSeparated q)) :=
    (agree_parenthesized (agree_commaSeparated h hp) (neverBack_commaSeparated hp)).mono
      (Nat.le_succ n)
  exact harguments.bind (advancing_parenthesized (neverBack_commaSeparated hp)).neverBack fun _ =>
    agreeBelow_refl _ _

theorem agree_labelledCall (h : AgreeBelow n p q) (hp : p.NeverBack) :
    AgreeBelow (n + 1) (labelledCall p) (labelledCall q) := by
  refine advancing_identifier.agree_bind fun _ => ?_
  have hargument : (labelledArgument p).NeverBack := (advancing_labelledArgument hp).neverBack
  have harguments : AgreeBelow n (bracketed (commaSeparated (labelledArgument p)))
      (bracketed (commaSeparated (labelledArgument q))) :=
    (agree_bracketed (agree_commaSeparated ((agree_labelledArgument h hp).mono (Nat.le_succ n))
      hargument) (neverBack_commaSeparated hargument)).mono (Nat.le_succ n)
  exact harguments.bind (advancing_bracketed (neverBack_commaSeparated hargument)).neverBack
    fun _ => agreeBelow_refl _ _

/-- In a primary expression every inner expression has a bracket before it. -/
theorem agree_primary (h : AgreeBelow n p q) (hp : p.NeverBack) :
    AgreeBelow (n + 1) (primary p) (primary q) :=
  (agree_parenthesized h hp).orElse <|
    (agreeBelow_refl _ _).orElse <|
    (agree_call h hp).attempt.orElse <|
    (agree_labelledCall h hp).attempt.orElse <|
    ((agree_bracketed (agree_commaSeparated h hp) (neverBack_commaSeparated hp)).map _).orElse <|
    agreeBelow_refl _ _

theorem agree_ranked (h : AgreeBelow n p q) (hp : p.NeverBack) (rank : Nat) :
    AgreeBelow (n + 1) (ranked p rank) (ranked q rank) := by
  induction rank with
  | zero => exact agree_primary h hp
  | succ rank ih => exact ih.chainLeft (advancing_ranked hp rank).neverBack (advancing_oneOf _)

theorem guarded_comparison : Guarded comparison where
  neverBack _ hp := (advancing_ranked hp 3).neverBack
  agree _ _ _ hp h := agree_ranked h hp 3

/-- Expressions, before the name for what they expect. -/
def unlabelled : Parser Expr :=
  recursive "expression" comparison

/-- The rule for expressions is a fixed point. -/
theorem unlabelled_eq : unlabelled = ranked unlabelled 3 :=
  recursive_eq guarded_comparison

theorem advancing_unlabelled : unlabelled.Advancing := by
  have hback : unlabelled.NeverBack := guarded_comparison.neverBack_recursive
  rw [unlabelled_eq]
  exact advancing_ranked hback 3

theorem advancing_expression : expression.Advancing :=
  advancing_unlabelled.label _

/-! ### Statements -/

theorem advancing_loop (hp : p.NeverBack) : (loop p).Advancing :=
  (advancing_keyword (by decide)).bind fun _ =>
    (advancing_parenthesized advancing_expression.neverBack).neverBack.bind fun _ =>
      hp.bind fun _ => neverBack_pure _

theorem neverBack_alternative (hp : p.NeverBack) : (keyword "else" *> p).optional.NeverBack :=
  ((advancing_keyword (by decide)).seqRight hp).neverBack.optional

theorem advancing_conditional (hp : p.NeverBack) : (conditional p).Advancing :=
  (advancing_keyword (by decide)).bind fun _ =>
    (advancing_parenthesized advancing_expression.neverBack).neverBack.bind fun _ =>
      hp.bind fun _ => (neverBack_alternative hp).bind fun _ => neverBack_pure _

theorem advancing_assignment : assignment.Advancing :=
  advancing_identifier.bind fun _ => (advancing_symbol (by decide)).neverBack.bind fun _ =>
    advancing_expression.neverBack.bind fun _ =>
      (advancing_symbol (by decide)).neverBack.bind fun _ => neverBack_pure _

theorem advancing_block (hp : p.NeverBack) : (block p).Advancing :=
  ((advancing_symbol (by decide)).between hp.many (advancing_symbol (by decide)).neverBack).map _

theorem advancing_statementRule (hp : p.NeverBack) : (statementRule p).Advancing :=
  (advancing_loop hp).orElse <|
    (advancing_conditional hp).orElse <|
    advancing_assignment.attempt.orElse <|
    (advancing_block hp).orElse <|
    advancing_expression.seqLeft (advancing_symbol (by decide)).neverBack

theorem agree_loop (h : AgreeBelow n p q) (hp : p.NeverBack) :
    AgreeBelow (n + 1) (loop p) (loop q) :=
  (advancing_keyword (by decide)).agree_bind fun _ =>
    (agreeBelow_refl n _).bind (advancing_parenthesized advancing_expression.neverBack).neverBack
      fun _ => h.bind hp fun _ => agreeBelow_refl _ _

theorem agree_conditional (h : AgreeBelow n p q) (hp : p.NeverBack) :
    AgreeBelow (n + 1) (conditional p) (conditional q) := by
  have halternative : AgreeBelow n (keyword "else" *> p).optional (keyword "else" *> q).optional :=
    (((advancing_keyword (by decide)).agree_seqRight h).mono (Nat.le_succ n)).optional
  exact (advancing_keyword (by decide)).agree_bind fun _ =>
    (agreeBelow_refl n _).bind (advancing_parenthesized advancing_expression.neverBack).neverBack
      fun _ => h.bind hp fun _ =>
        halternative.bind (neverBack_alternative hp) fun _ => agreeBelow_refl _ _

theorem agree_block (h : AgreeBelow n p q) (hp : p.NeverBack) :
    AgreeBelow (n + 1) (block p) (block q) :=
  ((h.many hp).between (advancing_symbol (by decide)) hp.many _).map _

/-- In a statement every inner statement has a keyword or a brace before it. -/
theorem guarded_statementRule : Guarded statementRule where
  neverBack _ hp := (advancing_statementRule hp).neverBack
  agree _ _ _ hp h :=
    (agree_loop h hp).orElse <|
      (agree_conditional h hp).orElse <|
      (agreeBelow_refl _ _).orElse <|
      (agree_block h hp).orElse <|
      agreeBelow_refl _ _

/-- The rule for statements is a fixed point. -/
theorem statement_eq : statement = statementRule statement :=
  recursive_eq guarded_statementRule

theorem advancing_statement : statement.Advancing := by
  have hback : statement.NeverBack := guarded_statementRule.neverBack_recursive
  rw [statement_eq]
  exact advancing_statementRule hback

/-! ### Definitions -/

theorem advancing_globalDefinition : globalDefinition.Advancing :=
  (advancing_keyword (by decide)).bind fun _ => advancing_identifier.neverBack.bind fun _ =>
    (advancing_symbol (by decide)).neverBack.bind fun _ =>
      advancing_expression.neverBack.bind fun _ =>
        (advancing_symbol (by decide)).neverBack.bind fun _ => neverBack_pure _

theorem advancing_functionDefinition : functionDefinition.Advancing :=
  (advancing_keyword (by decide)).bind fun _ => advancing_identifier.neverBack.bind fun _ =>
    (advancing_parenthesized (neverBack_commaSeparated
      advancing_identifier.neverBack)).neverBack.bind fun _ =>
        (advancing_block advancing_statement.neverBack).neverBack.bind fun _ => neverBack_pure _

end Grammar

end Scriptlet
