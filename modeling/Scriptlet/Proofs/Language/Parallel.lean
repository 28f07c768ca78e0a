import Scriptlet.Proofs.Language.Honesty
import Scriptlet.Proofs.Language.Rules
import Scriptlet.Proofs.Parsing.Alignment

/-!
# The grammar on two texts

All that the grammar knows of a text it learns from lexemes. So if every lexeme of the language is
parallel for an alignment, every rule of the grammar is (`Alignment.Lexical`), and so is the reading
of two texts that begin at places that go together: both are accepted with the same value, or both
are refused, at places that go together and for want of the same (`parseText_whole_alike`).
-/

namespace Scriptlet

open Lexeme Scriptlet.Language Scriptlet.Parser

/-- The lexemes of the language are read alike at places that go together. -/
structure Alignment.Lexical (A : Alignment) : Prop where
  symbol : ∀ text ∈ symbols, Parallel A (symbol text)
  keyword : ∀ word ∈ keywords, Parallel A (keyword word)
  identifier : Parallel A identifier
  integer : Parallel A integer
  endOfInput : Parallel A endOfInput

theorem Lexeme.honest_symbol {text : String} (h : text ∈ symbols) : (symbol text).Honest := by
  apply honest_exactly
  rintro rfl
  exact (symbols_head "" h).1 rfl

theorem Lexeme.honest_keyword {word : String} (h : word ∈ keywords) : (keyword word).Honest := by
  apply honest_exactly
  rintro rfl
  exact (keywords_word "" h).1 rfl

namespace Grammar

variable {A : Alignment} {α : Type} {p : Parser Expr}

/-! ### Expressions -/

theorem parallel_parenthesized (hA : A.Lexical) {p : Parser α} (hp : Parallel A p) :
    Parallel A (parenthesized p) :=
  hp.between (hA.symbol _ (by decide)) (hA.symbol _ (by decide))

theorem parallel_bracketed (hA : A.Lexical) {p : Parser α} (hp : Parallel A p) :
    Parallel A (bracketed p) :=
  hp.between (hA.symbol _ (by decide)) (hA.symbol _ (by decide))

theorem parallel_commaSeparated (hA : A.Lexical) {p : Parser α} (hp : Parallel A p) :
    Parallel A (commaSeparated p) :=
  hp.sepBy (hA.symbol _ (by decide))

theorem parallel_operator (hA : A.Lexical) (op : Operator) : Parallel A (operator op) :=
  (hA.symbol op.symbol (by cases op <;> decide)).map _

theorem parallel_oneOf (hA : A.Lexical) (ops : List Operator) : Parallel A (oneOf ops) :=
  oneOf_induction (P := fun _ p => Parallel A p) (parallel_refuse _) (parallel_operator hA)
    (fun op _ ih => (parallel_operator hA op).orElse ih) ops

theorem parallel_call (hA : A.Lexical) (hp : Parallel A p) : Parallel A (call p) :=
  hA.identifier.bind fun _ =>
    (parallel_parenthesized hA (parallel_commaSeparated hA hp)).bind fun _ => parallel_pure _

theorem parallel_labelledArgument (hA : A.Lexical) (hp : Parallel A p) :
    Parallel A (labelledArgument p) :=
  hA.identifier.bind fun _ => (hA.symbol _ (by decide)).bind fun _ =>
    hp.bind fun _ => parallel_pure _

theorem parallel_labelledCall (hA : A.Lexical) (hp : Parallel A p) : Parallel A (labelledCall p) :=
  hA.identifier.bind fun _ =>
    (parallel_bracketed hA (parallel_commaSeparated hA (parallel_labelledArgument hA hp))).bind
      fun _ => parallel_pure _

theorem parallel_boolean (hA : A.Lexical) : Parallel A boolean :=
  ((hA.keyword _ (by decide)).map _).orElse ((hA.keyword _ (by decide)).map _)

theorem parallel_primary (hA : A.Lexical) (hp : Parallel A p) : Parallel A (primary p) :=
  (parallel_parenthesized hA hp).orElse <|
    (hA.integer.map _).orElse <|
    (parallel_call hA hp).attempt.orElse <|
    (parallel_labelledCall hA hp).attempt.orElse <|
    ((parallel_bracketed hA (parallel_commaSeparated hA hp)).map _).orElse <|
    (parallel_boolean hA).orElse (hA.identifier.map _)

theorem parallel_ranked (hA : A.Lexical) (hp : Parallel A p) (rank : Nat) :
    Parallel A (ranked p rank) := by
  induction rank with
  | zero => exact parallel_primary hA hp
  | succ rank ih => exact ih.chainLeft (parallel_oneOf hA _)

theorem parallel_expression (hA : A.Lexical) : Parallel A expression :=
  (parallel_recursive guarded_comparison fun _ hp => parallel_ranked hA hp 3).label _

/-! ### Statements and definitions -/

theorem parallel_loop (hA : A.Lexical) (hp : Parallel A p) : Parallel A (loop p) :=
  (hA.keyword _ (by decide)).bind fun _ =>
    (parallel_parenthesized hA (parallel_expression hA)).bind fun _ =>
      hp.bind fun _ => parallel_pure _

theorem parallel_conditional (hA : A.Lexical) (hp : Parallel A p) : Parallel A (conditional p) :=
  (hA.keyword _ (by decide)).bind fun _ =>
    (parallel_parenthesized hA (parallel_expression hA)).bind fun _ => hp.bind fun _ =>
      ((hA.keyword _ (by decide)).seqRight hp).optional.bind fun _ => parallel_pure _

theorem parallel_assignment (hA : A.Lexical) : Parallel A assignment :=
  hA.identifier.bind fun _ => (hA.symbol _ (by decide)).bind fun _ =>
    (parallel_expression hA).bind fun _ => (hA.symbol _ (by decide)).bind fun _ => parallel_pure _

theorem parallel_block (hA : A.Lexical) (hp : Parallel A p) : Parallel A (block p) :=
  (hp.many.between (hA.symbol _ (by decide)) (hA.symbol _ (by decide))).map _

theorem parallel_statementRule (hA : A.Lexical) (hp : Parallel A p) :
    Parallel A (statementRule p) :=
  (parallel_loop hA hp).orElse <|
    (parallel_conditional hA hp).orElse <|
    (parallel_assignment hA).attempt.orElse <|
    (parallel_block hA hp).orElse <|
    (parallel_expression hA).seqLeft (hA.symbol _ (by decide))

theorem parallel_statement (hA : A.Lexical) : Parallel A statement :=
  parallel_recursive guarded_statementRule fun _ hp => parallel_statementRule hA hp

theorem parallel_globalDefinition (hA : A.Lexical) : Parallel A globalDefinition :=
  (hA.keyword _ (by decide)).bind fun _ => hA.identifier.bind fun _ =>
    (hA.symbol _ (by decide)).bind fun _ => (parallel_expression hA).bind fun _ =>
      (hA.symbol _ (by decide)).bind fun _ => parallel_pure _

theorem parallel_functionDefinition (hA : A.Lexical) : Parallel A functionDefinition :=
  (hA.keyword _ (by decide)).bind fun _ => hA.identifier.bind fun _ =>
    (parallel_parenthesized hA (parallel_commaSeparated hA hA.identifier)).bind fun _ =>
      (parallel_block hA (parallel_statement hA)).bind fun _ => parallel_pure _

theorem parallel_definitions (hA : A.Lexical) :
    Parallel A (Program.mk <$> (globalDefinition <|> functionDefinition).many) :=
  ((parallel_globalDefinition hA).orElse (parallel_functionDefinition hA)).many.map _

/-! ### Whole texts -/

/-- A whole text is read from where its first blanks and comments end. -/
theorem result_whole (p : Parser α) (c : Cursor) :
    ((whole p).run c).result = ((p <* endOfInput).run c.skipTrivia).result := by
  have hwhole : whole p = spacing >>= fun _ => p <* endOfInput := by
    unfold whole
    simp only [seqRight_eq_bind, seqLeft_eq_bind, bind_assoc]
  have hspacing : spacing.run c = ⟨decide (c.pos < c.skipTrivia.pos), .ok ((), c.skipTrivia)⟩ := rfl
  rw [hwhole, run_bind_of_ok hspacing]
  rfl

/-- Two texts whose first lexemes are at places that go together are read alike. -/
theorem parseText_whole_alike (hA : A.Lexical) {p : Parser α} (hp : Parallel A p)
    {source source' : String}
    (hstart : A.rel (Cursor.start source.toList).skipTrivia
      (Cursor.start source'.toList).skipTrivia) :
    (∃ a, parseText (whole p) source = .ok a ∧ parseText (whole p) source' = .ok a) ∨
      ∃ c d expected, A.rel c d ∧
        parseText (whole p) source = .error (.ofFailure source.toList ⟨c.pos, expected⟩) ∧
        parseText (whole p) source' = .error (.ofFailure source'.toList ⟨d.pos, expected⟩) := by
  have halike := (hp.seqLeft hA.endOfInput).alike _ _ hstart
  unfold parseText
  rw [result_whole, result_whole]
  generalize (p <* endOfInput).run (Cursor.start source.toList).skipTrivia = r,
    (p <* endOfInput).run (Cursor.start source'.toList).skipTrivia = s at halike
  cases halike with
  | ok consumed a h => exact .inl ⟨a, rfl, rfl⟩
  | error consumed expected h => exact .inr ⟨_, _, expected, h, rfl, rfl⟩

end Grammar

end Scriptlet
