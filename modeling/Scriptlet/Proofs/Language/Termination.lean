import Scriptlet.Proofs.Language.Running

/-!
# Reading a text comes to an end

The rules for expressions and for statements refer to themselves, under brackets, lists, optional
parts and three levels of operators. In front of every inner expression stands a bracket or a name,
and in front of every inner statement a keyword or a brace. So each rule finishes in a region if the
rules inside it finish further on (`finishesIn_comparison`, `finishesIn_statementRule`), and by
induction on the number of characters left both finish everywhere.

Only expressions and statements are entered again, and each of the two at most once for every
position. With `n` characters there are at most `2 * n + 2` entries at a time. Main statement: with
that bound or any larger one, reading a program or an expression as the grammar is written ends, and
in no other way than the parser of the grammar does (`reading_terminates`).
-/

namespace Scriptlet

namespace Grammar

open Lexeme (advancing_symbol advancing_keyword advancing_identifier)
open Form

variable {bound : Nat} {active : Entries Rule} {S : Region} {α : Type} {p : Written Expr}

/-! ### Lexemes and brackets -/

theorem finishesIn_symbol (S : Region) {text : String} (h : text ≠ "") :
    FinishesIn rulebook bound active S (symbol text h) :=
  finishesIn_atom S _ _

theorem finishesIn_keyword (S : Region) {word : String} (h : word ≠ "") :
    FinishesIn rulebook bound active S (keyword word h) :=
  finishesIn_atom S _ _

theorem finishesIn_identifier (S : Region) : FinishesIn rulebook bound active S identifier :=
  finishesIn_atom S _ _

theorem finishesIn_parenthesized {p : Written α}
    (hp : FinishesIn rulebook bound active S.next p) :
    FinishesIn rulebook bound active S (Written.parenthesized p) :=
  hp.between (finishesIn_symbol S _) (advancing_symbol (by decide)) (finishesIn_symbol S _)

theorem finishesIn_bracketed {p : Written α} (hp : FinishesIn rulebook bound active S.next p) :
    FinishesIn rulebook bound active S (Written.bracketed p) :=
  hp.between (finishesIn_symbol S _) (advancing_symbol (by decide)) (finishesIn_symbol S _)

theorem finishesIn_commaSeparated {p : Written α} (hp : FinishesIn rulebook bound active S p) :
    FinishesIn rulebook bound active S (Written.commaSeparated p) :=
  hp.sepBy (finishesIn_symbol S _)

/-! ### Expressions -/

theorem finishesIn_operator (S : Region) (op : Operator) :
    FinishesIn rulebook bound active S (Written.operator op) :=
  (finishesIn_symbol S _).map _

theorem finishesIn_call (hp : FinishesIn rulebook bound active S.next p) :
    FinishesIn rulebook bound active S (Written.call p) :=
  (finishesIn_identifier S).guard advancing_identifier fun _ =>
    (finishesIn_parenthesized (finishesIn_commaSeparated hp.next)).bind fun _ =>
      finishesIn_pure _ _

theorem finishesIn_labelledArgument (hp : FinishesIn rulebook bound active S.next p) :
    FinishesIn rulebook bound active S (Written.labelledArgument p) :=
  (finishesIn_identifier S).guard advancing_identifier fun _ =>
    (finishesIn_symbol S.next _).bind fun _ => hp.bind fun _ => finishesIn_pure _ _

theorem finishesIn_labelledCall (hp : FinishesIn rulebook bound active S.next p) :
    FinishesIn rulebook bound active S (Written.labelledCall p) := by
  have hargument : FinishesIn rulebook bound active S.next.next (Written.labelledArgument p) :=
    finishesIn_labelledArgument hp.next.next
  exact (finishesIn_identifier S).guard advancing_identifier fun _ =>
    (finishesIn_bracketed (finishesIn_commaSeparated hargument)).bind fun _ =>
      finishesIn_pure _ _

theorem finishesIn_boolean (S : Region) : FinishesIn rulebook bound active S Written.boolean :=
  ((finishesIn_keyword S _).map _).orElse ((finishesIn_keyword S _).map _)

theorem finishesIn_primary (hp : FinishesIn rulebook bound active S.next p) :
    FinishesIn rulebook bound active S (Written.primary p) :=
  (finishesIn_parenthesized hp).orElse <|
    ((finishesIn_atom S _ _).map _).orElse <|
    (finishesIn_call hp).attempt.orElse <|
    (finishesIn_labelledCall hp).attempt.orElse <|
    ((finishesIn_bracketed (finishesIn_commaSeparated hp)).map _).orElse <|
    (finishesIn_boolean S).orElse <|
    (finishesIn_identifier S).map _

/-- An expression finishes if the expressions inside it do, which are all further on. -/
theorem finishesIn_comparison (hp : FinishesIn rulebook bound active S.next p) :
    FinishesIn rulebook bound active S (Written.comparison p) := by
  have hop (op : Operator) : FinishesIn rulebook bound active S (Written.operator op) :=
    finishesIn_operator S op
  have hproduct : FinishesIn rulebook bound active S (Written.product p) :=
    (finishesIn_primary hp).chainLeft ((hop .multiply).orElse (hop .divide))
  have hsum : FinishesIn rulebook bound active S (Written.sum p) :=
    hproduct.chainLeft ((hop .add).orElse (hop .subtract))
  exact hsum.chainLeft <|
    (hop .lessOrEqual).orElse <| (hop .greaterOrEqual).orElse <| (hop .equal).orElse <|
    (hop .notEqual).orElse <| (hop .lessThan).orElse (hop .greaterThan)

/-- Every entry of the rule lies before the place. -/
def Behind (rule : Rule) (active : Entries Rule) (c : Cursor) : Prop :=
  ∀ pos, (rule, pos) ∈ active → pos < c.pos

theorem Behind.of_reaches {rule : Rule} {c d : Cursor} (h : Behind rule active c)
    (hreaches : c.Reaches d) : Behind rule active d :=
  fun pos hpos => Nat.lt_of_lt_of_le (h pos hpos) hreaches.pos_le

/-- Further on, the entry of a rule at the place lies behind with the ones before it. -/
theorem Behind.cons {rule entered : Rule} {c d : Cursor} (h : Behind rule active c)
    (hreaches : c.Reaches d) (hpos : c.pos < d.pos) :
    Behind rule ((entered, c.pos) :: active) d := by
  intro pos hmem
  rcases List.mem_cons.1 hmem with heq | hmem
  · rw [(Prod.mk.inj heq).2]
    exact hpos
  · exact h.of_reaches hreaches pos hmem

theorem Behind.cons_of_ne {rule entered : Rule} {c : Cursor} (h : Behind rule active c)
    (hne : rule ≠ entered) (entry : Nat) : Behind rule ((entered, entry) :: active) c := by
  intro pos hmem
  rcases List.mem_cons.1 hmem with heq | hmem
  · exact absurd (Prod.mk.inj heq).1 hne
  · exact h pos hmem

/-- Expressions finish, inside any rules, as long as there is room for one entry more than there are
characters left. -/
theorem finishes_rule_expression (active : Entries Rule) (c : Cursor)
    (hbehind : Behind .expression active c) (hroom : active.length + c.rest.length < bound) :
    Finishes rulebook bound active (.rule .expression) c := by
  induction hn : c.rest.length using Nat.strongRecOn generalizing active c with
  | _ n ih =>
    -- The expressions inside begin further on, with fewer characters left and one entry more.
    refine finishes_rule (by omega) hbehind ?_
    refine finishesIn_comparison (S := .fromPlace c) (fun d hd => ?_) c (Cursor.Reaches.refl c)
    obtain ⟨hreaches, hpos⟩ := Region.mem_next_fromPlace hd
    have hlength : d.rest.length < c.rest.length := hreaches.length_lt hpos
    refine ih _ (hn ▸ hlength) _ d (hbehind.cons hreaches hpos) ?_ rfl
    rw [List.length_cons]
    omega

theorem finishesIn_expression {c : Cursor} (hbehind : Behind .expression active c)
    (hroom : active.length + c.rest.length < bound) :
    FinishesIn rulebook bound active (.fromPlace c) Written.expression := by
  refine FinishesIn.label (fun d hd => ?_) _
  have hlength : d.rest.length ≤ c.rest.length := Cursor.Reaches.length_le hd
  exact finishes_rule_expression active d (hbehind.of_reaches hd) (by omega)

/-! ### Statements -/

theorem finishesIn_loop (hexpr : FinishesIn rulebook bound active S Written.expression)
    (hp : FinishesIn rulebook bound active S.next p) :
    FinishesIn rulebook bound active S (Written.loop p) :=
  (finishesIn_keyword S _).guard (advancing_keyword (by decide)) fun _ =>
    (finishesIn_parenthesized hexpr.next.next).bind fun _ => hp.bind fun _ => finishesIn_pure _ _

theorem finishesIn_conditional (hexpr : FinishesIn rulebook bound active S Written.expression)
    (hp : FinishesIn rulebook bound active S.next p) :
    FinishesIn rulebook bound active S (Written.conditional p) :=
  (finishesIn_keyword S _).guard (advancing_keyword (by decide)) fun _ =>
    (finishesIn_parenthesized hexpr.next.next).bind fun _ => hp.bind fun _ =>
      ((finishesIn_keyword S.next _).seqRight hp).optional.bind fun _ => finishesIn_pure _ _

theorem finishesIn_assignment (hexpr : FinishesIn rulebook bound active S Written.expression) :
    FinishesIn rulebook bound active S Written.assignment :=
  (finishesIn_identifier S).bind fun _ => (finishesIn_symbol S _).bind fun _ =>
    hexpr.bind fun _ => (finishesIn_symbol S _).bind fun _ => finishesIn_pure _ _

theorem finishesIn_block (hp : FinishesIn rulebook bound active S.next p) :
    FinishesIn rulebook bound active S (Written.block p) := by
  have hbraces : FinishesIn rulebook bound active S
      (p.many.between (symbol "\x7b") (symbol "\x7d")) :=
    hp.many.between (finishesIn_symbol S _) (advancing_symbol (by decide)) (finishesIn_symbol S _)
  exact hbraces.map _

/-- A statement finishes if expressions do and if the statements inside it do, which are all further
on. -/
theorem finishesIn_statementRule (hexpr : FinishesIn rulebook bound active S Written.expression)
    (hp : FinishesIn rulebook bound active S.next p) :
    FinishesIn rulebook bound active S (Written.statementRule p) :=
  (finishesIn_loop hexpr hp).orElse <|
    (finishesIn_conditional hexpr hp).orElse <|
    (finishesIn_assignment hexpr).attempt.orElse <|
    (finishesIn_block hp).orElse <|
    hexpr.seqLeft (finishesIn_symbol S _)

/-- Statements finish as long as there is room for two entries for each character left, and two
more: at each position a statement may be entered and in it an expression. -/
theorem finishes_statement (active : Entries Rule) (c : Cursor)
    (hstatement : Behind .statement active c) (hexpr : Behind .expression active c)
    (hroom : active.length + 2 * c.rest.length + 1 < bound) :
    Finishes rulebook bound active Written.statement c := by
  induction hn : c.rest.length using Nat.strongRecOn generalizing active c with
  | _ n ih =>
    refine finishes_rule (by omega) hstatement ?_
    -- An expression may begin where the statement does, so it cannot wait for the characters to
    -- become fewer: the second of the two entries for each character is for it.
    have hexpression : FinishesIn rulebook bound ((.statement, c.pos) :: active) (.fromPlace c)
        Written.expression := by
      refine finishesIn_expression (hexpr.cons_of_ne (by decide) c.pos) ?_
      rw [List.length_cons]
      omega
    refine finishesIn_statementRule hexpression (fun d hd => ?_) c (Cursor.Reaches.refl c)
    obtain ⟨hreaches, hpos⟩ := Region.mem_next_fromPlace hd
    have hlength : d.rest.length < c.rest.length := hreaches.length_lt hpos
    refine ih _ (hn ▸ hlength) _ d (hstatement.cons hreaches hpos) (hexpr.cons hreaches hpos) ?_ rfl
    rw [List.length_cons]
    omega

/-! ### Whole texts -/

theorem finishesIn_globalDefinition
    (hexpr : FinishesIn rulebook bound active S Written.expression) :
    FinishesIn rulebook bound active S Written.globalDefinition :=
  (finishesIn_keyword S _).bind fun _ => (finishesIn_identifier S).bind fun _ =>
    (finishesIn_symbol S _).bind fun _ => hexpr.bind fun _ =>
      (finishesIn_symbol S _).bind fun _ => finishesIn_pure _ _

theorem finishesIn_functionDefinition
    (hstatement : FinishesIn rulebook bound active S Written.statement) :
    FinishesIn rulebook bound active S Written.functionDefinition :=
  (finishesIn_keyword S _).bind fun _ => (finishesIn_identifier S).bind fun _ =>
    (finishesIn_parenthesized (finishesIn_commaSeparated (finishesIn_identifier S.next))).bind
      fun _ => (finishesIn_block hstatement.next).bind fun _ => finishesIn_pure _ _

theorem finishesIn_whole {p : Written α} (hp : FinishesIn rulebook bound active S p) :
    FinishesIn rulebook bound active S (Written.whole p) :=
  ((finishesIn_atom S _ _).seqRight hp).seqLeft (finishesIn_atom S _ _)

/-- Programs and expressions finish at every place from which there is room for the entries. -/
theorem finishes_whole {c : Cursor} (hroom : 2 * c.rest.length + 2 ≤ bound) :
    Finishes rulebook bound [] Written.program c ∧
      Finishes rulebook bound [] (Written.whole Written.expression) c := by
  have hbehind (rule : Rule) : Behind rule [] c := fun _ hpos => nomatch hpos
  have hexpression : FinishesIn rulebook bound [] (.fromPlace c) Written.expression :=
    finishesIn_expression (hbehind _) (by rw [List.length_nil]; omega)
  have hstatement : FinishesIn rulebook bound [] (.fromPlace c) Written.statement := by
    intro d hd
    have hle : d.rest.length ≤ c.rest.length := Cursor.Reaches.length_le hd
    refine finishes_statement [] d ((hbehind _).of_reaches hd) ((hbehind _).of_reaches hd) ?_
    rw [List.length_nil]
    omega
  have hdefinition := (finishesIn_globalDefinition hexpression).orElse
    (finishesIn_functionDefinition hstatement)
  exact ⟨finishesIn_whole (hdefinition.many.map _) c (Cursor.Reaches.refl c),
    finishesIn_whole hexpression c (Cursor.Reaches.refl c)⟩

/-- What a reply at the start of the text makes of the text. -/
def conclude (source : String) (r : Reply α) : Except SyntaxError α :=
  match r.result with
  | .ok (a, _) => .ok a
  | .error f => .error (.ofFailure source.toList f)

/-- Reading the text as the form says comes to an end with the outcome, with at most `bound` rules
entered at a time. -/
def ReadsWithin (bound : Nat) (p : Written α) (source : String)
    (outcome : Except SyntaxError α) : Prop :=
  ∃ r, Runs rulebook bound [] p (.start source.toList) r ∧ conclude source r = outcome

theorem readsWithin_iff {p : Written α} {source : String} {outcome : Except SyntaxError α}
    (h : Finishes rulebook bound [] p (.start source.toList)) :
    ReadsWithin bound p source outcome ↔ parseText (rulebook.parser p) source = outcome := by
  constructor
  · rintro ⟨r, hrun, rfl⟩
    rw [← h.runs_iff.1 hrun]
    rfl
  · rintro rfl
    exact ⟨_, h.runs_iff.2 rfl, rfl⟩

/-- Reading ends on every text. The parsers of the grammar are those of the forms that it is written
in. With any bound from two more than twice the number of characters on, a program and an expression
are each read to an end as they are written, where no rule is entered again before input has been
consumed and no loop goes on without consuming; the outcome is the same for all these bounds, and it
is that of the parser. -/
theorem reading_terminates (source : String) (bound : Nat)
    (hbound : 2 * source.length + 2 ≤ bound) :
    rulebook.parser Written.program = program ∧
    rulebook.parser (Written.whole Written.expression) = whole expression ∧
    (∀ outcome, ReadsWithin bound Written.program source outcome ↔
      Program.parse source = outcome) ∧
    ∀ outcome, ReadsWithin bound (Written.whole Written.expression) source outcome ↔
      Expr.parse source = outcome := by
  have hlength : (Cursor.start source.toList).rest.length = source.length := String.length_toList
  have hroom : 2 * (Cursor.start source.toList).rest.length + 2 ≤ bound := by omega
  obtain ⟨hprogram, hexpression⟩ := finishes_whole hroom
  exact ⟨parser_program, parser_whole_expression, fun _ => readsWithin_iff hprogram,
    fun _ => readsWithin_iff hexpression⟩

/-- A conditional in a loop in a function, cut off inside two groups: the least bound and a far
larger one lead to the same error at the end of the text. -/
theorem reading_terminates_open_groups :
    ∃ e, 2 * "define f(a) \x7bwhile (a) if (a) ((b * (".length + 2 = 76 ∧ e.offset = 37 ∧
      ReadsWithin 76 Written.program "define f(a) \x7bwhile (a) if (a) ((b * (" (.error e) ∧
      ReadsWithin 9000 Written.program "define f(a) \x7bwhile (a) if (a) ((b * (" (.error e) := by
  have hparse : ∃ e, Program.parse "define f(a) \x7bwhile (a) if (a) ((b * (" = .error e ∧
      e.offset = 37 := ⟨_, rfl, rfl⟩
  obtain ⟨e, hparse, hoffset⟩ := hparse
  obtain ⟨-, -, hleast, -⟩ :=
    reading_terminates "define f(a) \x7bwhile (a) if (a) ((b * (" 76 (by decide)
  obtain ⟨-, -, hlarger, -⟩ :=
    reading_terminates "define f(a) \x7bwhile (a) if (a) ((b * (" 9000 (by decide)
  exact ⟨e, rfl, hoffset, (hleast _).2 hparse, (hlarger _).2 hparse⟩

end Grammar

end Scriptlet
