import Scriptlet.Proofs.Language.Rules

/-!
# What the parser accepts is derivable

A parser is sound for a reading when all that it gives is read so. Each rule of the parser is sound
for its rule of the grammar, provided that the parser inside it is (`sound_ranked`,
`sound_statementRule`), and by induction on the number of openings so are the rules that refer to
themselves (`sound_expression`, `sound_statement`). No rule needs to know how its alternatives fail,
with one exception: a conditional without an alternative is given only where the keyword `else` was
refused.
-/

namespace Scriptlet

open Scriptlet.Language

namespace Parser

variable {α β : Type}

/-- All that the parser gives is read so. -/
def Sound (p : Parser α) (R : Reading α) : Prop :=
  ∀ c a c', p.Gives c a c' → R c.rest a c'.rest

/-- A list in which all is read so. -/
theorem separated_of_gives {p : Parser α} {R : Reading α} (hp : p.Sound R) {c c' : Cursor}
    {as : List α} (h : (Grammar.commaSeparated p).Gives c as c') :
    Separated (Symbol ",") R c.rest as c'.rest := by
  refine (separated_of_gives_sepBy h).map Cursor.rest ?_ hp
  rintro d d' ⟨_, hcomma⟩
  exact Lexeme.symbol_of_gives hcomma

theorem repeated_of_gives {p : Parser α} {R : Reading α} (hp : p.Sound R) {c c' : Cursor}
    {as : List α} (h : p.many.Gives c as c') : Repeated R c.rest as c'.rest :=
  (repeated_of_gives_many h).map Cursor.rest hp

theorem sound_unroll {name : String} {rule : Parser α → Parser α} {R : Reading α}
    (hrule : ∀ p, p.Sound R → (rule p).Sound R) (n : Nat) : (unroll name rule n).Sound R :=
  unroll_induction (P := fun p => p.Sound R) (fun _ _ _ h => absurd h not_gives_refuse) hrule n

theorem sound_recursive {name : String} {rule : Parser α → Parser α} {R : Reading α}
    (hrule : ∀ p, p.Sound R → (rule p).Sound R) : (recursive name rule).Sound R :=
  fun c a c' h => sound_unroll hrule (c.rest.length + 1) c a c' h

end Parser

namespace Grammar

open Lexeme Scriptlet.Parser

variable {c c' : Cursor} {p : Parser Expr}

/-! ### Expressions -/

theorem symbols_of_gives_parenthesized {α : Type} {p : Parser α} {a : α}
    (h : (parenthesized p).Gives c a c') :
    ∃ c₁ c₂, Symbol "(" c.rest c₁.rest ∧ p.Gives c₁ a c₂ ∧ Symbol ")" c₂.rest c'.rest := by
  obtain ⟨_, c₁, c₂, _, hopen, hinner, hclose⟩ := gives_between_iff.1 h
  exact ⟨c₁, c₂, symbol_of_gives hopen, hinner, symbol_of_gives hclose⟩

theorem symbols_of_gives_bracketed {α : Type} {p : Parser α} {a : α}
    (h : (bracketed p).Gives c a c') :
    ∃ c₁ c₂, Symbol "[" c.rest c₁.rest ∧ p.Gives c₁ a c₂ ∧ Symbol "]" c₂.rest c'.rest := by
  obtain ⟨_, c₁, c₂, _, hopen, hinner, hclose⟩ := gives_between_iff.1 h
  exact ⟨c₁, c₂, symbol_of_gives hopen, hinner, symbol_of_gives hclose⟩

/-- An operator is given with the way to join its operands. -/
theorem symbol_of_gives_oneOf {ops : List Operator} {join : Expr → Expr → Expr}
    (h : (oneOf ops).Gives c join c') :
    ∃ op ∈ ops, join = .binary op ∧ Symbol op.symbol c.rest c'.rest := by
  have hone : ∀ {op : Operator}, (operator op).Gives c join c' →
      join = .binary op ∧ Symbol op.symbol c.rest c'.rest := by
    intro op hop
    obtain ⟨_, hsymbol, rfl⟩ := gives_map_iff.1 hop
    exact ⟨rfl, symbol_of_gives hsymbol⟩
  refine oneOf_induction (P := fun ops q => q.Gives c join c' →
    ∃ op ∈ ops, join = .binary op ∧ Symbol op.symbol c.rest c'.rest) ?_ ?_ ?_ ops h
  · exact fun h => absurd h not_gives_refuse
  · intro op h
    obtain ⟨hjoin, hsymbol⟩ := hone h
    exact ⟨op, List.mem_cons_self .., hjoin, hsymbol⟩
  · intro op ops ih h
    rcases gives_orElse_iff.1 h with hfirst | ⟨-, hrest⟩
    · obtain ⟨hjoin, hsymbol⟩ := hone hfirst
      exact ⟨op, List.mem_cons_self .., hjoin, hsymbol⟩
    · obtain ⟨found, hmem, hjoin, hsymbol⟩ := ih hrest
      exact ⟨found, List.mem_cons_of_mem _ hmem, hjoin, hsymbol⟩

theorem sound_labelledArgument (hp : p.Sound Expression) :
    (labelledArgument p).Sound (LabelledArgument Expression) := by
  intro c argument c' h
  obtain ⟨label, c₁, hlabel, h⟩ := gives_bind_iff.1 h
  obtain ⟨_, c₂, hequals, h⟩ := gives_bind_iff.1 h
  obtain ⟨value, c₃, hvalue, h⟩ := gives_bind_iff.1 h
  obtain ⟨rfl, rfl⟩ := gives_pure_iff.1 h
  exact .mk (identifier_of_gives hlabel) (symbol_of_gives hequals) (hp _ _ _ hvalue)

theorem sound_call (hp : p.Sound Expression) : (call p).Sound (Phrase 0) := by
  intro c e c' h
  obtain ⟨name, c₁, hname, h⟩ := gives_bind_iff.1 h
  obtain ⟨arguments, c₂, harguments, h⟩ := gives_bind_iff.1 h
  obtain ⟨rfl, rfl⟩ := gives_pure_iff.1 h
  obtain ⟨d, d', hopen, hinner, hclose⟩ := symbols_of_gives_parenthesized harguments
  exact .call (identifier_of_gives hname) hopen (separated_of_gives hp hinner) hclose

theorem sound_labelledCall (hp : p.Sound Expression) : (labelledCall p).Sound (Phrase 0) := by
  intro c e c' h
  obtain ⟨name, c₁, hname, h⟩ := gives_bind_iff.1 h
  obtain ⟨arguments, c₂, harguments, h⟩ := gives_bind_iff.1 h
  obtain ⟨rfl, rfl⟩ := gives_pure_iff.1 h
  obtain ⟨d, d', hopen, hinner, hclose⟩ := symbols_of_gives_bracketed harguments
  exact .labelledCall (identifier_of_gives hname) hopen
    (separated_of_gives (sound_labelledArgument hp) hinner) hclose

theorem sound_array (hp : p.Sound Expression) : (array p).Sound (Phrase 0) := by
  intro c e c' h
  obtain ⟨items, hitems, rfl⟩ := gives_map_iff.1 h
  obtain ⟨d, d', hopen, hinner, hclose⟩ := symbols_of_gives_bracketed hitems
  exact .array hopen (separated_of_gives hp hinner) hclose

theorem sound_boolean : boolean.Sound (Phrase 0) := by
  intro c e c' h
  rcases gives_orElse_iff.1 h with h | ⟨-, h⟩
  · obtain ⟨_, hword, rfl⟩ := gives_map_iff.1 h
    exact .boolTrue (keyword_of_gives hword)
  · obtain ⟨_, hword, rfl⟩ := gives_map_iff.1 h
    exact .boolFalse (keyword_of_gives hword)

theorem sound_primary (hp : p.Sound Expression) : (primary p).Sound (Phrase 0) := by
  intro c e c' h
  -- Which alternatives were refused before does not matter: each one gives a phrase by itself.
  rcases gives_orElse_iff.1 h with h | ⟨-, h⟩
  · obtain ⟨d, d', hopen, hinner, hclose⟩ := symbols_of_gives_parenthesized h
    exact .group hopen (hp _ _ _ hinner) hclose
  rcases gives_orElse_iff.1 h with h | ⟨-, h⟩
  · obtain ⟨n, hn, rfl⟩ := gives_map_iff.1 h
    exact .integer (literal_of_gives hn)
  rcases gives_orElse_iff.1 h with h | ⟨-, h⟩
  · exact sound_call hp _ _ _ (gives_attempt_iff.1 h)
  rcases gives_orElse_iff.1 h with h | ⟨-, h⟩
  · exact sound_labelledCall hp _ _ _ (gives_attempt_iff.1 h)
  rcases gives_orElse_iff.1 h with h | ⟨-, h⟩
  · exact sound_array hp _ _ _ h
  rcases gives_orElse_iff.1 h with h | ⟨-, h⟩
  · exact sound_boolean _ _ _ h
  · obtain ⟨name, hname, rfl⟩ := gives_map_iff.1 h
    exact .name (identifier_of_gives hname)

/-- An operator of a rank, as the way to join its operands. -/
def Joins (rank : Nat) : Reading (Expr → Expr → Expr) :=
  fun s join t => ∃ op : Operator, op.rank = rank ∧ join = .binary op ∧ Symbol op.symbol s t

/-- A run of operators and operands, joined from the left, is a chain. -/
theorem chain_of_joins {rank : Nat} {left : Expr} {others : List ((Expr → Expr → Expr) × Expr)}
    {s t : List Char}
    (h : Repeated (Then (Joins (rank + 1)) fun join => Then (Phrase rank) fun right =>
      Returns (join, right)) s others t) :
    Chain Phrase left rank s (others.foldl (fun left step => step.1 left step.2) left) t := by
  induction h generalizing left with
  | nil => exact .done
  | cons hstep _ ih =>
    obtain ⟨⟨op, hrank, rfl, hsymbol⟩, hright, ⟨⟩⟩ := hstep
    exact .more hrank hsymbol hright ih

theorem chain_of_repeated {rank : Nat} (hp : p.Sound (Phrase rank)) {left : Expr}
    {others : List ((Expr → Expr → Expr) × Expr)}
    (h : Repeated (joined (oneOf (operatorsOf (rank + 1))) p).Gives c others c') :
    Chain Phrase left rank c.rest
      (others.foldl (fun left step => step.1 left step.2) left) c'.rest := by
  refine chain_of_joins (h.map Cursor.rest fun d (join, right) d' hstep => ?_)
  obtain ⟨d₁, hjoin, hright⟩ := gives_of_joined hstep
  obtain ⟨op, hop, rfl, hsymbol⟩ := symbol_of_gives_oneOf hjoin
  exact .mk ⟨op, mem_operatorsOf_iff.1 hop, rfl, hsymbol⟩ (.mk (hp _ _ _ hright) .mk)

theorem sound_ranked (hp : p.Sound Expression) (rank : Nat) :
    (ranked p rank).Sound (Phrase rank) := by
  induction rank with
  | zero => exact sound_primary hp
  | succ rank ih =>
    intro c e c' h
    obtain ⟨first, c₁, others, hfirst, hothers, rfl⟩ := gives_chainLeft_iff.1 h
    exact .chain (ih _ _ _ hfirst) (chain_of_repeated ih (repeated_of_gives_many hothers))

theorem sound_expression : expression.Sound Expression := by
  intro c e c' h
  exact sound_recursive (fun p hp => sound_ranked hp 3) c e c' (gives_label_iff.1 h)

/-! ### Statements -/

theorem condition_of_gives {e : Expr} (h : (parenthesized expression).Gives c e c') :
    ∃ c₁ c₂ : Cursor, Symbol "(" c.rest c₁.rest ∧ Expression c₁.rest e c₂.rest ∧
      Symbol ")" c₂.rest c'.rest := by
  obtain ⟨d, d', hopen, hinner, hclose⟩ := symbols_of_gives_parenthesized h
  exact ⟨d, d', hopen, sound_expression _ _ _ hinner, hclose⟩

theorem sound_loop (hp : p.Sound Statement) : (loop p).Sound Statement := by
  intro c e c' h
  obtain ⟨_, c₁, hword, h⟩ := gives_bind_iff.1 h
  obtain ⟨condition, c₂, hcondition, h⟩ := gives_bind_iff.1 h
  obtain ⟨body, c₃, hbody, h⟩ := gives_bind_iff.1 h
  obtain ⟨rfl, rfl⟩ := gives_pure_iff.1 h
  obtain ⟨d, d', hopen, hinner, hclose⟩ := condition_of_gives hcondition
  exact .loop (keyword_of_gives hword) hopen hinner hclose (hp _ _ _ hbody)

/-- Where a part after a keyword is refused, the keyword does not stand there. -/
theorem not_keyword_of_refuses {word : String} (hword : word.toList ≠ [])
    (h : (keyword word *> p).Refuses c) {t : List Char} : ¬ Keyword word c.rest t := by
  intro hkeyword
  obtain ⟨c₁, hgives, -⟩ := finds_keyword hkeyword c rfl
  obtain ⟨consumed, hrun⟩ := run_of_gives hgives
  have hconsumed := (advancing_keyword hword c () c₁ hgives).1
  -- The keyword has consumed input, so whatever comes after it, the reply is no refusal.
  obtain ⟨f, hf⟩ := h
  rw [seqRight_eq_bind, run_bind_of_ok hrun, Reply.after] at hf
  rw [hrun] at hconsumed
  have hfalse := congrArg Reply.consumed hf
  rw [show consumed = true from hconsumed] at hfalse
  cases hfalse

theorem sound_conditional (hp : p.Sound Statement) : (conditional p).Sound Statement := by
  intro c e c' h
  obtain ⟨_, c₁, hword, h⟩ := gives_bind_iff.1 h
  obtain ⟨condition, c₂, hcondition, h⟩ := gives_bind_iff.1 h
  obtain ⟨consequence, c₃, hconsequence, h⟩ := gives_bind_iff.1 h
  obtain ⟨alternative, c₄, halternative, h⟩ := gives_bind_iff.1 h
  obtain ⟨rfl, rfl⟩ := gives_pure_iff.1 h
  obtain ⟨d, d', hopen, hinner, hclose⟩ := condition_of_gives hcondition
  rcases gives_optional_iff.1 halternative with ⟨statement, rfl, helse⟩ | ⟨rfl, rfl, hrefuse⟩
  · obtain ⟨_, c₅, helse, hstatement⟩ := gives_seqRight_iff.1 helse
    exact .ifElse (keyword_of_gives hword) hopen hinner hclose (hp _ _ _ hconsequence)
      (keyword_of_gives helse) (hp _ _ _ hstatement)
  · -- The optional part is left out only where it is refused, which is where no `else` stands.
    exact .ifThen (keyword_of_gives hword) hopen hinner hclose (hp _ _ _ hconsequence)
      fun u => not_keyword_of_refuses (by decide) hrefuse

theorem sound_assignment : assignment.Sound Statement := by
  intro c e c' h
  obtain ⟨name, c₁, hname, h⟩ := gives_bind_iff.1 h
  obtain ⟨_, c₂, hequals, h⟩ := gives_bind_iff.1 h
  obtain ⟨value, c₃, hvalue, h⟩ := gives_bind_iff.1 h
  obtain ⟨_, c₄, hend, h⟩ := gives_bind_iff.1 h
  obtain ⟨rfl, rfl⟩ := gives_pure_iff.1 h
  exact .assign (identifier_of_gives hname) (symbol_of_gives hequals)
    (sound_expression _ _ _ hvalue) (symbol_of_gives hend)

/-- A block is a run of statements in braces. -/
theorem statements_of_gives_block (hp : p.Sound Statement) {e : Expr}
    (h : (block p).Gives c e c') :
    ∃ statements s t, e = .block statements ∧ Symbol "\x7b" c.rest s ∧
      Repeated Statement s statements t ∧ Symbol "\x7d" t c'.rest := by
  obtain ⟨statements, hstatements, rfl⟩ := gives_map_iff.1 h
  obtain ⟨_, c₁, c₂, _, hopen, hinner, hclose⟩ := gives_between_iff.1 hstatements
  exact ⟨statements, c₁.rest, c₂.rest, rfl, symbol_of_gives hopen, repeated_of_gives hp hinner,
    symbol_of_gives hclose⟩

theorem sound_statementRule (hp : p.Sound Statement) : (statementRule p).Sound Statement := by
  intro c e c' h
  rcases gives_orElse_iff.1 h with h | ⟨-, h⟩
  · exact sound_loop hp _ _ _ h
  rcases gives_orElse_iff.1 h with h | ⟨-, h⟩
  · exact sound_conditional hp _ _ _ h
  rcases gives_orElse_iff.1 h with h | ⟨-, h⟩
  · exact sound_assignment _ _ _ (gives_attempt_iff.1 h)
  rcases gives_orElse_iff.1 h with h | ⟨-, h⟩
  · obtain ⟨statements, s, t, rfl, hopen, hinner, hclose⟩ := statements_of_gives_block hp h
    exact .block hopen hinner hclose
  · obtain ⟨_, c₁, hinner, hend⟩ := gives_seqLeft_iff.1 h
    exact .expression (sound_expression _ _ _ hinner) (symbol_of_gives hend)

theorem sound_statement : statement.Sound Statement :=
  sound_recursive fun _ hp => sound_statementRule hp

/-! ### Programs -/

theorem sound_globalDefinition : globalDefinition.Sound Language.Definition := by
  intro c d c' h
  obtain ⟨_, c₁, hword, h⟩ := gives_bind_iff.1 h
  obtain ⟨name, c₂, hname, h⟩ := gives_bind_iff.1 h
  obtain ⟨_, c₃, hequals, h⟩ := gives_bind_iff.1 h
  obtain ⟨initializer, c₄, hinitializer, h⟩ := gives_bind_iff.1 h
  obtain ⟨_, c₅, hend, h⟩ := gives_bind_iff.1 h
  obtain ⟨rfl, rfl⟩ := gives_pure_iff.1 h
  exact .global (keyword_of_gives hword) (identifier_of_gives hname) (symbol_of_gives hequals)
    (sound_expression _ _ _ hinitializer) (symbol_of_gives hend)

theorem sound_functionDefinition : functionDefinition.Sound Language.Definition := by
  intro c d c' h
  obtain ⟨_, c₁, hword, h⟩ := gives_bind_iff.1 h
  obtain ⟨name, c₂, hname, h⟩ := gives_bind_iff.1 h
  obtain ⟨parameters, c₃, hparameters, h⟩ := gives_bind_iff.1 h
  obtain ⟨body, c₄, hbody, h⟩ := gives_bind_iff.1 h
  obtain ⟨rfl, rfl⟩ := gives_pure_iff.1 h
  obtain ⟨d, d', hopen, hinner, hclose⟩ := symbols_of_gives_parenthesized hparameters
  obtain ⟨statements, s, t, rfl, hbegin, hstatements, hend⟩ :=
    statements_of_gives_block sound_statement hbody
  exact .function (keyword_of_gives hword) (identifier_of_gives hname) hopen
    (separated_of_gives (fun _ _ _ => identifier_of_gives) hinner) hclose hbegin hstatements hend

theorem sound_definition : (globalDefinition <|> functionDefinition).Sound
    Language.Definition := by
  intro c d c' h
  rcases gives_orElse_iff.1 h with h | ⟨-, h⟩
  · exact sound_globalDefinition _ _ _ h
  · exact sound_functionDefinition _ _ _ h

theorem gives_spacing_iff {a : Unit} : spacing.Gives c a c' ↔ c' = c.skipTrivia := by
  unfold spacing Parser.Gives Reply.moved
  simp [eq_comm]

theorem gives_endOfInput_iff {a : Unit} : endOfInput.Gives c a c' ↔ c.rest = [] ∧ c' = c := by
  unfold endOfInput Parser.Gives Cursor.atEnd
  dsimp only
  by_cases hend : c.rest = []
  · simp [hend, eq_comm]
  · simp [hend, Reply.refusal]

/-- What is given as a whole text is given after its leading trivia and up to its end. -/
theorem gives_whole_iff {α : Type} {p : Parser α} {a : α} :
    (whole p).Gives c a c' ↔ p.Gives c.skipTrivia a c' ∧ c'.rest = [] := by
  unfold whole
  rw [gives_seqLeft_iff]
  constructor
  · rintro ⟨_, c₁, h, hend⟩
    obtain ⟨hnil, rfl⟩ := gives_endOfInput_iff.1 hend
    obtain ⟨_, c₂, hspacing, hp⟩ := gives_seqRight_iff.1 h
    rw [gives_spacing_iff.1 hspacing] at hp
    exact ⟨hp, hnil⟩
  · rintro ⟨hp, hnil⟩
    refine ⟨(), c', ?_, gives_endOfInput_iff.2 ⟨hnil, rfl⟩⟩
    exact gives_seqRight_iff.2 ⟨(), c.skipTrivia, gives_spacing_iff.2 rfl, hp⟩

theorem isProgram_of_gives {p : Program} (h : program.Gives c p c') : IsProgram c.rest p := by
  obtain ⟨hgives, hend⟩ := gives_whole_iff.1 h
  obtain ⟨definitions, hdefinitions, rfl⟩ := gives_map_iff.1 hgives
  have hrepeated := repeated_of_gives sound_definition hdefinitions
  rw [hend] at hrepeated
  exact ⟨c.skipTrivia.rest, trivia_skipTrivia c, hrepeated⟩

end Grammar

end Scriptlet
