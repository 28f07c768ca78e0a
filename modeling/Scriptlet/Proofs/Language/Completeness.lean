import Scriptlet.Proofs.Language.Soundness

/-!
# What is derivable is accepted

The parser tries its alternatives in order and never goes back once one of them has consumed input.
So a derivation is found by the parser only if each alternative before the right one declines, and
if each loop stops where the derivation does. Both are decided by the next lexeme: at most one
symbol, one keyword or one name begins a text, and

* a phrase of some rank may stop where no operator of this rank or a lower one follows, and no
bracket that would make a call of its last name (`Ends`, `finds_ranked`), * a statement that is an
expression does not begin like an assignment (`Phrase.not_begins_equals`), * a list, a block and a
program stop where none of their items begins (`declines_ranked`, `declines_statement`).

Together with soundness the parser accepts exactly the grammar (`Program.parse_eq_ok_iff`).
-/

namespace Scriptlet

namespace Language

open Lexeme

variable {a : String} {s t : List Char} {rank : Nat}

/-! ### Where a phrase may stop -/

/-- No operator of the rank or a lower one stands here, and no bracket that would make a call of a
name before it. -/
structure Ends (rank : Nat) (t : List Char) : Prop where
  operator : ∀ op : Operator, op.rank ≤ rank → ¬ Begins op.symbol t
  parenthesis : ¬ Begins "(" t
  bracket : ¬ Begins "[" t

theorem Ends.mono {k : Nat} (h : Ends rank t) (hk : k ≤ rank) : Ends k t where
  operator op hop := h.operator op (Nat.le_trans hop hk)
  parenthesis := h.parenthesis
  bracket := h.bracket

theorem operator_symbol_mem (op : Operator) : op.symbol ∈ symbols ∧
    op.symbol ∉ ["(", ")", "[", "]", "\x7b", "\x7d", ",", ";", "="] := by
  cases op <;> decide

theorem operator_symbol_inj {op op' : Operator} (h : op.symbol = op'.symbol) : op = op' := by
  revert h
  cases op <;> cases op' <;> decide

/-- Every phrase may stop before a closing bracket, a comma or a semicolon. -/
theorem ends_of_begins (ha : a ∈ [")", "]", ",", ";"]) (h : Begins a t) : Ends rank t := by
  have hsymbols : ∀ a ∈ [")", "]", ",", ";"], a ∈ symbols ∧ a ≠ "(" ∧ a ≠ "[" ∧
      a ∈ ["(", ")", "[", "]", "\x7b", "\x7d", ",", ";", "="] := by decide
  obtain ⟨hmem, hparenthesis, hbracket, hother⟩ := hsymbols a ha
  refine ⟨fun op _ hop => ?_, fun h' => ?_, fun h' => ?_⟩
  · have heq : a = op.symbol := h.unique hmem (operator_symbol_mem op).1 hop
    exact (operator_symbol_mem op).2 (heq ▸ hother)
  · exact hparenthesis (h.unique hmem (by decide) h')
  · exact hbracket (h.unique hmem (by decide) h')

/-- Every phrase may stop at the end of the text. -/
theorem ends_nil : Ends rank [] := by
  have hnot {a : String} (ha : a.toList ≠ []) : ¬ Begins a [] := by
    intro h
    obtain ⟨u, hu, -⟩ := begins_iff.1 h
    exact ha (List.append_eq_nil_iff.1 hu.symm).1
  refine ⟨fun op _ => hnot ?_, hnot (by decide), hnot (by decide)⟩
  cases op <;> decide

/-- A phrase may stop before an operator of a higher rank. -/
theorem ends_of_operator {op : Operator} (hop : op.rank = rank + 1) (h : Begins op.symbol t) :
    Ends rank t := by
  obtain ⟨hmem, hother⟩ := operator_symbol_mem op
  refine ⟨fun op' hrank h' => ?_, fun h' => ?_, fun h' => ?_⟩
  · have heq : op = op' := operator_symbol_inj (h.unique hmem (operator_symbol_mem op').1 h')
    rw [← heq, hop] at hrank
    omega
  · have heq : op.symbol = "(" := h.unique hmem (by decide) h'
    rw [heq] at hother
    exact absurd (by decide) hother
  · have heq : op.symbol = "[" := h.unique hmem (by decide) h'
    rw [heq] at hother
    exact absurd (by decide) hother

/-- The operand before a chain may stop there. -/
theorem Chain.ends {operand : Nat → Reading Expr} {left e : Expr}
    (h : Chain operand left rank s e t) (ht : Ends (rank + 1) t) : Ends rank s := by
  cases h with
  | done => exact ht.mono (Nat.le_succ rank)
  | more hop hsymbol _ _ => exact ends_of_operator hop ⟨_, hsymbol⟩

/-! ### How a phrase begins -/

/-- The text begins with a bracket, a literal, a truth value or a name. -/
inductive BeginsPhrase (s : List Char) : Prop
  | parenthesis : Begins "(" s → BeginsPhrase s
  | bracket : Begins "[" s → BeginsPhrase s
  | literal {n : Integer} {t : List Char} : Literal s n t → BeginsPhrase s
  | boolean {word : String} {t : List Char} :
    word ∈ ["true", "false"] → Keyword word s t → BeginsPhrase s
  | name {name : String} {t : List Char} : Identifier s name t → BeginsPhrase s

theorem Phrase.beginsPhrase {e : Expr} (h : Phrase rank s e t) : BeginsPhrase s :=
  Phrase.induction (P := fun _ s _ _ => BeginsPhrase s)
    (fun hopen _ _ => .parenthesis ⟨_, hopen⟩)
    (fun hn => .literal hn)
    (fun hname _ _ _ => .name hname)
    (fun hname _ _ _ => .name hname)
    (fun hopen _ _ => .bracket ⟨_, hopen⟩)
    (fun hword => .boolean (by decide) hword)
    (fun hword => .boolean (by decide) hword)
    (fun hname => .name hname)
    (fun hfirst _ => hfirst.2)
    h

theorem BeginsPhrase.not_keyword (h : BeginsPhrase s) {word : String} (hw : word ∈ keywords)
    (hne : word ∉ ["true", "false"]) {u : List Char} : ¬ Keyword word s u := by
  intro hword
  have hstarts : StartsWord s := startsWord_of_keyword hw hword
  have hkeywords : ∀ w ∈ ["true", "false"], w ∈ keywords := by decide
  cases h with
  | parenthesis hopen => exact hopen.not_startsWord (by decide) hstarts
  | bracket hopen => exact hopen.not_startsWord (by decide) hstarts
  | literal hn => exact hn.not_startsWord hstarts
  | boolean hmem hother =>
    obtain rfl := hword.unique hw (hkeywords _ hmem) hother
    exact hne hmem
  | name hname => exact hname.not_keyword hw hword

/-- A symbol begins a phrase only if it is an opening bracket or a minus sign. -/
theorem BeginsPhrase.not_begins (h : BeginsPhrase s) (ha : a ∈ symbols)
    (hne : a ∉ ["(", "[", "-"]) : ¬ Begins a s := by
  intro hbegins
  have hstarts : ¬ StartsWord s := hbegins.not_startsWord ha
  have hkeywords : ∀ w ∈ ["true", "false"], w ∈ keywords := by decide
  cases h with
  | parenthesis hopen =>
    rw [hbegins.unique ha (by decide) hopen] at hne
    exact hne (by decide)
  | bracket hopen =>
    rw [hbegins.unique ha (by decide) hopen] at hne
    exact hne (by decide)
  | literal hn =>
    refine hn.not_begins ha (fun heq => ?_) hbegins
    rw [heq] at hne
    exact hne (by decide)
  | boolean hmem hword => exact hstarts (startsWord_of_keyword (hkeywords _ hmem) hword)
  | name hname => exact hstarts (startsWord_of_identifier hname)

theorem not_begins_equals_of_begins (ha : a ∈ symbols) (hne : a ≠ "=") (h : Begins a s) :
    ¬ Begins "=" s :=
  fun h' => hne (h.unique ha (by decide) h')

theorem Identifier.unique_rest {name name' : String} {u v : List Char} (h : Identifier s name u)
    (h' : Identifier s name' v) : u = v :=
  ((finds_identifier h).unique (finds_identifier h')).2

/-- In a phrase that begins with a name, no equals sign follows the name, unless one follows the
phrase. -/
theorem Phrase.not_begins_equals {e : Expr} {name : String} {u : List Char} (h : Phrase rank s e t)
    (hname : Identifier s name u) (ht : ¬ Begins "=" t) : ¬ Begins "=" u := by
  -- Only a call or a plain name begins with a name, and both say what comes right after it.
  refine Phrase.induction (P := fun _ s _ t => ∀ name u, Identifier s name u → ¬ Begins "=" t →
      ¬ Begins "=" u)
    (fun hopen _ _ => ?group) (fun hn => ?integer) (fun hcalled hopen _ _ => ?call)
    (fun hcalled hopen _ _ => ?labelledCall) (fun hopen _ _ => ?array) (fun hword => ?boolTrue)
    (fun hword => ?boolFalse) (fun hplain => ?name) (fun hfirst hchain => ?chain) h name u hname ht
  case group | array =>
    intro name u hname
    exact absurd (startsWord_of_identifier hname) (Begins.not_startsWord (by decide) ⟨_, hopen⟩)
  case integer =>
    intro name u hname
    exact absurd (startsWord_of_identifier hname) hn.not_startsWord
  case call | labelledCall =>
    intro name u hname _
    rw [hname.unique_rest hcalled]
    exact not_begins_equals_of_begins (by decide) (by decide) ⟨_, hopen⟩
  case boolTrue | boolFalse =>
    intro name u hname
    exact absurd hword (hname.not_keyword (by decide))
  case name =>
    intro name u hname ht
    rw [hname.unique_rest hplain]
    exact ht
  case chain =>
    intro name u hname ht
    refine hfirst.2 name u hname ?_
    cases hchain with
    | done => exact ht
    | more _ hsymbol _ _ =>
      obtain ⟨hmem, hother⟩ := operator_symbol_mem _
      refine not_begins_equals_of_begins hmem (fun heq => ?_) ⟨_, hsymbol⟩
      rw [heq] at hother
      exact hother (by decide)

end Language

namespace Grammar

open Lexeme Scriptlet.Language Scriptlet.Parser

variable {a : String} {s t : List Char} {e : Expr} {rank : Nat}

/-! ### Operators -/

theorem finds_operator {op : Operator} (h : Symbol op.symbol s t) :
    (operator op).Finds s (.binary op) t :=
  (finds_symbol h).map _

theorem finds_oneOf {ops : List Operator} {op : Operator} (hop : op ∈ ops)
    (h : Symbol op.symbol s t) : (oneOf ops).Finds s (.binary op) t := by
  refine oneOf_induction (P := fun ops p => op ∈ ops → p.Finds s (.binary op) t) ?_ ?_ ?_ ops hop
  · exact nofun
  · intro op' hmem
    rw [List.mem_singleton.1 hmem] at h ⊢
    exact finds_operator h
  · intro op' ops ih hmem
    by_cases heq : op = op'
    · subst heq
      exact (finds_operator h).orElse _
    · -- An operator before the right one has another symbol.
      have hother : (operator op').Declines s := by
        refine (declines_symbol fun h' => heq ?_).map _
        exact operator_symbol_inj (Begins.unique (operator_symbol_mem op).1
          (operator_symbol_mem op').1 ⟨t, h⟩ h')
      exact hother.orElse (ih (List.mem_of_ne_of_mem heq hmem))

theorem declines_oneOf {ops : List Operator} (h : ∀ op ∈ ops, ¬ Begins op.symbol s) :
    (oneOf ops).Declines s := by
  refine oneOf_induction (P := fun ops p => (∀ op ∈ ops, ¬ Begins op.symbol s) → p.Declines s)
    ?_ ?_ ?_ ops h
  · exact fun _ => declines_refuse _ s
  · intro op hop
    exact (declines_symbol (hop op (List.mem_singleton_self op))).map _
  · intro op ops ih hop
    refine Declines.or ((declines_symbol (hop op (List.mem_cons_self ..))).map _) (ih ?_)
    exact fun op' hmem => hop op' (List.mem_cons_of_mem _ hmem)

theorem declines_oneOf_of_ends (h : Ends rank t) : (oneOf (operatorsOf rank)).Declines t :=
  declines_oneOf fun op hop => h.operator op (Nat.le_of_eq (mem_operatorsOf_iff.1 hop))

/-! ### Expressions -/

/-- No expression begins with a symbol that is neither an opening bracket nor a minus sign. -/
theorem declines_primary (p : Parser Expr) (ha : a ∈ symbols) (hne : a ∉ ["(", "[", "-"])
    (h : Begins a s) : (primary p).Declines s := by
  have hdistinct : a ≠ "(" ∧ a ≠ "[" ∧ a ≠ "-" := by simpa using hne
  obtain ⟨hparenthesis, hbracket, hminus⟩ := hdistinct
  have hstarts : ¬ StartsWord s := h.not_startsWord ha
  have hname : identifier.Declines s := declines_identifier_of_not_startsWord hstarts
  have hopen : (symbol "(").Declines s := declines_symbol_of_begins ha (by decide) h hparenthesis
  have harray : (symbol "[").Declines s := declines_symbol_of_begins ha (by decide) h hbracket
  have hword : ∀ {word}, word ∈ keywords → (keyword word).Declines s :=
    fun hw => declines_keyword_of_not_startsWord hw hstarts
  refine (hopen.between _ _).or ?_
  refine ((declines_integer_of_begins ha hminus h).map _).or ?_
  refine (hname.bind _).attempt.or ?_
  refine (hname.bind _).attempt.or ?_
  refine ((harray.between _ _).map _).or ?_
  exact (((hword (by decide)).map _).or ((hword (by decide)).map _)).or (hname.map _)

theorem declines_ranked (p : Parser Expr) (ha : a ∈ symbols) (hne : a ∉ ["(", "[", "-"])
    (h : Begins a s) (rank : Nat) : (ranked p rank).Declines s := by
  induction rank with
  | zero => exact declines_primary p ha hne h
  | succ rank ih => exact ih.bind _

theorem declines_unlabelled (ha : a ∈ symbols) (hne : a ∉ ["(", "[", "-"]) (h : Begins a s) :
    unlabelled.Declines s := by
  rw [unlabelled_eq]
  exact declines_ranked unlabelled ha hne h 3

/-- A list is found up to its closing bracket. -/
theorem finds_commaSeparated {α : Type} {p : Parser α} {as : List α} (hp : p.NeverBack)
    (h : Separated (Symbol ",") p.Finds s as t) (ha : a ∈ [")", "]"]) (ht : Begins a t)
    (hnil : p.Declines t) : (commaSeparated p).Finds s as t := by
  have hclosing : ∀ a ∈ [")", "]"], a ∈ symbols ∧ a ≠ "," := by decide
  obtain ⟨hmem, hne⟩ := hclosing a ha
  refine finds_sepBy hp (advancing_symbol (by decide)) ?_
    (declines_symbol_of_begins hmem (by decide) ht hne) fun _ => hnil
  exact h.map id (fun _ _ hcomma => ⟨(), finds_symbol hcomma⟩) fun _ _ _ hitem => hitem

/-- What is to be found of a phrase: it is found where it may stop. -/
def FoundWhereEnds : Nat → Reading Expr :=
  fun rank s e t => Ends rank t → (ranked unlabelled rank).Finds s e t

theorem finds_unlabelled_of (h : With FoundWhereEnds 3 s e t) (ht : Ends 3 t) :
    unlabelled.Finds s e t := by
  rw [unlabelled_eq]
  exact h.2 ht

theorem ends_of_symbol {u : List Char} (ha : a ∈ [")", "]", ",", ";"]) (h : Symbol a t u) :
    Ends rank t :=
  ends_of_begins ha ⟨u, h⟩

/-- The expressions of a list are found up to its closing bracket. -/
theorem finds_items {items : List Expr} {u : List Char}
    (h : Separated (Symbol ",") (With FoundWhereEnds 3) s items t) (ha : a ∈ [")", "]"])
    (ht : Symbol a t u) : (commaSeparated unlabelled).Finds s items t := by
  have hclosing :
      ∀ a ∈ [")", "]"], a ∈ [")", "]", ",", ";"] ∧ a ∈ symbols ∧ a ∉ ["(", "[", "-"] := by
    decide
  obtain ⟨hends, hmem, hne⟩ := hclosing a ha
  refine finds_commaSeparated advancing_unlabelled.neverBack ?_ ha ⟨u, ht⟩
    (declines_unlabelled hmem hne ⟨u, ht⟩)
  -- After each item stands a comma or the closing bracket.
  have hlast : Ends 3 t := ends_of_symbol hends ht
  have hfollow := h.follow (fun _ _ hcomma => ends_of_symbol (by decide) hcomma) hlast
  exact hfollow.map id (fun _ _ hcomma => hcomma) fun _ _ _ hitem =>
    finds_unlabelled_of hitem.1 hitem.2

theorem finds_labelledArguments {arguments : List (String × Expr)} {u : List Char}
    (h : Separated (Symbol ",") (LabelledArgument (With FoundWhereEnds 3)) s arguments t)
    (ht : Symbol "]" t u) : (commaSeparated (labelledArgument unlabelled)).Finds s arguments t := by
  have hnil : (labelledArgument unlabelled).Declines t :=
    (declines_identifier_of_not_startsWord (Begins.not_startsWord (by decide) ⟨u, ht⟩)).bind _
  refine finds_commaSeparated (advancing_labelledArgument advancing_unlabelled.neverBack).neverBack
    ?_ (by decide) ⟨u, ht⟩ hnil
  have hlast : Ends 3 t := ends_of_symbol (by decide) ht
  have hfollow := h.follow (fun _ _ hcomma => ends_of_symbol (by decide) hcomma) hlast
  refine hfollow.map id (fun _ _ hcomma => hcomma) ?_
  rintro s₁ argument t₁ ⟨hargument, hends⟩
  cases hargument with
  | mk hlabel hequals hvalue =>
    exact (finds_identifier hlabel).bind <| (finds_symbol hequals).bind <|
      (finds_unlabelled_of hvalue hends).bind (finds_pure _ _)

/-- At a word the parentheses and the literals decline. -/
theorem finds_primary_of_startsWord {p : Parser Expr} (hs : StartsWord s)
    (h : ((call p).attempt <|> (labelledCall p).attempt <|> array p <|> boolean
      <|> Expr.variable <$> identifier).Finds s e t) : (primary p).Finds s e t := by
  have hopen : (parenthesized p).Declines s :=
    (declines_symbol_of_startsWord (by decide) hs).between _ _
  have hinteger : (Expr.integer <$> integer).Declines s := (declines_integer_of_startsWord hs).map _
  exact hopen.orElse (hinteger.orElse h)

/-- A name is no call where no opening parenthesis follows it. -/
theorem declines_call {p : Parser Expr} {name : String} (hname : Identifier s name t)
    (ht : ¬ Begins "(" t) : (call p).attempt.Declines s :=
  (finds_identifier hname).attempt_declines (((declines_symbol ht).between _ _).bind _)

theorem declines_labelledCall {p : Parser Expr} {name : String} (hname : Identifier s name t)
    (ht : ¬ Begins "[" t) : (labelledCall p).attempt.Declines s :=
  (finds_identifier hname).attempt_declines (((declines_symbol ht).between _ _).bind _)

theorem finds_boolean {word : String} {b : Bool} (h : Keyword word s t)
    (hb : word = if b then "true" else "false") : boolean.Finds s (.boolean b) t := by
  cases b with
  | true =>
    obtain rfl : word = "true" := hb
    exact ((finds_keyword h).map _).orElse _
  | false =>
    obtain rfl : word = "false" := hb
    have hother : (keyword "true").Declines s := declines_keyword fun _ htrue =>
      absurd (h.unique (by decide) (by decide) htrue) (by decide)
    exact (hother.map _).orElse ((finds_keyword h).map _)

theorem finds_primary_boolean {p : Parser Expr} {word : String} {b : Bool} (h : Keyword word s t)
    (hb : word = if b then "true" else "false") : (primary p).Finds s (.boolean b) t := by
  have hw : word ∈ keywords := by
    rw [hb]
    cases b <;> decide
  have hstarts : StartsWord s := startsWord_of_keyword hw h
  have hname : identifier.Declines s := declines_identifier_of_keyword hw h
  have harray : (array p).Declines s :=
    ((declines_symbol_of_startsWord (by decide) hstarts).between _ _).map _
  refine finds_primary_of_startsWord hstarts ?_
  exact (hname.bind _).attempt.orElse <| (hname.bind _).attempt.orElse <|
    harray.orElse ((finds_boolean h hb).orElse _)

theorem finds_primary_name {p : Parser Expr} {name : String} (h : Identifier s name t)
    (ht : Ends 0 t) : (primary p).Finds s (.variable name) t := by
  have hstarts : StartsWord s := startsWord_of_identifier h
  have harray : (array p).Declines s :=
    ((declines_symbol_of_startsWord (by decide) hstarts).between _ _).map _
  have hword : ∀ {word}, word ∈ keywords → (keyword word).Declines s :=
    fun hw => declines_keyword fun _ => h.not_keyword hw
  have hboolean : boolean.Declines s :=
    ((hword (by decide)).map _).or ((hword (by decide)).map _)
  refine finds_primary_of_startsWord hstarts ?_
  exact (declines_call h ht.parenthesis).orElse <| (declines_labelledCall h ht.bracket).orElse <|
    harray.orElse (hboolean.orElse ((finds_identifier h).map _))

/-- A chain of operands that are found is found by the loop over its operators. -/
theorem exists_joined_of_chain {left : Expr} (h : Chain (With FoundWhereEnds) left rank s e t)
    (ht : Ends (rank + 1) t) :
    ∃ others : List ((Expr → Expr → Expr) × Expr),
      Repeated (joined (oneOf (operatorsOf (rank + 1))) (ranked unlabelled rank)).Finds s others t ∧
        e = others.foldl (fun left step => step.1 left step.2) left := by
  induction h with
  | done => exact ⟨[], .nil, rfl⟩
  | @more rank op left right e s s₁ s₂ t hop hsymbol hright hchain ih =>
    obtain ⟨others, hothers, rfl⟩ := ih ht
    have hoperand : (ranked unlabelled rank).Finds s₁ right s₂ := hright.2 (hchain.ends ht)
    refine ⟨(.binary op, right) :: others, .cons ?_ hothers, rfl⟩
    exact finds_joined (finds_oneOf (mem_operatorsOf_iff.2 hop) hsymbol) hoperand

/-- Every phrase is found where it may stop. -/
theorem finds_ranked (h : Phrase rank s e t) : FoundWhereEnds rank s e t := by
  refine Phrase.induction (P := FoundWhereEnds)
    (fun hopen hinner hclose => ?group) (fun hn => ?integer)
    (fun hname hopen harguments hclose => ?call)
    (fun hname hopen harguments hclose => ?labelledCall) (fun hopen hitems hclose => ?array)
    (fun hword => ?boolTrue) (fun hword => ?boolFalse) (fun hname => ?name)
    (fun hfirst hchain => ?chain) h
  -- In each case the alternatives before the right one decline, because of how the phrase begins.
  case group =>
    intro _
    have hexpression := finds_unlabelled_of hinner (ends_of_symbol (by decide) hclose)
    exact ((finds_symbol hopen).between hexpression (finds_symbol hclose)).orElse _
  case integer =>
    intro _
    have hparenthesis : (symbol "(").Declines _ :=
      declines_symbol (hn.not_begins (by decide) (by decide))
    exact (hparenthesis.between _ _).orElse (((finds_integer hn).map _).orElse _)
  case call =>
    intro _
    have hlist := (finds_symbol hopen).between (finds_items harguments (by decide) hclose)
      (finds_symbol hclose)
    have hcall : (call unlabelled).Finds _ (.call _ _) _ :=
      (finds_identifier hname).bind (hlist.bind (finds_pure _ _))
    exact finds_primary_of_startsWord (startsWord_of_identifier hname) (hcall.attempt.orElse _)
  case labelledCall =>
    intro _
    -- A call without labels is tried first, and gives the name back at the bracket.
    have hlist := (finds_symbol hopen).between (finds_labelledArguments harguments hclose)
      (finds_symbol hclose)
    have hcall : (labelledCall unlabelled).Finds _ (.labelledCall _ _) _ :=
      (finds_identifier hname).bind (hlist.bind (finds_pure _ _))
    have hparenthesis : ¬ Begins "(" _ := fun h =>
      absurd (Begins.unique (by decide) (by decide) ⟨_, hopen⟩ h) (by decide)
    exact finds_primary_of_startsWord (startsWord_of_identifier hname)
      ((declines_call hname hparenthesis).orElse (hcall.attempt.orElse _))
  case array =>
    intro _
    have hbegins : Begins "[" _ := ⟨_, hopen⟩
    have hname := declines_identifier_of_not_startsWord (hbegins.not_startsWord (by decide))
    have hparenthesis : (symbol "(").Declines _ :=
      declines_symbol_of_begins (by decide) (by decide) hbegins (by decide)
    have hinteger := declines_integer_of_begins (by decide) (by decide) hbegins
    have hlist := (finds_symbol hopen).between (finds_items hitems (by decide) hclose)
      (finds_symbol hclose)
    exact (hparenthesis.between _ _).orElse <| (hinteger.map _).orElse <|
      (hname.bind _).attempt.orElse <| (hname.bind _).attempt.orElse <| (hlist.map _).orElse _
  case boolTrue => exact fun _ => finds_primary_boolean hword rfl
  case boolFalse => exact fun _ => finds_primary_boolean hword rfl
  case name => exact finds_primary_name hname
  case chain =>
    intro ht
    -- Each operand may stop at the operator after it, which has a higher rank than its own.
    obtain ⟨others, hothers, rfl⟩ := exists_joined_of_chain hchain ht
    have hback : ∀ rank, (ranked unlabelled rank).NeverBack :=
      fun rank => (advancing_ranked advancing_unlabelled.neverBack rank).neverBack
    exact finds_chainLeft (advancing_oneOf _) (hback _) (hfirst.2 (hchain.ends ht)) hothers
      (declines_oneOf_of_ends ht)

/-- Every expression is found before a closing bracket, a comma or a semicolon. -/
theorem finds_expression (h : Expression s e t) (ht : Ends 3 t) : expression.Finds s e t := by
  have hunlabelled : unlabelled.Finds s e t := by
    rw [unlabelled_eq]
    exact finds_ranked h ht
  exact hunlabelled.label _

/-! ### Statements -/

theorem finds_condition {s₁ s₂ : List Char} (hopen : Symbol "(" s s₁) (h : Expression s₁ e s₂)
    (hclose : Symbol ")" s₂ t) : (parenthesized expression).Finds s e t :=
  (finds_symbol hopen).between (finds_expression h (ends_of_symbol (by decide) hclose))
    (finds_symbol hclose)

theorem declines_loop (p : Parser Expr) (h : ∀ t, ¬ Keyword "while" s t) : (loop p).Declines s :=
  (declines_keyword h).bind _

theorem declines_conditional (p : Parser Expr) (h : ∀ t, ¬ Keyword "if" s t) :
    (conditional p).Declines s :=
  (declines_keyword h).bind _

theorem declines_block (p : Parser Expr) (h : ¬ Begins "\x7b" s) : (block p).Declines s :=
  ((declines_symbol h).between _ _).map _

/-- No statement begins with a closing brace. -/
theorem declines_statement (h : Begins "\x7d" s) : statement.Declines s := by
  have hstarts : ¬ StartsWord s := h.not_startsWord (by decide)
  have hname : identifier.Declines s := declines_identifier_of_not_startsWord hstarts
  have hword : ∀ {word}, word ∈ keywords → ∀ t, ¬ Keyword word s t :=
    fun hw _ hkeyword => hstarts (startsWord_of_keyword hw hkeyword)
  have hbrace : ¬ Begins "\x7b" s := fun h' =>
    absurd (h.unique (by decide) (by decide) h') (by decide)
  have hexpression : expression.Declines s :=
    (declines_unlabelled (by decide) (by decide) h).label _
  rw [statement_eq]
  refine (declines_loop _ (hword (by decide))).or ?_
  refine (declines_conditional _ (hword (by decide))).or ?_
  exact (hname.bind _).attempt.or ((declines_block _ hbrace).or (hexpression.seqLeft _))

/-- A block whose statements are found is found. -/
theorem finds_block {statements : List Expr} {s₁ s₂ : List Char} (hopen : Symbol "\x7b" s s₁)
    (h : Repeated statement.Finds s₁ statements s₂) (hclose : Symbol "\x7d" s₂ t) :
    (block statement).Finds s (.block statements) t := by
  have hmany : statement.many.Finds s₁ statements s₂ :=
    finds_many advancing_statement h (declines_statement ⟨t, hclose⟩)
  exact ((finds_symbol hopen).between hmany (finds_symbol hclose)).map _

/-- A conditional is found with the alternative that is found after it, if any. -/
theorem finds_conditional {condition consequence : Expr} {alternative : Option Expr}
    {s₁ s₂ s₃ s₄ s₅ : List Char} (hword : Keyword "if" s s₁) (hopen : Symbol "(" s₁ s₂)
    (hcondition : Expression s₂ condition s₃) (hclose : Symbol ")" s₃ s₄)
    (hconsequence : statement.Finds s₄ consequence s₅)
    (halternative : (keyword "else" *> statement).optional.Finds s₅ alternative t) :
    (conditional statement).Finds s (conditionalOf condition consequence alternative) t :=
  (finds_keyword hword).bind <| (finds_condition hopen hcondition hclose).bind <|
    hconsequence.bind <| halternative.bind (finds_pure _ _)

/-- A conditional is no loop. -/
theorem finds_statement_of_conditional {s₁ : List Char} (hword : Keyword "if" s s₁)
    (h : (conditional statement).Finds s e t) : statement.Finds s e t := by
  have hloop : (loop statement).Declines s := declines_loop _ fun _ hwhile =>
    absurd (hword.unique (by decide) (by decide) hwhile) (by decide)
  rw [statement_eq]
  exact hloop.orElse (h.orElse _)

/-- A statement that is an expression does not begin like an assignment. -/
theorem declines_assignment {s₁ : List Char} (h : Expression s e s₁) (hend : Symbol ";" s₁ t) :
    assignment.attempt.Declines s := by
  have hequals : ¬ Begins "=" s₁ :=
    not_begins_equals_of_begins (a := ";") (by decide) (by decide) ⟨t, hend⟩
  by_cases hname : ∃ name u, Identifier s name u
  · -- The attempt reads the name, misses the equals sign and gives the name back.
    obtain ⟨name, u, hname⟩ := hname
    have hafter : ¬ Begins "=" u := h.not_begins_equals hname hequals
    exact (finds_identifier hname).attempt_declines ((declines_symbol hafter).bind _)
  · have hnone : identifier.Declines s := declines_identifier fun name u h' => hname ⟨name, u, h'⟩
    exact (hnone.bind _).attempt

theorem finds_statement (h : Statement s e t) : statement.Finds s e t := by
  refine Statement.induction (P := statement.Finds)
    (fun hword hopen hcondition hclose hbody => ?loop)
    (fun hword hopen hcondition hclose hconsequence helse => ?ifThen)
    (fun hword hopen hcondition hclose hconsequence helse halternative => ?ifElse)
    (fun hname hequals hvalue hend => ?assign) (fun hopen hstatements hclose => ?block)
    (fun hexpression hend => ?expression) h
  case loop =>
    have hloop : (loop statement).Finds _ (.loop _ _) _ :=
      (finds_keyword hword).bind <| (finds_condition hopen hcondition hclose).bind <|
        hbody.bind (finds_pure _ _)
    rw [statement_eq]
    exact hloop.orElse _
  case ifThen =>
    -- Without the side condition an `else` that follows would be taken into this conditional.
    have hnone : (keyword "else" *> statement).optional.Finds _ none _ :=
      ((declines_keyword helse).seqRight _).optional
    exact finds_statement_of_conditional hword
      (finds_conditional hword hopen hcondition hclose hconsequence hnone)
  case ifElse =>
    have hsome := ((finds_keyword helse).seqRight halternative).optional
    exact finds_statement_of_conditional hword
      (finds_conditional hword hopen hcondition hclose hconsequence hsome)
  case assign =>
    have hassignment : assignment.Finds _ (.assign _ _) _ :=
      (finds_identifier hname).bind <| (finds_symbol hequals).bind <|
        (finds_expression hvalue (ends_of_symbol (by decide) hend)).bind <|
          (finds_symbol hend).bind (finds_pure _ _)
    rw [statement_eq]
    exact (declines_loop _ fun _ => hname.not_keyword (by decide)).orElse <|
      (declines_conditional _ fun _ => hname.not_keyword (by decide)).orElse <|
      hassignment.attempt.orElse _
  case block =>
    have hstarts : ¬ StartsWord _ := Begins.not_startsWord (by decide) ⟨_, hopen⟩
    have hassignment := declines_identifier_of_not_startsWord hstarts
    rw [statement_eq]
    exact (declines_loop _ fun _ hw => hstarts (startsWord_of_keyword (by decide) hw)).orElse <|
      (declines_conditional _ fun _ hw => hstarts (startsWord_of_keyword (by decide) hw)).orElse <|
      (hassignment.bind _).attempt.orElse <| (finds_block hopen hstatements hclose).orElse _
  case expression =>
    have hbegins := hexpression.beginsPhrase
    have hfound := finds_expression hexpression (ends_of_symbol (by decide) hend)
    rw [statement_eq]
    exact (declines_loop _ fun _ => hbegins.not_keyword (by decide) (by decide)).orElse <|
      (declines_conditional _ fun _ => hbegins.not_keyword (by decide) (by decide)).orElse <|
      (declines_assignment hexpression hend).orElse <|
      (declines_block _ (hbegins.not_begins (by decide) (by decide))).orElse <|
      hfound.seqLeft (finds_symbol hend)

/-! ### Programs -/

theorem finds_parameters {names : List String} {u : List Char}
    (h : Separated (Symbol ",") Identifier s names t) (ht : Symbol ")" t u) :
    (commaSeparated identifier).Finds s names t := by
  have hnil : identifier.Declines t :=
    declines_identifier_of_not_startsWord (Begins.not_startsWord (by decide) ⟨u, ht⟩)
  refine finds_commaSeparated advancing_identifier.neverBack ?_ (by decide) ⟨u, ht⟩ hnil
  exact h.map id (fun _ _ hcomma => hcomma) fun _ _ _ hname => finds_identifier hname

theorem finds_definition {d : Definition} (h : Language.Definition s d t) :
    (globalDefinition <|> functionDefinition).Finds s d t := by
  cases h with
  | global hword hname hequals hinitializer hend =>
    have hglobal : globalDefinition.Finds s (.global ⟨_, _⟩) t :=
      (finds_keyword hword).bind <| (finds_identifier hname).bind <| (finds_symbol hequals).bind <|
        (finds_expression hinitializer (ends_of_symbol (by decide) hend)).bind <|
          (finds_symbol hend).bind (finds_pure _ _)
    exact hglobal.orElse _
  | function hword hname hopen hparameters hclose hbegin hstatements hend =>
    have hother : (keyword "global").Declines s := declines_keyword fun _ hglobal =>
      absurd (hword.unique (by decide) (by decide) hglobal) (by decide)
    have hlist := (finds_symbol hopen).between (finds_parameters hparameters hclose)
      (finds_symbol hclose)
    have hbody := finds_block hbegin (hstatements.map id fun _ _ _ h => finds_statement h) hend
    have hfunction : functionDefinition.Finds s (.function ⟨_, _, _⟩) t :=
      (finds_keyword hword).bind <| (finds_identifier hname).bind <| hlist.bind <|
        hbody.bind (finds_pure _ _)
    exact (hother.bind _).orElse hfunction

/-- No definition begins at the end of the text. -/
theorem declines_definition_nil : (globalDefinition <|> functionDefinition).Declines [] := by
  have hword : ∀ {word}, word ∈ keywords → (keyword word).Declines [] :=
    fun hw => declines_keyword_of_not_startsWord hw not_startsWord_nil
  exact ((hword (by decide)).bind _).or ((hword (by decide)).bind _)

theorem gives_of_isProgram {p : Program} {c : Cursor} (h : IsProgram c.rest p) :
    ∃ c', program.Gives c p c' := by
  obtain ⟨t, htrivia, hdefinitions⟩ := h
  have hmany : (globalDefinition <|> functionDefinition).many.Finds t p.definitions [] :=
    finds_many (advancing_globalDefinition.orElse advancing_functionDefinition)
      (hdefinitions.map id fun _ _ _ h => finds_definition h) declines_definition_nil
  obtain ⟨c', hgives, hend⟩ :=
    (hmany.map Program.mk) c.skipTrivia (rest_skipTrivia_iff.2 htrivia)
  exact ⟨c', gives_whole_iff.2 ⟨hgives, hend⟩⟩

theorem parseText_eq_ok_iff {α : Type} {p : Parser α} {source : String} {a : α} :
    parseText p source = .ok a ↔ ∃ c', p.Gives (.start source.toList) a c' := by
  unfold parseText Parser.Gives
  cases (p.run (.start source.toList)).result with
  | error f => simp
  | ok value =>
    obtain ⟨b, c'⟩ := value
    simp [eq_comm]

end Grammar

open Scriptlet.Language Grammar

theorem isProgram_of_parse {source : String} {p : Program} (h : Program.parse source = .ok p) :
    IsProgram source.toList p := by
  unfold Program.parse at h
  obtain ⟨c', hgives⟩ := parseText_eq_ok_iff.1 h
  exact isProgram_of_gives hgives

theorem parse_of_isProgram {source : String} {p : Program} (h : IsProgram source.toList p) :
    Program.parse source = .ok p := by
  unfold Program.parse
  obtain ⟨c', hgives⟩ := gives_of_isProgram (c := .start source.toList) h
  exact parseText_eq_ok_iff.2 ⟨c', hgives⟩

/-- A text that is an expression and nothing else is read as this expression. -/
theorem parse_of_expression {source : String} {e : Expr} {t : List Char}
    (htrivia : Trivia source.toList t) (h : Expression t e []) : Expr.parse source = .ok e := by
  unfold Expr.parse
  obtain ⟨c', hgives, hend⟩ :=
    finds_expression h ends_nil (Cursor.start source.toList).skipTrivia
      (rest_skipTrivia_iff.2 htrivia)
  exact parseText_eq_ok_iff.2 ⟨c', gives_whole_iff.2 ⟨hgives, hend⟩⟩

/-- The parser accepts exactly the texts of the grammar and gives the program that is derived. -/
theorem Program.parse_eq_ok_iff (source : String) (p : Program) :
    Program.parse source = .ok p ↔ IsProgram source.toList p :=
  ⟨isProgram_of_parse, parse_of_isProgram⟩

end Scriptlet
