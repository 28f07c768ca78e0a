import Scriptlet.Proofs.Language.Faithful

/-!
# Syntax errors are true

When a text is refused, the part of it before the place of the error begins some program, and each
thing that the error expects can come next in one: put on a new line after that part, it is the
first lexeme of a text that makes the whole a program (`Program.parse_error_truthful`).

Each rule of the parser is faithful to its rule of the grammar, if the parser inside it is
(`faithful_ranked`, `faithful_statementRule`). The proofs only name the parts of a rule in their
order and the constructor of the grammar that they make up. The one rule that is not built from
faithful parts is the alternative of a conditional, because the keyword `else` is never expected:
where it does not stand, the conditional ends without it (`faithful_alternative`).
-/

namespace Scriptlet

open Scriptlet.Language

namespace Grammar

open Lexeme Scriptlet.Parser

variable {α : Type} {p : Parser Expr}

/-! ### Brackets and lists -/

/-- Something between two symbols. -/
abbrev Enclosed (opening closing : String) (R : Reading α) : Reading α :=
  Then (Bare (Symbol opening)) fun _ =>
    Then R fun a => Then (Bare (Symbol closing)) fun _ => Returns a

theorem faithful_between {opening closing : String} {q : Parser α} {R : Reading α}
    (hopening : opening ∈ symbols) (hclosing : closing ∈ symbols) (hq : Faithful q R) :
    Faithful (q.between (symbol opening) (symbol closing)) (Enclosed opening closing R) := by
  rw [between, seqLeft_eq_bind, seqRight_eq_bind, LawfulMonad.bind_assoc]
  exact (faithful_symbol hopening).bind fun _ => hq.bind fun a =>
    (faithful_symbol hclosing).bind fun _ => faithful_pure a

theorem faithful_parenthesized {q : Parser α} {R : Reading α} (hq : Faithful q R) :
    Faithful (parenthesized q) (Enclosed "(" ")" R) :=
  faithful_between (by decide) (by decide) hq

theorem faithful_bracketed {q : Parser α} {R : Reading α} (hq : Faithful q R) :
    Faithful (bracketed q) (Enclosed "[" "]" R) :=
  faithful_between (by decide) (by decide) hq

theorem faithful_commaSeparated {q : Parser α} {R : Reading α} (hq : Faithful q R) :
    Faithful (commaSeparated q) (Separated (Symbol ",") R) := by
  have hcomma : Faithful (symbol ",") (Bare (Symbol ",")) := faithful_symbol (by decide)
  have hmore := (hcomma.seqRight hq).many
  have hlist : Faithful (q.sepBy1 (symbol ",")) _ :=
    hq.bind fun first => hmore.bind fun others => faithful_pure (first :: others)
  refine (hlist.optional.map (·.getD [])).mono ?_ hq.isLocal.separated
  rintro s as t ⟨hoptional, ⟨⟩⟩
  cases hoptional with
  | none => exact .nil
  | some h =>
    obtain ⟨hfirst, hothers, ⟨⟩⟩ := h
    refine .cons hfirst (hothers.map id ?_)
    rintro s a t ⟨hcomma, hitem⟩
    exact .mk hcomma hitem

/-! ### Expressions -/

theorem local_joins (rank : Nat) : Local (Joins rank) := by
  rintro k old s join t t' ⟨op, hrank, hjoin, hsymbol⟩ ht
  obtain ⟨s', hs, hsymbol'⟩ := hsymbol.graft (operator_symbol_mem op).1 ht
  exact ⟨s', hs, op, hrank, hjoin, hsymbol'⟩

theorem faithful_operator (op : Operator) : Faithful (operator op) (Joins op.rank) := by
  refine ((faithful_symbol (operator_symbol_mem op).1).map _).mono ?_ (local_joins op.rank)
  rintro s join t ⟨hsymbol, ⟨⟩⟩
  exact ⟨op, rfl, rfl, hsymbol⟩

theorem faithful_oneOf {rank : Nat} {ops : List Operator} (hne : ops ≠ [])
    (hrank : ∀ op ∈ ops, op.rank = rank) : Faithful (oneOf ops) (Joins rank) := by
  induction ops with
  | nil => exact absurd rfl hne
  | cons op ops ih =>
    obtain ⟨hop, hops⟩ := List.forall_mem_cons.1 hrank
    have hfirst : Faithful (operator op) (Joins rank) := hop ▸ faithful_operator op
    cases ops with
    | nil => exact hfirst
    | cons op' ops => exact hfirst.orElse (ih (List.cons_ne_nil op' ops) hops)

theorem faithful_labelledArgument (hp : Faithful p Expression) :
    Faithful (labelledArgument p) (LabelledArgument Expression) := by
  have hparts : Faithful (labelledArgument p) _ :=
    faithful_identifier.bind fun label => (faithful_symbol (by decide)).bind fun _ =>
      hp.bind fun value => faithful_pure (label, value)
  refine hparts.mono ?_ fun k old => backward_labelledArgument (local_phrase 3 k old)
  rintro s argument t ⟨hlabel, hequals, hvalue, ⟨⟩⟩
  exact .mk hlabel hequals hvalue

theorem faithful_call (hp : Faithful p Expression) : Faithful (call p) (Phrase 0) := by
  have hparts : Faithful (call p) _ :=
    faithful_identifier.bind fun name =>
      (faithful_parenthesized (faithful_commaSeparated hp)).bind fun arguments =>
        faithful_pure (Expr.call name arguments)
  refine hparts.mono ?_ (local_phrase 0)
  rintro s e t ⟨hname, ⟨hopen, harguments, hclose, ⟨⟩⟩, ⟨⟩⟩
  exact .call hname hopen harguments hclose

theorem faithful_labelledCall (hp : Faithful p Expression) :
    Faithful (labelledCall p) (Phrase 0) := by
  have harguments := faithful_commaSeparated (faithful_labelledArgument hp)
  have hparts : Faithful (labelledCall p) _ :=
    faithful_identifier.bind fun name => (faithful_bracketed harguments).bind fun arguments =>
      faithful_pure (Expr.labelledCall name arguments)
  refine hparts.mono ?_ (local_phrase 0)
  rintro s e t ⟨hname, ⟨hopen, harguments, hclose, ⟨⟩⟩, ⟨⟩⟩
  exact .labelledCall hname hopen harguments hclose

theorem faithful_array (hp : Faithful p Expression) : Faithful (array p) (Phrase 0) := by
  refine ((faithful_bracketed (faithful_commaSeparated hp)).map Expr.array).mono ?_ (local_phrase 0)
  rintro s e t ⟨⟨hopen, hitems, hclose, ⟨⟩⟩, ⟨⟩⟩
  exact .array hopen hitems hclose

theorem faithful_boolean : Faithful boolean (Phrase 0) := by
  have htrue : Faithful (keyword "true") _ := faithful_keyword (by decide) (by decide)
  have hfalse : Faithful (keyword "false") _ := faithful_keyword (by decide) (by decide)
  refine Faithful.orElse ((htrue.map _).mono ?_ (local_phrase 0))
    ((hfalse.map _).mono ?_ (local_phrase 0))
  · rintro s e t ⟨hword, ⟨⟩⟩
    exact .boolTrue hword
  · rintro s e t ⟨hword, ⟨⟩⟩
    exact .boolFalse hword

theorem faithful_primary (hp : Faithful p Expression) : Faithful (primary p) (Phrase 0) := by
  have hgroup : Faithful (parenthesized p) (Phrase 0) := by
    refine (faithful_parenthesized hp).mono ?_ (local_phrase 0)
    rintro s e t ⟨hopen, hinner, hclose, ⟨⟩⟩
    exact .group hopen hinner hclose
  have hinteger : Faithful (Expr.integer <$> integer) (Phrase 0) := by
    refine (faithful_integer.map Expr.integer).mono ?_ (local_phrase 0)
    rintro s e t ⟨hn, ⟨⟩⟩
    exact .integer hn
  have hname : Faithful (Expr.variable <$> identifier) (Phrase 0) := by
    refine (faithful_identifier.map Expr.variable).mono ?_ (local_phrase 0)
    rintro s e t ⟨hname, ⟨⟩⟩
    exact .name hname
  exact hgroup.orElse <| hinteger.orElse <| (faithful_call hp).attempt.orElse <|
    (faithful_labelledCall hp).attempt.orElse <| (faithful_array hp).orElse <|
    faithful_boolean.orElse hname

/-- The rule of each rank is faithful to the phrases of that rank. -/
theorem faithful_ranked (hp : Faithful p Expression) (rank : Nat) (hle : rank ≤ 3) :
    Faithful (ranked p rank) (Phrase rank) := by
  induction rank with
  | zero => exact faithful_primary hp
  | succ rank ih =>
    have hoperand := ih (by omega)
    have hsome : ∀ k < 3, operatorsOf (k + 1) ≠ [] := by decide
    have hne : operatorsOf (rank + 1) ≠ [] := hsome rank (by omega)
    have hjoins : Faithful (oneOf (operatorsOf (rank + 1))) (Joins (rank + 1)) :=
      faithful_oneOf hne fun op => mem_operatorsOf_iff.1
    have hjoined : Faithful (joined (oneOf (operatorsOf (rank + 1))) (ranked p rank)) _ :=
      hjoins.bind fun join => hoperand.bind fun right => faithful_pure (join, right)
    have hparts : Faithful (ranked p (rank + 1)) _ :=
      hoperand.bind fun first => hjoined.many.bind fun others =>
        faithful_pure (others.foldl (fun left step => step.1 left step.2) first)
    refine hparts.mono ?_ (local_phrase (rank + 1))
    rintro s e t ⟨hfirst, hothers, ⟨⟩⟩
    exact .chain hfirst (chain_of_joins hothers)

theorem faithful_expression : Faithful expression Expression :=
  (faithful_recursive (local_phrase 3) offers_expression fun _ hp =>
    faithful_ranked hp 3 (Nat.le_refl 3)).label offers_expression

/-! ### Statements -/

theorem faithful_condition : Faithful (parenthesized expression) (Enclosed "(" ")" Expression) :=
  faithful_parenthesized faithful_expression

theorem faithful_loop (hp : Faithful p Statement) : Faithful (loop p) Statement := by
  have hword : Faithful (keyword "while") _ := faithful_keyword (by decide) (by decide)
  have hparts : Faithful (loop p) _ :=
    hword.bind fun _ => faithful_condition.bind fun condition => hp.bind fun body =>
      faithful_pure (Expr.loop condition body)
  refine hparts.mono ?_ local_statement
  rintro s e t ⟨hword, ⟨hopen, hinner, hclose, ⟨⟩⟩, hbody, ⟨⟩⟩
  exact .loop hword hopen hinner hclose hbody

/-- The alternative of a conditional, where one follows. -/
inductive Alternative : Reading (Option Expr)
  | some {e : Expr} {s s₁ t : List Char} : Keyword "else" s s₁ → Statement s₁ e t →
    Alternative s (some e) t
  | none {s : List Char} : ¬ StartsElse s → Alternative s none s

theorem local_alternative : Local Alternative := by
  intro k old s o t t' h ht
  cases h with
  | some helse hstatement =>
    obtain ⟨s₁', hs₁, hstatement'⟩ := hstatement.graft ht
    obtain ⟨s', hs, helse'⟩ := helse.graft (by decide) hs₁
    exact ⟨s', hs, .some helse' hstatement'⟩
  | none hno => exact ⟨t', ht, .none fun helse => hno (ht.no_else helse)⟩

/-- An alternative fails only in the statement after its keyword. -/
theorem fails_alternative {c : Cursor} {f : Failure}
    (h : (keyword "else" *> p).optional.Fails c f) :
    ∃ c₁, (keyword "else").Gives c () c₁ ∧ p.Fails c₁ f := by
  have hrun := fails_optional h
  have hfails : (keyword "else" *> p).Fails c f := fails_of_run hrun
  rw [seqRight_eq_bind] at hfails
  rcases fails_bind hfails with hword | ⟨_, c₁, hword, hstatement⟩
  · -- A keyword that does not stand there is refused, and then nothing has been consumed.
    have hrefuses : (keyword "else").Refuses c := ⟨_, run_of_fails_lexeme hword⟩
    obtain ⟨g, hg⟩ := hrefuses.seqRight p
    rw [hrun] at hg
    cases hg
  · exact ⟨c₁, hword, hstatement⟩

theorem faithful_alternative (hp : Faithful p Statement) :
    Faithful (keyword "else" *> p).optional Alternative where
  sound c o c' h := by
    rcases gives_optional_iff.1 h with ⟨e, rfl, hsome⟩ | ⟨rfl, rfl, hrefuses⟩
    · obtain ⟨_, c₁, hword, hstatement⟩ := gives_seqRight_iff.1 hsome
      exact .some (keyword_of_gives hword) (hp.sound _ _ _ hstatement)
    · refine .none ?_
      rintro ⟨_, helse⟩
      exact not_keyword_of_refuses (by decide) hrefuses helse
  finish_eq c o c' h := by
    rcases gives_optional_iff.1 h with ⟨e, -, hsome⟩ | ⟨-, rfl, -⟩
    · obtain ⟨_, c₁, hword, hstatement⟩ := gives_seqRight_iff.1 hsome
      rw [hp.finish_eq _ _ _ hstatement, finish_of_gives_exactly hword]
    · rfl
  truthful c f h := by
    obtain ⟨c₁, hword, hstatement⟩ := fails_alternative h
    obtain ⟨hne, hall⟩ := hp.truthful c₁ f hstatement
    refine ⟨hne, fun x hx => ?_⟩
    refine (hall x hx).pull some (finish_of_gives_exactly hword) fun k old s₁ e t hs₁ hread => ?_
    obtain ⟨s, hs, helse⟩ := (keyword_of_gives hword).graft (by decide) hs₁
    exact ⟨s, hs, .some helse hread⟩
  isLocal := local_alternative
  writable := ⟨[], none, fun _ hmore => ⟨.none hmore.no_else, hmore⟩⟩

theorem faithful_conditional (hp : Faithful p Statement) : Faithful (conditional p) Statement := by
  have hword : Faithful (keyword "if") _ := faithful_keyword (by decide) (by decide)
  have hparts : Faithful (conditional p) _ :=
    hword.bind fun _ => faithful_condition.bind fun condition => hp.bind fun consequence =>
      (faithful_alternative hp).bind fun alternative =>
        faithful_pure (conditionalOf condition consequence alternative)
  refine hparts.mono ?_ local_statement
  rintro s e t ⟨hword, ⟨hopen, hinner, hclose, ⟨⟩⟩, hconsequence, halternative, ⟨⟩⟩
  cases halternative with
  | some helse hstatement => exact .ifElse hword hopen hinner hclose hconsequence helse hstatement
  | none hno => exact .ifThen hword hopen hinner hclose hconsequence fun u helse => hno ⟨u, helse⟩

theorem faithful_assignment : Faithful assignment Statement := by
  have hparts : Faithful assignment _ :=
    faithful_identifier.bind fun name => (faithful_symbol (by decide)).bind fun _ =>
      faithful_expression.bind fun value => (faithful_symbol (by decide)).bind fun _ =>
        faithful_pure (Expr.assign name value)
  refine hparts.mono ?_ local_statement
  rintro s e t ⟨hname, hequals, hvalue, hend, ⟨⟩⟩
  exact .assign hname hequals hvalue hend

theorem faithful_block (hp : Faithful p Statement) :
    Faithful (block p) (Then (Enclosed "\x7b" "\x7d" (Repeated Statement)) fun statements =>
      Returns (.block statements)) :=
  (faithful_between (by decide) (by decide) hp.many).map Expr.block

/-- The rule for statements is faithful, if the statements inside it are. -/
theorem faithful_statementRule (hp : Faithful p Statement) :
    Faithful (statementRule p) Statement := by
  have hblock : Faithful (block p) Statement := by
    refine (faithful_block hp).mono ?_ local_statement
    rintro s e t ⟨⟨hopen, hbody, hclose, ⟨⟩⟩, ⟨⟩⟩
    exact .block hopen hbody hclose
  have hexpression : Faithful (expression <* symbol ";") Statement := by
    refine (faithful_expression.seqLeft (faithful_symbol (by decide))).mono ?_ local_statement
    rintro s e t ⟨hinner, hend, ⟨⟩⟩
    exact .expression hinner hend
  exact (faithful_loop hp).orElse <| (faithful_conditional hp).orElse <|
    faithful_assignment.attempt.orElse <| hblock.orElse hexpression

theorem offers_statement : Offers Statement (.named "expression") := by
  obtain ⟨tokens, e, hopens⟩ := offers_expression
  have hsemicolon : Offers (Bare (Symbol ";")) (.token ";") := offers_symbol (by decide)
  obtain ⟨tokens', _, hend⟩ := hsemicolon.writable
  refine ⟨tokens ++ tokens', e, (hopens.append hend).mono ?_⟩
  rintro s t ⟨s₁, ⟨hmeets, hread⟩, hsymbol⟩
  exact ⟨hmeets, .expression hread hsymbol⟩

theorem faithful_statement : Faithful statement Statement := by
  -- The rule is never opened to its end, so it may be named after something that begins a
  -- statement.
  have hname : statement = recursive "expression" statementRule :=
    recursive_name_eq guarded_statementRule _ _
  rw [hname]
  exact faithful_recursive local_statement offers_statement fun _ hp => faithful_statementRule hp

/-! ### Definitions -/

theorem faithful_globalDefinition : Faithful globalDefinition Language.Definition := by
  have hword : Faithful (keyword "global") _ := faithful_keyword (by decide) (by decide)
  have hparts : Faithful globalDefinition _ :=
    hword.bind fun _ => faithful_identifier.bind fun name =>
      (faithful_symbol (by decide)).bind fun _ => faithful_expression.bind fun initializer =>
        (faithful_symbol (by decide)).bind fun _ =>
          faithful_pure (Scriptlet.Definition.global ⟨name, initializer⟩)
  refine hparts.mono ?_ local_definition
  rintro s d t ⟨hword, hname, hequals, hvalue, hend, ⟨⟩⟩
  exact .global hword hname hequals hvalue hend

theorem faithful_functionDefinition : Faithful functionDefinition Language.Definition := by
  have hword : Faithful (keyword "define") _ := faithful_keyword (by decide) (by decide)
  have hparameters := faithful_parenthesized (faithful_commaSeparated faithful_identifier)
  have hparts : Faithful functionDefinition _ :=
    hword.bind fun _ => faithful_identifier.bind fun name => hparameters.bind fun parameters =>
      (faithful_block faithful_statement).bind fun body =>
        faithful_pure (Scriptlet.Definition.function ⟨name, parameters, body⟩)
  refine hparts.mono ?_ local_definition
  rintro s d t ⟨hword, hname, ⟨hopen, hparameters, hclose, ⟨⟩⟩,
    ⟨⟨hbegin, hbody, hend, ⟨⟩⟩, ⟨⟩⟩, ⟨⟩⟩
  exact .function hword hname hopen hparameters hclose hbegin hbody hend

theorem faithful_definitions :
    Faithful (globalDefinition <|> functionDefinition).many (Repeated Language.Definition) :=
  (faithful_globalDefinition.orElse faithful_functionDefinition).many

/-! ### Programs -/

variable {c : Cursor} {f : Failure}

/-- A whole text fails where its contents do, or where they stop before its end. -/
theorem fails_whole {q : Parser α} (h : (whole q).Fails c f) :
    q.Fails c.skipTrivia f ∨
      ∃ a c', q.Gives c.skipTrivia a c' ∧ f = .single c'.pos .endOfInput := by
  have hspacing : ∀ {g}, ¬ spacing.Fails c g := nofun
  unfold whole at h
  rw [seqLeft_eq_bind, seqRight_eq_bind] at h
  rcases fails_bind h with h | ⟨a, c', hgives, h⟩
  · rcases fails_bind h with h | ⟨_, c₁, hskip, h⟩
    · exact absurd h hspacing
    · rw [gives_spacing_iff.1 hskip] at h
      exact .inl h
  · obtain ⟨_, c₁, hskip, hgives⟩ := gives_bind_iff.1 hgives
    rw [gives_spacing_iff.1 hskip] at hgives
    rcases fails_bind h with h | ⟨_, _, -, h⟩
    · exact .inr ⟨a, c', hgives, fails_endOfInput h⟩
    · exact absurd h not_fails_pure

end Grammar

namespace Language

open Grammar

variable {source old s : List Char} {k : Continuation} {pos : Nat}
  {definitions : List Scriptlet.Definition}

/-- The part of a text before `pos` and a continuation after it make a program, if the definitions
of one are read from the exchanged text on. -/
theorem isProgram_of_grafted (hpos : pos + byteSize old = byteSize source)
    (hgrafted : Grafted k old (Cursor.start source).skipTrivia.rest s)
    (hread : Repeated Definition s definitions []) :
    IsBoundary source pos ∧ IsProgram (takeBytes pos source ++ k.text) ⟨definitions⟩ := by
  have htrivia : Trivia source (Cursor.start source).skipTrivia.rest :=
    trivia_skipTrivia (.start source)
  obtain ⟨w, hw, rfl⟩ := hgrafted.placed
  rw [hw] at htrivia
  obtain ⟨v, hv⟩ := htrivia.exists_append
  have hsplit : source = (v ++ w) ++ old := by rw [List.append_assoc, hv]
  have hsize : pos = byteSize (v ++ w) := by
    rw [hsplit, byteSize_append] at hpos
    omega
  have htake : takeBytes pos source = v ++ w := by
    rw [hsize, hsplit, takeBytes_byteSize_append]
  refine ⟨(isBoundary_iff source pos).2 ⟨v ++ w, old, hsplit, hsize.symm⟩, ?_⟩
  rw [htake, List.append_assoc]
  exact ⟨k.after w, k.trivia_append htrivia rfl v hv, hread⟩

/-- The text is a program. -/
def Accepted (source : String) : Prop :=
  ∃ p, Program.parse source = .ok p

theorem accepted_of_isProgram {source : String} {p : Program} (h : IsProgram source.toList p) :
    Accepted source :=
  ⟨p, parse_of_isProgram h⟩

/-- What is expected can come next after the text in a program. Anything but the end comes next on a
new line. -/
def CanFollow (before : String) : Expectation → Prop
  | .endOfInput => Accepted before
  | x => ∃ t : String, Meets x t.toList ∧ Accepted (before ++ "\n" ++ t)

theorem canFollow_of_meets {before t : String} {x : Expectation} (hmeets : Meets x t.toList)
    (h : Accepted (before ++ "\n" ++ t)) : CanFollow before x := by
  cases x with
  | endOfInput => exact hmeets.elim
  | token text => exact ⟨t, hmeets, h⟩
  | named name => exact ⟨t, hmeets, h⟩

theorem CanFollow.accepted {before : String} {x : Expectation} (h : CanFollow before x) :
    ∃ t, Accepted (before ++ t) := by
  have hline : (∃ t : String, Meets x t.toList ∧ Accepted (before ++ "\n" ++ t)) →
      ∃ t, Accepted (before ++ t) := by
    rintro ⟨t, -, haccepted⟩
    exact ⟨"\n" ++ t, by rwa [← String.append_assoc]⟩
  cases x with
  | endOfInput => exact ⟨"", by rwa [String.append_empty]⟩
  | token text => exact hline h
  | named name => exact hline h

variable {f : Failure} {x : Expectation}

theorem finish_start (source : List Char) :
    (Cursor.start source).skipTrivia.finish = byteSize source := by
  rw [Cursor.finish_skipTrivia, Cursor.finish, Cursor.start, Nat.zero_add]

/-- Where a definition can be completed with what it expects, a program can be. -/
theorem canFollow_of_completable {source : String}
    (h : Completable (Repeated Definition) (Cursor.start source.toList).skipTrivia pos x) :
    IsBoundary source.toList pos ∧ CanFollow (String.ofList (takeBytes pos source.toList)) x := by
  obtain ⟨old, tokens, definitions, hpos, hopens, hreads⟩ := h
  obtain ⟨hmeets, hfresh⟩ := hopens [] fresh_spaced_nil
  obtain ⟨s, hgrafted, hread⟩ :=
    hreads [] (.line (spaced (tokens ++ [])) hfresh.settled) fresh_spaced_nil rfl
  rw [finish_start] at hpos
  obtain ⟨hboundary, hprogram⟩ := isProgram_of_grafted hpos hgrafted hread
  refine ⟨hboundary, ?_⟩
  apply canFollow_of_meets (t := String.ofList (spaced (tokens ++ [])))
  · rwa [String.toList_ofList]
  · apply accepted_of_isProgram
    simpa [Continuation.line] using hprogram

/-- Where the definitions of a text stop, what stands before is a program. -/
theorem canFollow_endOfInput {source : String} {c : Cursor}
    (h : (globalDefinition <|> functionDefinition).many.Gives
      (Cursor.start source.toList).skipTrivia definitions c) :
    IsBoundary source.toList c.pos ∧
      CanFollow (String.ofList (takeBytes c.pos source.toList)) .endOfInput := by
  have hpos : c.pos + byteSize c.rest = byteSize source.toList := by
    have hfinish := faithful_definitions.finish_eq _ _ _ h
    rwa [finish_start] at hfinish
  have hend : Grafted .stop c.rest c.rest [] := by
    refine ⟨⟨[], rfl, rfl⟩, fun helse => ?_⟩
    exact absurd helse (not_startsElse_of_not_startsWord not_startsWord_nil)
  have hread := faithful_definitions.sound _ _ _ h
  obtain ⟨s, hgrafted, hread'⟩ := faithful_definitions.isLocal .stop c.rest hread hend
  obtain ⟨hboundary, hprogram⟩ := isProgram_of_grafted hpos hgrafted hread'
  refine ⟨hboundary, accepted_of_isProgram (p := ⟨definitions⟩) ?_⟩
  simpa [Continuation.stop] using hprogram

/-- All that a failure of the parser expects can follow. -/
theorem canFollow_of_fails {source : String} (h : program.Fails (.start source.toList) f) :
    f.expected ≠ [] ∧ ∀ x ∈ f.expected, IsBoundary source.toList f.pos ∧
      CanFollow (String.ofList (takeBytes f.pos source.toList)) x := by
  rcases fails_whole h with hinner | ⟨p, c, hgives, rfl⟩
  · obtain ⟨hne, hall⟩ := faithful_definitions.truthful _ _ (Parser.fails_map hinner)
    exact ⟨hne, fun x hx => canFollow_of_completable (hall x hx)⟩
  · obtain ⟨definitions, hdefinitions, -⟩ := Parser.gives_map_iff.1 hgives
    refine ⟨List.cons_ne_nil _ _, fun x hx => ?_⟩
    obtain rfl : x = .endOfInput := List.mem_singleton.1 hx
    exact canFollow_endOfInput hdefinitions

end Language

/-- The text before the place of the error. -/
def SyntaxError.before (e : SyntaxError) (source : String) : String :=
  String.ofList (takeBytes e.offset source.toList)

theorem fails_of_parse {source : String} {e : SyntaxError} (h : Program.parse source = .error e) :
    ∃ f, Grammar.program.Fails (.start source.toList) f ∧ e = .ofFailure source.toList f := by
  unfold Program.parse Grammar.parseText at h
  split at h
  · cases h
  · rename_i f hfails
    exact ⟨f, hfails, (Except.error.inj h).symm⟩

/-- A syntax error is true: the text before its place, which is a boundary between characters,
begins a program, and each thing that it expects can come next in one. -/
theorem Program.parse_error_truthful {source : String} {e : SyntaxError}
    (h : Program.parse source = .error e) :
    IsBoundary source.toList e.offset ∧ (∃ t, Accepted (e.before source ++ t)) ∧
      ∀ x ∈ e.expected, CanFollow (e.before source) x := by
  obtain ⟨f, hfails, rfl⟩ := fails_of_parse h
  obtain ⟨hne, hall⟩ := canFollow_of_fails hfails
  obtain ⟨x, hx⟩ := List.exists_mem_of_ne_nil _ hne
  exact ⟨(hall x hx).1, (hall x hx).2.accepted, fun y hy => (hall y hy).2⟩

/-- The semicolon is missing after an alternative, with a comment before it that has a character of
two bytes. An assignment or an expression could have been meant. -/
theorem parse_error_truthful_after_else :
    Program.parse "define f() \x7b if (a) b; // é\nelse c \x7d" =
        .error ⟨36, ⟨2, 8⟩, [.token "=", .token ";"], "`\x7d`"⟩ ∧
      CanFollow "define f() \x7b if (a) b; // é\nelse c " (.token "=") ∧
      CanFollow "define f() \x7b if (a) b; // é\nelse c " (.token ";") := by
  have herror : Program.parse "define f() \x7b if (a) b; // é\nelse c \x7d" =
      .error ⟨36, ⟨2, 8⟩, [.token "=", .token ";"], "`\x7d`"⟩ := rfl
  obtain ⟨-, -, hfollow⟩ := Program.parse_error_truthful herror
  have hbefore : SyntaxError.before ⟨36, ⟨2, 8⟩, [.token "=", .token ";"], "`\x7d`"⟩
      "define f() \x7b if (a) b; // é\nelse c \x7d" =
        "define f() \x7b if (a) b; // é\nelse c " := by decide +kernel
  rw [hbefore] at hfollow
  exact ⟨herror, hfollow _ (by decide), hfollow _ (by decide)⟩

end Scriptlet
