import Scriptlet.Proofs.Language.Faithful
import Scriptlet.Proofs.Parsing.Choice

/-!
# Words and comparisons are read in one way

Names and reserved words are told apart by three rules that know nothing of each other: a name is a
longest word that is not in a list, a keyword is a fixed text that no word character follows, and a
word begins with a letter or an underscore. Together they leave no choice: where a word begins
exactly one of these readers succeeds, and it takes the longest word (`run_identifier`,
`run_keyword`); elsewhere none does. A symbol in front of an equals sign is likewise left to the
longer symbol.

So it does not matter in which order the comparison operators are tried. `comparisonAmong` tries
them in any order, and it takes the one that stands there (`run_comparisonAmong_of_begins`) or
refuses them all (`run_comparisonAmong_of_not_begins`). Main statement:
`words_and_comparisons_unambiguous`.
-/

namespace Scriptlet

namespace Lexeme

open Scriptlet.Language

variable {α : Type} {c c' : Cursor} {w : String}

/-! ### Words -/

/-- The longest word at a cursor. -/
def longestWord (c : Cursor) : String :=
  String.ofList (c.takeWhile isWordChar)

/-- The cursor after the longest word and the trivia that follow it. -/
def pastWord (c : Cursor) : Cursor :=
  (c.dropWhile isWordChar).skipTrivia

theorem toList_longestWord (c : Cursor) : (longestWord c).toList = c.rest.takeWhile isWordChar := by
  rw [longestWord, String.toList_ofList, Cursor.takeWhile]

theorem rest_eq_longestWord_append (c : Cursor) :
    c.rest = (longestWord c).toList ++ (c.dropWhile isWordChar).rest := by
  rw [toList_longestWord]
  exact List.takeWhile_append_dropWhile.symm

/-- A lexeme that succeeds has consumed input. -/
theorem run_lexeme_of_gives {expected : Expectation} {scan : Cursor → Option (α × Cursor)} {a : α}
    (h : (lexeme expected scan).Gives c a c') :
    (lexeme expected scan).run c = ⟨true, .ok (a, c')⟩ := by
  obtain ⟨d, hscan, rfl⟩ := gives_lexeme_iff.1 h
  simp only [lexeme, hscan]

theorem run_identifier (hstarts : StartsWord c.rest) (hword : longestWord c ∉ keywords) :
    identifier.run c = ⟨true, .ok (longestWord c, pastWord c)⟩ := by
  have hscan : scanIdentifier c = some (longestWord c, c.dropWhile isWordChar) := by
    have hcond : (c.current?.any isWordStart && !keywords.contains (longestWord c)) = true := by
      rw [Bool.and_eq_true]
      exact ⟨hstarts, by simpa using hword⟩
    exact if_pos hcond
  exact run_lexeme_of_gives (gives_lexeme_iff.2 ⟨_, hscan, rfl⟩)

theorem refuses_identifier (h : StartsWord c.rest → longestWord c ∈ keywords) :
    identifier.Refuses c := by
  refine declines_identifier (fun name t hname => ?_) c rfl
  have hword : longestWord c = name := by
    apply String.toList_inj.1
    rw [toList_longestWord, takeWhile_of_identifier hname]
  have hreserved : name ∈ keywords := hword ▸ h (startsWord_of_identifier hname)
  obtain ⟨-, -, ⟨-, -, hnot⟩, -⟩ := hname
  exact hnot hreserved

theorem run_keyword (c : Cursor) :
    (keyword (longestWord c)).run c = ⟨true, .ok ((), pastWord c)⟩ := by
  have hends : (!(c.dropWhile isWordChar).current?.any isWordChar) = true :=
    ends_keyword_iff.2 (head_dropWhile isWordChar c.rest)
  have hpos : (c.dropWhile isWordChar).pos = c.pos + byteSize (longestWord c).toList := by
    rw [toList_longestWord]
    rfl
  exact run_lexeme_of_gives
    (gives_exactly_iff.2 ⟨_, rest_eq_longestWord_append c, hpos, hends, rfl⟩)

theorem refuses_keyword (hw : w ∈ keywords) (h : w ≠ longestWord c) : (keyword w).Refuses c := by
  refine declines_keyword (fun t hkeyword => h ?_) c rfl
  apply String.toList_inj.1
  rw [toList_longestWord, takeWhile_of_keyword hw hkeyword]

/-- Where a word begins exactly one reader succeeds, and it takes the longest word. -/
theorem one_reader_of_startsWord (h : StartsWord c.rest) :
    longestWord c ∉ keywords ∧ identifier.run c = ⟨true, .ok (longestWord c, pastWord c)⟩ ∧
      (∀ w ∈ keywords, (keyword w).Refuses c) ∨
    longestWord c ∈ keywords ∧ (keyword (longestWord c)).run c = ⟨true, .ok ((), pastWord c)⟩ ∧
      identifier.Refuses c ∧ ∀ w ∈ keywords, w ≠ longestWord c → (keyword w).Refuses c := by
  by_cases hword : longestWord c ∈ keywords
  · right
    exact ⟨hword, run_keyword c, refuses_identifier fun _ => hword, fun _ hw => refuses_keyword hw⟩
  · left
    refine ⟨hword, run_identifier h hword, fun w hw => refuses_keyword hw ?_⟩
    rintro rfl
    exact hword hw

theorem no_reader_of_not_startsWord (h : ¬ StartsWord c.rest) :
    identifier.Refuses c ∧ ∀ w ∈ keywords, (keyword w).Refuses c :=
  ⟨refuses_identifier fun hstarts => absurd hstarts h,
    fun _ hw => declines_keyword_of_not_startsWord hw h c rfl⟩

/-- The symbols that an equals sign makes or extends, and the equals sign. -/
def equalsSymbols : List String :=
  ["=", "<", ">", "<=", ">=", "==", "!="]

theorem equalsSymbol_unique {a b : String} (ha : a ∈ equalsSymbols) (hb : b ∈ equalsSymbols)
    (h : (symbol a).Gives c () c') {d : Cursor} (h' : (symbol b).Gives c () d) : a = b := by
  have hsymbols : ∀ a ∈ equalsSymbols, a ∈ symbols := by decide
  have hbegins : Begins a c.rest := ⟨_, symbol_of_gives h⟩
  exact hbegins.unique (hsymbols a ha) (hsymbols b hb) ⟨_, symbol_of_gives h'⟩

end Lexeme

namespace Grammar

open Scriptlet.Language Scriptlet.Parser Lexeme

variable {c : Cursor} {op o : Operator} {ops : List Operator}

/-! ### Comparisons -/

/-- The comparison operators in the order in which the grammar tries them. -/
def comparisons : List Operator :=
  [.lessOrEqual, .greaterOrEqual, .equal, .notEqual, .lessThan, .greaterThan]

/-- The operators of a list, tried in its order. -/
def comparisonAmong (op : Operator) : List Operator → Parser (Expr → Expr → Expr)
  | [] => operator op
  | op' :: ops => operator op <|> comparisonAmong op' ops

theorem comparisonOperator_eq :
    comparisonOperator = comparisonAmong .lessOrEqual comparisons.tail := rfl

theorem exists_gives_operator (h : Begins op.symbol c.rest) :
    ∃ stop, (operator op).Gives c (.binary op) stop := by
  obtain ⟨t, ht⟩ := h
  obtain ⟨stop, hgives, -⟩ := finds_symbol ht c rfl
  exact ⟨stop, gives_map_iff.2 ⟨(), hgives, rfl⟩⟩

theorem run_operator_of_not_begins (h : ¬ Begins op.symbol c.rest) :
    (operator op).run c = .refusal c.pos (.token op.symbol) := by
  obtain ⟨f, hrun⟩ := declines_symbol h c rfl
  have hsymbol : (symbol op.symbol).run c = .refusal c.pos (.token op.symbol) :=
    run_of_fails_lexeme (fails_of_run hrun)
  rw [operator, run_map, hsymbol]
  rfl

/-- At most one operator stands at a place, so the others refuse and leave it to that one. -/
theorem run_comparisonAmong_of_begins (ho : o ∈ op :: ops) (h : Begins o.symbol c.rest) :
    (comparisonAmong op ops).run c = (operator o).run c := by
  induction ops generalizing op with
  | nil => rw [List.mem_singleton.1 ho, comparisonAmong]
  | cons op' ops ih =>
    rw [comparisonAmong]
    by_cases hop : Begins op.symbol c.rest
    · obtain ⟨stop, hgives⟩ := exists_gives_operator hop
      have heq : op = o :=
        operator_symbol_inj (hop.unique (operator_symbol_mem op).1 (operator_symbol_mem o).1 h)
      rw [run_orElse_of_gives hgives, heq]
    · have hmem : o ∈ op' :: ops := by
        refine (List.mem_cons.1 ho).resolve_left ?_
        rintro rfl
        exact hop h
      obtain ⟨stop, hgives⟩ := exists_gives_operator h
      have hothers : (comparisonAmong op' ops).Gives c (.binary o) stop := by
        rw [Gives, ih hmem]
        exact hgives
      rw [run_orElse_of_refuses ⟨_, run_operator_of_not_begins hop⟩ hothers, ih hmem]

/-- Where none of them stands, all are expected, in the order in which they are tried. -/
theorem run_comparisonAmong_of_not_begins (hnodup : (op :: ops).Nodup)
    (h : ∀ o ∈ op :: ops, ¬ Begins o.symbol c.rest) :
    (comparisonAmong op ops).run c =
      ⟨false, .error ⟨c.pos, (op :: ops).map fun o => .token o.symbol⟩⟩ := by
  induction ops generalizing op with
  | nil => exact run_operator_of_not_begins (h op (List.mem_cons_self ..))
  | cons op' ops ih =>
    obtain ⟨hop, hothers⟩ := List.forall_mem_cons.1 h
    have hrefusal := run_operator_of_not_begins hop
    have hrest := ih (List.nodup_cons.1 hnodup).2 hothers
    have htokens : ((op :: op' :: ops).map fun o => Expectation.token o.symbol).Nodup :=
      hnodup.map fun _ _ heq => operator_symbol_inj (Expectation.token.inj heq)
    show (Parser.orElse (operator op) fun _ => comparisonAmong op' ops).run c = _
    simp only [Parser.orElse, hrefusal, hrest, Reply.refusal]
    rw [Failure.single_merge htokens]
    rfl

theorem refuses_comparisonAmong (hnodup : (op :: ops).Nodup)
    (h : ∀ o ∈ op :: ops, ¬ Begins o.symbol c.rest) : (comparisonAmong op ops).Refuses c :=
  ⟨_, run_comparisonAmong_of_not_begins hnodup h⟩

/-- Where the operators fail, they fail for want of all of them. -/
theorem fails_comparisonAmong {f : Failure} (hnodup : (op :: ops).Nodup)
    (h : (comparisonAmong op ops).Fails c f) :
    f = ⟨c.pos, (op :: ops).map fun o => .token o.symbol⟩ := by
  have hnone : ∀ o ∈ op :: ops, ¬ Begins o.symbol c.rest := by
    intro o ho hbegins
    obtain ⟨stop, hgives⟩ := exists_gives_operator hbegins
    rw [Fails, run_comparisonAmong_of_begins ho hbegins, hgives] at h
    cases h
  rw [Fails, run_comparisonAmong_of_not_begins hnodup hnone] at h
  exact (Except.error.inj h).symm

/-- The order in which operators are tried changes no reply, refusals apart. -/
theorem agreesAt_of_perm {op' : Operator} {ops' : List Operator}
    (hperm : (op :: ops).Perm (op' :: ops')) (hnodup : (op :: ops).Nodup) (c : Cursor) :
    (comparisonAmong op ops).AgreesAt (comparisonAmong op' ops') c := by
  by_cases h : ∃ o ∈ op :: ops, Begins o.symbol c.rest
  · obtain ⟨o, ho, hbegins⟩ := h
    left
    rw [run_comparisonAmong_of_begins ho hbegins,
      run_comparisonAmong_of_begins (hperm.mem_iff.1 ho) hbegins]
  · have hnone : ∀ o ∈ op :: ops, ¬ Begins o.symbol c.rest := fun o ho hbegins => h ⟨o, ho, hbegins⟩
    right
    constructor
    · exact refuses_comparisonAmong hnodup hnone
    · exact refuses_comparisonAmong (hperm.nodup hnodup) fun o ho => hnone o (hperm.mem_iff.2 ho)

/-- No operator stands where the equals sign of an assignment does. -/
theorem not_begins_of_gives_equals {t : Cursor} (h : (symbol "=").Gives c () t) (o : Operator) :
    ¬ Begins o.symbol c.rest := by
  intro hbegins
  have hequals : Begins "=" c.rest := ⟨_, symbol_of_gives h⟩
  have heq : "=" = o.symbol := hequals.unique (by decide) (operator_symbol_mem o).1 hbegins
  exact (operator_symbol_mem o).2 (heq ▸ by decide)

/-- Words and comparison symbols are read in one way. Where a word begins, either it is not reserved
and only the reader of names succeeds, or it is and only the reader of this keyword does, and the
reader that succeeds takes the longest word. Where no word begins, all these readers refuse. At most
one of the symbols around the equals sign succeeds. So the comparison operators can be tried in any
order: the replies are the same, or all operators are refused, at the same place and for want of the
same symbols, which each order lists in its own way. A chain drops such a failure, so chains of
comparisons are the same parser for every order, failures included. In no order is the equals sign
of an assignment taken. -/
theorem words_and_comparisons_unambiguous (c : Cursor) :
    (StartsWord c.rest →
      longestWord c ∉ keywords ∧ identifier.run c = ⟨true, .ok (longestWord c, pastWord c)⟩ ∧
        (∀ w ∈ keywords, (keyword w).Refuses c) ∨
      longestWord c ∈ keywords ∧ (keyword (longestWord c)).run c = ⟨true, .ok ((), pastWord c)⟩ ∧
        identifier.Refuses c ∧ ∀ w ∈ keywords, w ≠ longestWord c → (keyword w).Refuses c) ∧
    (¬ StartsWord c.rest → identifier.Refuses c ∧ ∀ w ∈ keywords, (keyword w).Refuses c) ∧
    (∀ a ∈ equalsSymbols, ∀ b ∈ equalsSymbols, ∀ s t,
      (symbol a).Gives c () s → (symbol b).Gives c () t → a = b) ∧
    ∀ op ops, (op :: ops).Perm comparisons →
      (comparisonAmong op ops).AgreesAt comparisonOperator c ∧
      (∀ f g, (comparisonAmong op ops).Fails c f → comparisonOperator.Fails c g →
        f.pos = g.pos ∧ f.expected.Perm g.expected) ∧
      (∀ operand : Parser Expr,
        operand.chainLeft (comparisonAmong op ops) = operand.chainLeft comparisonOperator) ∧
      ∀ t, (symbol "=").Gives c () t → (comparisonAmong op ops).Refuses c := by
  refine ⟨one_reader_of_startsWord, no_reader_of_not_startsWord,
    fun a ha b hb s t hs ht => equalsSymbol_unique ha hb hs ht, fun op ops hperm => ?_⟩
  have hnodup : (op :: ops).Nodup := hperm.nodup_iff.2 (by decide)
  have hagrees : ∀ c, (comparisonAmong op ops).AgreesAt comparisonOperator c := by
    rw [comparisonOperator_eq]
    exact agreesAt_of_perm hperm hnodup
  refine ⟨hagrees c, fun f g hf hg => ?_, chainLeft_congr hagrees, fun t ht => ?_⟩
  · rw [comparisonOperator_eq] at hg
    obtain rfl := fails_comparisonAmong hnodup hf
    obtain rfl := fails_comparisonAmong (by decide) hg
    exact ⟨rfl, hperm.map fun o => Expectation.token o.symbol⟩
  · have hnone := not_begins_of_gives_equals ht
    exact refuses_comparisonAmong hnodup fun o _ => hnone o

/-- Where no comparison stands, the order in which the operators are tried shows in the refusal:
with the first two exchanged, the same symbols are expected at the same place, listed in another
order. -/
theorem comparisonAmong_exchanged_ne :
    ∃ op ops, (op :: ops).Perm comparisons ∧
      comparisonOperator.run (.start ['x']) =
        ⟨false, .error ⟨0, ["<=", ">=", "==", "!=", "<", ">"].map .token⟩⟩ ∧
      (comparisonAmong op ops).run (.start ['x']) =
        ⟨false, .error ⟨0, [">=", "<=", "==", "!=", "<", ">"].map .token⟩⟩ ∧
      (comparisonAmong op ops).run (.start ['x']) ≠ comparisonOperator.run (.start ['x']) := by
  have hgrammar : comparisonOperator.run (.start ['x']) =
      ⟨false, .error ⟨0, ["<=", ">=", "==", "!=", "<", ">"].map .token⟩⟩ := by rfl
  have hexchanged : (comparisonAmong .greaterOrEqual
        [.lessOrEqual, .equal, .notEqual, .lessThan, .greaterThan]).run (.start ['x']) =
      ⟨false, .error ⟨0, [">=", "<=", "==", "!=", "<", ">"].map .token⟩⟩ := by rfl
  refine ⟨_, _, List.Perm.swap _ _ _, hgrammar, hexchanged, ?_⟩
  rw [hgrammar, hexchanged]
  intro heq
  injection heq with _ hresult
  injection hresult with hfailure
  exact absurd (congrArg (fun f : Failure => f.expected.head?) hfailure) (by decide)

end Grammar

end Scriptlet
