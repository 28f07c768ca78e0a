import Scriptlet.Proofs.Language.WellFormed

/-!
# Programs as text

`Program.render` writes a program as tokens with one space between any two, every application of an
operator in parentheses. Main statement: a well-formed program is read back from its text as it was
(`isProgram_render`), and since the parser yields only well-formed programs, reading and writing are
inverse to each other up to layout (`parse_render_round_trip`).

The proof goes token by token. In front of a text at which neither a blank nor a comment begins,
each token is read as the lexeme that it is (`symbol_spaced` and its kin), because the space after
it ends it. A tree is then derived from its tokens by recursion on the tree, for any tokens that
follow (`Spells`). Only statements ask for more of what follows: one that ends open must not stand
in front of an `else`.
-/

namespace Scriptlet

/-! ### Tokens -/

/-- What ends a tree in the place of a statement: expressions take a semicolon. -/
def Expr.terminator : Expr → List String
  | .assign _ _ | .block _ | .ifThen _ _ | .ifElse _ _ _ | .loop _ _ => []
  | _ => [";"]

mutual

/-- The tokens of a tree. -/
def Expr.tokens : Expr → List String
  | .integer n => [toString n.toInt]
  | .boolean b => [if b then "true" else "false"]
  | .variable name => [name]
  | .array items => "[" :: ([","].intercalate (tokensOfItems items) ++ ["]"])
  | .binary op left right => "(" :: (left.tokens ++ op.symbol :: (right.tokens ++ [")"]))
  | .call name arguments => name :: "(" :: ([","].intercalate (tokensOfItems arguments) ++ [")"])
  | .labelledCall name arguments =>
    name :: "[" :: ([","].intercalate (tokensOfLabelled arguments) ++ ["]"])
  | .assign name value => name :: "=" :: (value.tokens ++ [";"])
  | .block statements => "\x7b" :: (tokensOfStatements statements ++ ["\x7d"])
  | .ifThen condition consequence =>
    "if" :: "(" :: (condition.tokens ++ ")" :: (consequence.tokens ++ consequence.terminator))
  | .ifElse condition consequence alternative =>
    "if" :: "(" :: (condition.tokens ++ ")" :: (consequence.tokens ++ (consequence.terminator ++
      "else" :: (alternative.tokens ++ alternative.terminator))))
  | .loop condition body =>
    "while" :: "(" :: (condition.tokens ++ ")" :: (body.tokens ++ body.terminator))

/-- The tokens of each of the trees. -/
def tokensOfItems : List Expr → List (List String)
  | [] => []
  | e :: es => e.tokens :: tokensOfItems es

/-- The tokens of each of the labelled arguments. -/
def tokensOfLabelled : List (String × Expr) → List (List String)
  | [] => []
  | (label, e) :: arguments => (label :: "=" :: e.tokens) :: tokensOfLabelled arguments

/-- The tokens of statements in a row. -/
def tokensOfStatements : List Expr → List String
  | [] => []
  | e :: es => e.tokens ++ (e.terminator ++ tokensOfStatements es)

end

/-- The tokens of a definition. -/
def Definition.tokens : Definition → List String
  | .global ⟨name, initializer⟩ => "global" :: name :: "=" :: (initializer.tokens ++ [";"])
  | .function ⟨name, parameters, body⟩ =>
    "define" :: name :: "(" ::
      ([","].intercalate (parameters.map fun parameter => [parameter]) ++ ")" :: body.tokens)

/-- The program as tokens with one space between any two. -/
def Program.render (p : Program) : String :=
  " ".intercalate (p.definitions.flatMap Definition.tokens)

theorem tokensOfItems_eq (es : List Expr) : tokensOfItems es = es.map Expr.tokens := by
  induction es with
  | nil => rfl
  | cons e es ih => rw [tokensOfItems, ih, List.map_cons]

theorem tokensOfLabelled_eq (arguments : List (String × Expr)) :
    tokensOfLabelled arguments =
      arguments.map fun argument => argument.1 :: "=" :: argument.2.tokens := by
  induction arguments with
  | nil => rfl
  | cons argument arguments ih => rw [tokensOfLabelled, ih, List.map_cons]

theorem intercalate_comma_cons (first : List String) (others : List (List String)) :
    [","].intercalate (first :: others) = first ++ others.flatMap ("," :: ·) := by
  induction others generalizing first with
  | nil => rw [List.intercalate_singleton, List.flatMap_nil, List.append_nil]
  | cons next others ih =>
    rw [List.intercalate_cons_cons, ih, List.flatMap_cons, List.append_assoc, List.cons_append,
      List.cons_append, List.nil_append]

namespace Language

open Lexeme

/-! ### Spaces between tokens -/

variable {token : String} {tokens more : List String}

/-- Tokens with one space between any two. -/
def spaced (tokens : List String) : List Char :=
  [' '].intercalate (tokens.map String.toList)

/-- What stands between a token and the end of the text. -/
def gap (tokens : List String) : List Char :=
  if tokens = [] then [] else ' ' :: spaced tokens

theorem spaced_cons (token : String) (tokens : List String) :
    spaced (token :: tokens) = token.toList ++ gap tokens := by
  unfold gap spaced
  cases tokens with
  | nil => simp
  | cons next tokens => simp

theorem head_gap : ∀ c ∈ (gap tokens).head?, c = ' ' := by
  intro c hc
  unfold gap at hc
  split at hc
  · cases hc
  · exact (Option.some.inj hc).symm

theorem trivia_gap (h : Settled (spaced tokens)) : Trivia (gap tokens) (spaced tokens) := by
  unfold gap
  split
  · rename_i hnil
    rw [hnil] at h ⊢
    exact .done h
  · exact .blank (by decide) (.done h)

/-- The token is not empty, and no blank and no comment begins with it. -/
def isSolid (token : String) : Bool :=
  match token.toList with
  | [] => false
  | c :: cs => !isBlank c && (c != '/' || cs.isEmpty)

/-- A token that begins with a solidus is that solidus, so with another character after it no
comment begins. -/
theorem settled_append_of_isSolid {u : List Char} (h : isSolid token = true)
    (hu : u.head? ≠ some '/') : Settled (token.toList ++ u) := by
  unfold isSolid at h
  split at h
  · cases h
  · rename_i c cs htoken
    rw [Bool.and_eq_true, Bool.not_eq_true'] at h
    obtain ⟨hblank, hsolidus⟩ := h
    rw [htoken]
    refine ⟨fun x hx => ?_, fun hcomment => ?_⟩
    · obtain rfl : c = x := Option.some.inj hx
      exact hblank
    · obtain ⟨rest, hrest⟩ := hcomment
      have hfirst : c = '/' := ((List.cons.inj hrest).1).symm
      have hnil : cs = [] := by simpa [hfirst] using hsolidus
      rw [hnil] at hrest
      have hsecond : '/' :: rest = u := (List.cons.inj hrest).2
      exact hu (by rw [← hsecond, List.head?_cons])

theorem settled_spaced_cons (h : isSolid token = true) : Settled (spaced (token :: tokens)) := by
  rw [spaced_cons]
  refine settled_append_of_isSolid h fun hgap => ?_
  exact absurd (head_gap '/' hgap) (by decide)

theorem settled_spaced_nil : Settled (spaced []) := by decide

/-! ### Tokens as lexemes -/

theorem isSolid_of_mem_symbols : ∀ token ∈ symbols, isSolid token = true := by decide

theorem isSolid_of_mem_keywords : ∀ word ∈ keywords, isSolid word = true := by decide

theorem isBlank_of_isWordChar {c : Char} (h : isWordChar c = true) :
    isBlank c = false ∧ c ≠ '/' := by
  unfold isWordChar Char.isAlphanum Char.isAlpha Char.isUpper Char.isLower Char.isDigit at h
  simp only [Bool.or_eq_true, Bool.and_eq_true, decide_eq_true_eq, beq_iff_eq, ge_iff_le,
    UInt32.le_iff_toNat_le] at h
  -- Word characters are printable, and the only blank below is the space.
  have hrange : 48 ≤ c.toNat ∧ c.toNat ≤ 122 := by
    rcases h with ((⟨hl, hu⟩ | ⟨hl, hu⟩) | ⟨hl, hu⟩) | rfl
    · exact ⟨Nat.le_trans (by decide) hl, Nat.le_trans hu (by decide)⟩
    · exact ⟨Nat.le_trans (by decide) hl, Nat.le_trans hu (by decide)⟩
    · exact ⟨Nat.le_trans (by decide) hl, Nat.le_trans hu (by decide)⟩
    · decide
  constructor
  · simp only [isBlank, blankRanges, List.any_cons, List.any_nil, Bool.or_false,
      Bool.or_eq_false_iff, Bool.and_eq_false_imp, decide_eq_true_eq, decide_eq_false_iff_not]
    omega
  · rintro rfl
    exact absurd hrange (by decide)

theorem isWordChar_of_isDigit {c : Char} (h : c.isDigit = true) : isWordChar c = true := by
  unfold isWordChar Char.isAlphanum
  rw [h, Bool.or_true, Bool.true_or]

theorem isSolid_of_isName (h : IsName token) : isSolid token = true := by
  obtain ⟨hstart, -, -⟩ := h
  unfold isSolid
  cases htoken : token.toList with
  | nil =>
    rw [htoken] at hstart
    cases hstart
  | cons c cs =>
    rw [htoken, List.head?_cons, Option.any_some] at hstart
    obtain ⟨hblank, hsolidus⟩ := isBlank_of_isWordChar (isWordChar_of_isWordStart hstart)
    simp [hblank, hsolidus]

theorem symbol_spaced (h : Settled (spaced tokens)) :
    Symbol token (spaced (token :: tokens)) (spaced tokens) := by
  refine ⟨gap tokens, spaced_cons token tokens, fun _ hequals => ?_, trivia_gap h⟩
  exact absurd (head_gap '=' hequals) (by decide)

theorem head_gap_not_wordChar : ∀ c ∈ (gap tokens).head?, isWordChar c = false := by
  intro c hc
  rw [head_gap c hc]
  decide

theorem keyword_spaced (h : Settled (spaced tokens)) :
    Keyword token (spaced (token :: tokens)) (spaced tokens) :=
  ⟨gap tokens, spaced_cons token tokens, head_gap_not_wordChar, trivia_gap h⟩

theorem identifier_spaced (hname : IsName token) (h : Settled (spaced tokens)) :
    Identifier (spaced (token :: tokens)) token (spaced tokens) :=
  ⟨gap tokens, spaced_cons token tokens, hname, head_gap_not_wordChar, trivia_gap h⟩

theorem toList_toString_int (n : Int) :
    (toString n).toList = (if decide (n < 0) then ['-'] else []) ++ Nat.toDigits 10 n.natAbs := by
  cases n with
  | ofNat n =>
    show (toString n).toList = _
    rw [Nat.toString_eq_ofList_toDigits]
    simp
  | negSucc n =>
    show ("-" ++ toString (n + 1)).toList = _
    rw [Nat.toString_eq_ofList_toDigits]
    simp

theorem literalValue_toDigits (n : Int) :
    literalValue (decide (n < 0)) (Nat.toDigits 10 n.natAbs) = n := by
  unfold literalValue
  rw [Nat.ofDigitChars_ten_toDigits]
  by_cases hneg : n < 0
  · rw [if_pos (by simpa using hneg)]
    omega
  · rw [if_neg (by simpa using hneg)]
    omega

/-- In front of no further digit an integer's text is a literal. -/
theorem literal_toString (n : Integer) {u t : List Char} (hu : ∀ c ∈ u.head?, c.isDigit = false)
    (ht : Trivia u t) : Literal ((toString n.toInt).toList ++ u) n t := by
  refine ⟨decide (n.toInt < 0), Nat.toDigits 10 n.toInt.natAbs, u, ?_, ?_, ?_, hu, ?_, ht⟩
  · rw [toList_toString_int, List.append_assoc]
  · exact Nat.toDigits_ne_nil
  · exact fun d hd => Nat.isDigit_of_mem_toDigits (by decide) (by decide) hd
  · exact (literalValue_toDigits n.toInt).symm

theorem literal_spaced (n : Integer) (h : Settled (spaced tokens)) :
    Literal (spaced (toString n.toInt :: tokens)) n (spaced tokens) := by
  rw [spaced_cons]
  refine literal_toString n (fun c hc => ?_) (trivia_gap h)
  rw [head_gap c hc]
  decide

/-- The text of an integer begins with a minus sign or a digit, and so with no blank and no
comment. -/
theorem exists_toList_toString_int (n : Int) :
    ∃ c cs, (toString n).toList = c :: cs ∧ isBlank c = false ∧ c ≠ '/' := by
  rw [toList_toString_int]
  by_cases hneg : n < 0
  · rw [if_pos (by simpa using hneg)]
    exact ⟨'-', _, rfl, by decide, by decide⟩
  · rw [if_neg (by simpa using hneg), List.nil_append]
    obtain ⟨d, ds, hdigits⟩ :=
      List.exists_cons_of_ne_nil (Nat.toDigits_ne_nil (n := n.natAbs) (b := 10))
    have hd : d.isDigit = true :=
      Nat.isDigit_of_mem_toDigits (by decide) (by decide) (hdigits ▸ List.mem_cons_self ..)
    exact ⟨d, ds, hdigits, isBlank_of_isWordChar (isWordChar_of_isDigit hd)⟩

theorem isSolid_toString_int (n : Int) : isSolid (toString n) = true := by
  obtain ⟨c, cs, htext, hblank, hsolidus⟩ := exists_toList_toString_int n
  unfold isSolid
  rw [htext]
  simp [hblank, hsolidus]

/-! ### Trees from their tokens -/

section Spells

variable {α : Type} {R : Reading α} {a : α} {as : List α} {write : α → List String}

/-- In front of any other tokens, these are read as `a` and no more than these. -/
def Spells (R : Reading α) (tokens : List String) (a : α) : Prop :=
  ∀ more, Settled (spaced more) →
    R (spaced (tokens ++ more)) a (spaced more) ∧ Settled (spaced (tokens ++ more))

theorem spells_repeated (h : ∀ a ∈ as, Spells R (write a) a) :
    Spells (Repeated R) (as.flatMap write) as := by
  intro more hmore
  induction as with
  | nil => exact ⟨.nil, hmore⟩
  | cons a as ih =>
    obtain ⟨ha, has⟩ := List.forall_mem_cons.1 h
    obtain ⟨hrest, hsettled⟩ := ih has
    rw [List.flatMap_cons, List.append_assoc]
    obtain ⟨hfirst, hbegin⟩ := ha _ hsettled
    exact ⟨.cons hfirst hrest, hbegin⟩

theorem spells_after (h : Spells R tokens a) : Spells (After (Symbol ",") R) ("," :: tokens) a := by
  intro more hmore
  obtain ⟨hread, hsettled⟩ := h more hmore
  exact ⟨.mk (symbol_spaced hsettled) hread, settled_spaced_cons (by decide)⟩

/-- A list is spelled by its items with commas between. -/
theorem spells_separated (h : ∀ a ∈ as, Spells R (write a) a) :
    Spells (Separated (Symbol ",") R) ([","].intercalate (as.map write)) as := by
  intro more hmore
  cases as with
  | nil => exact ⟨.nil, hmore⟩
  | cons a as =>
    obtain ⟨ha, has⟩ := List.forall_mem_cons.1 h
    have hothers :
        Spells (Repeated (After (Symbol ",") R)) (as.flatMap fun a => "," :: write a) as :=
      spells_repeated fun a hmem => spells_after (has a hmem)
    rw [List.map_cons, intercalate_comma_cons, List.flatMap_map, List.append_assoc]
    obtain ⟨hrest, hsettled⟩ := hothers more hmore
    obtain ⟨hfirst, hbegin⟩ := ha _ hsettled
    exact ⟨.cons hfirst hrest, hbegin⟩

end Spells

variable {e : Expr} {s t : List Char}

/-- A phrase is one of any higher rank. -/
theorem Phrase.lift {k rank : Nat} (h : Phrase k s e t) (hle : k ≤ rank) : Phrase rank s e t := by
  induction hle with
  | refl => exact h
  | step _ ih => exact .chain ih .done

theorem operator_rank_bounds (op : Operator) : 1 ≤ op.rank ∧ op.rank ≤ 3 := by
  cases op <;> decide

/-- An operator goes on with a chain of its rank that ends before it. -/
theorem Chain.concat {operand : Nat → Reading Expr} {op : Operator} {first left right : Expr}
    {rank : Nat} {s₁ s₂ : List Char} (hleft : Chain operand first rank s left s₁)
    (hrank : op.rank = rank + 1) (hop : Symbol op.symbol s₁ s₂) (hright : operand rank s₂ right t) :
    Chain operand first rank s (.binary op left right) t := by
  induction hleft with
  | done => exact .more hrank hop hright .done
  | more hrank' hop' hright' _ ih => exact .more hrank' hop' hright' (ih hrank hop hright)

/-- Two operands with an operator between them. The left one may be a chain of operators that bind
as strongly, the right one only of operators that bind stronger. -/
theorem Phrase.binary {op : Operator} {left right : Expr} {s₁ s₂ : List Char}
    (hleft : Phrase op.rank s left s₁) (hop : Symbol op.symbol s₁ s₂)
    (hright : Phrase (op.rank - 1) s₂ right t) : Phrase op.rank s (.binary op left right) t := by
  have hpos : 1 ≤ op.rank := (operator_rank_bounds op).1
  obtain ⟨rank, hrank⟩ : ∃ rank, op.rank = rank + 1 := ⟨op.rank - 1, by omega⟩
  rw [hrank] at hleft hright ⊢
  cases hleft with
  | chain hfirst hchain => exact .chain hfirst (hchain.concat hrank hop hright)

theorem Spells.lift {k rank : Nat} (h : Spells (Phrase k) tokens e) (hle : k ≤ rank) :
    Spells (Phrase rank) tokens e :=
  fun more hmore => ⟨(h more hmore).1.lift hle, (h more hmore).2⟩

theorem spells_expression_of_phrase (h : Spells (Phrase 0) tokens e) : Spells Expression tokens e :=
  h.lift (Nat.zero_le 3)

theorem spells_name {name : String} (h : IsName name) : Spells Identifier [name] name :=
  fun _ hmore => ⟨identifier_spaced h hmore, settled_spaced_cons (isSolid_of_isName h)⟩

theorem spells_labelledArgument {label : String} (hlabel : IsName label)
    (h : Spells Expression tokens e) :
    Spells (LabelledArgument Expression) (label :: "=" :: tokens) (label, e) := by
  intro more hmore
  obtain ⟨hvalue, hsettled⟩ := h more hmore
  have hequals : Settled (spaced ("=" :: (tokens ++ more))) := settled_spaced_cons (by decide)
  exact ⟨.mk (identifier_spaced hlabel hequals) (symbol_spaced hsettled) hvalue,
    settled_spaced_cons (isSolid_of_isName hlabel)⟩

/-! ### Primary expressions -/

section Primary

variable {name : String} {items arguments : List Expr} {write : Expr → List String}

theorem spells_integer (n : Integer) : Spells (Phrase 0) [toString n.toInt] (.integer n) :=
  fun _ hmore =>
    ⟨.integer (literal_spaced n hmore), settled_spaced_cons (isSolid_toString_int n.toInt)⟩

theorem spells_boolean (b : Bool) :
    Spells (Phrase 0) [if b then "true" else "false"] (.boolean b) := by
  intro more hmore
  cases b with
  | true => exact ⟨.boolTrue (keyword_spaced hmore), settled_spaced_cons (by decide)⟩
  | false => exact ⟨.boolFalse (keyword_spaced hmore), settled_spaced_cons (by decide)⟩

theorem spells_variable (h : IsName name) : Spells (Phrase 0) [name] (.variable name) :=
  fun _ hmore => ⟨.name (identifier_spaced h hmore), settled_spaced_cons (isSolid_of_isName h)⟩

/-- An expression in parentheses is a primary one. -/
theorem spells_group (h : Spells Expression tokens e) :
    Spells (Phrase 0) ("(" :: (tokens ++ [")"])) e := by
  intro more hmore
  have hclose : Settled (spaced (")" :: more)) := settled_spaced_cons (by decide)
  obtain ⟨hinner, hsettled⟩ := h _ hclose
  rw [List.cons_append, List.append_assoc]
  exact ⟨.group (symbol_spaced hsettled) hinner (symbol_spaced hmore),
    settled_spaced_cons (by decide)⟩

theorem spells_array (h : ∀ e ∈ items, Spells Expression (write e) e) :
    Spells (Phrase 0) ("[" :: ([","].intercalate (items.map write) ++ ["]"])) (.array items) := by
  intro more hmore
  have hclose : Settled (spaced ("]" :: more)) := settled_spaced_cons (by decide)
  obtain ⟨hitems, hsettled⟩ := spells_separated h _ hclose
  rw [List.cons_append, List.append_assoc]
  exact ⟨.array (symbol_spaced hsettled) hitems (symbol_spaced hmore),
    settled_spaced_cons (by decide)⟩

theorem spells_call (hname : IsName name) (h : ∀ e ∈ arguments, Spells Expression (write e) e) :
    Spells (Phrase 0) (name :: "(" :: ([","].intercalate (arguments.map write) ++ [")"]))
      (.call name arguments) := by
  intro more hmore
  have hclose : Settled (spaced (")" :: more)) := settled_spaced_cons (by decide)
  obtain ⟨harguments, hsettled⟩ := spells_separated h _ hclose
  rw [List.cons_append, List.cons_append, List.append_assoc]
  exact ⟨.call (identifier_spaced hname (settled_spaced_cons (by decide))) (symbol_spaced hsettled)
    harguments (symbol_spaced hmore), settled_spaced_cons (isSolid_of_isName hname)⟩

theorem spells_labelledCall {arguments : List (String × Expr)} (hname : IsName name)
    (hlabels : ∀ argument ∈ arguments, IsName argument.1)
    (h : ∀ argument ∈ arguments, Spells Expression (write argument.2) argument.2) :
    Spells (Phrase 0) (name :: "[" :: ([","].intercalate
      (arguments.map fun argument => argument.1 :: "=" :: write argument.2) ++ ["]"]))
      (.labelledCall name arguments) := by
  intro more hmore
  have hclose : Settled (spaced ("]" :: more)) := settled_spaced_cons (by decide)
  obtain ⟨harguments, hsettled⟩ := spells_separated (fun argument hmem =>
    spells_labelledArgument (hlabels argument hmem) (h argument hmem)) _ hclose
  rw [List.cons_append, List.cons_append, List.append_assoc]
  exact ⟨.labelledCall (identifier_spaced hname (settled_spaced_cons (by decide)))
    (symbol_spaced hsettled) harguments (symbol_spaced hmore),
    settled_spaced_cons (isSolid_of_isName hname)⟩

end Primary

/-- Operands with an operator between them are spelled by their tokens with its symbol between. -/
theorem spells_binary {op : Operator} {left right : Expr} {leftTokens rightTokens : List String}
    (hleft : Spells (Phrase op.rank) leftTokens left)
    (hright : Spells (Phrase (op.rank - 1)) rightTokens right) :
    Spells (Phrase op.rank) (leftTokens ++ op.symbol :: rightTokens) (.binary op left right) := by
  intro more hmore
  obtain ⟨hsecond, hsettled⟩ := hright more hmore
  have hop : Settled (spaced (op.symbol :: (rightTokens ++ more))) :=
    settled_spaced_cons (isSolid_of_mem_symbols _ (operator_symbol_mem op).1)
  obtain ⟨hfirst, hbegin⟩ := hleft _ hop
  rw [List.append_assoc, List.cons_append]
  exact ⟨hfirst.binary (symbol_spaced hsettled) hsecond, hbegin⟩

/-- The tokens of an expression spell it, and that as a primary one. -/
theorem spells_tokens (h : IsExpression e) : Spells (Phrase 0) e.tokens e := by
  induction h with
  | integer n => exact spells_integer n
  | boolean b => exact spells_boolean b
  | name hname => exact spells_variable hname
  | array _ ih =>
    rw [Expr.tokens, tokensOfItems_eq]
    exact spells_array fun e he => spells_expression_of_phrase (ih e he)
  | @binary op left right _ _ ihleft ihright =>
    have hinner : Spells (Phrase op.rank) (left.tokens ++ op.symbol :: right.tokens)
        (.binary op left right) :=
      spells_binary (ihleft.lift (Nat.zero_le _)) (ihright.lift (Nat.zero_le _))
    simpa [Expr.tokens] using spells_group (hinner.lift (operator_rank_bounds op).2)
  | call hname _ ih =>
    rw [Expr.tokens, tokensOfItems_eq]
    exact spells_call hname fun e he => spells_expression_of_phrase (ih e he)
  | labelledCall hname hlabels _ ih =>
    rw [Expr.tokens, tokensOfLabelled_eq]
    exact spells_labelledCall hname hlabels fun argument hmem =>
      spells_expression_of_phrase (ih argument hmem)

/-! ### Statements -/

/-- In front of any other tokens the tokens of a statement are read as the statement. Where it ends
open, the others must not begin with `else`. -/
def SpellsStatement (e : Expr) : Prop :=
  ∀ more, Settled (spaced more) → (e.endsOpen = true → ∀ u, ¬ Keyword "else" (spaced more) u) →
    Statement (spaced (e.tokens ++ (e.terminator ++ more))) e (spaced more) ∧
      Settled (spaced (e.tokens ++ (e.terminator ++ more)))

theorem Statement.not_else {u : List Char} (h : Statement s e t) : ¬ Keyword "else" s u := by
  intro helse
  cases h with
  | loop hword => exact absurd (hword.unique (by decide) (by decide) helse) (by decide)
  | ifThen hword => exact absurd (hword.unique (by decide) (by decide) helse) (by decide)
  | ifElse hword => exact absurd (hword.unique (by decide) (by decide) helse) (by decide)
  | assign hname => exact hname.not_keyword (by decide) helse
  | block hopen =>
    exact Begins.not_startsWord (by decide) ⟨_, hopen⟩ (startsWord_of_keyword (by decide) helse)
  | expression h => exact h.beginsPhrase.not_keyword (by decide) (by decide) helse

/-- Statements in a row are spelled by their tokens. After each stands another statement or what
follows them all, so that no `else` follows any of them. -/
theorem repeated_tokensOfStatements {es : List Expr} (h : ∀ e ∈ es, SpellsStatement e)
    (hmore : Settled (spaced more)) (helse : ∀ u, ¬ Keyword "else" (spaced more) u) :
    Repeated Statement (spaced (tokensOfStatements es ++ more)) es (spaced more) ∧
      Settled (spaced (tokensOfStatements es ++ more)) ∧
      ∀ u, ¬ Keyword "else" (spaced (tokensOfStatements es ++ more)) u := by
  induction es with
  | nil => exact ⟨.nil, hmore, helse⟩
  | cons e es ih =>
    obtain ⟨he, hes⟩ := List.forall_mem_cons.1 h
    obtain ⟨hrest, hsettled, hnext⟩ := ih hes
    rw [tokensOfStatements, List.append_assoc, List.append_assoc]
    obtain ⟨hfirst, hbegin⟩ := he _ hsettled fun _ => hnext
    exact ⟨.cons hfirst hrest, hbegin, fun _ => hfirst.not_else⟩

/-- A block is spelled by its tokens, whatever follows it. -/
theorem block_tokensOfStatements {es : List Expr} (h : ∀ e ∈ es, SpellsStatement e)
    (hmore : Settled (spaced more)) :
    ∃ s t, Symbol "\x7b" (spaced ((Expr.block es).tokens ++ more)) s ∧ Repeated Statement s es t ∧
      Symbol "\x7d" t (spaced more) := by
  have hclose : Settled (spaced ("\x7d" :: more)) := settled_spaced_cons (by decide)
  have hbrace : ∀ u, ¬ Keyword "else" (spaced ("\x7d" :: more)) u := fun u helse =>
    Begins.not_startsWord (by decide) ⟨_, symbol_spaced hmore⟩
      (startsWord_of_keyword (by decide) helse)
  obtain ⟨hstatements, hsettled, -⟩ := repeated_tokensOfStatements h hclose hbrace
  rw [Expr.tokens, List.cons_append, List.append_assoc]
  exact ⟨_, _, symbol_spaced hsettled, hstatements, symbol_spaced hmore⟩

theorem IsExpression.terminator_eq (h : IsExpression e) : e.terminator = [";"] := by
  cases h <;> rfl

/-- A keyword and a condition in parentheses in front of a statement. -/
theorem condition_spaced (word : String) {rest : List String} (hword : word ∈ keywords)
    (h : IsExpression e) (hrest : Settled (spaced rest)) :
    ∃ s₁ s₂ s₃, Keyword word (spaced (word :: "(" :: (e.tokens ++ ")" :: rest))) s₁ ∧
      Symbol "(" s₁ s₂ ∧ Expression s₂ e s₃ ∧ Symbol ")" s₃ (spaced rest) ∧
      Settled (spaced (word :: "(" :: (e.tokens ++ ")" :: rest))) := by
  have hclose : Settled (spaced (")" :: rest)) := settled_spaced_cons (by decide)
  obtain ⟨hcondition, hsettled⟩ := spells_expression_of_phrase (spells_tokens h) _ hclose
  have hopen : Settled (spaced ("(" :: (e.tokens ++ ")" :: rest))) :=
    settled_spaced_cons (by decide)
  exact ⟨_, _, _, keyword_spaced hopen, symbol_spaced hsettled, hcondition, symbol_spaced hrest,
    settled_spaced_cons (isSolid_of_mem_keywords word hword)⟩

theorem spellsStatement (h : IsStatement e) : SpellsStatement e := by
  induction h with
  | @loop condition body hcondition _ ih =>
    intro more hmore helse
    obtain ⟨hbody, hsettled⟩ := ih more hmore helse
    obtain ⟨_, _, _, hword, hopen, hinner, hclose, hbegin⟩ :=
      condition_spaced "while" (by decide) hcondition hsettled
    simp only [Expr.tokens, Expr.terminator, List.cons_append, List.append_assoc, List.nil_append]
    exact ⟨.loop hword hopen hinner hclose hbody, hbegin⟩
  | @ifThen condition consequence hcondition _ ih =>
    intro more hmore helse
    have hno : ∀ u, ¬ Keyword "else" (spaced more) u := helse rfl
    obtain ⟨hconsequence, hsettled⟩ := ih more hmore fun _ => hno
    obtain ⟨_, _, _, hword, hopen, hinner, hclose, hbegin⟩ :=
      condition_spaced "if" (by decide) hcondition hsettled
    simp only [Expr.tokens, Expr.terminator, List.cons_append, List.append_assoc, List.nil_append]
    exact ⟨.ifThen hword hopen hinner hclose hconsequence hno, hbegin⟩
  | @ifElse condition consequence alternative hcondition _ hclosed _ ih ihalternative =>
    intro more hmore helse
    obtain ⟨halternative, hsettled⟩ := ihalternative more hmore helse
    have hword :
        Settled (spaced ("else" :: (alternative.tokens ++ (alternative.terminator ++ more)))) :=
      settled_spaced_cons (by decide)
    obtain ⟨hconsequence, hsettled'⟩ := ih _ hword (by rw [hclosed]; exact nofun)
    obtain ⟨_, _, _, hif, hopen, hinner, hclose, hbegin⟩ :=
      condition_spaced "if" (by decide) hcondition hsettled'
    simp only [Expr.tokens, Expr.terminator, List.cons_append, List.append_assoc, List.nil_append]
    exact ⟨.ifElse hif hopen hinner hclose hconsequence (keyword_spaced hsettled) halternative,
      hbegin⟩
  | assign hname hvalue =>
    intro more hmore _
    have hend : Settled (spaced (";" :: more)) := settled_spaced_cons (by decide)
    obtain ⟨hread, hsettled⟩ := spells_expression_of_phrase (spells_tokens hvalue) _ hend
    simp only [Expr.tokens, Expr.terminator, List.cons_append, List.append_assoc, List.nil_append]
    exact ⟨.assign (identifier_spaced hname (settled_spaced_cons (by decide)))
      (symbol_spaced hsettled) hread (symbol_spaced hmore),
      settled_spaced_cons (isSolid_of_isName hname)⟩
  | block _ ih =>
    intro more hmore _
    obtain ⟨_, _, hopen, hstatements, hclose⟩ := block_tokensOfStatements ih hmore
    exact ⟨.block hopen hstatements hclose, settled_spaced_cons (by decide)⟩
  | expression htree =>
    intro more hmore _
    have hend : Settled (spaced (";" :: more)) := settled_spaced_cons (by decide)
    rw [htree.terminator_eq]
    obtain ⟨hread, hsettled⟩ := spells_expression_of_phrase (spells_tokens htree) _ hend
    exact ⟨.expression hread (symbol_spaced hmore), hsettled⟩

/-! ### Programs -/

theorem spells_definition {d : Scriptlet.Definition} (h : IsDefinition d) :
    Spells Definition d.tokens d := by
  intro more hmore
  cases h with
  | @global name initializer hname hinitializer =>
    have hend : Settled (spaced (";" :: more)) := settled_spaced_cons (by decide)
    obtain ⟨hread, hsettled⟩ := spells_expression_of_phrase (spells_tokens hinitializer) _ hend
    have hequals : Settled (spaced ("=" :: (initializer.tokens ++ ";" :: more))) :=
      settled_spaced_cons (by decide)
    have hbegin : Settled (spaced (name :: "=" :: (initializer.tokens ++ ";" :: more))) :=
      settled_spaced_cons (isSolid_of_isName hname)
    simp only [Definition.tokens, List.cons_append, List.append_assoc, List.nil_append]
    exact ⟨.global (keyword_spaced hbegin) (identifier_spaced hname hequals)
      (symbol_spaced hsettled) hread (symbol_spaced hmore), settled_spaced_cons (by decide)⟩
  | @function name parameters statements hname hparameters hstatements =>
    obtain ⟨_, _, hopen, hbody, hclose⟩ :=
      block_tokensOfStatements (fun e he => spellsStatement (hstatements e he)) hmore
    have hblock : Settled (spaced ((Expr.block statements).tokens ++ more)) := by
      rw [Expr.tokens]
      exact settled_spaced_cons (by decide)
    have hclosing : Settled (spaced (")" :: ((Expr.block statements).tokens ++ more))) :=
      settled_spaced_cons (by decide)
    obtain ⟨hlist, hsettled⟩ :=
      spells_separated (fun x hx => spells_name (hparameters x hx)) _ hclosing
    simp only [Definition.tokens, List.cons_append, List.append_assoc]
    exact ⟨.function (keyword_spaced (settled_spaced_cons (isSolid_of_isName hname)))
      (identifier_spaced hname (settled_spaced_cons (by decide))) (symbol_spaced hsettled) hlist
      (symbol_spaced hblock) hopen hbody hclose, settled_spaced_cons (by decide)⟩

/-- The text of a well-formed program is one of the grammar. -/
theorem isProgram_render {p : Program} (h : p.WellFormed) : IsProgram p.render.toList p := by
  have hspells :
      Spells (Repeated Definition) (p.definitions.flatMap Definition.tokens) p.definitions :=
    spells_repeated fun d hd => spells_definition (h d hd)
  obtain ⟨hdefinitions, hsettled⟩ := hspells [] settled_spaced_nil
  rw [List.append_nil] at hdefinitions hsettled
  have htext : p.render.toList = spaced (p.definitions.flatMap Definition.tokens) :=
    String.toList_intercalate
  rw [htext]
  exact ⟨_, .done hsettled, hdefinitions⟩

end Language

open Scriptlet.Language

/-- The parser yields well-formed programs only, and each of them from its own text. -/
theorem parse_render_round_trip :
    (∀ (source : String) (p : Program), Program.parse source = .ok p → p.WellFormed) ∧
      ∀ p : Program, p.WellFormed → Program.parse p.render = .ok p :=
  ⟨fun _ _ h => wellFormed_of_isProgram (isProgram_of_parse h),
    fun _ h => parse_of_isProgram (isProgram_render h)⟩

/-- An `else` after a loop, a conditional after the `else`, and the least integer after a minus
sign. -/
theorem parse_render_nested_conditional : ∃ p : Program, p.WellFormed ∧
    p.render = "define main ( a ) \x7b if ( a ) while ( true ) \x7b \x7d else if " ++
      "( ( 1 - -9223372036854775808 ) ) f [ x = [ a ] ] ; \x7d" ∧
    Program.parse p.render = .ok p := by
  have hloop : IsStatement (.loop (.boolean true) (.block [])) :=
    .loop (.boolean true) (.block nofun)
  have hcondition :
      IsExpression (.binary .subtract (.integer 1) (.integer (-9223372036854775808))) :=
    .binary (.integer _) (.integer _)
  have harray : IsExpression (.array [.variable "a"]) :=
    .array (List.forall_mem_singleton.2 (.name (by decide)))
  have hcall : IsExpression (.labelledCall "f" [("x", .array [.variable "a"])]) :=
    .labelledCall (by decide) (List.forall_mem_singleton.2 (by decide))
      (List.forall_mem_singleton.2 harray)
  have hbody : IsStatement (.ifElse (.variable "a") (.loop (.boolean true) (.block []))
      (.ifThen (.binary .subtract (.integer 1) (.integer (-9223372036854775808)))
        (.labelledCall "f" [("x", .array [.variable "a"])]))) :=
    .ifElse (.name (by decide)) hloop rfl (.ifThen hcondition (.expression hcall))
  have hwellFormed : Program.WellFormed ⟨[.function ⟨"main", ["a"], .block [_]⟩]⟩ :=
    List.forall_mem_singleton.2
      (.function (by decide) (by decide) (List.forall_mem_singleton.2 hbody))
  exact ⟨_, hwellFormed, by decide +kernel, parse_render_round_trip.2 _ hwellFormed⟩

end Scriptlet
