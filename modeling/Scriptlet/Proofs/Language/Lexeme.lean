import Mathlib.Data.List.Basic
import Scriptlet.Lexeme
import Scriptlet.Proofs.Parsing.Repetition
import Scriptlet.Proofs.Text.Trivia

/-!
# Lexemes as parts of a text

A reading `R s a t` says that the text `s` begins with something that stands for `a`, and that `t`
is what follows it. The lexemes of the language are the smallest readings: `Symbol`, `Keyword`,
`Identifier` and `Literal`, each together with the trivia after it. They are said without a scanner:
a word is a longest run of word characters, and a symbol that an equals sign would extend is not
directly before one.

Main statements: each lexeme parser gives exactly what its reading says, and declines every other
text (`finds_symbol`, `declines_symbol` and their kin). No two lexemes begin at one place, except
that a minus sign may also begin a literal (`Begins.unique`, `Begins.not_startsWord`,
`takeWhile_of_identifier`).
-/

namespace Scriptlet

namespace Language

/-- What a text begins with and what follows it. -/
abbrev Reading (α : Type) :=
  Step (List Char) α

/-- A symbol, not taken out of a longer one, and the trivia after it. -/
def Symbol (text : String) (s t : List Char) : Prop :=
  ∃ u, s = text.toList ++ u ∧ (text ∈ Lexeme.extendable → u.head? ≠ some '=') ∧ Trivia u t

/-- A keyword, not taken out of a longer word, and the trivia after it. -/
def Keyword (word : String) (s t : List Char) : Prop :=
  ∃ u, s = word.toList ++ u ∧ (∀ c ∈ u.head?, Lexeme.isWordChar c = false) ∧ Trivia u t

/-- A word that is not reserved: a letter or an underscore, then letters, digits and underscores. -/
def IsName (name : String) : Prop :=
  name.toList.head?.any Lexeme.isWordStart = true ∧ name.toList.all Lexeme.isWordChar = true ∧
    name ∉ Lexeme.keywords

instance (name : String) : Decidable (IsName name) :=
  inferInstanceAs (Decidable (_ ∧ _ ∧ _))

theorem IsName.toList_ne_nil {name : String} (h : IsName name) : name.toList ≠ [] := by
  intro hnil
  have hstart := h.1
  rw [hnil] at hstart
  cases hstart

/-- A name that is a longest word, and the trivia after it. -/
def Identifier (s : List Char) (name : String) (t : List Char) : Prop :=
  ∃ u, s = name.toList ++ u ∧ IsName name ∧
    (∀ c ∈ u.head?, Lexeme.isWordChar c = false) ∧ Trivia u t

/-- An optional minus sign and a longest run of digits whose value is in range, and the trivia after
them. -/
def Literal (s : List Char) (n : Integer) (t : List Char) : Prop :=
  ∃ (negative : Bool) (digits u : List Char),
    s = (if negative then ['-'] else []) ++ (digits ++ u) ∧ digits ≠ [] ∧
    (∀ d ∈ digits, d.isDigit = true) ∧ (∀ c ∈ u.head?, c.isDigit = false) ∧
    n.toInt = Lexeme.literalValue negative digits ∧ Trivia u t

/-- A symbol stands at the beginning of the text. -/
def Begins (text : String) (s : List Char) : Prop :=
  ∃ t, Symbol text s t

theorem begins_iff {text : String} {s : List Char} :
    Begins text s ↔
      ∃ u, s = text.toList ++ u ∧ (text ∈ Lexeme.extendable → u.head? ≠ some '=') := by
  constructor
  · rintro ⟨t, u, hs, hu, -⟩
    exact ⟨u, hs, hu⟩
  · rintro ⟨u, hs, hu⟩
    exact ⟨_, u, hs, hu, trivia_skipTrivia ⟨0, u⟩⟩

end Language

/-! ### Runs of characters in a class -/

section Runs

variable {q : Char → Bool} {u v : List Char}

theorem takeWhile_eq_nil_of_head (hv : ∀ c ∈ v.head?, q c = false) : v.takeWhile q = [] := by
  cases v with
  | nil => rfl
  | cons c cs => rw [List.takeWhile_cons_of_neg (by rw [hv c rfl]; exact Bool.false_ne_true)]

theorem takeWhile_append_of_head (hu : ∀ c ∈ u, q c = true) (hv : ∀ c ∈ v.head?, q c = false) :
    (u ++ v).takeWhile q = u := by
  rw [List.takeWhile_append_of_pos hu, takeWhile_eq_nil_of_head hv, List.append_nil]

theorem dropWhile_append_of_head (hu : ∀ c ∈ u, q c = true) (hv : ∀ c ∈ v.head?, q c = false) :
    (u ++ v).dropWhile q = v := by
  have hsplit := List.takeWhile_append_dropWhile (p := q) (l := u ++ v)
  rw [takeWhile_append_of_head hu hv] at hsplit
  exact List.append_cancel_left hsplit

theorem head_dropWhile (q : Char → Bool) (v : List Char) :
    ∀ c ∈ (v.dropWhile q).head?, q c = false := by
  intro c hc
  have hsome := List.head?_dropWhile_not q v
  rw [Option.mem_def.1 hc] at hsome
  simpa using hsome

end Runs

namespace Lexeme

open Scriptlet.Language

variable {α : Type} {c c' : Cursor} {s t : List Char}

/-! ### Lexemes from scanners -/

theorem gives_lexeme_iff {expected : Expectation} {scan : Cursor → Option (α × Cursor)} {a : α} :
    (lexeme expected scan).Gives c a c' ↔ ∃ d, scan c = some (a, d) ∧ c' = d.skipTrivia := by
  unfold lexeme Parser.Gives
  cases hscan : scan c with
  | none => simp [hscan, Reply.refusal]
  | some r =>
    obtain ⟨b, d⟩ := r
    simp only [hscan, Except.ok.injEq, Prod.mk.injEq, Option.some.injEq]
    constructor
    · rintro ⟨rfl, rfl⟩
      exact ⟨d, ⟨rfl, rfl⟩, rfl⟩
    · rintro ⟨d', ⟨rfl, rfl⟩, rfl⟩
      exact ⟨rfl, rfl⟩

theorem refuses_lexeme {expected : Expectation} {scan : Cursor → Option (α × Cursor)}
    (h : scan c = none) : (lexeme expected scan).Refuses c := by
  unfold lexeme
  exact ⟨.single c.pos expected, by simp only [h]; rfl⟩

theorem advancing_lexeme {expected : Expectation} {scan : Cursor → Option (α × Cursor)}
    (h : ∀ c a d, scan c = some (a, d) → d.rest.length < c.rest.length) :
    (lexeme expected scan).Advancing := by
  intro c a c' hg
  obtain ⟨d, hscan, rfl⟩ := gives_lexeme_iff.1 hg
  constructor
  · simp only [lexeme, hscan]
  · exact Nat.lt_of_le_of_lt (trivia_skipTrivia d).length_le (h c a d hscan)

/-! ### Fixed texts -/

/-- The scanner of a fixed text finds it where it stands and its end passes the test. -/
theorem scan_exactly_iff {text : String} {ends : Cursor → Bool} {a : Unit} {d : Cursor} :
    ((c.skip? text.toList).filter ends).map (((), ·)) = some (a, d) ↔
      c.rest = text.toList ++ d.rest ∧ d.pos = c.pos + byteSize text.toList ∧ ends d = true := by
  rw [Option.map_eq_some_iff]
  constructor
  · rintro ⟨e, he, heq⟩
    obtain rfl : e = d := congrArg Prod.snd heq
    obtain ⟨hskip, hends⟩ := Option.filter_eq_some_iff.1 he
    obtain ⟨u, hu, rfl⟩ := Option.map_eq_some_iff.1 hskip
    exact ⟨(List.isPrefixOf?_eq_some_iff_append_eq.1 hu).symm, rfl, hends⟩
  · rintro ⟨hrest, hpos, hends⟩
    refine ⟨d, Option.filter_eq_some_iff.2 ⟨?_, hends⟩, rfl⟩
    refine Option.map_eq_some_iff.2 ⟨d.rest, ?_, ?_⟩
    · exact List.isPrefixOf?_eq_some_iff_append_eq.2 hrest.symm
    · rw [← hpos]

variable {text : String} {ends : Cursor → Bool}

theorem gives_exactly_iff {a : Unit} :
    (exactly text ends).Gives c a c' ↔
      ∃ d : Cursor, c.rest = text.toList ++ d.rest ∧ d.pos = c.pos + byteSize text.toList ∧
        ends d = true ∧ c' = d.skipTrivia := by
  unfold exactly
  rw [gives_lexeme_iff]
  constructor
  · rintro ⟨d, hscan, rfl⟩
    obtain ⟨hrest, hpos, hends⟩ := scan_exactly_iff.1 hscan
    exact ⟨d, hrest, hpos, hends, rfl⟩
  · rintro ⟨d, hrest, hpos, hends, rfl⟩
    exact ⟨d, scan_exactly_iff.2 ⟨hrest, hpos, hends⟩, rfl⟩

theorem refuses_exactly (h : ∀ d : Cursor, c.rest = text.toList ++ d.rest → ends d = false) :
    (exactly text ends).Refuses c := by
  unfold exactly
  refine refuses_lexeme ?_
  rw [Option.eq_none_iff_forall_ne_some]
  rintro ⟨a, d⟩ hscan
  obtain ⟨hrest, -, hends⟩ := scan_exactly_iff.1 hscan
  rw [h d hrest] at hends
  cases hends

theorem advancing_exactly (htext : text.toList ≠ []) : (exactly text ends).Advancing := by
  unfold exactly
  refine advancing_lexeme fun c a d hscan => ?_
  obtain ⟨hrest, -, -⟩ := scan_exactly_iff.1 hscan
  have hpos : 0 < text.toList.length := List.length_pos_iff.2 htext
  rw [hrest, List.length_append]
  omega

/-! ### Symbols -/

/-- The test of a symbol's end looks at the next character only. -/
theorem ends_symbol_iff {d : Cursor} :
    (!(extendable.contains text && d.current? == some '=')) = true ↔
      (text ∈ extendable → d.rest.head? ≠ some '=') := by
  simp [Cursor.current?, imp_iff_not_or]

theorem symbol_of_gives {a : Unit} (h : (symbol text).Gives c a c') :
    Symbol text c.rest c'.rest := by
  unfold symbol at h
  obtain ⟨d, hrest, -, hends, rfl⟩ := gives_exactly_iff.1 h
  exact ⟨d.rest, hrest, ends_symbol_iff.1 hends, trivia_skipTrivia d⟩

theorem finds_symbol (h : Symbol text s t) : (symbol text).Finds s () t := by
  rintro c rfl
  obtain ⟨u, hrest, hends, htrivia⟩ := h
  unfold symbol
  refine ⟨_, gives_exactly_iff.2 ⟨⟨c.pos + byteSize text.toList, u⟩, hrest, rfl, ?_, rfl⟩, ?_⟩
  · exact ends_symbol_iff.2 hends
  · exact rest_skipTrivia_iff.2 htrivia

theorem declines_symbol (h : ¬ Begins text s) : (symbol text).Declines s := by
  rintro c rfl
  unfold symbol
  refine refuses_exactly fun d hrest => ?_
  rw [← Bool.not_eq_true]
  intro hends
  exact h (begins_iff.2 ⟨d.rest, hrest, ends_symbol_iff.1 hends⟩)

theorem advancing_symbol (htext : text.toList ≠ []) : (symbol text).Advancing :=
  advancing_exactly htext

/-! ### Keywords -/

theorem ends_keyword_iff {d : Cursor} :
    (!d.current?.any isWordChar) = true ↔ ∀ c ∈ d.rest.head?, isWordChar c = false := by
  unfold Cursor.current?
  cases d.rest.head? with
  | none => simp
  | some x => simp

theorem keyword_of_gives {a : Unit} (h : (keyword text).Gives c a c') :
    Keyword text c.rest c'.rest := by
  unfold keyword at h
  obtain ⟨d, hrest, -, hends, rfl⟩ := gives_exactly_iff.1 h
  exact ⟨d.rest, hrest, ends_keyword_iff.1 hends, trivia_skipTrivia d⟩

theorem finds_keyword (h : Keyword text s t) : (keyword text).Finds s () t := by
  rintro c rfl
  obtain ⟨u, hrest, hends, htrivia⟩ := h
  unfold keyword
  refine ⟨_, gives_exactly_iff.2 ⟨⟨c.pos + byteSize text.toList, u⟩, hrest, rfl, ?_, rfl⟩, ?_⟩
  · exact ends_keyword_iff.2 hends
  · exact rest_skipTrivia_iff.2 htrivia

theorem declines_keyword (h : ∀ t, ¬ Keyword text s t) : (keyword text).Declines s := by
  rintro c rfl
  unfold keyword
  refine refuses_exactly fun d hrest => ?_
  rw [← Bool.not_eq_true]
  intro hends
  exact h _ ⟨d.rest, hrest, ends_keyword_iff.1 hends, trivia_skipTrivia d⟩

theorem advancing_keyword (htext : text.toList ≠ []) : (keyword text).Advancing :=
  advancing_exactly htext

/-! ### Identifiers -/

theorem isWordChar_of_isWordStart {x : Char} (h : isWordStart x = true) : isWordChar x = true := by
  unfold isWordStart at h
  unfold isWordChar Char.isAlphanum
  simp only [Bool.or_eq_true] at h ⊢
  tauto

theorem isDigit_of_isWordStart {x : Char} (h : isWordStart x = true) : x.isDigit = false := by
  unfold isWordStart Char.isAlpha Char.isUpper Char.isLower at h
  simp only [Bool.or_eq_true, Bool.and_eq_true, decide_eq_true_eq, beq_iff_eq] at h
  rcases h with h | rfl
  · unfold Char.isDigit
    rw [Bool.and_eq_false_imp]
    simp only [decide_eq_true_eq, decide_eq_false_iff_not]
    grind
  · decide

/-- The scanner of identifiers finds exactly the names that are longest words. -/
theorem scanIdentifier_eq_some_iff {name : String} {d : Cursor} :
    scanIdentifier c = some (name, d) ↔
      c.rest = name.toList ++ d.rest ∧ IsName name ∧ (∀ x ∈ d.rest.head?, isWordChar x = false) ∧
        d.pos = c.pos + byteSize name.toList := by
  unfold scanIdentifier
  dsimp only
  rw [Option.ite_none_right_eq_some, Bool.and_eq_true, Option.some.injEq, Prod.mk.injEq]
  constructor
  · rintro ⟨⟨hstart, hkeyword⟩, rfl, rfl⟩
    simp only [Cursor.takeWhile, Cursor.dropWhile, Cursor.current?, String.toList_ofList] at *
    refine ⟨List.takeWhile_append_dropWhile.symm, ⟨?_, ?_, ?_⟩, head_dropWhile _ _, trivial⟩
    · -- The first character is a word character too, so the word is not empty.
      cases hrest : c.rest with
      | nil =>
        rw [hrest] at hstart
        cases hstart
      | cons x xs =>
        rw [hrest, List.head?_cons, Option.any_some] at hstart
        rw [String.toList_ofList, List.takeWhile_cons_of_pos (isWordChar_of_isWordStart hstart),
          List.head?_cons, Option.any_some]
        exact hstart
    · rw [String.toList_ofList]
      exact List.all_takeWhile
    · simpa using hkeyword
  · rintro ⟨hrest, ⟨hstart, hall, hkeyword⟩, hhead, hpos⟩
    have hword : c.takeWhile isWordChar = name.toList := by
      rw [Cursor.takeWhile, hrest]
      exact takeWhile_append_of_head (List.all_eq_true.1 hall) hhead
    have hdrop : c.dropWhile isWordChar = d := by
      have hright : c.rest.dropWhile isWordChar = d.rest := by
        rw [hrest]
        exact dropWhile_append_of_head (List.all_eq_true.1 hall) hhead
      rw [Cursor.dropWhile, hword, hright, ← hpos]
    refine ⟨⟨?_, ?_⟩, ?_, hdrop⟩
    · rw [Cursor.current?, hrest, List.head?_append]
      cases hhd : name.toList.head? with
      | none =>
        rw [hhd] at hstart
        cases hstart
      | some x =>
        rw [hhd] at hstart
        exact hstart
    · rw [hword, String.ofList_toList]
      simpa using hkeyword
    · rw [hword, String.ofList_toList]

theorem identifier_of_gives {name : String} (h : identifier.Gives c name c') :
    Identifier c.rest name c'.rest := by
  unfold identifier at h
  obtain ⟨d, hscan, rfl⟩ := gives_lexeme_iff.1 h
  obtain ⟨hrest, hname, hhead, -⟩ := scanIdentifier_eq_some_iff.1 hscan
  exact ⟨d.rest, hrest, hname, hhead, trivia_skipTrivia d⟩

theorem finds_identifier {name : String} (h : Identifier s name t) : identifier.Finds s name t := by
  rintro c rfl
  obtain ⟨u, hrest, hname, hhead, htrivia⟩ := h
  unfold identifier
  refine ⟨_, gives_lexeme_iff.2 ⟨⟨c.pos + byteSize name.toList, u⟩, ?_, rfl⟩, ?_⟩
  · exact scanIdentifier_eq_some_iff.2 ⟨hrest, hname, hhead, rfl⟩
  · exact rest_skipTrivia_iff.2 htrivia

theorem declines_identifier (h : ∀ name t, ¬ Identifier s name t) : identifier.Declines s := by
  rintro c rfl
  unfold identifier
  refine refuses_lexeme ?_
  rw [Option.eq_none_iff_forall_ne_some]
  rintro ⟨name, d⟩ hscan
  obtain ⟨hrest, hname, hhead, -⟩ := scanIdentifier_eq_some_iff.1 hscan
  exact h name _ ⟨d.rest, hrest, hname, hhead, trivia_skipTrivia d⟩

theorem advancing_identifier : identifier.Advancing := by
  unfold identifier
  refine advancing_lexeme fun c name d hscan => ?_
  obtain ⟨hrest, hname, -, -⟩ := scanIdentifier_eq_some_iff.1 hscan
  have hpos : 0 < name.toList.length := List.length_pos_iff.2 hname.toList_ne_nil
  rw [hrest, List.length_append]
  omega

/-! ### Integer literals -/

/-- The cursor after an optional minus sign. -/
def afterSign (c : Cursor) : Cursor :=
  if c.current? == some '-' then c.next else c

theorem rest_eq_afterSign (c : Cursor) :
    c.rest = (if c.current? == some '-' then ['-'] else []) ++ (afterSign c).rest := by
  obtain ⟨pos, rest⟩ := c
  unfold afterSign
  by_cases hsign : rest.head? = some '-'
  · obtain ⟨xs, rfl⟩ := List.head?_eq_some_iff.1 hsign
    simp [Cursor.current?, Cursor.next]
  · simp [Cursor.current?, hsign]

theorem run_integer (c : Cursor) :
    integer.run c = if ((afterSign c).takeWhile Char.isDigit).isEmpty then
      .refusal c.pos (.named "integer literal")
    else
      match Integer.ofInt? (literalValue (c.current? == some '-')
        ((afterSign c).takeWhile Char.isDigit)) with
      | some n => ⟨true, .ok (n, ((afterSign c).dropWhile Char.isDigit).skipTrivia)⟩
      | none =>
        (Reply.refusal c.pos (.named "integer literal within the 64-bit range")).after true := rfl

/-- A literal that is given has digits and a value in range. -/
theorem run_integer_of_gives {n : Integer} (h : integer.Gives c n c') :
    (afterSign c).takeWhile Char.isDigit ≠ [] ∧
      Integer.ofInt? (literalValue (c.current? == some '-')
        ((afterSign c).takeWhile Char.isDigit)) = some n ∧
      integer.run c = ⟨true, .ok (n, c')⟩ ∧
      c' = ((afterSign c).dropWhile Char.isDigit).skipTrivia := by
  have hrun := run_integer c
  rw [Parser.Gives, hrun] at h
  by_cases hdigits : ((afterSign c).takeWhile Char.isDigit).isEmpty = true
  · rw [if_pos hdigits] at h
    cases h
  · rw [if_neg hdigits] at h hrun
    cases hvalue : Integer.ofInt? (literalValue (c.current? == some '-')
        ((afterSign c).takeWhile Char.isDigit)) with
    | none =>
      rw [hvalue] at h
      cases h
    | some i =>
      rw [hvalue] at h hrun
      obtain ⟨rfl, rfl⟩ := Prod.mk.inj (Except.ok.inj h)
      exact ⟨fun hnil => hdigits (List.isEmpty_iff.2 hnil), rfl, hrun, rfl⟩

theorem literal_of_gives {n : Integer} (h : integer.Gives c n c') : Literal c.rest n c'.rest := by
  obtain ⟨hne, hvalue, -, rfl⟩ := run_integer_of_gives h
  refine ⟨_, _, _, ?_, hne, ?_, ?_, Integer.ofInt?_eq_some_iff.1 hvalue, trivia_skipTrivia _⟩
  · rw [Cursor.takeWhile, Cursor.dropWhile, List.takeWhile_append_dropWhile]
    exact rest_eq_afterSign c
  · exact List.all_eq_true.1 List.all_takeWhile
  · exact head_dropWhile _ _

/-- A text that begins with neither a digit nor a minus sign is no literal. -/
theorem declines_integer (h : ∀ x ∈ s.head?, x ≠ '-' ∧ x.isDigit = false) : integer.Declines s := by
  rintro c rfl
  have hsign : (c.current? == some '-') = false := by
    rw [Cursor.current?, beq_eq_false_iff_ne]
    intro hhead
    exact (h '-' hhead).1 rfl
  have hdigits : c.takeWhile Char.isDigit = [] :=
    takeWhile_eq_nil_of_head fun x hx => (h x hx).2
  refine ⟨.single c.pos (.named "integer literal"), ?_⟩
  simp only [integer, hsign, Bool.false_eq_true, if_false, hdigits, List.isEmpty_nil, if_true]
  rfl

/-- Where a literal is written, with or without a sign, its sign and its digits are found. -/
theorem afterSign_of_rest_eq {negative : Bool} {digits u : List Char}
    (hrest : c.rest = (if negative then ['-'] else []) ++ (digits ++ u)) (hne : digits ≠ [])
    (hall : ∀ d ∈ digits, d.isDigit = true) (hhead : ∀ x ∈ u.head?, x.isDigit = false) :
    (c.current? == some '-') = negative ∧ (afterSign c).takeWhile Char.isDigit = digits ∧
      ((afterSign c).dropWhile Char.isDigit).rest = u := by
  have hsign : (c.current? == some '-') = negative := by
    rw [Cursor.current?, hrest]
    cases negative with
    | true => rfl
    | false =>
      -- A digit is no minus sign.
      obtain ⟨d, ds, rfl⟩ := List.exists_cons_of_ne_nil hne
      have hd : d.isDigit = true := hall d (List.mem_cons_self ..)
      rw [beq_eq_false_iff_ne]
      intro heq
      obtain rfl : d = '-' := Option.some.inj heq
      exact absurd hd (by decide)
  have hunsigned : (afterSign c).rest = digits ++ u := by
    have hsplit := rest_eq_afterSign c
    rw [hsign, hrest] at hsplit
    exact (List.append_cancel_left hsplit).symm
  refine ⟨hsign, ?_, ?_⟩
  · rw [Cursor.takeWhile, hunsigned]
    exact takeWhile_append_of_head hall hhead
  · rw [Cursor.dropWhile, hunsigned]
    exact dropWhile_append_of_head hall hhead

theorem finds_integer {n : Integer} (h : Literal s n t) : integer.Finds s n t := by
  rintro c rfl
  obtain ⟨negative, digits, u, hrest, hne, hall, hhead, hvalue, htrivia⟩ := h
  obtain ⟨hsign, hdigits, hafter⟩ := afterSign_of_rest_eq hrest hne hall hhead
  refine ⟨((afterSign c).dropWhile Char.isDigit).skipTrivia, ?_, ?_⟩
  · rw [Parser.Gives, run_integer, hdigits, if_neg (by simpa using hne), hsign,
      Integer.ofInt?_eq_some_iff.2 hvalue]
  · rw [rest_skipTrivia_iff, hafter]
    exact htrivia

theorem advancing_integer : integer.Advancing := by
  intro c n c' h
  obtain ⟨-, -, hrun, -⟩ := run_integer_of_gives h
  obtain ⟨negative, digits, u, hrest, hne, -, -, -, htrivia⟩ := literal_of_gives h
  have hle := htrivia.length_le
  have hpos : 0 < digits.length := List.length_pos_iff.2 hne
  refine ⟨by rw [hrun], ?_⟩
  rw [hrest, List.length_append, List.length_append]
  omega

end Lexeme

/-! ### Which lexeme a text begins with -/

namespace Language

open Lexeme

variable {a b word name : String} {s t u : List Char}

/-- The symbols of the language. -/
def symbols : List String :=
  ["(", ")", "[", "]", "\x7b", "\x7d", ",", ";", "=", "+", "-", "*", "/", "<", "<=",
    ">", ">=", "==", "!="]

/-- Among the symbols one begins another only if it becomes that one by an equals sign. -/
theorem symbols_prefix : ∀ a ∈ symbols, ∀ b ∈ symbols, a.toList <+: b.toList → a = b ∨
    a ∈ extendable ∧ (b.toList.drop a.toList.length).head? = some '=' := by
  decide

theorem Begins.eq_of_prefix (ha : a ∈ symbols) (hb : b ∈ symbols) (h : Begins a s) (h' : Begins b s)
    (hpre : a.toList <+: b.toList) : a = b := by
  rcases symbols_prefix a ha b hb hpre with heq | ⟨hext, hequals⟩
  · exact heq
  obtain ⟨u, hu, hends⟩ := begins_iff.1 h
  obtain ⟨v, hv, -⟩ := begins_iff.1 h'
  obtain ⟨w, hw⟩ := hpre
  -- What follows `a` in the text is the rest of `b`, which begins with an equals sign.
  rw [← hw, List.drop_left] at hequals
  rw [hu, ← hw, List.append_assoc] at hv
  obtain rfl : u = w ++ v := List.append_cancel_left hv
  obtain ⟨ds, rfl⟩ := List.head?_eq_some_iff.1 hequals
  exact absurd rfl (hends hext)

/-- At most one symbol begins a text. -/
theorem Begins.unique (ha : a ∈ symbols) (hb : b ∈ symbols) (h : Begins a s) (h' : Begins b s) :
    a = b := by
  obtain ⟨u, hu, -⟩ := begins_iff.1 h
  obtain ⟨v, hv, -⟩ := begins_iff.1 h'
  have hau : a.toList <+: s := ⟨u, hu.symm⟩
  have hbv : b.toList <+: s := ⟨v, hv.symm⟩
  rcases Nat.le_total a.toList.length b.toList.length with hle | hle
  · exact h.eq_of_prefix ha hb h' (List.prefix_of_prefix_length_le hau hbv hle)
  · exact (h'.eq_of_prefix hb ha h (List.prefix_of_prefix_length_le hbv hau hle)).symm

theorem head_of_append {w : List Char} (hw : w ≠ []) : (w ++ u).head? = w.head? := by
  obtain ⟨x, xs, rfl⟩ := List.exists_cons_of_ne_nil hw
  rfl

theorem symbols_head : ∀ a ∈ symbols, a.toList ≠ [] ∧
    ∀ x ∈ a.toList.head?, isWordChar x = false ∧ x.isDigit = false ∧ (a ≠ "-" → x ≠ '-') := by
  have hall : ∀ a ∈ symbols, a.toList ≠ [] ∧ a.toList.head?.all
      (fun x => !isWordChar x && !x.isDigit && (a == "-" || x != '-')) = true := by decide
  intro a ha
  obtain ⟨hne, hhead⟩ := hall a ha
  refine ⟨hne, fun x hx => ?_⟩
  have hx := (Option.all_eq_true _ _).1 hhead x hx
  simpa [and_assoc, or_iff_not_imp_left] using hx

theorem Begins.head (ha : a ∈ symbols) (h : Begins a s) : s.head? = a.toList.head? := by
  obtain ⟨u, rfl, -⟩ := begins_iff.1 h
  exact head_of_append (symbols_head a ha).1

/-- The text begins with a word. -/
def StartsWord (s : List Char) : Prop :=
  s.head?.any isWordStart = true

instance (s : List Char) : Decidable (StartsWord s) :=
  inferInstanceAs (Decidable (_ = true))

theorem not_startsWord_nil : ¬ StartsWord [] :=
  nofun

theorem startsWord_iff : StartsWord s ↔ ∃ x, s.head? = some x ∧ isWordStart x = true :=
  Option.any_eq_true _ _

theorem Begins.not_startsWord (ha : a ∈ symbols) (h : Begins a s) : ¬ StartsWord s := by
  rw [startsWord_iff, h.head ha]
  rintro ⟨x, hx, hword⟩
  have hnot := ((symbols_head a ha).2 x hx).1
  rw [isWordChar_of_isWordStart hword] at hnot
  cases hnot

theorem startsWord_of_identifier (h : Identifier s name t) : StartsWord s := by
  obtain ⟨u, rfl, hname, -, -⟩ := h
  rw [StartsWord, head_of_append hname.toList_ne_nil]
  exact hname.1

theorem takeWhile_of_identifier (h : Identifier s name t) :
    s.takeWhile isWordChar = name.toList := by
  obtain ⟨u, rfl, ⟨-, hall, -⟩, hhead, -⟩ := h
  exact takeWhile_append_of_head (List.all_eq_true.1 hall) hhead

theorem keywords_word : ∀ w ∈ keywords, w.toList ≠ [] ∧ StartsWord w.toList ∧
    w.toList.all isWordChar = true := by
  unfold StartsWord
  decide

theorem startsWord_of_keyword (hw : word ∈ keywords) (h : Keyword word s t) : StartsWord s := by
  obtain ⟨u, rfl, -, -⟩ := h
  obtain ⟨hne, hstart, -⟩ := keywords_word word hw
  rw [StartsWord, head_of_append hne]
  exact hstart

theorem takeWhile_of_keyword (hw : word ∈ keywords) (h : Keyword word s t) :
    s.takeWhile isWordChar = word.toList := by
  obtain ⟨u, rfl, hhead, -⟩ := h
  exact takeWhile_append_of_head (List.all_eq_true.1 (keywords_word word hw).2.2) hhead

/-- A text does not begin with both a name and a keyword. -/
theorem Identifier.not_keyword (h : Identifier s name t) (hw : word ∈ keywords) :
    ¬ Keyword word s u := by
  intro hkeyword
  have hsame : name.toList = word.toList := by
    rw [← takeWhile_of_identifier h, takeWhile_of_keyword hw hkeyword]
  obtain rfl : name = word := String.toList_inj.1 hsame
  obtain ⟨-, -, ⟨-, -, hnot⟩, -⟩ := h
  exact hnot hw

/-- At most one keyword begins a text. -/
theorem Keyword.unique (hw : word ∈ keywords) (ha : a ∈ keywords) (h : Keyword word s t)
    (h' : Keyword a s u) : word = a := by
  apply String.toList_inj.1
  rw [← takeWhile_of_keyword hw h, takeWhile_of_keyword ha h']

/-! ### What declines a text that begins otherwise -/

theorem declines_symbol_of_begins (ha : a ∈ symbols) (hb : b ∈ symbols) (h : Begins a s)
    (hne : a ≠ b) : (symbol b).Declines s :=
  declines_symbol fun h' => hne (h.unique ha hb h')

theorem declines_symbol_of_startsWord (ha : a ∈ symbols) (h : StartsWord s) :
    (symbol a).Declines s :=
  declines_symbol fun h' => h'.not_startsWord ha h

theorem declines_identifier_of_not_startsWord (h : ¬ StartsWord s) : identifier.Declines s :=
  declines_identifier fun _ _ h' => h (startsWord_of_identifier h')

theorem declines_keyword_of_not_startsWord (hw : word ∈ keywords) (h : ¬ StartsWord s) :
    (keyword word).Declines s :=
  declines_keyword fun _ h' => h (startsWord_of_keyword hw h')

theorem declines_integer_of_startsWord (h : StartsWord s) : integer.Declines s := by
  refine declines_integer fun x hx => ?_
  obtain ⟨y, hy, hword⟩ := startsWord_iff.1 h
  obtain rfl : y = x := Option.some.inj (hy.symm.trans hx)
  refine ⟨?_, isDigit_of_isWordStart hword⟩
  rintro rfl
  exact absurd hword (by decide)

theorem declines_integer_of_begins (ha : a ∈ symbols) (hne : a ≠ "-") (h : Begins a s) :
    integer.Declines s := by
  refine declines_integer fun x hx => ?_
  rw [h.head ha] at hx
  obtain ⟨-, hdigit, hsign⟩ := (symbols_head a ha).2 x hx
  exact ⟨hsign hne, hdigit⟩

/-- A literal begins with a minus sign or a digit. -/
theorem Literal.not_begins {n : Integer} (h : Literal s n t) (ha : a ∈ symbols) (hne : a ≠ "-") :
    ¬ Begins a s :=
  fun hbegins => (declines_integer_of_begins ha hne hbegins).not_finds (finds_integer h)

theorem Literal.not_startsWord {n : Integer} (h : Literal s n t) : ¬ StartsWord s :=
  fun hstarts => (declines_integer_of_startsWord hstarts).not_finds (finds_integer h)

theorem declines_identifier_of_keyword (hw : word ∈ keywords) (h : Keyword word s t) :
    identifier.Declines s :=
  declines_identifier fun _ _ h' => h'.not_keyword hw h

end Language

end Scriptlet
