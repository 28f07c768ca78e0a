import Scriptlet.Proofs.Language.Parallel

/-!
# Layout does not matter

A text is laid out from pieces, which are words, integer literals and symbols, with a gap before the
first and after each. A gap is a blank character and then any blanks and comments, each comment with
the line feed that ends it. Two layouts of the same pieces are aligned at the beginnings of their
pieces and at their ends. One more place is needed: the symbol `-` can be read out of a literal with
a sign, and then the reading goes on at the digits.

At each of these places it depends only on the piece there how a lexeme parser replies (`Uniform`),
so that the alignment is one for the lexemes of the language (`lexical_of_standAlike`), and hence
for the grammar. Main statement: two layouts of the same pieces are read as the same program, or
both are refused for want of the same (`parse_layout`).
-/

namespace Scriptlet

namespace Language

open Lexeme

/-! ### Gaps -/

/-- A blank character, or a comment with the line feed that ends it. -/
inductive Filler where
  | blank (c : Char) (isBlank_c : isBlank c = true)
  | comment (text : List Char) (newline_not_mem : '\n' ∉ text)

def Filler.text : Filler → List Char
  | .blank c _ => [c]
  | .comment text _ => '/' :: '/' :: (text ++ ['\n'])

/-- A blank character and then any mix of blanks and comments. -/
structure Gap where
  first : Char
  isBlank_first : isBlank first = true
  more : List Filler

def Gap.text (g : Gap) : List Char :=
  g.first :: g.more.flatMap Filler.text

theorem trivia_fillers {s t : List Char} (h : Trivia s t) (fillers : List Filler) :
    Trivia (fillers.flatMap Filler.text ++ s) t := by
  induction fillers with
  | nil => exact h
  | cons filler fillers ih =>
    cases filler with
    | blank c hc => exact .blank hc ih
    | comment text htext =>
      have hline : Trivia ('\n' :: (fillers.flatMap Filler.text ++ s)) t :=
        .blank isBlank_newline ih
      have hcomment := Trivia.comment htext (by simp) hline
      simpa [Filler.text] using hcomment

theorem Gap.trivia (g : Gap) {s : List Char} (h : Settled s) : Trivia (g.text ++ s) s :=
  .blank g.isBlank_first (trivia_fillers (.done h) g.more)

/-- What stands right after a piece is in no class that could prolong it. -/
theorem Gap.head (g : Gap) (s : List Char) : ∀ x ∈ (g.text ++ s).head?,
    isWordChar x = false ∧ x.isDigit = false ∧ x ≠ '=' ∧ x ≠ '/' := by
  intro x hx
  have hblank : isBlank x = true := Option.some.inj hx ▸ g.isBlank_first
  have hword : isWordChar x = false := by
    rw [← Bool.not_eq_true]
    intro hword
    rw [(isBlank_of_isWordChar hword).1] at hblank
    cases hblank
  refine ⟨hword, ?_, ?_, ?_⟩
  · rw [← Bool.not_eq_true]
    intro hdigit
    rw [isWordChar_of_isDigit hdigit] at hword
    cases hword
  · rintro rfl
    exact absurd hblank (by decide)
  · rintro rfl
    exact absurd hblank (by decide)

/-! ### Pieces -/

/-- A word, an integer literal of any size, or a symbol. -/
inductive Piece where
  | word (text : String) (startsWord : StartsWord text.toList)
    (all_wordChar : text.toList.all isWordChar = true)
  | literal (negative : Bool) (digits : List Char) (digits_ne_nil : digits ≠ [])
    (all_digits : ∀ d ∈ digits, d.isDigit = true)
  | symbol (text : String) (mem_symbols : text ∈ symbols)

namespace Piece

def text : Piece → List Char
  | .word text _ _ => text.toList
  | .literal negative digits _ _ => (if negative then ['-'] else []) ++ digits
  | .symbol text _ => text.toList

/-- Whether the piece is a literal with a sign, out of which a symbol can be read. -/
def hasSign : Piece → Bool
  | .literal negative _ _ _ => negative
  | .word _ _ _ | .symbol _ _ => false

/-- The piece without its sign. -/
def unsigned : Piece → Piece
  | .literal _ digits hne hall => .literal false digits hne hall
  | .word text hstart hall => .word text hstart hall
  | .symbol text hmem => .symbol text hmem

theorem hasSign_unsigned (l : Piece) : l.unsigned.hasSign = false := by
  cases l <;> rfl

theorem text_ne_nil (l : Piece) : l.text ≠ [] := by
  cases l with
  | word text hstart _ =>
    intro hnil
    rw [show text.toList = [] from hnil] at hstart
    exact not_startsWord_nil hstart
  | literal negative digits hne _ => simp [text, hne]
  | symbol text hmem => exact (symbols_head text hmem).1

/-- Neither a blank nor a comment begins where a piece does. -/
theorem settled (l : Piece) (g : Gap) (s : List Char) : Settled (l.text ++ (g.text ++ s)) := by
  have hsolidus : (g.text ++ s).head? ≠ some '/' := fun h => (g.head s '/' h).2.2.2 rfl
  cases l with
  | word text hstart _ =>
    obtain ⟨x, hx, hword⟩ := startsWord_iff.1 hstart
    obtain ⟨xs, hxs⟩ := List.head?_eq_some_iff.1 hx
    obtain ⟨hblank, hne⟩ := isBlank_of_isWordChar (isWordChar_of_isWordStart hword)
    refine settled_append_of_isSolid ?_ hsolidus
    simp [isSolid, hxs, hblank, hne]
  | literal negative digits hne hall =>
    obtain ⟨d, ds, rfl⟩ := List.exists_cons_of_ne_nil hne
    obtain ⟨hblank, hslash⟩ :=
      isBlank_of_isWordChar (isWordChar_of_isDigit (hall d (List.mem_cons_self ..)))
    cases negative with
    | true => exact ⟨fun x hx => by rw [← Option.some.inj hx]; decide, by simp [text]⟩
    | false =>
      refine ⟨fun x hx => ?_, by simp [text, hslash.symm]⟩
      rw [← Option.some.inj hx]
      exact hblank
  | symbol text hmem => exact settled_append_of_isSolid (isSolid_of_mem_symbols text hmem) hsolidus

end Piece

/-- At the first cursor stands the piece, then a gap, and then the text at the second. -/
structure Stands (l : Piece) (c c' : Cursor) : Prop where
  gap : ∃ g : Gap, c.rest = l.text ++ (g.text ++ c'.rest) ∧
    c'.pos = c.pos + byteSize l.text + byteSize g.text
  settled : Settled c'.rest

namespace Stands

variable {l : Piece} {c c' : Cursor}

theorem reaches (h : Stands l c c') : c.Reaches c' := by
  obtain ⟨g, hrest, hpos⟩ := h.gap
  refine ⟨l.text ++ g.text, ?_, ?_⟩
  · rw [hrest, List.append_assoc]
  · rw [hpos, byteSize_append, Nat.add_assoc]

theorem settled_rest (h : Stands l c c') : Settled c.rest := by
  obtain ⟨g, hrest, -⟩ := h.gap
  rw [hrest]
  exact l.settled g c'.rest

/-- The piece in its text, as the lexemes of the language are described. -/
theorem exists_rest (h : Stands l c c') : ∃ u, c.rest = l.text ++ u ∧ Trivia u c'.rest ∧
    ∀ x ∈ u.head?, isWordChar x = false ∧ x.isDigit = false ∧ x ≠ '=' ∧ x ≠ '/' := by
  obtain ⟨g, hrest, -⟩ := h.gap
  exact ⟨g.text ++ c'.rest, hrest, g.trivia h.settled, g.head c'.rest⟩

theorem pos_lt (h : Stands l c c') : c.pos < c'.pos := by
  obtain ⟨g, -, hpos⟩ := h.gap
  have hlength : 0 < l.text.length := List.length_pos_iff.2 l.text_ne_nil
  have hsize := length_le_byteSize l.text
  omega

theorem rest_ne_nil (h : Stands l c c') : c.rest ≠ [] := by
  obtain ⟨u, hrest, -⟩ := h.exists_rest
  rw [hrest]
  exact List.append_ne_nil_of_left_ne_nil l.text_ne_nil u

/-- Behind the sign of a literal stands the literal without it. -/
theorem afterSign (h : Stands l c c') (hsign : l.hasSign = true) :
    c.rest = '-' :: (afterSign c).rest ∧ (afterSign c).pos = c.pos + 1 ∧
      Stands l.unsigned (afterSign c) c' := by
  obtain ⟨g, hrest, hpos⟩ := h.gap
  cases l with
  | word => cases hsign
  | symbol => cases hsign
  | literal negative digits hne hall =>
    obtain rfl : negative = true := hsign
    obtain ⟨pos, rest⟩ := c
    obtain rfl : rest = '-' :: (digits ++ (g.text ++ c'.rest)) := hrest
    refine ⟨rfl, rfl, ⟨g, rfl, ?_⟩, h.settled⟩
    have hsize : byteSize ('-' :: digits) = 1 + byteSize digits := rfl
    show c'.pos = pos + 1 + byteSize digits + byteSize g.text
    rw [hpos, show Piece.text (.literal true digits hne hall) = '-' :: digits from rfl, hsize]
    show pos + (1 + byteSize digits) + byteSize g.text = _
    omega

end Stands

end Language

/-! ### How lexemes are read at a piece -/

namespace Lexeme

open Scriptlet.Language Scriptlet.Parser

variable {α : Type} {p : Parser α} {c c' : Cursor} {l : Piece}

/-- What is found in the text is given, with the place after it. -/
theorem run_of_finds {a : α} (hhonest : p.Honest) (hadvancing : p.Advancing)
    (hfinds : p.Finds c.rest a c'.rest) (hreaches : c.Reaches c') :
    p.run c = ⟨true, .ok (a, c')⟩ := by
  obtain ⟨d, hgives, hrest⟩ := hfinds c rfl
  obtain rfl : d = c' := (hhonest.reaches hgives).eq_of_rest_eq hreaches hrest
  obtain ⟨consumed, hrun⟩ := run_of_gives hgives
  have hconsumed := (hadvancing c a d hgives).1
  rw [hrun] at hconsumed ⊢
  rw [show consumed = true from hconsumed]

theorem run_of_declines_lexeme {expected : Expectation} {scan : Cursor → Option (α × Cursor)}
    (h : (lexeme expected scan).Declines c.rest) :
    (lexeme expected scan).run c = .refusal c.pos expected := by
  obtain ⟨f, hrun⟩ := h c rfl
  exact run_of_fails_lexeme (fails_of_run hrun)

theorem run_of_declines_integer (h : integer.Declines c.rest) :
    integer.run c = .refusal c.pos (.named "integer literal") := by
  obtain ⟨f, hrun⟩ := h c rfl
  rw [run_integer] at hrun ⊢
  split at hrun
  · rw [if_pos ‹_›]
  · split at hrun <;> cases hrun

/-- What becomes of a piece. -/
inductive Verdict (α : Type) where
  /-- The piece is taken whole, with the gap after it. -/
  | accepts (a : α)
  /-- Only the sign of a literal is taken. -/
  | splits (a : α)
  | refuses (e : Expectation)
  /-- The piece is refused for good. -/
  | rejects (e : Expectation)

/-- The reply at the place of a piece, in front of the place after it. -/
def Verdict.reply : Verdict α → Cursor → Cursor → Reply α
  | .accepts a, _, c' => ⟨true, .ok (a, c')⟩
  | .splits a, c, _ => ⟨true, .ok (a, afterSign c)⟩
  | .refuses e, c, _ => .refusal c.pos e
  | .rejects e, c, _ => (Reply.refusal c.pos e).after true

/-- How the parser replies at a piece does not depend on anything else. -/
def Uniform (p : Parser α) : Prop :=
  ∀ l : Piece, ∃ v : Verdict α, (∀ a, v = .splits a → l.hasSign = true) ∧
    ∀ c c', Stands l c c' → p.run c = v.reply c c'

/-- The parser refuses all pieces of a kind, since it declines the texts that begin with them. -/
theorem refuses_of_declines {expected : Expectation} {scan : Cursor → Option (α × Cursor)}
    (h : ∀ c c', Stands l c c' → (lexeme expected scan).Declines c.rest) :
    ∃ v : Verdict α, (∀ a, v = .splits a → l.hasSign = true) ∧
      ∀ c c', Stands l c c' → (lexeme expected scan).run c = v.reply c c' :=
  ⟨.refuses expected, by simp, fun c c' hstands => run_of_declines_lexeme (h c c' hstands)⟩

theorem startsWord_of_stands {text : String} {hstart : StartsWord text.toList}
    {hall : text.toList.all isWordChar = true} (h : Stands (.word text hstart hall) c c') :
    StartsWord c.rest := by
  obtain ⟨u, hrest, -⟩ := h.exists_rest
  rw [StartsWord, hrest, head_of_append (Piece.text_ne_nil _)]
  exact hstart

theorem begins_of_stands {text : String} {hmem : text ∈ symbols}
    (h : Stands (.symbol text hmem) c c') : Begins text c.rest := by
  obtain ⟨u, hrest, -, hhead⟩ := h.exists_rest
  exact begins_iff.2 ⟨u, hrest, fun _ hequals => (hhead '=' hequals).2.2.1 rfl⟩

theorem uniform_symbol {text : String} (htext : text ∈ symbols) : Uniform (symbol text) := by
  have hne : text.toList ≠ [] := (symbols_head text htext).1
  have hhonest : (symbol text).Honest := honest_symbol htext
  intro l
  cases l with
  | word word hstart hall =>
    refine refuses_of_declines fun c c' hstands => declines_symbol fun hbegins => ?_
    exact hbegins.not_startsWord htext (startsWord_of_stands hstands)
  | symbol other hother =>
    by_cases heq : other = text
    · subst heq
      refine ⟨.accepts (), by simp, fun c c' hstands => ?_⟩
      obtain ⟨u, hrest, htrivia, hhead⟩ := hstands.exists_rest
      refine run_of_finds hhonest (advancing_symbol hne) (finds_symbol ⟨u, hrest, ?_, htrivia⟩)
        hstands.reaches
      exact fun _ hequals => (hhead '=' hequals).2.2.1 rfl
    · refine refuses_of_declines fun c c' hstands => declines_symbol fun hbegins => heq ?_
      exact (begins_of_stands hstands).unique hother htext hbegins
  | literal negative digits hdigits hall =>
    cases negative with
    | false =>
      refine refuses_of_declines fun c c' hstands => declines_symbol fun hbegins => ?_
      obtain ⟨u, hrest, -⟩ := hstands.exists_rest
      obtain ⟨d, ds, rfl⟩ := List.exists_cons_of_ne_nil hdigits
      have hhead : text.toList.head? = some d := by
        rw [← hbegins.head htext, hrest]
        rfl
      have hnot := ((symbols_head text htext).2 d hhead).2.1
      rw [hall d (List.mem_cons_self ..)] at hnot
      cases hnot
    | true =>
      by_cases hminus : text = "-"
      · subst hminus
        refine ⟨.splits (), fun _ _ => rfl, fun c c' hstands => ?_⟩
        obtain ⟨hrest, -, hunsigned⟩ := hstands.afterSign rfl
        refine run_of_finds hhonest (advancing_symbol hne) (finds_symbol ?_) (reaches_afterSign c)
        exact ⟨_, hrest, fun hext => absurd hext (by decide), .done hunsigned.settled_rest⟩
      · refine refuses_of_declines fun c c' hstands => declines_symbol fun hbegins => ?_
        obtain ⟨u, hrest, -⟩ := hstands.exists_rest
        have hhead : text.toList.head? = some '-' := by
          rw [← hbegins.head htext, hrest]
          rfl
        exact ((symbols_head text htext).2 '-' hhead).2.2 hminus rfl

/-- A piece that is no word does not begin like one. -/
theorem not_startsWord_of_stands (h : Stands l c c')
    (hword : ∀ text hstart hall, l ≠ .word text hstart hall) : ¬ StartsWord c.rest := by
  cases l with
  | word text hstart hall => exact absurd rfl (hword text hstart hall)
  | symbol text hmem => exact (begins_of_stands h).not_startsWord hmem
  | literal negative digits hne hall =>
    obtain ⟨u, hrest, -⟩ := h.exists_rest
    rw [startsWord_iff, hrest]
    rintro ⟨x, hx, hstart⟩
    obtain ⟨d, ds, rfl⟩ := List.exists_cons_of_ne_nil hne
    cases negative with
    | true =>
      obtain rfl : '-' = x := Option.some.inj hx
      exact absurd hstart (by decide)
    | false =>
      obtain rfl : d = x := Option.some.inj hx
      have hdigit := hall d (List.mem_cons_self ..)
      rw [isDigit_of_isWordStart hstart] at hdigit
      cases hdigit

theorem keyword_of_stands {text : String} {hstart : StartsWord text.toList}
    {hall : text.toList.all isWordChar = true} (h : Stands (.word text hstart hall) c c') :
    Keyword text c.rest c'.rest := by
  obtain ⟨u, hrest, htrivia, hhead⟩ := h.exists_rest
  exact ⟨u, hrest, fun x hx => (hhead x hx).1, htrivia⟩

theorem uniform_keyword {word : String} (hword : word ∈ keywords) : Uniform (keyword word) := by
  have hne : word.toList ≠ [] := (keywords_word word hword).1
  intro l
  by_cases hl : ∃ text hstart hall, l = .word text hstart hall
  · obtain ⟨text, hstart, hall, rfl⟩ := hl
    by_cases heq : text = word
    · subst heq
      refine ⟨.accepts (), by simp, fun c c' hstands => ?_⟩
      exact run_of_finds (honest_keyword hword) (advancing_keyword hne)
        (finds_keyword (keyword_of_stands hstands)) hstands.reaches
    · refine refuses_of_declines fun c c' hstands => declines_keyword fun t hkeyword => heq ?_
      -- The longest word at the place is the piece.
      obtain ⟨u, hrest, -, hhead⟩ := hstands.exists_rest
      have hlongest : c.rest.takeWhile isWordChar = text.toList := by
        rw [hrest]
        exact takeWhile_append_of_head (List.all_eq_true.1 hall) fun x hx => (hhead x hx).1
      rw [takeWhile_of_keyword hword hkeyword] at hlongest
      exact (String.toList_inj.1 hlongest).symm
  · refine refuses_of_declines fun c c' hstands => declines_keyword_of_not_startsWord hword ?_
    exact not_startsWord_of_stands hstands fun text hstart hall heq => hl ⟨text, hstart, hall, heq⟩

theorem uniform_identifier : Uniform identifier := by
  intro l
  by_cases hl : ∃ text hstart hall, l = .word text hstart hall
  · obtain ⟨text, hstart, hall, rfl⟩ := hl
    by_cases hword : text ∈ keywords
    · exact refuses_of_declines fun c c' hstands =>
        declines_identifier_of_keyword hword (keyword_of_stands hstands)
    · refine ⟨.accepts text, by simp, fun c c' hstands => ?_⟩
      obtain ⟨u, hrest, htrivia, hhead⟩ := hstands.exists_rest
      refine run_of_finds honest_identifier advancing_identifier
        (finds_identifier ?_) hstands.reaches
      exact ⟨u, hrest, ⟨hstart, hall, hword⟩, fun x hx => (hhead x hx).1, htrivia⟩
  · refine refuses_of_declines fun c c' hstands => declines_identifier_of_not_startsWord ?_
    exact not_startsWord_of_stands hstands fun text hstart hall heq => hl ⟨text, hstart, hall, heq⟩

theorem uniform_integer : Uniform integer := by
  have hrefuses (l : Piece) (h : ∀ c c', Stands l c c' → integer.Declines c.rest) :
      ∃ v : Verdict Integer, (∀ a, v = .splits a → l.hasSign = true) ∧
        ∀ c c', Stands l c c' → integer.run c = v.reply c c' :=
    ⟨.refuses (.named "integer literal"), by simp, fun c c' hstands =>
      run_of_declines_integer (h c c' hstands)⟩
  intro l
  cases l with
  | word text hstart hall =>
    exact hrefuses _ fun c c' hstands =>
      declines_integer_of_startsWord (startsWord_of_stands hstands)
  | symbol text hmem =>
    by_cases hminus : text = "-"
    · subst hminus
      -- A gap follows the sign, and no digit.
      refine ⟨.refuses (.named "integer literal"), by simp, fun c c' hstands => ?_⟩
      obtain ⟨u, hrest, -, hhead⟩ := hstands.exists_rest
      have hafter : (afterSign c).rest = u := by
        have hsign : (c.current? == some '-') = true := by
          rw [Cursor.current?, hrest]
          rfl
        have hsplit := rest_eq_afterSign c
        rw [hsign, hrest] at hsplit
        exact (List.append_cancel_left hsplit).symm
      have hdigits : (afterSign c).takeWhile Char.isDigit = [] := by
        rw [Cursor.takeWhile, hafter]
        exact takeWhile_eq_nil_of_head fun x hx => (hhead x hx).2.1
      rw [run_integer, hdigits]
      rfl
    · exact hrefuses _ fun c c' hstands =>
        declines_integer_of_begins hmem hminus (begins_of_stands hstands)
  | literal negative digits hne hall =>
    cases hvalue : Integer.ofInt? (literalValue negative digits) with
    | some n =>
      refine ⟨.accepts n, by simp, fun c c' hstands => ?_⟩
      obtain ⟨u, hrest, htrivia, hhead⟩ := hstands.exists_rest
      refine run_of_finds honest_integer advancing_integer (finds_integer ?_) hstands.reaches
      refine ⟨negative, digits, u, ?_, hne, hall, fun x hx => (hhead x hx).2.1,
        Integer.ofInt?_eq_some_iff.1 hvalue, htrivia⟩
      rw [hrest, ← List.append_assoc]
      rfl
    | none =>
      refine ⟨.rejects (.named "integer literal within the 64-bit range"), by simp,
        fun c c' hstands => ?_⟩
      obtain ⟨u, hrest, -, hhead⟩ := hstands.exists_rest
      have hwritten : c.rest = (if negative then ['-'] else []) ++ (digits ++ u) := by
        rw [hrest, ← List.append_assoc]
        rfl
      obtain ⟨hsign, hdigits, -⟩ :=
        afterSign_of_rest_eq hwritten hne hall fun x hx => (hhead x hx).2.1
      rw [run_integer, hdigits, if_neg (by simpa using hne), hsign, hvalue]
      rfl

theorem uniform_endOfInput : Uniform endOfInput := by
  refine fun l => ⟨.refuses .endOfInput, by simp, fun c c' hstands => if_neg ?_⟩
  simpa [Cursor.atEnd] using hstands.rest_ne_nil

/-! ### Alignments of layouts -/

/-- At the two places stands the same piece in front of places that go together, or both are ends.
Behind a sign there is one more pair of places. -/
def StandAlike (rel : Cursor → Cursor → Prop) (c d : Cursor) : Prop :=
  (c.rest = [] ∧ d.rest = []) ∨
    ∃ l c' d', Stands l c c' ∧ Stands l d d' ∧ rel c' d' ∧
      (l.hasSign = true → rel (afterSign c) (afterSign d))

theorem StandAlike.mono {rel rel' : Cursor → Cursor → Prop} {d : Cursor} (h : StandAlike rel c d)
    (hrel : ∀ c d, rel c d → rel' c d) : StandAlike rel' c d := by
  rcases h with hend | ⟨l, c', d', hc, hd, hnext, hsign⟩
  · exact .inl hend
  · exact .inr ⟨l, c', d', hc, hd, hrel _ _ hnext, fun h => hrel _ _ (hsign h)⟩

variable {A : Alignment}

theorem parallel_of_uniform (hA : ∀ c d, A.rel c d → StandAlike A.rel c d) (hhonest : p.Honest)
    (hp : Uniform p)
    (hend : ∀ c d, A.rel c d → c.rest = [] → d.rest = [] → A.Alike (p.run c) (p.run d)) :
    Parallel A p where
  honest := hhonest
  alike c d h := by
    rcases hA c d h with ⟨hc, hd⟩ | ⟨l, c', d', hc, hd, hnext, hsign⟩
    · exact hend c d h hc hd
    · obtain ⟨v, hsplits, hrun⟩ := hp l
      rw [hrun c c' hc, hrun d d' hd]
      cases v with
      | accepts a => exact .ok true a hnext
      | splits a => exact .ok true a (hsign (hsplits a rfl))
      | refuses e => exact .error false [e] h
      | rejects e => exact .error true [e] h

theorem alike_of_declines {expected : Expectation} {scan : Cursor → Option (α × Cursor)}
    {d : Cursor} (hnil : (lexeme expected scan).Declines []) (h : A.rel c d) (hc : c.rest = [])
    (hd : d.rest = []) : A.Alike ((lexeme expected scan).run c) ((lexeme expected scan).run d) := by
  rw [run_of_declines_lexeme (hc ▸ hnil), run_of_declines_lexeme (hd ▸ hnil)]
  exact Alignment.alike_refusal h expected

theorem lexical_of_standAlike (hA : ∀ c d, A.rel c d → StandAlike A.rel c d) : A.Lexical where
  symbol text htext := by
    refine parallel_of_uniform hA (honest_symbol htext) (uniform_symbol htext) fun c d =>
      alike_of_declines (declines_symbol fun hbegins => ?_)
    obtain ⟨u, hnil, -⟩ := begins_iff.1 hbegins
    exact (symbols_head text htext).1 (List.append_eq_nil_iff.1 hnil.symm).1
  keyword _ hword :=
    parallel_of_uniform hA (honest_keyword hword) (uniform_keyword hword) fun c d =>
      alike_of_declines (declines_keyword_of_not_startsWord hword not_startsWord_nil)
  identifier :=
    parallel_of_uniform hA honest_identifier uniform_identifier fun c d =>
      alike_of_declines (declines_identifier_of_not_startsWord not_startsWord_nil)
  integer := by
    have hnil : integer.Declines [] := declines_integer (by simp)
    refine parallel_of_uniform hA honest_integer uniform_integer fun c d h hc hd => ?_
    rw [run_of_declines_integer (hc ▸ hnil), run_of_declines_integer (hd ▸ hnil)]
    exact Alignment.alike_refusal h _
  endOfInput := by
    refine parallel_of_uniform hA honest_endOfInput uniform_endOfInput fun c d h hc hd => ?_
    have hrun (e : Cursor) (he : e.rest = []) : endOfInput.run e = ⟨false, .ok ((), e)⟩ :=
      if_pos (by rw [Cursor.atEnd, he]; rfl)
    rw [hrun c hc, hrun d hd]
    exact .ok false () h

end Lexeme

namespace Language

open Lexeme

/-- Pieces in a row, each with a gap after it. -/
def spread : List (Piece × Gap) → List Char
  | [] => []
  | (l, g) :: pieces => l.text ++ (g.text ++ spread pieces)

/-- The text of pieces with a gap before the first and after each. -/
def layout (before : Gap) (pieces : List (Piece × Gap)) : String :=
  String.ofList (before.text ++ spread pieces)

theorem settled_spread (pieces : List (Piece × Gap)) : Settled (spread pieces) := by
  cases pieces with
  | nil => decide
  | cons piece pieces => exact piece.1.settled piece.2 (spread pieces)

/-- The places of two layouts that go together, from two positions on. -/
def stops : Nat → Nat → List (Piece × Gap) → List (Piece × Gap) → List (Cursor × Cursor)
  | i, j, (l, g) :: ps, (l', g') :: ps' =>
    let c : Cursor := ⟨i, spread ((l, g) :: ps)⟩
    let d : Cursor := ⟨j, spread ((l', g') :: ps')⟩
    (c, d) :: ((if l.hasSign then [(afterSign c, afterSign d)] else []) ++
      stops (i + byteSize l.text + byteSize g.text)
        (j + byteSize l'.text + byteSize g'.text) ps ps')
  | i, j, _, _ => [(⟨i, []⟩, ⟨j, []⟩)]

theorem stands_spread (i : Nat) (l : Piece) (g : Gap) (ps : List (Piece × Gap)) :
    Stands l ⟨i, spread ((l, g) :: ps)⟩ ⟨i + byteSize l.text + byteSize g.text, spread ps⟩ :=
  ⟨⟨g, rfl, rfl⟩, settled_spread ps⟩

variable {i j : Nat} {ps ps' : List (Piece × Gap)}

/-- Layouts of the same pieces. -/
abbrev SamePieces : List (Piece × Gap) → List (Piece × Gap) → Prop :=
  List.Forall₂ fun x y => x.1 = y.1

theorem mem_stops_cons {l : Piece} {g g' : Gap} {x : Cursor × Cursor} :
    x ∈ stops i j ((l, g) :: ps) ((l, g') :: ps') ↔
      x = (⟨i, spread ((l, g) :: ps)⟩, ⟨j, spread ((l, g') :: ps')⟩) ∨
      (l.hasSign = true ∧ x = (afterSign ⟨i, spread ((l, g) :: ps)⟩,
        afterSign ⟨j, spread ((l, g') :: ps')⟩)) ∨
      x ∈ stops (i + byteSize l.text + byteSize g.text) (j + byteSize l.text + byteSize g'.text)
        ps ps' := by
  simp only [stops, List.mem_cons, List.mem_append]
  cases l.hasSign <;> simp

theorem start_mem_stops (h : SamePieces ps ps') (i j : Nat) :
    ((⟨i, spread ps⟩, ⟨j, spread ps'⟩) : Cursor × Cursor) ∈ stops i j ps ps' := by
  cases h with
  | nil => exact List.mem_singleton.2 rfl
  | cons => exact List.mem_cons_self ..

/-- The first places come before the others. -/
theorem le_of_mem_stops (h : SamePieces ps ps') (i j : Nat) :
    ∀ x ∈ stops i j ps ps', i ≤ x.1.pos ∧ j ≤ x.2.pos := by
  induction h generalizing i j with
  | nil =>
    intro x hx
    rw [List.mem_singleton.1 hx]
    exact ⟨Nat.le_refl i, Nat.le_refl j⟩
  | @cons y y' ps ps' heq _ ih =>
    obtain ⟨l, g⟩ := y
    obtain ⟨l', g'⟩ := y'
    obtain rfl : l = l' := heq
    intro x hx
    rcases mem_stops_cons.1 hx with rfl | ⟨-, rfl⟩ | hx
    · exact ⟨Nat.le_refl i, Nat.le_refl j⟩
    · exact ⟨(reaches_afterSign ⟨i, _⟩).pos_le, (reaches_afterSign ⟨j, _⟩).pos_le⟩
    · have hle := ih _ _ x hx
      omega

theorem pairwise_stops (h : SamePieces ps ps') (i j : Nat) :
    (stops i j ps ps').Pairwise fun x y => x.1.pos < y.1.pos ∧ x.2.pos < y.2.pos := by
  induction h generalizing i j with
  | nil => exact List.pairwise_singleton _ _
  | @cons y y' ps ps' heq hsame ih =>
    obtain ⟨l, g⟩ := y
    obtain ⟨l', g'⟩ := y'
    obtain rfl : l = l' := heq
    have hc := stands_spread i l g ps
    have hd := stands_spread j l g' ps'
    have hlater := le_of_mem_stops hsame (i + byteSize l.text + byteSize g.text)
      (j + byteSize l.text + byteSize g'.text)
    have hsigned (x) (hx : x ∈ (if l.hasSign then [(afterSign ⟨i, spread ((l, g) :: ps)⟩,
        afterSign ⟨j, spread ((l, g') :: ps')⟩)] else [])) : i < x.1.pos ∧ j < x.2.pos ∧
        x.1.pos < i + byteSize l.text + byteSize g.text ∧
        x.2.pos < j + byteSize l.text + byteSize g'.text := by
      split at hx
      · rename_i hsign
        obtain rfl := List.mem_singleton.1 hx
        obtain ⟨-, hpos, hstands⟩ := hc.afterSign hsign
        obtain ⟨-, hpos', hstands'⟩ := hd.afterSign hsign
        have hlt := hstands.pos_lt
        have hlt' := hstands'.pos_lt
        dsimp only at hpos hpos' hlt hlt' ⊢
        omega
      · cases hx
    have hpos := hc.pos_lt
    have hpos' := hd.pos_lt
    dsimp only at hpos hpos'
    refine List.pairwise_cons.2 ⟨fun x hx => ?_, List.pairwise_append.2 ⟨?_, ih _ _, ?_⟩⟩
    · rcases List.mem_append.1 hx with hx | hx
      · have hlt := hsigned x hx
        exact ⟨hlt.1, hlt.2.1⟩
      · have hle := hlater x hx
        dsimp only
        omega
    · split <;> simp
    · intro x hx y hy
      have hlt := hsigned x hx
      have hle := hlater y hy
      omega

/-- At all of these places the layouts agree on what stands there. -/
theorem standAlike_of_mem_stops (h : SamePieces ps ps') (i j : Nat) :
    ∀ x ∈ stops i j ps ps', StandAlike (fun c d => (c, d) ∈ stops i j ps ps') x.1 x.2 := by
  induction h generalizing i j with
  | nil =>
    intro x hx
    rw [List.mem_singleton.1 hx]
    exact .inl ⟨rfl, rfl⟩
  | @cons y y' ps ps' heq hsame ih =>
    obtain ⟨l, g⟩ := y
    obtain ⟨l', g'⟩ := y'
    obtain rfl : l = l' := heq
    have hc := stands_spread i l g ps
    have hd := stands_spread j l g' ps'
    have hnext := mem_stops_cons.2 (.inr (.inr (start_mem_stops hsame
      (i + byteSize l.text + byteSize g.text) (j + byteSize l.text + byteSize g'.text))))
    intro x hx
    rcases mem_stops_cons.1 hx with rfl | ⟨hsign, rfl⟩ | hx
    · exact .inr ⟨l, _, _, hc, hd, hnext, fun hsign => mem_stops_cons.2 (.inr (.inl ⟨hsign, rfl⟩))⟩
    · -- The literal without its sign stands here, in front of the same places.
      refine .inr ⟨l.unsigned, _, _, (hc.afterSign hsign).2.2, (hd.afterSign hsign).2.2, hnext, ?_⟩
      intro hunsigned
      rw [l.hasSign_unsigned] at hunsigned
      cases hunsigned
    · exact (ih _ _ x hx).mono fun c d hcd => mem_stops_cons.2 (.inr (.inr hcd))

theorem skipTrivia_start_layout (before : Gap) (pieces : List (Piece × Gap)) :
    (Cursor.start (layout before pieces).toList).skipTrivia =
      ⟨byteSize before.text, spread pieces⟩ := by
  have htrivia : Trivia (Cursor.start (layout before pieces).toList).rest (spread pieces) := by
    show Trivia (String.ofList (before.text ++ spread pieces)).toList _
    rw [String.toList_ofList]
    exact before.trivia (settled_spread pieces)
  have hreaches : (Cursor.start (layout before pieces).toList).Reaches
      ⟨byteSize before.text, spread pieces⟩ := by
    refine ⟨before.text, ?_, (Nat.zero_add _).symm⟩
    show (String.ofList (before.text ++ spread pieces)).toList = _
    rw [String.toList_ofList]
  exact hreaches.skipTrivia_eq htrivia

end Language

open Scriptlet.Language Lexeme Grammar

/-- Two layouts of the same pieces are read as the same program, or both are refused and the same
was expected where they were. -/
theorem Program.parse_layout (before before' : Gap) (pieces pieces' : List (Piece × Gap))
    (hsame : pieces.map Prod.fst = pieces'.map Prod.fst) :
    (∃ p, Program.parse (layout before pieces) = .ok p ∧
      Program.parse (layout before' pieces') = .ok p) ∨
    ∃ e e', Program.parse (layout before pieces) = .error e ∧
      Program.parse (layout before' pieces') = .error e' ∧ e.expected = e'.expected := by
  have hpieces : SamePieces pieces pieces' := by
    have hmap : List.Forall₂ Eq (pieces.map Prod.fst) (pieces'.map Prod.fst) := by
      rw [hsame]
      exact List.forall₂_refl _
    simpa [List.forall₂_map_left_iff, List.forall₂_map_right_iff] using hmap
  let i := byteSize before.text
  let j := byteSize before'.text
  let A : Alignment := .ofPairs (stops i j pieces pieces') (pairwise_stops hpieces i j)
  have hA : A.Lexical :=
    lexical_of_standAlike fun c d hcd => standAlike_of_mem_stops hpieces i j (c, d) hcd
  have hstart : A.rel (Cursor.start (layout before pieces).toList).skipTrivia
      (Cursor.start (layout before' pieces').toList).skipTrivia := by
    rw [skipTrivia_start_layout, skipTrivia_start_layout]
    exact start_mem_stops hpieces i j
  rcases parseText_whole_alike hA (parallel_definitions hA) hstart with hok | herror
  · exact .inl hok
  · obtain ⟨c, d, expected, -, hleft, hright⟩ := herror
    exact .inr ⟨_, _, hleft, hright, rfl⟩

/-- A definition with single blanks, and with a comment before it and another one inside. -/
theorem Program.parse_layout_comments :
    ∃ (before before' : Gap) (pieces pieces' : List (Piece × Gap)),
      pieces.map Prod.fst = pieces'.map Prod.fst ∧
      layout before pieces = " global x = true ; " ∧
      layout before' pieces' = "\n// first\nglobal x\t=\n// second\n true ; " ∧
      Program.parse (layout before pieces) = .ok ⟨[.global ⟨"x", .boolean true⟩]⟩ ∧
      Program.parse (layout before' pieces') = .ok ⟨[.global ⟨"x", .boolean true⟩]⟩ := by
  let space : Gap := ⟨' ', by decide, []⟩
  let tab : Gap := ⟨'\t', by decide, []⟩
  let first : Gap := ⟨'\n', by decide, [.comment " first".toList (by decide)]⟩
  let second : Gap :=
    ⟨'\n', by decide, [.comment " second".toList (by decide), .blank ' ' (by decide)]⟩
  let global : Piece := .word "global" (by decide) (by decide)
  let x : Piece := .word "x" (by decide) (by decide)
  let yes : Piece := .word "true" (by decide) (by decide)
  let equals : Piece := .symbol "=" (by decide)
  let semicolon : Piece := .symbol ";" (by decide)
  let pieces := [(global, space), (x, space), (equals, space), (yes, space), (semicolon, space)]
  let pieces' := [(global, space), (x, tab), (equals, second), (yes, space), (semicolon, space)]
  have htext : layout space pieces = " global x = true ; " := by cbv
  have htext' : layout first pieces' = "\n// first\nglobal x\t=\n// second\n true ; " := by cbv
  have hread : Program.parse (layout space pieces) = .ok ⟨[.global ⟨"x", .boolean true⟩]⟩ := by
    rw [htext]
    rfl
  have hsame : pieces.map Prod.fst = pieces'.map Prod.fst := rfl
  refine ⟨space, first, pieces, pieces', hsame, htext, htext', hread, ?_⟩
  rcases Program.parse_layout space first pieces pieces' hsame with ⟨p, hp, hp'⟩ | ⟨e, e', he, -⟩
  · rw [hp', ← hp, hread]
  · rw [hread] at he
    cases he

end Scriptlet
