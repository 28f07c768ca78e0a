import Scriptlet.Proofs.Language.Honesty

/-!
# Lexemes by offsets

A place in a text can also be given as an offset, a number of bytes from the start. Then what is at
the place has to be cut out of the text each time, and that breaks off where the offset lies inside
a character or past the end. Two operations break off in one more case: to move past a text that is
not there, and to cut out the text up to an earlier offset. All of these are partial here (`none`),
and the lexemes are written once more in terms of them (`Atom.execute?`).

Main statement: at the places of a text, executing a lexeme by offsets never breaks off, and has the
reply of the parser (`Atom.execute?_eq`).
-/

namespace Scriptlet

namespace Offset

variable (source : List Char)

/-- The text from an offset on. -/
def rest? (pos : Nat) : Option (List Char) :=
  if IsBoundary source pos then some (dropBytes pos source) else none

/-- The text between two offsets, of which the second must not be the earlier one. -/
def slice? (start stop : Nat) : Option (List Char) :=
  if start ≤ stop ∧ IsBoundary source start ∧ IsBoundary source stop then
    some (takeBytes (stop - start) (dropBytes start source))
  else
    none

def current? (pos : Nat) : Option (Option Char) :=
  (rest? source pos).map List.head?

def startsWith? (pos : Nat) (text : List Char) : Option Bool :=
  (rest? source pos).map text.isPrefixOf

/-- Moves past a text, which must be there. -/
def advancePast? (pos : Nat) (text : List Char) : Option Nat := do
  if ← startsWith? source pos text then some (pos + byteSize text) else none

/-- Moves past one character, and stays at the end. -/
def advance? (pos : Nat) : Option Nat := do
  match ← current? source pos with
  | some x => some (pos + x.utf8Size)
  | none => some pos

/-- Moves past the longest run of characters in a class. -/
def advanceWhile? (pos : Nat) (q : Char → Bool) : Option Nat := do
  let rest ← rest? source pos
  some (pos + byteSize (rest.takeWhile q))

/-- Moves over blanks and comments, with at most `n` runs of blanks. -/
def skipTrivia? : Nat → Nat → Option Nat
  | 0, _ => none
  | n + 1, pos => do
    let next ← advanceWhile? source pos isBlank
    if ← startsWith? source next ['/', '/'] then
      let lineEnd ← advanceWhile? source next (· != '\n')
      skipTrivia? n lineEnd
    else
      some next

/-- The cursor at an offset. -/
def place (pos : Nat) : Cursor :=
  ⟨pos, dropBytes pos source⟩

variable {source}

/-- A part of a text is cut out by the sizes of what is before it and of what is up to its end. -/
theorem slice?_append (u v w : List Char) :
    slice? (u ++ (v ++ w)) (byteSize u) (byteSize u + byteSize v) = some v := by
  have hstart : IsBoundary (u ++ (v ++ w)) (byteSize u) :=
    (isBoundary_iff _ _).2 ⟨u, v ++ w, rfl, rfl⟩
  have hstop : IsBoundary (u ++ (v ++ w)) (byteSize u + byteSize v) :=
    (isBoundary_iff _ _).2 ⟨u ++ v, w, (List.append_assoc u v w).symm, byteSize_append u v⟩
  unfold slice?
  rw [if_pos ⟨Nat.le_add_right _ _, hstart, hstop⟩, Nat.add_sub_cancel_left,
    dropBytes_byteSize_append, takeBytes_byteSize_append]

theorem slice?_leading (u v : List Char) : slice? (u ++ v) 0 (byteSize u) = some u := by
  have hslice := slice?_append [] u v
  rwa [byteSize_nil, Nat.zero_add] at hslice

end Offset

/-! ### At the places of a text nothing breaks off -/

namespace Cursor.Over

open Offset

variable {source : List Char} {c d : Cursor}

theorem place_eq (h : c.Over source) : place source c.pos = c :=
  Cursor.ext rfl h.rest_eq.symm

theorem rest?_eq (h : c.Over source) : rest? source c.pos = some c.rest := by
  unfold rest?
  rw [if_pos h.boundary, h.rest_eq]

theorem current?_eq (h : c.Over source) : Offset.current? source c.pos = some c.current? := by
  unfold Offset.current?
  rw [h.rest?_eq]
  rfl

theorem startsWith?_eq (h : c.Over source) (text : List Char) :
    startsWith? source c.pos text = some (c.startsWith text) := by
  unfold startsWith?
  rw [h.rest?_eq]
  rfl

theorem advance?_eq (h : c.Over source) : advance? source c.pos = some c.next.pos := by
  unfold advance?
  rw [h.current?_eq]
  obtain ⟨pos, rest⟩ := c
  cases rest <;> rfl

theorem advanceWhile?_eq (h : c.Over source) (q : Char → Bool) :
    advanceWhile? source c.pos q = some (c.dropWhile q).pos := by
  unfold advanceWhile?
  rw [h.rest?_eq]
  rfl

theorem dropWhile (h : c.Over source) (q : Char → Bool) : (c.dropWhile q).Over source :=
  h.reaches (reaches_dropWhile c q)

/-- The text between two places is what was passed on the way from the one to the other. -/
theorem slice?_eq {passed : List Char} (h : c.Over source)
    (hrest : c.rest = passed ++ d.rest) (hpos : d.pos = c.pos + byteSize passed) :
    slice? source c.pos d.pos = some passed := by
  obtain ⟨before, hbefore, hstart⟩ := over_iff.1 h
  have hsource : source = before ++ (passed ++ d.rest) := hrest ▸ hbefore
  have hsize : c.pos = byteSize before := hstart.trans (Nat.zero_add _)
  rw [hpos, hsize, hsource, slice?_append]

end Cursor.Over

theorem trivia_append_of_blank {u s t : List Char} (hu : ∀ x ∈ u, isBlank x = true)
    (h : Trivia s t) : Trivia (u ++ s) t := by
  induction u with
  | nil => exact h
  | cons x u ih =>
    obtain ⟨hx, hu⟩ := List.forall_mem_cons.1 hu
    exact .blank hx (ih hu)

namespace Cursor

/-- Where no comment follows the blanks, the trivia is at its end. -/
theorem skipTrivia_eq_of_not_comment {c : Cursor}
    (h : (c.dropWhile isBlank).startsWith ['/', '/'] = false) :
    c.skipTrivia = c.dropWhile isBlank := by
  let d := c.dropWhile isBlank
  have hsettled : Settled d.rest := by
    refine ⟨head_dropWhile isBlank c.rest, fun hprefix => ?_⟩
    rw [startsWith, List.isPrefixOf_iff_prefix.2 hprefix] at h
    exact Bool.noConfusion h
  have htrivia : Trivia c.rest d.rest := by
    rw [show c.rest = c.takeWhile isBlank ++ d.rest from List.takeWhile_append_dropWhile.symm]
    exact trivia_append_of_blank (List.all_eq_true.1 List.all_takeWhile) (.done hsettled)
  exact (reaches_dropWhile c isBlank).skipTrivia_eq htrivia

/-- A comment after the blanks goes up to the end of its line, and the trivia goes on there. -/
theorem skipTrivia_eq_of_comment {c e : Cursor}
    (h : (c.dropWhile isBlank).startsWith ['/', '/'] = true)
    (he : e = (c.dropWhile isBlank).dropWhile (· != '\n')) :
    c.skipTrivia = e.skipTrivia ∧ e.rest.length < c.rest.length := by
  let d := c.dropWhile isBlank
  obtain ⟨tail, htail⟩ : ∃ tail, ['/', '/'] ++ tail = d.rest := List.isPrefixOf_iff_prefix.1 h
  have hrest : e.rest = tail.dropWhile (· != '\n') := by
    rw [he]
    show d.rest.dropWhile (· != '\n') = _
    rw [← htail]
    rfl
  have hcomment : d.rest = '/' :: '/' :: (tail.takeWhile (· != '\n') ++ e.rest) := by
    rw [← htail, hrest, List.takeWhile_append_dropWhile]
    rfl
  have hline : '\n' ∉ tail.takeWhile (· != '\n') := by
    intro hmem
    have hne := List.all_eq_true.1 List.all_takeWhile '\n' hmem
    exact absurd hne (by decide)
  have hlineEnd : ∀ x ∈ e.rest.head?, x = '\n' := by
    intro x hx
    rw [hrest] at hx
    exact bne_eq_false_iff_eq.1 (head_dropWhile _ _ x hx)
  have hsplit : c.rest = c.takeWhile isBlank ++ d.rest := List.takeWhile_append_dropWhile.symm
  have htrivia : Trivia c.rest e.skipTrivia.rest := by
    rw [hsplit, hcomment]
    exact trivia_append_of_blank (List.all_eq_true.1 List.all_takeWhile)
      (.comment hline hlineEnd (trivia_skipTrivia e))
  have hreaches : c.Reaches e := by
    rw [he]
    exact (reaches_dropWhile c isBlank).trans (reaches_dropWhile d _)
  refine ⟨(hreaches.trans (reaches_skipTrivia e)).skipTrivia_eq htrivia, ?_⟩
  rw [hsplit, hcomment]
  simp only [List.length_append, List.length_cons]
  omega

end Cursor

namespace Cursor.Over

open Offset

variable {source : List Char} {c : Cursor}

/-- Each comment takes up characters, so there are fewer of them than characters left. -/
theorem skipTrivia?_eq (h : c.Over source) {n : Nat} (hn : c.rest.length < n) :
    skipTrivia? source n c.pos = some c.skipTrivia.pos := by
  induction n generalizing c with
  | zero => omega
  | succ n ih =>
    have hblanks : (c.dropWhile isBlank).Over source := h.dropWhile isBlank
    simp only [skipTrivia?, h.advanceWhile?_eq, hblanks.startsWith?_eq, hblanks.advanceWhile?_eq,
      Option.bind_eq_bind, Option.bind_some]
    cases hcomment : (c.dropWhile isBlank).startsWith ['/', '/'] with
    | false =>
      rw [skipTrivia_eq_of_not_comment hcomment]
      rfl
    | true =>
      -- The loop goes on at the end of the comment's line, with fewer characters left.
      obtain ⟨heq, hlength⟩ := skipTrivia_eq_of_comment hcomment rfl
      rw [heq]
      exact ih (hblanks.dropWhile _) (by omega)

theorem length_le (h : c.Over source) : c.rest.length ≤ source.length :=
  (over_iff.1 h).length_le

theorem byteSize_eq (h : c.Over source) : byteSize source = c.pos + byteSize c.rest := by
  obtain ⟨passed, hrest, hpos⟩ := over_iff.1 h
  have hsource : source = passed ++ c.rest := hrest
  have hpassed : c.pos = byteSize passed := hpos.trans (Nat.zero_add _)
  rw [hsource, byteSize_append, hpassed]

theorem atEnd_iff (h : c.Over source) : c.atEnd = true ↔ byteSize source ≤ c.pos := by
  have hsize := h.byteSize_eq
  have hlength := length_le_byteSize c.rest
  rw [Cursor.atEnd, List.isEmpty_iff]
  constructor
  · intro hnil
    rw [hnil, byteSize_nil] at hsize
    omega
  · intro hle
    exact List.eq_nil_of_length_eq_zero (by omega)

end Cursor.Over

/-! ### Lexemes -/

namespace Lexeme

open Offset

section

variable {α : Type} (source : List Char)

/-- Moves over all blanks and comments at an offset. -/
def afterTrivia? (pos : Nat) : Option Cursor :=
  (skipTrivia? source (source.length + 1) pos).map (place source)

/-- A lexeme from a scanner, which gives the value and the offset just past the text, or tells that
the lexeme is not there. -/
def executeLexeme? (expected : Expectation) (scan : Nat → Option (Option (α × Nat))) (pos : Nat) :
    Option (Reply α) := do
  match ← scan pos with
  | some (a, after) => return ⟨true, .ok (a, ← afterTrivia? source after)⟩
  | none => return .refusal pos expected

/-- A fixed text that is accepted where the offset after it passes a test. -/
def scanExactly? (text : String) (ends : Nat → Option Bool) (pos : Nat) :
    Option (Option (Unit × Nat)) := do
  if ← startsWith? source pos text.toList then
    let after ← advancePast? source pos text.toList
    return if ← ends after then some ((), after) else none
  else
    return none

def symbolEnds? (text : String) (after : Nat) : Option Bool :=
  if extendable.contains text then
    (Offset.current? source after).map fun next => !(next == some '=')
  else
    some true

def keywordEnds? (after : Nat) : Option Bool :=
  (Offset.current? source after).map fun next => !next.any isWordChar

def scanIdentifier? (pos : Nat) : Option (Option (String × Nat)) := do
  if (← Offset.current? source pos).any isWordStart then
    let after ← advanceWhile? source pos isWordChar
    let word := String.ofList (← slice? source pos after)
    return if keywords.contains word then none else some (word, after)
  else
    return none

/-- The exact value of a literal, the sign included. -/
def valueOf : List Char → Int
  | '-' :: digits => literalValue true digits
  | digits => literalValue false digits

def afterSign? (pos : Nat) : Option Nat := do
  if (← Offset.current? source pos) == some '-' then advance? source pos else some pos

def executeInteger? (pos : Nat) : Option (Reply Integer) := do
  let unsigned ← afterSign? source pos
  if (← Offset.current? source unsigned).any Char.isDigit then
    let after ← advanceWhile? source unsigned Char.isDigit
    match Integer.ofInt? (valueOf (← slice? source pos after)) with
    | some n => return ⟨true, .ok (n, ← afterTrivia? source after)⟩
    | none =>
      return (Reply.refusal pos (.named "integer literal within the 64-bit range")).after true
  else
    return .refusal pos (.named "integer literal")

/-- What a lexeme replies at an offset; `none` if an operation on the way breaks off. -/
def Atom.execute? : Atom α → Nat → Option (Reply α)
  | .endOfInput, pos =>
    some (if byteSize source ≤ pos then ⟨false, .ok ((), place source pos)⟩
      else .refusal pos .endOfInput)
  | .spacing, pos => do
    let after ← afterTrivia? source pos
    return .moved () (place source pos) after
  | .symbol text, pos =>
    executeLexeme? source (.token text) (scanExactly? source text (symbolEnds? source text)) pos
  | .keyword word, pos =>
    executeLexeme? source (.token word) (scanExactly? source word (keywordEnds? source)) pos
  | .identifier, pos => executeLexeme? source (.named "identifier") (scanIdentifier? source) pos
  | .integer, pos => executeInteger? source pos

end

/-! ### Executing a lexeme never breaks off -/

variable {α : Type} {source : List Char} {c : Cursor}

theorem afterTrivia?_eq (hc : c.Over source) : afterTrivia? source c.pos = some c.skipTrivia := by
  have hlength : c.rest.length < source.length + 1 := Nat.lt_succ_of_le hc.length_le
  have hstop : c.skipTrivia.Over source := hc.reaches (Cursor.reaches_skipTrivia c)
  rw [afterTrivia?, hc.skipTrivia?_eq hlength, Option.map_some, hstop.place_eq]

/-- What the scanner by offsets finds is what the scanner finds, at places of the text. -/
structure ScansAlike (source : List Char) (scan? : Nat → Option (Option (α × Nat)))
    (scan : Cursor → Option (α × Cursor)) (c : Cursor) : Prop where
  found : scan? c.pos = some ((scan c).map fun (a, d) => (a, d.pos))
  stop_over : ∀ a d, scan c = some (a, d) → d.Over source

theorem ScansAlike.executeLexeme?_eq {scan? : Nat → Option (Option (α × Nat))}
    {scan : Cursor → Option (α × Cursor)} (h : ScansAlike source scan? scan c)
    (expected : Expectation) :
    executeLexeme? source expected scan? c.pos = some ((lexeme expected scan).run c) := by
  unfold executeLexeme? lexeme
  rw [h.found]
  match hscan : scan c with
  | none => simp [hscan]
  | some (a, d) => simp [hscan, afterTrivia?_eq (h.stop_over a d hscan)]

/-- To look whether the text is there before moving past it is enough. -/
theorem scansAlike_exactly (hc : c.Over source) (text : String) {ends? : Nat → Option Bool}
    {ends : Cursor → Bool} (hends : ∀ d : Cursor, d.Over source → ends? d.pos = some (ends d)) :
    ScansAlike source (scanExactly? source text ends?)
      (fun c => ((c.skip? text.toList).filter ends).map (((), ·))) c where
  found := by
    simp only [scanExactly?, advancePast?, hc.startsWith?_eq, Option.bind_eq_bind, Option.bind_some]
    cases hprefix : c.startsWith text.toList with
    | false =>
      have hskip : c.skip? text.toList = none := by
        rw [Cursor.skip?, Option.map_eq_none_iff, Option.eq_none_iff_forall_ne_some]
        intro tail htail
        have happend := List.isPrefixOf?_eq_some_iff_append_eq.1 htail
        rw [Cursor.startsWith, List.isPrefixOf_iff_prefix.2 ⟨tail, happend⟩] at hprefix
        exact Bool.noConfusion hprefix
      rw [hskip]
      rfl
    | true =>
      obtain ⟨tail, htail⟩ := List.isPrefixOf_iff_prefix.1 hprefix
      let d : Cursor := ⟨c.pos + byteSize text.toList, tail⟩
      have hskip : c.skip? text.toList = some d := by
        rw [Cursor.skip?, List.isPrefixOf?_eq_some_iff_append_eq.2 htail]
        rfl
      have hd : d.Over source := hc.reaches ⟨text.toList, htail.symm, rfl⟩
      have hafter : ends? (c.pos + byteSize text.toList) = some (ends d) := hends d hd
      rw [hskip]
      cases hd : ends d <;> simp [hafter, hd, Option.filter, d]
  stop_over a d hscan := by
    obtain ⟨hrest, hpos, -⟩ := scan_exactly_iff.1 hscan
    exact hc.reaches ⟨text.toList, hrest, hpos⟩

theorem symbolEnds?_eq (hc : c.Over source) (text : String) :
    symbolEnds? source text c.pos = some !(extendable.contains text && c.current? == some '=') := by
  unfold symbolEnds?
  rw [hc.current?_eq]
  cases extendable.contains text <;> rfl

theorem keywordEnds?_eq (hc : c.Over source) :
    keywordEnds? source c.pos = some !c.current?.any isWordChar := by
  unfold keywordEnds?
  rw [hc.current?_eq]
  rfl

theorem scansAlike_identifier (hc : c.Over source) :
    ScansAlike source (scanIdentifier? source) scanIdentifier c where
  found := by
    have hslice :
        slice? source c.pos (c.dropWhile isWordChar).pos = some (c.takeWhile isWordChar) :=
      hc.slice?_eq List.takeWhile_append_dropWhile.symm rfl
    simp only [scanIdentifier?, scanIdentifier, hc.current?_eq, hc.advanceWhile?_eq, hslice,
      Option.bind_eq_bind, Option.bind_some]
    cases c.current?.any isWordStart with
    | false => rfl
    | true => cases keywords.contains (String.ofList (c.takeWhile isWordChar)) <;> rfl
  stop_over name d hscan := by
    obtain ⟨hrest, -, -, hpos⟩ := scanIdentifier_eq_some_iff.1 hscan
    exact hc.reaches ⟨name.toList, hrest, hpos⟩

theorem afterSign?_eq (hc : c.Over source) : afterSign? source c.pos = some (afterSign c).pos := by
  simp only [afterSign?, afterSign, hc.current?_eq, hc.advance?_eq, Option.bind_eq_bind,
    Option.bind_some]
  split <;> rfl

/-- The text of a literal is its sign and its digits. -/
theorem slice?_integer (hc : c.Over source) :
    slice? source c.pos ((afterSign c).dropWhile Char.isDigit).pos =
      some ((if c.current? == some '-' then ['-'] else []) ++
        (afterSign c).takeWhile Char.isDigit) := by
  have hreaches : c.Reaches (afterSign c) := reaches_afterSign c
  obtain ⟨sign, hsign, hpos⟩ := hreaches
  obtain rfl := List.append_cancel_right (hsign.symm.trans (rest_eq_afterSign c))
  refine hc.slice?_eq ?_ ?_
  · rw [List.append_assoc]
    refine hsign.trans (congrArg _ ?_)
    exact List.takeWhile_append_dropWhile.symm
  · rw [byteSize_append, ← Nat.add_assoc, ← hpos]
    rfl

/-- The sign is read off the text of the literal again. -/
theorem valueOf_eq (negative : Bool) {digits : List Char} (h : ∀ x ∈ digits, x.isDigit = true) :
    valueOf ((if negative then ['-'] else []) ++ digits) = literalValue negative digits := by
  cases negative with
  | true => rfl
  | false =>
    cases digits with
    | nil => rfl
    | cons x xs =>
      -- A digit is no minus sign, so nothing is taken for a sign here.
      have hx : x ≠ '-' := by
        rintro rfl
        exact absurd (h '-' List.mem_cons_self) (by decide)
      simp [valueOf, hx]

theorem isEmpty_takeWhile (q : Char → Bool) (v : List Char) :
    (v.takeWhile q).isEmpty = !v.head?.any q := by
  cases v with
  | nil => rfl
  | cons x xs => cases hx : q x <;> simp [hx]

theorem executeInteger?_eq (hc : c.Over source) :
    executeInteger? source c.pos = some (integer.run c) := by
  have hd : (afterSign c).Over source := hc.reaches (reaches_afterSign c)
  have hstop := afterTrivia?_eq (hd.dropWhile Char.isDigit)
  have hdigits : ∀ x ∈ (afterSign c).takeWhile Char.isDigit, x.isDigit = true :=
    List.all_eq_true.1 List.all_takeWhile
  have hempty :
      ((afterSign c).takeWhile Char.isDigit).isEmpty = !(afterSign c).current?.any Char.isDigit :=
    isEmpty_takeWhile Char.isDigit (afterSign c).rest
  rw [run_integer, hempty]
  simp only [executeInteger?, afterSign?_eq hc, hd.current?_eq, hd.advanceWhile?_eq,
    slice?_integer hc, hstop, Option.bind_eq_bind, Option.bind_some]
  cases (afterSign c).current?.any Char.isDigit with
  | false => rfl
  | true =>
    rw [valueOf_eq _ hdigits]
    cases Integer.ofInt?
      (literalValue (c.current? == some '-') ((afterSign c).takeWhile Char.isDigit)) <;> rfl

/-- At a place of the text no operation on the way breaks off, and the reply is that of the
parser. -/
theorem Atom.execute?_eq (a : Atom α) (hc : c.Over source) :
    a.execute? source c.pos = some (a.parser.run c) := by
  cases a with
  | endOfInput =>
    simp only [execute?, hc.place_eq, ← hc.atEnd_iff]
    rfl
  | spacing =>
    simp only [execute?, afterTrivia?_eq hc, hc.place_eq, Option.bind_eq_bind, Option.bind_some]
    rfl
  | symbol text =>
    exact (scansAlike_exactly hc text fun d hd => symbolEnds?_eq hd text).executeLexeme?_eq _
  | keyword word =>
    exact (scansAlike_exactly hc word fun d hd => keywordEnds?_eq hd).executeLexeme?_eq _
  | identifier => exact (scansAlike_identifier hc).executeLexeme?_eq _
  | integer => exact executeInteger?_eq hc

/-- Inside a character the lexemes that look at the text break off. -/
example : (Atom.symbol "+").execute? ['é', '+'] 1 = none := rfl

end Lexeme

end Scriptlet
