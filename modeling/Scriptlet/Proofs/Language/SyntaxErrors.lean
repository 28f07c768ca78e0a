import Scriptlet.Proofs.Language.Execution
import Scriptlet.Proofs.Language.Parallel

/-!
# Syntax errors are well formed

A syntax error is made of a failure by cutting the text at its offset: the text before it is
searched for the last line feed and cut there again, and what stands at the offset is cut out of the
rest. As with lexemes, this is written once more by offsets, where each cut may break off
(`SyntaxError.ofFailure?`).

The offset of a failure comes from any of the alternatives of any rule. Lexemes stop where neither a
blank nor a comment begins, and fail where they began. So, with the text aligned to itself at such
places, every parser of the grammar that begins at one stops and fails at one (`lexical_settledIn`).
From this and from honesty follows what is true of every error (`SyntaxError.WellFormed`).

Main statement: on every text the reading of a program and of an expression does not break off, up
to the error that it may end with, and that error is well formed (`reading_unbroken`).
-/

namespace Scriptlet

open Offset

/-! ### Lines -/

namespace Location

/-- `line` is what the text has after its last line feed. -/
def LastLine (line text : List Char) : Prop :=
  '\n' ∉ line ∧ (text = line ∨ ∃ earlier, text = earlier ++ '\n' :: line)

theorem lastLine_takeWhile (text : List Char) :
    LastLine (text.reverse.takeWhile (· != '\n')).reverse text := by
  refine ⟨fun hmem => ?_, ?_⟩
  · have hne := List.all_eq_true.1 List.all_takeWhile '\n' (List.mem_reverse.1 hmem)
    exact absurd hne (by decide)
  · have hsplit :
        text.reverse.takeWhile (· != '\n') ++ text.reverse.dropWhile (· != '\n') = text.reverse :=
      List.takeWhile_append_dropWhile
    have hhead := head_dropWhile (· != '\n') text.reverse
    have htext := congrArg List.reverse hsplit
    rw [List.reverse_append, List.reverse_reverse] at htext
    -- What is left of the reversed text is nothing, or begins with the last line feed.
    cases hdrop : text.reverse.dropWhile (· != '\n') with
    | nil =>
      rw [hdrop] at htext
      exact .inl htext.symm
    | cons x xs =>
      rw [hdrop] at htext hhead
      obtain rfl : x = '\n' := bne_eq_false_iff_eq.1 (hhead x rfl)
      rw [List.reverse_cons, List.append_assoc] at htext
      exact .inr ⟨xs.reverse, htext.symm⟩

/-- The offset of the last line feed. -/
def lastLineFeed? : List Char → Option Nat
  | [] => none
  | x :: xs =>
    match lastLineFeed? xs with
    | some i => some (x.utf8Size + i)
    | none => if x = '\n' then some 0 else none

theorem lastLineFeed?_eq_none {line : List Char} (h : '\n' ∉ line) : lastLineFeed? line = none := by
  induction line with
  | nil => rfl
  | cons x xs ih =>
    rw [List.mem_cons, not_or] at h
    simp [lastLineFeed?, ih h.2, Ne.symm h.1]

theorem lastLineFeed?_append (u : List Char) {line : List Char} (h : '\n' ∉ line) :
    lastLineFeed? (u ++ '\n' :: line) = some (byteSize u) := by
  induction u with
  | nil => simp [lastLineFeed?, lastLineFeed?_eq_none h]
  | cons x xs ih => simp [lastLineFeed?, ih]

/-- The offset just after the last line feed. -/
def lineStart (text : List Char) : Nat :=
  ((lastLineFeed? text).map (· + 1)).getD 0

theorem LastLine.slice?_eq {line text : List Char} (h : LastLine line text) :
    slice? text (lineStart text) (byteSize text) = some line := by
  obtain ⟨hline, rfl | ⟨earlier, rfl⟩⟩ := h
  · have hslice := slice?_leading text []
    rw [List.append_nil] at hslice
    rw [lineStart, lastLineFeed?_eq_none hline]
    exact hslice
  · have hslice := slice?_append (earlier ++ ['\n']) line []
    have hfeed : Char.utf8Size '\n' = 1 := rfl
    simp only [List.append_nil, List.append_assoc, List.singleton_append,
      byteSize_append, byteSize_cons, byteSize_nil, hfeed] at hslice
    rw [lineStart, lastLineFeed?_append earlier hline, byteSize_append, byteSize_cons, hfeed]
    simpa [Nat.add_assoc] using hslice

/-- The location of an offset, where an offset past the end stands for the end. -/
def locate? (source : List Char) (offset : Nat) : Option Location := do
  let before ← slice? source 0 (min offset (byteSize source))
  let line ← slice? before (lineStart before) (byteSize before)
  return ⟨min (before.count '\n' + 1) ceiling, min (line.length + 1) ceiling⟩

theorem locate?_eq {source : List Char} {c : Cursor} (hc : c.Over source) :
    locate? source c.pos = some (after (takeBytes c.pos source)) := by
  have hmin : min c.pos (byteSize source) = c.pos := Nat.min_eq_left hc.pos_le
  have hbefore : slice? source 0 c.pos = some (takeBytes c.pos source) := by
    have hslice := slice?_leading (takeBytes c.pos source) (dropBytes c.pos source)
    rwa [takeBytes_append_dropBytes,
      show byteSize (takeBytes c.pos source) = c.pos from hc.boundary] at hslice
  simp only [locate?, hmin, hbefore, (lastLine_takeWhile (takeBytes c.pos source)).slice?_eq,
    Option.bind_eq_bind, Option.bind_some, List.length_reverse]
  rfl

end Location

/-! ### Errors -/

namespace SyntaxError

open Lexeme

/-- Cuts out what a text begins with and shows it. -/
def describe? : List Char → Option String
  | [] => some "end of input"
  | x :: xs => do
    let size := if isWordChar x then byteSize ((x :: xs).takeWhile isWordChar) else x.utf8Size
    let text ← slice? (x :: xs) 0 size
    return "`" ++ String.ofList text ++ "`"

theorem describe?_eq (s : List Char) : describe? s = some (describe s) := by
  cases s with
  | nil => rfl
  | cons x xs =>
    unfold describe? describe
    cases hword : isWordChar x with
    | true =>
      have hslice :=
        slice?_leading ((x :: xs).takeWhile isWordChar) ((x :: xs).dropWhile isWordChar)
      rw [List.takeWhile_append_dropWhile] at hslice
      simp only [hword, if_true, hslice, Option.bind_eq_bind, Option.bind_some]
      rfl
    | false =>
      have hslice : slice? (x :: xs) 0 x.utf8Size = some [x] := slice?_leading [x] xs
      simp [hslice, hword]

/-- The error for a failure; past the end or inside a character there is nothing to be found. -/
def ofFailure? (source : List Char) (f : Failure) : Option SyntaxError := do
  let location ← Location.locate? source f.pos
  let found ← describe? ((rest? source f.pos).getD [])
  return ⟨f.pos, location, f.expected, found⟩

theorem ofFailure?_eq {source : List Char} {f : Failure} {c : Cursor} (hc : c.Over source)
    (hpos : f.pos = c.pos) : ofFailure? source f = some (ofFailure source f) := by
  unfold ofFailure? ofFailure
  rw [hpos, Location.locate?_eq hc, hc.rest?_eq, ← hc.rest_eq]
  simp [describe?_eq]

/-- The error is about a place of the text where something stands that is not trivia, or about the
end; it tells the line and the column of the place, what could have gone on there, and the word or
the single character that stands there. -/
structure WellFormed (source : List Char) (e : SyntaxError) : Prop where
  offset_le : e.offset ≤ byteSize source
  boundary : IsBoundary source e.offset
  skipTrivia_eq : (place source e.offset).skipTrivia.pos = e.offset
  line_eq : e.location.line = min (1 + (takeBytes e.offset source).count '\n') (UInt32.size - 1)
  column_eq : ∃ line, Location.LastLine line (takeBytes e.offset source) ∧
    e.location.column = min (1 + line.length) (UInt32.size - 1)
  expected_ne_nil : e.expected ≠ []
  nodup : e.expected.Nodup
  found_end_iff : e.found = "end of input" ↔ e.offset = byteSize source
  found_eq : e.offset ≠ byteSize source → ∃ x text others,
    dropBytes e.offset source = x :: text ++ others ∧
      e.found = "`" ++ String.ofList (x :: text) ++ "`" ∧
    if isWordChar x then
      (∀ y ∈ text, isWordChar y = true) ∧ ∀ y ∈ others.head?, isWordChar y = false
    else
      text = []

theorem describe_eq_end_iff {s : List Char} : describe s = "end of input" ↔ s = [] := by
  constructor
  · intro h
    cases s with
    | nil => rfl
    | cons x xs =>
      have hhead := congrArg (fun t => t.toList.head?) h
      simp [describe] at hhead
  · rintro rfl
    rfl

theorem describe_cons (x : Char) (xs : List Char) : ∃ text others, x :: xs = x :: text ++ others ∧
    describe (x :: xs) = "`" ++ String.ofList (x :: text) ++ "`" ∧
    if isWordChar x then
      (∀ y ∈ text, isWordChar y = true) ∧ ∀ y ∈ others.head?, isWordChar y = false
    else
      text = [] := by
  cases hword : isWordChar x with
  | true =>
    refine ⟨xs.takeWhile isWordChar, xs.dropWhile isWordChar, ?_, ?_, ?_⟩
    · rw [List.cons_append, List.takeWhile_append_dropWhile]
    · simp [describe, hword]
    · exact ⟨List.all_eq_true.1 List.all_takeWhile, head_dropWhile _ _⟩
  | false => exact ⟨[], xs, rfl, by simp [describe, hword], rfl⟩

/-- A failure at a place that trivia does not begin at makes a well formed error. -/
theorem wellFormed_ofFailure {source : List Char} {c : Cursor} {expected : List Expectation}
    (hc : c.Over source) (hsettled : Settled c.rest) (hne : expected ≠ [])
    (hnodup : expected.Nodup) : WellFormed source (ofFailure source ⟨c.pos, expected⟩) := by
  have hend : c.rest = [] ↔ c.pos = byteSize source := by
    have hle := hc.pos_le
    rw [← List.isEmpty_iff, show c.rest.isEmpty = c.atEnd from rfl, hc.atEnd_iff]
    omega
  refine ⟨hc.pos_le, hc.boundary, ?_, ?_, ?_, hne, hnodup, ?_, ?_⟩
  · show (place source c.pos).skipTrivia.pos = c.pos
    rw [hc.place_eq, Cursor.skipTrivia_eq_self hsettled]
  · show min (_ + 1) _ = min (1 + _) _
    rw [Nat.add_comm]
    rfl
  · refine ⟨_, Location.lastLine_takeWhile _, ?_⟩
    rw [List.length_reverse, Nat.add_comm]
    rfl
  · show describe (dropBytes c.pos source) = _ ↔ c.pos = _
    rw [← hc.rest_eq, describe_eq_end_iff, hend]
  · show c.pos ≠ _ → ∃ x text others, dropBytes c.pos source = _ ∧
      describe (dropBytes c.pos source) = _ ∧ _
    rw [← hc.rest_eq]
    intro hpos
    cases hrest : c.rest with
    | nil => exact absurd (hend.1 hrest) hpos
    | cons x xs => exact ⟨x, describe_cons x xs⟩

end SyntaxError

/-! ### Failures at places where no trivia begins -/

namespace Alignment

/-- The text with itself, at the places where neither a blank nor a comment begins. -/
def settledIn (source : List Char) : Alignment where
  rel c d := d = c ∧ c.Over source ∧ Settled c.rest
  lt_iff := by
    rintro c c' d d' ⟨rfl, -⟩ ⟨rfl, -⟩
    exact Iff.rfl

variable {α : Type} {source : List Char} {p : Parser α}

/-- A parser that stops at such places, and fails where it began. -/
theorem parallel_settledIn (hp : p.Honest)
    (hstop : ∀ c a d, p.Gives c a d → Settled c.rest → Settled d.rest)
    (hfail : ∀ c f, p.Fails c f → f.pos = c.pos) : Parser.Parallel (settledIn source) p where
  honest := hp
  alike c d h := by
    obtain ⟨rfl, hover, hsettled⟩ := h
    match hrun : p.run d with
    | ⟨consumed, .ok (a, stop)⟩ =>
      have hgives := Parser.gives_of_run hrun
      exact .ok consumed a ⟨rfl, hover.reaches (hp.reaches hgives), hstop d a stop hgives hsettled⟩
    | ⟨consumed, .error ⟨pos, expected⟩⟩ =>
      obtain rfl : pos = d.pos := hfail d _ (Parser.fails_of_run hrun)
      exact .error consumed expected ⟨rfl, hover, hsettled⟩

open Lexeme in
theorem parallel_settledIn_lexeme {expected : Expectation} {scan : Cursor → Option (α × Cursor)}
    (hp : (lexeme expected scan).Honest) :
    Parser.Parallel (settledIn source) (lexeme expected scan) := by
  refine parallel_settledIn hp (fun c a d hgives _ => ?_) fun c f hfails => ?_
  · obtain ⟨stop, -, rfl⟩ := gives_lexeme_iff.1 hgives
    exact (trivia_skipTrivia stop).settled
  · rw [fails_lexeme hfails]
    rfl

open Lexeme in
/-- After a lexeme trivia is skipped, and a lexeme that is missing is missed where it should
begin. -/
theorem lexical_settledIn (source : List Char) : (settledIn source).Lexical where
  symbol _ htext := parallel_settledIn_lexeme (honest_symbol htext)
  keyword _ hword := parallel_settledIn_lexeme (honest_keyword hword)
  identifier := parallel_settledIn_lexeme honest_identifier
  integer := by
    refine parallel_settledIn honest_integer (fun c n d hgives _ => ?_) fun c f hfails => ?_
    · obtain ⟨-, -, -, rfl⟩ := run_integer_of_gives hgives
      exact (trivia_skipTrivia _).settled
    · obtain ⟨name, -, rfl⟩ := fails_integer hfails
      rfl
  endOfInput := by
    refine parallel_settledIn honest_endOfInput (fun c a d hgives hsettled => ?_)
      fun c f hfails => ?_
    · obtain ⟨-, rfl⟩ := Grammar.gives_endOfInput_iff.1 hgives
      exact hsettled
    · rw [Parser.fails_endOfInput hfails]
      rfl

end Alignment

/-! ### Reading whole texts -/

namespace Grammar

open Scriptlet.Parser Scriptlet.Alignment

variable {α : Type} {p : Parser α} {source : String}

/-- What a reply makes of the text, where an error is made by offsets. -/
def conclude? (source : List Char) (r : Reply α) : Option (Except SyntaxError α) :=
  match r.result with
  | .ok (a, _) => some (.ok a)
  | .error f => (SyntaxError.ofFailure? source f).map .error

/-- Reading the text as the form says does not break off, neither on the way nor in making the
error, and has the outcome; and if the outcome is an error, it is well formed. -/
structure Unbroken (source : String) (p : Written α) (outcome : Except SyntaxError α) : Prop where
  executes : Form.Executes rulebook source.toList p (.start source.toList)
  concludes :
    conclude? source.toList ((rulebook.parser p).run (.start source.toList)) = some outcome
  wellFormed : ∀ e, outcome = .error e → e.WellFormed source.toList

theorem over_start (source : List Char) : (Cursor.start source).Over source :=
  Cursor.over_iff.2 (Cursor.Reaches.refl _)

/-- A failure of a whole text lies at a place where no trivia begins. -/
theorem exists_place_of_fails {f : Failure} (hp : Parallel (settledIn source.toList) p)
    (h : (whole p).Fails (.start source.toList) f) :
    ∃ c : Cursor, f.pos = c.pos ∧ c.Over source.toList ∧ Settled c.rest := by
  have hstart : (settledIn source.toList).rel (Cursor.start source.toList).skipTrivia
      (Cursor.start source.toList).skipTrivia :=
    ⟨rfl, (over_start _).reaches (Cursor.reaches_skipTrivia _), (trivia_skipTrivia _).settled⟩
  have herror : parseText (whole p) source = .error (.ofFailure source.toList f) := by
    unfold parseText
    rw [show ((whole p).run (.start source.toList)).result = .error f from h]
  -- The text is aligned to itself, so the two outcomes that are alike are both its own.
  rcases parseText_whole_alike (lexical_settledIn _) hp hstart with ⟨a, hok, -⟩ | hfailure
  · rw [herror] at hok
    cases hok
  · obtain ⟨c, d, expected, ⟨-, hc, hsettled⟩, hrefused, -⟩ := hfailure
    rw [herror] at hrefused
    exact ⟨c, congrArg SyntaxError.offset (Except.error.inj hrefused), hc, hsettled⟩

/-- A text is read to its end or to an error that is well formed. -/
theorem conclude?_whole (hp : Parallel (settledIn source.toList) p) :
    conclude? source.toList ((whole p).run (.start source.toList)) =
        some (parseText (whole p) source) ∧
      ∀ e, parseText (whole p) source = .error e → e.WellFormed source.toList := by
  have hhonest : (whole p).Honest :=
    (Lexeme.honest_spacing.seqRight hp.honest).seqLeft Lexeme.honest_endOfInput
  match hresult : ((whole p).run (.start source.toList)).result with
  | .ok (a, stop) =>
    have hparse : parseText (whole p) source = .ok a := by
      unfold parseText
      rw [hresult]
    rw [hparse]
    refine ⟨?_, nofun⟩
    unfold conclude?
    rw [hresult]
  | .error f =>
    have hparse : parseText (whole p) source = .error (.ofFailure source.toList f) := by
      unfold parseText
      rw [hresult]
    obtain ⟨c, hpos, hc, hsettled⟩ := exists_place_of_fails hp hresult
    obtain ⟨-, hne, hnodup⟩ := hhonest.failure _ f hresult
    rw [hparse]
    refine ⟨?_, fun e he => ?_⟩
    · unfold conclude?
      rw [hresult]
      dsimp only
      rw [SyntaxError.ofFailure?_eq hc hpos, Option.map_some]
    · obtain rfl := Except.error.inj he
      obtain ⟨pos, expected⟩ := f
      obtain rfl : pos = c.pos := hpos
      exact SyntaxError.wellFormed_ofFailure hc hsettled hne hnodup

theorem unbroken_program (source : String) :
    Unbroken source Written.program (Program.parse source) := by
  obtain ⟨hconcludes, hwellFormed⟩ :=
    conclude?_whole (parallel_definitions (lexical_settledIn source.toList))
  refine ⟨executes_program (over_start _), ?_, hwellFormed⟩
  rw [parser_program]
  exact hconcludes

theorem unbroken_whole_expression (source : String) :
    Unbroken source (Written.whole Written.expression) (Expr.parse source) := by
  obtain ⟨hconcludes, hwellFormed⟩ :=
    conclude?_whole (parallel_expression (lexical_settledIn source.toList))
  refine ⟨executes_whole_expression (over_start _), ?_, hwellFormed⟩
  rw [parser_whole_expression]
  exact hconcludes

/-- On every text, reading a program and reading an expression break off nowhere: no operation cuts
the text inside a character, moves past a text that is not there or cuts backwards. At no place of
the text does a lexeme break off, and reading goes from place to place; the parsers of the grammar
are those of the forms that are followed. Every error that reading ends with is well formed. -/
theorem reading_unbroken (source : String) :
    rulebook.parser Written.program = program ∧
    rulebook.parser (Written.whole Written.expression) = whole expression ∧
    (∀ {α : Type} (a : Lexeme.Atom α) (c : Cursor), c.Over source.toList →
      a.execute? source.toList c.pos = some (a.parser.run c)) ∧
    Unbroken source Written.program (Program.parse source) ∧
    Unbroken source (Written.whole Written.expression) (Expr.parse source) :=
  ⟨parser_program, parser_whole_expression, fun a _ hc => a.execute?_eq hc,
    unbroken_program source, unbroken_whole_expression source⟩

/-- After a comment with a character of two bytes the offset counts bytes and the column
characters. -/
example : Program.parse "// é\nglobal é = 1;" =
    .error ⟨13, ⟨2, 8⟩, [.named "identifier"], "`é`"⟩ := by cbv

/-- A failure inside a character would have no error. -/
example : SyntaxError.ofFailure? ['a', 'é'] ⟨2, [.endOfInput]⟩ = none := by decide

end Grammar

end Scriptlet
