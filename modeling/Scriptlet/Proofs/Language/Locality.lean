import Scriptlet.Proofs.Language.Offsets
import Scriptlet.Proofs.Language.Parallel

/-!
# Only what is left decides the reading

A parser that goes back to an earlier place, or that tries an alternative there, must not notice
what has been read in between. What it replies at a place depends on the text from there on only:
with more text in front of the place all positions in the reply grow by the size of that text, and
nothing else changes (`Reply.shift`).

Places of a text and the same places behind more text make up an alignment in which as many
characters are left on both sides (`Alignment.shift`). The lexemes are aligned for it, also when
they are executed by offsets in the longer text, and the combinators keep this. Main statement:
`reading_local`.
-/

namespace Scriptlet

/-! ### Places behind more text -/

/-- The place with `k` more bytes in front of it. -/
def Cursor.shift (k : Nat) (c : Cursor) : Cursor :=
  ⟨c.pos + k, c.rest⟩

/-- The failure with `k` more bytes in front of its place. -/
def Failure.shift (k : Nat) (f : Failure) : Failure :=
  ⟨f.pos + k, f.expected⟩

/-- The reply with `k` more bytes in front of every place in it. -/
def Reply.shift {α : Type} (k : Nat) : Reply α → Reply α
  | ⟨consumed, .ok (a, c)⟩ => ⟨consumed, .ok (a, c.shift k)⟩
  | ⟨consumed, .error f⟩ => ⟨consumed, .error (f.shift k)⟩

namespace Cursor

variable {c d : Cursor} {k : Nat}

theorem Reaches.shift (h : c.Reaches d) (k : Nat) : (c.shift k).Reaches (d.shift k) := by
  obtain ⟨passed, hrest, hpos⟩ := h
  refine ⟨passed, hrest, ?_⟩
  show d.pos + k = c.pos + k + byteSize passed
  omega

theorem shift_dropWhile (c : Cursor) (q : Char → Bool) (k : Nat) :
    (c.shift k).dropWhile q = (c.dropWhile q).shift k :=
  (reaches_dropWhile (c.shift k) q).eq_of_rest_eq ((reaches_dropWhile c q).shift k) rfl

/-- The trivia at a place is known by what is left there. -/
theorem shift_skipTrivia (c : Cursor) (k : Nat) : (c.shift k).skipTrivia = c.skipTrivia.shift k :=
  ((reaches_skipTrivia c).shift k).skipTrivia_eq (trivia_skipTrivia c)

theorem shift_skip? (c : Cursor) (text : List Char) (k : Nat) :
    (c.shift k).skip? text = (c.skip? text).map (shift k) := by
  unfold skip?
  rw [Option.map_map]
  show (text.isPrefixOf? c.rest).map _ = _
  congr 1
  funext rest
  exact Cursor.ext (Nat.add_right_comm _ _ _) rfl

end Cursor

/-! ### Lexemes behind more text -/

namespace Lexeme

open Cursor

variable {α : Type} {c : Cursor} {k : Nat}

theorem run_lexeme_shift (expected : Expectation) {scan : Cursor → Option (α × Cursor)}
    (hscan : scan (c.shift k) = (scan c).map fun r => (r.1, r.2.shift k)) :
    (lexeme expected scan).run (c.shift k) = ((lexeme expected scan).run c).shift k := by
  unfold lexeme
  dsimp only
  rw [hscan]
  cases scan c with
  | none => rfl
  | some found =>
    simp only [Option.map_some, shift_skipTrivia]
    rfl

theorem run_exactly_shift (text : String) {ends : Cursor → Bool}
    (hends : ∀ d, ends (d.shift k) = ends d) :
    (exactly text ends).run (c.shift k) = ((exactly text ends).run c).shift k := by
  apply run_lexeme_shift
  rw [shift_skip?]
  cases c.skip? text.toList with
  | none => rfl
  | some d => cases hd : ends d <;> simp [Option.filter, hends, hd]

theorem run_integer_shift (c : Cursor) (k : Nat) :
    integer.run (c.shift k) = (integer.run c).shift k := by
  have hsign : afterSign (c.shift k) = (afterSign c).shift k := by
    apply (reaches_afterSign (c.shift k)).eq_of_rest_eq ((reaches_afterSign c).shift k)
    have hsplit := rest_eq_afterSign (c.shift k)
    exact List.append_cancel_left (hsplit.symm.trans (rest_eq_afterSign c))
  have hdigits :
      ((afterSign c).shift k).takeWhile Char.isDigit = (afterSign c).takeWhile Char.isDigit := rfl
  have hcurrent : (c.shift k).current? = c.current? := rfl
  rw [run_integer, run_integer, hsign, shift_dropWhile, shift_skipTrivia, hdigits, hcurrent]
  split
  · rfl
  · generalize Integer.ofInt? _ = value
    cases value <;> rfl

theorem scanIdentifier_shift (c : Cursor) (k : Nat) :
    scanIdentifier (c.shift k) = (scanIdentifier c).map fun r => (r.1, r.2.shift k) := by
  have hword : (c.shift k).takeWhile isWordChar = c.takeWhile isWordChar := rfl
  have hcurrent : (c.shift k).current? = c.current? := rfl
  unfold scanIdentifier
  rw [hword, hcurrent, shift_dropWhile]
  dsimp only
  split <;> rfl

/-- With more text in front, a lexeme replies the same further on. -/
theorem Atom.run_shift (a : Atom α) (k : Nat) (c : Cursor) :
    a.parser.run (c.shift k) = (a.parser.run c).shift k := by
  cases a with
  | endOfInput =>
    show (if c.atEnd then _ else _) = (if c.atEnd then _ else _ : Reply Unit).shift k
    split <;> rfl
  | spacing =>
    show Reply.moved () (c.shift k) (c.shift k).skipTrivia = (Reply.moved () c c.skipTrivia).shift k
    have hflag : c.pos + k < c.skipTrivia.pos + k ↔ c.pos < c.skipTrivia.pos :=
      Nat.add_lt_add_iff_right
    rw [shift_skipTrivia]
    simp only [Reply.moved, Reply.shift, Cursor.shift, hflag]
  | symbol text => exact run_exactly_shift text fun _ => rfl
  | keyword word => exact run_exactly_shift word fun _ => rfl
  | identifier => exact run_lexeme_shift _ (scanIdentifier_shift c k)
  | integer => exact run_integer_shift c k

/-- The parsers that have no other parser inside, also those of an empty text. -/
def Atomic : Parser.Stock :=
  fun α p => ∃ a : Atom α, a.parser = p

end Lexeme

/-! ### The alignment of a text with itself behind more text -/

namespace Alignment

open Lexeme Scriptlet.Parser

variable {α : Type} {k : Nat} {p : Parser α}

/-- The places of a text, each with the place that has `k` more bytes in front of it. -/
def shift (k : Nat) : Alignment where
  rel c d := d = c.shift k
  lt_iff := by
    rintro c c' d d' rfl rfl
    exact Nat.add_lt_add_iff_right.symm

theorem level_shift (k : Nat) : (shift k).Level := by
  rintro c d rfl
  rfl

theorem alike_shift_iff {r s : Reply α} : (shift k).Alike r s ↔ s = r.shift k := by
  constructor
  · intro h
    cases h with
    | ok consumed a h =>
      rw [h]
      rfl
    | error consumed expected h =>
      rw [h]
      rfl
  · rintro rfl
    match r with
    | ⟨consumed, .ok (a, c)⟩ => exact .ok consumed a rfl
    | ⟨consumed, .error ⟨pos, expected⟩⟩ =>
      -- A failure tells its position only, and any two places with these positions show that they
      -- match.
      have hplace : (shift k).rel ⟨pos, []⟩ ⟨pos + k, []⟩ := rfl
      exact .error consumed expected hplace

theorem aligned_shift_iff : Aligned (shift k) p ↔ ∀ c, p.run (c.shift k) = (p.run c).shift k := by
  constructor
  · intro h c
    exact alike_shift_iff.1 (h c (c.shift k) rfl)
  · rintro h c d rfl
    exact alike_shift_iff.2 (h c)

theorem aligned_atom (a : Atom α) (k : Nat) : Aligned (shift k) a.parser :=
  aligned_shift_iff.2 (a.run_shift k)

theorem lexical_shift (k : Nat) : (shift k).Lexical where
  symbol text htext := ⟨honest_symbol htext, aligned_atom (.symbol text) k⟩
  keyword word hword := ⟨honest_keyword hword, aligned_atom (.keyword word) k⟩
  identifier := ⟨honest_identifier, aligned_atom .identifier k⟩
  integer := ⟨honest_integer, aligned_atom .integer k⟩
  endOfInput := ⟨honest_endOfInput, aligned_atom .endOfInput k⟩

end Alignment

namespace Grammar

open Lexeme Offset Scriptlet.Alignment Scriptlet.Parser

theorem place_append (u s : List Char) :
    place (u ++ s) (byteSize u) = (Cursor.start s).shift (byteSize u) := by
  apply Cursor.ext
  · exact (Nat.zero_add _).symm
  · exact dropBytes_byteSize_append u s

/-- Executed by offsets in the longer text, a lexeme replies the same further on. -/
theorem execute?_append {α : Type} (a : Atom α) (u s : List Char) :
    a.execute? (u ++ s) (byteSize u) = (a.execute? s 0).map (Reply.shift (byteSize u)) := by
  have hstart : (Cursor.start s).Over s := Cursor.over_iff.2 (Cursor.Reaches.refl _)
  have hplace : (place (u ++ s) (byteSize u)).Over (u ++ s) :=
    ⟨(isBoundary_iff _ _).2 ⟨u, s, rfl, rfl⟩, rfl⟩
  have hlonger :
      a.execute? (u ++ s) (byteSize u) = some (a.parser.run (place (u ++ s) (byteSize u))) :=
    a.execute?_eq hplace
  have halone : a.execute? s 0 = some (a.parser.run (.start s)) := a.execute?_eq hstart
  rw [hlonger, halone, place_append, a.run_shift]
  rfl

theorem parallel_program {A : Alignment} (hA : A.Lexical) (hspacing : Parallel A spacing) :
    Parallel A program :=
  (hspacing.seqRight (parallel_definitions hA)).seqLeft hA.endOfInput

/-- Reading depends on what is left only. For every text `s` and every text `u` in front of it, the
reply at the place behind `u` is the reply at the start of `s` alone, with the size of `u` added to
the place where it stops or fails: the flag, the value and the expectations are the same. This holds
of the lexemes, also when they are executed by offsets in the longer text, of every parser that the
combinators make of them, rules that refer to themselves included, and so of expressions and of
programs. -/
theorem reading_local (u s : List Char) :
    (∀ (α : Type) (a : Atom α),
      a.execute? (u ++ s) (byteSize u) = (a.execute? s 0).map (Reply.shift (byteSize u))) ∧
    (∀ (α : Type) (p : Parser α), Built Atomic p →
      p.run (place (u ++ s) (byteSize u)) = (p.run (.start s)).shift (byteSize u)) ∧
    expression.run (place (u ++ s) (byteSize u)) = (expression.run (.start s)).shift (byteSize u) ∧
    program.run (place (u ++ s) (byteSize u)) = (program.run (.start s)).shift (byteSize u) := by
  have hlexical := lexical_shift (byteSize u)
  have hbuilt (α : Type) (p : Parser α) (hp : Built Atomic p) : Aligned (shift (byteSize u)) p := by
    refine hp.of_kept (kept_aligned (level_shift _)) fun β r hr => ?_
    obtain ⟨a, rfl⟩ := hr
    exact aligned_atom a _
  have hspacing : Parallel (shift (byteSize u)) spacing := ⟨honest_spacing, aligned_atom .spacing _⟩
  rw [place_append]
  refine ⟨fun α a => execute?_append a u s, fun α p hp => ?_, ?_, ?_⟩
  · exact aligned_shift_iff.1 (hbuilt α p hp) _
  · exact aligned_shift_iff.1 (parallel_expression hlexical).alike _
  · exact aligned_shift_iff.1 (parallel_program hlexical hspacing).alike _

/-- Groups in parentheses inside each other, alone and behind three bytes: the inner group is not
closed, and the failure lies at the end of the text. An expression is read alike, up to a comma. -/
theorem reading_local_open_group :
    ∃ group : Parser Nat, Built Atomic group ∧
      group.run (.start "(x (".toList) = ⟨true, .error ⟨4, [.token ")"]⟩⟩ ∧
      group.run (place ("é(".toList ++ "(x (".toList) 3) = ⟨true, .error ⟨7, [.token ")"]⟩⟩ ∧
      expression.run (.start "x * y, z".toList) =
        ⟨true, .ok (.binary .multiply (.variable "x") (.variable "y"), ⟨5, ", z".toList⟩)⟩ ∧
      expression.run (place ("é(".toList ++ "x * y, z".toList) 3) =
        ⟨true, .ok (.binary .multiply (.variable "x") (.variable "y"), ⟨8, ", z".toList⟩)⟩ := by
  let rule (group : Parser Nat) : Parser Nat :=
    (List.length <$> group.many).between (symbol "(") (symbol ")") <|> (fun _ => 0) <$> identifier
  let group : Parser Nat := recursive "group" rule
  have hbuilt : Built Atomic group := by
    refine .recursive "group" fun handle => ?_
    have hatom {α : Type} (a : Atom α) : Built (WithHandle Atomic handle) a.parser :=
      .given (.given ⟨a, rfl⟩)
    exact .orElse
      (.between (.map _ (.many (.given .handle))) (hatom (.symbol "(")) (hatom (.symbol ")")))
      (.map _ (hatom .identifier))
  have hgroup : group.run (.start "(x (".toList) = ⟨true, .error ⟨4, [.token ")"]⟩⟩ := rfl
  have hexpression : expression.run (.start "x * y, z".toList) =
      ⟨true, .ok (.binary .multiply (.variable "x") (.variable "y"), ⟨5, ", z".toList⟩)⟩ := rfl
  refine ⟨group, hbuilt, hgroup, ?_, hexpression, ?_⟩
  · have hlocal := (reading_local "é(".toList "(x (".toList).2.1 Nat group hbuilt
    rw [hgroup] at hlocal
    exact hlocal
  · have hlocal := (reading_local "é(".toList "x * y, z".toList).2.2.1
    rw [hexpression] at hlocal
    exact hlocal

end Grammar

end Scriptlet
