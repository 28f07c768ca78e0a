import Scriptlet.Proofs.Language.Offsets

/-!
# What is skipped before a lexeme

Trivia comes in pieces, which are single blanks and comments (`Trivium`). A comment does not hold
the line feed that ends it, so whether it is whole depends on what follows: a line feed, or nothing.
A text is trivia in front of another when it is a concatenation of pieces that are whole there
(`IsTrivia`). What a text leaves after its leading trivia is then the part that has trivia in front
of it, and at which no further piece begins (`trivia_iff`).

Main statement: from every place in a text, skipping ends at the one place that has only trivia in
front of it and none behind it (`skipTrivia_exact`). Places are compared by the text between them,
and that text is cut out by positions; it is what was passed on the way
(`Over.textTo?_eq_some_iff`).
-/

namespace Scriptlet

/-! ### Pieces of trivia -/

/-- A blank character, or a comment without the line feed after it. -/
inductive Trivium where
  | blank (x : Char) (isBlank_x : isBlank x = true)
  | comment (line : List Char) (newline_not_mem : '\n' ∉ line)

namespace Trivium

def text : Trivium → List Char
  | blank x _ => [x]
  | comment line _ => '/' :: '/' :: line

/-- A comment is whole in front of a line feed or of nothing, and a blank in front of any text. -/
def WholeBefore : Trivium → List Char → Prop
  | blank _ _, _ => True
  | comment _ _, after => ∀ x ∈ after.head?, x = '\n'

/-- Each of the pieces is whole in front of those after it and of the text `t` behind them. -/
def AllWholeBefore : List Trivium → List Char → Prop
  | [], _ => True
  | piece :: pieces, t => piece.WholeBefore (pieces.flatMap text ++ t) ∧ AllWholeBefore pieces t

end Trivium

/-- In front of `t`, the text `u` is a concatenation of blanks and whole comments. -/
def IsTrivia (u t : List Char) : Prop :=
  ∃ pieces : List Trivium, u = pieces.flatMap Trivium.text ∧ Trivium.AllWholeBefore pieces t

section Pieces

variable {s t u : List Char}

theorem isTrivia_nil (t : List Char) : IsTrivia [] t :=
  ⟨[], rfl, trivial⟩

theorem IsTrivia.cons (h : IsTrivia u t) (piece : Trivium) (hpiece : piece.WholeBefore (u ++ t)) :
    IsTrivia (piece.text ++ u) t := by
  obtain ⟨pieces, rfl, hpieces⟩ := h
  exact ⟨piece :: pieces, rfl, hpiece, hpieces⟩

/-- With one more piece in front, a text leaves the same after its trivia. -/
theorem Trivia.cons (h : Trivia s t) {piece : Trivium} (hpiece : piece.WholeBefore s) :
    Trivia (piece.text ++ s) t := by
  cases piece with
  | blank x hx => exact .blank hx h
  | comment line hline => exact .comment hline hpiece h

theorem Trivia.exists_isTrivia (h : Trivia s t) : ∃ u, s = u ++ t ∧ IsTrivia u t := by
  induction h with
  | @done t _ => exact ⟨[], rfl, isTrivia_nil t⟩
  | @blank x s t hx _ ih =>
    obtain ⟨u, rfl, hu⟩ := ih
    exact ⟨x :: u, rfl, hu.cons (.blank x hx) trivial⟩
  | @comment line s t hline hs _ ih =>
    obtain ⟨u, rfl, hu⟩ := ih
    have hcomment := hu.cons (.comment line hline) hs
    exact ⟨_, (List.append_assoc ('/' :: '/' :: line) u t).symm, hcomment⟩

theorem IsTrivia.trivia (h : IsTrivia u t) (ht : Settled t) : Trivia (u ++ t) t := by
  obtain ⟨pieces, rfl, hpieces⟩ := h
  induction pieces with
  | nil => exact .done ht
  | cons piece pieces ih =>
    rw [List.flatMap_cons, List.append_assoc]
    exact (ih hpieces.2).cons hpieces.1

/-- What a text leaves after its trivia has trivia in front of it, and none at its beginning. -/
theorem trivia_iff : Trivia s t ↔ (∃ u, s = u ++ t ∧ IsTrivia u t) ∧ Settled t := by
  constructor
  · intro h
    exact ⟨h.exists_isTrivia, h.settled⟩
  · rintro ⟨⟨u, rfl, hu⟩, ht⟩
    exact hu.trivia ht

end Pieces

/-! ### Places and the text between them -/

namespace Cursor

variable {source passed : List Char} {c d : Cursor}

/-- Of two places in a text, the one with the greater position is reached from the other. -/
theorem Over.reaches_of_pos_le (hc : c.Over source) (hd : d.Over source) (hle : c.pos ≤ d.pos) :
    c.Reaches d := by
  obtain ⟨u, hu, hcpos⟩ := over_iff.1 hc
  obtain ⟨v, hv, hdpos⟩ := over_iff.1 hd
  rcases List.append_eq_append_iff.1 (hu.symm.trans hv) with
    ⟨between, rfl, hrest⟩ | ⟨between, rfl, hrest⟩
  · refine ⟨between, hrest, ?_⟩
    rw [hdpos, hcpos, byteSize_append, Nat.add_assoc]
  · -- The place `d` is not after `c` either, so nothing is between them.
    have hreaches : d.Reaches c := by
      refine ⟨between, hrest, ?_⟩
      rw [hdpos, hcpos, byteSize_append, Nat.add_assoc]
    rw [hreaches.eq_of_pos_le hle]
    exact Reaches.refl d

/-- The text from one place to another is what is passed on the way. -/
theorem Over.textTo?_eq_some_iff (hc : c.Over source) (hd : d.Over source) :
    c.textTo? d = some passed ↔ c.rest = passed ++ d.rest ∧ d.pos = c.pos + byteSize passed := by
  unfold textTo?
  constructor
  · intro h
    by_cases hle : c.pos ≤ d.pos
    · obtain ⟨between, hrest, hpos⟩ := hc.reaches_of_pos_le hd hle
      rw [if_pos hle, hrest, hpos, Nat.add_sub_cancel_left, takeBytes_byteSize_append] at h
      obtain rfl := Option.some.inj h
      exact ⟨hrest, hpos⟩
    · rw [if_neg hle] at h
      cases h
  · rintro ⟨hrest, hpos⟩
    rw [if_pos (by omega), hrest, hpos, Nat.add_sub_cancel_left, takeBytes_byteSize_append]

/-- Skipping ends where there is only trivia in front, back to the place it began, and none
behind. -/
theorem Over.eq_skipTrivia_iff (hc : c.Over source) :
    d = c.skipTrivia ↔
      d.Over source ∧ (∃ passed, c.textTo? d = some passed ∧ IsTrivia passed d.rest) ∧
        Settled d.rest := by
  constructor
  · rintro rfl
    have hd : c.skipTrivia.Over source := hc.reaches (reaches_skipTrivia c)
    obtain ⟨⟨u, hrest, hu⟩, hsettled⟩ := trivia_iff.1 (trivia_skipTrivia c)
    obtain ⟨passed, hpassed, hpos⟩ := reaches_skipTrivia c
    obtain rfl : u = passed := List.append_cancel_right (hrest.symm.trans hpassed)
    exact ⟨hd, ⟨u, (hc.textTo?_eq_some_iff hd).2 ⟨hrest, hpos⟩, hu⟩, hsettled⟩
  · rintro ⟨hd, ⟨passed, htext, hpassed⟩, hsettled⟩
    obtain ⟨hrest, hpos⟩ := (hc.textTo?_eq_some_iff hd).1 htext
    have hreaches : c.Reaches d := ⟨passed, hrest, hpos⟩
    exact (hreaches.skipTrivia_eq (trivia_iff.2 ⟨⟨passed, hrest, hpassed⟩, hsettled⟩)).symm

/-- Exactly the leading trivia is skipped. From every place in a text, the loop over runs of blanks
and comments ends within one round more than there are characters left, and never breaks off. It
ends at the place `d` in the text such that the text up to `d` is a concatenation of blanks and
whole comments, and that neither a blank nor a comment begins at `d`; there is no other such place.
Skipping again changes nothing. -/
theorem skipTrivia_exact (source : List Char) (c : Cursor) (hc : c.Over source) :
    (∀ n, c.rest.length < n → Offset.skipTrivia? source n c.pos = some c.skipTrivia.pos) ∧
    (∀ d : Cursor, d = c.skipTrivia ↔
      d.Over source ∧ (∃ passed, c.textTo? d = some passed ∧ IsTrivia passed d.rest) ∧
        Settled d.rest) ∧
    c.skipTrivia.skipTrivia = c.skipTrivia := by
  refine ⟨fun n hn => hc.skipTrivia?_eq hn, fun d => hc.eq_skipTrivia_iff, ?_⟩
  exact skipTrivia_eq_self (trivia_skipTrivia c).settled

/-- Two comments, the first with a character of two bytes and two more solidi in it and ended by a
line feed, the second ended by the end of the text: all of it is skipped. -/
theorem skipTrivia_exact_two_comments :
    Over "a // é//\n//x".toList ⟨1, " // é//\n//x".toList⟩ ∧
      skipTrivia ⟨1, " // é//\n//x".toList⟩ = ⟨13, []⟩ ∧
      Offset.skipTrivia? "a // é//\n//x".toList 12 1 = some 13 ∧
      skipTrivia ⟨13, []⟩ = ⟨13, []⟩ := by
  have hc : Over "a // é//\n//x".toList ⟨1, " // é//\n//x".toList⟩ := ⟨by decide, by decide⟩
  obtain ⟨hloop, hplace, hagain⟩ := skipTrivia_exact _ _ hc
  have hpieces : IsTrivia " // é//\n//x".toList [] :=
    ⟨[.blank ' ' (by decide), .comment " é//".toList (by decide), .blank '\n' (by decide),
      .comment ['x'] (by decide)], rfl, trivial, fun x hx => (Option.some.inj hx).symm, trivial,
      nofun, trivial⟩
  have hskip := (hplace ⟨13, []⟩).2 ⟨⟨by decide, by decide⟩, ⟨_, rfl, hpieces⟩, by decide⟩
  rw [← hskip] at hloop hagain
  exact ⟨hc, hskip.symm, hloop 12 (by decide), hagain⟩

end Cursor

end Scriptlet
