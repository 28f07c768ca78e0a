import Scriptlet.Text.Cursor

/-!
# Trivia

`Trivia s t` says that `t` is what the text `s` leaves after its leading blanks and comments: a
comment runs from two solidi up to a line feed or to the end, and at `t` neither a blank nor a
comment begins (`Settled t`). Main statement: `skipTrivia` stops exactly there
(`rest_skipTrivia_iff`), so the rest after trivia exists and is unique.

The scanner works character by character and remembers whether it is inside a comment. A run of it
that starts inside a comment is a run that starts where the comment ends
(`rest_skipTriviaFrom_comment`).
-/

namespace Scriptlet

/-- Neither a blank nor a comment begins at the text. -/
def Settled (t : List Char) : Prop :=
  (∀ c ∈ t.head?, isBlank c = false) ∧ ¬ ['/', '/'] <+: t

instance (t : List Char) : Decidable (Settled t) :=
  decidable_of_iff (t.head?.all (!isBlank ·) = true ∧ ¬ ['/', '/'].isPrefixOf t = true) (by
    rw [Settled, Option.all_eq_true, List.isPrefixOf_iff_prefix]
    simp)

/-- `t` is what `s` leaves after its leading blanks and comments. -/
inductive Trivia : List Char → List Char → Prop
  | done {t : List Char} : Settled t → Trivia t t
  | blank {c : Char} {s t : List Char} : isBlank c = true → Trivia s t → Trivia (c :: s) t
  | comment {text s t : List Char} : '\n' ∉ text → (∀ c ∈ s.head?, c = '\n') → Trivia s t →
    Trivia ('/' :: '/' :: (text ++ s)) t

namespace Trivia

variable {s t : List Char}

/-- Trivia takes up a leading part of a text. -/
theorem exists_append (h : Trivia s t) : ∃ u, s = u ++ t := by
  induction h with
  | done => exact ⟨[], rfl⟩
  | @blank c s t _ _ ih =>
    obtain ⟨u, rfl⟩ := ih
    exact ⟨c :: u, rfl⟩
  | @comment text s t _ _ _ ih =>
    obtain ⟨u, rfl⟩ := ih
    exact ⟨'/' :: '/' :: (text ++ u), by simp⟩

theorem length_le (h : Trivia s t) : t.length ≤ s.length := by
  obtain ⟨u, rfl⟩ := h.exists_append
  rw [List.length_append]
  omega

theorem settled (h : Trivia s t) : Settled t := by
  induction h with
  | done hsettled => exact hsettled
  | blank _ _ ih => exact ih
  | comment _ _ _ ih => exact ih

end Trivia

/-! ### The scanner -/

open Cursor in
/-- Inside a comment the scanner goes on to the end of the line, and then as it does outside. -/
theorem rest_skipTriviaFrom_comment {text s : List Char} (htext : '\n' ∉ text)
    (hs : ∀ c ∈ s.head?, c = '\n') (pos : Nat) :
    ∃ pos', (skipTriviaFrom true pos (text ++ s)).rest = (skipTriviaFrom false pos' s).rest := by
  induction text generalizing pos with
  | nil =>
    cases s with
    | nil => exact ⟨pos, rfl⟩
    | cons c cs =>
      obtain rfl : c = '\n' := hs c rfl
      exact ⟨pos, by simp [skipTriviaFrom]⟩
  | cons c cs ih =>
    rw [List.mem_cons, not_or] at htext
    obtain ⟨pos', hpos'⟩ := ih htext.2 (pos + c.utf8Size)
    refine ⟨pos', ?_⟩
    have hne : (c != '\n') = true := bne_iff_ne.2 (Ne.symm htext.1)
    rw [List.cons_append, skipTriviaFrom, if_pos rfl, hne, hpos']

open Cursor in
/-- What trivia leaves is where the scanner stops. -/
theorem Trivia.rest_skipTriviaFrom {s t : List Char} (h : Trivia s t) (pos : Nat) :
    (skipTriviaFrom false pos s).rest = t := by
  induction h generalizing pos with
  | @done t hsettled =>
    cases t with
    | nil => rfl
    | cons c cs =>
      have hblank : isBlank c = false := hsettled.1 c rfl
      have hcomment : ¬ (c = '/' ∧ cs.head? = some '/') := by
        rintro ⟨rfl, hhead⟩
        obtain ⟨ds, rfl⟩ := List.head?_eq_some_iff.1 hhead
        exact hsettled.2 ⟨ds, rfl⟩
      simp [skipTriviaFrom, hblank, hcomment]
  | @blank c s t hblank _ ih =>
    simp only [skipTriviaFrom, hblank, if_true, Bool.false_eq_true, if_false]
    exact ih _
  | @comment text s t htext hs _ ih =>
    have hmem : '\n' ∉ '/' :: text := by
      rw [List.mem_cons, not_or]
      exact ⟨by decide, htext⟩
    obtain ⟨pos', hpos'⟩ := rest_skipTriviaFrom_comment hmem hs (pos + Char.utf8Size '/')
    rw [skipTriviaFrom, if_neg Bool.false_ne_true, isBlank_solidus, if_neg Bool.false_ne_true,
      if_pos ⟨rfl, rfl⟩, ← List.cons_append, hpos']
    exact ih pos'

open Cursor in
/-- The scanner stops at what trivia leaves. When it starts inside a comment, that is said of the
text after the comment. -/
theorem trivia_skipTriviaFrom (inComment : Bool) (pos : Nat) (s : List Char) :
    ∃ text u, s = text ++ u ∧ '\n' ∉ text ∧ (inComment = false → text = []) ∧
      (inComment = true → ∀ c ∈ u.head?, c = '\n') ∧
      Trivia u (skipTriviaFrom inComment pos s).rest := by
  induction s generalizing inComment pos with
  | nil =>
    refine ⟨[], [], rfl, List.not_mem_nil, fun _ => rfl, fun _ c hc => (by cases hc), ?_⟩
    exact .done (by decide)
  | cons c cs ih =>
    cases inComment with
    | true =>
      rw [skipTriviaFrom, if_pos rfl]
      by_cases hc : c = '\n'
      · -- The line feed ends the comment and is itself the first blank after it.
        subst hc
        obtain ⟨text, u, rfl, -, hnil, -, htrivia⟩ := ih false (pos + Char.utf8Size '\n')
        obtain rfl := hnil rfl
        refine ⟨[], '\n' :: u, rfl, List.not_mem_nil, fun _ => rfl, fun _ d hd => ?_, ?_⟩
        · exact (Option.some.inj hd).symm
        · exact .blank isBlank_newline htrivia
      · have hne : (c != '\n') = true := bne_iff_ne.2 hc
        rw [hne]
        obtain ⟨text, u, rfl, htext, -, hu, htrivia⟩ := ih true (pos + c.utf8Size)
        refine ⟨c :: text, u, rfl, ?_, nofun, hu, htrivia⟩
        rw [List.mem_cons, not_or]
        exact ⟨Ne.symm hc, htext⟩
    | false =>
      refine ⟨[], c :: cs, rfl, List.not_mem_nil, fun _ => rfl, nofun, ?_⟩
      rw [skipTriviaFrom, if_neg Bool.false_ne_true]
      by_cases hblank : isBlank c = true
      · rw [if_pos hblank]
        obtain ⟨text, u, rfl, -, hnil, -, htrivia⟩ := ih false (pos + c.utf8Size)
        obtain rfl := hnil rfl
        exact .blank hblank htrivia
      rw [if_neg hblank]
      by_cases hslash : c = '/' ∧ cs.head? = some '/'
      · rw [if_pos hslash]
        obtain ⟨rfl, hhead⟩ := hslash
        obtain ⟨ds, rfl⟩ := List.head?_eq_some_iff.1 hhead
        obtain ⟨text, u, hsplit, htext, -, hu, htrivia⟩ := ih true (pos + Char.utf8Size '/')
        -- The second solidus is the first character that the scanner skips inside the comment.
        cases text with
        | nil =>
          obtain rfl : u = '/' :: ds := hsplit.symm
          exact absurd (hu rfl '/' rfl) (by decide)
        | cons d text =>
          obtain ⟨rfl, rfl⟩ := List.cons.inj hsplit
          rw [List.mem_cons, not_or] at htext
          exact .comment htext.2 (hu rfl) htrivia
      · rw [if_neg hslash]
        refine .done ⟨fun d hd => ?_, ?_⟩
        · obtain rfl : c = d := Option.some.inj hd
          exact Bool.eq_false_iff.2 hblank
        · rintro ⟨ds, hds⟩
          obtain ⟨rfl, rfl⟩ := List.cons.inj hds
          exact hslash ⟨rfl, rfl⟩

/-- The rest after `skipTrivia` is exactly what trivia leaves. -/
theorem rest_skipTrivia_iff {c : Cursor} {t : List Char} :
    c.skipTrivia.rest = t ↔ Trivia c.rest t := by
  constructor
  · rintro rfl
    obtain ⟨text, u, hsplit, -, hnil, -, htrivia⟩ := trivia_skipTriviaFrom false c.pos c.rest
    obtain rfl := hnil rfl
    rw [List.nil_append] at hsplit
    rw [← hsplit] at htrivia
    exact htrivia
  · intro h
    exact h.rest_skipTriviaFrom c.pos

/-- Every text leaves something after its trivia. -/
theorem trivia_skipTrivia (c : Cursor) : Trivia c.rest c.skipTrivia.rest :=
  rest_skipTrivia_iff.1 rfl

theorem Trivia.unique {s t u : List Char} (h : Trivia s t) (h' : Trivia s u) : t = u := by
  rw [← h.rest_skipTriviaFrom 0, h'.rest_skipTriviaFrom 0]

end Scriptlet
