import Scriptlet.Proofs.Language.ValueText
import Scriptlet.Value.Order

/-!
# The text of a value determines it

Texts of values are flat: commas and colons stand at all depths, and nothing is escaped. Still no
two values share a text. `Determined text a` says that the text of `a` shows where it ends, in front
of whatever does not go on with a number: where it stands, no other text of a value stands. This
goes from the members of a list to the list up to its closing bracket (`determined_listed`) and from
keys and values to entries (`determined_entry`), so by induction it holds of all values
(`determined`). Main statement: `render_inj`.
-/

namespace Scriptlet

open Scriptlet.Language

/-! ### Lists of texts -/

section Determined

variable {α : Type} {text : α → List Char} {a : α} {as bs : List α} {s t : List Char}

/-- A number that ends here does not go on. -/
def EndsNumber (s : List Char) : Prop :=
  ∀ c ∈ s.head?, c.isDigit = false

theorem endsNumber_cons {c : Char} (h : c.isDigit = false) : EndsNumber (c :: s) := by
  intro x hx
  rw [← Option.some.inj hx]
  exact h

/-- Where the text of `a` stands, with something after it, no other text stands. -/
def Determined (text : α → List Char) (a : α) : Prop :=
  ∀ b s t, EndsNumber s → EndsNumber t → text a ++ s = text b ++ t → a = b

/-- The texts of a list, each with a comma before it. -/
def followed (text : α → List Char) (as : List α) : List Char :=
  as.flatMap fun a => ',' :: ' ' :: text a

/-- The texts of a list with commas between. -/
def listed (text : α → List Char) : List α → List Char
  | [] => []
  | a :: as => text a ++ followed text as

theorem endsNumber_followed {close : Char} (hclose : close.isDigit = false) :
    EndsNumber (followed text as ++ close :: s) := by
  cases as with
  | nil => exact endsNumber_cons hclose
  | cons a as => exact endsNumber_cons (by decide)

theorem determined_followed {close : Char} (hclose : close.isDigit = false) (hcomma : close ≠ ',')
    (has : ∀ a ∈ as, Determined text a)
    (h : followed text as ++ close :: s = followed text bs ++ close :: t) : as = bs := by
  induction as generalizing bs with
  | nil =>
    cases bs with
    | nil => rfl
    | cons b bs => exact absurd (List.cons.inj h).1 hcomma
  | cons a as ih =>
    obtain ⟨ha, has⟩ := List.forall_mem_cons.1 has
    cases bs with
    | nil => exact absurd (List.cons.inj h).1.symm hcomma
    | cons b bs =>
      -- Behind the comma and the blank stand the two texts, and a comma or the bracket ends them.
      have htexts : text a ++ (followed text as ++ close :: s) =
          text b ++ (followed text bs ++ close :: t) := by
        simpa [followed] using h
      obtain rfl := ha b _ _ (endsNumber_followed hclose) (endsNumber_followed hclose) htexts
      rw [ih has (List.append_cancel_left htexts)]

theorem determined_listed {close : Char} (hclose : close.isDigit = false) (hcomma : close ≠ ',')
    (hfirst : ∀ a, ∃ c cs, text a = c :: cs ∧ c ≠ close) (has : ∀ a ∈ as, Determined text a)
    (h : listed text as ++ close :: s = listed text bs ++ close :: t) : as = bs := by
  cases as with
  | nil =>
    cases bs with
    | nil => rfl
    | cons b bs =>
      obtain ⟨c, cs, htext, hc⟩ := hfirst b
      rw [listed, listed, htext] at h
      exact absurd (List.cons.inj h).1.symm hc
  | cons a as =>
    obtain ⟨ha, has⟩ := List.forall_mem_cons.1 has
    cases bs with
    | nil =>
      obtain ⟨c, cs, htext, hc⟩ := hfirst a
      rw [listed, listed, htext] at h
      exact absurd (List.cons.inj h).1 hc
    | cons b bs =>
      rw [listed, listed, List.append_assoc, List.append_assoc] at h
      obtain rfl := ha b _ _ (endsNumber_followed hclose) (endsNumber_followed hclose) h
      rw [determined_followed hclose hcomma has (List.append_cancel_left h)]

end Determined

namespace Value

variable {a b v : Value} {s t : List Char}

/-! ### Texts of values -/

/-- The characters of a value's text. -/
def text (v : Value) : List Char :=
  v.render.toList

/-- The characters of an entry's text. -/
def entryText (e : Value × Value) : List Char :=
  e.1.text ++ ':' :: ' ' :: e.2.text

theorem toList_renderMoreItems (items : List Value) :
    (renderMoreItems items).toList = followed text items := by
  induction items with
  | nil => rfl
  | cons v vs ih => simp [renderMoreItems, followed, text, ih]

theorem text_array (items : List Value) :
    (array items).text = '[' :: (listed text items ++ [']']) := by
  cases items with
  | nil => rfl
  | cons v vs => simp [text, render, renderItems, listed, toList_renderMoreItems]

theorem toList_renderMoreEntries (entries : List (Value × Value)) :
    (renderMoreEntries entries).toList = followed entryText entries := by
  induction entries with
  | nil => rfl
  | cons e es ih => simp [renderMoreEntries, followed, entryText, text, ih]

theorem text_dictionary (entries : List (Value × Value)) :
    (dictionary entries).text = '\x7b' :: (listed entryText entries ++ ['\x7d']) := by
  cases entries with
  | nil => rfl
  | cons e es => simp [text, render, renderEntries, listed, entryText, toList_renderMoreEntries]

/-! ### Which kind a text begins -/

/-- The kind of the values whose texts begin with a character. -/
def rankOfFirst? (c : Char) : Option Nat :=
  if c = '-' ∨ c.isDigit then some 0
  else if c = 't' ∨ c = 'f' then some 1
  else if c = '[' then some 2
  else if c = '\x7b' then some 3
  else if c = '(' then some 4
  else none

theorem exists_text (v : Value) : ∃ c cs, v.text = c :: cs ∧ rankOfFirst? c = some v.rank := by
  cases v with
  | int n =>
    rw [text, render_int, toList_toString_int]
    by_cases hneg : n.toInt < 0
    · rw [if_pos (by simpa using hneg)]
      exact ⟨'-', _, rfl, rfl⟩
    · rw [if_neg (by simpa using hneg), List.nil_append]
      obtain ⟨d, ds, hdigits⟩ :=
        List.exists_cons_of_ne_nil (Nat.toDigits_ne_nil (n := n.toInt.natAbs) (b := 10))
      have hd : d.isDigit = true :=
        Nat.isDigit_of_mem_toDigits (by decide) (by decide) (hdigits ▸ List.mem_cons_self ..)
      exact ⟨d, ds, hdigits, if_pos (.inr hd)⟩
  | bool x => cases x <;> exact ⟨_, _, rfl, rfl⟩
  | array items => exact ⟨_, _, text_array items, rfl⟩
  | dictionary entries => exact ⟨_, _, text_dictionary entries, rfl⟩
  | unit => exact ⟨_, _, rfl, rfl⟩

theorem rank_eq_of_text_append (h : a.text ++ s = b.text ++ t) : a.rank = b.rank := by
  obtain ⟨c, cs, ha, hrank⟩ := exists_text a
  obtain ⟨d, ds, hb, hrank'⟩ := exists_text b
  rw [ha, hb] at h
  obtain rfl : c = d := (List.cons.inj h).1
  exact Option.some.inj (hrank.symm.trans hrank')

theorem exists_text_of_close (close : Char) (hclose : rankOfFirst? close = none) (v : Value) :
    ∃ c cs, v.text = c :: cs ∧ c ≠ close := by
  obtain ⟨c, cs, htext, hrank⟩ := exists_text v
  refine ⟨c, cs, htext, ?_⟩
  rintro rfl
  rw [hclose] at hrank
  cases hrank

/-! ### All values -/

theorem determined_int (n : Integer) {m : Integer} (hs : EndsNumber s) (ht : EndsNumber t)
    (h : (int n).text ++ s = (int m).text ++ t) : n = m := by
  rw [text, text, render_int, render_int] at h
  -- Both texts are literals, and a parser reads at most one literal at a place.
  have hn := Lexeme.finds_integer (literal_toString n hs (trivia_skipTrivia ⟨0, s⟩))
  have hm := Lexeme.finds_integer (literal_toString m ht (trivia_skipTrivia ⟨0, t⟩))
  rw [h] at hn
  exact (hn.unique hm).1

theorem determined_entry {e : Value × Value} (hkey : Determined text e.1)
    (hvalue : Determined text e.2) : Determined entryText e := by
  rintro ⟨k, v⟩ s t hs ht h
  simp only [entryText, List.append_assoc] at h
  obtain rfl := hkey k _ _ (endsNumber_cons (by decide)) (endsNumber_cons (by decide)) h
  have hrest : e.2.text ++ s = v.text ++ t := by simpa using h
  obtain rfl := hvalue v s t hs ht hrest
  rfl

/-- Only texts of the same kind of values have to be looked at. -/
theorem determined_of_rank (h : ∀ b s t, b.rank = a.rank → EndsNumber s → EndsNumber t →
    a.text ++ s = b.text ++ t → a = b) : Determined text a :=
  fun b s t hs ht heq => h b s t (rank_eq_of_text_append heq).symm hs ht heq

theorem determined (a : Value) : Determined text a := by
  induction a using Value.induction with
  | int n =>
    refine determined_of_rank fun b s t hb hs ht h => ?_
    cases b <;> cases hb
    rw [determined_int n hs ht h]
  | bool x =>
    refine determined_of_rank fun b s t hb _ _ h => ?_
    cases b with
    | bool y =>
      cases x <;> cases y
      · rfl
      · exact absurd (List.cons.inj h).1 (by decide)
      · exact absurd (List.cons.inj h).1 (by decide)
      · rfl
    | _ => cases hb
  | array items ih =>
    refine determined_of_rank fun b s t hb _ _ h => ?_
    cases b <;> cases hb
    simp only [text_array, List.cons_append, List.append_assoc, List.cons.injEq, true_and] at h
    have hfirst := exists_text_of_close ']' rfl
    rw [determined_listed (by decide) (by decide) hfirst ih h]
  | dictionary entries ih =>
    refine determined_of_rank fun b s t hb _ _ h => ?_
    cases b <;> cases hb
    simp only [text_dictionary, List.cons_append, List.append_assoc, List.cons.injEq, true_and] at h
    have hfirst : ∀ e, ∃ c cs, entryText e = c :: cs ∧ c ≠ '\x7d' := by
      intro e
      obtain ⟨c, cs, htext, hc⟩ := exists_text_of_close '\x7d' rfl e.1
      exact ⟨c, _, by rw [entryText, htext]; rfl, hc⟩
    have hentries : ∀ e ∈ entries, Determined entryText e :=
      fun e he => determined_entry (ih e he).1 (ih e he).2
    rw [determined_listed (by decide) (by decide) hfirst hentries h]
  | unit =>
    refine determined_of_rank fun b s t hb _ _ _ => ?_
    cases b <;> cases hb
    rfl

/-- Two values, of any kinds and nested to any depth, have the same text only if they are the
same. -/
theorem render_inj (a b : Value) : a.render = b.render ↔ a = b := by
  constructor
  · intro h
    have hends : EndsNumber [] := by simp [EndsNumber]
    have htexts : a.text ++ [] = b.text ++ [] := by rw [text, h, text]
    exact determined a b [] [] hends hends htexts
  · intro h
    rw [h]

end Value

end Scriptlet
