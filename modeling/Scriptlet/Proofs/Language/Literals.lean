import Mathlib.Data.List.Induction
import Mathlib.Data.Nat.Digits.Defs
import Scriptlet.Proofs.Language.Offsets
import Scriptlet.Proofs.Language.Rendering

/-!
# Integer literals are read exactly

A literal is an optional minus sign and one or more decimal digits, and its value is what it says in
positional notation (`decimalValue`), however many digits there are. At a place the longest literal
is the one that no digit follows (`longestLiteral_iff`): a minus sign can only be its first
character, so a longer literal would have to go on with a digit.

Main statement: the reader takes the longest literal and gives its exact value, if that is in range.
If it is not the literal is rejected for good where it begins, and without any literal the reader
refuses there (`integer_reads_exactly`).
-/

namespace Scriptlet

namespace Lexeme

open Scriptlet.Language Cursor

variable {c : Cursor} {s t u digits : List Char} {negative : Bool}

/-! ### Values -/

def digitValue (d : Char) : Nat :=
  d.toNat - '0'.toNat

/-- The number that digits stand for, of which the last counts ones, the one before it tens, and so
on. -/
def magnitude (digits : List Char) : Nat :=
  Nat.ofDigits 10 (digits.reverse.map digitValue)

/-- The number that a literal stands for. -/
def decimalValue : List Char → Int
  | '-' :: digits => -(magnitude digits : Int)
  | digits => magnitude digits

/-- Reading digits from the left gives the number that they stand for. -/
theorem ofDigitChars_eq_magnitude (digits : List Char) :
    Nat.ofDigitChars 10 digits 0 = magnitude digits := by
  induction digits using List.reverseRecOn with
  | nil => rfl
  | append_singleton digits d ih =>
    have hlast : magnitude (digits ++ [d]) = digitValue d + 10 * magnitude digits := by
      simp [magnitude, Nat.ofDigits_cons]
    rw [Nat.ofDigitChars_append, ih, hlast, Nat.add_comm]
    rfl

theorem decimalValue_eq_valueOf (t : List Char) : decimalValue t = valueOf t := by
  unfold decimalValue valueOf
  split <;> simp [literalValue, ofDigitChars_eq_magnitude]

/-! ### The longest literal -/

/-- An optional minus sign and one or more digits. -/
def IsLiteral (t : List Char) : Prop :=
  ∃ (negative : Bool) (digits : List Char),
    t = (if negative then ['-'] else []) ++ digits ∧ digits ≠ [] ∧ ∀ d ∈ digits, d.isDigit = true

/-- The text begins with a literal, and with none that is longer. -/
structure LongestLiteral (s t : List Char) : Prop where
  leads : t <+: s
  isLiteral : IsLiteral t
  longest : ∀ t', t' <+: s → IsLiteral t' → t'.length ≤ t.length

theorem IsLiteral.ne_nil (h : IsLiteral t) : t ≠ [] := by
  obtain ⟨negative, digits, rfl, hne, -⟩ := h
  simp [hne]

theorem IsLiteral.concat {d : Char} (h : IsLiteral t) (hd : d.isDigit = true) :
    IsLiteral (t ++ [d]) := by
  obtain ⟨negative, digits, rfl, -, hall⟩ := h
  refine ⟨negative, digits ++ [d], List.append_assoc .., by simp, fun x hx => ?_⟩
  rcases List.mem_append.1 hx with hx | hx
  · exact hall x hx
  · rw [List.mem_singleton.1 hx]
    exact hd

/-- After the first character of a literal there are only digits. -/
theorem IsLiteral.isDigit_of_mem_tail {d : Char} (h : IsLiteral t) (hd : d ∈ t.tail) :
    d.isDigit = true := by
  obtain ⟨negative, digits, rfl, -, hall⟩ := h
  cases negative with
  | true => exact hall d hd
  | false => exact hall d (List.mem_of_mem_tail hd)

/-- The longest literal is the one that no digit follows. -/
theorem longestLiteral_iff :
    LongestLiteral s t ↔ ∃ u, s = t ++ u ∧ IsLiteral t ∧ ∀ x ∈ u.head?, x.isDigit = false := by
  constructor
  · rintro ⟨⟨u, rfl⟩, hliteral, hlongest⟩
    refine ⟨u, rfl, hliteral, fun x hx => ?_⟩
    obtain ⟨v, rfl⟩ := List.head?_eq_some_iff.1 hx
    rw [← Bool.not_eq_true]
    intro hdigit
    -- With one digit more there would be a longer literal.
    have hlonger := hlongest (t ++ [x]) ⟨v, by simp⟩ (hliteral.concat hdigit)
    rw [List.length_append, List.length_singleton] at hlonger
    omega
  · rintro ⟨u, rfl, hliteral, hhead⟩
    refine ⟨List.prefix_append t u, hliteral, fun t' hleads hliteral' => ?_⟩
    by_contra hlonger
    obtain ⟨w, rfl⟩ := List.prefix_of_prefix_length_le (List.prefix_append t u) hleads (by omega)
    obtain ⟨z, hz⟩ := hleads
    obtain rfl : w ++ z = u := by simpa using hz
    -- What the longer literal has after `t` are digits, and the first of them is the first
    -- character of `u`.
    cases w with
    | nil => simp at hlonger
    | cons x w =>
      have hmem : x ∈ (t ++ x :: w).tail := by
        rw [List.tail_append_of_ne_nil hliteral.ne_nil]
        simp
      have hdigit := hliteral'.isDigit_of_mem_tail hmem
      rw [hhead x rfl] at hdigit
      cases hdigit

/-! ### Reading -/

/-- At a literal that no digit follows, the reader finds its value and the place after it. -/
theorem run_integer_of_literal (hrest : c.rest = t ++ u) (hliteral : IsLiteral t)
    (hhead : ∀ x ∈ u.head?, x.isDigit = false) :
    (∀ n, Integer.ofInt? (decimalValue t) = some n →
      integer.run c = ⟨true, .ok (n, skipTrivia ⟨c.pos + byteSize t, u⟩)⟩) ∧
    (Integer.ofInt? (decimalValue t) = none →
      integer.run c =
        ⟨true, .error ⟨c.pos, [.named "integer literal within the 64-bit range"]⟩⟩) := by
  obtain ⟨negative, digits, rfl, hne, hall⟩ := hliteral
  have hwritten : c.rest = (if negative then ['-'] else []) ++ (digits ++ u) := by
    rw [hrest, List.append_assoc]
  obtain ⟨hsign, hdigits, hafter⟩ := afterSign_of_rest_eq hwritten hne hall hhead
  have hstop : (afterSign c).dropWhile Char.isDigit =
      ⟨c.pos + byteSize ((if negative then ['-'] else []) ++ digits), u⟩ := by
    have hreaches := (reaches_afterSign c).trans (reaches_dropWhile (afterSign c) Char.isDigit)
    exact hreaches.eq_of_rest_eq ⟨_, hrest, rfl⟩ hafter
  have hempty : ¬ digits.isEmpty = true := by simpa using hne
  rw [run_integer, hdigits, if_neg hempty, hsign, hstop, decimalValue_eq_valueOf,
    valueOf_eq negative hall]
  constructor
  · intro n hvalue
    rw [hvalue]
  · intro hvalue
    rw [hvalue]
    rfl

/-- Where the reader finds digits there is a longest literal. -/
theorem exists_longestLiteral (h : (afterSign c).takeWhile Char.isDigit ≠ []) :
    ∃ t, LongestLiteral c.rest t := by
  let sign : List Char := if c.current? == some '-' then ['-'] else []
  refine ⟨sign ++ (afterSign c).takeWhile Char.isDigit, longestLiteral_iff.2
    ⟨((afterSign c).dropWhile Char.isDigit).rest, ?_, ⟨_, _, rfl, h, ?_⟩, head_dropWhile _ _⟩⟩
  · rw [List.append_assoc, Cursor.takeWhile, Cursor.dropWhile, List.takeWhile_append_dropWhile]
    exact rest_eq_afterSign c
  · exact List.all_eq_true.1 List.all_takeWhile

/-- The text of an integer is a literal, and it stands for that integer. -/
theorem literal_of_toString (n : Int) :
    IsLiteral (toString n).toList ∧ decimalValue (toString n).toList = n := by
  have hdigits : ∀ d ∈ Nat.toDigits 10 n.natAbs, d.isDigit = true :=
    fun d hd => Nat.isDigit_of_mem_toDigits (by decide) (by decide) hd
  rw [toList_toString_int, decimalValue_eq_valueOf, valueOf_eq _ hdigits]
  exact ⟨⟨_, _, rfl, Nat.toDigits_ne_nil, hdigits⟩, literalValue_toDigits n⟩

/-- Integer literals are read exactly. Where a text goes on with a literal, the reader takes the
longest one. If its value is in range, the reply is that value and the place after the literal and
the trivia that follow it, with any number of leading zeros. If the value is out of range, the
literal is rejected for good, at the place where it begins. Where there is no literal the reader
refuses at that place. In particular the text of every integer, in front of anything but a digit, is
read as that integer. -/
theorem integer_reads_exactly (c : Cursor) :
    (∀ t, LongestLiteral c.rest t →
      -9223372036854775808 ≤ decimalValue t → decimalValue t ≤ 9223372036854775807 →
      ∃ n : Integer, n.toInt = decimalValue t ∧
        integer.run c = ⟨true, .ok (n, skipTrivia ⟨c.pos + byteSize t, c.rest.drop t.length⟩)⟩) ∧
    (∀ t, LongestLiteral c.rest t →
      decimalValue t < -9223372036854775808 ∨ 9223372036854775807 < decimalValue t →
      integer.run c = ⟨true, .error ⟨c.pos, [.named "integer literal within the 64-bit range"]⟩⟩) ∧
    ((∀ t, ¬ LongestLiteral c.rest t) →
      integer.run c = ⟨false, .error ⟨c.pos, [.named "integer literal"]⟩⟩) ∧
    ∀ (n : Integer) (u : List Char), c.rest = (toString n.toInt).toList ++ u →
      (∀ x ∈ u.head?, x.isDigit = false) →
      integer.run c =
        ⟨true, .ok (n, skipTrivia ⟨c.pos + byteSize (toString n.toInt).toList, u⟩)⟩ := by
  refine ⟨fun t ht hlow hhigh => ?_, fun t ht hrange => ?_, fun hnone => ?_,
    fun n u hrest hhead => ?_⟩
  · obtain ⟨u, hrest, hliteral, hhead⟩ := longestLiteral_iff.1 ht
    have hvalue : Integer.ofInt? (decimalValue t) = some (Int64.ofInt (decimalValue t)) :=
      if_pos ⟨hlow, by omega⟩
    refine ⟨_, Integer.ofInt?_eq_some_iff.1 hvalue, ?_⟩
    rw [(run_integer_of_literal hrest hliteral hhead).1 _ hvalue, hrest, List.drop_left]
  · obtain ⟨u, hrest, hliteral, hhead⟩ := longestLiteral_iff.1 ht
    have hvalue : Integer.ofInt? (decimalValue t) = none := if_neg (by omega)
    exact (run_integer_of_literal hrest hliteral hhead).2 hvalue
  · have hdigits : (afterSign c).takeWhile Char.isDigit = [] := by
      by_contra hne
      obtain ⟨t, ht⟩ := exists_longestLiteral hne
      exact hnone t ht
    rw [run_integer, hdigits]
    rfl
  · obtain ⟨hliteral, hvalue⟩ := literal_of_toString n.toInt
    apply (run_integer_of_literal hrest hliteral hhead).1
    rw [hvalue, Integer.ofInt?_toInt]

/-- The least integer, written with zeros in front of its digits, is read; the number below it is
rejected. -/
theorem integer_reads_exactly_least :
    (∃ n : Integer, n.toInt = -9223372036854775808 ∧
      integer.run ⟨1, "-0000009223372036854775808 ;".toList⟩ = ⟨true, .ok (n, ⟨28, [';']⟩)⟩) ∧
    integer.run ⟨1, "-9223372036854775809".toList⟩ =
      ⟨true, .error ⟨1, [.named "integer literal within the 64-bit range"]⟩⟩ := by
  constructor
  · let t := "-0000009223372036854775808".toList
    have hliteral : IsLiteral t := ⟨true, t.tail, rfl, by decide, List.all_eq_true.1 rfl⟩
    have hlongest : LongestLiteral "-0000009223372036854775808 ;".toList t :=
      longestLiteral_iff.2 ⟨[' ', ';'], rfl, hliteral, by simp⟩
    have hvalue : decimalValue t = -9223372036854775808 := (decimalValue_eq_valueOf t).trans rfl
    obtain ⟨n, hn, hrun⟩ :=
      (integer_reads_exactly ⟨1, "-0000009223372036854775808 ;".toList⟩).1 t hlongest
      (by rw [hvalue]) (by rw [hvalue]; decide)
    exact ⟨n, hn.trans hvalue, hrun⟩
  · let t := "-9223372036854775809".toList
    have hliteral : IsLiteral t := ⟨true, t.tail, rfl, by decide, List.all_eq_true.1 rfl⟩
    have hlongest : LongestLiteral t t := longestLiteral_iff.2 ⟨[], rfl, hliteral, by simp⟩
    have hvalue : decimalValue t = -9223372036854775809 := (decimalValue_eq_valueOf t).trans rfl
    exact (integer_reads_exactly ⟨1, t⟩).2.1 t hlongest (.inl (by rw [hvalue]; decide))

end Lexeme

end Scriptlet
