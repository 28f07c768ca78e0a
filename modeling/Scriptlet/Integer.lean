/-!
# Integers of the language

The language's integers are the signed 64-bit ones, and no operation wraps: results are computed
exactly, and `ofInt?` gives the integer with an exact value where there is one.
-/

namespace Scriptlet

/-- The integers from `-2 ^ 63` to `2 ^ 63 - 1`. -/
abbrev Integer := Int64

namespace Integer

/-- The integer with an exact value; `none` when the value is outside the range. -/
def ofInt? (n : Int) : Option Integer :=
  if -9223372036854775808 ≤ n ∧ n < 9223372036854775808 then some (Int64.ofInt n) else none

/-- `ofInt?` never changes a value. -/
theorem ofInt?_eq_some_iff {n : Int} {i : Integer} : ofInt? n = some i ↔ i.toInt = n := by
  constructor
  · intro h
    simp only [ofInt?, Option.ite_none_right_eq_some, Option.some.injEq] at h
    obtain ⟨⟨low, high⟩, rfl⟩ := h
    exact Int64.toInt_ofInt_of_le low high
  · rintro rfl
    rw [ofInt?, if_pos ⟨i.le_toInt, i.toInt_lt⟩, Int64.ofInt_toInt]

/-- Every integer is the one with its own value. -/
@[simp]
theorem ofInt?_toInt (i : Integer) : ofInt? i.toInt = some i :=
  ofInt?_eq_some_iff.2 rfl

end Integer

end Scriptlet
