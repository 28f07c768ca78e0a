/-!
# Blank characters

The characters that separate lexemes are those with the Unicode property `White_Space`: 25 code
points in ten ranges. `isBlank` decides the property by a table of the ranges, in ascending order.
-/

namespace Scriptlet

/-- The ranges of the property `White_Space`, both ends included, in ascending order. -/
def blankRanges : List (Nat × Nat) :=
  [(0x09, 0x0D), (0x20, 0x20), (0x85, 0x85), (0xA0, 0xA0), (0x1680, 0x1680), (0x2000, 0x200A),
    (0x2028, 0x2029), (0x202F, 0x202F), (0x205F, 0x205F), (0x3000, 0x3000)]

/-- A character is blank when one of the ranges holds its code point. -/
def isBlank (c : Char) : Bool :=
  blankRanges.any fun (first, last) => first ≤ c.toNat && c.toNat ≤ last

/-- A line feed is blank, so a comment's end is skipped with the blanks that follow it. -/
@[simp]
theorem isBlank_newline : isBlank '\n' = true := by decide

/-- A solidus is not blank, so blanks and comments never overlap. -/
@[simp]
theorem isBlank_solidus : isBlank '/' = false := by decide

end Scriptlet
