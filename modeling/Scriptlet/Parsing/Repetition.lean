import Scriptlet.Parsing.Parser

/-!
# Repetition

`many p` runs `p` as long as it succeeds and consumes input. A parser that moves forward in the text
whenever it consumes takes at least one character in every round that goes on. One more round than
there are characters left is then enough, and the loop is bounded by that number, which cuts it off
only for a parser that goes on in another text. Lists with separators and chains of operators are
built from `many`.
-/

namespace Scriptlet

universe u

namespace Parser

variable {α β : Type u}

/-- Up to `n` rounds of `p`: the values, and the cursor where a round consumed nothing. -/
def rounds (p : Parser α) : Nat → Cursor → Except Failure (List α × Cursor)
  | 0, c => .ok ([], c)
  | n + 1, c =>
    match p.run c with
    | ⟨true, .ok (a, rest)⟩ => (rounds p n rest).map fun (as, stop) => (a :: as, stop)
    | ⟨true, .error e⟩ => .error e
    | ⟨false, _⟩ => .ok ([], c)

/-- Zero or more times `p`. A round that consumes nothing ends the loop and its value is dropped; a
failure that consumed input fails the whole. -/
def many (p : Parser α) : Parser (List α) where
  run c :=
    match rounds p (c.rest.length + 1) c with
    | .ok (as, stop) => .moved as c stop
    | .error e => ⟨true, .error e⟩

/-- One or more times `p`. -/
def many1 (p : Parser α) : Parser (List α) := do
  let first ← p
  let others ← p.many
  return first :: others

/-- One or more times `p`, with `separator` between. -/
def sepBy1 (p : Parser α) (separator : Parser β) : Parser (List α) := do
  let first ← p
  let others ← many (separator *> p)
  return first :: others

/-- Zero or more times `p`, with `separator` between. -/
def sepBy (p : Parser α) (separator : Parser β) : Parser (List α) :=
  (·.getD []) <$> (p.sepBy1 separator).optional

/-- One or more times `p`, with operators between, joined from the left: `a f b g c` is read as
`g (f a b) c`. -/
def chainLeft (p : Parser α) (operator : Parser (α → α → α)) : Parser α := do
  let first ← p
  let others ← many do
    let join ← operator
    let operand ← p
    return (join, operand)
  return others.foldl (fun left (join, right) => join left right) first

end Parser

end Scriptlet
