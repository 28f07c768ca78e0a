import Scriptlet.Parsing.Parser

/-!
# Rules that refer to themselves

A rule that refers to itself is a function from a parser, which stands for the rule, to the parser
that the rule is. `unroll` opens such a rule a number of times. A rule that consumes input before it
comes to itself again is entered at most once more than there are characters left, so `recursive`
opens it that often: for such rules it is the fixed point, and opening it more often changes
nothing.
-/

namespace Scriptlet

universe u

namespace Parser

variable {α : Type u}

/-- The rule opened `n` times; below that it fails, for want of what the rule is named. -/
def unroll (name : String) (rule : Parser α → Parser α) : Nat → Parser α
  | 0 => refuse (.named name)
  | n + 1 => ⟨fun c => (rule (unroll name rule n)).run c⟩

/-- The parser that refers to itself through the argument of `rule`. -/
def recursive (name : String) (rule : Parser α → Parser α) : Parser α where
  run c := (unroll name rule (c.rest.length + 1)).run c

end Parser

end Scriptlet
