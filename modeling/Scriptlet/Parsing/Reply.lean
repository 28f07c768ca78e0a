import Scriptlet.Parsing.Failure
import Scriptlet.Text.Cursor

/-!
# Replies

What a parser answers at a cursor: either a value with the cursor after it or a failure, and in both
cases whether input was consumed. A parser that fails without consuming leaves its alternatives
open; one that fails after consuming settles the matter.
-/

namespace Scriptlet

universe u v

/-- The answer of a parser at a cursor. -/
structure Reply (α : Type u) where
  /-- Whether the parser has consumed input, so that no alternative to it is tried. -/
  consumed : Bool
  /-- A value and the cursor after it, or a failure. -/
  result : Except Failure (α × Cursor)

namespace Reply

variable {α : Type u} {β : Type v}

/-- A success, which counts as consuming exactly when the cursor moved. -/
def moved (a : α) (start stop : Cursor) : Reply α :=
  ⟨decide (start.pos < stop.pos), .ok (a, stop)⟩

/-- A failure that consumed nothing. -/
def refusal (pos : Nat) (e : Expectation) : Reply α :=
  ⟨false, .error (.single pos e)⟩

/-- Applies a function to the value of a success. -/
def map (f : α → β) (r : Reply α) : Reply β :=
  ⟨r.consumed, r.result.map fun (a, c) => (f a, c)⟩

/-- The same answer, counted as having consumed input if it did already or `before` says so. -/
def after (before : Bool) (r : Reply α) : Reply α :=
  ⟨before || r.consumed, r.result⟩

@[simp]
theorem map_id (r : Reply α) : r.map id = r := by
  obtain ⟨consumed, result⟩ := r
  cases result <;> rfl

@[simp]
theorem after_false (r : Reply α) : r.after false = r := rfl

@[simp]
theorem after_after (a b : Bool) (r : Reply α) : (r.after a).after b = r.after (b || a) := by
  simp [after, Bool.or_assoc]

@[simp]
theorem map_after (f : α → β) (b : Bool) (r : Reply α) : (r.after b).map f = (r.map f).after b :=
  rfl

/-- Whether the parser succeeded. -/
def isOk (r : Reply α) : Bool :=
  r.result.isOk

/-- Whether an alternative may be tried: the parser failed and consumed nothing. -/
def isRefusal (r : Reply α) : Bool :=
  !r.consumed && !r.isOk

end Reply

end Scriptlet
