import Scriptlet.Evaluation.Error

/-!
# Call stacks

The functions whose calls are active, innermost first, with an optional limit on their number.
-/

namespace Scriptlet

/-- The active calls and how many there may be. -/
structure CallStack where
  /-- The names of the functions, innermost first. -/
  active : List String
  /-- The largest number of active calls; `none` where there is no limit. -/
  limit : Option Nat

namespace CallStack

/-- The limit where no other is asked for. -/
def defaultLimit : Nat := 10000

/-- No active calls. -/
def empty (limit : Option Nat) : CallStack :=
  ⟨[], limit⟩

/-- The number of active calls. -/
def depth (calls : CallStack) : Nat :=
  calls.active.length

/-- Begins a call, unless the limit is reached. -/
def push (calls : CallStack) (name : String) : Except ErrorKind CallStack :=
  match calls.limit with
  | none => .ok ⟨name :: calls.active, none⟩
  | some limit =>
    if calls.depth < limit then
      .ok ⟨name :: calls.active, some limit⟩
    else
      .error (.stackExhausted limit)

/-- Ends the innermost call. -/
def pop (calls : CallStack) : Except Fault CallStack :=
  match calls.active with
  | [] => .error .noActiveCall
  | _ :: outer => .ok ⟨outer, calls.limit⟩

/-- A call that is begun is the innermost, and ending it leads back. -/
theorem pop_of_push {calls inner : CallStack} {name : String} (h : calls.push name = .ok inner) :
    inner.active = name :: calls.active ∧ inner.pop = .ok calls := by
  obtain ⟨active, limit⟩ := calls
  unfold push at h
  cases limit with
  | none =>
    obtain rfl := Except.ok.inj h
    exact ⟨rfl, rfl⟩
  | some limit =>
    dsimp only at h
    split at h
    · obtain rfl := Except.ok.inj h
      exact ⟨rfl, rfl⟩
    · cases h

/-- Drops all active calls and keeps the limit. -/
def clear (calls : CallStack) : CallStack :=
  ⟨[], calls.limit⟩

end CallStack

end Scriptlet
