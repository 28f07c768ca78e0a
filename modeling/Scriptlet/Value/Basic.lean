import Scriptlet.Evaluation.Error
import Scriptlet.Integer

/-!
# Values

What expressions evaluate to: integers, truth values, arrays, dictionaries, and the unit value,
which stands for the absence of any other. This module has the type, the names of its kinds, the
text of a value, and the narrowing to each kind.
-/

namespace Scriptlet

/-- A value. The entries of a dictionary are listed by ascending key, each key once. -/
inductive Value where
  | int (n : Integer)
  | bool (b : Bool)
  | array (items : List Value)
  | dictionary (entries : List (Value × Value))
  | unit

namespace Value

/-- Induction over values: from the items of an array to the array, and from the keys and the values
of a dictionary to the dictionary. -/
@[elab_as_elim]
theorem induction {motive : Value → Prop}
    (int : ∀ n, motive (.int n)) (bool : ∀ b, motive (.bool b))
    (array : ∀ items, (∀ v ∈ items, motive v) → motive (.array items))
    (dictionary : ∀ entries, (∀ e ∈ entries, motive e.1 ∧ motive e.2) →
      motive (.dictionary entries))
    (unit : motive .unit) (v : Value) : motive v := by
  refine @Value.rec motive (fun items => ∀ v ∈ items, motive v)
    (fun entries => ∀ e ∈ entries, motive e.1 ∧ motive e.2) (fun e => motive e.1 ∧ motive e.2)
    int bool array dictionary unit ?_ ?_ ?_ ?_ ?_ v
  · exact fun _ h => absurd h List.not_mem_nil
  · exact fun _ _ hv hvs => List.forall_mem_cons.2 ⟨hv, hvs⟩
  · exact fun _ h => absurd h List.not_mem_nil
  · exact fun _ _ he hes => List.forall_mem_cons.2 ⟨he, hes⟩
  · exact fun _ _ hk hv => ⟨hk, hv⟩

/-- The name of a value's kind. -/
def typeName : Value → String
  | int _ => "int"
  | bool _ => "bool"
  | array _ => "array"
  | dictionary _ => "dictionary"
  | unit => "unit"

/-! ### Text -/

mutual

/-- The text of a value: arrays in brackets, dictionaries in braces, the unit value as `()`. -/
def render : Value → String
  | int n => n.toInt.repr
  | bool true => "true"
  | bool false => "false"
  | array items => "[" ++ renderItems items ++ "]"
  | dictionary entries => "\x7b" ++ renderEntries entries ++ "\x7d"
  | unit => "()"

/-- The items of an array, with commas between. -/
def renderItems : List Value → String
  | [] => ""
  | v :: vs => render v ++ renderMoreItems vs

/-- The items of an array after the first, each with a comma before it. -/
def renderMoreItems : List Value → String
  | [] => ""
  | v :: vs => ", " ++ render v ++ renderMoreItems vs

/-- The entries of a dictionary, with commas between. -/
def renderEntries : List (Value × Value) → String
  | [] => ""
  | (k, v) :: es => render k ++ ": " ++ render v ++ renderMoreEntries es

/-- The entries of a dictionary after the first, each with a comma before it. -/
def renderMoreEntries : List (Value × Value) → String
  | [] => ""
  | (k, v) :: es => ", " ++ render k ++ ": " ++ render v ++ renderMoreEntries es

end

/-! ### Narrowing -/

/-- The error of finding a value where another kind is asked for. -/
def mismatch (expected : String) (found : Value) : ErrorKind :=
  .typeMismatch expected found.typeName

/-- The integer that a value is. -/
def asInt : Value → Except ErrorKind Integer
  | int n => .ok n
  | other => .error (mismatch "int" other)

/-- The truth value that a value is. -/
def asBool : Value → Except ErrorKind Bool
  | bool b => .ok b
  | other => .error (mismatch "bool" other)

/-- The items of the array that a value is. -/
def asArray : Value → Except ErrorKind (List Value)
  | array items => .ok items
  | other => .error (mismatch "array" other)

/-- The entries of the dictionary that a value is. -/
def asDictionary : Value → Except ErrorKind (List (Value × Value))
  | dictionary entries => .ok entries
  | other => .error (mismatch "dictionary" other)

end Value

end Scriptlet
