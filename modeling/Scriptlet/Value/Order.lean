import Scriptlet.Value.Basic

/-!
# The order of values

Values are ordered by kind and within a kind by content: arrays item by item, dictionaries entry by
entry in ascending order of keys. Two values compare as equal exactly when they are the same, so the
comparison also decides equality. Dictionaries are built by insertion in this order.
-/

namespace Scriptlet

namespace Value

/-! ### Comparison -/

/-- The place of a value's kind among the kinds. -/
def rank : Value → Nat
  | int _ => 0
  | bool _ => 1
  | array _ => 2
  | dictionary _ => 3
  | unit => 4

mutual

/-- Compares two values: by kind first, then by content. -/
protected def compare : Value → Value → Ordering
  | int a, int b => Ord.compare a.toInt b.toInt
  | bool a, bool b => Ord.compare a b
  | array as, array bs => compareItems as bs
  | dictionary as, dictionary bs => compareEntries as bs
  | a, b => Ord.compare a.rank b.rank

/-- Compares two lists of values at the first place where they differ; a beginning comes first. -/
def compareItems : List Value → List Value → Ordering
  | [], [] => .eq
  | [], _ :: _ => .lt
  | _ :: _, [] => .gt
  | a :: as, b :: bs => (Value.compare a b).then (compareItems as bs)

/-- Compares two lists of entries at the first place where they differ, keys before values. -/
def compareEntries : List (Value × Value) → List (Value × Value) → Ordering
  | [], [] => .eq
  | [], _ :: _ => .lt
  | _ :: _, [] => .gt
  | (k, v) :: as, (l, w) :: bs =>
    (Value.compare k l).then ((Value.compare v w).then (compareEntries as bs))

end

instance : Ord Value where
  compare := Value.compare

/-! ### Equality -/

mutual

/-- Only the same values compare as equal. -/
theorem compare_eq_eq_iff : ∀ a b : Value, a.compare b = .eq ↔ a = b
  | int a, b => by
    cases b <;> simp [Value.compare, rank, Int64.toInt_inj]
  | bool a, b => by
    cases b <;> simp [Value.compare, rank]
  | array as, b => by
    cases b <;> simp [Value.compare, rank, compareItems_eq_eq_iff as]
  | dictionary as, b => by
    cases b <;> simp [Value.compare, rank, compareEntries_eq_eq_iff as]
  | unit, b => by
    cases b <;> simp [Value.compare, rank]

theorem compareItems_eq_eq_iff : ∀ as bs : List Value, compareItems as bs = .eq ↔ as = bs
  | [], bs => by
    cases bs <;> simp [compareItems]
  | a :: as, bs => by
    cases bs <;>
      simp [compareItems, compare_eq_eq_iff a, compareItems_eq_eq_iff as, Ordering.then_eq_eq]

theorem compareEntries_eq_eq_iff :
    ∀ as bs : List (Value × Value), compareEntries as bs = .eq ↔ as = bs
  | [], bs => by
    cases bs <;> simp [compareEntries]
  | (k, v) :: as, bs => by
    cases bs <;>
      simp [compareEntries, compare_eq_eq_iff k, compare_eq_eq_iff v, compareEntries_eq_eq_iff as,
        Ordering.then_eq_eq, Prod.ext_iff, and_assoc]

end

instance : DecidableEq Value := fun a b =>
  decidable_of_iff (a.compare b = .eq) (compare_eq_eq_iff a b)

/-- Sorts values in ascending order and drops repetitions. -/
def sortDistinct (vs : List Value) : List Value :=
  (vs.mergeSort fun a b => (a.compare b).isLE).eraseReps

/-! ### Dictionaries -/

/-- Binds a key in a list of entries with ascending keys; a value that the key had is replaced. -/
def insertEntry (k v : Value) : List (Value × Value) → List (Value × Value)
  | [] => [(k, v)]
  | (l, w) :: es =>
    match k.compare l with
    | .lt => (k, v) :: (l, w) :: es
    | .eq => (k, v) :: es
    | .gt => (l, w) :: insertEntry k v es

/-- The dictionary that results from insertions in order. -/
def ofEntries (entries : List (Value × Value)) : Value :=
  dictionary (entries.foldl (fun es (k, v) => insertEntry k v es) [])

end Value

end Scriptlet
