import Mathlib.Data.List.Induction
import Mathlib.Data.List.Sort
import Scriptlet.Value.Order

/-!
# The order of values is a total order

Comparison is lawful on all values: it says that two values are equal exactly when they are the
same, turns around with its arguments, and is transitive. The proofs go by induction over the left
value. `OrientedAt` and `TransitiveAt` are these laws for one left value, and a lexicographic
comparison of lists has them where the members of the left list do (`OrientedAt.compareLex`,
`TransitiveAt.compareLex`); both the items of arrays and the entries of dictionaries are compared
so.

Since the order is lawful, an ordered list of entries is a finite map, and dictionaries are built as
such: `insertEntry` keeps the keys ascending and changes the value of one key
(`ascending_insertEntry`, `mem_insertEntry`), so after any insertions each key has the value that
was inserted last (`mem_insertAll`). Main statement: `compare_lawful`.
-/

namespace Scriptlet

/-! ### Lexicographic comparison -/

section Lexicographic

variable {α : Type} {cmp : α → α → Ordering}

/-- Comparing with `a` turns around with the arguments. -/
def OrientedAt (cmp : α → α → Ordering) (a : α) : Prop :=
  ∀ b, cmp b a = (cmp a b).swap

/-- What comes after something after `a` comes after `a`. -/
def TransitiveAt (cmp : α → α → Ordering) (a : α) : Prop :=
  ∀ b c, cmp a b = .lt → cmp b c = .lt → cmp a c = .lt

theorem OrientedAt.compareLex {as : List α} (h : ∀ a ∈ as, OrientedAt cmp a) :
    OrientedAt (List.compareLex cmp) as := by
  induction as with
  | nil => rintro (_ | ⟨b, bs⟩) <;> rfl
  | cons a as ih =>
    obtain ⟨ha, has⟩ := List.forall_mem_cons.1 h
    rintro (_ | ⟨b, bs⟩)
    · rfl
    · rw [List.compareLex_cons_cons, List.compareLex_cons_cons, Ordering.swap_then, ha b, ih has bs]

/-- One step of a lexicographic comparison: where the first parts are equal, the others decide. -/
theorem TransitiveAt.then_lt [Std.LawfulEqCmp cmp] {a b c : α} {o o' o'' : Ordering}
    (ha : TransitiveAt cmp a) (h : (cmp a b).then o = .lt) (h' : (cmp b c).then o' = .lt)
    (hothers : o = .lt → o' = .lt → o'' = .lt) : (cmp a c).then o'' = .lt := by
  rw [Ordering.then_eq_lt] at h h' ⊢
  rcases h with hab | ⟨hab, ho⟩
  · rcases h' with hbc | ⟨hbc, -⟩
    · exact .inl (ha b c hab hbc)
    · rw [← Std.LawfulEqCmp.eq_of_compare hbc]
      exact .inl hab
  · rw [Std.LawfulEqCmp.eq_of_compare hab]
    exact h'.imp_right fun ⟨hbc, ho'⟩ => ⟨hbc, hothers ho ho'⟩

theorem TransitiveAt.compareLex [Std.LawfulEqCmp cmp] {as : List α}
    (h : ∀ a ∈ as, TransitiveAt cmp a) : TransitiveAt (List.compareLex cmp) as := by
  induction as with
  | nil =>
    rintro (_ | ⟨b, bs⟩) (_ | ⟨c, cs⟩) hab hbc
    · exact hab
    · rfl
    · cases hbc
    · rfl
  | cons a as ih =>
    obtain ⟨ha, has⟩ := List.forall_mem_cons.1 h
    rintro (_ | ⟨b, bs⟩) (_ | ⟨c, cs⟩) hab hbc
    · cases hab
    · cases hab
    · cases hbc
    · rw [List.compareLex_cons_cons] at hab hbc ⊢
      exact ha.then_lt hab hbc (ih has bs cs)

end Lexicographic

namespace Value

variable {a b c k l v w : Value} {es : List (Value × Value)}

/-! ### The laws -/

instance : Std.LawfulEqCmp Value.compare where
  compare_self {a} := (compare_eq_eq_iff a a).2 rfl
  eq_of_compare {a b} := (compare_eq_eq_iff a b).1

/-- Compares two entries, keys before values. -/
def compareEntry (d e : Value × Value) : Ordering :=
  (d.1.compare e.1).then (d.2.compare e.2)

instance : Std.LawfulEqCmp compareEntry where
  compare_self {d} := by simp [compareEntry, (compare_eq_eq_iff _ _).2]
  eq_of_compare {d e} h := by
    simp only [compareEntry, Ordering.then_eq_eq, compare_eq_eq_iff] at h
    exact Prod.ext h.1 h.2

theorem compareItems_eq_compareLex (as bs : List Value) :
    compareItems as bs = as.compareLex Value.compare bs := by
  induction as generalizing bs with
  | nil => cases bs <;> rfl
  | cons a as ih =>
    cases bs with
    | nil => rfl
    | cons b bs => rw [compareItems, List.compareLex_cons_cons, ih]

theorem compareEntries_eq_compareLex (as bs : List (Value × Value)) :
    compareEntries as bs = as.compareLex compareEntry bs := by
  induction as generalizing bs with
  | nil => cases bs <;> rfl
  | cons d as ih =>
    cases bs with
    | nil => rfl
    | cons e bs =>
      rw [compareEntries, List.compareLex_cons_cons, ih, compareEntry, Ordering.then_assoc]

theorem orientedAt (a : Value) : OrientedAt Value.compare a := by
  induction a using Value.induction with
  | int n =>
    intro b
    cases b with
    | int m =>
      simp only [Value.compare]
      exact Std.OrientedCmp.eq_swap
    | _ => rfl
  | bool x =>
    intro b
    cases b with
    | bool y =>
      simp only [Value.compare]
      exact Std.OrientedCmp.eq_swap
    | _ => rfl
  | array as ih =>
    intro b
    cases b with
    | array bs =>
      simp only [Value.compare, compareItems_eq_compareLex]
      exact OrientedAt.compareLex ih bs
    | _ => rfl
  | dictionary as ih =>
    intro b
    cases b with
    | dictionary bs =>
      simp only [Value.compare, compareEntries_eq_compareLex]
      refine OrientedAt.compareLex (fun d hd e => ?_) bs
      rw [compareEntry, compareEntry, Ordering.swap_then, (ih d hd).1 e.1, (ih d hd).2 e.2]
    | _ => rfl
  | unit =>
    intro b
    cases b <;> rfl

/-- Values of different kinds are compared by their kinds. -/
theorem compare_of_rank_ne (h : a.rank ≠ b.rank) : a.compare b = Ord.compare a.rank b.rank := by
  cases a <;> cases b <;> first | rfl | exact absurd rfl h

theorem compare_of_rank_lt (h : a.rank < b.rank) : a.compare b = .lt := by
  rw [compare_of_rank_ne (Nat.ne_of_lt h)]
  exact Nat.compare_eq_lt.2 h

theorem rank_le_of_compare_lt (h : a.compare b = .lt) : a.rank ≤ b.rank := by
  by_cases hrank : a.rank = b.rank
  · exact Nat.le_of_eq hrank
  · rw [compare_of_rank_ne hrank] at h
    exact Nat.le_of_lt (Nat.compare_eq_lt.1 h)

/-- Between kinds the order is that of the ranks, so only values of one kind have to be looked
at. -/
theorem transitiveAt_of_rank (h : ∀ b c, b.rank = a.rank → c.rank = a.rank →
    a.compare b = .lt → b.compare c = .lt → a.compare c = .lt) : TransitiveAt Value.compare a := by
  intro b c hab hbc
  have hle : a.rank ≤ b.rank := rank_le_of_compare_lt hab
  have hle' : b.rank ≤ c.rank := rank_le_of_compare_lt hbc
  by_cases hlt : a.rank < c.rank
  · exact compare_of_rank_lt hlt
  · exact h b c (by omega) (by omega) hab hbc

theorem transitiveAt (a : Value) : TransitiveAt Value.compare a := by
  induction a using Value.induction with
  | int n =>
    refine transitiveAt_of_rank fun b c hb hc => ?_
    cases b <;> cases hb
    cases c <;> cases hc
    simp only [Value.compare]
    exact Std.TransCmp.lt_trans
  | bool x =>
    refine transitiveAt_of_rank fun b c hb hc => ?_
    cases b <;> cases hb
    cases c <;> cases hc
    simp only [Value.compare]
    exact Std.TransCmp.lt_trans
  | array as ih =>
    refine transitiveAt_of_rank fun b c hb hc => ?_
    cases b <;> cases hb
    cases c <;> cases hc
    simp only [Value.compare, compareItems_eq_compareLex]
    exact TransitiveAt.compareLex ih _ _
  | dictionary as ih =>
    refine transitiveAt_of_rank fun b c hb hc => ?_
    cases b <;> cases hb
    cases c <;> cases hc
    simp only [Value.compare, compareEntries_eq_compareLex]
    refine TransitiveAt.compareLex (fun d hd e f hde hef => ?_) _ _
    exact (ih d hd).1.then_lt hde hef ((ih d hd).2 e.2 f.2)
  | unit =>
    refine transitiveAt_of_rank fun b c hb hc => ?_
    cases b <;> cases hb
    cases c <;> cases hc
    exact fun h _ => h

instance : Std.TransCmp Value.compare where
  eq_swap {a b} := orientedAt b a
  isLE_trans {a b c} hab hbc := by
    rw [Ordering.isLE_iff_eq_lt_or_eq_eq] at hab hbc ⊢
    rcases hab with hab | hab
    · rcases hbc with hbc | hbc
      · exact .inl (transitiveAt a b c hab hbc)
      · rw [← (compare_eq_eq_iff b c).1 hbc]
        exact .inl hab
    · rw [(compare_eq_eq_iff a b).1 hab]
      exact hbc

/-! ### Finite maps -/

/-- The entry comes before the other one by its key. -/
def KeyBefore (d e : Value × Value) : Prop :=
  d.1.compare e.1 = .lt

instance : Std.Irrefl KeyBefore where
  irrefl d h := by
    rw [KeyBefore, (compare_eq_eq_iff d.1 d.1).2 rfl] at h
    cases h

instance : Std.Antisymm KeyBefore where
  antisymm d e h h' := by
    rw [KeyBefore, Std.OrientedCmp.gt_of_lt h] at h'
    cases h'

/-- The keys are in strictly ascending order. -/
def Ascending (es : List (Value × Value)) : Prop :=
  es.Pairwise KeyBefore

/-- Ascending entries are the same when the same keys have the same values. -/
theorem Ascending.ext {ds es : List (Value × Value)} (hds : Ascending ds) (hes : Ascending es)
    (h : ∀ k v, (k, v) ∈ ds ↔ (k, v) ∈ es) : ds = es :=
  hds.eq_of_mem_iff hes fun e => h e.1 e.2

/-- Inserting gives the key its value and keeps what the other keys have. -/
theorem mem_insertEntry (hes : Ascending es) :
    (l, w) ∈ insertEntry k v es ↔ l = k ∧ w = v ∨ l ≠ k ∧ (l, w) ∈ es := by
  induction es with
  | nil => simp [insertEntry]
  | cons e es ih =>
    obtain ⟨k', v'⟩ := e
    obtain ⟨hbefore, htail⟩ := List.pairwise_cons.1 hes
    have hmem : (l, w) ∈ insertEntry k v es ↔ l = k ∧ w = v ∨ l ≠ k ∧ (l, w) ∈ es := ih htail
    have hkey : k.compare k' = .eq ↔ k = k' := compare_eq_eq_iff k k'
    -- A key that does not come after `k'` is not among the keys that follow it.
    have habsent : k.compare k' ≠ .gt → (l, w) ∈ es → l ≠ k := by
      rintro hle hin rfl
      exact hle (Std.OrientedCmp.gt_of_lt (hbefore _ hin))
    rw [insertEntry]
    cases hcmp : k.compare k' with
    | lt => grind
    | eq => grind
    | gt => grind

theorem ascending_insertEntry (hes : Ascending es) (k v : Value) :
    Ascending (insertEntry k v es) := by
  induction es with
  | nil => exact List.pairwise_singleton _ _
  | cons e es ih =>
    obtain ⟨k', v'⟩ := e
    obtain ⟨hbefore, htail⟩ := List.pairwise_cons.1 hes
    rw [insertEntry]
    cases hcmp : k.compare k' with
    | lt =>
      refine List.pairwise_cons.2 ⟨fun e he => ?_, hes⟩
      rcases List.mem_cons.1 he with rfl | he
      · exact hcmp
      · exact Std.TransCmp.lt_trans hcmp (hbefore e he)
    | eq =>
      obtain rfl : k = k' := (compare_eq_eq_iff k k').1 hcmp
      exact List.pairwise_cons.2 ⟨hbefore, htail⟩
    | gt =>
      refine List.pairwise_cons.2 ⟨fun e he => ?_, ih htail⟩
      rcases (mem_insertEntry htail).1 he with ⟨hkey, -⟩ | ⟨-, hmem⟩
      · rw [KeyBefore, hkey]
        exact Std.OrientedCmp.lt_of_gt hcmp
      · exact hbefore e hmem

/-! ### Insertions -/

/-- Among the insertions the last one for `k` inserts `v`. -/
def LastInserted (k v : Value) (insertions : List (Value × Value)) : Prop :=
  ∃ before after, insertions = before ++ (k, v) :: after ∧ ∀ e ∈ after, e.1 ≠ k

/-- The entries after insertions in order. -/
def insertAll (insertions : List (Value × Value)) : List (Value × Value) :=
  insertions.foldl (fun es (k, v) => insertEntry k v es) []

theorem ofEntries_eq (insertions : List (Value × Value)) :
    ofEntries insertions = dictionary (insertAll insertions) := rfl

theorem insertAll_concat (insertions : List (Value × Value)) (k v : Value) :
    insertAll (insertions ++ [(k, v)]) = insertEntry k v (insertAll insertions) := by
  rw [insertAll, List.foldl_concat]
  rfl

theorem lastInserted_concat {insertions : List (Value × Value)} :
    LastInserted l w (insertions ++ [(k, v)]) ↔ l = k ∧ w = v ∨ l ≠ k ∧
      LastInserted l w insertions := by
  constructor
  · rintro ⟨before, after, heq, hafter⟩
    -- The insertion at the end is the last one for `l` itself, or it comes after that one.
    rcases List.eq_nil_or_concat after with rfl | ⟨after, e, rfl⟩
    · obtain ⟨-, hlast⟩ := List.append_inj' heq rfl
      obtain ⟨rfl, rfl⟩ := Prod.mk.inj (List.singleton_inj.1 hlast)
      exact .inl ⟨rfl, rfl⟩
    · have heq' : insertions ++ [(k, v)] = (before ++ (l, w) :: after) ++ [e] := by simpa using heq
      obtain ⟨rfl, hlast⟩ := List.append_inj' heq' rfl
      obtain rfl := List.singleton_inj.1 hlast
      have hne : k ≠ l := hafter (k, v) (by simp)
      have hbetween : ∀ e ∈ after, e.1 ≠ l := fun e he => hafter e (by simp [he])
      exact .inr ⟨hne.symm, before, after, rfl, hbetween⟩
  · rintro (⟨rfl, rfl⟩ | ⟨hne, before, after, rfl, hafter⟩)
    · exact ⟨insertions, [], rfl, by simp⟩
    · refine ⟨before, after ++ [(k, v)], by simp, fun e he => ?_⟩
      rcases List.mem_append.1 he with he | he
      · exact hafter e he
      · rw [List.mem_singleton.1 he]
        exact hne.symm

/-- Only the order of the insertions for one key matters for its last value. -/
theorem lastInserted_iff_getLast? {insertions : List (Value × Value)} :
    LastInserted k v insertions ↔ (insertions.filter (·.1 = k)).getLast? = some (k, v) := by
  induction insertions using List.reverseRecOn with
  | nil => simp [LastInserted]
  | append_singleton insertions e ih =>
    obtain ⟨l, w⟩ := e
    rw [lastInserted_concat, ih, List.filter_append]
    by_cases hkey : l = k
    · subst hkey
      simp [eq_comm]
    · simp [hkey, Ne.symm hkey]

/-! ### Dictionaries -/

theorem ascending_insertAll (insertions : List (Value × Value)) :
    Ascending (insertAll insertions) := by
  induction insertions using List.reverseRecOn with
  | nil => exact .nil
  | append_singleton insertions e ih =>
    rw [insertAll_concat]
    exact ascending_insertEntry ih e.1 e.2

theorem mem_insertAll (insertions : List (Value × Value)) :
    (k, v) ∈ insertAll insertions ↔ LastInserted k v insertions := by
  induction insertions using List.reverseRecOn with
  | nil => simp [insertAll, LastInserted]
  | append_singleton insertions e ih =>
    rw [insertAll_concat, mem_insertEntry (ascending_insertAll insertions), ih, lastInserted_concat]

/-- The order of values is a lawful total order, on which dictionaries are finite maps. Two values
are compared as equal exactly when they are the same, comparison turns around with its arguments,
and it is transitive. Dictionaries with ascending keys are compared as equal exactly when the same
keys have the same values. Any insertions build a dictionary with strictly ascending keys, in which
each key has the value that was inserted last, and insertions that differ only in the order of
different keys build the same dictionary. -/
theorem compare_lawful :
    (∀ a b : Value, a.compare b = .eq ↔ a = b) ∧
    (∀ a b : Value, b.compare a = (a.compare b).swap) ∧
    (∀ a b c : Value, (a.compare b).isLE → (b.compare c).isLE → (a.compare c).isLE) ∧
    (∀ ds es, Ascending ds → Ascending es →
      ((dictionary ds).compare (dictionary es) = .eq ↔ ∀ k v, (k, v) ∈ ds ↔ (k, v) ∈ es)) ∧
    ∀ insertions, ∃ entries, ofEntries insertions = dictionary entries ∧ Ascending entries ∧
      (∀ k v, (k, v) ∈ entries ↔ LastInserted k v insertions) ∧
      ∀ others, (∀ k, others.filter (·.1 = k) = insertions.filter (·.1 = k)) →
        ofEntries others = dictionary entries := by
  refine ⟨compare_eq_eq_iff, orientedAt, fun _ _ _ => Std.TransCmp.isLE_trans, ?_, ?_⟩
  · intro ds es hds hes
    rw [compare_eq_eq_iff, dictionary.injEq]
    exact ⟨fun h k v => by rw [h], hds.ext hes⟩
  · intro insertions
    refine ⟨insertAll insertions, rfl, ascending_insertAll insertions,
      fun k v => mem_insertAll insertions, fun others hsame => ?_⟩
    rw [ofEntries_eq]
    congr 1
    refine (ascending_insertAll others).ext (ascending_insertAll insertions) fun k v => ?_
    rw [mem_insertAll, mem_insertAll, lastInserted_iff_getLast?, lastInserted_iff_getLast?, hsame]

example : ofEntries [(array [unit], bool true), (int 1, int 10), (dictionary [], unit),
    (int 1, int 20)] =
    dictionary [(int 1, int 20), (array [unit], bool true), (dictionary [], unit)] := by decide

end Value

end Scriptlet
