import Mathlib.Data.List.Induction
import Scriptlet.Proofs.Parsing.Progress

/-!
# Merging failures and choosing between parsers

Merging is associative and idempotent, and that with the order of the expectations and with
repetitions inside the lists: a farther failure replaces a nearer one as it is, and at one place the
union drops what was seen before. `Gathers r fs` is what merging a list of failures comes to: `r`
lies at their greatest position and lists what is expected there, in the order in which that was
first seen. One more merge keeps it (`Gathers.merge`), so any number of them does
(`gathers_mergeAll`).

Ordered choice merges the failures of its alternatives, so it is associative as well
(`orElse_assoc`). Main statement: `choice_associative`. A loop drops the failure that ends it, so
chains are the same for operators that differ only in the failures of their refusals
(`chainLeft_congr`).
-/

namespace Scriptlet

universe u

namespace Failure

variable {f g h r : Failure} {fs : List Failure} {l m n : List Expectation} {e : Expectation}

/-! ### Unions -/

/-- Adding the union of two lists adds the one and then the other. -/
theorem foldl_addNew_union (l m n : List Expectation) :
    (n.foldl addNew m).foldl addNew l = n.foldl addNew (m.foldl addNew l) := by
  induction n generalizing m with
  | nil => rfl
  | cons e n ih =>
    have hstep : (addNew m e).foldl addNew l = addNew (m.foldl addNew l) e := by
      by_cases he : e ∈ m
      · have hl : e ∈ m.foldl addNew l := mem_foldl_addNew.2 (.inr he)
        simp only [addNew, if_pos he, if_pos hl]
      · rw [addNew, if_neg he, List.foldl_concat]
    rw [List.foldl_cons, List.foldl_cons, ih, hstep]

/-- Adding what was seen before changes nothing. -/
theorem foldl_addNew_of_subset (h : ∀ e ∈ m, e ∈ l) : m.foldl addNew l = l := by
  induction m with
  | nil => rfl
  | cons e m ih =>
    obtain ⟨he, hm⟩ := List.forall_mem_cons.1 h
    rw [List.foldl_cons, addNew, if_pos he, ih hm]

/-- What was not seen before is added as it is. -/
theorem foldl_addNew_of_nodup (h : (l ++ m).Nodup) : m.foldl addNew l = l ++ m := by
  induction m generalizing l with
  | nil => rw [List.foldl_nil, List.append_nil]
  | cons e m ih =>
    have he : e ∉ l := fun he => (List.nodup_append.1 h).2.2 e he e (List.mem_cons_self ..) rfl
    have hrest : ((l ++ [e]) ++ m).Nodup := by simpa using h
    rw [List.foldl_cons, addNew, if_neg he, ih hrest]
    simp

/-! ### Laws of merging -/

theorem pos_merge (f g : Failure) : (f.merge g).pos = max f.pos g.pos := by
  rcases Nat.lt_trichotomy f.pos g.pos with hlt | heq | hgt
  · rw [merge_eq_right hlt]
    omega
  · rw [merge_eq_union heq]
    show g.pos = _
    omega
  · rw [merge_eq_left hgt]
    omega

theorem merge_self (f : Failure) : f.merge f = f := by
  rw [merge_eq_union rfl, foldl_addNew_of_subset fun _ he => he]

/-- A new expectation comes before those that are merged into it. -/
theorem single_merge {pos : Nat} (h : (e :: l).Nodup) :
    (single pos e).merge ⟨pos, l⟩ = ⟨pos, e :: l⟩ := by
  have hunion : l.foldl addNew [e] = e :: l := foldl_addNew_of_nodup h
  calc (single pos e).merge ⟨pos, l⟩
    _ = ⟨pos, l.foldl addNew [e]⟩ := merge_eq_union rfl
    _ = ⟨pos, e :: l⟩ := by rw [hunion]

theorem merge_assoc (f g h : Failure) : (f.merge g).merge h = f.merge (g.merge h) := by
  have hpos : (g.merge h).pos = max g.pos h.pos := pos_merge g h
  rcases Nat.lt_trichotomy f.pos g.pos with hfg | hfg | hfg
  · -- The first failure is too near to matter on either side.
    rw [merge_eq_right hfg, merge_eq_right (show f.pos < (g.merge h).pos by omega)]
  · rcases Nat.lt_trichotomy g.pos h.pos with hgh | hgh | hgh
    · have hpos' : (f.merge g).pos < h.pos := by rw [pos_merge]; omega
      rw [merge_eq_right hpos', merge_eq_right hgh, merge_eq_right (hfg ▸ hgh)]
    · have hleft : (f.merge g).merge h =
          ⟨h.pos, h.expected.foldl addNew (g.expected.foldl addNew f.expected)⟩ := by
        rw [merge_eq_union hfg]
        exact merge_eq_union hgh
      have hright : f.merge (g.merge h) =
          ⟨h.pos, (h.expected.foldl addNew g.expected).foldl addNew f.expected⟩ := by
        rw [merge_eq_union hgh]
        exact merge_eq_union (hfg.trans hgh)
      rw [hleft, hright, foldl_addNew_union]
    · have hpos' : h.pos < (f.merge g).pos := by rw [pos_merge]; omega
      rw [merge_eq_left hpos', merge_eq_left hgh]
  · rcases Nat.lt_or_ge h.pos f.pos with hfh | hfh
    · -- The first failure is the farthest of the three.
      rw [merge_eq_left hfg, merge_eq_left hfh,
        merge_eq_left (show (g.merge h).pos < f.pos by omega)]
    · rw [merge_eq_left hfg, merge_eq_right (show g.pos < h.pos by omega)]

/-! ### Order of first sight -/

/-- The same expectations, first seen in the same order. -/
structure SeenAlike (l m : List Expectation) : Prop where
  mem_iff : ∀ e, e ∈ l ↔ e ∈ m
  before_iff : ∀ d e, l.idxOf d < l.idxOf e ↔ m.idxOf d < m.idxOf e

theorem SeenAlike.refl (l : List Expectation) : SeenAlike l l :=
  ⟨fun _ => .rfl, fun _ _ => .rfl⟩

theorem SeenAlike.trans (h : SeenAlike l m) (h' : SeenAlike m n) : SeenAlike l n :=
  ⟨fun e => (h.mem_iff e).trans (h'.mem_iff e),
    fun d e => (h.before_iff d e).trans (h'.before_iff d e)⟩

theorem SeenAlike.append (h : SeenAlike l m) (n : List Expectation) :
    SeenAlike (l ++ n) (m ++ n) := by
  refine ⟨fun e => by simp [h.mem_iff], fun d e => ?_⟩
  have hbefore := h.before_iff d e
  have hd : l.idxOf d < l.length ↔ m.idxOf d < m.length := by
    rw [List.idxOf_lt_length_iff, List.idxOf_lt_length_iff, h.mem_iff]
  have he : l.idxOf e < l.length ↔ m.idxOf e < m.length := by
    rw [List.idxOf_lt_length_iff, List.idxOf_lt_length_iff, h.mem_iff]
  simp only [List.idxOf_append, ← List.idxOf_lt_length_iff]
  split_ifs <;> omega

/-- What was seen before is not seen for the first time. -/
theorem seenAlike_addNew (l : List Expectation) (e : Expectation) :
    SeenAlike (addNew l e) (l ++ [e]) := by
  by_cases he : e ∈ l
  · rw [addNew, if_pos he]
    have hmem : ∀ x, x ∈ l ↔ x ∈ l ++ [e] := by
      intro x
      rw [List.mem_append, List.mem_singleton]
      exact ⟨.inl, fun h => h.elim id fun hx => hx ▸ he⟩
    have hidx : ∀ x,
        (l ++ [e]).idxOf x = if l.idxOf x < l.length then l.idxOf x else l.length + 1 := by
      intro x
      rw [List.idxOf_append]
      by_cases hx : x ∈ l
      · rw [if_pos hx, if_pos (List.idxOf_lt_length_iff.2 hx)]
      · have hne : e ≠ x := fun h => hx (h ▸ he)
        rw [if_neg hx, if_neg (fun h => hx (List.idxOf_lt_length_iff.1 h)),
          List.idxOf_cons_ne _ hne, List.idxOf_nil]
        omega
    refine ⟨hmem, fun d x => ?_⟩
    have hd : l.idxOf d ≤ l.length := List.idxOf_le_length
    have hx : l.idxOf x ≤ l.length := List.idxOf_le_length
    rw [hidx d, hidx x]
    split_ifs <;> omega
  · rw [addNew, if_neg he]
    exact .refl _

theorem seenAlike_foldl_addNew (l m : List Expectation) :
    SeenAlike (m.foldl addNew l) (l ++ m) := by
  induction m generalizing l with
  | nil =>
    rw [List.append_nil]
    exact .refl l
  | cons e m ih =>
    have hstep : SeenAlike (addNew l e ++ m) (l ++ e :: m) := by
      simpa using (seenAlike_addNew l e).append m
    exact (ih (addNew l e)).trans hstep

/-! ### Merging many failures -/

/-- The failures of a list merged one after the other into the first one. -/
def mergeAll (f : Failure) (fs : List Failure) : Failure :=
  fs.foldl merge f

/-- All that the failures expect at a place, one failure after the other. -/
def expectedAt (pos : Nat) (fs : List Failure) : List Expectation :=
  (fs.filter (·.pos = pos)).flatMap (·.expected)

theorem mem_expectedAt {pos : Nat} :
    e ∈ expectedAt pos fs ↔ ∃ f ∈ fs, f.pos = pos ∧ e ∈ f.expected := by
  simp [expectedAt, and_assoc]

theorem expectedAt_append (pos : Nat) (fs gs : List Failure) :
    expectedAt pos (fs ++ gs) = expectedAt pos fs ++ expectedAt pos gs := by
  simp [expectedAt]

theorem expectedAt_of_ne {pos : Nat} (h : ∀ f ∈ fs, f.pos ≠ pos) : expectedAt pos fs = [] := by
  rw [expectedAt, List.filter_eq_nil_iff.2 (by simpa using h), List.flatMap_nil]

theorem expectedAt_singleton (f : Failure) : expectedAt f.pos [f] = f.expected := by
  simp [expectedAt]

/-- The failure sums up the others. -/
structure Gathers (r : Failure) (fs : List Failure) : Prop where
  /-- No failure got farther. -/
  le : ∀ f ∈ fs, f.pos ≤ r.pos
  /-- Some failure got as far. -/
  attained : ∃ f ∈ fs, f.pos = r.pos
  /-- The expectations are those of the failures at this place. -/
  mem_iff : ∀ e, e ∈ r.expected ↔ ∃ f ∈ fs, f.pos = r.pos ∧ e ∈ f.expected
  /-- They stand in the order in which they were first seen. -/
  before_iff : ∀ d e, r.expected.idxOf d < r.expected.idxOf e ↔
    (expectedAt r.pos fs).idxOf d < (expectedAt r.pos fs).idxOf e
  /-- Nothing is listed twice unless some failure does so. -/
  nodup : (∀ f ∈ fs, f.expected.Nodup) → r.expected.Nodup

theorem gathers_of_seenAlike (hle : ∀ f ∈ fs, f.pos ≤ r.pos) (hattained : ∃ f ∈ fs, f.pos = r.pos)
    (hseen : SeenAlike r.expected (expectedAt r.pos fs))
    (hnodup : (∀ f ∈ fs, f.expected.Nodup) → r.expected.Nodup) : r.Gathers fs where
  le := hle
  attained := hattained
  mem_iff e := (hseen.mem_iff e).trans mem_expectedAt
  before_iff := hseen.before_iff
  nodup := hnodup

theorem Gathers.seenAlike (hr : r.Gathers fs) : SeenAlike r.expected (expectedAt r.pos fs) :=
  ⟨fun e => (hr.mem_iff e).trans mem_expectedAt.symm, hr.before_iff⟩

theorem gathers_singleton (f : Failure) : f.Gathers [f] := by
  refine gathers_of_seenAlike (by simp) (by simp) ?_ (by simp)
  rw [expectedAt_singleton]
  exact .refl _

theorem Gathers.seenAlike_merge (hr : r.Gathers fs) (g : Failure) :
    SeenAlike (r.merge g).expected (expectedAt (r.merge g).pos (fs ++ [g])) := by
  rw [expectedAt_append]
  rcases Nat.lt_trichotomy r.pos g.pos with hlt | heq | hgt
  · -- Nothing that came before got as far.
    have hnear : ∀ f ∈ fs, f.pos ≠ g.pos := by
      intro f hf
      have hle : f.pos ≤ r.pos := hr.le f hf
      omega
    rw [merge_eq_right hlt, expectedAt_of_ne hnear, expectedAt_singleton]
    exact .refl _
  · rw [merge_eq_union heq]
    show SeenAlike (g.expected.foldl addNew r.expected)
      (expectedAt g.pos fs ++ expectedAt g.pos [g])
    have hseen : SeenAlike r.expected (expectedAt g.pos fs) := heq ▸ hr.seenAlike
    rw [expectedAt_singleton]
    exact (seenAlike_foldl_addNew _ _).trans (hseen.append _)
  · have hnear : ∀ f ∈ [g], f.pos ≠ r.pos := by simpa using Nat.ne_of_lt hgt
    rw [merge_eq_left hgt, expectedAt_of_ne hnear, List.append_nil]
    exact hr.seenAlike

/-- Merging one more failure takes it into account. -/
theorem Gathers.merge (hr : r.Gathers fs) (g : Failure) : (r.merge g).Gathers (fs ++ [g]) := by
  have hpos : (r.merge g).pos = max r.pos g.pos := pos_merge r g
  refine gathers_of_seenAlike ?_ ?_ (hr.seenAlike_merge g) ?_
  · intro f hf
    rcases List.mem_append.1 hf with hf | hf
    · have hle : f.pos ≤ r.pos := hr.le f hf
      omega
    · rw [List.mem_singleton.1 hf]
      omega
  · obtain ⟨f, hf, hfr⟩ := hr.attained
    rcases Nat.lt_or_ge r.pos g.pos with hlt | hge
    · exact ⟨g, by simp, by omega⟩
    · exact ⟨f, by simp [hf], by omega⟩
  · intro hnodup
    have hr' : r.expected.Nodup := hr.nodup fun f hf => hnodup f (List.mem_append_left _ hf)
    exact nodup_merge hr' (hnodup g (by simp))

theorem gathers_mergeAll (f : Failure) (fs : List Failure) : (mergeAll f fs).Gathers (f :: fs) := by
  induction fs using List.reverseRecOn with
  | nil => exact gathers_singleton f
  | append_singleton fs g ih =>
    rw [mergeAll, List.foldl_concat]
    exact ih.merge g

example : mergeAll ⟨1, [.endOfInput]⟩ [⟨3, [.token "(", .token "("]⟩, ⟨2, [.named "name"]⟩,
    ⟨3, [.token "[", .token "(", .token "["]⟩] =
      ⟨3, [.token "(", .token "(", .token "["]⟩ := by decide

end Failure

namespace Parser

variable {α : Type u}

/-- Three alternatives can be grouped either way. -/
theorem orElse_assoc (p q r : Parser α) : ((p <|> q) <|> r) = (p <|> (q <|> r)) := by
  ext c : 1
  show (Parser.orElse (Parser.orElse p fun _ => q) fun _ => r).run c =
    (Parser.orElse p fun _ => Parser.orElse q fun _ => r).run c
  -- An alternative that does not refuse settles the matter in either grouping.
  rcases hp : p.run c with ⟨_ | _, f | _⟩
  · rcases hq : q.run c with ⟨_ | _, g | _⟩
    · rcases hr : r.run c with ⟨_, h | _⟩
      · simp only [Parser.orElse, hp, hq, hr, Failure.merge_assoc]
      · simp only [Parser.orElse, hp, hq, hr]
    · simp only [Parser.orElse, hp, hq]
    · simp only [Parser.orElse, hp, hq]
    · simp only [Parser.orElse, hp, hq]
  · simp only [Parser.orElse, hp]
  · simp only [Parser.orElse, hp]
  · simp only [Parser.orElse, hp]

/-- Merging failures is associative and idempotent, with the order of the expectations. A merged
list of failures lies at their greatest position and lists the expectations of the failures there,
in the order in which they were first seen and without repetitions of its own. So the grouping of
alternatives changes nothing in what a parser replies anywhere: whether it consumed, its value and
where it stops, or its failure. -/
theorem choice_associative :
    (∀ f g h : Failure, (f.merge g).merge h = f.merge (g.merge h)) ∧
    (∀ f : Failure, f.merge f = f) ∧
    (∀ (f : Failure) (fs : List Failure), (f.mergeAll fs).Gathers (f :: fs)) ∧
    ∀ {α : Type u} (p q r : Parser α) (c : Cursor),
      ((p <|> q) <|> r).run c = (p <|> (q <|> r)).run c :=
  ⟨Failure.merge_assoc, Failure.merge_self, Failure.gathers_mergeAll,
    fun p q r c => congrArg (Parser.run · c) (orElse_assoc p q r)⟩

/-! ### Where failures do not matter -/

section Agreement

variable {α β : Type} {p q : Parser α} {c : Cursor}

/-- At `c` the parsers give the same reply, or both refuse. -/
def AgreesAt (p q : Parser α) (c : Cursor) : Prop :=
  p.run c = q.run c ∨ p.Refuses c ∧ q.Refuses c

theorem AgreesAt.bind (h : p.AgreesAt q c) (f : α → Parser β) : (p >>= f).AgreesAt (q >>= f) c := by
  rcases h with heq | ⟨hp, hq⟩
  · left
    show (Parser.bind p f).run c = (Parser.bind q f).run c
    simp only [Parser.bind, heq]
  · exact .inr ⟨hp.bind f, hq.bind f⟩

theorem rounds_congr (h : ∀ c, p.AgreesAt q c) (n : Nat) (c : Cursor) :
    rounds p n c = rounds q n c := by
  induction n generalizing c with
  | zero => rfl
  | succ n ih =>
    rw [rounds, rounds]
    rcases h c with heq | ⟨⟨f, hp⟩, ⟨g, hq⟩⟩
    · simp only [heq, ih]
    · rw [hp, hq]

/-- A loop ends where a round is refused and drops the failure. -/
theorem many_congr (h : ∀ c, p.AgreesAt q c) : p.many = q.many := by
  ext c : 1
  simp only [many, rounds_congr h]

theorem chainLeft_congr {operator operator' : Parser (α → α → α)}
    (h : ∀ c, operator.AgreesAt operator' c) (p : Parser α) :
    p.chainLeft operator = p.chainLeft operator' := by
  unfold chainLeft
  rw [many_congr fun c => (h c).bind _]

end Agreement

end Parser

end Scriptlet
