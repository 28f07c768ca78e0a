import Scriptlet.Proofs.Parsing.Progress

/-!
# One parser on two texts

An alignment says which places of one text go with which places of another, in the same order. A
parser is aligned if at places that go together its replies are alike: the same value at places that
go together, or a failure at such places that lists the same expectations, with the same flag in
both cases (`Aligned`).

Parsers compare positions in three ways: failures are merged by position, a label looks whether a
failure lies at the start, and a loop tells by its position whether it has moved. An alignment keeps
all of these, so being aligned is kept by the combinators. Only the bounds inside loops and rules
may be other numbers on the two texts. They are the same where as many characters are left (`Level`,
`kept_aligned`). Elsewhere they do not show in a parser that is honest as well (`Parallel`), since
honest rounds consume input and guarded rules are entered further on.

With a text aligned to itself at some of its places only, this says that a parser that starts at
such a place stops and fails at such places.
-/

namespace Scriptlet

/-- Places of one text that go with places of another, in the same order. -/
structure Alignment where
  rel : Cursor → Cursor → Prop
  lt_iff : ∀ {c c' d d' : Cursor}, rel c d → rel c' d' → (c.pos < c'.pos ↔ d.pos < d'.pos)

namespace Alignment

variable {A : Alignment} {α β : Type} {r s : Reply α} {c c' d d' : Cursor}

theorem pos_eq_iff (h : A.rel c d) (h' : A.rel c' d') : c.pos = c'.pos ↔ d.pos = d'.pos := by
  have hlt := A.lt_iff h h'
  have hgt := A.lt_iff h' h
  omega

/-- Pairs of places in a row, each of which is further on than those before it in both texts. -/
def ofPairs (pairs : List (Cursor × Cursor))
    (h : pairs.Pairwise fun x y => x.1.pos < y.1.pos ∧ x.2.pos < y.2.pos) : Alignment where
  rel c d := (c, d) ∈ pairs
  lt_iff {c c' d d'} hcd hcd' := by
    obtain ⟨i, hi, hget⟩ := List.mem_iff_getElem.1 hcd
    obtain ⟨j, hj, hget'⟩ := List.mem_iff_getElem.1 hcd'
    have hforward := List.pairwise_iff_getElem.1 h i j hi hj
    have hbackward := List.pairwise_iff_getElem.1 h j i hj hi
    rw [hget, hget'] at hforward hbackward
    dsimp only at hforward hbackward
    rcases Nat.lt_trichotomy i j with hij | rfl | hij
    · have hlt := hforward hij
      omega
    · rw [hget] at hget'
      obtain ⟨rfl, rfl⟩ := Prod.mk.inj hget'
      omega
    · have hlt := hbackward hij
      omega

/-- At places that go together as many characters are left. -/
def Level (A : Alignment) : Prop :=
  ∀ c d, A.rel c d → c.rest.length = d.rest.length

/-- The replies have the same flag, and the same value at places that go together or the same
expectations there. -/
inductive Alike (A : Alignment) {α : Type} : Reply α → Reply α → Prop
  | ok {c d : Cursor} (consumed : Bool) (a : α) :
    A.rel c d → A.Alike ⟨consumed, .ok (a, c)⟩ ⟨consumed, .ok (a, d)⟩
  | error {c d : Cursor} (consumed : Bool) (expected : List Expectation) :
    A.rel c d → A.Alike ⟨consumed, .error ⟨c.pos, expected⟩⟩ ⟨consumed, .error ⟨d.pos, expected⟩⟩

theorem Alike.after (h : A.Alike r s) (before : Bool) :
    A.Alike (r.after before) (s.after before) := by
  cases h with
  | ok consumed a h => exact .ok _ a h
  | error consumed expected h => exact .error _ expected h

theorem Alike.map (h : A.Alike r s) (f : α → β) : A.Alike (r.map f) (s.map f) := by
  cases h with
  | ok consumed a h => exact .ok consumed (f a) h
  | error consumed expected h => exact .error consumed expected h

theorem alike_refusal (h : A.rel c d) (e : Expectation) :
    A.Alike (.refusal c.pos e : Reply α) (.refusal d.pos e) :=
  .error false [e] h

theorem alike_moved (h : A.rel c d) (h' : A.rel c' d') (a : α) :
    A.Alike (.moved a c c') (.moved a d d') := by
  have hflag : decide (c.pos < c'.pos) = decide (d.pos < d'.pos) :=
    decide_eq_decide.2 (A.lt_iff h h')
  unfold Reply.moved
  rw [hflag]
  exact .ok _ a h'

/-- Merging compares positions only, and these are in the same order on both sides. -/
theorem exists_merge (h : A.rel c d) (h' : A.rel c' d') (expected expected' : List Expectation) :
    ∃ e f joined, A.rel e f ∧
      Failure.merge ⟨c.pos, expected⟩ ⟨c'.pos, expected'⟩ = ⟨e.pos, joined⟩ ∧
      Failure.merge ⟨d.pos, expected⟩ ⟨d'.pos, expected'⟩ = ⟨f.pos, joined⟩ := by
  have hlt := A.lt_iff h h'
  have hgt := A.lt_iff h' h
  unfold Failure.merge
  by_cases hfirst : c'.pos < c.pos
  · refine ⟨c, d, expected, h, if_pos hfirst, if_pos ?_⟩
    exact hgt.1 hfirst
  by_cases hsecond : c.pos < c'.pos
  · refine ⟨c', d', expected', h', ?_, ?_⟩
    · rw [if_neg hfirst, if_pos hsecond]
    · rw [if_neg (mt hgt.2 hfirst), if_pos (hlt.1 hsecond)]
  · refine ⟨c, d, expected'.foldl Failure.addNew expected, h, ?_, ?_⟩
    · rw [if_neg hfirst, if_neg hsecond]
    · rw [if_neg (mt hgt.2 hfirst), if_neg (mt hlt.2 hsecond)]

end Alignment

namespace Parser

open Scriptlet.Alignment

variable {A : Alignment} {α β γ : Type} {p q : Parser α} {c d : Cursor}

/-- The replies at places that go together are alike. -/
def Aligned (A : Alignment) (p : Parser α) : Prop :=
  ∀ c d, A.rel c d → A.Alike (p.run c) (p.run d)

/-- The parser is honest, and its replies at places that go together are alike. -/
structure Parallel (A : Alignment) (p : Parser α) : Prop where
  honest : p.Honest
  alike : ∀ c d, A.rel c d → A.Alike (p.run c) (p.run d)

/-! ### Sequencing -/

theorem aligned_pure (a : α) : Aligned A (pure a : Parser α) :=
  fun _ _ h => .ok false a h

/-- After successes at places that go together, the second part begins at such places. -/
theorem Aligned.bind {f : α → Parser β} (hp : Aligned A p) (hf : ∀ a, Aligned A (f a)) :
    Aligned A (p >>= f) := by
  intro c d h
  have hfirst := hp c d h
  generalize hc : p.run c = r, hd : p.run d = s at hfirst
  cases hfirst with
  | ok consumed a h' =>
    rw [run_bind_of_ok hc, run_bind_of_ok hd]
    exact (hf a _ _ h').after consumed
  | error consumed expected h' =>
    rw [run_bind_of_error hc, run_bind_of_error hd]
    exact .error consumed expected h'

theorem parallel_pure (a : α) : Parallel A (pure a : Parser α) :=
  ⟨honest_pure a, aligned_pure a⟩

theorem Parallel.map (hp : Parallel A p) (f : α → β) : Parallel A (f <$> p) :=
  ⟨hp.honest.map f, fun c d h => (hp.alike c d h).map f⟩

theorem Parallel.bind {f : α → Parser β} (hp : Parallel A p) (hf : ∀ a, Parallel A (f a)) :
    Parallel A (p >>= f) :=
  ⟨hp.honest.bind fun a => (hf a).honest, Aligned.bind hp.alike fun a => (hf a).alike⟩

theorem Parallel.seqRight {r : Parser β} (hp : Parallel A p) (hr : Parallel A r) :
    Parallel A (p *> r) := by
  rw [seqRight_eq_bind]
  exact hp.bind fun _ => hr

theorem Parallel.seqLeft {r : Parser β} (hp : Parallel A p) (hr : Parallel A r) :
    Parallel A (p <* r) := by
  rw [seqLeft_eq_bind]
  exact hp.bind fun a => hr.bind fun _ => parallel_pure a

theorem Parallel.between {opening : Parser β} {closing : Parser γ} (hp : Parallel A p)
    (ho : Parallel A opening) (hz : Parallel A closing) : Parallel A (p.between opening closing) :=
  (ho.seqRight hp).seqLeft hz

/-! ### Choice -/

theorem aligned_refuse (e : Expectation) : Aligned A (refuse e : Parser α) :=
  fun _ _ h => alike_refusal h e

/-- Both texts come to the second alternative or neither does. -/
theorem Aligned.orElse (hp : Aligned A p) (hq : Aligned A q) : Aligned A (p <|> q) := by
  intro c d h
  show A.Alike ((Parser.orElse p fun _ => q).run c) ((Parser.orElse p fun _ => q).run d)
  have hfirst := hp c d h
  have hsecond := hq c d h
  generalize hc : p.run c = r, hd : p.run d = s at hfirst
  generalize hc' : q.run c = r', hd' : q.run d = s' at hsecond
  simp only [Parser.orElse, hc, hd, hc', hd']
  cases hfirst with
  | ok consumed a h₁ => cases consumed <;> exact .ok _ a h₁
  | error consumed expected h₁ =>
    cases consumed with
    | true => exact .error true expected h₁
    | false =>
      cases hsecond with
      | ok consumed' a h₂ => exact .ok consumed' a h₂
      | error consumed' expected' h₂ =>
        obtain ⟨e, f, joined, h₃, hmerge, hmerge'⟩ := exists_merge h₁ h₂ expected expected'
        dsimp only
        rw [hmerge, hmerge']
        exact .error consumed' joined h₃

theorem Aligned.attempt (hp : Aligned A p) : Aligned A p.attempt := by
  intro c d h
  have hpart := hp c d h
  generalize hc : p.run c = r, hd : p.run d = s at hpart
  simp only [Parser.attempt, hc, hd]
  cases hpart with
  | ok consumed a h' => exact .ok consumed a h'
  | error consumed expected h' => exact .error false expected h'

theorem Aligned.optional (hp : Aligned A p) : Aligned A p.optional := by
  intro c d h
  have hpart := hp c d h
  generalize hc : p.run c = r, hd : p.run d = s at hpart
  simp only [Parser.optional, hc, hd]
  cases hpart with
  | ok consumed a h' => cases consumed <;> exact .ok _ (some a) h'
  | error consumed expected h' =>
    cases consumed with
    | true => exact .error true expected h'
    | false => exact .ok false none h

theorem Aligned.label (hp : Aligned A p) (name : String) : Aligned A (p.label name) := by
  intro c d h
  have hpart := hp c d h
  generalize hc : p.run c = r, hd : p.run d = s at hpart
  simp only [Parser.label, hc, hd]
  cases hpart with
  | ok consumed a h' => cases consumed <;> exact .ok _ a h'
  | @error c' d' consumed expected h' =>
    cases consumed with
    | true => exact .error true expected h'
    | false =>
      have hpos := A.pos_eq_iff h' h
      dsimp only
      by_cases hstart : c'.pos = c.pos
      · rw [if_pos hstart, if_pos (hpos.1 hstart)]
        exact alike_refusal h _
      · rw [if_neg hstart, if_neg (mt hpos.2 hstart)]
        exact .error false expected h'

theorem parallel_refuse (e : Expectation) : Parallel A (refuse e : Parser α) :=
  ⟨honest_refuse e, aligned_refuse e⟩

theorem Parallel.orElse (hp : Parallel A p) (hq : Parallel A q) : Parallel A (p <|> q) :=
  ⟨hp.honest.orElse hq.honest, Aligned.orElse hp.alike hq.alike⟩

theorem Parallel.attempt (hp : Parallel A p) : Parallel A p.attempt :=
  ⟨hp.honest.attempt, Aligned.attempt hp.alike⟩

theorem Parallel.optional (hp : Parallel A p) : Parallel A p.optional :=
  ⟨hp.honest.optional, Aligned.optional hp.alike⟩

theorem Parallel.label (hp : Parallel A p) (name : String) : Parallel A (p.label name) :=
  ⟨hp.honest.label name, Aligned.label hp.alike name⟩

/-! ### Repetition -/

/-- With one bound for both texts, loops go on for as many rounds. -/
theorem Aligned.rounds (hp : Aligned A p) (n : Nat) (h : A.rel c d) :
    A.Alike ⟨true, rounds p n c⟩ ⟨true, rounds p n d⟩ := by
  induction n generalizing c d with
  | zero => exact .ok true [] h
  | succ n ih =>
    have hround := hp c d h
    generalize hc : p.run c = r, hd : p.run d = s at hround
    simp only [Parser.rounds, hc, hd]
    cases hround with
    | @ok c' d' consumed a h' =>
      cases consumed with
      | false => exact .ok true [] h
      | true =>
        have hmore := ih h'
        dsimp only
        generalize Parser.rounds p n c' = r, Parser.rounds p n d' = s at hmore
        cases hmore with
        | ok _ as h'' => exact .ok true (a :: as) h''
        | error _ expected h'' => exact .error true expected h''
    | error consumed expected h' =>
      cases consumed with
      | false => exact .ok true [] h
      | true => exact .error true expected h'

/-- The flag of a loop compares positions, which are in the same order on both texts. -/
theorem alike_many (h : A.rel c d)
    (hrounds : A.Alike ⟨true, rounds p (c.rest.length + 1) c⟩
      ⟨true, rounds p (d.rest.length + 1) d⟩) :
    A.Alike (p.many.run c) (p.many.run d) := by
  simp only [Parser.many]
  generalize Parser.rounds p _ c = r, Parser.rounds p _ d = s at hrounds
  cases hrounds with
  | ok _ as h' => exact alike_moved h h' as
  | error _ expected h' => exact .error true expected h'

theorem Aligned.many (hA : A.Level) (hp : Aligned A p) : Aligned A p.many := by
  intro c d h
  apply alike_many h
  rw [hA c d h]
  exact hp.rounds _ h

/-- Honest rounds that go on leave fewer characters, so a bound above the number of characters left
is never reached. -/
theorem Honest.rounds_eq (hp : p.Honest) {n m : Nat} (hn : c.rest.length < n)
    (hm : c.rest.length < m) : rounds p n c = rounds p m c := by
  induction n generalizing m c with
  | zero => omega
  | succ n ih =>
    obtain ⟨m, rfl⟩ : ∃ k, m = k + 1 := ⟨m - 1, by omega⟩
    match hrun : p.run c with
    | ⟨false, _⟩ => simp only [Parser.rounds, hrun]
    | ⟨true, .error e⟩ => simp only [Parser.rounds, hrun]
    | ⟨true, .ok (a, d)⟩ =>
      obtain ⟨hreaches, hpos⟩ := (hp.success c true a d hrun).forward rfl
      have hlength := hreaches.length_lt hpos
      have hmore : Parser.rounds p n d = Parser.rounds p m d := ih (by omega) (by omega)
      simp only [Parser.rounds, hrun, hmore]

theorem Parallel.many (hp : Parallel A p) : Parallel A p.many := by
  refine ⟨hp.honest.many, fun c d h => alike_many h ?_⟩
  let n := max (c.rest.length + 1) (d.rest.length + 1)
  have hc : Parser.rounds p (c.rest.length + 1) c = Parser.rounds p n c :=
    hp.honest.rounds_eq (Nat.lt_succ_self _) (Nat.le_max_left _ _)
  have hd : Parser.rounds p (d.rest.length + 1) d = Parser.rounds p n d :=
    hp.honest.rounds_eq (Nat.lt_succ_self _) (Nat.le_max_right _ _)
  rw [hc, hd]
  exact Aligned.rounds hp.alike n h

theorem Parallel.sepBy {separator : Parser β} (hp : Parallel A p) (hsep : Parallel A separator) :
    Parallel A (p.sepBy separator) := by
  have hlist : Parallel A (p.sepBy1 separator) :=
    hp.bind fun _ => (hsep.seqRight hp).many.bind fun _ => parallel_pure _
  exact hlist.optional.map _

theorem Parallel.chainLeft {operator : Parser (α → α → α)} (hp : Parallel A p)
    (ho : Parallel A operator) : Parallel A (p.chainLeft operator) := by
  have hjoined : Parallel A (joined operator p) := ho.bind fun _ => hp.bind fun _ => parallel_pure _
  rw [chainLeft_eq]
  exact hp.bind fun _ => hjoined.many.bind fun _ => parallel_pure _

/-! ### Rules that refer to themselves -/

/-- A guarded rule can be opened equally often on both texts. -/
theorem parallel_recursive {name : String} {rule : Parser α → Parser α} (hguarded : Guarded rule)
    (hrule : ∀ p, Parallel A p → Parallel A (rule p)) : Parallel A (recursive name rule) := by
  have hunroll (n : Nat) : Parallel A (unroll name rule n) :=
    unroll_induction (parallel_refuse _) hrule n
  refine ⟨⟨fun c => (hunroll (c.rest.length + 1)).honest.success c,
    fun c => (hunroll (c.rest.length + 1)).honest.failure c⟩, fun c d h => ?_⟩
  let n := max (c.rest.length + 1) (d.rest.length + 1)
  have hc : (recursive name rule).run c = (unroll name rule n).run c :=
    agreeBelow_unroll hguarded (Nat.le_refl _) (Nat.le_max_left _ _) c (Nat.lt_succ_self _)
  have hd : (recursive name rule).run d = (unroll name rule n).run d :=
    agreeBelow_unroll hguarded (Nat.le_refl _) (Nat.le_max_right _ _) d (Nat.lt_succ_self _)
  rw [hc, hd]
  exact (hunroll n).alike c d h

/-! ### Parsers that are built from others -/

/-- With as many characters left, loops and rules have the same bounds on both texts. -/
theorem kept_aligned (hA : A.Level) : Kept fun _ p => Aligned A p where
  pure := aligned_pure
  bind := Aligned.bind
  refuse := aligned_refuse
  orElse := Aligned.orElse
  attempt := Aligned.attempt
  optional := Aligned.optional
  label name hp := hp.label name
  many := Aligned.many hA
  recursive name rule hunroll := by
    intro c d h
    show A.Alike ((unroll name rule (c.rest.length + 1)).run c)
      ((unroll name rule (d.rest.length + 1)).run d)
    rw [hA c d h]
    exact hunroll (d.rest.length + 1) c d h

end Parser

end Scriptlet
