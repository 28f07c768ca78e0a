import Scriptlet.Parsing.Recursion
import Scriptlet.Proofs.Parsing.Repetition

/-!
# Rules that refer to themselves are fixed points

A rule is *guarded* when its reply at a cursor depends on the parser inside it only at places with
fewer characters left. Then a rule that is opened more often than there are characters left replies
as if it were opened without end (`agreeBelow_unroll`), and `recursive` is a fixed point of the rule
(`recursive_eq`).

Agreement of two parsers below a number of remaining characters composes along the combinators. What
makes a rule guarded is an advancing part in front: after it one character fewer has to agree
(`Advancing.agree_bind`).
-/

namespace Scriptlet

namespace Parser

variable {α β γ : Type} {p q : Parser α} {n : Nat}

/-- The two parsers reply alike wherever fewer than `n` characters are left. -/
def AgreeBelow (n : Nat) (p q : Parser α) : Prop :=
  ∀ c : Cursor, c.rest.length < n → p.run c = q.run c

theorem agreeBelow_refl (n : Nat) (p : Parser α) : AgreeBelow n p p :=
  fun _ _ => rfl

theorem AgreeBelow.mono {m : Nat} (h : AgreeBelow n p q) (hmn : m ≤ n) : AgreeBelow m p q :=
  fun c hc => h c (Nat.lt_of_lt_of_le hc hmn)

/-! ### Sequencing -/

theorem AgreeBelow.bind {f g : α → Parser β} (hpq : AgreeBelow n p q) (hp : p.NeverBack)
    (hfg : ∀ a, AgreeBelow n (f a) (g a)) : AgreeBelow n (p >>= f) (q >>= g) := by
  intro c hc
  match hrun : p.run c with
  | ⟨consumed, .error e⟩ =>
    rw [run_bind_of_error hrun, run_bind_of_error ((hpq c hc).symm.trans hrun)]
  | ⟨consumed, .ok (a, c₁)⟩ =>
    have hlen : c₁.rest.length ≤ c.rest.length := hp c a c₁ (gives_of_run hrun)
    rw [run_bind_of_ok hrun, run_bind_of_ok ((hpq c hc).symm.trans hrun), hfg a c₁ (by omega)]

/-- After an advancing part agreement is asked for one character fewer. -/
theorem Advancing.agree_bind {f g : α → Parser β} (hp : p.Advancing)
    (hfg : ∀ a, AgreeBelow n (f a) (g a)) : AgreeBelow (n + 1) (p >>= f) (p >>= g) := by
  intro c hc
  match hrun : p.run c with
  | ⟨consumed, .error e⟩ => rw [run_bind_of_error hrun, run_bind_of_error hrun]
  | ⟨consumed, .ok (a, c₁)⟩ =>
    have hlen : c₁.rest.length < c.rest.length := (hp c a c₁ (gives_of_run hrun)).2
    rw [run_bind_of_ok hrun, run_bind_of_ok hrun, hfg a c₁ (by omega)]

theorem AgreeBelow.map (hpq : AgreeBelow n p q) (f : α → β) : AgreeBelow n (f <$> p) (f <$> q) := by
  intro c hc
  rw [run_map, run_map, hpq c hc]

theorem AgreeBelow.seqLeft (hpq : AgreeBelow n p q) (hp : p.NeverBack) (r : Parser β) :
    AgreeBelow n (p <* r) (q <* r) := by
  rw [seqLeft_eq_bind, seqLeft_eq_bind]
  exact hpq.bind hp fun _ => agreeBelow_refl _ _

theorem Advancing.agree_seqRight {r r' : Parser β} (hp : p.Advancing) (h : AgreeBelow n r r') :
    AgreeBelow (n + 1) (p *> r) (p *> r') := by
  rw [seqRight_eq_bind, seqRight_eq_bind]
  exact hp.agree_bind fun _ => h

/-- Brackets guard what stands between them. -/
theorem AgreeBelow.between {opening : Parser β} (hpq : AgreeBelow n p q) (ho : opening.Advancing)
    (hp : p.NeverBack) (closing : Parser γ) :
    AgreeBelow (n + 1) (p.between opening closing) (q.between opening closing) :=
  (ho.agree_seqRight hpq).seqLeft (ho.seqRight hp).neverBack closing

/-! ### Choice -/

theorem AgreeBelow.orElse {p' q' : Parser α} (hpq : AgreeBelow n p q) (h : AgreeBelow n p' q') :
    AgreeBelow n (p <|> p') (q <|> q') := by
  intro c hc
  show (Parser.orElse p fun _ => p').run c = (Parser.orElse q fun _ => q').run c
  simp only [Parser.orElse, hpq c hc, h c hc]

theorem AgreeBelow.attempt (hpq : AgreeBelow n p q) : AgreeBelow n p.attempt q.attempt := by
  intro c hc
  simp only [Parser.attempt, hpq c hc]

theorem AgreeBelow.optional (hpq : AgreeBelow n p q) : AgreeBelow n p.optional q.optional := by
  intro c hc
  simp only [Parser.optional, hpq c hc]

/-! ### Repetition -/

theorem AgreeBelow.rounds (hpq : AgreeBelow n p q) (hp : p.NeverBack) (m : Nat) (c : Cursor)
    (hc : c.rest.length < n) : rounds p m c = rounds q m c := by
  induction m generalizing c with
  | zero => rfl
  | succ m ih =>
    have hq := hpq c hc
    match hrun : p.run c with
    | ⟨true, .ok (a, c₁)⟩ =>
      have hlen : c₁.rest.length ≤ c.rest.length := hp c a c₁ (gives_of_run hrun)
      simp only [Parser.rounds, ← hq, hrun, ih c₁ (by omega)]
    | ⟨true, .error e⟩ => simp only [Parser.rounds, ← hq, hrun]
    | ⟨false, _⟩ => simp only [Parser.rounds, ← hq, hrun]

theorem AgreeBelow.many (hpq : AgreeBelow n p q) (hp : p.NeverBack) :
    AgreeBelow n p.many q.many := by
  intro c hc
  simp only [Parser.many, hpq.rounds hp _ c hc]

theorem AgreeBelow.sepBy {separator : Parser β} (hpq : AgreeBelow n p q) (hp : p.NeverBack)
    (hsep : separator.Advancing) : AgreeBelow n (p.sepBy separator) (q.sepBy separator) := by
  have hmore : AgreeBelow n (separator *> p).many (separator *> q).many :=
    ((hsep.agree_seqRight hpq).mono (Nat.le_succ n)).many (hsep.seqRight hp).neverBack
  have hlist : AgreeBelow n (p.sepBy1 separator) (q.sepBy1 separator) :=
    hpq.bind hp fun _ => hmore.bind (hsep.seqRight hp).neverBack.many fun _ => agreeBelow_refl _ _
  exact hlist.optional.map _

theorem AgreeBelow.chainLeft {operator : Parser (α → α → α)} (hpq : AgreeBelow n p q)
    (hp : p.NeverBack) (ho : operator.Advancing) :
    AgreeBelow n (p.chainLeft operator) (q.chainLeft operator) := by
  have hjoined : AgreeBelow n (joined operator p) (joined operator q) :=
    (ho.agree_bind fun _ => hpq.bind hp fun _ => agreeBelow_refl _ _).mono (Nat.le_succ n)
  have hmore : AgreeBelow n (joined operator p).many (joined operator q).many :=
    hjoined.many (advancing_joined ho hp).neverBack
  exact hpq.bind hp fun _ =>
    hmore.bind (advancing_joined ho hp).neverBack.many fun _ => agreeBelow_refl _ _

/-! ### Fixed points -/

/-- A rule whose reply depends on the parser inside it only where fewer characters are left. -/
structure Guarded (rule : Parser α → Parser α) : Prop where
  neverBack : ∀ p, p.NeverBack → (rule p).NeverBack
  agree : ∀ n p q, p.NeverBack → AgreeBelow n p q → AgreeBelow (n + 1) (rule p) (rule q)

variable {name : String} {rule : Parser α → Parser α}

theorem unroll_succ (name : String) (rule : Parser α → Parser α) (n : Nat) :
    unroll name rule (n + 1) = rule (unroll name rule n) := rfl

/-- Any number of openings of a rule has a property that the rule keeps and a refusal has. -/
theorem unroll_induction {P : Parser α → Prop} (hrefuse : P (refuse (.named name)))
    (hrule : ∀ p, P p → P (rule p)) (n : Nat) : P (unroll name rule n) := by
  induction n with
  | zero => exact hrefuse
  | succ n ih => exact hrule _ ih

theorem not_gives_refuse {e : Expectation} {c c' : Cursor} {a : α} :
    ¬ (refuse e : Parser α).Gives c a c' := by
  intro h
  cases h

theorem Guarded.neverBack_unroll (h : Guarded rule) (n : Nat) : (unroll name rule n).NeverBack :=
  unroll_induction (fun _ _ _ hg => absurd hg not_gives_refuse) h.neverBack n

theorem Guarded.neverBack_recursive (h : Guarded rule) : (recursive name rule).NeverBack :=
  fun c a c' hg => h.neverBack_unroll (c.rest.length + 1) c a c' hg

/-- Two numbers of openings cannot be told apart where both exceed the number of characters left. -/
theorem agreeBelow_unroll (h : Guarded rule) {k m n : Nat} (hm : k ≤ m) (hn : k ≤ n) :
    AgreeBelow k (unroll name rule m) (unroll name rule n) := by
  induction k generalizing m n with
  | zero => exact fun c hc => absurd hc (Nat.not_lt_zero _)
  | succ k ih =>
    obtain ⟨m, rfl⟩ : ∃ i, m = i + 1 := ⟨m - 1, by omega⟩
    obtain ⟨n, rfl⟩ : ∃ i, n = i + 1 := ⟨n - 1, by omega⟩
    -- One opening on both sides leaves one character less for the openings inside.
    exact h.agree k _ _ (h.neverBack_unroll m) (ih (by omega) (by omega))

/-- Opening a guarded rule often enough is what `recursive` does. -/
theorem agreeBelow_recursive (h : Guarded rule) (n : Nat) :
    AgreeBelow n (unroll name rule n) (recursive name rule) := by
  intro c hc
  exact agreeBelow_unroll h (k := c.rest.length + 1) (by omega) (Nat.le_refl _) c
    (Nat.lt_succ_self _)

/-- A guarded rule that refers to itself is a fixed point. -/
theorem recursive_eq (h : Guarded rule) : recursive name rule = rule (recursive name rule) := by
  ext c : 1
  -- At `c` the left side has one opening more than the parser inside it needs there.
  have hagree : AgreeBelow (c.rest.length + 1) (rule (unroll name rule c.rest.length))
      (rule (recursive name rule)) :=
    h.agree _ _ _ (h.neverBack_unroll _) (agreeBelow_recursive h _)
  show (unroll name rule (c.rest.length + 1)).run c = _
  rw [unroll_succ, hagree c (Nat.lt_succ_self _)]

end Parser

end Scriptlet
