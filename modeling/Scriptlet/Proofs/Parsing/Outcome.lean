import Scriptlet.Parsing.Repetition

/-!
# What parsers give and refuse

`p.Gives c a c'` says that `p` succeeds at `c` with `a` and stops at `c'`, and `p.Refuses c` that it
fails there without consuming, which is what leaves the alternatives to `p` open. Each combinator
has one equivalence for either relation, so that later proofs speak of these two and never of
replies.

The converse direction goes from texts to parsers: `p.Finds s a t` says that `p` gives `a` and
leaves `t` wherever the remaining text is `s`, and `p.Declines s` that it refuses there. Both
compose along the combinators.

A parser is `Advancing` when it succeeds only by consuming, with fewer characters left than before,
and `NeverBack` when at least it leaves no more of them. This is what bounds loops and rules that
refer to themselves.
-/

namespace Scriptlet

namespace Parser

variable {α β γ : Type} {p q : Parser α} {c c' : Cursor} {a : α}

/-- `p` succeeds at `c` with the value `a` and stops at `c'`. -/
def Gives (p : Parser α) (c : Cursor) (a : α) (c' : Cursor) : Prop :=
  (p.run c).result = .ok (a, c')

/-- `p` fails at `c` without consuming, so that an alternative to it is tried. -/
def Refuses (p : Parser α) (c : Cursor) : Prop :=
  ∃ f, p.run c = ⟨false, .error f⟩

theorem gives_of_run {consumed : Bool} (h : p.run c = ⟨consumed, .ok (a, c')⟩) :
    p.Gives c a c' := by
  rw [Gives, h]

theorem run_of_gives (h : p.Gives c a c') : ∃ consumed, p.run c = ⟨consumed, .ok (a, c')⟩ := by
  unfold Gives at h
  cases hrun : p.run c with
  | mk consumed result =>
    rw [hrun] at h
    exact ⟨consumed, by rw [show result = .ok (a, c') from h]⟩

/-- A parser has at most one value and one stop at a cursor. -/
theorem Gives.unique {b : α} {d : Cursor} (h : p.Gives c a c') (h' : p.Gives c b d) :
    a = b ∧ c' = d := by
  have heq : (a, c') = (b, d) := Except.ok.inj (h.symm.trans h')
  exact ⟨congrArg Prod.fst heq, congrArg Prod.snd heq⟩

/-- Where a parser refuses it gives nothing. -/
theorem Refuses.not_gives (h : p.Refuses c) : ¬ p.Gives c a c' := by
  obtain ⟨f, hf⟩ := h
  intro hg
  rw [Gives, hf] at hg
  cases hg

/-! ### Sequencing -/

@[simp]
theorem gives_pure_iff {b : α} : (pure b : Parser α).Gives c a c' ↔ a = b ∧ c' = c := by
  rw [Gives, run_pure]
  constructor
  · intro h
    have heq : (b, c) = (a, c') := Except.ok.inj h
    exact ⟨(congrArg Prod.fst heq).symm, (congrArg Prod.snd heq).symm⟩
  · rintro ⟨rfl, rfl⟩
    rfl

/-- Two parts in a row give what the second gives where the first stops. -/
theorem gives_bind_iff {f : α → Parser β} {b : β} :
    (p >>= f).Gives c b c' ↔ ∃ a c₁, p.Gives c a c₁ ∧ (f a).Gives c₁ b c' := by
  constructor
  · intro h
    match hrun : p.run c with
    | ⟨_, .error _⟩ =>
      rw [Gives, run_bind_of_error hrun] at h
      cases h
    | ⟨_, .ok (a, c₁)⟩ =>
      rw [Gives, run_bind_of_ok hrun] at h
      exact ⟨a, c₁, gives_of_run hrun, h⟩
  · rintro ⟨a, c₁, hp, hf⟩
    obtain ⟨consumed, hrun⟩ := run_of_gives hp
    rw [Gives, run_bind_of_ok hrun]
    exact hf

theorem gives_map_iff {f : α → β} {b : β} :
    (f <$> p).Gives c b c' ↔ ∃ a, p.Gives c a c' ∧ f a = b := by
  rw [← bind_pure_comp, gives_bind_iff]
  constructor
  · rintro ⟨a, c₁, hp, hb⟩
    obtain ⟨rfl, rfl⟩ := gives_pure_iff.1 hb
    exact ⟨a, hp, rfl⟩
  · rintro ⟨a, hp, rfl⟩
    exact ⟨a, c', hp, gives_pure_iff.2 ⟨rfl, rfl⟩⟩

theorem gives_seqRight_iff {r : Parser β} {b : β} :
    (p *> r).Gives c b c' ↔ ∃ a c₁, p.Gives c a c₁ ∧ r.Gives c₁ b c' := by
  rw [seqRight_eq_bind, gives_bind_iff]

theorem gives_seqLeft_iff {r : Parser β} :
    (p <* r).Gives c a c' ↔ ∃ b c₁, p.Gives c a c₁ ∧ r.Gives c₁ b c' := by
  rw [seqLeft_eq_bind, gives_bind_iff]
  constructor
  · rintro ⟨a', c₁, hp, h⟩
    obtain ⟨b, c₂, hr, hpure⟩ := gives_bind_iff.1 h
    obtain ⟨rfl, rfl⟩ := gives_pure_iff.1 hpure
    exact ⟨b, c₁, hp, hr⟩
  · rintro ⟨b, c₁, hp, hr⟩
    exact ⟨a, c₁, hp, gives_bind_iff.2 ⟨b, c', hr, gives_pure_iff.2 ⟨rfl, rfl⟩⟩⟩

/-- Something in brackets is read when both brackets are. -/
theorem gives_between_iff {opening : Parser β} {closing : Parser γ} :
    (p.between opening closing).Gives c a c' ↔
      ∃ o c₁ c₂ z, opening.Gives c o c₁ ∧ p.Gives c₁ a c₂ ∧ closing.Gives c₂ z c' := by
  rw [between, gives_seqLeft_iff]
  constructor
  · rintro ⟨z, c₂, h, hz⟩
    obtain ⟨o, c₁, ho, hp⟩ := gives_seqRight_iff.1 h
    exact ⟨o, c₁, c₂, z, ho, hp, hz⟩
  · rintro ⟨o, c₁, c₂, z, ho, hp, hz⟩
    exact ⟨z, c₂, gives_seqRight_iff.2 ⟨o, c₁, ho, hp⟩, hz⟩

/-- A refusal of the first part is one of the whole. -/
theorem Refuses.bind (h : p.Refuses c) (f : α → Parser β) : (p >>= f).Refuses c := by
  obtain ⟨e, he⟩ := h
  exact ⟨e, run_bind_of_error he f⟩

theorem Refuses.map (h : p.Refuses c) (f : α → β) : (f <$> p).Refuses c := by
  rw [← bind_pure_comp]
  exact h.bind _

theorem Refuses.seqRight (h : p.Refuses c) (r : Parser β) : (p *> r).Refuses c := by
  rw [seqRight_eq_bind]
  exact h.bind _

theorem Refuses.seqLeft (h : p.Refuses c) (r : Parser β) : (p <* r).Refuses c := by
  rw [seqLeft_eq_bind]
  exact h.bind _

theorem Refuses.between {opening : Parser β} (h : opening.Refuses c) (p : Parser α)
    (closing : Parser γ) : (p.between opening closing).Refuses c :=
  (h.seqRight p).seqLeft closing

/-! ### Choice -/

/-- Ordered choice gives what the first alternative gives, or the second where the first refuses. -/
theorem gives_orElse_iff :
    (p <|> q).Gives c a c' ↔ p.Gives c a c' ∨ p.Refuses c ∧ q.Gives c a c' := by
  show ((Parser.orElse p fun _ => q).run c).result = _ ↔ _
  match hrun : p.run c with
  | ⟨false, .error f⟩ =>
    have hp : ¬ p.Gives c a c' := Refuses.not_gives ⟨f, hrun⟩
    have hq : ((Parser.orElse p fun _ => q).run c).result = .ok (a, c') ↔ q.Gives c a c' := by
      simp only [Parser.orElse, hrun, Gives]
      match hq : q.run c with
      | ⟨_, .error _⟩ => simp
      | ⟨_, .ok _⟩ => simp
    rw [hq]
    exact ⟨fun h => .inr ⟨⟨f, hrun⟩, h⟩, fun h => h.elim (absurd · hp) (·.2)⟩
  | ⟨true, .error f⟩ =>
    have hp : ¬ p.Gives c a c' := by
      rw [Gives, hrun]
      exact nofun
    have hr : ¬ p.Refuses c := by
      rintro ⟨g, hg⟩
      rw [hrun] at hg
      cases hg
    simp only [Parser.orElse, hrun, hp, hr, false_and, or_self, iff_false]
    exact nofun
  | ⟨consumed, .ok (b, d)⟩ =>
    have hr : ¬ p.Refuses c := fun h => h.not_gives (gives_of_run hrun)
    have hp : p.Gives c a c' ↔ (Except.ok (b, d) : Except Failure (α × Cursor)) = .ok (a, c') := by
      rw [Gives, hrun]
    simp only [Parser.orElse, hrun, hr, false_and, or_false, hp]

/-- Ordered choice refuses where both alternatives do. -/
theorem refuses_orElse_iff : (p <|> q).Refuses c ↔ p.Refuses c ∧ q.Refuses c := by
  show (∃ f, (Parser.orElse p fun _ => q).run c = ⟨false, .error f⟩) ↔ _
  unfold Refuses Parser.orElse
  match hrun : p.run c with
  | ⟨false, .error f⟩ =>
    match hq : q.run c with
    | ⟨false, .error g⟩ => simp [hrun, hq]
    | ⟨true, .error g⟩ => simp [hrun, hq]
    | ⟨_, .ok _⟩ => simp [hrun, hq]
  | ⟨true, .error f⟩ => simp [hrun]
  | ⟨_, .ok _⟩ => simp [hrun]

@[simp]
theorem gives_attempt_iff : p.attempt.Gives c a c' ↔ p.Gives c a c' := by
  unfold Gives attempt
  match hrun : p.run c with
  | ⟨_, .error _⟩ => simp [hrun]
  | ⟨_, .ok _⟩ => simp [hrun]

/-- An attempt refuses wherever it gives nothing. -/
theorem refuses_attempt_iff : p.attempt.Refuses c ↔ ∀ a c', ¬ p.Gives c a c' := by
  unfold Refuses attempt Gives
  match hrun : p.run c with
  | ⟨_, .error _⟩ => simp [hrun]
  | ⟨_, .ok (a, c')⟩ => simp [hrun]

/-- An optional part gives what is there, and `none` where it is refused. -/
theorem gives_optional_iff {o : Option α} :
    p.optional.Gives c o c' ↔ (∃ a, o = some a ∧ p.Gives c a c') ∨ o = none ∧ c' = c ∧
      p.Refuses c := by
  unfold Gives optional Refuses
  match hrun : p.run c with
  | ⟨false, .error _⟩ => simp [hrun, eq_comm]
  | ⟨true, .error _⟩ => simp [hrun, Reply.map, Except.map]
  | ⟨_, .ok (a, d)⟩ =>
    simp only [hrun, Reply.map, Except.map, Except.ok.injEq, Prod.mk.injEq, Reply.mk.injEq,
      reduceCtorEq, and_false, exists_false, or_false]
    grind

@[simp]
theorem gives_label_iff {name : String} : (p.label name).Gives c a c' ↔ p.Gives c a c' := by
  unfold Gives label
  match hrun : p.run c with
  | ⟨false, .error f⟩ =>
    simp only [hrun]
    split <;> simp [Reply.refusal]
  | ⟨true, .error _⟩ => simp [hrun]
  | ⟨_, .ok _⟩ => simp [hrun]

@[simp]
theorem refuses_label_iff {name : String} : (p.label name).Refuses c ↔ p.Refuses c := by
  unfold Refuses label
  match hrun : p.run c with
  | ⟨false, .error f⟩ =>
    simp only [hrun]
    split <;> simp [Reply.refusal]
  | ⟨true, .error _⟩ => simp [hrun]
  | ⟨_, .ok _⟩ => simp [hrun]

/-! ### From texts to parsers -/

section Search

variable {s t u : List Char}

/-- Wherever the remaining text is `s`, the parser gives `a` and leaves `t`. -/
def Finds (p : Parser α) (s : List Char) (a : α) (t : List Char) : Prop :=
  ∀ c : Cursor, c.rest = s → ∃ c', p.Gives c a c' ∧ c'.rest = t

/-- Wherever the remaining text is `s`, the parser refuses. -/
def Declines (p : Parser α) (s : List Char) : Prop :=
  ∀ c : Cursor, c.rest = s → p.Refuses c

theorem finds_pure (a : α) (s : List Char) : (pure a : Parser α).Finds s a s :=
  fun c hc => ⟨c, gives_pure_iff.2 ⟨rfl, rfl⟩, hc⟩

/-- A parser finds at most one thing at a text. -/
theorem Finds.unique {b : α} (h : p.Finds s a t) (h' : p.Finds s b u) : a = b ∧ t = u := by
  obtain ⟨c, hc, rfl⟩ := h ⟨0, s⟩ rfl
  obtain ⟨d, hd, rfl⟩ := h' ⟨0, s⟩ rfl
  obtain ⟨rfl, rfl⟩ := hc.unique hd
  exact ⟨rfl, rfl⟩

theorem Declines.not_finds (h : p.Declines s) : ¬ p.Finds s a t := by
  intro h'
  obtain ⟨c, hc, -⟩ := h' ⟨0, s⟩ rfl
  exact (h ⟨0, s⟩ rfl).not_gives hc

theorem declines_refuse (e : Expectation) (s : List Char) : (refuse e : Parser α).Declines s :=
  fun c _ => ⟨.single c.pos e, rfl⟩

theorem Finds.bind {f : α → Parser β} {b : β} (hp : p.Finds s a t) (hf : (f a).Finds t b u) :
    (p >>= f).Finds s b u := by
  intro c hc
  obtain ⟨c₁, hg, hc₁⟩ := hp c hc
  obtain ⟨c₂, hg', hc₂⟩ := hf c₁ hc₁
  exact ⟨c₂, gives_bind_iff.2 ⟨a, c₁, hg, hg'⟩, hc₂⟩

theorem Finds.map (hp : p.Finds s a t) (f : α → β) : (f <$> p).Finds s (f a) t := by
  rw [← bind_pure_comp]
  exact hp.bind (finds_pure (f a) t)

theorem Finds.seqRight {r : Parser β} {b : β} (hp : p.Finds s a t) (hr : r.Finds t b u) :
    (p *> r).Finds s b u := by
  rw [seqRight_eq_bind]
  exact hp.bind hr

theorem Finds.seqLeft {r : Parser β} {b : β} (hp : p.Finds s a t) (hr : r.Finds t b u) :
    (p <* r).Finds s a u := by
  rw [seqLeft_eq_bind]
  exact hp.bind (hr.bind (finds_pure a u))

theorem Finds.between {opening : Parser β} {closing : Parser γ} {o : β} {z : γ} {v : List Char}
    (ho : opening.Finds s o t) (hp : p.Finds t a u) (hz : closing.Finds u z v) :
    (p.between opening closing).Finds s a v :=
  (ho.seqRight hp).seqLeft hz

theorem Finds.orElse (hp : p.Finds s a t) (q : Parser α) : (p <|> q).Finds s a t := by
  intro c hc
  obtain ⟨c', hg, hc'⟩ := hp c hc
  exact ⟨c', gives_orElse_iff.2 (.inl hg), hc'⟩

theorem Declines.orElse (hp : p.Declines s) (hq : q.Finds s a t) : (p <|> q).Finds s a t := by
  intro c hc
  obtain ⟨c', hg, hc'⟩ := hq c hc
  exact ⟨c', gives_orElse_iff.2 (.inr ⟨hp c hc, hg⟩), hc'⟩

theorem Finds.attempt (hp : p.Finds s a t) : p.attempt.Finds s a t := by
  intro c hc
  obtain ⟨c', hg, hc'⟩ := hp c hc
  exact ⟨c', gives_attempt_iff.2 hg, hc'⟩

theorem Finds.label (hp : p.Finds s a t) (name : String) : (p.label name).Finds s a t := by
  intro c hc
  obtain ⟨c', hg, hc'⟩ := hp c hc
  exact ⟨c', gives_label_iff.2 hg, hc'⟩

theorem Finds.optional (hp : p.Finds s a t) : p.optional.Finds s (some a) t := by
  intro c hc
  obtain ⟨c', hg, hc'⟩ := hp c hc
  exact ⟨c', gives_optional_iff.2 (.inl ⟨a, rfl, hg⟩), hc'⟩

theorem Declines.optional (hp : p.Declines s) : p.optional.Finds s none s :=
  fun c hc => ⟨c, gives_optional_iff.2 (.inr ⟨rfl, rfl, hp c hc⟩), hc⟩

theorem Declines.bind (hp : p.Declines s) (f : α → Parser β) : (p >>= f).Declines s :=
  fun c hc => (hp c hc).bind f

theorem Declines.map (hp : p.Declines s) (f : α → β) : (f <$> p).Declines s :=
  fun c hc => (hp c hc).map f

theorem Declines.seqRight (hp : p.Declines s) (r : Parser β) : (p *> r).Declines s :=
  fun c hc => (hp c hc).seqRight r

theorem Declines.seqLeft (hp : p.Declines s) (r : Parser β) : (p <* r).Declines s :=
  fun c hc => (hp c hc).seqLeft r

theorem Declines.between {opening : Parser β} (ho : opening.Declines s) (p : Parser α)
    (closing : Parser γ) : (p.between opening closing).Declines s :=
  fun c hc => (ho c hc).between p closing

theorem Declines.or (hp : p.Declines s) (hq : q.Declines s) : (p <|> q).Declines s :=
  fun c hc => refuses_orElse_iff.2 ⟨hp c hc, hq c hc⟩

theorem Declines.label (hp : p.Declines s) (name : String) : (p.label name).Declines s :=
  fun c hc => refuses_label_iff.2 (hp c hc)

theorem Declines.attempt (hp : p.Declines s) : p.attempt.Declines s :=
  fun c hc => refuses_attempt_iff.2 fun _ _ => (hp c hc).not_gives

/-- An attempt whose first part succeeds and whose second part refuses is given up. -/
theorem Finds.attempt_declines {f : α → Parser β} (hp : p.Finds s a t) (hf : (f a).Declines t) :
    (p >>= f).attempt.Declines s := by
  intro c hc
  refine refuses_attempt_iff.2 fun b c' hg => ?_
  obtain ⟨a', c₁, hp', hf'⟩ := gives_bind_iff.1 hg
  obtain ⟨d, hd, hdt⟩ := hp c hc
  obtain ⟨rfl, rfl⟩ := hd.unique hp'
  exact (hf d hdt).not_gives hf'

end Search

/-! ### Progress -/

/-- A success leaves no more characters than there were. -/
def NeverBack (p : Parser α) : Prop :=
  ∀ c a c', p.Gives c a c' → c'.rest.length ≤ c.rest.length

/-- A success has consumed input and leaves fewer characters than there were. -/
def Advancing (p : Parser α) : Prop :=
  ∀ c a c', p.Gives c a c' → (p.run c).consumed = true ∧ c'.rest.length < c.rest.length

theorem Advancing.neverBack (hp : p.Advancing) : p.NeverBack :=
  fun c a c' h => Nat.le_of_lt (hp c a c' h).2

theorem neverBack_pure (a : α) : (pure a : Parser α).NeverBack := by
  intro c b c' h
  obtain ⟨rfl, rfl⟩ := gives_pure_iff.1 h
  exact Nat.le_refl _

theorem NeverBack.bind {f : α → Parser β} (hp : p.NeverBack) (hf : ∀ a, (f a).NeverBack) :
    (p >>= f).NeverBack := by
  intro c b c' h
  obtain ⟨a, c₁, hg, hg'⟩ := gives_bind_iff.1 h
  exact Nat.le_trans (hf a c₁ b c' hg') (hp c a c₁ hg)

theorem Advancing.bind {f : α → Parser β} (hp : p.Advancing) (hf : ∀ a, (f a).NeverBack) :
    (p >>= f).Advancing := by
  intro c b c' h
  obtain ⟨a, c₁, hg, hg'⟩ := gives_bind_iff.1 h
  obtain ⟨hconsumed, hlt⟩ := hp c a c₁ hg
  refine ⟨?_, Nat.lt_of_le_of_lt (hf a c₁ b c' hg') hlt⟩
  obtain ⟨consumed, hrun⟩ := run_of_gives hg
  rw [hrun] at hconsumed
  rw [run_bind_of_ok hrun, Reply.after, show consumed = true from hconsumed, Bool.true_or]

theorem NeverBack.map (hp : p.NeverBack) (f : α → β) : (f <$> p).NeverBack := by
  rw [← bind_pure_comp]
  exact hp.bind fun a => neverBack_pure (f a)

theorem Advancing.map (hp : p.Advancing) (f : α → β) : (f <$> p).Advancing := by
  rw [← bind_pure_comp]
  exact hp.bind fun a => neverBack_pure (f a)

theorem NeverBack.seqRight {r : Parser β} (hp : p.NeverBack) (hr : r.NeverBack) :
    (p *> r).NeverBack := by
  rw [seqRight_eq_bind]
  exact hp.bind fun _ => hr

theorem Advancing.seqRight {r : Parser β} (hp : p.Advancing) (hr : r.NeverBack) :
    (p *> r).Advancing := by
  rw [seqRight_eq_bind]
  exact hp.bind fun _ => hr

theorem Advancing.seqLeft {r : Parser β} (hp : p.Advancing) (hr : r.NeverBack) :
    (p <* r).Advancing := by
  rw [seqLeft_eq_bind]
  exact hp.bind fun a => hr.bind fun _ => neverBack_pure a

theorem Advancing.between {opening : Parser β} {closing : Parser γ} (ho : opening.Advancing)
    (hp : p.NeverBack) (hz : closing.NeverBack) : (p.between opening closing).Advancing :=
  (ho.seqRight hp).seqLeft hz

/-- Where the first alternative does not refuse, the reply of a choice is the first one's. -/
theorem run_orElse_of_gives (h : p.Gives c a c') : (p <|> q).run c = p.run c := by
  obtain ⟨consumed, hrun⟩ := run_of_gives h
  show (Parser.orElse p fun _ => q).run c = _
  simp only [Parser.orElse, hrun]

/-- Where the first alternative refuses and the second succeeds, the reply is the second one's. -/
theorem run_orElse_of_refuses (h : p.Refuses c) (hq : q.Gives c a c') :
    (p <|> q).run c = q.run c := by
  obtain ⟨f, hf⟩ := h
  obtain ⟨consumed, hrun⟩ := run_of_gives hq
  show (Parser.orElse p fun _ => q).run c = _
  simp only [Parser.orElse, hf, hrun]

theorem Advancing.orElse (hp : p.Advancing) (hq : q.Advancing) : (p <|> q).Advancing := by
  intro c a c' h
  rcases gives_orElse_iff.1 h with h | ⟨hr, h⟩
  · rw [run_orElse_of_gives h]
    exact hp c a c' h
  · rw [run_orElse_of_refuses hr h]
    exact hq c a c' h

theorem Advancing.attempt (hp : p.Advancing) : p.attempt.Advancing := by
  intro c a c' h
  have hg := gives_attempt_iff.1 h
  obtain ⟨consumed, hrun⟩ := run_of_gives hg
  have hsame : p.attempt.run c = p.run c := by simp only [Parser.attempt, hrun]
  rw [hsame]
  exact hp c a c' hg

theorem Advancing.label (hp : p.Advancing) (name : String) : (p.label name).Advancing := by
  intro c a c' h
  have hg := gives_label_iff.1 h
  obtain ⟨consumed, hrun⟩ := run_of_gives hg
  have hsame : (p.label name).run c = p.run c := by simp only [Parser.label, hrun]
  rw [hsame]
  exact hp c a c' hg

theorem NeverBack.optional (hp : p.NeverBack) : p.optional.NeverBack := by
  intro c o c' h
  rcases gives_optional_iff.1 h with ⟨a, -, hg⟩ | ⟨-, rfl, -⟩
  · exact hp c a c' hg
  · exact Nat.le_refl _

end Parser

end Scriptlet
