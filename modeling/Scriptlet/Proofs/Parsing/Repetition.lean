import Scriptlet.Proofs.Parsing.Outcome

/-!
# What repetitions give

`Repeated step s as t` is a run of steps from `s` to `t` with the values `as`, and `Separated` is
the same with a separator between two steps. They serve on both sides: over cursors they say what
`many` and `sepBy` give, over texts they are the repetitions of a grammar.

`many p` gives the values of a run of `p` (`repeated_of_gives_many`). The other way round a run of
`p` is found to its end where `p` declines the text after it (`finds_many`), because `p` advances
and so the bound on the number of rounds is never reached.
-/

namespace Scriptlet

section Relations

variable {σ τ α β : Type}

/-- A step from one place to another, with a value. -/
abbrev Step (σ α : Type) :=
  σ → α → σ → Prop

/-- Steps without a value. -/
abbrev Bare (step : σ → σ → Prop) : Step σ Unit :=
  fun s _ t => step s t

/-- A step and then another, which may depend on the value of the first. -/
inductive Then (first : Step σ α) (second : α → Step σ β) : Step σ β
  | mk {s s₁ t : σ} {a : α} {b : β} : first s a s₁ → second a s₁ b t → Then first second s b t

/-- No step at all, with a value. -/
inductive Returns (a : α) : Step σ α
  | mk {s : σ} : Returns a s a s

/-- A step or none. -/
inductive Optionally (step : Step σ α) : Step σ (Option α)
  | some {s t : σ} {a : α} : step s a t → Optionally step s (some a) t
  | none {s : σ} : Optionally step s none s

/-- Steps in a row, with the list of their values. -/
inductive Repeated (step : Step σ α) : Step σ (List α)
  | nil {s : σ} : Repeated step s [] s
  | cons {s s₁ t : σ} {a : α} {as : List α} :
    step s a s₁ → Repeated step s₁ as t → Repeated step s (a :: as) t

/-- A step with a separator before it. -/
inductive After (separator : σ → σ → Prop) (step : Step σ α) : Step σ α
  | mk {s s₁ t : σ} {a : α} : separator s s₁ → step s₁ a t → After separator step s a t

/-- Steps with a separator between any two of them, with the list of their values. -/
inductive Separated (separator : σ → σ → Prop) (step : Step σ α) : Step σ (List α)
  | nil {s : σ} : Separated separator step s [] s
  | cons {s s₁ t : σ} {a : α} {as : List α} :
    step s a s₁ → Repeated (After separator step) s₁ as t → Separated separator step s (a :: as) t

/-- A run of steps is one of any steps that they amount to elsewhere. -/
theorem Repeated.map {step : Step σ α} {step' : Step τ α} {s t : σ} {as : List α}
    (h : Repeated step s as t) (view : σ → τ)
    (hstep : ∀ s a t, step s a t → step' (view s) a (view t)) :
    Repeated step' (view s) as (view t) := by
  induction h with
  | nil => exact .nil
  | cons hs _ ih => exact .cons (hstep _ _ _ hs) ih

/-- One more step after a run. -/
theorem Repeated.concat {step : Step σ α} {s s₁ t : σ} {as : List α} {a : α}
    (h : Repeated step s as s₁) (ha : step s₁ a t) : Repeated step s (as ++ [a]) t := by
  induction h with
  | nil => exact .cons ha .nil
  | cons hfirst _ ih => exact .cons hfirst (ih ha)

/-- A separated run of steps is one of any steps that they amount to elsewhere. -/
theorem Separated.map {separator : σ → σ → Prop} {separator' : τ → τ → Prop}
    {step : Step σ α} {step' : Step τ α} {s t : σ} {as : List α}
    (h : Separated separator step s as t) (view : σ → τ)
    (hsep : ∀ s t, separator s t → separator' (view s) (view t))
    (hstep : ∀ s a t, step s a t → step' (view s) a (view t)) :
    Separated separator' step' (view s) as (view t) := by
  cases h with
  | nil => exact .nil
  | cons hs hmore =>
    refine .cons (hstep _ _ _ hs) (hmore.map view fun s a t hafter => ?_)
    cases hafter with
    | mk hseparator hnext => exact .mk (hsep _ _ hseparator) (hstep _ _ _ hnext)

section Follow

variable {separator : σ → σ → Prop} {step : Step σ α} {follows : σ → Prop} {s t : σ} {as : List α}

theorem Repeated.follow (h : Repeated (After separator step) s as t)
    (hsep : ∀ s t, separator s t → follows s) (ht : follows t) :
    follows s ∧ Repeated (After separator fun s a t => step s a t ∧ follows t) s as t := by
  induction h with
  | nil => exact ⟨ht, .nil⟩
  | cons hafter _ ih =>
    obtain ⟨hfollows, hrest⟩ := ih ht
    cases hafter with
    | mk hseparator hstep =>
      exact ⟨hsep _ _ hseparator, .cons (.mk hseparator ⟨hstep, hfollows⟩) hrest⟩

/-- In a separated run whatever holds before each separator and at the end of the run holds after
each of its steps. -/
theorem Separated.follow (h : Separated separator step s as t)
    (hsep : ∀ s t, separator s t → follows s) (ht : follows t) :
    Separated separator (fun s a t => step s a t ∧ follows t) s as t := by
  cases h with
  | nil => exact .nil
  | cons hstep hmore =>
    obtain ⟨hfollows, hrest⟩ := hmore.follow hsep ht
    exact .cons ⟨hstep, hfollows⟩ hrest

end Follow

end Relations

namespace Parser

variable {α β : Type} {p : Parser α} {c c' : Cursor}

/-! ### Zero or more -/

/-- Any number of rounds is a run. -/
theorem repeated_of_rounds {n : Nat} {as : List α} (h : rounds p n c = .ok (as, c')) :
    Repeated p.Gives c as c' := by
  induction n generalizing c as with
  | zero =>
    obtain ⟨rfl, rfl⟩ := Prod.mk.inj (Except.ok.inj h)
    exact .nil
  | succ n ih =>
    unfold rounds at h
    split at h
    · rename_i a rest hrun
      cases hmore : rounds p n rest with
      | error e =>
        rw [hmore] at h
        cases h
      | ok last =>
        obtain ⟨more, stop⟩ := last
        rw [hmore] at h
        obtain ⟨rfl, rfl⟩ := Prod.mk.inj (Except.ok.inj h)
        exact .cons (gives_of_run hrun) (ih hmore)
    · cases h
    · obtain ⟨rfl, rfl⟩ := Prod.mk.inj (Except.ok.inj h)
      exact .nil

/-- The values of `many p` are those of a run of `p`. -/
theorem repeated_of_gives_many {as : List α} (h : p.many.Gives c as c') :
    Repeated p.Gives c as c' := by
  unfold Gives many at h
  dsimp only at h
  split at h
  · rename_i values stop hrounds
    obtain ⟨rfl, rfl⟩ := Prod.mk.inj (Except.ok.inj h)
    exact repeated_of_rounds hrounds
  · cases h

theorem neverBack_of_repeated (hp : p.NeverBack) {as : List α} (h : Repeated p.Gives c as c') :
    c'.rest.length ≤ c.rest.length := by
  induction h with
  | nil => exact Nat.le_refl _
  | cons hstep _ ih => exact Nat.le_trans ih (hp _ _ _ hstep)

theorem NeverBack.many (hp : p.NeverBack) : p.many.NeverBack :=
  fun _ _ _ h => neverBack_of_repeated hp (repeated_of_gives_many h)

/-- A run of an advancing parser is found whole by more rounds than there are characters, up to a
text that the parser declines. -/
theorem rounds_of_repeated (hp : p.Advancing) {s t : List Char} {as : List α}
    (h : Repeated p.Finds s as t) (ht : p.Declines t) (n : Nat) (hn : s.length < n)
    (c : Cursor) (hc : c.rest = s) : ∃ c', rounds p n c = .ok (as, c') ∧ c'.rest = t := by
  induction h generalizing n c with
  | nil =>
    obtain ⟨n, rfl⟩ : ∃ m, n = m + 1 := ⟨n - 1, by omega⟩
    obtain ⟨f, hf⟩ := ht c hc
    exact ⟨c, by rw [rounds, hf], hc⟩
  | cons hstep _ ih =>
    obtain ⟨n, rfl⟩ : ∃ m, n = m + 1 := ⟨n - 1, by omega⟩
    obtain ⟨c₁, hgives, hc₁⟩ := hstep c hc
    -- The step consumes, so it is not taken for the end, and one round less is enough for the rest.
    obtain ⟨hconsumed, hlt⟩ := hp _ _ _ hgives
    obtain ⟨consumed, hrun⟩ := run_of_gives hgives
    rw [hrun] at hconsumed
    rw [hc, hc₁] at hlt
    obtain ⟨c', hrounds, hc'⟩ := ih ht n (by omega) c₁ hc₁
    refine ⟨c', ?_, hc'⟩
    rw [rounds, hrun, show consumed = true from hconsumed]
    simp only [hrounds]
    rfl

/-- A run of an advancing parser is found whole, up to a text that the parser declines. -/
theorem finds_many (hp : p.Advancing) {s t : List Char} {as : List α}
    (h : Repeated p.Finds s as t) (ht : p.Declines t) : p.many.Finds s as t := by
  intro c hc
  obtain ⟨c', hrounds, hc'⟩ :=
    rounds_of_repeated hp h ht (c.rest.length + 1) (by rw [hc]; omega) c hc
  refine ⟨c', ?_, hc'⟩
  unfold Gives many
  simp only [hrounds]
  rfl

/-! ### Lists with separators -/

variable {separator : Parser β}

/-- The values of `sepBy` are those of a separated run. -/
theorem separated_of_gives_sepBy {as : List α} (h : (p.sepBy separator).Gives c as c') :
    Separated (fun c c' => ∃ b, separator.Gives c b c') p.Gives c as c' := by
  obtain ⟨o, ho, rfl⟩ := gives_map_iff.1 h
  rcases gives_optional_iff.1 ho with ⟨values, rfl, hsome⟩ | ⟨rfl, rfl, -⟩
  · obtain ⟨first, c₁, hfirst, hrest⟩ := gives_bind_iff.1 hsome
    obtain ⟨others, c₂, hothers, hpure⟩ := gives_bind_iff.1 hrest
    obtain ⟨rfl, rfl⟩ := gives_pure_iff.1 hpure
    refine .cons hfirst ((repeated_of_gives_many hothers).map id fun d a d' hstep => ?_)
    obtain ⟨b, d₁, hsep, hitem⟩ := gives_seqRight_iff.1 hstep
    exact .mk ⟨b, hsep⟩ hitem
  · exact .nil

/-- A separated run is found whole where what follows it is no separator. An empty one is found
where the parser declines. -/
theorem finds_sepBy (hp : p.NeverBack) (hsep : separator.Advancing) {s t : List Char} {as : List α}
    (h : Separated (fun s t => ∃ b, separator.Finds s b t) p.Finds s as t)
    (ht : separator.Declines t) (hnil : as = [] → p.Declines t) :
    (p.sepBy separator).Finds s as t := by
  cases h with
  | nil =>
    have hnone : (p.sepBy1 separator).optional.Finds s none s :=
      ((hnil rfl).bind _).optional
    exact hnone.map _
  | @cons _ s₁ _ first others hfirst hmore =>
    have hothers : (separator *> p).many.Finds s₁ others t := by
      refine finds_many (hsep.seqRight hp) (hmore.map id fun d a d' hafter => ?_)
        (ht.seqRight p)
      cases hafter with
      | mk hseparator hitem =>
        obtain ⟨b, hb⟩ := hseparator
        exact hb.seqRight hitem
    have hlist : (p.sepBy1 separator).Finds s (first :: others) t :=
      hfirst.bind (hothers.bind (finds_pure _ _))
    exact hlist.optional.map _

theorem NeverBack.sepBy (hp : p.NeverBack) (hsep : separator.NeverBack) :
    (p.sepBy separator).NeverBack :=
  (NeverBack.optional (hp.bind fun _ => (hsep.seqRight hp).many.bind fun _ =>
    neverBack_pure _)).map _

/-! ### Chains of operators -/

/-- An operator and the operand after it. -/
def joined (operator : Parser (α → α → α)) (p : Parser α) : Parser ((α → α → α) × α) := do
  let join ← operator
  let operand ← p
  return (join, operand)

variable {operator : Parser (α → α → α)}

theorem chainLeft_eq : p.chainLeft operator = (do
    let first ← p
    let others ← (joined operator p).many
    return others.foldl (fun left step => step.1 left step.2) first) := rfl

/-- A chain gives its operands joined from the left. -/
theorem gives_chainLeft_iff {a : α} :
    (p.chainLeft operator).Gives c a c' ↔ ∃ first c₁ others, p.Gives c first c₁ ∧
      (joined operator p).many.Gives c₁ others c' ∧
      a = others.foldl (fun left step => step.1 left step.2) first := by
  rw [chainLeft_eq, gives_bind_iff]
  constructor
  · rintro ⟨first, c₁, hfirst, hrest⟩
    obtain ⟨others, c₂, hothers, hpure⟩ := gives_bind_iff.1 hrest
    obtain ⟨rfl, rfl⟩ := gives_pure_iff.1 hpure
    exact ⟨first, c₁, others, hfirst, hothers, rfl⟩
  · rintro ⟨first, c₁, others, hfirst, hothers, rfl⟩
    exact ⟨first, c₁, hfirst, gives_bind_iff.2
      ⟨others, c', hothers, gives_pure_iff.2 ⟨rfl, rfl⟩⟩⟩

theorem gives_of_joined {join : α → α → α} {a : α} (h : (joined operator p).Gives c (join, a) c') :
    ∃ c₁, operator.Gives c join c₁ ∧ p.Gives c₁ a c' := by
  obtain ⟨join', c₁, hoperator, hrest⟩ := gives_bind_iff.1 h
  obtain ⟨a', c₂, hoperand, hpure⟩ := gives_bind_iff.1 hrest
  obtain ⟨heq, rfl⟩ := gives_pure_iff.1 hpure
  obtain ⟨rfl, rfl⟩ := Prod.mk.inj heq
  exact ⟨c₁, hoperator, hoperand⟩

theorem finds_joined {s s₁ t : List Char} {join : α → α → α} {a : α}
    (ho : operator.Finds s join s₁) (hp : p.Finds s₁ a t) :
    (joined operator p).Finds s (join, a) t :=
  ho.bind (hp.bind (finds_pure _ _))

theorem advancing_joined (ho : operator.Advancing) (hp : p.NeverBack) :
    (joined operator p).Advancing :=
  ho.bind fun _ => hp.bind fun _ => neverBack_pure _

theorem finds_chainLeft (ho : operator.Advancing) (hp : p.NeverBack) {s s₁ t : List Char}
    {first : α} {others : List ((α → α → α) × α)} (hfirst : p.Finds s first s₁)
    (hothers : Repeated (joined operator p).Finds s₁ others t) (ht : operator.Declines t) :
    (p.chainLeft operator).Finds s
      (others.foldl (fun left step => step.1 left step.2) first) t := by
  have hmany : (joined operator p).many.Finds s₁ others t :=
    finds_many (advancing_joined ho hp) hothers (ht.bind _)
  exact hfirst.bind (hmany.bind (finds_pure _ _))

theorem Advancing.chainLeft (hp : p.Advancing) (ho : operator.Advancing) :
    (p.chainLeft operator).Advancing :=
  hp.bind fun _ => (advancing_joined ho hp.neverBack).neverBack.many.bind fun _ =>
    neverBack_pure _

end Parser

end Scriptlet
