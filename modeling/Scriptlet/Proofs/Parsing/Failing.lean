import Scriptlet.Proofs.Parsing.Recursion

/-!
# How parsers fail

`p.Fails c f` says that `p` fails at `c` and reports `f`, whether or not it has consumed input. Each
combinator has one lemma that traces its failure back to a part that failed: two parts in a row fail
in the first part, or in the second where the first stopped (`fails_bind`); a choice reports what
its alternatives report, joined (`fails_orElse`); a loop fails in one of its rounds (`fails_many`).
So in the end every expectation comes from a lexeme, a label or the end of the text.

The number of bytes before a cursor and after it together is the same all along a run
(`Cursor.finish`). It ties the positions in failures to the characters that are left there.
-/

namespace Scriptlet

/-! ### Joined failures -/

namespace Failure

variable {f g : Failure} {x : Expectation}

theorem mem_addNew {seen : List Expectation} {e : Expectation} :
    x ∈ addNew seen e ↔ x ∈ seen ∨ x = e := by
  unfold addNew
  split
  · rename_i hmem
    constructor
    · exact .inl
    · rintro (h | rfl)
      · exact h
      · exact hmem
  · simp

theorem mem_foldl_addNew {es seen : List Expectation} :
    x ∈ es.foldl addNew seen ↔ x ∈ seen ∨ x ∈ es := by
  induction es generalizing seen with
  | nil => simp
  | cons e es ih => rw [List.foldl_cons, ih, mem_addNew, List.mem_cons, or_assoc]

theorem merge_eq_left (h : g.pos < f.pos) : f.merge g = f := by
  rw [merge, if_pos h]

theorem merge_eq_right (h : f.pos < g.pos) : f.merge g = g := by
  rw [merge, if_neg (by omega), if_pos h]

theorem merge_eq_union (h : f.pos = g.pos) :
    f.merge g = ⟨g.pos, g.expected.foldl addNew f.expected⟩ := by
  rw [merge, if_neg (by omega), if_neg (by omega), h]

/-- What a joined failure expects is expected by one of the two, and at the same place. -/
theorem mem_expected_merge (h : x ∈ (f.merge g).expected) :
    x ∈ f.expected ∧ (f.merge g).pos = f.pos ∨ x ∈ g.expected ∧ (f.merge g).pos = g.pos := by
  rcases Nat.lt_trichotomy f.pos g.pos with hlt | heq | hgt
  · rw [merge_eq_right hlt] at h ⊢
    exact .inr ⟨h, rfl⟩
  · rw [merge_eq_union heq] at h ⊢
    rcases mem_foldl_addNew.1 h with hf | hg
    · exact .inl ⟨hf, heq.symm⟩
    · exact .inr ⟨hg, rfl⟩
  · rw [merge_eq_left hgt] at h ⊢
    exact .inl ⟨h, rfl⟩

theorem expected_merge_ne_nil (hf : f.expected ≠ []) (hg : g.expected ≠ []) :
    (f.merge g).expected ≠ [] := by
  rcases Nat.lt_trichotomy f.pos g.pos with hlt | heq | hgt
  · rw [merge_eq_right hlt]
    exact hg
  · obtain ⟨x, hx⟩ := List.exists_mem_of_ne_nil _ hf
    rw [merge_eq_union heq]
    exact List.ne_nil_of_mem (mem_foldl_addNew.2 (.inl hx))
  · rw [merge_eq_left hgt]
    exact hf

end Failure

namespace Parser

variable {α β : Type} {p q : Parser α} {c : Cursor} {f : Failure}

/-- `p` fails at `c` and reports `f`. -/
def Fails (p : Parser α) (c : Cursor) (f : Failure) : Prop :=
  (p.run c).result = .error f

theorem fails_of_run {consumed : Bool} (h : p.run c = ⟨consumed, .error f⟩) : p.Fails c f := by
  rw [Fails, h]

/-! ### Sequencing -/

theorem not_fails_pure {a : α} : ¬ (pure a : Parser α).Fails c f := by
  intro h
  cases h

/-- Two parts in a row fail in the first part, or in the second where the first stopped. -/
theorem fails_bind {g : α → Parser β} (h : (p >>= g).Fails c f) :
    p.Fails c f ∨ ∃ a c₁, p.Gives c a c₁ ∧ (g a).Fails c₁ f := by
  match hrun : p.run c with
  | ⟨_, .error e⟩ =>
    rw [Fails, run_bind_of_error hrun] at h
    have heq : e = f := Except.error.inj h
    exact .inl (heq ▸ fails_of_run hrun)
  | ⟨_, .ok (a, c₁)⟩ =>
    rw [Fails, run_bind_of_ok hrun] at h
    exact .inr ⟨a, c₁, gives_of_run hrun, h⟩

theorem fails_map {g : α → β} (h : (g <$> p).Fails c f) : p.Fails c f := by
  rw [← bind_pure_comp] at h
  rcases fails_bind h with h | ⟨_, _, -, h⟩
  · exact h
  · exact absurd h not_fails_pure

/-! ### Choice -/

theorem fails_refuse {e : Expectation} (h : (refuse e : Parser α).Fails c f) :
    f = .single c.pos e :=
  (Except.error.inj h).symm

/-- A choice fails with its first alternative, or with both of them joined. -/
theorem fails_orElse (h : (p <|> q).Fails c f) :
    p.Fails c f ∨ ∃ f₁ f₂, p.Fails c f₁ ∧ q.Fails c f₂ ∧ f = f₁.merge f₂ := by
  have hchoice : ((Parser.orElse p fun _ => q).run c).result = .error f := h
  cases hrun : p.run c with
  | mk consumed result =>
    cases result with
    | ok success =>
      simp only [Parser.orElse, hrun] at hchoice
      cases hchoice
    | error e =>
      cases consumed with
      | true =>
        simp only [Parser.orElse, hrun] at hchoice
        have heq : e = f := Except.error.inj hchoice
        exact .inl (heq ▸ fails_of_run hrun)
      | false =>
        cases hrun' : q.run c with
        | mk consumed' result' =>
          cases result' with
          | ok success =>
            simp only [Parser.orElse, hrun, hrun'] at hchoice
            cases hchoice
          | error e' =>
            simp only [Parser.orElse, hrun, hrun'] at hchoice
            have heq : e.merge e' = f := Except.error.inj hchoice
            exact .inr ⟨e, e', fails_of_run hrun, fails_of_run hrun', heq.symm⟩

theorem fails_attempt (h : p.attempt.Fails c f) : p.Fails c f := by
  unfold Fails attempt at h
  unfold Fails
  match hrun : p.run c with
  | ⟨_, .error e⟩ =>
    simp only [hrun] at h
    exact h
  | ⟨_, .ok _⟩ =>
    simp only [hrun] at h
    cases h

/-- An optional part fails only after it has consumed input. -/
theorem fails_optional (h : p.optional.Fails c f) : p.run c = ⟨true, .error f⟩ := by
  unfold Fails optional at h
  match hrun : p.run c with
  | ⟨true, .error e⟩ =>
    simp only [hrun, Reply.map, Except.map] at h
    rw [Except.error.inj h]
  | ⟨false, .error e⟩ =>
    simp only [hrun] at h
    cases h
  | ⟨_, .ok _⟩ =>
    simp only [hrun, Reply.map, Except.map] at h
    cases h

/-- A label changes a failure only into one for want of what it names. -/
theorem fails_label {name : String} (h : (p.label name).Fails c f) :
    p.Fails c f ∨ f = .single c.pos (.named name) := by
  unfold Fails label at h
  match hrun : p.run c with
  | ⟨false, .error e⟩ =>
    simp only [hrun] at h
    split at h
    · exact .inr (Except.error.inj h).symm
    · have heq : e = f := Except.error.inj h
      exact .inl (heq ▸ fails_of_run hrun)
  | ⟨true, .error e⟩ =>
    simp only [hrun] at h
    have heq : e = f := Except.error.inj h
    exact .inl (heq ▸ fails_of_run hrun)
  | ⟨_, .ok _⟩ =>
    simp only [hrun] at h
    cases h

theorem fails_endOfInput (h : endOfInput.Fails c f) : f = .single c.pos .endOfInput := by
  unfold Fails endOfInput at h
  dsimp only at h
  split at h
  · cases h
  · exact (Except.error.inj h).symm

/-! ### Repetition -/

/-- Rounds fail in the round after those that succeeded. -/
theorem fails_rounds {n : Nat} (h : rounds p n c = .error f) :
    ∃ as c₁, Repeated p.Gives c as c₁ ∧ p.Fails c₁ f := by
  induction n generalizing c with
  | zero => cases h
  | succ n ih =>
    unfold rounds at h
    split at h
    · rename_i a rest hrun
      cases hmore : rounds p n rest with
      | ok last =>
        rw [hmore] at h
        cases h
      | error e =>
        rw [hmore] at h
        have heq : e = f := Except.error.inj h
        obtain ⟨as, c₁, hrepeated, hfails⟩ := ih (heq ▸ hmore)
        exact ⟨a :: as, c₁, .cons (gives_of_run hrun) hrepeated, hfails⟩
    · rename_i e hrun
      have heq : e = f := Except.error.inj h
      exact ⟨[], c, .nil, heq ▸ fails_of_run hrun⟩
    · cases h

/-- A loop fails in the round after those that succeeded. -/
theorem fails_many (h : p.many.Fails c f) :
    ∃ as c₁, Repeated p.Gives c as c₁ ∧ p.Fails c₁ f := by
  unfold Fails many at h
  dsimp only at h
  split at h
  · cases h
  · rename_i e hrounds
    have heq : e = f := Except.error.inj h
    exact fails_rounds (heq ▸ hrounds)

/-! ### The name of a rule -/

/-- A guarded rule is never opened to its end, so what it is named there does not matter. -/
theorem recursive_name_eq {rule : Parser α → Parser α} (h : Guarded rule) (name name' : String) :
    recursive name rule = recursive name' rule := by
  have hagree : ∀ n, AgreeBelow n (recursive name rule) (recursive name' rule) := by
    intro n
    induction n with
    | zero => exact fun c hc => absurd hc (Nat.not_lt_zero _)
    | succ n ih =>
      have hopened := h.agree n _ _ h.neverBack_recursive ih
      rwa [← recursive_eq h, ← recursive_eq h] at hopened
  ext c : 1
  exact hagree (c.rest.length + 1) c (Nat.lt_succ_self _)

end Parser

/-! ### The end of the text -/

namespace Cursor

/-- The position at the end of the text. -/
def finish (c : Cursor) : Nat :=
  c.pos + byteSize c.rest

theorem finish_skipTriviaFrom (inComment : Bool) (pos : Nat) (s : List Char) :
    (skipTriviaFrom inComment pos s).finish = pos + byteSize s := by
  induction s generalizing inComment pos with
  | nil => rfl
  | cons c cs ih =>
    unfold skipTriviaFrom
    rw [byteSize_cons, ← Nat.add_assoc]
    split
    · exact ih _ _
    split
    · exact ih _ _
    split
    · exact ih _ _
    · rw [finish, byteSize_cons, ← Nat.add_assoc]

theorem finish_skipTrivia (c : Cursor) : c.skipTrivia.finish = c.finish :=
  finish_skipTriviaFrom false c.pos c.rest

theorem finish_dropWhile (c : Cursor) (q : Char → Bool) : (c.dropWhile q).finish = c.finish := by
  have hsplit :
      byteSize c.rest = byteSize (c.rest.takeWhile q) + byteSize (c.rest.dropWhile q) := by
    rw [← byteSize_append, List.takeWhile_append_dropWhile]
  rw [finish, finish, dropWhile, takeWhile, hsplit, Nat.add_assoc]

theorem finish_next (c : Cursor) : c.next.finish = c.finish := by
  obtain ⟨pos, rest⟩ := c
  cases rest with
  | nil => rfl
  | cons x xs => simp [next, finish, Nat.add_assoc]

end Cursor

end Scriptlet
