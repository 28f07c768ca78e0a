import Mathlib.Data.List.Nodup
import Scriptlet.Proofs.Parsing.Failing
import Scriptlet.Proofs.Text.Trivia

/-!
# Replies that are honest about progress

A reply is honest when its flag and its positions are true. A success that counts as consuming input
stops further on in the same text, and one that does not stops where it began (`Cursor.Moves`). A
failure lies at a place that can be reached from where the parser began, and it lists something that
was expected there and nothing twice (`Failure.SoundFrom`).

Ordered choice, loops and labels rely on the flag, and several combinators set it anew. So honesty
is proved of each combinator once, from the honesty of its parts. `Built` collects all parsers that
the combinators make of given ones, rules that refer to themselves included: inside such a rule its
own handle is one of the given parsers (`WithHandle`). A property that the combinators keep carries
over from the given parsers to what is built from them (`Built.of_kept`). Main statement: what is
built from honest parsers is honest (`Built.honest`).
-/

namespace Scriptlet

theorem length_le_byteSize (s : List Char) : s.length ≤ byteSize s := by
  induction s with
  | nil => exact Nat.le_refl 0
  | cons c cs ih =>
    have hsize : 0 < c.utf8Size := c.utf8Size_pos
    rw [List.length_cons, byteSize_cons]
    omega

/-! ### Places further on in a text -/

namespace Cursor

variable {c d e : Cursor} {consumed : Bool}

/-- `d` is `c` or a place further on in the same text. -/
def Reaches (c d : Cursor) : Prop :=
  ∃ passed, c.rest = passed ++ d.rest ∧ d.pos = c.pos + byteSize passed

theorem Reaches.refl (c : Cursor) : c.Reaches c :=
  ⟨[], rfl, rfl⟩

theorem Reaches.trans (h : c.Reaches d) (h' : d.Reaches e) : c.Reaches e := by
  obtain ⟨passed, hrest, hpos⟩ := h
  obtain ⟨passed', hrest', hpos'⟩ := h'
  refine ⟨passed ++ passed', ?_, ?_⟩
  · rw [hrest, hrest', List.append_assoc]
  · rw [hpos', hpos, byteSize_append, Nat.add_assoc]

theorem Reaches.pos_le (h : c.Reaches d) : c.pos ≤ d.pos := by
  obtain ⟨passed, -, hpos⟩ := h
  omega

theorem Reaches.length_le (h : c.Reaches d) : d.rest.length ≤ c.rest.length := by
  obtain ⟨passed, hrest, -⟩ := h
  rw [hrest, List.length_append]
  omega

/-- With fewer characters left the place is further on. -/
theorem Reaches.pos_lt (h : c.Reaches d) (hlength : d.rest.length < c.rest.length) :
    c.pos < d.pos := by
  obtain ⟨passed, hrest, hpos⟩ := h
  have hpassed : passed.length ≤ byteSize passed := length_le_byteSize passed
  rw [hrest, List.length_append] at hlength
  omega

/-- Further on there are fewer characters left. -/
theorem Reaches.length_lt (h : c.Reaches d) (hpos : c.pos < d.pos) :
    d.rest.length < c.rest.length := by
  obtain ⟨passed, hrest, hpassed⟩ := h
  cases passed with
  | nil =>
    rw [byteSize_nil] at hpassed
    omega
  | cons x xs =>
    rw [hrest, List.length_append, List.length_cons]
    omega

/-- A place at the same position is the same place. -/
theorem Reaches.eq_of_pos_le (h : c.Reaches d) (hpos : d.pos ≤ c.pos) : d = c := by
  obtain ⟨passed, hrest, hpassed⟩ := h
  have hlength : passed.length ≤ byteSize passed := length_le_byteSize passed
  obtain rfl : passed = [] := List.eq_nil_of_length_eq_zero (by omega)
  exact Cursor.ext hpassed hrest.symm

/-- From one place on, a place is known by what is left there. -/
theorem Reaches.eq_of_rest_eq (h : c.Reaches d) (h' : c.Reaches e) (hrest : d.rest = e.rest) :
    d = e := by
  obtain ⟨passed, hd, hpos⟩ := h
  obtain ⟨passed', he, hpos'⟩ := h'
  rw [hd, hrest] at he
  obtain rfl : passed = passed' := List.append_cancel_right he
  exact Cursor.ext (hpos.trans hpos'.symm) hrest

theorem reaches_cons (pos : Nat) (x : Char) (xs : List Char) :
    Reaches ⟨pos, x :: xs⟩ ⟨pos + x.utf8Size, xs⟩ :=
  ⟨[x], rfl, rfl⟩

theorem reaches_next (c : Cursor) : c.Reaches c.next := by
  obtain ⟨pos, rest⟩ := c
  cases rest with
  | nil => exact Reaches.refl _
  | cons x xs => exact reaches_cons pos x xs

theorem reaches_dropWhile (c : Cursor) (q : Char → Bool) : c.Reaches (c.dropWhile q) :=
  ⟨c.takeWhile q, List.takeWhile_append_dropWhile.symm, rfl⟩

theorem reaches_skipTriviaFrom (inComment : Bool) (pos : Nat) (s : List Char) :
    Reaches ⟨pos, s⟩ (skipTriviaFrom inComment pos s) := by
  induction s generalizing inComment pos with
  | nil => exact Reaches.refl _
  | cons c cs ih =>
    have hstep := reaches_cons pos c cs
    unfold skipTriviaFrom
    split
    · exact hstep.trans (ih _ _)
    split
    · exact hstep.trans (ih _ _)
    split
    · exact hstep.trans (ih _ _)
    · exact Reaches.refl _

theorem reaches_skipTrivia (c : Cursor) : c.Reaches c.skipTrivia :=
  reaches_skipTriviaFrom false c.pos c.rest

/-- The place after the trivia is known by what is left there. -/
theorem Reaches.skipTrivia_eq (h : c.Reaches d) (htrivia : Trivia c.rest d.rest) :
    c.skipTrivia = d :=
  (reaches_skipTrivia c).eq_of_rest_eq h (rest_skipTrivia_iff.2 htrivia)

/-- Where no trivia begins, skipping it changes nothing. -/
theorem skipTrivia_eq_self (h : Settled c.rest) : c.skipTrivia = c :=
  (Reaches.refl c).skipTrivia_eq (.done h)

/-- The way from `c` to `d` is what the flag says: forward in the same text, or none at all. -/
structure Moves (consumed : Bool) (c d : Cursor) : Prop where
  forward : consumed = true → c.Reaches d ∧ c.pos < d.pos
  still : consumed = false → d = c

theorem Moves.reaches (h : Moves consumed c d) : c.Reaches d := by
  cases consumed with
  | true => exact (h.forward rfl).1
  | false =>
    obtain rfl := h.still rfl
    exact Reaches.refl d

theorem moves_refl (c : Cursor) : Moves false c c :=
  ⟨nofun, fun _ => rfl⟩

/-- One way after the other is forward if either is. -/
theorem Moves.trans {consumed' : Bool} (h : Moves consumed c d) (h' : Moves consumed' d e) :
    Moves (consumed || consumed') c e := by
  have hreaches : c.Reaches e := h.reaches.trans h'.reaches
  refine ⟨fun hflag => ⟨hreaches, ?_⟩, fun hflag => ?_⟩
  · rcases Bool.or_eq_true _ _ |>.mp hflag with hfirst | hsecond
    · exact Nat.lt_of_lt_of_le (h.forward hfirst).2 h'.reaches.pos_le
    · exact Nat.lt_of_le_of_lt h.reaches.pos_le (h'.forward hsecond).2
  · obtain ⟨hfirst, hsecond⟩ := Bool.or_eq_false_iff.1 hflag
    rw [h'.still hsecond, h.still hfirst]

/-- A flag that compares positions is right about every way forward. -/
theorem Reaches.moves (h : c.Reaches d) : Moves (decide (c.pos < d.pos)) c d where
  forward hflag := ⟨h, of_decide_eq_true hflag⟩
  still hflag := h.eq_of_pos_le (Nat.le_of_not_lt (of_decide_eq_false hflag))

end Cursor

/-! ### Failures at places that were reached -/

namespace Failure

variable {f g : Failure} {c d : Cursor}

/-- The failure lies at a place that is reached from `c`, and it lists what was expected there, each
item once. -/
structure SoundFrom (f : Failure) (c : Cursor) : Prop where
  reached : ∃ d, c.Reaches d ∧ f.pos = d.pos
  expected_ne_nil : f.expected ≠ []
  nodup : f.expected.Nodup

theorem soundFrom_single (c : Cursor) (e : Expectation) : SoundFrom (.single c.pos e) c where
  reached := ⟨c, Cursor.Reaches.refl c, rfl⟩
  expected_ne_nil := List.cons_ne_nil _ _
  nodup := List.nodup_singleton e

/-- What is sound further on is sound from here. -/
theorem SoundFrom.of_reaches (h : f.SoundFrom d) (hreaches : c.Reaches d) : f.SoundFrom c where
  reached := by
    obtain ⟨e, hde, hpos⟩ := h.reached
    exact ⟨e, hreaches.trans hde, hpos⟩
  expected_ne_nil := h.expected_ne_nil
  nodup := h.nodup

theorem nodup_addNew {seen : List Expectation} (h : seen.Nodup) (e : Expectation) :
    (addNew seen e).Nodup := by
  unfold addNew
  split
  · exact h
  · rename_i hnew
    refine List.nodup_append.2 ⟨h, List.nodup_singleton e, fun x hx y hy hxy => ?_⟩
    rw [List.mem_singleton] at hy
    exact hnew (hy ▸ hxy ▸ hx)

theorem nodup_foldl_addNew {seen : List Expectation} (h : seen.Nodup) (es : List Expectation) :
    (es.foldl addNew seen).Nodup := by
  induction es generalizing seen with
  | nil => exact h
  | cons e es ih => exact ih (nodup_addNew h e)

theorem nodup_merge (hf : f.expected.Nodup) (hg : g.expected.Nodup) :
    (f.merge g).expected.Nodup := by
  rcases Nat.lt_trichotomy f.pos g.pos with hlt | heq | hgt
  · rw [merge_eq_right hlt]
    exact hg
  · rw [merge_eq_union heq]
    exact nodup_foldl_addNew hf g.expected
  · rw [merge_eq_left hgt]
    exact hf

/-- Joining two sound failures gives a sound one. -/
theorem SoundFrom.merge (hf : f.SoundFrom c) (hg : g.SoundFrom c) : (f.merge g).SoundFrom c where
  reached := by
    rcases Nat.lt_trichotomy f.pos g.pos with hlt | heq | hgt
    · rw [merge_eq_right hlt]
      exact hg.reached
    · rw [merge_eq_union heq]
      exact hg.reached
    · rw [merge_eq_left hgt]
      exact hf.reached
  expected_ne_nil := expected_merge_ne_nil hf.expected_ne_nil hg.expected_ne_nil
  nodup := nodup_merge hf.nodup hg.nodup

end Failure

/-! ### Honest parsers -/

namespace Parser

variable {α β : Type} {p q : Parser α} {c d : Cursor} {a : α}

/-- Every success of the parser moves as its flag says, and every failure is sound. -/
structure Honest (p : Parser α) : Prop where
  success : ∀ c consumed a d, p.run c = ⟨consumed, .ok (a, d)⟩ → Cursor.Moves consumed c d
  failure : ∀ c f, p.Fails c f → f.SoundFrom c

theorem Honest.reaches (hp : p.Honest) (h : p.Gives c a d) : c.Reaches d := by
  obtain ⟨consumed, hrun⟩ := run_of_gives h
  exact (hp.success c consumed a d hrun).reaches

theorem honest_pure (a : α) : (pure a : Parser α).Honest where
  success c consumed b d h := by
    obtain ⟨rfl, hresult⟩ := Reply.mk.inj h
    obtain ⟨-, rfl⟩ := Prod.mk.inj (Except.ok.inj hresult)
    exact Cursor.moves_refl c
  failure _ _ h := absurd h not_fails_pure

/-- Two parts in a row move as the one and then the other, and what the second reports is sound from
where the first began. -/
theorem Honest.bind {f : α → Parser β} (hp : p.Honest) (hf : ∀ a, (f a).Honest) :
    (p >>= f).Honest where
  success c consumed b e h := by
    match hrun : p.run c with
    | ⟨first, .error failure⟩ =>
      rw [run_bind_of_error hrun] at h
      cases h
    | ⟨first, .ok (a, d)⟩ =>
      rw [run_bind_of_ok hrun] at h
      match hrun' : (f a).run d with
      | ⟨second, result⟩ =>
        rw [hrun'] at h
        obtain ⟨rfl, rfl⟩ := Reply.mk.inj h
        exact (hp.success c first a d hrun).trans ((hf a).success d second b e hrun')
  failure c failure h := by
    rcases fails_bind h with h | ⟨a, d, hgives, h⟩
    · exact hp.failure c failure h
    · exact ((hf a).failure d failure h).of_reaches (hp.reaches hgives)

theorem Honest.map (hp : p.Honest) (f : α → β) : (f <$> p).Honest := by
  rw [← bind_pure_comp]
  exact hp.bind fun a => honest_pure (f a)

theorem Honest.seqRight {r : Parser β} (hp : p.Honest) (hr : r.Honest) : (p *> r).Honest := by
  rw [seqRight_eq_bind]
  exact hp.bind fun _ => hr

theorem Honest.seqLeft {r : Parser β} (hp : p.Honest) (hr : r.Honest) : (p <* r).Honest := by
  rw [seqLeft_eq_bind]
  exact hp.bind fun a => hr.bind fun _ => honest_pure a

/-! ### Choice -/

theorem honest_refuse (e : Expectation) : (refuse e : Parser α).Honest where
  success c consumed a d h := absurd (gives_of_run h) not_gives_refuse
  failure c f h := by
    rw [fails_refuse h]
    exact Failure.soundFrom_single c e

theorem Honest.orElse (hp : p.Honest) (hq : q.Honest) : (p <|> q).Honest where
  success c consumed a d h := by
    rcases gives_orElse_iff.1 (gives_of_run h) with hgives | ⟨hrefuses, hgives⟩
    · rw [run_orElse_of_gives hgives] at h
      exact hp.success c consumed a d h
    · rw [run_orElse_of_refuses hrefuses hgives] at h
      exact hq.success c consumed a d h
  failure c f h := by
    rcases fails_orElse h with h | ⟨f₁, f₂, h₁, h₂, rfl⟩
    · exact hp.failure c f h
    · exact (hp.failure c f₁ h₁).merge (hq.failure c f₂ h₂)

/-- An attempt takes the flag away from a failure only. -/
theorem run_attempt_of_gives (h : p.Gives c a d) : p.attempt.run c = p.run c := by
  obtain ⟨consumed, hrun⟩ := run_of_gives h
  simp only [attempt, hrun]

theorem run_label_of_gives {name : String} (h : p.Gives c a d) :
    (p.label name).run c = p.run c := by
  obtain ⟨consumed, hrun⟩ := run_of_gives h
  simp only [label, hrun]

theorem Honest.attempt (hp : p.Honest) : p.attempt.Honest where
  success c consumed a d h := by
    rw [run_attempt_of_gives (gives_attempt_iff.1 (gives_of_run h))] at h
    exact hp.success c consumed a d h
  failure c f h := hp.failure c f (fails_attempt h)

theorem Honest.label (hp : p.Honest) (name : String) : (p.label name).Honest where
  success c consumed a d h := by
    rw [run_label_of_gives (gives_label_iff.1 (gives_of_run h))] at h
    exact hp.success c consumed a d h
  failure c f h := by
    rcases fails_label h with h | rfl
    · exact hp.failure c f h
    · exact Failure.soundFrom_single c _

/-- A missing optional part leaves the place as it is, and a present one moves as it does alone. -/
theorem Honest.optional (hp : p.Honest) : p.optional.Honest where
  success c consumed o d h := by
    unfold Parser.optional at h
    dsimp only at h
    split at h
    · obtain ⟨rfl, hresult⟩ := Reply.mk.inj h
      obtain ⟨-, rfl⟩ := Prod.mk.inj (Except.ok.inj hresult)
      exact Cursor.moves_refl c
    · match hrun : p.run c with
      | ⟨flag, .error e⟩ =>
        rw [hrun] at h
        cases h
      | ⟨flag, .ok (a, stop)⟩ =>
        rw [hrun] at h
        obtain ⟨rfl, hresult⟩ := Reply.mk.inj h
        obtain ⟨-, rfl⟩ := Prod.mk.inj (Except.ok.inj hresult)
        exact hp.success c flag a stop hrun
  failure c f h := hp.failure c f (fails_of_run (fails_optional h))

/-! ### Repetition -/

theorem Honest.reaches_repeated (hp : p.Honest) {as : List α} (h : Repeated p.Gives c as d) :
    c.Reaches d := by
  induction h with
  | nil => exact Cursor.Reaches.refl _
  | cons hstep _ ih => exact (hp.reaches hstep).trans ih

/-- The flag of a loop compares the places before and after it, and the loop never goes back. -/
theorem Honest.many (hp : p.Honest) : p.many.Honest where
  success c consumed as d h := by
    have hreaches : c.Reaches d :=
      hp.reaches_repeated (repeated_of_gives_many (gives_of_run h))
    unfold Parser.many at h
    dsimp only at h
    split at h
    · obtain ⟨rfl, hresult⟩ := Reply.mk.inj h
      obtain ⟨-, rfl⟩ := Prod.mk.inj (Except.ok.inj hresult)
      exact hreaches.moves
    · cases h
  failure c f h := by
    obtain ⟨as, d, hrepeated, hfails⟩ := fails_many h
    exact (hp.failure d f hfails).of_reaches (hp.reaches_repeated hrepeated)

/-! ### Parsers that are built from others -/

/-- A set of parsers of any types. -/
abbrev Stock :=
  ∀ α : Type, Parser α → Prop

/-- The given parsers and one more. -/
inductive WithHandle (given : Stock) {α : Type} (handle : Parser α) : Stock
  | given {β : Type} {p : Parser β} : given β p → WithHandle given handle β p
  | handle : WithHandle given handle α handle

/-- What the combinators make of given parsers, in any nesting. -/
inductive Built : Stock → ∀ {α : Type}, Parser α → Prop
  | given {given : Stock} {α : Type} {p : Parser α} :
    given α p → Built given p
  | pure {given : Stock} {α : Type} (a : α) : Built given (pure a : Parser α)
  | map {given : Stock} {α β : Type} {p : Parser α} (f : α → β) :
    Built given p → Built given (f <$> p)
  | bind {given : Stock} {α β : Type} {p : Parser α} {f : α → Parser β} :
    Built given p → (∀ a, Built given (f a)) → Built given (p >>= f)
  /-- Two parts in a row of which both values are kept. -/
  | both {given : Stock} {α β : Type} {p : Parser α} {q : Parser β} :
    Built given p → Built given q → Built given (do
      let a ← p
      let b ← q
      return (a, b))
  | seqRight {given : Stock} {α β : Type} {p : Parser α} {q : Parser β} :
    Built given p → Built given q → Built given (p *> q)
  | seqLeft {given : Stock} {α β : Type} {p : Parser α} {q : Parser β} :
    Built given p → Built given q → Built given (p <* q)
  | between {given : Stock} {α β γ : Type} {p : Parser α} {opening : Parser β}
    {closing : Parser γ} :
    Built given p → Built given opening → Built given closing →
    Built given (p.between opening closing)
  | orElse {given : Stock} {α : Type} {p q : Parser α} :
    Built given p → Built given q → Built given (p <|> q)
  | attempt {given : Stock} {α : Type} {p : Parser α} :
    Built given p → Built given p.attempt
  | optional {given : Stock} {α : Type} {p : Parser α} :
    Built given p → Built given p.optional
  | label {given : Stock} {α : Type} {p : Parser α} (name : String) :
    Built given p → Built given (p.label name)
  | many {given : Stock} {α : Type} {p : Parser α} :
    Built given p → Built given p.many
  | many1 {given : Stock} {α : Type} {p : Parser α} :
    Built given p → Built given p.many1
  | sepBy {given : Stock} {α β : Type} {p : Parser α} {separator : Parser β} :
    Built given p → Built given separator → Built given (p.sepBy separator)
  | sepBy1 {given : Stock} {α β : Type} {p : Parser α} {separator : Parser β} :
    Built given p → Built given separator → Built given (p.sepBy1 separator)
  | chainLeft {given : Stock} {α : Type} {p : Parser α} {operator : Parser (α → α → α)} :
    Built given p → Built given operator → Built given (p.chainLeft operator)
  /-- A rule that refers to itself is built when its body is, with the handle as a given parser. -/
  | recursive {given : Stock} {α : Type} {rule : Parser α → Parser α} (name : String) :
    (∀ handle, Built (WithHandle given handle) (rule handle)) → Built given (recursive name rule)

/-- A property that the combinators keep, and that a rule has if it has the property however often
it is opened. The combinators that are missing here are made of these. -/
structure Kept (P : Stock) : Prop where
  pure : ∀ {α : Type} (a : α), P α (pure a)
  bind : ∀ {α β : Type} {p : Parser α} {f : α → Parser β}, P α p → (∀ a, P β (f a)) → P β (p >>= f)
  refuse : ∀ {α : Type} (e : Expectation), P α (refuse e)
  orElse : ∀ {α : Type} {p q : Parser α}, P α p → P α q → P α (p <|> q)
  attempt : ∀ {α : Type} {p : Parser α}, P α p → P α p.attempt
  optional : ∀ {α : Type} {p : Parser α}, P α p → P (Option α) p.optional
  label : ∀ {α : Type} {p : Parser α} (name : String), P α p → P α (p.label name)
  many : ∀ {α : Type} {p : Parser α}, P α p → P (List α) p.many
  recursive : ∀ {α : Type} (name : String) (rule : Parser α → Parser α),
    (∀ n, P α (unroll name rule n)) → P α (recursive name rule)

namespace Kept

variable {P : Stock} (hP : Kept P)

include hP

theorem map (f : α → β) (hp : P α p) : P β (f <$> p) := by
  rw [← bind_pure_comp]
  exact hP.bind hp fun a => hP.pure (f a)

theorem seqRight {r : Parser β} (hp : P α p) (hr : P β r) : P β (p *> r) := by
  rw [seqRight_eq_bind]
  exact hP.bind hp fun _ => hr

theorem seqLeft {r : Parser β} (hp : P α p) (hr : P β r) : P α (p <* r) := by
  rw [seqLeft_eq_bind]
  exact hP.bind hp fun a => hP.bind hr fun _ => hP.pure a

theorem sepBy1 {separator : Parser β} (hp : P α p) (hsep : P β separator) :
    P (List α) (p.sepBy1 separator) :=
  hP.bind hp fun _ => hP.bind (hP.many (hP.seqRight hsep hp)) fun _ => hP.pure _

end Kept

/-- What is built from parsers that have a property has it too, if the combinators keep it. -/
theorem Built.of_kept {given P : Stock} (h : Built given p) (hP : Kept P)
    (hgiven : ∀ (β : Type) (r : Parser β), given β r → P β r) : P α p := by
  induction h with
  | given hp => exact hgiven _ _ hp
  | pure a => exact hP.pure a
  | map f _ ih => exact hP.map f (ih hgiven)
  | bind _ _ ihp ihf => exact hP.bind (ihp hgiven) fun a => ihf a hgiven
  | both _ _ ihp ihq =>
    exact hP.bind (ihp hgiven) fun _ => hP.bind (ihq hgiven) fun _ => hP.pure _
  | seqRight _ _ ihp ihq => exact hP.seqRight (ihp hgiven) (ihq hgiven)
  | seqLeft _ _ ihp ihq => exact hP.seqLeft (ihp hgiven) (ihq hgiven)
  | between _ _ _ ihp iho ihz =>
    exact hP.seqLeft (hP.seqRight (iho hgiven) (ihp hgiven)) (ihz hgiven)
  | orElse _ _ ihp ihq => exact hP.orElse (ihp hgiven) (ihq hgiven)
  | attempt _ ih => exact hP.attempt (ih hgiven)
  | optional _ ih => exact hP.optional (ih hgiven)
  | label name _ ih => exact hP.label name (ih hgiven)
  | many _ ih => exact hP.many (ih hgiven)
  | many1 _ ih =>
    exact hP.bind (ih hgiven) fun _ => hP.bind (hP.many (ih hgiven)) fun _ => hP.pure _
  | sepBy _ _ ihp ihsep => exact hP.map _ (hP.optional (hP.sepBy1 (ihp hgiven) (ihsep hgiven)))
  | sepBy1 _ _ ihp ihsep => exact hP.sepBy1 (ihp hgiven) (ihsep hgiven)
  | @chainLeft _ _ p operator _ _ ihp iho =>
    have hjoined : P _ (joined operator p) :=
      hP.bind (iho hgiven) fun _ => hP.bind (ihp hgiven) fun _ => hP.pure _
    rw [chainLeft_eq]
    exact hP.bind (ihp hgiven) fun _ => hP.bind (hP.many hjoined) fun _ => hP.pure _
  | recursive name _ ih =>
    -- Inside the rule the handle is one more given parser, which has the property by induction on
    -- the number of openings.
    refine hP.recursive name _ (unroll_induction (hP.refuse _) fun handle hhandle => ?_)
    refine ih handle fun β r hr => ?_
    cases hr with
    | given hr => exact hgiven β r hr
    | handle => exact hhandle

theorem kept_honest : Kept fun _ p => p.Honest where
  pure := honest_pure
  bind := Honest.bind
  refuse := honest_refuse
  orElse := Honest.orElse
  attempt := Honest.attempt
  optional := Honest.optional
  label name hp := hp.label name
  many := Honest.many
  recursive _ _ hunroll :=
    ⟨fun c => (hunroll (c.rest.length + 1)).success c,
      fun c => (hunroll (c.rest.length + 1)).failure c⟩

/-- What is built from honest parsers is honest. -/
theorem Built.honest {given : Stock} (h : Built given p)
    (hgiven : ∀ (β : Type) (r : Parser β), given β r → r.Honest) : p.Honest :=
  h.of_kept kept_honest hgiven

end Parser

end Scriptlet
