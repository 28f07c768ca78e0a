import Scriptlet.Proofs.Language.Grafting
import Scriptlet.Proofs.Language.Rendering
import Scriptlet.Proofs.Parsing.Failing

/-!
# Parsers that tell the truth about what they expect

A parser is *faithful* to a reading when it gives only what is read so and when each of its failures
is true: whatever it expects at a place can be put there, on a line of its own, and with a few more
tokens the text is read after all (`Completable`). Faithfulness composes along the combinators, so
it is proved of the lexemes and of each combinator once (`Faithful.bind`, `Faithful.orElse`,
`Faithful.many`).

When the first of two parts fails, the expected item completes it and the second part is written out
in tokens of our choice, so that every reading has to be `Writable`. When the second part fails, the
first one was read in front of a text that is now exchanged for another, so that every reading has
to be `Local`.

The tokens that complete a text stand in front of others. These must not begin with `else`, which
would be taken for a part of a conditional that is completed without one (`Fresh`).
-/

namespace Scriptlet

open Scriptlet.Language

/-! ### Where lexemes stop and how they fail -/

namespace Lexeme

variable {α : Type} {c c' : Cursor} {f : Failure}

theorem finish_of_gives_lexeme {expected : Expectation} {scan : Cursor → Option (α × Cursor)}
    {a : α} (hscan : ∀ c a d, scan c = some (a, d) → d.finish = c.finish)
    (h : (lexeme expected scan).Gives c a c') : c'.finish = c.finish := by
  obtain ⟨d, hd, rfl⟩ := gives_lexeme_iff.1 h
  rw [Cursor.finish_skipTrivia, hscan c a d hd]

/-- The end of the text stays where it is when a leading part of it is passed over. -/
theorem finish_of_rest_eq {d : Cursor} {body : List Char} (hrest : c.rest = body ++ d.rest)
    (hpos : d.pos = c.pos + byteSize body) : d.finish = c.finish := by
  rw [Cursor.finish, Cursor.finish, hrest, hpos, byteSize_append, Nat.add_assoc]

theorem finish_of_gives_exactly {text : String} {ends : Cursor → Bool} {a : Unit}
    (h : (exactly text ends).Gives c a c') : c'.finish = c.finish := by
  refine finish_of_gives_lexeme (fun c a d hscan => ?_) h
  obtain ⟨hrest, hpos, -⟩ := scan_exactly_iff.1 hscan
  exact finish_of_rest_eq hrest hpos

theorem finish_of_gives_identifier {name : String} (h : identifier.Gives c name c') :
    c'.finish = c.finish := by
  refine finish_of_gives_lexeme (fun c name d hscan => ?_) h
  obtain ⟨hrest, -, -, hpos⟩ := scanIdentifier_eq_some_iff.1 hscan
  exact finish_of_rest_eq hrest hpos

theorem finish_of_gives_integer {n : Integer} (h : integer.Gives c n c') :
    c'.finish = c.finish := by
  obtain ⟨-, -, -, rfl⟩ := run_integer_of_gives h
  rw [Cursor.finish_skipTrivia, Cursor.finish_dropWhile]
  unfold afterSign
  split
  · exact c.finish_next
  · rfl

/-- A lexeme fails only by refusing. -/
theorem run_of_fails_lexeme {expected : Expectation} {scan : Cursor → Option (α × Cursor)}
    (h : (lexeme expected scan).Fails c f) :
    (lexeme expected scan).run c = .refusal c.pos expected := by
  unfold Parser.Fails lexeme at h
  unfold lexeme
  cases hscan : scan c with
  | none => simp only [hscan]
  | some r =>
    simp only [hscan] at h
    cases h

theorem fails_lexeme {expected : Expectation} {scan : Cursor → Option (α × Cursor)}
    (h : (lexeme expected scan).Fails c f) : f = .single c.pos expected := by
  rw [Parser.Fails, run_of_fails_lexeme h] at h
  exact (Except.error.inj h).symm

/-- The names of what a literal is expected to be. -/
def literalNames : List String :=
  ["integer literal", "integer literal within the 64-bit range"]

theorem fails_integer (h : integer.Fails c f) :
    ∃ name ∈ literalNames, f = .single c.pos (.named name) := by
  rw [Parser.Fails, run_integer] at h
  split at h
  · exact ⟨"integer literal", by decide, (Except.error.inj h).symm⟩
  split at h
  · cases h
  · exact ⟨"integer literal within the 64-bit range", by decide, (Except.error.inj h).symm⟩

end Lexeme

namespace Language

open Lexeme

variable {α β : Type} {R : Reading α} {x : Expectation} {token : String} {tokens : List String}

/-! ### Tokens that can follow -/

/-- Neither trivia nor an `else` begins the text. -/
structure Fresh (s : List Char) : Prop where
  settled : Settled s
  no_else : ¬ StartsElse s

/-- Neither trivia nor an `else` begins with the token. -/
def isFresh (token : String) : Bool :=
  isSolid token && token.toList.takeWhile isWordChar != "else".toList

theorem takeWhile_append_gap (u : List Char) :
    (u ++ gap tokens).takeWhile isWordChar = u.takeWhile isWordChar := by
  induction u with
  | nil => exact takeWhile_eq_nil_of_head head_gap_not_wordChar
  | cons c cs ih => rw [List.cons_append, List.takeWhile_cons, List.takeWhile_cons, ih]

theorem fresh_spaced_cons (h : isFresh token = true) : Fresh (spaced (token :: tokens)) := by
  unfold isFresh at h
  rw [Bool.and_eq_true] at h
  refine ⟨settled_spaced_cons h.1, ?_⟩
  rintro ⟨t, helse⟩
  have hword := takeWhile_of_keyword (by decide) helse
  rw [spaced_cons, takeWhile_append_gap] at hword
  exact bne_iff_ne.1 h.2 hword

theorem fresh_spaced_nil : Fresh (spaced []) where
  settled := settled_spaced_nil
  no_else := not_startsElse_of_not_startsWord not_startsWord_nil

theorem isFresh_of_mem_symbols : ∀ token ∈ symbols, isFresh token = true := by decide

theorem isFresh_of_mem_keywords :
    ∀ word ∈ keywords, word ≠ "else" → isFresh word = true := by decide

/-- In front of whatever may follow them, the tokens make a text with the property. -/
def Opens (P : List Char → List Char → Prop) (tokens : List String) : Prop :=
  ∀ more, Fresh (spaced more) →
    P (spaced (tokens ++ more)) (spaced more) ∧ Fresh (spaced (tokens ++ more))

theorem Opens.mono {P Q : List Char → List Char → Prop} (h : Opens P tokens)
    (hPQ : ∀ s t, P s t → Q s t) : Opens Q tokens :=
  fun more hmore => ⟨hPQ _ _ (h more hmore).1, (h more hmore).2⟩

theorem Opens.append {P Q : List Char → List Char → Prop} {tokens' : List String}
    (h : Opens P tokens) (h' : Opens Q tokens') :
    Opens (fun s t => ∃ s₁, P s s₁ ∧ Q s₁ t) (tokens ++ tokens') := by
  intro more hmore
  obtain ⟨hsecond, hfresh⟩ := h' more hmore
  obtain ⟨hfirst, hbegin⟩ := h _ hfresh
  rw [List.append_assoc]
  exact ⟨⟨_, hfirst, hsecond⟩, hbegin⟩

/-- Some tokens are read so. -/
def Writable (R : Reading α) : Prop :=
  ∃ tokens a, Opens (fun s t => R s a t) tokens

theorem Writable.then {S : α → Reading β} (hR : Writable R) (hS : ∀ a, Writable (S a)) :
    Writable (Then R S) := by
  obtain ⟨tokens, a, hfirst⟩ := hR
  obtain ⟨tokens', b, hsecond⟩ := hS a
  refine ⟨tokens ++ tokens', b, (hfirst.append hsecond).mono ?_⟩
  rintro s t ⟨s₁, hs, ht⟩
  exact .mk hs ht

/-- What it is for a text to begin with what is expected. -/
def Meets : Expectation → List Char → Prop
  | .token text, s => text ∈ symbols ∧ Begins text s ∨ text ∈ keywords ∧ ∃ t, Keyword text s t
  | .named "identifier", s => ∃ name t, Identifier s name t
  | .named "integer literal", s => ∃ n t, Literal s n t
  | .named "integer literal within the 64-bit range", s => ∃ n t, Literal s n t
  | .named "expression", s => ∃ e t, Expression s e t
  | _, _ => False

/-- Something that begins with what is expected is read so. -/
def Offers (R : Reading α) (x : Expectation) : Prop :=
  ∃ tokens a, Opens (fun s t => Meets x s ∧ R s a t) tokens

theorem Offers.writable (h : Offers R x) : Writable R := by
  obtain ⟨tokens, a, hopens⟩ := h
  exact ⟨tokens, a, hopens.mono fun _ _ h => h.2⟩

variable {text word : String}

theorem offers_symbol (hmem : text ∈ symbols) : Offers (Bare (Symbol text)) (.token text) := by
  refine ⟨[text], (), fun more hmore => ⟨⟨.inl ⟨hmem, ?_⟩, ?_⟩, ?_⟩⟩
  · exact ⟨_, symbol_spaced hmore.settled⟩
  · exact symbol_spaced hmore.settled
  · exact fresh_spaced_cons (isFresh_of_mem_symbols text hmem)

theorem offers_keyword (hmem : word ∈ keywords) (hne : word ≠ "else") :
    Offers (Bare (Keyword word)) (.token word) := by
  refine ⟨[word], (), fun more hmore => ⟨⟨.inr ⟨hmem, ?_⟩, ?_⟩, ?_⟩⟩
  · exact ⟨_, keyword_spaced hmore.settled⟩
  · exact keyword_spaced hmore.settled
  · exact fresh_spaced_cons (isFresh_of_mem_keywords word hmem hne)

theorem offers_identifier : Offers Identifier (.named "identifier") := by
  have hname : IsName "a" := by decide
  refine ⟨["a"], "a", fun more hmore => ⟨⟨?_, ?_⟩, fresh_spaced_cons (by decide)⟩⟩
  · exact ⟨_, _, identifier_spaced hname hmore.settled⟩
  · exact identifier_spaced hname hmore.settled

theorem literal_zero {more : List String} (h : Settled (spaced more)) :
    Literal (spaced ("0" :: more)) 0 (spaced more) :=
  literal_spaced 0 h

theorem offers_literal {name : String} (hname : name ∈ literalNames) :
    Offers Literal (.named name) := by
  have hmeets : ∀ s n t, Literal s n t → Meets (.named name) s := by
    intro s n t hn
    simp only [literalNames, List.mem_cons, List.not_mem_nil, or_false] at hname
    rcases hname with rfl | rfl
    · exact ⟨n, t, hn⟩
    · exact ⟨n, t, hn⟩
  refine ⟨["0"], 0, fun more hmore => ?_⟩
  have hzero := literal_zero hmore.settled
  exact ⟨⟨hmeets _ _ _ hzero, hzero⟩, fresh_spaced_cons (by decide)⟩

theorem offers_expression : Offers Expression (.named "expression") := by
  refine ⟨["0"], .integer 0, fun more hmore => ?_⟩
  have hexpression : Expression (spaced ("0" :: more)) (.integer 0) (spaced more) :=
    (Phrase.integer (literal_zero hmore.settled)).lift (Nat.zero_le 3)
  exact ⟨⟨⟨_, _, hexpression⟩, hexpression⟩, fresh_spaced_cons (by decide)⟩

/-! ### Completions -/

/-- With the expected item at `pos`, on a line of its own, and some more tokens after it, the text
from the cursor on is read so. -/
def Completable (R : Reading α) (c : Cursor) (pos : Nat) (x : Expectation) : Prop :=
  ∃ old tokens a, pos + byteSize old = c.finish ∧ Opens (fun s _ => Meets x s) tokens ∧
    ∀ more (k : Continuation), Fresh (spaced more) → k.rest = spaced (tokens ++ more) →
      ∃ s, Grafted k old c.rest s ∧ R s a (spaced more)

variable {c c₁ : Cursor} {pos : Nat}

/-- What is expected at the cursor itself completes the text there. -/
theorem Offers.completable (h : Offers R x) : Completable R c c.pos x := by
  obtain ⟨tokens, a, hopens⟩ := h
  refine ⟨c.rest, tokens, a, rfl, hopens.mono fun _ _ h => h.1, fun more k hmore hk => ?_⟩
  obtain ⟨⟨-, hread⟩, hfresh⟩ := hopens more hmore
  rw [← hk] at hread hfresh
  refine ⟨k.rest, ⟨⟨[], rfl, k.after_nil.symm⟩, fun helse => ?_⟩, hread⟩
  exact absurd helse hfresh.no_else

/-- A completion from a later cursor on is one from an earlier cursor, where what stands between
them is read whatever follows. -/
theorem Completable.pull {T : Reading β} (g : α → β) (h : Completable R c₁ pos x)
    (hfinish : c₁.finish = c.finish)
    (hpull : ∀ k old s₁ a t, Grafted k old c₁.rest s₁ → R s₁ a t →
      ∃ s, Grafted k old c.rest s ∧ T s (g a) t) : Completable T c pos x := by
  obtain ⟨old, tokens, a, hpos, hopens, hreads⟩ := h
  refine ⟨old, tokens, g a, hpos.trans hfinish, hopens, fun more k hmore hk => ?_⟩
  obtain ⟨s₁, hs₁, hread⟩ := hreads more k hmore hk
  exact hpull k old s₁ a _ hs₁ hread

theorem Completable.mono {T : Reading β} {g : α → β} (h : Completable R c pos x)
    (hRT : ∀ s a t, R s a t → T s (g a) t) : Completable T c pos x :=
  h.pull g rfl fun _ _ s a t hs hread => ⟨s, hs, hRT s a t hread⟩

/-- A completion of the second part completes both, after the first was read. -/
theorem Completable.then_of_read {S : α → Reading β} {a : α} (hR : Local R)
    (hread : R c.rest a c₁.rest) (hfinish : c₁.finish = c.finish) (h : Completable (S a) c₁ pos x) :
    Completable (Then R S) c pos x := by
  refine h.pull id hfinish fun k old s₁ b t hs₁ hnext => ?_
  obtain ⟨s, hs, hread'⟩ := hR k old hread hs₁
  exact ⟨s, hs, .mk hread' hnext⟩

/-- A completion of the first part completes both, with the second written after it. -/
theorem Completable.then_of_writable {S : α → Reading β} (h : Completable R c pos x)
    (hS : ∀ a, Writable (S a)) : Completable (Then R S) c pos x := by
  obtain ⟨old, tokens, a, hpos, hopens, hreads⟩ := h
  obtain ⟨tokens', b, hsecond⟩ := hS a
  refine ⟨old, tokens ++ tokens', b, hpos, (hopens.append hsecond).mono ?_,
    fun more k hmore hk => ?_⟩
  · rintro s t ⟨s₁, hmeets, -⟩
    exact hmeets
  · obtain ⟨hnext, hfresh⟩ := hsecond more hmore
    rw [List.append_assoc] at hk
    obtain ⟨s, hs, hfirst⟩ := hreads _ k hfresh hk
    exact ⟨s, hs, .mk hfirst hnext⟩

end Language

/-! ### Faithful parsers -/

namespace Parser

variable {α β : Type} {p q : Parser α} {R T : Reading α} {c : Cursor} {f : Failure}

/-- The parser gives only what is read so, and all that it expects where it fails can stand
there. -/
structure Faithful (p : Parser α) (R : Reading α) : Prop where
  sound : p.Sound R
  finish_eq : ∀ c a c', p.Gives c a c' → c'.finish = c.finish
  truthful : ∀ c f, p.Fails c f → f.expected ≠ [] ∧ ∀ x ∈ f.expected, Completable R c f.pos x
  isLocal : Local R
  writable : Writable R

/-- A single expectation at the cursor is met there. -/
theorem truthful_single {x : Expectation} (h : Offers R x) (hf : f = .single c.pos x) :
    f.expected ≠ [] ∧ ∀ y ∈ f.expected, Completable R c f.pos y := by
  subst hf
  refine ⟨List.cons_ne_nil x [], fun y hy => ?_⟩
  obtain rfl : y = x := List.mem_singleton.1 hy
  exact h.completable

/-- Faithful to one reading is faithful to another that has it as a case. -/
theorem Faithful.mono (hp : Faithful p R) (hRT : ∀ s a t, R s a t → T s a t) (hT : Local T) :
    Faithful p T where
  sound c a c' h := hRT _ _ _ (hp.sound c a c' h)
  finish_eq := hp.finish_eq
  truthful c f h := by
    obtain ⟨hne, hall⟩ := hp.truthful c f h
    exact ⟨hne, fun x hx => (hall x hx).mono (g := id) hRT⟩
  isLocal := hT
  writable := by
    obtain ⟨tokens, a, hopens⟩ := hp.writable
    exact ⟨tokens, a, hopens.mono fun s t => hRT s a t⟩

/-! ### Sequencing -/

theorem faithful_pure (a : α) : Faithful (pure a : Parser α) (Returns a) where
  sound c b c' h := by
    obtain ⟨rfl, rfl⟩ := gives_pure_iff.1 h
    exact .mk
  finish_eq c b c' h := by
    obtain ⟨-, rfl⟩ := gives_pure_iff.1 h
    rfl
  truthful _ _ h := absurd h not_fails_pure
  isLocal _ _ := backward_returns a
  writable := ⟨[], a, fun _ hmore => ⟨.mk, hmore⟩⟩

/-- Two parts in a row are faithful to their readings in a row. -/
theorem Faithful.bind {g : α → Parser β} {S : α → Reading β} (hp : Faithful p R)
    (hg : ∀ a, Faithful (g a) (S a)) : Faithful (p >>= g) (Then R S) where
  sound c b c' h := by
    obtain ⟨a, c₁, hfirst, hsecond⟩ := gives_bind_iff.1 h
    exact .mk (hp.sound _ _ _ hfirst) ((hg a).sound _ _ _ hsecond)
  finish_eq c b c' h := by
    obtain ⟨a, c₁, hfirst, hsecond⟩ := gives_bind_iff.1 h
    rw [(hg a).finish_eq _ _ _ hsecond, hp.finish_eq _ _ _ hfirst]
  truthful c f h := by
    rcases fails_bind h with hfirst | ⟨a, c₁, hgives, hsecond⟩
    -- Either the second part is written after a completion of the first, or the first part, which
    -- was read, is read again before a completion of the second.
    · obtain ⟨hne, hall⟩ := hp.truthful c f hfirst
      exact ⟨hne, fun x hx => (hall x hx).then_of_writable fun a => (hg a).writable⟩
    · obtain ⟨hne, hall⟩ := (hg a).truthful c₁ f hsecond
      have hread := hp.sound _ _ _ hgives
      have hfinish := hp.finish_eq _ _ _ hgives
      exact ⟨hne, fun x hx => (hall x hx).then_of_read hp.isLocal hread hfinish⟩
  isLocal k old := (hp.isLocal k old).then fun a => (hg a).isLocal k old
  writable := hp.writable.then fun a => (hg a).writable

theorem Faithful.map (hp : Faithful p R) (g : α → β) :
    Faithful (g <$> p) (Then R fun a => Returns (g a)) := by
  rw [← bind_pure_comp]
  exact hp.bind fun a => faithful_pure (g a)

theorem Faithful.seqRight {r : Parser β} {S : Reading β} (hp : Faithful p R) (hr : Faithful r S) :
    Faithful (p *> r) (Then R fun _ => S) := by
  rw [seqRight_eq_bind]
  exact hp.bind fun _ => hr

theorem Faithful.seqLeft {r : Parser β} {S : Reading β} (hp : Faithful p R) (hr : Faithful r S) :
    Faithful (p <* r) (Then R fun a => Then S fun _ => Returns a) := by
  rw [seqLeft_eq_bind]
  exact hp.bind fun a => hr.bind fun _ => faithful_pure a

/-! ### Choice -/

theorem faithful_refuse {x : Expectation} (hR : Local R) (h : Offers R x) :
    Faithful (refuse x : Parser α) R where
  sound _ _ _ hgives := absurd hgives not_gives_refuse
  finish_eq _ _ _ hgives := absurd hgives not_gives_refuse
  truthful _ _ hfails := truthful_single h (fails_refuse hfails)
  isLocal := hR
  writable := h.writable

/-- What two alternatives expect at one place is expected by one of them there. -/
theorem Faithful.orElse (hp : Faithful p R) (hq : Faithful q R) : Faithful (p <|> q) R where
  sound c a c' h := by
    rcases gives_orElse_iff.1 h with hfirst | ⟨-, hsecond⟩
    · exact hp.sound _ _ _ hfirst
    · exact hq.sound _ _ _ hsecond
  finish_eq c a c' h := by
    rcases gives_orElse_iff.1 h with hfirst | ⟨-, hsecond⟩
    · exact hp.finish_eq _ _ _ hfirst
    · exact hq.finish_eq _ _ _ hsecond
  truthful c f h := by
    rcases fails_orElse h with hfirst | ⟨f₁, f₂, hfirst, hsecond, rfl⟩
    · exact hp.truthful c f hfirst
    · obtain ⟨hne₁, hall₁⟩ := hp.truthful c f₁ hfirst
      obtain ⟨hne₂, hall₂⟩ := hq.truthful c f₂ hsecond
      refine ⟨Failure.expected_merge_ne_nil hne₁ hne₂, fun x hx => ?_⟩
      rcases Failure.mem_expected_merge hx with ⟨hmem, hpos⟩ | ⟨hmem, hpos⟩
      · rw [hpos]
        exact hall₁ x hmem
      · rw [hpos]
        exact hall₂ x hmem
  isLocal := hp.isLocal
  writable := hp.writable

theorem Faithful.attempt (hp : Faithful p R) : Faithful p.attempt R where
  sound c a c' h := hp.sound c a c' (gives_attempt_iff.1 h)
  finish_eq c a c' h := hp.finish_eq c a c' (gives_attempt_iff.1 h)
  truthful c f h := hp.truthful c f (fails_attempt h)
  isLocal := hp.isLocal
  writable := hp.writable

theorem Faithful.label {name : String} (hp : Faithful p R) (h : Offers R (.named name)) :
    Faithful (p.label name) R where
  sound c a c' hgives := hp.sound c a c' (gives_label_iff.1 hgives)
  finish_eq c a c' hgives := hp.finish_eq c a c' (gives_label_iff.1 hgives)
  truthful c f hfails := by
    rcases fails_label hfails with hinner | hnamed
    · exact hp.truthful c f hinner
    · exact truthful_single h hnamed
  isLocal := hp.isLocal
  writable := hp.writable

theorem Faithful.optional (hp : Faithful p R) : Faithful p.optional (Optionally R) where
  sound c o c' h := by
    rcases gives_optional_iff.1 h with ⟨a, rfl, hsome⟩ | ⟨rfl, rfl, -⟩
    · exact .some (hp.sound _ _ _ hsome)
    · exact .none
  finish_eq c o c' h := by
    rcases gives_optional_iff.1 h with ⟨a, -, hsome⟩ | ⟨-, rfl, -⟩
    · exact hp.finish_eq _ _ _ hsome
    · rfl
  truthful c f h := by
    obtain ⟨hne, hall⟩ := hp.truthful c f (fails_of_run (fails_optional h))
    exact ⟨hne, fun x hx => (hall x hx).mono (g := some) fun _ _ _ => .some⟩
  isLocal k old := (hp.isLocal k old).optionally
  writable := ⟨[], none, fun _ hmore => ⟨.none, hmore⟩⟩

/-! ### Repetition -/

theorem finish_of_repeated (hp : ∀ c a c', p.Gives c a c' → c'.finish = c.finish) {c' : Cursor}
    {as : List α} (h : Repeated p.Gives c as c') : c'.finish = c.finish := by
  induction h with
  | nil => rfl
  | cons hfirst _ ih => rw [ih, hp _ _ _ hfirst]

/-- A loop fails in a round, and a completion of that round completes the rounds up to it. -/
theorem Faithful.many (hp : Faithful p R) : Faithful p.many (Repeated R) where
  sound _ _ _ h := repeated_of_gives hp.sound h
  finish_eq _ _ _ h := finish_of_repeated hp.finish_eq (repeated_of_gives_many h)
  truthful c f h := by
    obtain ⟨as, c₁, hrun, hround⟩ := fails_many h
    obtain ⟨hne, hall⟩ := hp.truthful c₁ f hround
    have hread : Repeated R c.rest as c₁.rest := hrun.map Cursor.rest hp.sound
    have hfinish : c₁.finish = c.finish := finish_of_repeated hp.finish_eq hrun
    refine ⟨hne, fun x hx => ?_⟩
    refine (hall x hx).pull (fun a => as ++ [a]) hfinish fun k old s₁ a t hs₁ hlast => ?_
    obtain ⟨s, hs, hread'⟩ := hp.isLocal.repeated k old hread hs₁
    exact ⟨s, hs, hread'.concat hlast⟩
  isLocal := hp.isLocal.repeated
  writable := ⟨[], [], fun _ hmore => ⟨.nil, hmore⟩⟩

/-! ### Rules that refer to themselves -/

theorem faithful_recursive {name : String} {rule : Parser α → Parser α} (hR : Local R)
    (hname : Offers R (.named name)) (hrule : ∀ p, Faithful p R → Faithful (rule p) R) :
    Faithful (recursive name rule) R := by
  have hunroll : ∀ n, Faithful (unroll name rule n) R :=
    unroll_induction (faithful_refuse hR hname) hrule
  exact {
    sound := fun c a c' h => (hunroll (c.rest.length + 1)).sound c a c' h
    finish_eq := fun c a c' h => (hunroll (c.rest.length + 1)).finish_eq c a c' h
    truthful := fun c f h => (hunroll (c.rest.length + 1)).truthful c f h
    isLocal := hR
    writable := hname.writable }

end Parser

/-! ### Lexemes -/

namespace Lexeme

open Scriptlet.Parser

variable {text word : String}

theorem faithful_symbol (hmem : text ∈ symbols) : Faithful (symbol text) (Bare (Symbol text)) where
  sound _ _ _ h := symbol_of_gives h
  finish_eq _ _ _ h := finish_of_gives_exactly h
  truthful _ _ h := truthful_single (offers_symbol hmem) (fails_lexeme h)
  isLocal := local_symbol hmem
  writable := (offers_symbol hmem).writable

/-- The keyword `else` is left out: it is not expected anywhere. -/
theorem faithful_keyword (hmem : word ∈ keywords) (hne : word ≠ "else") :
    Faithful (keyword word) (Bare (Keyword word)) where
  sound _ _ _ h := keyword_of_gives h
  finish_eq _ _ _ h := finish_of_gives_exactly h
  truthful _ _ h := truthful_single (offers_keyword hmem hne) (fails_lexeme h)
  isLocal := local_keyword hmem
  writable := (offers_keyword hmem hne).writable

theorem faithful_identifier : Faithful identifier Identifier where
  sound _ _ _ h := identifier_of_gives h
  finish_eq _ _ _ h := finish_of_gives_identifier h
  truthful _ _ h := truthful_single offers_identifier (fails_lexeme h)
  isLocal := local_identifier
  writable := offers_identifier.writable

theorem faithful_integer : Faithful integer Literal where
  sound _ _ _ h := literal_of_gives h
  finish_eq _ _ _ h := finish_of_gives_integer h
  truthful c f h := by
    obtain ⟨name, hname, hf⟩ := fails_integer h
    exact truthful_single (offers_literal hname) hf
  isLocal := local_literal
  writable := (offers_literal (List.mem_cons_self ..)).writable

end Lexeme

end Scriptlet
