import Scriptlet.Proofs.Parsing.Progress

/-!
# Parsers that may not return

A `Parser` is a function and replies at every place. A parser in general need not, since a loop may
go on for ever. What it replies is then a relation between places and replies (`Replies`), and a
loop is a relation too, which holds of the places from where it comes to an end (`Loops`). The loop
goes on for as long as its rounds succeed and consume input, without a limit or up to one.

With the limit that `Parser.many` has, the loop of this relation is the one of the function
(`replies_many`). An honest parser takes a character in every round that goes on, and for such a
parser the loop without a limit is the same (`replies_many_of_honest`). A parser that hands back a
cursor over another text may go on for longer.
-/

namespace Scriptlet

namespace Reply

variable {α β : Type} {r : Reply α} {f : α → β} {consumed : Bool}

theorem map_eq_error_iff {e : Failure} :
    r.map f = ⟨consumed, .error e⟩ ↔ r = ⟨consumed, .error e⟩ := by
  obtain ⟨flag, result⟩ := r
  cases result <;> simp [Reply.map, Except.map]

theorem map_eq_ok_iff {b : β} {d : Cursor} :
    r.map f = ⟨consumed, .ok (b, d)⟩ ↔ ∃ a, r = ⟨consumed, .ok (a, d)⟩ ∧ f a = b := by
  obtain ⟨flag, result⟩ := r
  cases result with
  | error e => simp [Reply.map, Except.map]
  | ok success =>
    obtain ⟨a, stop⟩ := success
    simp only [Reply.map, Except.map, Reply.mk.injEq, Except.ok.injEq, Prod.mk.injEq]
    grind

end Reply

/-- What a parser replies at each place. Where it has no reply, it does not return. -/
def Replies (α : Type) : Type :=
  Cursor → Reply α → Prop

namespace Replies

variable {α β γ : Type} {p : Replies α} {f : α → Replies β} {c d e : Cursor} {limit : Option Nat}
  {result result' : Except Failure (List α × Cursor)}

@[ext]
theorem ext {p q : Replies α} (h : ∀ c r, p c r ↔ q c r) : p = q :=
  funext fun c => funext fun r => propext (h c r)

/-- The first part and, where it succeeds, the second. -/
inductive Bind (p : Replies α) (f : α → Replies β) : Cursor → Reply β → Prop
  | ok {c d : Cursor} {consumed consumed' : Bool} {a : α} {result : Except Failure (β × Cursor)} :
    p c ⟨consumed, .ok (a, d)⟩ → f a d ⟨consumed', result⟩ →
    Bind p f c ⟨consumed || consumed', result⟩
  | error {c : Cursor} {consumed : Bool} {e : Failure} :
    p c ⟨consumed, .error e⟩ → Bind p f c ⟨consumed, .error e⟩

instance : Monad Replies where
  pure a := fun c r => r = ⟨false, .ok (a, c)⟩
  bind := Bind

theorem map_iff {g : α → β} {s : Reply β} : (g <$> p) c s ↔ ∃ r, p c r ∧ s = r.map g := by
  constructor
  · intro h
    cases h with
    | ok hp hpure =>
      obtain ⟨rfl, rfl⟩ := Reply.mk.inj hpure
      exact ⟨_, hp, by rw [Bool.or_false]; rfl⟩
    | error hp => exact ⟨_, hp, rfl⟩
  · rintro ⟨⟨consumed, result⟩, hp, rfl⟩
    cases result with
    | error e => exact .error hp
    | ok success =>
      have hbind := Bind.ok (f := pure ∘ g) hp rfl
      rwa [Bool.or_false] at hbind

instance : LawfulMonad Replies := by
  refine LawfulMonad.mk' Replies (fun p => ?_) (fun a f => ?_) fun p f g => ?_
  · ext c r
    rw [map_iff]
    simp
  · ext c r
    constructor
    · intro h
      cases h with
      | ok hpure hf =>
        obtain ⟨rfl, heq⟩ := Reply.mk.inj hpure
        obtain ⟨rfl, rfl⟩ := Prod.mk.inj (Except.ok.inj heq)
        rwa [Bool.false_or]
      | error hpure => cases hpure
    · intro h
      have hbind := Bind.ok (p := pure a) (f := f) (c := c) rfl h
      rwa [Bool.false_or] at hbind
  · ext c r
    constructor
    · intro h
      cases h with
      | ok h hg =>
        cases h with
        | ok hp hf =>
          rw [Bool.or_assoc]
          exact .ok hp (.ok hf hg)
      | error h =>
        cases h with
        | ok hp hf => exact .ok hp (.error hf)
        | error hp => exact .error hp
    · intro h
      cases h with
      | ok hp h =>
        cases h with
        | ok hf hg =>
          rw [← Bool.or_assoc]
          exact .ok (.ok hp hf) hg
        | error hf => exact .error (.ok hp hf)
      | error hp => exact .error (.error hp)

/-! ### Loops -/

/-- Rounds in a row come to an end, with the values and the last place or with a failure. They go on
for as long as they succeed and consume input, but for no more than `limit` rounds if that is a
number. -/
inductive Loops (p : Replies α) :
    Option Nat → Cursor → Except Failure (List α × Cursor) → Prop
  | cut {c : Cursor} : Loops p (some 0) c (.ok ([], c))
  | stop {limit : Option Nat} {c : Cursor} {result : Except Failure (α × Cursor)} :
    limit ≠ some 0 → p c ⟨false, result⟩ → Loops p limit c (.ok ([], c))
  | fail {limit : Option Nat} {c : Cursor} {e : Failure} :
    limit ≠ some 0 → p c ⟨true, .error e⟩ → Loops p limit c (.error e)
  | more {limit : Option Nat} {c d : Cursor} {a : α}
    {result : Except Failure (List α × Cursor)} :
    limit ≠ some 0 → p c ⟨true, .ok (a, d)⟩ → Loops p (limit.map (· - 1)) d result →
    Loops p limit c (result.map fun (as, stop) => (a :: as, stop))

/-- What a loop that started at `c` replies in the end. -/
def ended (c : Cursor) : Except Failure (List α × Cursor) → Reply (List α)
  | .ok (as, stop) => .moved as c stop
  | .error e => ⟨true, .error e⟩

/-- Zero or more times `p`, with a limit on the number of rounds that may depend on the place. -/
def many (limit : Cursor → Option Nat) (p : Replies α) : Replies (List α) :=
  fun c r => ∃ result, Loops p (limit c) c result ∧ r = ended c result

/-- One or more times `p`, with `separator` between. -/
def sepBy1 (limit : Cursor → Option Nat) (p : Replies α) (separator : Replies β) :
    Replies (List α) := do
  let first ← p
  let others ← many limit (separator *> p)
  return first :: others

/-- One or more times `p`, with operators between, joined from the left. -/
def chainLeft (limit : Cursor → Option Nat) (p : Replies α) (operator : Replies (α → α → α)) :
    Replies α := do
  let first ← p
  let others ← many limit do
    let join ← operator
    let operand ← p
    return (join, operand)
  return others.foldl (fun left (join, right) => join left right) first

/-! ### At most one reply -/

/-- There is at most one reply at each place. -/
def Single (p : Replies α) : Prop :=
  ∀ c r s, p c r → p c s → r = s

theorem single_pure (a : α) : (pure a : Replies α).Single :=
  fun _ _ _ hr hs => Eq.trans hr (Eq.symm hs)

theorem Single.bind (hp : p.Single) (hf : ∀ a, (f a).Single) : (p >>= f).Single := by
  intro c r s hr hs
  cases hr with
  | ok hr hfr =>
    cases hs with
    | ok hs hfs =>
      obtain ⟨rfl, heq⟩ := Reply.mk.inj (hp _ _ _ hr hs)
      obtain ⟨rfl, rfl⟩ := Prod.mk.inj (Except.ok.inj heq)
      obtain ⟨rfl, rfl⟩ := Reply.mk.inj (hf _ _ _ _ hfr hfs)
      rfl
    | error hs => cases hp _ _ _ hr hs
  | error hr =>
    cases hs with
    | ok hs _ => cases hp _ _ _ hr hs
    | error hs =>
      obtain ⟨rfl, heq⟩ := Reply.mk.inj (hp _ _ _ hr hs)
      rw [Except.error.inj heq]

theorem Single.seqRight {q : Replies β} (hp : p.Single) (hq : q.Single) : (p *> q).Single := by
  rw [seqRight_eq_bind]
  exact hp.bind fun _ => hq

theorem Loops.unique (hp : p.Single) (h : Loops p limit c result) (h' : Loops p limit c result') :
    result = result' := by
  induction h generalizing result' with
  | cut =>
    cases h' with
    | cut => rfl
    | stop hlimit => exact absurd rfl hlimit
    | fail hlimit => exact absurd rfl hlimit
    | more hlimit => exact absurd rfl hlimit
  | stop hlimit hround =>
    cases h' with
    | cut => rfl
    | stop => rfl
    | fail _ hround' => cases hp _ _ _ hround hround'
    | more _ hround' => cases hp _ _ _ hround hround'
  | fail hlimit hround =>
    cases h' with
    | cut => exact absurd rfl hlimit
    | stop _ hround' => cases hp _ _ _ hround hround'
    | fail _ hround' => rw [Except.error.inj (Reply.mk.inj (hp _ _ _ hround hround')).2]
    | more _ hround' => cases hp _ _ _ hround hround'
  | more hlimit hround _ ih =>
    cases h' with
    | cut => exact absurd rfl hlimit
    | stop _ hround' => cases hp _ _ _ hround hround'
    | fail _ hround' => cases hp _ _ _ hround hround'
    | more _ hround' hmore' =>
      have heq := Except.ok.inj (Reply.mk.inj (hp _ _ _ hround hround')).2
      obtain ⟨rfl, rfl⟩ := Prod.mk.inj heq
      rw [ih hmore']

theorem Single.many (hp : p.Single) (limit : Cursor → Option Nat) : (p.many limit).Single := by
  rintro c _ _ ⟨result, hresult, rfl⟩ ⟨result', hresult', rfl⟩
  rw [hresult.unique hp hresult']

/-! ### Successes -/

/-- The parser succeeds at `c` with the value and stops at `d`. -/
def Gives (p : Replies α) (c : Cursor) (a : α) (d : Cursor) : Prop :=
  ∃ consumed, p c ⟨consumed, .ok (a, d)⟩

theorem Gives.unique {a b : α} (hp : p.Single) (h : p.Gives c a d) (h' : p.Gives c b e) :
    a = b ∧ d = e := by
  obtain ⟨consumed, hgives⟩ := h
  obtain ⟨consumed', hgives'⟩ := h'
  exact Prod.mk.inj (Except.ok.inj (Reply.mk.inj (hp _ _ _ hgives hgives')).2)

theorem gives_pure_iff {a b : α} : (pure a : Replies α).Gives c b d ↔ b = a ∧ d = c := by
  constructor
  · rintro ⟨consumed, h⟩
    exact Prod.mk.inj (Except.ok.inj (Reply.mk.inj h).2)
  · rintro ⟨rfl, rfl⟩
    exact ⟨false, rfl⟩

theorem exists_of_gives_bind {b : β} (h : (p >>= f).Gives c b e) :
    ∃ a d, p.Gives c a d ∧ (f a).Gives d b e := by
  obtain ⟨consumed, h⟩ := h
  cases h with
  | ok hp hf => exact ⟨_, _, ⟨_, hp⟩, ⟨_, hf⟩⟩

/-- The values of a loop are those of a run of its rounds. -/
theorem Loops.repeated {as : List α} (h : Loops p limit c result) (hresult : result = .ok (as, d)) :
    Repeated p.Gives c as d := by
  induction h generalizing as with
  | cut =>
    obtain ⟨rfl, rfl⟩ := Prod.mk.inj (Except.ok.inj hresult)
    exact .nil
  | stop =>
    obtain ⟨rfl, rfl⟩ := Prod.mk.inj (Except.ok.inj hresult)
    exact .nil
  | fail => cases hresult
  | @more _ _ _ a result _ hround _ ih =>
    match result with
    | .ok (others, last) =>
      obtain ⟨rfl, rfl⟩ := Prod.mk.inj (Except.ok.inj hresult)
      exact .cons ⟨true, hround⟩ (ih rfl)

theorem repeated_of_gives_many {limit : Cursor → Option Nat} {as : List α}
    (h : (p.many limit).Gives c as d) : Repeated p.Gives c as d := by
  obtain ⟨consumed, result, hresult, hended⟩ := h
  match result with
  | .ok (others, stop) =>
    obtain ⟨rfl, rfl⟩ := Prod.mk.inj (Except.ok.inj (Reply.mk.inj hended).2)
    exact hresult.repeated rfl

/-! ### Loops whose values are changed -/

/-- A function on the values of the rounds changes neither how many there are nor how they end. -/
theorem loops_map_iff (g : α → β) {result : Except Failure (List β × Cursor)} :
    Loops (g <$> p) limit c result ↔
      ∃ result', Loops p limit c result' ∧
        result = result'.map fun (as, stop) => (as.map g, stop) := by
  constructor
  · intro h
    induction h with
    | cut => exact ⟨_, .cut, rfl⟩
    | stop hlimit hround =>
      obtain ⟨⟨consumed, r⟩, hp, hr⟩ := map_iff.1 hround
      obtain ⟨rfl, -⟩ := Reply.mk.inj hr
      exact ⟨_, .stop hlimit hp, rfl⟩
    | fail hlimit hround =>
      obtain ⟨r, hp, hr⟩ := map_iff.1 hround
      obtain rfl := Reply.map_eq_error_iff.1 hr.symm
      exact ⟨_, .fail hlimit hp, rfl⟩
    | more hlimit hround _ ih =>
      obtain ⟨r, hp, hr⟩ := map_iff.1 hround
      obtain ⟨a, rfl, rfl⟩ := Reply.map_eq_ok_iff.1 hr.symm
      obtain ⟨result', hmore, rfl⟩ := ih
      refine ⟨_, .more hlimit hp hmore, ?_⟩
      cases result' <;> rfl
  · rintro ⟨result', h, rfl⟩
    induction h with
    | cut => exact .cut
    | stop hlimit hround => exact .stop hlimit (map_iff.2 ⟨_, hround, rfl⟩)
    | fail hlimit hround => exact .fail hlimit (map_iff.2 ⟨_, hround, rfl⟩)
    | @more _ _ _ a result' hlimit hround _ ih =>
      have hmore := Loops.more hlimit (map_iff.2 ⟨_, hround, rfl⟩) ih
      cases result' <;> exact hmore

theorem many_map (limit : Cursor → Option Nat) (g : α → β) (p : Replies α) :
    many limit (g <$> p) = List.map g <$> many limit p := by
  have hended (c : Cursor) (result : Except Failure (List α × Cursor)) :
      ended c (result.map fun (as, stop) => (as.map g, stop)) =
        (ended c result).map (List.map g) := by
    cases result <;> rfl
  ext c r
  rw [map_iff]
  constructor
  · rintro ⟨result, hresult, rfl⟩
    obtain ⟨result', hloops, rfl⟩ := (loops_map_iff g).1 hresult
    exact ⟨_, ⟨result', hloops, rfl⟩, hended c result'⟩
  · rintro ⟨_, ⟨result', hloops, rfl⟩, rfl⟩
    exact ⟨_, (loops_map_iff g).2 ⟨result', hloops, rfl⟩, (hended c result').symm⟩

end Replies

/-! ### The replies of functions -/

namespace Parser

open Scriptlet.Replies

variable {α β : Type} {p : Parser α} {operator : Parser (α → α → α)} {c : Cursor}

/-- The reply of a parser, which is one at each place. -/
def replies (p : Parser α) : Replies α :=
  fun c r => p.run c = r

theorem single_replies (p : Parser α) : p.replies.Single :=
  fun _ _ _ hr hs => Eq.trans (Eq.symm hr) hs

theorem replies_pure (a : α) : (pure a : Parser α).replies = pure a := by
  ext c r
  exact eq_comm

theorem replies_bind (p : Parser α) (f : α → Parser β) :
    (p >>= f).replies = p.replies >>= fun a => (f a).replies := by
  ext c r
  have hrun : (p.replies >>= fun a => (f a).replies) c ((p >>= f).run c) := by
    match hp : p.run c with
    | ⟨consumed, .ok (a, d)⟩ =>
      rw [run_bind_of_ok hp]
      exact .ok hp rfl
    | ⟨consumed, .error e⟩ =>
      rw [run_bind_of_error hp]
      exact .error hp
  constructor
  · rintro rfl
    exact hrun
  · exact (single_replies p).bind (fun a => single_replies (f a)) _ _ _ hrun

theorem replies_seqRight (p : Parser α) (q : Parser β) :
    (p *> q).replies = p.replies *> q.replies := by
  rw [seqRight_eq_bind, seqRight_eq_bind, replies_bind]

/-- A number of rounds is a loop with that limit. -/
theorem loops_rounds (p : Parser α) (n : Nat) (c : Cursor) :
    Loops p.replies (some n) c (rounds p n c) := by
  induction n generalizing c with
  | zero => exact .cut
  | succ n ih =>
    have hlimit : some (n + 1) ≠ some 0 := by simp
    match hrun : p.run c with
    | ⟨true, .ok (a, d)⟩ =>
      simp only [rounds, hrun]
      exact .more hlimit hrun (ih d)
    | ⟨true, .error e⟩ =>
      simp only [rounds, hrun]
      exact .fail hlimit hrun
    | ⟨false, result⟩ =>
      simp only [rounds, hrun]
      exact .stop hlimit hrun

/-- An honest parser takes a character in each round that goes on, so that more rounds than there
are characters left are as good as any number. -/
theorem loops_rounds_of_honest (hp : p.Honest) (n : Nat) (c : Cursor) (hn : c.rest.length < n) :
    Loops p.replies none c (rounds p n c) := by
  induction n generalizing c with
  | zero => omega
  | succ n ih =>
    have hlimit : (none : Option Nat) ≠ some 0 := by simp
    match hrun : p.run c with
    | ⟨true, .ok (a, d)⟩ =>
      obtain ⟨hreaches, hpos⟩ := (hp.success c true a d hrun).forward rfl
      have hlength := hreaches.length_lt hpos
      simp only [rounds, hrun]
      exact .more hlimit hrun (ih d (by omega))
    | ⟨true, .error e⟩ =>
      simp only [rounds, hrun]
      exact .fail hlimit hrun
    | ⟨false, result⟩ =>
      simp only [rounds, hrun]
      exact .stop hlimit hrun

/-- The loop of a function is the loop of its replies with any limit under which they end alike. -/
theorem replies_many_of_loops {limit : Cursor → Option Nat}
    (h : ∀ c, Loops p.replies (limit c) c (rounds p (c.rest.length + 1) c)) :
    p.many.replies = p.replies.many limit := by
  have hrun (c : Cursor) : p.many.run c = ended c (rounds p (c.rest.length + 1) c) := by
    unfold Parser.many ended
    rfl
  ext c r
  constructor
  · rintro rfl
    exact ⟨_, h c, hrun c⟩
  · rintro ⟨result, hresult, rfl⟩
    show p.many.run c = _
    rw [hrun, (h c).unique (single_replies p) hresult]

theorem replies_many (p : Parser α) :
    p.many.replies = p.replies.many fun c => some (c.rest.length + 1) :=
  replies_many_of_loops fun c => loops_rounds p _ c

theorem replies_many_of_honest (hp : p.Honest) : p.many.replies = p.replies.many fun _ => none :=
  replies_many_of_loops fun c => loops_rounds_of_honest hp _ c (Nat.lt_succ_self _)

end Parser

end Scriptlet
