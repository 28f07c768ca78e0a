import Scriptlet.Proofs.Language.Forms

/-!
# How parsers run

The parsers of this library are functions, and a bound on loops and on openings of rules is built
into them. Here is what running a form means without such bounds, as rules: a part runs at a place
and replies, and what the combinator does next depends on that reply only. A rule that refers to
itself is entered by running its body, and a loop goes on for as long as its rounds consume input.
`Runs G bound active p c r` says that the form `p` comes to an end at `c` with the reply `r`, inside
the rules `active` that have been entered and not left. A run is made of the runs of the parts that
the form has, so there is no derivation for a run that does not end: a rule that begins with itself
has none (`not_finishes_of_begins_with_itself`), whatever its parser replies as a function.

The rules also keep a record of progress. A rule is entered again only at a later position than it
was entered before, there are never more than `bound` entries at a time, and a round after which the
loop goes on ends at a later position.

Main statements: a run has the reply that the parser of the form has (`Runs.run_eq`), and what the
combinators make of forms that finish does finish, where a part that always consumes input guards
what comes after it (`FinishesIn.bind`, `FinishesIn.guard`, `FinishesIn.many`).
-/

namespace Scriptlet

namespace Form

open Cursor Scriptlet.Parser

open Lexeme (Atom Primitive)

/-- The rules that have been entered and not left, each with the position where it was entered. -/
abbrev Entries (Rule : Type) :=
  List (Rule × Nat)

variable {Rule ν : Type}

mutual

/-- Inside the rules `active`, the form comes to an end at a place with a reply. -/
inductive Runs (G : Rulebook Rule ν) (bound : Nat) :
    Entries Rule → ∀ {α : Type}, Form Rule ν α → Cursor → Reply α → Prop
  | atom {active : Entries Rule} {α : Type} {a : Atom α} {h : Primitive α a.parser} {c : Cursor} :
    Runs G bound active (.atom a h) c (a.parser.run c)
  | pure {active : Entries Rule} {α : Type} {a : α} {c : Cursor} :
    Runs G bound active (.pure a) c ⟨false, .ok (a, c)⟩
  | map {active : Entries Rule} {α β : Type} {f : α → β} {p : Form Rule ν α} {c : Cursor}
    {r : Reply α} :
    Runs G bound active p c r → Runs G bound active (.map f p) c (r.map f)
  | bindOk {active : Entries Rule} {α β : Type} {p : Form Rule ν α} {f : α → Form Rule ν β}
    {c d : Cursor} {consumed : Bool} {a : α} {r : Reply β} :
    Runs G bound active p c ⟨consumed, .ok (a, d)⟩ → Runs G bound active (f a) d r →
    Runs G bound active (.bind p f) c (r.after consumed)
  | bindError {active : Entries Rule} {α β : Type} {p : Form Rule ν α} {f : α → Form Rule ν β}
    {c : Cursor} {consumed : Bool} {e : Failure} :
    Runs G bound active p c ⟨consumed, .error e⟩ →
    Runs G bound active (.bind p f) c ⟨consumed, .error e⟩
  | first {active : Entries Rule} {α : Type} {p q : Form Rule ν α} {c : Cursor} {r : Reply α} :
    Runs G bound active p c r → r.isRefusal = false → Runs G bound active (.orElse p q) c r
  | second {active : Entries Rule} {α : Type} {p q : Form Rule ν α} {c : Cursor} {consumed : Bool}
    {e : Failure} {success : α × Cursor} :
    Runs G bound active p c ⟨false, .error e⟩ → Runs G bound active q c ⟨consumed, .ok success⟩ →
    Runs G bound active (.orElse p q) c ⟨consumed, .ok success⟩
  | neither {active : Entries Rule} {α : Type} {p q : Form Rule ν α} {c : Cursor} {consumed : Bool}
    {e e' : Failure} :
    Runs G bound active p c ⟨false, .error e⟩ → Runs G bound active q c ⟨consumed, .error e'⟩ →
    Runs G bound active (.orElse p q) c ⟨consumed, .error (e.merge e')⟩
  | attemptOk {active : Entries Rule} {α : Type} {p : Form Rule ν α} {c : Cursor} {consumed : Bool}
    {success : α × Cursor} :
    Runs G bound active p c ⟨consumed, .ok success⟩ →
    Runs G bound active p.attempt c ⟨consumed, .ok success⟩
  | attemptError {active : Entries Rule} {α : Type} {p : Form Rule ν α} {c : Cursor}
    {consumed : Bool} {e : Failure} :
    Runs G bound active p c ⟨consumed, .error e⟩ →
    Runs G bound active p.attempt c ⟨false, .error e⟩
  | present {active : Entries Rule} {α : Type} {p : Form Rule ν α} {c : Cursor} {r : Reply α} :
    Runs G bound active p c r → r.isRefusal = false →
    Runs G bound active p.optional c (r.map some)
  | absent {active : Entries Rule} {α : Type} {p : Form Rule ν α} {c : Cursor} {e : Failure} :
    Runs G bound active p c ⟨false, .error e⟩ →
    Runs G bound active p.optional c ⟨false, .ok (none, c)⟩
  | named {active : Entries Rule} {α : Type} {p : Form Rule ν α} {name : String} {c : Cursor}
    {e : Failure} :
    Runs G bound active p c ⟨false, .error e⟩ → e.pos = c.pos →
    Runs G bound active (p.label name) c (.refusal c.pos (.named name))
  | unnamed {active : Entries Rule} {α : Type} {p : Form Rule ν α} {name : String} {c : Cursor}
    {r : Reply α} :
    Runs G bound active p c r → (∀ e, r = ⟨false, .error e⟩ → e.pos ≠ c.pos) →
    Runs G bound active (p.label name) c r
  | manyOk {active : Entries Rule} {α : Type} {p : Form Rule ν α} {c stop : Cursor} {as : List α} :
    Rounds G bound active p c (.ok (as, stop)) → Runs G bound active p.many c (.moved as c stop)
  | manyError {active : Entries Rule} {α : Type} {p : Form Rule ν α} {c : Cursor} {e : Failure} :
    Rounds G bound active p c (.error e) → Runs G bound active p.many c ⟨true, .error e⟩
  /-- A rule runs its body, further on than it was entered before. -/
  | enter {active : Entries Rule} {rule : Rule} {c : Cursor} {r : Reply ν} :
    active.length < bound → (∀ pos, (rule, pos) ∈ active → pos < c.pos) →
    Runs G bound ((rule, c.pos) :: active) (G.body rule) c r →
    Runs G bound active (.rule rule) c r

/-- A loop of the form comes to an end, with the values and the last place or with a failure. -/
inductive Rounds (G : Rulebook Rule ν) (bound : Nat) :
    Entries Rule → ∀ {α : Type}, Form Rule ν α → Cursor → Except Failure (List α × Cursor) → Prop
  | stop {active : Entries Rule} {α : Type} {p : Form Rule ν α} {c : Cursor}
    {result : Except Failure (α × Cursor)} :
    Runs G bound active p c ⟨false, result⟩ → Rounds G bound active p c (.ok ([], c))
  | fail {active : Entries Rule} {α : Type} {p : Form Rule ν α} {c : Cursor} {e : Failure} :
    Runs G bound active p c ⟨true, .error e⟩ → Rounds G bound active p c (.error e)
  | more {active : Entries Rule} {α : Type} {p : Form Rule ν α} {c d : Cursor} {a : α}
    {result : Except Failure (List α × Cursor)} :
    Runs G bound active p c ⟨true, .ok (a, d)⟩ → c.Reaches d → c.pos < d.pos →
    Rounds G bound active p d result →
    Rounds G bound active p c (result.map fun (as, stop) => (a :: as, stop))

end

end Form

namespace Parser

variable {α : Type} {p q : Parser α} {c : Cursor}

/-! ### Replies that do not refuse -/

/-- Where the first alternative does not refuse, a choice replies as it does. -/
theorem run_orElse_of_isRefusal_eq_false (h : (p.run c).isRefusal = false) :
    (p <|> q).run c = p.run c := by
  show (Parser.orElse p fun _ => q).run c = _
  match hrun : p.run c with
  | ⟨false, .error e⟩ =>
    rw [hrun] at h
    cases h
  | ⟨true, .error e⟩ => simp only [Parser.orElse, hrun]
  | ⟨_, .ok _⟩ => simp only [Parser.orElse, hrun]

theorem run_optional_of_isRefusal_eq_false (h : (p.run c).isRefusal = false) :
    p.optional.run c = (p.run c).map some := by
  match hrun : p.run c with
  | ⟨false, .error e⟩ =>
    rw [hrun] at h
    cases h
  | ⟨true, .error e⟩ => simp only [Parser.optional, hrun]
  | ⟨_, .ok _⟩ => simp only [Parser.optional, hrun]

theorem run_label_of_pos_ne {name : String}
    (h : ∀ e, p.run c = ⟨false, .error e⟩ → e.pos ≠ c.pos) : (p.label name).run c = p.run c := by
  match hrun : p.run c with
  | ⟨false, .error e⟩ => simp only [Parser.label, hrun, if_neg (h e hrun)]
  | ⟨true, .error e⟩ => simp only [Parser.label, hrun]
  | ⟨_, .ok _⟩ => simp only [Parser.label, hrun]

end Parser

namespace Form

open Cursor Scriptlet.Parser

open Lexeme (Atom Primitive)

variable {Rule ν α β γ : Type} {G : Rulebook Rule ν} {bound : Nat} {active : Entries Rule}
  {p q : Form Rule ν α} {c d : Cursor}

/-! ### Runs reply as the parsers do -/

mutual

/-- A run has the reply that the parser of the form has. -/
theorem Runs.run_eq {active : Entries Rule} {α : Type} {p : Form Rule ν α} {c : Cursor}
    {r : Reply α} (h : Runs G bound active p c r) : (G.parser p).run c = r :=
  match h with
  | .atom => rfl
  | .pure => rfl
  | .map (f := f) hp => congrArg (Reply.map f) hp.run_eq
  | .bindOk hp hf => (run_bind_of_ok hp.run_eq _).trans (by rw [hf.run_eq])
  | .bindError hp => run_bind_of_error hp.run_eq _
  | .first hp hr => by
    have hrun := hp.run_eq
    exact (run_orElse_of_isRefusal_eq_false (by rw [hrun]; exact hr)).trans hrun
  | .second hp hq =>
    (run_orElse_of_refuses ⟨_, hp.run_eq⟩ (gives_of_run hq.run_eq)).trans hq.run_eq
  | .neither (p := p) (q := q) (c := c) hp hq => by
    show (Parser.orElse (G.parser p) fun _ => G.parser q).run c = _
    simp only [Parser.orElse, hp.run_eq, hq.run_eq]
  | .attemptOk hp => by simp only [Form.parser, Parser.attempt, hp.run_eq]
  | .attemptError hp => by simp only [Form.parser, Parser.attempt, hp.run_eq]
  | .present hp hr => by
    have hrun := hp.run_eq
    rw [← hrun]
    exact run_optional_of_isRefusal_eq_false (by rw [hrun]; exact hr)
  | .absent hp => by simp only [Form.parser, Parser.optional, hp.run_eq]
  | .named hp hpos => by simp only [Form.parser, Parser.label, hp.run_eq, if_pos hpos]
  | .unnamed hp hpos => by
    have hrun := hp.run_eq
    exact (run_label_of_pos_ne (by rw [hrun]; exact hpos)).trans hrun
  | .manyOk hrounds => by
    simp only [Form.parser, Parser.many, hrounds.rounds_eq (Nat.lt_succ_self _)]
  | .manyError hrounds => by
    simp only [Form.parser, Parser.many, hrounds.rounds_eq (Nat.lt_succ_self _)]
  | .enter _ _ hbody => by
    rw [← hbody.run_eq]
    exact congrArg (fun p : Parser ν => p.run _) (G.handle_eq _)

/-- A loop ends as it does with any number of rounds above the number of characters left. -/
theorem Rounds.rounds_eq {active : Entries Rule} {α : Type} {p : Form Rule ν α} {c : Cursor}
    {result : Except Failure (List α × Cursor)} (h : Rounds G bound active p c result) {n : Nat}
    (hn : c.rest.length < n) : rounds (G.parser p) n c = result := by
  obtain ⟨n, rfl⟩ : ∃ m, n = m + 1 := ⟨n - 1, by omega⟩
  match h with
  | .stop hp => rw [Parser.rounds, hp.run_eq]
  | .fail hp => rw [Parser.rounds, hp.run_eq]
  | .more hp hreaches hpos hmore =>
    -- The round has taken a character, so one round less is enough from there.
    have hlength := hreaches.length_lt hpos
    rw [Parser.rounds, hp.run_eq]
    simp only [hmore.rounds_eq (show _ < n by omega)]

end

theorem result_of_map {r : Reply α} {f : α → β} {b : β} (h : (r.map f).result = .ok (b, d)) :
    ∃ a, r.result = .ok (a, d) := by
  match r with
  | ⟨_, .ok (a, stop)⟩ =>
    obtain ⟨-, rfl⟩ := Prod.mk.inj (Except.ok.inj h)
    exact ⟨a, rfl⟩

theorem ok_of_map {result : Except Failure (List α × Cursor)} {a : α} {as : List α}
    (h : result.map (fun (as, stop) => (a :: as, stop)) = .ok (as, d)) :
    ∃ others, result = .ok (others, d) := by
  match result with
  | .ok (others, stop) =>
    obtain ⟨-, rfl⟩ := Prod.mk.inj (Except.ok.inj h)
    exact ⟨others, rfl⟩

mutual

/-- A success of a run moves as its flag says. -/
theorem Runs.moves {active : Entries Rule} {α : Type} {p : Form Rule ν α} {c d : Cursor} {a : α}
    {r : Reply α} (h : Runs G bound active p c r) (hr : r.result = .ok (a, d)) :
    Moves r.consumed c d :=
  match h with
  | .atom (a := lexeme) (h := hlexeme) (c := c) =>
    hlexeme.honest.success c (lexeme.parser.run c).consumed a d (by rw [← hr])
  | .pure => by
    obtain ⟨-, rfl⟩ := Prod.mk.inj (Except.ok.inj hr)
    exact moves_refl _
  | .map hp => by
    obtain ⟨b, hb⟩ := result_of_map hr
    exact hp.moves hb
  | .bindOk hp hf => (hp.moves rfl).trans (hf.moves hr)
  | .first hp _ => hp.moves hr
  | .second _ hq => hq.moves hr
  | .attemptOk hp => hp.moves hr
  | .present hp _ => by
    obtain ⟨b, hb⟩ := result_of_map hr
    exact hp.moves hb
  | .absent _ => by
    obtain ⟨-, rfl⟩ := Prod.mk.inj (Except.ok.inj hr)
    exact moves_refl _
  | .unnamed hp _ => hp.moves hr
  | .manyOk hrounds => by
    obtain ⟨-, rfl⟩ := Prod.mk.inj (Except.ok.inj hr)
    exact (hrounds.reaches rfl).moves
  | .enter _ _ hbody => hbody.moves hr

theorem Rounds.reaches {active : Entries Rule} {α : Type} {p : Form Rule ν α} {c stop : Cursor}
    {as : List α} {result : Except Failure (List α × Cursor)}
    (h : Rounds G bound active p c result) (hresult : result = .ok (as, stop)) : c.Reaches stop :=
  match h with
  | .stop _ => by
    obtain ⟨-, rfl⟩ := Prod.mk.inj (Except.ok.inj hresult)
    exact Reaches.refl _
  | .more _ hreaches _ hmore => by
    obtain ⟨others, hothers⟩ := ok_of_map hresult
    exact hreaches.trans (hmore.reaches hothers)

end

end Form

/-! ### Parts of a text -/

/-- Places in a text, with all that is further on from each. -/
structure Region where
  mem : Cursor → Prop
  forward : ∀ {c d : Cursor}, mem c → c.Reaches d → mem d

namespace Region

/-- The place and all further on. -/
def fromPlace (c : Cursor) : Region where
  mem := c.Reaches
  forward := Cursor.Reaches.trans

/-- The places that come strictly after some place of the region. -/
def next (S : Region) : Region where
  mem d := ∃ c, S.mem c ∧ c.Reaches d ∧ c.pos < d.pos
  forward := by
    rintro d e ⟨c, hc, hcd, hpos⟩ hde
    exact ⟨c, hc, hcd.trans hde, Nat.lt_of_lt_of_le hpos hde.pos_le⟩

theorem mem_of_mem_next {S : Region} {d : Cursor} (h : S.next.mem d) : S.mem d := by
  obtain ⟨c, hc, hcd, -⟩ := h
  exact S.forward hc hcd

theorem mem_next_fromPlace {c d : Cursor} (h : (fromPlace c).next.mem d) :
    c.Reaches d ∧ c.pos < d.pos := by
  obtain ⟨e, hce, hed, hpos⟩ := h
  exact ⟨hce.trans hed, Nat.lt_of_le_of_lt hce.pos_le hpos⟩

end Region

namespace Form

open Cursor Scriptlet.Parser

open Lexeme (Atom Primitive)

variable {Rule ν α β γ : Type} {G : Rulebook Rule ν} {bound : Nat} {active : Entries Rule}
  {p q : Form Rule ν α} {c d : Cursor} {S : Region}

/-! ### Forms that finish -/

/-- The run of the form at `c` comes to an end. -/
def Finishes (G : Rulebook Rule ν) (bound : Nat) (active : Entries Rule) (p : Form Rule ν α)
    (c : Cursor) : Prop :=
  ∃ r, Runs G bound active p c r

/-- The form comes to an end at every place of the region. -/
def FinishesIn (G : Rulebook Rule ν) (bound : Nat) (active : Entries Rule) (S : Region)
    (p : Form Rule ν α) : Prop :=
  ∀ c, S.mem c → Finishes G bound active p c

theorem FinishesIn.next (h : FinishesIn G bound active S p) : FinishesIn G bound active S.next p :=
  fun c hc => h c (Region.mem_of_mem_next hc)

theorem finishesIn_atom (S : Region) (a : Atom α) (h : Primitive α a.parser) :
    FinishesIn G bound active S (.atom a h) :=
  fun _ _ => ⟨_, .atom⟩

theorem finishesIn_pure (S : Region) (a : α) :
    FinishesIn G bound active S (pure a : Form Rule ν α) :=
  fun _ _ => ⟨_, .pure⟩

theorem FinishesIn.map (hp : FinishesIn G bound active S p) (f : α → β) :
    FinishesIn G bound active S (f <$> p) := by
  intro c hc
  obtain ⟨r, hrun⟩ := hp c hc
  exact ⟨_, .map hrun⟩

/-- Two parts in a row finish if the second does wherever the first can stop. -/
theorem finishes_bind {f : α → Form Rule ν β} (hp : Finishes G bound active p c)
    (hf : ∀ a d, (G.parser p).Gives c a d → c.Reaches d → Finishes G bound active (f a) d) :
    Finishes G bound active (p >>= f) c := by
  obtain ⟨⟨consumed, result⟩, hrun⟩ := hp
  match result with
  | .error e => exact ⟨_, .bindError hrun⟩
  | .ok (a, d) =>
    obtain ⟨r, hr⟩ := hf a d (gives_of_run hrun.run_eq) (hrun.moves rfl).reaches
    exact ⟨_, .bindOk hrun hr⟩

theorem FinishesIn.bind {f : α → Form Rule ν β} (hp : FinishesIn G bound active S p)
    (hf : ∀ a, FinishesIn G bound active S (f a)) : FinishesIn G bound active S (p >>= f) :=
  fun c hc => finishes_bind (hp c hc) fun a d _ hreaches => hf a d (S.forward hc hreaches)

/-- After a part that always consumes input, the second part need only finish further on. -/
theorem FinishesIn.guard {f : α → Form Rule ν β} (hp : FinishesIn G bound active S p)
    (hadv : (G.parser p).Advancing) (hf : ∀ a, FinishesIn G bound active S.next (f a)) :
    FinishesIn G bound active S (p >>= f) := by
  intro c hc
  refine finishes_bind (hp c hc) fun a d hgives hreaches => hf a d ?_
  exact ⟨c, hc, hreaches, hreaches.pos_lt (hadv c a d hgives).2⟩

theorem FinishesIn.seqRight {r : Form Rule ν β} (hp : FinishesIn G bound active S p)
    (hr : FinishesIn G bound active S r) : FinishesIn G bound active S (p *> r) :=
  hp.bind fun _ => hr

theorem FinishesIn.guardRight {r : Form Rule ν β} (hp : FinishesIn G bound active S p)
    (hadv : (G.parser p).Advancing) (hr : FinishesIn G bound active S.next r) :
    FinishesIn G bound active S (p *> r) :=
  hp.guard hadv fun _ => hr

theorem FinishesIn.seqLeft {r : Form Rule ν β} (hp : FinishesIn G bound active S p)
    (hr : FinishesIn G bound active S r) : FinishesIn G bound active S (p <* r) :=
  hp.bind fun a => hr.bind fun _ => finishesIn_pure S a

/-- What stands between brackets need only finish after the opening one. -/
theorem FinishesIn.between {opening : Form Rule ν β} {closing : Form Rule ν γ}
    (hp : FinishesIn G bound active S.next p) (ho : FinishesIn G bound active S opening)
    (hadv : (G.parser opening).Advancing) (hz : FinishesIn G bound active S closing) :
    FinishesIn G bound active S (p.between opening closing) :=
  (ho.guardRight hadv hp).seqLeft hz

theorem FinishesIn.orElse (hp : FinishesIn G bound active S p)
    (hq : FinishesIn G bound active S q) : FinishesIn G bound active S (p <|> q) := by
  intro c hc
  obtain ⟨r, hrun⟩ := hp c hc
  match r with
  | ⟨true, _⟩ => exact ⟨_, .first hrun rfl⟩
  | ⟨false, .ok _⟩ => exact ⟨_, .first hrun rfl⟩
  | ⟨false, .error e⟩ =>
    obtain ⟨⟨consumed, result⟩, hrun'⟩ := hq c hc
    cases result with
    | error e' => exact ⟨_, .neither hrun hrun'⟩
    | ok success => exact ⟨_, .second hrun hrun'⟩

theorem FinishesIn.attempt (hp : FinishesIn G bound active S p) :
    FinishesIn G bound active S p.attempt := by
  intro c hc
  obtain ⟨⟨consumed, result⟩, hrun⟩ := hp c hc
  cases result with
  | error e => exact ⟨_, .attemptError hrun⟩
  | ok success => exact ⟨_, .attemptOk hrun⟩

theorem FinishesIn.optional (hp : FinishesIn G bound active S p) :
    FinishesIn G bound active S p.optional := by
  intro c hc
  obtain ⟨r, hrun⟩ := hp c hc
  match r with
  | ⟨true, _⟩ => exact ⟨_, .present hrun rfl⟩
  | ⟨false, .ok _⟩ => exact ⟨_, .present hrun rfl⟩
  | ⟨false, .error e⟩ => exact ⟨_, .absent hrun⟩

theorem FinishesIn.label (hp : FinishesIn G bound active S p) (name : String) :
    FinishesIn G bound active S (p.label name) := by
  intro c hc
  obtain ⟨r, hrun⟩ := hp c hc
  by_cases h : ∃ e, r = ⟨false, .error e⟩ ∧ e.pos = c.pos
  · obtain ⟨e, rfl, hpos⟩ := h
    exact ⟨_, .named hrun hpos⟩
  · exact ⟨_, .unnamed hrun fun e he hpos => h ⟨e, he, hpos⟩⟩

/-- A loop comes to an end if its rounds do: one that goes on leaves fewer characters. -/
theorem FinishesIn.exists_rounds (hp : FinishesIn G bound active S p) (c : Cursor) (hc : S.mem c) :
    ∃ result, Rounds G bound active p c result := by
  induction hn : c.rest.length using Nat.strongRecOn generalizing c with
  | _ n ih =>
    obtain ⟨r, hrun⟩ := hp c hc
    match r with
    | ⟨false, _⟩ => exact ⟨_, .stop hrun⟩
    | ⟨true, .error e⟩ => exact ⟨_, .fail hrun⟩
    | ⟨true, .ok (a, d)⟩ =>
      obtain ⟨hreaches, hpos⟩ := (hrun.moves rfl).forward rfl
      have hlength : d.rest.length < n := hn ▸ hreaches.length_lt hpos
      obtain ⟨result, hmore⟩ := ih _ hlength d (S.forward hc hreaches) rfl
      exact ⟨_, .more hrun hreaches hpos hmore⟩

theorem FinishesIn.many (hp : FinishesIn G bound active S p) :
    FinishesIn G bound active S p.many := by
  intro c hc
  obtain ⟨result, hrounds⟩ := hp.exists_rounds c hc
  match result with
  | .ok (as, stop) => exact ⟨_, .manyOk hrounds⟩
  | .error e => exact ⟨_, .manyError hrounds⟩

theorem FinishesIn.sepBy {separator : Form Rule ν β} (hp : FinishesIn G bound active S p)
    (hsep : FinishesIn G bound active S separator) :
    FinishesIn G bound active S (p.sepBy separator) := by
  have hlist : FinishesIn G bound active S (p.sepBy1 separator) :=
    hp.bind fun _ => (hsep.seqRight hp).many.bind fun _ => finishesIn_pure S _
  exact hlist.optional.map _

theorem FinishesIn.chainLeft {operator : Form Rule ν (α → α → α)}
    (hp : FinishesIn G bound active S p) (ho : FinishesIn G bound active S operator) :
    FinishesIn G bound active S (p.chainLeft operator) :=
  hp.bind fun _ =>
    (ho.bind fun _ => hp.bind fun _ => finishesIn_pure S _).many.bind fun _ => finishesIn_pure S _

/-- A rule comes to an end where its body does, provided that it was last entered earlier. -/
theorem finishes_rule {rule : Rule} (hbound : active.length < bound)
    (hbehind : ∀ pos, (rule, pos) ∈ active → pos < c.pos)
    (hbody : Finishes G bound ((rule, c.pos) :: active) (G.body rule) c) :
    Finishes G bound active (.rule rule) c := by
  obtain ⟨r, hrun⟩ := hbody
  exact ⟨r, .enter hbound hbehind hrun⟩

/-- A rule that begins with itself does not come to an end. -/
theorem not_finishes_of_begins_with_itself {rule : Rule} {f : ν → Form Rule ν ν}
    (h : G.body rule = .bind (.rule rule) f) (bound : Nat) (active : Entries Rule) (c : Cursor) :
    ¬ Finishes G bound active (.rule rule) c := by
  rintro ⟨r, hrun⟩
  cases hrun with
  | enter _ _ hbody =>
    rw [h] at hbody
    -- The inner run of the rule is entered at the place where the outer one was.
    have hagain : Finishes G bound ((rule, c.pos) :: active) (.rule rule) c := by
      cases hbody with
      | bindOk hfirst _ => exact ⟨_, hfirst⟩
      | bindError hfirst => exact ⟨_, hfirst⟩
    obtain ⟨r', hinner⟩ := hagain
    cases hinner with
    | enter _ hbehind _ => exact Nat.lt_irrefl _ (hbehind c.pos List.mem_cons_self)

/-- A form that finishes has one run, and its reply is that of its parser. -/
theorem Finishes.runs_iff (h : Finishes G bound active p c) {r : Reply α} :
    Runs G bound active p c r ↔ (G.parser p).run c = r := by
  constructor
  · exact Runs.run_eq
  · rintro rfl
    obtain ⟨r, hrun⟩ := h
    rw [hrun.run_eq]
    exact hrun

end Form

end Scriptlet
