import Scriptlet.Proofs.Language.Offsets
import Scriptlet.Proofs.Language.Termination

/-!
# Reading a text by offsets

`Executes G source p c` says that the form comes to an end at a place of the text and that on the
way every lexeme, executed by offsets, does its work without breaking off. Each combinator is
followed to the parts that it runs: the second of two parts where the first stops, an alternative
where the one before it refuses, the next round where the last one stops, the body of a rule where
the rule begins.

Main statement: a run that starts at a place of the text goes from place to place, so nothing on it
breaks off (`Runs.executes`). Programs and expressions run to an end on every text, hence they
execute (`executes_program`, `executes_whole_expression`).
-/

namespace Scriptlet

namespace Form

open Cursor Scriptlet.Parser

open Lexeme (Atom Primitive)

variable {Rule ν : Type}

/-- The form comes to an end at the place, and no operation on the way breaks off. -/
inductive Executes (G : Rulebook Rule ν) (source : List Char) :
    ∀ {α : Type}, Form Rule ν α → Cursor → Prop
  | atom {α : Type} {a : Atom α} {h : Primitive α a.parser} {c : Cursor} :
    a.execute? source c.pos = some (a.parser.run c) → Executes G source (.atom a h) c
  | pure {α : Type} {a : α} {c : Cursor} : Executes G source (.pure a) c
  | map {α β : Type} {f : α → β} {p : Form Rule ν α} {c : Cursor} :
    Executes G source p c → Executes G source (.map f p) c
  | bind {α β : Type} {p : Form Rule ν α} {f : α → Form Rule ν β} {c : Cursor} :
    Executes G source p c → (∀ a d, (G.parser p).Gives c a d → Executes G source (f a) d) →
    Executes G source (.bind p f) c
  | orElse {α : Type} {p q : Form Rule ν α} {c : Cursor} :
    Executes G source p c → ((G.parser p).Refuses c → Executes G source q c) →
    Executes G source (.orElse p q) c
  | attempt {α : Type} {p : Form Rule ν α} {c : Cursor} :
    Executes G source p c → Executes G source p.attempt c
  | optional {α : Type} {p : Form Rule ν α} {c : Cursor} :
    Executes G source p c → Executes G source p.optional c
  | label {α : Type} {p : Form Rule ν α} {name : String} {c : Cursor} :
    Executes G source p c → Executes G source (p.label name) c
  | many {α : Type} {p : Form Rule ν α} {c : Cursor} :
    Executes G source p c →
    (∀ a d, (G.parser p).run c = ⟨true, .ok (a, d)⟩ → Executes G source p.many d) →
    Executes G source p.many c
  | rule {r : Rule} {c : Cursor} :
    Executes G source (G.body r) c → Executes G source (.rule r) c

variable {G : Rulebook Rule ν} {bound : Nat} {source : List Char}

mutual

/-- A run that starts at a place of the text stays at places of the text. -/
theorem Runs.executes {active : Entries Rule} {α : Type} {p : Form Rule ν α} {c : Cursor}
    {r : Reply α} (h : Runs G bound active p c r) (hc : c.Over source) : Executes G source p c :=
  match h with
  | .atom (a := a) => .atom (a.execute?_eq hc)
  | .pure => .pure
  | .map hp => .map (hp.executes hc)
  | .bindOk hp hf => by
    refine .bind (hp.executes hc) fun a d hgives => ?_
    rw [Gives, hp.run_eq] at hgives
    obtain ⟨rfl, rfl⟩ := Prod.mk.inj (Except.ok.inj hgives)
    -- The first part has moved forward in the text, so the second begins at a place of it.
    exact hf.executes (hc.reaches (hp.moves rfl).reaches)
  | .bindError hp => by
    refine .bind (hp.executes hc) fun a d hgives => ?_
    rw [Gives, hp.run_eq] at hgives
    exact nomatch hgives
  | .first hp hr => by
    refine .orElse (hp.executes hc) fun hrefuses => ?_
    obtain ⟨f, hrun⟩ := hrefuses
    rw [← hp.run_eq, hrun] at hr
    exact nomatch hr
  | .second hp hq => .orElse (hp.executes hc) fun _ => hq.executes hc
  | .neither hp hq => .orElse (hp.executes hc) fun _ => hq.executes hc
  | .attemptOk hp => .attempt (hp.executes hc)
  | .attemptError hp => .attempt (hp.executes hc)
  | .present hp _ => .optional (hp.executes hc)
  | .absent hp => .optional (hp.executes hc)
  | .named hp _ => .label (hp.executes hc)
  | .unnamed hp _ => .label (hp.executes hc)
  | .manyOk hrounds => hrounds.executes hc
  | .manyError hrounds => hrounds.executes hc
  | .enter _ _ hbody => .rule (hbody.executes hc)

/-- The rounds of a loop begin at places of the text, one after the other. -/
theorem Rounds.executes {active : Entries Rule} {α : Type} {p : Form Rule ν α} {c : Cursor}
    {result : Except Failure (List α × Cursor)} (h : Rounds G bound active p c result)
    (hc : c.Over source) : Executes G source p.many c :=
  match h with
  | .stop hp => .many (hp.executes hc) fun a d hrun => by
    rw [hp.run_eq] at hrun
    cases hrun
  | .fail hp => .many (hp.executes hc) fun a d hrun => by
    rw [hp.run_eq] at hrun
    cases hrun
  | .more hp hreaches _ hmore => .many (hp.executes hc) fun a d hrun => by
    rw [hp.run_eq] at hrun
    cases hrun
    exact hmore.executes (hc.reaches hreaches)

end

end Form

namespace Grammar

open Form

variable {source : List Char} {c : Cursor}

theorem executes_program (hc : c.Over source) : Executes rulebook source Written.program c := by
  obtain ⟨⟨r, hruns⟩, -⟩ := finishes_whole (c := c) (Nat.le_refl _)
  exact hruns.executes hc

theorem executes_whole_expression (hc : c.Over source) :
    Executes rulebook source (Written.whole Written.expression) c := by
  obtain ⟨-, r, hruns⟩ := finishes_whole (c := c) (Nat.le_refl _)
  exact hruns.executes hc

end Grammar

end Scriptlet
