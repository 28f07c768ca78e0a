import Scriptlet.Parsing.Reply

/-!
# Parsers

A parser is a function from cursors to replies. Parsers form a monad whose sequencing adds up
consumption: once a part has consumed input, so has the whole. `p <|> q` is ordered choice: `q` runs
only where `p` failed without consuming, and if both fail their failures are merged.
-/

namespace Scriptlet

universe u v

/-- A parser of values of type `α`. -/
structure Parser (α : Type u) where
  /-- The reply at a cursor. -/
  run : Cursor → Reply α

namespace Parser

variable {α : Type u} {β : Type u}

/-! ### Sequencing -/

/-- Succeeds with a value and consumes nothing. -/
protected def pure (a : α) : Parser α where
  run c := ⟨false, .ok (a, c)⟩

/-- Runs `p` and then, after a success, the parser that `f` makes of its value. -/
protected def bind {β : Type v} (p : Parser α) (f : α → Parser β) : Parser β where
  run c :=
    match p.run c with
    | ⟨consumed, .ok (a, rest)⟩ => ((f a).run rest).after consumed
    | ⟨consumed, .error e⟩ => ⟨consumed, .error e⟩

/-- Applies a function to the values of a parser. -/
protected def map {β : Type v} (f : α → β) (p : Parser α) : Parser β where
  run c := (p.run c).map f

instance : Monad Parser where
  pure := Parser.pure
  bind := Parser.bind
  map := Parser.map

/-- Two parsers are the same when they reply alike at every cursor. -/
@[ext]
theorem ext {p q : Parser α} (h : ∀ c, p.run c = q.run c) : p = q := by
  obtain ⟨f⟩ := p
  obtain ⟨g⟩ := q
  exact congrArg Parser.mk (funext h)

@[simp]
theorem run_pure (a : α) (c : Cursor) : (pure a : Parser α).run c = ⟨false, .ok (a, c)⟩ := rfl

@[simp]
theorem run_map (f : α → β) (p : Parser α) (c : Cursor) : (f <$> p).run c = (p.run c).map f := rfl

/-- After a success the second part runs where the first stopped. -/
theorem run_bind_of_ok {p : Parser α} {c rest : Cursor} {consumed : Bool} {a : α}
    (h : p.run c = ⟨consumed, .ok (a, rest)⟩) (f : α → Parser β) :
    (p >>= f).run c = ((f a).run rest).after consumed := by
  show (Parser.bind p f).run c = _
  simp only [Parser.bind, h]

/-- A failure of the first part is the failure of the whole. -/
theorem run_bind_of_error {p : Parser α} {c : Cursor} {consumed : Bool} {e : Failure}
    (h : p.run c = ⟨consumed, .error e⟩) (f : α → Parser β) :
    (p >>= f).run c = ⟨consumed, .error e⟩ := by
  show (Parser.bind p f).run c = _
  simp only [Parser.bind, h]

/-- Three parts in a row can be grouped either way. -/
protected theorem bind_assoc {γ : Type u} (p : Parser α) (f : α → Parser β) (g : β → Parser γ) :
    p >>= f >>= g = p >>= fun a => f a >>= g := by
  ext c : 1
  match h : p.run c with
  | ⟨_, .error _⟩ => rw [run_bind_of_error (run_bind_of_error h f) g, run_bind_of_error h]
  | ⟨consumed, .ok (a, rest)⟩ =>
    rw [run_bind_of_ok h]
    match h' : (f a).run rest with
    | ⟨consumed', .error e⟩ =>
      have hf : (p >>= f).run c = ⟨consumed || consumed', .error e⟩ := by
        rw [run_bind_of_ok h, h']
        rfl
      rw [run_bind_of_error hf, run_bind_of_error h']
      rfl
    | ⟨consumed', .ok (b, rest')⟩ =>
      have hf : (p >>= f).run c = ⟨consumed || consumed', .ok (b, rest')⟩ := by
        rw [run_bind_of_ok h, h']
        rfl
      rw [run_bind_of_ok hf, run_bind_of_ok h', Reply.after_after]

/-- Applying a function to the values is a second part that consumes nothing. -/
protected theorem bind_pure_comp (f : α → β) (p : Parser α) :
    (p >>= fun a => pure (f a)) = f <$> p := by
  ext c : 1
  match h : p.run c with
  | ⟨_, .error _⟩ =>
    rw [run_bind_of_error h, run_map, h]
    rfl
  | ⟨consumed, .ok (a, rest)⟩ =>
    rw [run_bind_of_ok h, run_map, h, run_pure, Reply.after, Bool.or_false]
    rfl

instance : LawfulMonad Parser :=
  LawfulMonad.mk' Parser (fun p => Parser.ext fun c => Reply.map_id (p.run c)) (fun _ _ => rfl)
    Parser.bind_assoc (fun _ _ => rfl) (fun _ _ => rfl) (fun _ _ => rfl) Parser.bind_pure_comp

/-- `p` between an opening and a closing part, whose values are dropped. -/
def between {γ : Type u} (p : Parser α) (opening : Parser β) (closing : Parser γ) : Parser α :=
  opening *> p <* closing

/-! ### Choice -/

/-- Fails without consuming, for want of `e`. -/
def refuse (e : Expectation) : Parser α where
  run c := .refusal c.pos e

/-- Fails for want of `e` and counts as having consumed input, so that no alternative is tried. -/
def reject (e : Expectation) : Parser α where
  run c := (Reply.refusal c.pos e).after true

/-- Ordered choice: `q` runs only where `p` failed without consuming. -/
protected def orElse (p : Parser α) (q : Unit → Parser α) : Parser α where
  run c :=
    match p.run c with
    | ⟨false, .error e⟩ =>
      match (q ()).run c with
      | ⟨consumed, .error e'⟩ => ⟨consumed, .error (e.merge e')⟩
      | success => success
    | settled => settled

instance : OrElse (Parser α) where
  orElse := Parser.orElse

/-- Lets an alternative be tried even where `p` failed after consuming input. -/
def attempt (p : Parser α) : Parser α where
  run c :=
    match p.run c with
    | ⟨_, .error e⟩ => ⟨false, .error e⟩
    | success => success

/-- Counts the reply of `p` as having consumed input. -/
def commit (p : Parser α) : Parser α where
  run c := (p.run c).after true

/-- Succeeds with `none`, at the same place, where `p` fails without consuming. -/
def optional (p : Parser α) : Parser (Option α) where
  run c :=
    match p.run c with
    | ⟨false, .error _⟩ => ⟨false, .ok (none, c)⟩
    | reply => reply.map some

/-- Gives a name to what `p` expects where it fails at its own starting place without consuming. -/
def label (p : Parser α) (name : String) : Parser α where
  run c :=
    match p.run c with
    | ⟨false, .error e⟩ => if e.pos = c.pos then .refusal c.pos (.named name) else ⟨false, .error e⟩
    | reply => reply

/-- Succeeds only at the end of the text. -/
def endOfInput : Parser Unit where
  run c := if c.atEnd then ⟨false, .ok ((), c)⟩ else .refusal c.pos .endOfInput

/-- Any one character in a class, which has a name. -/
def satisfy (p : Char → Bool) (name : String) : Parser Char where
  run c :=
    match c.current? with
    | some x => if p x then .moved x c c.next else .refusal c.pos (.named name)
    | none => .refusal c.pos (.named name)

end Parser

end Scriptlet
