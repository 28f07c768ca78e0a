import Scriptlet.Proofs.Language.Faithful
import Scriptlet.Proofs.Parsing.Progress

/-!
# The library of parsers is honest about progress

The primitive parsers are the end of the text, blanks, symbols, keywords, identifiers and integer
literals. Each lexeme is at least one character long, so its success moves forward, and it fails
where it began. Hence every parser that the combinators make of them is honest, and in a text its
replies can be taken at their word (`Built.reply_honest`).

A cursor is over a text when it stands between two characters of it, or at an end, and has before it
what the text has there (`Cursor.Over`). These are the places that are reached from the start.
-/

namespace Scriptlet

namespace Cursor

variable {source : List Char} {c d : Cursor}

/-- The cursor stands on a boundary of the text, with the rest of the text before it. -/
structure Over (source : List Char) (c : Cursor) : Prop where
  boundary : IsBoundary source c.pos
  rest_eq : c.rest = dropBytes c.pos source

/-- The places in a text are those that are reached from its start. -/
theorem over_iff : Over source c ↔ (start source).Reaches c := by
  constructor
  · rintro ⟨hboundary, hrest⟩
    refine ⟨takeBytes c.pos source, ?_, ?_⟩
    · rw [hrest, takeBytes_append_dropBytes]
      rfl
    · rw [show byteSize (takeBytes c.pos source) = c.pos from hboundary]
      exact (Nat.zero_add c.pos).symm
  · rintro ⟨passed, hsource, hpos⟩
    have hsize : c.pos = byteSize passed := hpos.trans (Nat.zero_add _)
    have hsplit : source = passed ++ c.rest := hsource
    refine ⟨(isBoundary_iff source c.pos).2 ⟨passed, c.rest, hsplit, hsize.symm⟩, ?_⟩
    rw [hsize, hsplit, dropBytes_byteSize_append]

theorem Over.reaches (h : c.Over source) (hreaches : c.Reaches d) : d.Over source :=
  over_iff.2 ((over_iff.1 h).trans hreaches)

theorem Over.pos_le (h : c.Over source) : c.pos ≤ byteSize source := by
  have hsplit : byteSize (takeBytes c.pos source ++ dropBytes c.pos source) = byteSize source := by
    rw [takeBytes_append_dropBytes]
  rw [byteSize_append, show byteSize (takeBytes c.pos source) = c.pos from h.boundary] at hsplit
  omega

end Cursor

namespace Lexeme

open Cursor

variable {α : Type}

/-! ### Primitive parsers -/

/-- The parsers that have no other parser inside. -/
inductive Primitive : Parser.Stock
  | endOfInput : Primitive Unit Parser.endOfInput
  | spacing : Primitive Unit spacing
  | symbol {text : String} : text ≠ "" → Primitive Unit (symbol text)
  | keyword {word : String} : word ≠ "" → Primitive Unit (keyword word)
  | identifier : Primitive String identifier
  | integer : Primitive Integer integer

/-- The parsers that have no other parser inside, by what they are to read. -/
inductive Atom : Type → Type where
  | endOfInput : Atom Unit
  | spacing : Atom Unit
  | symbol (text : String) : Atom Unit
  | keyword (word : String) : Atom Unit
  | identifier : Atom String
  | integer : Atom Integer

namespace Atom

def parser : Atom α → Parser α
  | endOfInput => Parser.endOfInput
  | spacing => Lexeme.spacing
  | symbol text => Lexeme.symbol text
  | keyword word => Lexeme.keyword word
  | identifier => Lexeme.identifier
  | integer => Lexeme.integer

end Atom

theorem honest_endOfInput : Parser.endOfInput.Honest where
  success c consumed a d h := by
    unfold Parser.endOfInput at h
    dsimp only at h
    split at h
    · obtain ⟨rfl, hresult⟩ := Reply.mk.inj h
      obtain ⟨-, rfl⟩ := Prod.mk.inj (Except.ok.inj hresult)
      exact moves_refl c
    · cases h
  failure c f h := by
    rw [Parser.fails_endOfInput h]
    exact Failure.soundFrom_single c _

/-- Blanks are passed over and the flag compares the places. -/
theorem honest_spacing : spacing.Honest where
  success c consumed a d h := by
    obtain ⟨rfl, hresult⟩ := Reply.mk.inj h
    obtain ⟨-, rfl⟩ := Prod.mk.inj (Except.ok.inj hresult)
    exact (reaches_skipTrivia c).moves
  failure _ _ h := nomatch h

/-- A success with the flag set is honest when fewer characters are left. -/
theorem moves_of_advancing {p : Parser α} (hp : p.Advancing) {c d : Cursor}
    {consumed : Bool} {a : α} (h : p.run c = ⟨consumed, .ok (a, d)⟩) (hreaches : c.Reaches d) :
    Moves consumed c d := by
  obtain ⟨hconsumed, hlength⟩ := hp c a d (Parser.gives_of_run h)
  rw [h] at hconsumed
  obtain rfl : consumed = true := hconsumed
  exact ⟨fun _ => ⟨hreaches, hreaches.pos_lt hlength⟩, nofun⟩

/-- A lexeme from a scanner that takes at least one character. -/
theorem honest_lexeme {expected : Expectation} {scan : Cursor → Option (α × Cursor)}
    (hscan : ∀ c a d, scan c = some (a, d) → c.Reaches d)
    (hadvancing : (lexeme expected scan).Advancing) : (lexeme expected scan).Honest where
  success c consumed a d h := by
    obtain ⟨stop, hstop, hd⟩ := gives_lexeme_iff.1 (Parser.gives_of_run h)
    refine moves_of_advancing hadvancing h ?_
    rw [hd]
    exact (hscan c a stop hstop).trans (reaches_skipTrivia stop)
  failure c f h := by
    rw [fails_lexeme h]
    exact Failure.soundFrom_single c expected

theorem honest_exactly {text : String} {ends : Cursor → Bool} (htext : text ≠ "") :
    (exactly text ends).Honest := by
  have hne : text.toList ≠ [] := fun h => htext (String.toList_eq_nil_iff.1 h)
  refine honest_lexeme (fun c a d hscan => ?_) (advancing_exactly hne)
  obtain ⟨hrest, hpos, -⟩ := scan_exactly_iff.1 hscan
  exact ⟨text.toList, hrest, hpos⟩

theorem honest_identifier : identifier.Honest := by
  refine honest_lexeme (fun c name d hscan => ?_) advancing_identifier
  obtain ⟨hrest, -, -, hpos⟩ := scanIdentifier_eq_some_iff.1 hscan
  exact ⟨name.toList, hrest, hpos⟩

theorem reaches_afterSign (c : Cursor) : c.Reaches (afterSign c) := by
  unfold afterSign
  split
  · exact reaches_next c
  · exact Reaches.refl c

/-- A literal that is out of range is rejected where it begins. -/
theorem honest_integer : integer.Honest where
  success c consumed n d h := by
    obtain ⟨-, -, -, hd⟩ := run_integer_of_gives (Parser.gives_of_run h)
    refine moves_of_advancing advancing_integer h ?_
    rw [hd]
    exact ((reaches_afterSign c).trans (reaches_dropWhile _ _)).trans (reaches_skipTrivia _)
  failure c f h := by
    obtain ⟨name, -, rfl⟩ := fails_integer h
    exact Failure.soundFrom_single c _

theorem Primitive.honest {p : Parser α} (h : Primitive α p) : p.Honest := by
  cases h with
  | endOfInput => exact honest_endOfInput
  | spacing => exact honest_spacing
  | symbol htext => exact honest_exactly htext
  | keyword hword => exact honest_exactly hword
  | identifier => exact honest_identifier
  | integer => exact honest_integer

end Lexeme

/-- Whatever is built from the primitive parsers replies honestly at every place in a text. A
success that counts as consuming stops further on, any other stops where it began, and each stop is
a place in the same text. A failure lies between the start and the end of what is left, on a
boundary, and lists something expected, each item once. -/
theorem Parser.Built.reply_honest {α : Type} {p : Parser α} (h : Parser.Built Lexeme.Primitive p)
    (source : List Char) (c : Cursor) (hc : c.Over source) :
    (∀ a rest, p.run c = ⟨true, .ok (a, rest)⟩ → c.pos < rest.pos) ∧
    (∀ a rest, p.run c = ⟨false, .ok (a, rest)⟩ → rest = c) ∧
    (∀ consumed a rest, p.run c = ⟨consumed, .ok (a, rest)⟩ →
      rest.Over source ∧ rest.pos ≤ byteSize source) ∧
    ∀ consumed f, p.run c = ⟨consumed, .error f⟩ →
      c.pos ≤ f.pos ∧ f.pos ≤ byteSize source ∧ IsBoundary source f.pos ∧
        f.expected ≠ [] ∧ f.expected.Nodup := by
  have hp : p.Honest := h.honest fun _ _ hprimitive => hprimitive.honest
  refine ⟨fun a rest hrun => ?_, fun a rest hrun => ?_, fun consumed a rest hrun => ?_,
    fun consumed f hrun => ?_⟩
  · exact ((hp.success c true a rest hrun).forward rfl).2
  · exact (hp.success c false a rest hrun).still rfl
  · have hrest : rest.Over source := hc.reaches (hp.success c consumed a rest hrun).reaches
    exact ⟨hrest, hrest.pos_le⟩
  · obtain ⟨⟨d, hreaches, hpos⟩, hne, hnodup⟩ := hp.failure c f (fails_of_run hrun)
    have hd : d.Over source := hc.reaches hreaches
    rw [hpos]
    exact ⟨hreaches.pos_le, hd.pos_le, hd.boundary, hne, hnodup⟩

open Lexeme in
/-- Groups in parentheses inside each other, read after a character of two bytes: the inner group is
not closed, and the failure lies at the end of the text. -/
theorem reply_honest_open_group :
    ∃ (p : Parser Nat) (source : List Char) (c : Cursor) (f : Failure),
      Parser.Built Primitive p ∧ c.Over source ∧ c.pos = 2 ∧
      p.run c = ⟨true, .error f⟩ ∧ f.pos = 6 ∧ byteSize source = 6 ∧
      c.pos ≤ f.pos ∧ f.pos ≤ byteSize source ∧ IsBoundary source f.pos ∧
      f.expected ≠ [] ∧ f.expected.Nodup := by
  let rule (group : Parser Nat) : Parser Nat :=
    (List.length <$> group.many).between (symbol "(") (symbol ")") <|> (fun _ => 0) <$> identifier
  let p : Parser Nat := Parser.recursive "group" rule
  let source : List Char := ['é', '(', 'x', ' ', '(']
  let c : Cursor := ⟨2, ['(', 'x', ' ', '(']⟩
  have hbuilt : Parser.Built Primitive p := by
    refine .recursive "group" fun group => ?_
    have hsymbol {text : String} (htext : text ≠ "") :
        Parser.Built (Parser.WithHandle Primitive group) (symbol text) :=
      .given (.given (.symbol htext))
    exact .orElse
      (.between (.map _ (.many (.given .handle))) (hsymbol (by decide)) (hsymbol (by decide)))
      (.map _ (.given (.given .identifier)))
  have hc : c.Over source := ⟨by decide, by decide⟩
  have hrun : p.run c = ⟨true, .error ⟨6, [.token ")"]⟩⟩ := rfl
  obtain ⟨-, -, -, hfailure⟩ := Parser.Built.reply_honest hbuilt source c hc
  exact ⟨p, source, c, _, hbuilt, hc, rfl, hrun, rfl, rfl, hfailure true _ hrun⟩

end Scriptlet
