import Scriptlet.Integer
import Scriptlet.Parsing.Parser

/-!
# Lexemes

The smallest pieces of source text: symbols, keywords, identifiers and integer literals. Each is
read whole or refused without consuming anything, except that an integer literal outside the range
is rejected for good. After a lexeme the blanks and comments that follow it are skipped, so every
lexeme starts at the place where the one before it stopped.
-/

namespace Scriptlet

namespace Lexeme

/-! ### Character classes -/

/-- The characters that a word may begin with: ASCII letters and the underscore. -/
def isWordStart (c : Char) : Bool :=
  c.isAlpha || c == '_'

/-- The characters of a word: ASCII letters, digits and the underscore. -/
def isWordChar (c : Char) : Bool :=
  c.isAlphanum || c == '_'

/-! ### Reading -/

/-- Skips blanks and comments, and never fails. -/
def spacing : Parser Unit where
  run c := .moved () c c.skipTrivia

/-- A lexeme from a scanner, which gives the value and the cursor just past the text, or `none`. -/
def lexeme {α : Type} (expected : Expectation) (scan : Cursor → Option (α × Cursor)) :
    Parser α where
  run c :=
    match scan c with
    | some (a, after) => ⟨true, .ok (a, after.skipTrivia)⟩
    | none => .refusal c.pos expected

/-- A fixed text that is accepted where the cursor after it passes a test. -/
def exactly (text : String) (ends : Cursor → Bool) : Parser Unit :=
  lexeme (.token text) fun c => ((c.skip? text.toList).filter ends).map (((), ·))

/-- The symbols that become another symbol when an equals sign follows. -/
def extendable : List String :=
  ["=", "<", ">", "!"]

/-- A symbol is not taken out of a longer one: those in `extendable` are refused directly before an
equals sign. -/
def symbol (text : String) : Parser Unit :=
  exactly text fun after => !(extendable.contains text && after.current? == some '=')

/-- A keyword is not taken out of a longer word. -/
def keyword (word : String) : Parser Unit :=
  exactly word fun after => !after.current?.any isWordChar

/-- The reserved words. -/
def keywords : List String :=
  ["define", "else", "false", "global", "if", "true", "while"]

/-- The longest word at a cursor, unless it is reserved. -/
def scanIdentifier (c : Cursor) : Option (String × Cursor) :=
  let word := String.ofList (c.takeWhile isWordChar)
  if c.current?.any isWordStart && !keywords.contains word then
    some (word, c.dropWhile isWordChar)
  else
    none

/-- A name: a word that is not reserved. -/
def identifier : Parser String :=
  lexeme (.named "identifier") scanIdentifier

/-- The exact value of a literal that is written with an optional minus sign and decimal digits. -/
def literalValue (negative : Bool) (digits : List Char) : Int :=
  if negative then -(Nat.ofDigitChars 10 digits 0 : Int) else Nat.ofDigitChars 10 digits 0

/-- An integer literal: an optional minus sign directly before a longest run of digits. -/
def integer : Parser Integer where
  run c :=
    let negative := c.current? == some '-'
    let unsigned := if negative then c.next else c
    let digits := unsigned.takeWhile Char.isDigit
    if digits.isEmpty then
      .refusal c.pos (.named "integer literal")
    else
      match Integer.ofInt? (literalValue negative digits) with
      | some n => ⟨true, .ok (n, (unsigned.dropWhile Char.isDigit).skipTrivia)⟩
      | none => (Reply.refusal c.pos (.named "integer literal within the 64-bit range")).after true

end Lexeme

end Scriptlet
