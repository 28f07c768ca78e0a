import Scriptlet.Text.Blank
import Scriptlet.Text.Bytes

/-!
# Cursors

A cursor is a place in a text: the bytes before it and the characters after it. Moving forward takes
whole characters, so a cursor that starts at a boundary stays on boundaries. What a parser does at a
cursor can depend on the remaining characters only, and its position serves to compare places.
-/

namespace Scriptlet

/-- A place in a text. -/
@[ext]
structure Cursor where
  /-- The number of bytes before the place. -/
  pos : Nat
  /-- The characters from the place on. -/
  rest : List Char
deriving DecidableEq

namespace Cursor

/-- The cursor at the start of a text. -/
def start (source : List Char) : Cursor :=
  ⟨0, source⟩

/-- Whether no character is left. -/
def atEnd (c : Cursor) : Bool :=
  c.rest.isEmpty

/-- The character at the cursor, `none` at the end. -/
def current? (c : Cursor) : Option Char :=
  c.rest.head?

/-- Whether the remaining text begins with `text`. -/
def startsWith (c : Cursor) (text : List Char) : Bool :=
  text.isPrefixOf c.rest

/-- Moves past one character, and stays at the end. -/
def next (c : Cursor) : Cursor :=
  match c.rest with
  | [] => c
  | x :: xs => ⟨c.pos + x.utf8Size, xs⟩

/-- Moves past `text`, which has to be next. -/
def skip? (c : Cursor) (text : List Char) : Option Cursor :=
  (text.isPrefixOf? c.rest).map (⟨c.pos + byteSize text, ·⟩)

/-- The longest run of characters in a class. -/
def takeWhile (c : Cursor) (p : Char → Bool) : List Char :=
  c.rest.takeWhile p

/-- Moves past the longest run of characters in a class. -/
def dropWhile (c : Cursor) (p : Char → Bool) : Cursor :=
  ⟨c.pos + byteSize (c.takeWhile p), c.rest.dropWhile p⟩

/-- The text from one cursor to a later one over the same source; `none` when the other cursor is
the earlier one. -/
def textTo? (c stop : Cursor) : Option (List Char) :=
  if c.pos ≤ stop.pos then some (takeBytes (stop.pos - c.pos) c.rest) else none

/-! ### Trivia -/

/-- Moves over blanks and comments. A comment begins with two solidi and ends before a line feed,
which is then skipped as a blank; `inComment` tells whether the place is inside one. -/
def skipTriviaFrom (inComment : Bool) (pos : Nat) : List Char → Cursor
  | [] => ⟨pos, []⟩
  | c :: cs =>
    if inComment then
      skipTriviaFrom (c != '\n') (pos + c.utf8Size) cs
    else if isBlank c then
      skipTriviaFrom false (pos + c.utf8Size) cs
    else if c = '/' ∧ cs.head? = some '/' then
      skipTriviaFrom true (pos + c.utf8Size) cs
    else
      ⟨pos, c :: cs⟩

/-- Moves to the first character that is neither blank nor part of a comment. -/
def skipTrivia (c : Cursor) : Cursor :=
  skipTriviaFrom false c.pos c.rest

end Cursor

end Scriptlet
