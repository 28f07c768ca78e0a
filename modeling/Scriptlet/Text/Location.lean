import Scriptlet.Text.Bytes

/-!
# Lines and columns

A location is the place of a character as an editor shows it: lines and columns count from one,
columns count characters, and only a line feed ends a line. Both numbers stop at the largest
unsigned 32-bit number.
-/

namespace Scriptlet

/-- A line and a column, both counted from one. -/
structure Location where
  line : Nat
  column : Nat
deriving DecidableEq

namespace Location

/-- The largest line or column that is told apart from those after it. -/
def ceiling : Nat := 4294967295

/-- The location just after a text: one line more than its line feeds, one column more than the
characters after the last of them. -/
def after (before : List Char) : Location where
  line := min (before.count '\n' + 1) ceiling
  column := min ((before.reverse.takeWhile (· != '\n')).length + 1) ceiling

/-- The location of a byte offset, where an offset past the end stands for the end; `none` inside a
character. -/
def ofOffset? (source : List Char) (offset : Nat) : Option Location :=
  let offset := min offset (byteSize source)
  if IsBoundary source offset then some (after (takeBytes offset source)) else none

end Location

end Scriptlet
