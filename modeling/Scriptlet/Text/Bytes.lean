/-!
# Byte sizes of text

A text is a list of characters. Positions in it are counted in the bytes of its UTF-8 form, so a
position is a character boundary when it is the size of some leading part of the text.
`takeBytes n` and `dropBytes n` cut a text at the last boundary that is not past `n`.
-/

namespace Scriptlet

/-- The number of bytes in the UTF-8 form of a text. -/
def byteSize : List Char → Nat
  | [] => 0
  | c :: cs => c.utf8Size + byteSize cs

@[simp]
theorem byteSize_nil : byteSize [] = 0 := rfl

@[simp]
theorem byteSize_cons (c : Char) (cs : List Char) :
    byteSize (c :: cs) = c.utf8Size + byteSize cs := rfl

@[simp]
theorem byteSize_append (s t : List Char) : byteSize (s ++ t) = byteSize s + byteSize t := by
  induction s with
  | nil => simp
  | cons c cs ih => simp [ih, Nat.add_assoc]

/-- The longest leading part of a text that has at most `n` bytes. -/
def takeBytes (n : Nat) : List Char → List Char
  | [] => []
  | c :: cs => if c.utf8Size ≤ n then c :: takeBytes (n - c.utf8Size) cs else []

/-- What `takeBytes n` leaves. -/
def dropBytes (n : Nat) : List Char → List Char
  | [] => []
  | c :: cs => if c.utf8Size ≤ n then dropBytes (n - c.utf8Size) cs else c :: cs

/-- Cutting a text loses nothing. -/
@[simp]
theorem takeBytes_append_dropBytes (n : Nat) (s : List Char) :
    takeBytes n s ++ dropBytes n s = s := by
  induction s generalizing n with
  | nil => rfl
  | cons c cs ih =>
    by_cases h : c.utf8Size ≤ n
    · simp [takeBytes, dropBytes, h, ih]
    · simp [takeBytes, dropBytes, h]

/-- Whether offset `n` of a text lies between two of its characters or at one of its ends. -/
def IsBoundary (s : List Char) (n : Nat) : Prop :=
  byteSize (takeBytes n s) = n

instance (s : List Char) (n : Nat) : Decidable (IsBoundary s n) :=
  inferInstanceAs (Decidable (_ = _))

/-- At the boundary after a leading part, `takeBytes` returns that part. -/
@[simp]
theorem takeBytes_byteSize_append (s t : List Char) : takeBytes (byteSize s) (s ++ t) = s := by
  induction s with
  | nil =>
    cases t with
    | nil => rfl
    | cons c cs => simp [takeBytes, Nat.ne_of_gt c.utf8Size_pos]
  | cons c cs ih => simp [takeBytes, ih]

/-- At the boundary after a leading part, `dropBytes` returns what follows that part. -/
@[simp]
theorem dropBytes_byteSize_append (s t : List Char) : dropBytes (byteSize s) (s ++ t) = t := by
  induction s with
  | nil =>
    cases t with
    | nil => rfl
    | cons c cs => simp [dropBytes, Nat.ne_of_gt c.utf8Size_pos]
  | cons c cs ih => simp [dropBytes, ih]

/-- The boundaries of a text are the sizes of its leading parts. -/
theorem isBoundary_iff (s : List Char) (n : Nat) :
    IsBoundary s n ↔ ∃ u v, s = u ++ v ∧ byteSize u = n := by
  constructor
  · intro h
    exact ⟨takeBytes n s, dropBytes n s, (takeBytes_append_dropBytes n s).symm, h⟩
  · rintro ⟨u, v, rfl, rfl⟩
    rw [IsBoundary, takeBytes_byteSize_append]

end Scriptlet
