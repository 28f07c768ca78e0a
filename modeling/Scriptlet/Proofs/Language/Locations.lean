import Scriptlet.Proofs.Language.Honesty
import Scriptlet.Text.Location

/-!
# A location is the location of one place

The line of a place is a count of line feeds and its column a count of characters back to the last
of them. Taking one character more changes them in one of two ways: a line feed starts the next line
at its first column, and any other character moves one column on (`after_concat`). In both cases the
location grows in the order of lines and then columns, and so it does over any number of characters
(`after_lt_after_append`).

Neither number can reach the ceiling in a text with fewer characters than that. Main statement: in
such a text locations grow strictly with the offset, hence tell places apart, and change from one
place to the next in the two ways (`locations_identify_places`).
-/

namespace Scriptlet

namespace Location

variable {u v : List Char} {l m n : Location}

/-! ### The order of locations -/

/-- Earlier lines come first, and in one line earlier columns. -/
instance : LT Location where
  lt l m := l.line < m.line ∨ l.line = m.line ∧ l.column < m.column

theorem lt_iff : l < m ↔ l.line < m.line ∨ l.line = m.line ∧ l.column < m.column := Iff.rfl

instance (l m : Location) : Decidable (l < m) :=
  decidable_of_iff _ lt_iff.symm

example : (⟨1, 2⟩ : Location) < ⟨2, 1⟩ := by decide

protected theorem lt_trans (h : l < m) (h' : m < n) : l < n := by
  rw [lt_iff] at *
  omega

protected theorem lt_irrefl (l : Location) : ¬ l < l := by
  rw [lt_iff]
  omega

/-! ### One character more -/

/-- The location one character further on. -/
def next (l : Location) (x : Char) : Location :=
  if x = '\n' then ⟨l.line + 1, 1⟩ else ⟨l.line, l.column + 1⟩

theorem lt_next (l : Location) (x : Char) : l < l.next x := by
  unfold next
  rw [lt_iff]
  split
  · exact .inl (Nat.lt_succ_self _)
  · exact .inr ⟨rfl, Nat.lt_succ_self _⟩

/-- The line of a place cannot be past the number of characters before it, nor can its column. -/
theorem after_eq_of_length (h : u.length < ceiling) :
    after u = ⟨u.count '\n' + 1, (u.reverse.takeWhile (· != '\n')).length + 1⟩ := by
  have hline : u.count '\n' ≤ u.length := List.count_le_length
  have hcolumn : (u.reverse.takeWhile (· != '\n')).length ≤ u.reverse.length :=
    (List.takeWhile_sublist _).length_le
  rw [List.length_reverse] at hcolumn
  unfold after
  rw [Nat.min_eq_left (by omega), Nat.min_eq_left (by omega)]

/-- A line feed starts the next line, and any other character moves one column on. -/
theorem after_concat (x : Char) (h : (u ++ [x]).length < ceiling) :
    after (u ++ [x]) = (after u).next x := by
  have hu : u.length < ceiling := by
    rw [List.length_append] at h
    omega
  rw [after_eq_of_length h, after_eq_of_length hu, next]
  by_cases hx : x = '\n'
  · simp [hx]
  · simp [hx]

/-- The location grows with every further part of the text. -/
theorem after_lt_after_append (hv : v ≠ []) (h : (u ++ v).length < ceiling) :
    after u < after (u ++ v) := by
  induction v generalizing u with
  | nil => exact absurd rfl hv
  | cons x v ih =>
    have hsplit : u ++ x :: v = (u ++ [x]) ++ v := by simp
    rw [hsplit] at h ⊢
    have hx : (u ++ [x]).length < ceiling := by
      rw [List.length_append] at h
      omega
    have hstep : after u < after (u ++ [x]) := by
      rw [after_concat x hx]
      exact lt_next _ x
    -- The induction hypothesis is for parts that are not empty, so the last character stands alone.
    cases v with
    | nil => simpa using hstep
    | cons y v => exact Location.lt_trans hstep (ih (List.cons_ne_nil y v) h)

/-! ### Offsets -/

theorem ofOffset?_of_append (u v : List Char) :
    ofOffset? (u ++ v) (byteSize u) = some (after u) := by
  have hmin : min (byteSize u) (byteSize (u ++ v)) = byteSize u := by
    rw [byteSize_append]
    omega
  have hboundary : IsBoundary (u ++ v) (byteSize u) := (isBoundary_iff _ _).2 ⟨u, v, rfl, rfl⟩
  unfold ofOffset?
  simp only [hmin, if_pos hboundary, takeBytes_byteSize_append]

/-- Of two leading parts of a text the one with fewer bytes begins the other. -/
theorem exists_append_of_byteSize_lt {w z : List Char} (h : u ++ v = w ++ z)
    (hlt : byteSize u < byteSize w) : ∃ t, t ≠ [] ∧ w = u ++ t := by
  rcases List.append_eq_append_iff.1 h with ⟨t, rfl, rfl⟩ | ⟨t, rfl, rfl⟩
  · refine ⟨t, ?_, rfl⟩
    rintro rfl
    simp at hlt
  · rw [byteSize_append] at hlt
    omega

section Places

variable {source : List Char} {o₁ o₂ : Nat} {c : Cursor}

theorem ofOffset?_lt_ofOffset? (hlength : source.length < ceiling) (h₁ : IsBoundary source o₁)
    (h₂ : IsBoundary source o₂) (hlt : o₁ < o₂) :
    ∃ l₁ l₂, ofOffset? source o₁ = some l₁ ∧ ofOffset? source o₂ = some l₂ ∧ l₁ < l₂ := by
  obtain ⟨u, v, hsource, rfl⟩ := (isBoundary_iff _ _).1 h₁
  obtain ⟨w, z, rfl, rfl⟩ := (isBoundary_iff _ _).1 h₂
  obtain ⟨t, hne, rfl⟩ := exists_append_of_byteSize_lt hsource.symm hlt
  have hshort : (u ++ t).length < ceiling := by
    rw [List.length_append] at hlength
    omega
  refine ⟨after u, after (u ++ t), ?_, ofOffset?_of_append _ _, after_lt_after_append hne hshort⟩
  rw [hsource]
  exact ofOffset?_of_append u v

theorem ofOffset?_ne_of_lt (hlength : source.length < ceiling) (h₁ : IsBoundary source o₁)
    (h₂ : IsBoundary source o₂) (hlt : o₁ < o₂) : ofOffset? source o₁ ≠ ofOffset? source o₂ := by
  obtain ⟨l₁, l₂, hl₁, hl₂, hless⟩ := ofOffset?_lt_ofOffset? hlength h₁ h₂ hlt
  rw [hl₁, hl₂]
  intro heq
  obtain rfl := Option.some.inj heq
  exact Location.lt_irrefl _ hless

theorem ofOffset?_next (hlength : source.length < ceiling) (hc : c.Over source) {x : Char}
    (hx : c.current? = some x) :
    ∃ l, ofOffset? source c.pos = some l ∧ ofOffset? source c.next.pos = some (l.next x) := by
  obtain ⟨u, hsource, hpos⟩ := Cursor.over_iff.1 hc
  obtain ⟨pos, rest⟩ := c
  obtain ⟨xs, rfl⟩ := List.head?_eq_some_iff.1 hx
  -- The text before the next place has one character more.
  have hhere : source = u ++ x :: xs := hsource
  have hthere : source = (u ++ [x]) ++ xs := by simp [hhere]
  have hsize : pos = byteSize u := hpos.trans (Nat.zero_add _)
  have hshort : (u ++ [x]).length < ceiling := by
    rw [hthere, List.length_append] at hlength
    omega
  refine ⟨after u, ?_, ?_⟩
  · rw [hhere, hsize]
    exact ofOffset?_of_append u (x :: xs)
  · have hnext : pos + x.utf8Size = byteSize (u ++ [x]) := by simp [hsize]
    show ofOffset? source (pos + x.utf8Size) = _
    rw [hnext, hthere, ofOffset?_of_append, after_concat x hshort]

end Places

/-- In a text with fewer than `2 ^ 32 - 1` characters a location is the location of one place. Of
two places the earlier one has the smaller line, or the same line and the smaller column, so no two
places have the same location. Past a line feed the location is the first column of the next line,
and past any other character the next column of the same line. -/
theorem locations_identify_places (source : List Char) (hlength : source.length < UInt32.size - 1) :
    (∀ o₁ o₂, IsBoundary source o₁ → IsBoundary source o₂ → o₁ < o₂ →
      ∃ l₁ l₂, ofOffset? source o₁ = some l₁ ∧ ofOffset? source o₂ = some l₂ ∧ l₁ < l₂) ∧
    (∀ o₁ o₂, IsBoundary source o₁ → IsBoundary source o₂ →
      ofOffset? source o₁ = ofOffset? source o₂ → o₁ = o₂) ∧
    ∀ c : Cursor, c.Over source → ∀ x, c.current? = some x →
      ∃ l, ofOffset? source c.pos = some l ∧
        ofOffset? source c.next.pos =
          some (if x = '\n' then ⟨l.line + 1, 1⟩ else ⟨l.line, l.column + 1⟩) := by
  refine ⟨fun o₁ o₂ => ofOffset?_lt_ofOffset? hlength, fun o₁ o₂ h₁ h₂ heq => ?_,
    fun c hc x hx => ofOffset?_next hlength hc hx⟩
  by_contra hne
  rcases Nat.lt_or_gt_of_ne hne with hlt | hgt
  · exact ofOffset?_ne_of_lt hlength h₁ h₂ hlt heq
  · exact ofOffset?_ne_of_lt hlength h₂ h₁ hgt heq.symm

/-- A line feed after a character of two bytes: the place behind it has the smaller column, and yet
the greater location. -/
theorem locations_identify_places_line_feed :
    "é\nb".toList.length < UInt32.size - 1 ∧
      ofOffset? "é\nb".toList 2 = some ⟨1, 2⟩ ∧ ofOffset? "é\nb".toList 3 = some ⟨2, 1⟩ ∧
      (⟨1, 2⟩ : Location) < ⟨2, 1⟩ ∧ ofOffset? "é\nb".toList 4 = some ⟨2, 2⟩ := by
  have hlength : "é\nb".toList.length < UInt32.size - 1 := by decide
  obtain ⟨hgrows, -, hnext⟩ := locations_identify_places "é\nb".toList hlength
  have hfeed : ofOffset? "é\nb".toList 2 = some ⟨1, 2⟩ := rfl
  obtain ⟨l, hl, hline⟩ := hnext ⟨2, ['\n', 'b']⟩ ⟨rfl, rfl⟩ '\n' rfl
  obtain rfl : ⟨1, 2⟩ = l := Option.some.inj (hfeed.symm.trans hl)
  obtain ⟨m, hm, hcolumn⟩ := hnext ⟨3, ['b']⟩ ⟨rfl, rfl⟩ 'b' rfl
  obtain rfl : ⟨2, 1⟩ = m := Option.some.inj (hline.symm.trans hm)
  obtain ⟨l₁, l₂, hl₁, hl₂, hless⟩ := hgrows 2 3 rfl rfl (by decide)
  obtain rfl : ⟨1, 2⟩ = l₁ := Option.some.inj (hl.symm.trans hl₁)
  obtain rfl : ⟨2, 1⟩ = l₂ := Option.some.inj (hm.symm.trans hl₂)
  exact ⟨hlength, hl, hm, hless, hcolumn⟩

end Location

end Scriptlet
