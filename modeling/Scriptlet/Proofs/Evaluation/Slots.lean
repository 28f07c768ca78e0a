import Scriptlet.Proofs.Evaluation.Steps

/-!
# Labelled arguments by place

Labelled arguments can also be sorted by place: there is a slot for each parameter, an argument goes
into the slot of the first parameter that has its label, and a call is made when all slots are
filled. A place that has no slot would be an index out of range, and `slotArguments` goes on with an
arbitrary `trap` there.

The slots and the list of labels with their values tell the same (`Slots.Of`): every label is found
in the slot of its parameter, every filled slot has the value of its parameter, and there are as
many filled slots as labels. One argument more keeps this (`Slots.Of.set`), so at the end the slots
are all filled exactly if there are as many arguments as parameters (`Slots.Of.mapM_id`). Main
statement: both ways are the same, whatever the trap is (`labelledArguments_eq_slotArguments`). So
no place without a slot is ever met.
-/

namespace Scriptlet

/-- A place for the argument of each parameter. -/
abbrev Slots := List (Option Value)

namespace Eval

/-- Evaluates one labelled argument and puts it into the slot of the first parameter that has its
label. What happens where there is no such slot is the `trap`. -/
def fillSlot (trap : Eval Slots) (evaluate : Expr → Eval Value) (name : String)
    (parameters : List String) (slots : Slots) (argument : String × Expr) : Eval Slots := do
  let value ← evaluate argument.2
  match parameters.idxOf? argument.1 with
  | none => raise (.invalidLabel name argument.1)
  | some place =>
    match slots[place]? with
    | none => trap
    | some (some _) => raise (.invalidLabel name argument.1)
    | some none => return slots.set place (some value)

/-- Evaluates labelled arguments in order, each into its slot, and lists the values of the slots. -/
def slotArguments (trap : Eval Slots) (evaluate : Expr → Eval Value) (name : String)
    (parameters : List String) (arguments : List (String × Expr)) : Eval (List Value) := do
  let slots ← arguments.foldlM (fillSlot trap evaluate name parameters)
    (List.replicate parameters.length none)
  require (.arityMismatch name parameters.length arguments.length) (slots.mapM id)

end Eval

namespace Slots

/-- All slots have a value, or there is no list of their values. -/
theorem mapM_id_eq (slots : Slots) : slots.mapM id =
    if slots.countP Option.isSome = slots.length then some (slots.filterMap id) else none := by
  induction slots with
  | nil => rfl
  | cons slot slots ih =>
    rw [List.mapM_cons]
    cases slot with
    | none =>
      have hle : slots.countP Option.isSome ≤ slots.length := List.countP_le_length
      have hne : (none :: slots).countP Option.isSome ≠ (none :: slots).length := by
        simp only [List.countP_cons, List.length_cons, Option.isSome_none,
          Bool.false_eq_true, if_false]
        omega
      rw [if_neg hne]
      rfl
    | some value =>
      simp only [id_eq, Option.bind_eq_bind, Option.bind_some, ih, List.countP_cons,
        Option.isSome_some, if_true, List.length_cons, Nat.add_right_cancel_iff]
      split <;> rfl

/-- The slots are those of the parameters for the arguments that are bound so far. -/
structure Of (parameters : List String) (bound : List (String × Value)) (slots : Slots) : Prop where
  length_eq : slots.length = parameters.length
  count_eq : slots.countP Option.isSome = bound.length
  of_label : ∀ (label : String) (place : Nat), parameters.idxOf? label = some place →
    slots[place]? = some (bound.lookup label)
  of_place : ∀ (place : Nat) (value : Value), slots[place]? = some (some value) →
    ∃ label, parameters[place]? = some label ∧ bound.lookup label = some value

variable {parameters : List String} {bound : List (String × Value)} {slots : Slots}
  {label : String} {place : Nat} {value : Value}

/-- The place of a label is one of the parameters, and the parameter there is the label. -/
theorem getElem?_of_idxOf? (h : parameters.idxOf? label = some place) :
    parameters[place]? = some label := by
  obtain ⟨hlt, hlabel, -⟩ := List.idxOf?_eq_some_iff.1 h
  rw [List.getElem?_eq_getElem hlt, hlabel]

/-- Without arguments no slot is filled. -/
theorem of_nil (parameters : List String) :
    Of parameters [] (List.replicate parameters.length none) where
  length_eq := List.length_replicate
  count_eq := by simp [List.countP_replicate]
  of_label label place hplace := by
    obtain ⟨hlt, -, -⟩ := List.idxOf?_eq_some_iff.1 hplace
    rw [List.getElem?_replicate, if_pos hlt]
    rfl
  of_place place value hvalue := by
    rw [List.getElem?_replicate] at hvalue
    split at hvalue
    · cases Option.some.inj hvalue
    · cases hvalue

/-- An argument with a new label goes into an empty slot. -/
theorem Of.set (h : Of parameters bound slots) (hplace : parameters.idxOf? label = some place)
    (hnew : bound.lookup label = none) (value : Value) :
    Of parameters (bound ++ [(label, value)]) (slots.set place (some value)) := by
  have hslot : slots[place]? = some none := by
    rw [h.of_label label place hplace, hnew]
  obtain ⟨hlt, hempty⟩ := List.getElem?_eq_some_iff.1 hslot
  have hlookup : (bound ++ [(label, value)]).lookup label = some value := by
    rw [List.lookup_append, hnew, Option.none_or, List.lookup_cons_self]
  have hothers : ∀ other, other ≠ label →
      (bound ++ [(label, value)]).lookup other = bound.lookup other := by
    intro other hother
    have hne : (other == label) = false := beq_eq_false_iff_ne.2 hother
    rw [List.lookup_append, List.lookup_cons, hne, List.lookup_nil, Option.or_none]
  refine ⟨?_, ?_, fun other place' hplace' => ?_, fun place' value' hvalue' => ?_⟩
  · rw [List.length_set, h.length_eq]
  · rw [List.countP_set hlt, h.count_eq, hempty, List.length_append]
    rfl
  · rw [List.getElem?_set]
    by_cases hsame : place = place'
    · -- The parameter at one place has one label.
      have hlabel : some label = some other := by
        rw [← getElem?_of_idxOf? hplace, hsame, getElem?_of_idxOf? hplace']
      rw [if_pos hsame, if_pos hlt, ← Option.some.inj hlabel, hlookup]
    · have hne : other ≠ label := by
        rintro rfl
        exact hsame (Option.some.inj (hplace.symm.trans hplace'))
      rw [if_neg hsame, h.of_label other place' hplace', hothers other hne]
  · rw [List.getElem?_set] at hvalue'
    by_cases hsame : place = place'
    · rw [if_pos hsame, if_pos hlt] at hvalue'
      obtain rfl : value = value' := Option.some.inj (Option.some.inj hvalue')
      exact ⟨label, hsame ▸ getElem?_of_idxOf? hplace, hlookup⟩
    · rw [if_neg hsame] at hvalue'
      obtain ⟨other, hother, hbound⟩ := h.of_place place' value' hvalue'
      refine ⟨other, hother, ?_⟩
      rw [hothers other, hbound]
      rintro rfl
      rw [hnew] at hbound
      cases hbound

/-- Slots that are all filled have the values of the parameters in their order. -/
theorem Of.eq_map (h : Of parameters bound slots)
    (hfilled : slots.countP Option.isSome = slots.length) :
    slots = parameters.map fun parameter => bound.lookup parameter := by
  apply List.ext_getElem
  · rw [List.length_map, h.length_eq]
  · intro place hplace hplace'
    obtain ⟨value, hvalue⟩ : ∃ value, slots[place] = some value :=
      Option.isSome_iff_exists.1 (List.countP_eq_length.1 hfilled _ (List.getElem_mem hplace))
    have hslot : slots[place]? = some (some value) := by
      rw [List.getElem?_eq_getElem hplace, hvalue]
    obtain ⟨label, hlabel, hbound⟩ := h.of_place place value hslot
    obtain ⟨hlt, rfl⟩ := List.getElem?_eq_some_iff.1 hlabel
    rw [List.getElem_map, hvalue, hbound]

/-- The slots are all filled exactly if there are as many arguments as parameters. -/
theorem Of.mapM_id (h : Of parameters bound slots) : slots.mapM id =
    if bound.length = parameters.length then
      some (parameters.filterMap fun parameter => bound.lookup parameter)
    else
      none := by
  rw [mapM_id_eq, h.count_eq, h.length_eq]
  split
  · rename_i hlength
    have hfilled : slots.countP Option.isSome = slots.length := by
      rw [h.count_eq, h.length_eq, hlength]
    rw [h.eq_map hfilled, List.filterMap_map]
    rfl
  · rfl

end Slots

namespace Eval

variable {parameters : List String} {bound : List (String × Value)} {slots : Slots}

/-- The same, with some arguments in their slots already. -/
theorem foldlM_bindLabel_eq_fillSlot (trap : Eval Slots) (evaluate : Expr → Eval Value)
    (name : String) (arguments : List (String × Expr)) (found : Nat)
    (h : Slots.Of parameters bound slots) (hfound : bound.length + arguments.length = found) :
    (arguments.foldlM (bindLabel evaluate name parameters) bound >>= fun bound =>
      if found = parameters.length then
        pure (parameters.filterMap fun parameter => bound.lookup parameter)
      else
        raise (.arityMismatch name parameters.length found)) =
    arguments.foldlM (fillSlot trap evaluate name parameters) slots >>= fun slots =>
      require (.arityMismatch name parameters.length found) (slots.mapM id) := by
  induction arguments generalizing bound slots with
  | nil =>
    obtain rfl : bound.length = found := hfound
    rw [List.foldlM_nil, List.foldlM_nil, pure_bind, pure_bind, h.mapM_id]
    split <;> rfl
  | cons argument arguments ih =>
    obtain ⟨label, e⟩ := argument
    rw [List.foldlM_cons, List.foldlM_cons, bindLabel_eq, fillSlot, bind_assoc,
      bind_assoc, bind_assoc, bind_assoc]
    refine congrArg (evaluate e >>= ·) (funext fun value => ?_)
    dsimp only
    cases hplace : parameters.idxOf? label with
    | none =>
      have hnot : parameters.contains label = false := by
        simpa using List.idxOf?_eq_none_iff.1 hplace
      rw [hnot]
      rfl
    | some place =>
      have hmem : parameters.contains label = true := by
        simpa using List.mem_of_getElem? (Slots.getElem?_of_idxOf? hplace)
      -- The slot is there, and it is filled exactly if the label was used before.
      simp only [hmem, Bool.true_and, h.of_label label place hplace]
      cases hbound : bound.lookup label with
      | some earlier => rfl
      | none =>
        have hlength : (bound ++ [(label, value)]).length + arguments.length = found := by
          simp only [List.length_append, List.length_cons, List.length_nil] at hfound ⊢
          omega
        simp only [Option.isNone_none, if_true, pure_bind]
        exact ih (h.set hplace hbound value) hlength

/-- Sorting labelled arguments by name is sorting them into slots. No slot is missing, since the
trap makes no difference. -/
theorem labelledArguments_eq_slotArguments (trap : Eval Slots) (evaluate : Expr → Eval Value)
    (name : String) (parameters : List String) (arguments : List (String × Expr)) :
    labelledArguments evaluate name parameters arguments =
      slotArguments trap evaluate name parameters arguments := by
  rw [labelledArguments_eq, slotArguments]
  exact foldlM_bindLabel_eq_fillSlot trap evaluate name arguments arguments.length
    (Slots.of_nil parameters) (Nat.zero_add _)

end Eval

end Scriptlet
