import Scriptlet.Proofs.Evaluation.Nesting
import Mathlib.Data.List.Forall2
import Mathlib.Data.List.Induction
import Mathlib.Data.List.Nodup
import Mathlib.Data.List.Perm.Subperm

/-!
# Labelled calls bind by name

Labelled arguments fit a function if their labels are parameters and no two are the same (`Fits`).
As long as they fit they are evaluated in source order like the arguments of any other call, and
nothing else happens (`foldlM_bindLabel_of_fits`). The first argument that does not fit is still
evaluated, and then its label is refused.

So there are four ways to an end, and the first in source order decides (`BindsByName`): an argument
fails, a label is refused, all arguments fit but are too few, or the labels are the parameters in
some order and each parameter takes the value with its label. Main statement:
`Eval.labelledCall_binds_by_name`.
-/

namespace Scriptlet

namespace Eval

variable {eval : Expr → Eval Value} {name label : String} {parameters : List String} {e : Expr}
  {arguments before after : List (String × Expr)} {bound : List (String × Value)}
  {value : Value} {values : List Value} {m m' m₁ : Machine}

/-! ### Values by label -/

theorem length_of_mapM {α β : Type} {f : α → Eval β} {as : List α} {bs : List β}
    (h : as.mapM f m = .ok (.ok bs, m')) : bs.length = as.length := by
  induction as generalizing m m' bs with
  | nil =>
    cases h
    rfl
  | cons a as ih =>
    rw [List.mapM_cons] at h
    rcases bind_eq_ok_iff.1 h with ⟨b, m₁, -, h⟩ | ⟨_, hr, -⟩
    · rcases bind_eq_ok_iff.1 h with ⟨rest, m₂, hrest, h⟩ | ⟨_, hr, -⟩
      · cases h
        rw [List.length_cons, List.length_cons, ih hrest]
      · cases hr
    · cases hr

/-- A label has a value exactly if it is one of the labels. -/
theorem lookup_zip_isNone_iff {labels : List String} (hlength : values.length = labels.length) :
    ((labels.zip values).lookup label).isNone = true ↔ label ∉ labels := by
  induction labels generalizing values with
  | nil => simp
  | cons first labels ih =>
    obtain ⟨value, others, rfl⟩ := List.exists_cons_of_length_eq_add_one hlength
    rw [List.zip_cons_cons, List.lookup_cons, List.mem_cons, not_or]
    by_cases hfirst : label = first
    · simp [hfirst]
    · rw [beq_eq_false_iff_ne.2 hfirst]
      simpa [hfirst] using ih (Nat.succ.inj hlength)

/-- The value of a label stands beside it. -/
theorem mem_of_lookup_eq_some (h : bound.lookup label = some value) : (label, value) ∈ bound := by
  obtain ⟨front, back, rfl, -⟩ := List.lookup_eq_some_iff.1 h
  exact List.mem_append_right _ (List.mem_cons_self ..)

/-- Where every parameter has a value, they are listed in the order of the parameters. -/
theorem forall₂_filterMap_lookup
    (h : ∀ parameter ∈ parameters, (bound.lookup parameter).isNone = false) :
    List.Forall₂ (fun parameter value => (parameter, value) ∈ bound) parameters
      (parameters.filterMap fun parameter => bound.lookup parameter) := by
  induction parameters with
  | nil => exact .nil
  | cons parameter parameters ih =>
    obtain ⟨hfirst, hothers⟩ := List.forall_mem_cons.1 h
    cases hvalue : bound.lookup parameter with
    | none =>
      rw [hvalue] at hfirst
      cases hfirst
    | some value =>
      rw [List.filterMap_cons, hvalue]
      exact .cons (mem_of_lookup_eq_some hvalue) (ih hothers)

/-! ### Arguments that fit -/

/-- The labels are parameters, and no two of them are the same. -/
structure Fits (parameters : List String) (arguments : List (String × Expr)) : Prop where
  known : ∀ label ∈ arguments.map Prod.fst, label ∈ parameters
  distinct : (arguments.map Prod.fst).Nodup

/-- The label is no parameter, or an argument before has it. -/
def Misfit (parameters : List String) (before : List (String × Expr)) (label : String) : Prop :=
  label ∉ parameters ∨ label ∈ before.map Prod.fst

theorem fits_nil (parameters : List String) : Fits parameters [] :=
  ⟨List.forall_mem_nil _, List.nodup_nil⟩

theorem Fits.of_append (h : Fits parameters (before ++ after)) : Fits parameters before := by
  obtain ⟨hknown, hdistinct⟩ := h
  rw [List.map_append] at hknown hdistinct
  exact ⟨fun label hlabel => hknown label (List.mem_append_left _ hlabel), hdistinct.of_append_left⟩

/-- One more argument fits unless its label does not. -/
theorem Fits.concat (h : Fits parameters before) (hlabel : ¬ Misfit parameters before label) :
    Fits parameters (before ++ [(label, e)]) := by
  obtain ⟨hknown, hnew⟩ := not_or.1 hlabel
  constructor
  · intro label' hmem
    rw [List.map_append, List.mem_append, List.map_singleton, List.mem_singleton] at hmem
    rcases hmem with hmem | rfl
    · exact h.known label' hmem
    · exact not_not.1 hknown
  · rw [List.map_append, List.map_singleton, ← List.concat_eq_append]
    exact h.distinct.concat hnew

/-- Arguments fit, or there is a first one among them that does not. -/
theorem fits_or_misfit (parameters : List String) (arguments : List (String × Expr)) :
    Fits parameters arguments ∨ ∃ before label e after, arguments = before ++ (label, e) :: after ∧
      Fits parameters before ∧ Misfit parameters before label := by
  induction arguments using List.reverseRecOn with
  | nil => exact .inl (fits_nil parameters)
  | append_singleton before last ih =>
    obtain ⟨label, e⟩ := last
    rcases ih with hfits | ⟨before', label', e', after, rfl, hfits, hlabel⟩
    · by_cases hlabel : Misfit parameters before label
      · exact .inr ⟨before, label, e, [], rfl, hfits, hlabel⟩
      · exact .inl (hfits.concat hlabel)
    · exact .inr ⟨before', label', e', after ++ [(label, e)], by simp, hfits, hlabel⟩

/-- Fitting arguments are evaluated in source order, and nothing else happens. -/
theorem foldlM_bindLabel_of_fits (h : Fits parameters arguments)
    (hnew : ∀ label ∈ arguments.map Prod.fst, bound.lookup label = none) :
    arguments.foldlM (bindLabel eval name parameters) bound = (do
      let values ← (arguments.map Prod.snd).mapM eval
      return bound ++ (arguments.map Prod.fst).zip values) := by
  induction arguments generalizing bound with
  | nil => simp
  | cons argument arguments ih =>
    obtain ⟨label, e⟩ := argument
    obtain ⟨hknown, hdistinct⟩ := h
    rw [List.map_cons] at hknown hdistinct hnew
    obtain ⟨hlabel, hothers⟩ := List.forall_mem_cons.1 hknown
    obtain ⟨hnotin, hrest⟩ := List.nodup_cons.1 hdistinct
    obtain ⟨hfree, hfrees⟩ := List.forall_mem_cons.1 hnew
    have hfits : parameters.contains label && (bound.lookup label).isNone := by
      simpa [hfree] using hlabel
    have hfree' (value : Value) : ∀ other ∈ arguments.map Prod.fst,
        (bound ++ [(label, value)]).lookup other = none := by
      intro other hother
      have hne : (other == label) = false := beq_eq_false_iff_ne.2 fun heq => hnotin (heq ▸ hother)
      rw [List.lookup_append, hfrees other hother, List.lookup_cons, hne]
      rfl
    have hstep (value : Value) := ih ⟨hothers, hrest⟩ (hfree' value)
    rw [List.foldlM_cons, bindLabel_eq, List.map_cons, List.map_cons, List.mapM_cons]
    simp only [hfits, if_true, bind_assoc, pure_bind, hstep, List.append_assoc, List.zip_cons_cons,
      List.singleton_append]

theorem labelledArguments_of_fits (h : Fits parameters arguments) :
    labelledArguments eval name parameters arguments = (do
      let values ← (arguments.map Prod.snd).mapM eval
      if arguments.length = parameters.length then
        return parameters.filterMap fun parameter =>
          ((arguments.map Prod.fst).zip values).lookup parameter
      else
        raise (.arityMismatch name parameters.length arguments.length)) := by
  rw [labelledArguments_eq, foldlM_bindLabel_of_fits h fun _ _ => List.lookup_nil]
  simp only [bind_assoc, pure_bind, List.nil_append]

/-- Fitting arguments are not more than the parameters. -/
theorem Fits.length_le (h : Fits parameters arguments) : arguments.length ≤ parameters.length := by
  have hsubperm := List.subperm_of_subset h.distinct h.known
  simpa using hsubperm.length_le

/-- The labels of fitting arguments are the parameters in some order exactly if they are as many. -/
theorem Fits.perm_iff (h : Fits parameters arguments) :
    (arguments.map Prod.fst).Perm parameters ↔ arguments.length = parameters.length := by
  have hsubperm := List.subperm_of_subset h.distinct h.known
  constructor
  · intro hperm
    simpa using hperm.length_eq
  · intro hlength
    exact hsubperm.perm_of_length_le (by simp [hlength])

theorem fits_of_perm (hdistinct : (arguments.map Prod.fst).Nodup)
    (hperm : (arguments.map Prod.fst).Perm parameters) : Fits parameters arguments :=
  ⟨fun _ hlabel => hperm.mem_iff.1 hlabel, hdistinct⟩

/-! ### What decides -/

/-- The arguments are evaluated in source order on the machine of the caller, and they fit. -/
structure Taken (eval : Expr → Eval Value) (parameters : List String)
    (arguments : List (String × Expr)) (m : Machine) (values : List Value)
    (m' : Machine) : Prop where
  fits : Fits parameters arguments
  evaluated : (arguments.map Prod.snd).mapM eval m = .ok (.ok values, m')

/-- How the arguments of a labelled call end: with an error, or with the values of the parameters in
their order. What comes first in source order decides. -/
inductive BindsByName (eval : Expr → Eval Value) (name : String) (parameters : List String)
    (arguments : List (String × Expr)) (m : Machine) :
    Except EvalError (List Value) → Machine → Prop
  /-- An argument fails. -/
  | failed {before after : List (String × Expr)} {label : String} {e : Expr} {values : List Value}
    {m₁ m' : Machine} {error : EvalError}
    (hsplit : arguments = before ++ (label, e) :: after)
    (hbefore : Taken eval parameters before m values m₁)
    (hfails : eval e m₁ = .ok (.error error, m')) :
    BindsByName eval name parameters arguments m (.error error) m'
  /-- A label is no parameter or has been used, which is found out after its argument is
  evaluated. -/
  | refused {before after : List (String × Expr)} {label : String} {e : Expr} {values : List Value}
    {m₁ m' : Machine} {value : Value}
    (hsplit : arguments = before ++ (label, e) :: after)
    (hbefore : Taken eval parameters before m values m₁)
    (hvalue : eval e m₁ = .ok (.ok value, m'))
    (hlabel : label ∉ parameters ∨ label ∈ before.map Prod.fst) :
    BindsByName eval name parameters arguments m (.error ⟨.invalidLabel name label, []⟩) m'
  /-- All arguments are taken, but there are more parameters. -/
  | tooFew {values : List Value} {m' : Machine} (hall : Taken eval parameters arguments m values m')
    (hfew : arguments.length < parameters.length) :
    BindsByName eval name parameters arguments m
      (.error ⟨.arityMismatch name parameters.length arguments.length, []⟩) m'
  /-- The labels are the parameters in some order, and each parameter takes the value with its
  label. -/
  | complete {evaluated values : List Value} {m' : Machine}
    (hall : (arguments.map Prod.snd).mapM eval m = .ok (.ok evaluated, m'))
    (hdistinct : (arguments.map Prod.fst).Nodup)
    (hperm : (arguments.map Prod.fst).Perm parameters)
    (hvalues : List.Forall₂ (fun parameter value =>
      (parameter, value) ∈ (arguments.map Prod.fst).zip evaluated) parameters values) :
    BindsByName eval name parameters arguments m (.ok values) m'

theorem Taken.foldlM_eq (h : Taken eval parameters arguments m values m') :
    arguments.foldlM (bindLabel eval name parameters) [] m =
      .ok (.ok ((arguments.map Prod.fst).zip values), m') := by
  rw [foldlM_bindLabel_of_fits h.fits fun _ _ => List.lookup_nil, bind_apply_of_ok h.evaluated]
  rfl

theorem Taken.length_eq (h : Taken eval parameters arguments m values m') :
    values.length = (arguments.map Prod.fst).length := by
  rw [length_of_mapM h.evaluated, List.length_map, List.length_map]

/-- A label that is there once has one value. -/
theorem rightUnique_mem_zip {labels : List String} (h : labels.Nodup) (values : List Value) :
    Relator.RightUnique fun label value => (label, value) ∈ labels.zip values := by
  intro label value value' hvalue hvalue'
  obtain ⟨i, hi, hpair⟩ := List.getElem_of_mem hvalue
  obtain ⟨j, hj, hpair'⟩ := List.getElem_of_mem hvalue'
  rw [List.getElem_zip, Prod.mk.injEq] at hpair hpair'
  obtain rfl : i = j := (h.getElem_inj_iff).1 (hpair.1.trans hpair'.1.symm)
  exact hpair.2.symm.trans hpair'.2

/-- As many fitting arguments as parameters give each parameter the value with its label. -/
theorem Taken.forall₂ (h : Taken eval parameters arguments m values m')
    (hlength : arguments.length = parameters.length) :
    List.Forall₂ (fun parameter value => (parameter, value) ∈ (arguments.map Prod.fst).zip values)
      parameters (parameters.filterMap fun parameter =>
        ((arguments.map Prod.fst).zip values).lookup parameter) := by
  refine forall₂_filterMap_lookup fun parameter hparameter => ?_
  have hlabel : parameter ∈ arguments.map Prod.fst :=
    (h.fits.perm_iff.2 hlength).mem_iff.2 hparameter
  exact Bool.eq_false_iff.2 fun hnone => (lookup_zip_isNone_iff h.length_eq).1 hnone hlabel

variable {r : Except EvalError (List Value)}

/-- What decides first is how the arguments end. -/
theorem BindsByName.labelledArguments_eq (h : BindsByName eval name parameters arguments m r m') :
    labelledArguments eval name parameters arguments m = .ok (r, m') := by
  cases h with
  | failed hsplit hbefore hfails =>
    rw [Eval.labelledArguments_eq]
    refine bind_apply_of_error
      (foldlM_eq_error_iff.2 ⟨_, _, _, _, _, hsplit, hbefore.foldlM_eq, ?_⟩) _
    exact bind_apply_of_error hfails _
  | @refused before after label e values m₁ m' value hsplit hbefore hvalue hlabel =>
    -- The values before are found by the labels before, so a label that was used is found.
    have hrefused : ¬ (parameters.contains label &&
        (((before.map Prod.fst).zip values).lookup label).isNone) = true := by
      rw [Bool.and_eq_true, lookup_zip_isNone_iff hbefore.length_eq, List.contains_iff_mem, not_and,
        not_not]
      exact fun hknown => hlabel.resolve_left (not_not.2 hknown)
    rw [Eval.labelledArguments_eq]
    refine bind_apply_of_error
      (foldlM_eq_error_iff.2 ⟨_, _, _, _, _, hsplit, hbefore.foldlM_eq, ?_⟩) _
    rw [bindLabel_eq, bind_apply_of_ok hvalue, if_neg hrefused]
    rfl
  | tooFew hall hfew =>
    rw [labelledArguments_of_fits hall.fits, bind_apply_of_ok hall.evaluated,
      if_neg (Nat.ne_of_lt hfew)]
    rfl
  | complete hall hdistinct hperm hvalues =>
    have htaken : Taken eval parameters arguments m _ m' := ⟨fits_of_perm hdistinct hperm, hall⟩
    have hlength := htaken.fits.perm_iff.1 hperm
    have hsame := List.right_unique_forall₂' (rightUnique_mem_zip hdistinct _)
      (htaken.forall₂ hlength) hvalues
    rw [labelledArguments_of_fits htaken.fits, bind_apply_of_ok hall, if_pos hlength, hsame]
    rfl

/-- Arguments that fit are taken, unless one of them fails or is interrupted. -/
theorem taken_or_decided (hsplit : arguments = before ++ after) (hfits : Fits parameters before) :
    (∃ values m₁, Taken eval parameters before m values m₁) ∨
      (∃ r m', BindsByName eval name parameters arguments m r m') ∨
      ∃ i, labelledArguments eval name parameters arguments m = .error i := by
  match hbefore : (before.map Prod.snd).mapM eval m with
  | .ok (.ok values, m₁) => exact .inl ⟨values, m₁, hfits, hbefore⟩
  | .ok (.error error, m') =>
    obtain ⟨front, e, back, values, m₁, hmap, hfront, hfails⟩ := mapM_eq_error_iff.1 hbefore
    obtain ⟨earlier, later, rfl, rfl, hlater⟩ := List.map_eq_append_iff.1 hmap
    obtain ⟨⟨label, e⟩, rest, rfl, rfl, -⟩ := List.map_eq_cons_iff.1 hlater
    rw [List.append_assoc, List.cons_append] at hsplit
    exact .inr (.inl ⟨_, m', .failed hsplit ⟨hfits.of_append, hfront⟩ hfails⟩)
  | .error i =>
    refine .inr (.inr ⟨i, ?_⟩)
    rw [labelledArguments_eq, hsplit, List.foldlM_append,
      foldlM_bindLabel_of_fits hfits fun _ _ => List.lookup_nil]
    exact bind_apply_of_interrupt (bind_apply_of_interrupt (bind_apply_of_interrupt hbefore _) _) _

/-- Something decides, unless an argument is interrupted. -/
theorem bindsByName_or_interrupt (eval : Expr → Eval Value) (name : String)
    (parameters : List String) (arguments : List (String × Expr)) (m : Machine) :
    (∃ r m', BindsByName eval name parameters arguments m r m') ∨
      ∃ i, labelledArguments eval name parameters arguments m = .error i := by
  rcases fits_or_misfit parameters arguments with
    hfits | ⟨before, label, e, after, hsplit, hfits, hlabel⟩
  · rcases taken_or_decided (List.append_nil arguments).symm hfits with
      ⟨values, m₁, htaken⟩ | hdecided
    · rcases Nat.lt_or_eq_of_le hfits.length_le with hfew | hlength
      · exact .inl ⟨_, m₁, .tooFew htaken hfew⟩
      · exact .inl ⟨_, m₁, .complete htaken.evaluated hfits.distinct (hfits.perm_iff.2 hlength)
          (htaken.forall₂ hlength)⟩
    · exact hdecided
  · rcases taken_or_decided hsplit hfits with ⟨values, m₁, htaken⟩ | hdecided
    · match hargument : eval e m₁ with
      | .ok (.ok value, m') => exact .inl ⟨_, m', .refused hsplit htaken hargument hlabel⟩
      | .ok (.error error, m') => exact .inl ⟨_, m', .failed hsplit htaken hargument⟩
      | .error i =>
        refine .inr ⟨i, ?_⟩
        rw [labelledArguments_eq, hsplit, List.foldlM_append]
        refine bind_apply_of_interrupt ?_ _
        rw [bind_apply_of_ok htaken.foldlM_eq, List.foldlM_cons]
        exact bind_apply_of_interrupt (bind_apply_of_interrupt hargument _) _
    · exact hdecided

theorem labelledArguments_eq_ok_iff :
    labelledArguments eval name parameters arguments m = .ok (r, m') ↔
      BindsByName eval name parameters arguments m r m' := by
  refine ⟨fun h => ?_, BindsByName.labelledArguments_eq⟩
  rcases bindsByName_or_interrupt eval name parameters arguments m with ⟨r', m'', hbinds⟩ | ⟨i, hi⟩
  · obtain ⟨rfl, rfl⟩ := Prod.mk.inj (Except.ok.inj (h.symm.trans hbinds.labelledArguments_eq))
    exact hbinds
  · rw [hi] at h
    cases h

/-! ### Calls -/

/-- Labels that are the parameters in their order make no difference. -/
theorem labelledArguments_in_order (hdistinct : parameters.Nodup)
    (horder : arguments.map Prod.fst = parameters) :
    labelledArguments eval name parameters arguments = (arguments.map Prod.snd).mapM eval := by
  have hfits : Fits parameters arguments := fits_of_perm (horder ▸ hdistinct) (horder ▸ .refl _)
  have hlength : arguments.length = parameters.length := by
    rw [← horder, List.length_map]
  funext m
  rw [labelledArguments_of_fits hfits]
  match hvalues : (arguments.map Prod.snd).mapM eval m with
  | .error i => exact bind_apply_of_interrupt hvalues _
  | .ok (.error error, m') => exact bind_apply_of_error hvalues _
  | .ok (.ok values, m') =>
    have htaken : Taken eval parameters arguments m values m' := ⟨hfits, hvalues⟩
    have hinOrder : List.Forall₂ (fun parameter value => (parameter, value) ∈ parameters.zip values)
        parameters values :=
      List.forall₂_iff_zip.2 ⟨by rw [htaken.length_eq, horder], id⟩
    have hsorted := htaken.forall₂ hlength
    rw [horder] at hsorted
    rw [bind_apply_of_ok hvalues, if_pos hlength, horder, pure_apply,
      List.right_unique_forall₂' (rightUnique_mem_zip hdistinct values) hsorted hinOrder]

/-- A labelled call of a function ends with what decides first about its arguments if that is an
error, and as the call with the values of the parameters otherwise. If all arguments have a value,
the function is called exactly if the labels are distinct and the parameters in some order. With the
parameters as labels, in their order, it is the call with the same arguments by position. -/
theorem labelledCall_binds_by_name (ctx : Context) (fuel : Nat) (name : String) (f : FunctionDecl)
    (hf : ctx.functions.get? name = some f) (arguments : List (String × Expr)) (m : Machine) :
    (∀ r m', evaluate ctx (fuel + 1) (.labelledCall name arguments) m = .ok (r, m') ↔
      (∃ error, r = .error error ∧
        BindsByName (evaluate ctx fuel) name f.parameters arguments m (.error error) m') ∨
      ∃ values m₁, BindsByName (evaluate ctx fuel) name f.parameters arguments m (.ok values) m₁ ∧
        callFunction ctx.scoping (evaluate ctx fuel) f values m₁ = .ok (r, m')) ∧
    (∀ evaluated m₁,
      (arguments.map Prod.snd).mapM (evaluate ctx fuel) m = .ok (.ok evaluated, m₁) →
        ((∃ values m₂,
            BindsByName (evaluate ctx fuel) name f.parameters arguments m (.ok values) m₂) ↔
          (arguments.map Prod.fst).Nodup ∧ (arguments.map Prod.fst).Perm f.parameters)) ∧
    (f.parameters.Nodup → arguments.map Prod.fst = f.parameters →
      evaluate ctx (fuel + 1) (.labelledCall name arguments) m =
        evaluate ctx (fuel + 1) (.call name (arguments.map Prod.snd)) m) := by
  refine ⟨fun r m' => ?_, fun evaluated m₁ hevaluated => ⟨?_, ?_⟩, fun hdistinct horder => ?_⟩
  · rw [Task.evaluate_labelledCall hf, bind_eq_ok_iff]
    simp only [labelledArguments_eq_ok_iff]
    exact or_comm
  · rintro ⟨values, m₂, hbinds⟩
    cases hbinds with
    | complete _ hdistinct hperm _ => exact ⟨hdistinct, hperm⟩
  · rintro ⟨hdistinct, hperm⟩
    have htaken : Taken (evaluate ctx fuel) f.parameters arguments m evaluated m₁ :=
      ⟨fits_of_perm hdistinct hperm, hevaluated⟩
    exact ⟨_, m₁, .complete hevaluated hdistinct hperm
      (htaken.forall₂ (htaken.fits.perm_iff.1 hperm))⟩
  · rw [Task.evaluate_labelledCall hf, Task.evaluate_call hf,
      labelledArguments_in_order hdistinct horder]

/-- The argument of the second parameter comes first and sets the variable that the other one reads.
A function that has one parameter twice is never called, since its second place cannot be filled. -/
theorem labelledCall_binds_by_name_out_of_order :
    ∃ (ctx : Context) (f g : FunctionDecl) (m m' : Machine) (arguments : List (String × Expr)),
      ctx.functions.get? "f" = some f ∧ f.parameters = ["a", "b"] ∧
      ctx.functions.get? "g" = some g ∧ g.parameters = ["a", "a"] ∧
      arguments = [("b", .assign "x" (.boolean true)), ("a", .array [.variable "x"])] ∧
      (∃ values m₁, BindsByName (evaluate ctx 3) "f" f.parameters arguments m (.ok values) m₁ ∧
        callFunction ctx.scoping (evaluate ctx 3) f values m₁ =
          .ok (.ok (.array [.array [.bool true], .bool true]), m')) ∧
      evaluate ctx 4 (.labelledCall "f" arguments) m =
        .ok (.ok (.array [.array [.bool true], .bool true]), m') ∧
      evaluate ctx 4 (.labelledCall "g" [("a", .boolean true)]) m =
        .ok (.error ⟨.arityMismatch "g" 2 1, []⟩, m) := by
  let f : FunctionDecl := ⟨"f", ["a", "b"], .array [.variable "a", .variable "b"]⟩
  let g : FunctionDecl := ⟨"g", ["a", "a"], .boolean true⟩
  let ctx : Context := ⟨⟨(Std.ExtTreeMap.empty.insert "f" f).insert "g" g⟩, .lexical⟩
  let m : Machine := ⟨.empty, .empty none⟩
  let arguments : List (String × Expr) :=
    [("b", .assign "x" (.boolean true)), ("a", .array [.variable "x"])]
  obtain ⟨m', hcall⟩ : ∃ m', evaluate ctx 4 (.labelledCall "f" arguments) m =
      .ok (.ok (.array [.array [.bool true], .bool true]), m') := ⟨_, rfl⟩
  have hreached := ((labelledCall_binds_by_name ctx 3 "f" f rfl arguments m).1 _ m').1 hcall
  have htaken : Taken (evaluate ctx 3) g.parameters [("a", .boolean true)] m [.bool true] m :=
    ⟨⟨by decide, by decide⟩, rfl⟩
  have hrefused := ((labelledCall_binds_by_name ctx 3 "g" g rfl [("a", .boolean true)] m).1 _ m).2
    (.inl ⟨_, rfl, .tooFew htaken (by decide)⟩)
  refine ⟨ctx, f, g, m, m', arguments, rfl, rfl, rfl, rfl, rfl, ?_, hcall, hrefused⟩
  rcases hreached with ⟨error, herror, -⟩ | hvalues
  · cases herror
  · exact hvalues

end Eval

end Scriptlet
