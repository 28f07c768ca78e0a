import Scriptlet.Evaluation.FunctionTable
import Mathlib.Data.List.Nodup

/-!
# What a function table holds

A function is registered if its name is free (`FunctionTable.register_of_free`), and the table has
it then besides those that it had (`extends_of_register`). If its name is taken, it is refused
before anything is written, so the table is left as it was (`register_of_taken`). Functions are
registered one after the other exactly if their names differ from each other and from those in the
table (`exists_forM_register_iff`).

The functions of a program make a table exactly if no two of them have the same name
(`exists_ofProgram_iff`), and their order does not matter for it (`ofProgram_eq_of_perm`). Otherwise
the first function that repeats a name is refused (`ofProgram_of_not_nodup`).

Functions can also be registered one after the other where those that are refused are passed over
(`ofOffers`). Main statement: both ways lead to a table that has, for each name, the first function
that came with it, and nothing else (`table_exact`).
-/

namespace Scriptlet

/-- The names of a program's functions in source order. -/
def Program.functionNames (p : Program) : List String :=
  p.functions.map (·.name)

/-- The name is that of the first function of the program which repeats the name of one before
it. -/
def Program.FirstRepeated (p : Program) (name : String) : Prop :=
  ∃ before after, p.functionNames = before ++ name :: after ∧ before.Nodup ∧ name ∈ before

theorem Program.FirstRepeated.not_nodup {p : Program} {name : String} (h : p.FirstRepeated name) :
    ¬ p.functionNames.Nodup := by
  obtain ⟨before, after, hsplit, -, hmem⟩ := h
  intro hnodup
  rw [hsplit] at hnodup
  exact List.disjoint_of_nodup_append hnodup hmem List.mem_cons_self

/-- There is one such name at most: of two places in the list, the one that comes later would have a
name repeated before it. -/
theorem Program.FirstRepeated.unique {p : Program} {name name' : String} (h : p.FirstRepeated name)
    (h' : p.FirstRepeated name') : name = name' := by
  obtain ⟨before, after, hsplit, hnodup, hmem⟩ := h
  obtain ⟨before', after', hsplit', hnodup', hmem'⟩ := h'
  rw [hsplit] at hsplit'
  rcases List.append_eq_append_iff.1 hsplit' with ⟨between, rfl, hrest⟩ | ⟨between, rfl, hrest⟩
  · cases between with
    | nil => exact (List.cons.inj hrest).1
    | cons first between =>
      obtain rfl := (List.cons.inj hrest).1
      exact (List.disjoint_of_nodup_append hnodup' hmem List.mem_cons_self).elim
  · cases between with
    | nil => exact (List.cons.inj hrest).1.symm
    | cons first between =>
      obtain rfl := (List.cons.inj hrest).1
      exact (List.disjoint_of_nodup_append hnodup hmem' List.mem_cons_self).elim

namespace FunctionTable

variable {table larger larger' : FunctionTable} {f : FunctionDecl} {fs gs : List FunctionDecl}
  {p q : Program} {kind : ErrorKind} {name : String}

/-- The table `larger` has the functions of `table` and those in the list. -/
def Extends (table : FunctionTable) (fs : List FunctionDecl) (larger : FunctionTable) : Prop :=
  ∀ name f, larger.get? name = some f ↔ (f ∈ fs ∧ f.name = name) ∨ table.get? name = some f

namespace Extends

theorem get?_eq_none_iff (h : Extends table fs larger) :
    larger.get? name = none ↔ name ∉ fs.map (·.name) ∧ table.get? name = none := by
  simp only [Option.eq_none_iff_forall_ne_some, ne_eq, h name, List.mem_map, not_or, not_exists,
    forall_and]

/-- What a table is extended to is determined by what it has. -/
theorem unique (h : Extends table fs larger) (h' : Extends table fs larger') :
    larger = larger' := by
  obtain ⟨functions⟩ := larger
  obtain ⟨functions'⟩ := larger'
  congr 1
  exact Std.ExtTreeMap.ext_getElem? fun name =>
    Option.ext fun f => (h name f).trans (h' name f).symm

theorem perm (h : Extends table fs larger) (hperm : fs.Perm gs) : Extends table gs larger := by
  intro name f
  rw [h name f, hperm.mem_iff]

theorem nil (table : FunctionTable) : Extends table [] table := by
  simp [Extends]

theorem cons (h : Extends table [f] larger) (h' : Extends larger fs larger') :
    Extends table (f :: fs) larger' := by
  intro name g
  simp only [h' name g, h name g, List.mem_cons, List.not_mem_nil, or_false, or_and_right]
  exact or_left_comm.trans (or_assoc).symm

end Extends

/-! ### Registration -/

theorem contains_iff : table.functions.contains name = true ↔ table.get? name ≠ none := by
  rw [Std.ExtTreeMap.contains_eq_isSome_getElem?]
  exact Option.isSome_iff_ne_none

/-- A function whose name is taken is refused, and the table is left as it was. -/
theorem register_of_taken (h : table.get? f.name ≠ none) :
    register f table = (.error (.duplicateFunction f.name), table) := by
  have hcontains : table.functions.contains f.name = true := contains_iff.2 h
  show (ite (table.functions.contains f.name = true) _ _ : Registration Unit) table = _
  rw [if_pos hcontains]
  rfl

theorem register_of_free (h : table.get? f.name = none) :
    register f table = (.ok (), table.insert f) := by
  have hcontains : ¬ table.functions.contains f.name = true := fun hc => contains_iff.1 hc h
  show (ite (table.functions.contains f.name = true) _ _ : Registration Unit) table = _
  rw [if_neg hcontains]
  rfl

/-- A function is refused for its name and for no other reason. -/
theorem register_eq_error_iff : (register f table).1 = .error kind ↔
    table.get? f.name ≠ none ∧ kind = .duplicateFunction f.name := by
  by_cases hfree : table.get? f.name = none
  · simp [register_of_free hfree, hfree]
  · simp [register_of_taken hfree, hfree, eq_comm]

/-- A function that is not refused is written into the table under a name that was free. -/
theorem register_eq_ok_iff :
    register f table = (.ok (), larger) ↔ table.get? f.name = none ∧ larger = table.insert f := by
  constructor
  · intro h
    have hfree : table.get? f.name = none := by
      by_contra htaken
      rw [register_of_taken htaken] at h
      cases h
    rw [register_of_free hfree] at h
    exact ⟨hfree, (Prod.mk.inj h).2.symm⟩
  · rintro ⟨hfree, rfl⟩
    exact register_of_free hfree

theorem extends_of_register (h : register f table = (.ok (), larger)) :
    Extends table [f] larger := by
  intro name g
  obtain ⟨hfree, rfl⟩ := register_eq_ok_iff.1 h
  rw [get?_insert]
  grind

theorem size_of_register (h : register f table = (.ok (), larger)) :
    larger.size = table.size + 1 := by
  obtain ⟨hfree, rfl⟩ := register_eq_ok_iff.1 h
  have hcontains : ¬ table.functions.contains f.name = true := fun hc => contains_iff.1 hc hfree
  simp [size, insert, Std.ExtTreeMap.size_insert, hcontains]

/-! ### Several functions -/

theorem bind_of_ok {α β : Type} {x : Registration α} {a : α} (h : x table = (.ok a, larger))
    (g : α → Registration β) : (x >>= g) table = g a larger := by
  show (x table >>= fun (r, table) => ExceptT.bindCont g r table) = _
  rw [h]
  rfl

theorem bind_of_error {α β : Type} {x : Registration α} (h : x table = (.error kind, larger))
    (g : α → Registration β) : (x >>= g) table = (.error kind, larger) := by
  show (x table >>= fun (r, table) => ExceptT.bindCont g r table) = _
  rw [h]
  rfl

theorem forM_register_cons_of_ok (h : register f table = (.ok (), larger)) :
    (f :: fs).forM register table = fs.forM register larger :=
  bind_of_ok h fun _ => fs.forM register

theorem forM_register_cons_of_error (h : register f table = (.error kind, larger)) :
    (f :: fs).forM register table = (.error kind, larger) :=
  bind_of_error h fun _ => fs.forM register

theorem forM_register_cons_eq_ok (h : (f :: fs).forM register table = (.ok (), larger)) :
    ∃ table₁, register f table = (.ok (), table₁) ∧ fs.forM register table₁ = (.ok (), larger) := by
  match hregister : register f table with
  | (.error kind, left) =>
    rw [forM_register_cons_of_error hregister] at h
    cases h
  | (.ok (), table₁) =>
    rw [forM_register_cons_of_ok hregister] at h
    exact ⟨table₁, rfl, h⟩

theorem size_of_forM_register (h : fs.forM register table = (.ok (), larger)) :
    larger.size = table.size + fs.length := by
  induction fs generalizing table with
  | nil =>
    obtain rfl := (Prod.mk.inj h).2
    rfl
  | cons f fs ih =>
    obtain ⟨table₁, hregister, hrest⟩ := forM_register_cons_eq_ok h
    have hfirst := size_of_register hregister
    have hsize := ih hrest
    rw [List.length_cons]
    omega

/-- Functions that are registered one after the other extend the table. -/
theorem extends_of_forM_register (h : fs.forM register table = (.ok (), larger)) :
    Extends table fs larger := by
  induction fs generalizing table with
  | nil =>
    obtain rfl := (Prod.mk.inj h).2
    exact .nil table
  | cons f fs ih =>
    obtain ⟨table₁, hregister, hrest⟩ := forM_register_cons_eq_ok h
    exact (extends_of_register hregister).cons (ih hrest)

/-- They can be registered exactly if their names differ and are free. -/
theorem exists_forM_register_iff : (∃ larger, fs.forM register table = (.ok (), larger)) ↔
    (fs.map (·.name)).Nodup ∧ ∀ f ∈ fs, table.get? f.name = none := by
  induction fs generalizing table with
  | nil => exact iff_of_true ⟨table, rfl⟩ ⟨List.nodup_nil, fun _ hf => nomatch hf⟩
  | cons f fs ih =>
    by_cases hfree : table.get? f.name = none
    · have hregister := register_of_free hfree
      rw [forM_register_cons_of_ok hregister]
      -- After the first function, the free names are those that were free, without its own.
      have hnone (g : FunctionDecl) : (table.insert f).get? g.name = none ↔
          g.name ≠ f.name ∧ table.get? g.name = none := by
        simpa using (extends_of_register hregister).get?_eq_none_iff
      refine Iff.trans ih ?_
      simp only [hnone, List.map_cons, List.nodup_cons, List.mem_map, List.forall_mem_cons, hfree,
        true_and, forall_and, ne_eq]
      grind
    · rw [forM_register_cons_of_error (register_of_taken hfree)]
      refine iff_of_false ?_ fun h => hfree (h.2 f List.mem_cons_self)
      rintro ⟨larger, hlarger⟩
      cases hlarger

/-- The first function whose name is taken when its turn comes is the one that is refused. -/
theorem forM_register_eq_error (h : fs.forM register table = (.error kind, larger)) :
    ∃ before f after, fs = before ++ f :: after ∧ before.forM register table = (.ok (), larger) ∧
      larger.get? f.name ≠ none ∧ kind = .duplicateFunction f.name := by
  induction fs generalizing table with
  | nil => cases h
  | cons f fs ih =>
    by_cases hfree : table.get? f.name = none
    · have hregister := register_of_free hfree
      rw [forM_register_cons_of_ok hregister] at h
      obtain ⟨before, g, after, rfl, hbefore, htaken, hkind⟩ := ih h
      refine ⟨f :: before, g, after, rfl, ?_, htaken, hkind⟩
      rw [forM_register_cons_of_ok hregister]
      exact hbefore
    · rw [forM_register_cons_of_error (register_of_taken hfree)] at h
      obtain ⟨hkind, rfl⟩ := Prod.mk.inj h
      exact ⟨[], f, fs, rfl, rfl, hfree, (Except.error.inj hkind).symm⟩

/-! ### Programs -/

theorem get?_empty (name : String) : empty.get? name = none :=
  Std.ExtTreeMap.getElem?_empty

theorem ofProgram_eq_ok_iff :
    ofProgram p = .ok larger ↔ p.functions.forM register empty = (.ok (), larger) := by
  unfold ofProgram
  match p.functions.forM register empty with
  | (.ok (), table) => exact ⟨fun h => by rw [Except.ok.inj h], fun h => by rw [(Prod.mk.inj h).2]⟩
  | (.error kind, left) => exact iff_of_false nofun nofun

theorem exists_of_ofProgram_eq_error (h : ofProgram p = .error kind) :
    ∃ left, p.functions.forM register empty = (.error kind, left) := by
  unfold ofProgram at h
  match hall : p.functions.forM register empty with
  | (.ok (), table) =>
    rw [hall] at h
    cases h
  | (.error kind', left) =>
    rw [hall] at h
    exact ⟨left, by rw [Except.error.inj h]⟩

/-- The functions of a program make a table exactly if their names differ. -/
theorem exists_ofProgram_iff :
    (∃ functions, ofProgram p = .ok functions) ↔ p.functionNames.Nodup := by
  have hempty : ∀ f ∈ p.functions, empty.get? f.name = none := fun f _ => get?_empty f.name
  simp only [ofProgram_eq_ok_iff]
  exact exists_forM_register_iff.trans (and_iff_left hempty)

theorem extends_of_ofProgram {functions : FunctionTable} (h : ofProgram p = .ok functions) :
    Extends empty p.functions functions :=
  extends_of_forM_register (ofProgram_eq_ok_iff.1 h)

/-- The table of a program has its functions by their names, and nothing else. -/
theorem get?_ofProgram_eq_some_iff {functions : FunctionTable} (h : ofProgram p = .ok functions) :
    functions.get? name = some f ↔ f ∈ p.functions ∧ f.name = name := by
  rw [extends_of_ofProgram h name f, get?_empty]
  simp

/-- A program in which a name is repeated has no table, since the first function that repeats one is
refused. -/
theorem ofProgram_of_not_nodup (h : ¬ p.functionNames.Nodup) :
    ∃ name, p.FirstRepeated name ∧ ofProgram p = .error (.duplicateFunction name) := by
  cases hfunctions : ofProgram p with
  | ok functions => exact absurd (exists_ofProgram_iff.1 ⟨functions, hfunctions⟩) h
  | error kind =>
    obtain ⟨filled, hall⟩ := exists_of_ofProgram_eq_error hfunctions
    obtain ⟨before, f, after, hsplit, hbefore, htaken, rfl⟩ := forM_register_eq_error hall
    refine ⟨f.name, ⟨before.map (·.name), after.map (·.name), ?_, ?_, ?_⟩, rfl⟩
    · rw [Program.functionNames, hsplit, List.map_append, List.map_cons]
    · exact (exists_forM_register_iff.1 ⟨filled, hbefore⟩).1
    · by_contra hnew
      exact htaken
        ((extends_of_forM_register hbefore).get?_eq_none_iff.2 ⟨hnew, get?_empty f.name⟩)

/-- The order of the functions does not matter for the table that they make. -/
theorem ofProgram_eq_of_perm (hperm : p.functions.Perm q.functions) (h : p.functionNames.Nodup) :
    ∃ functions, ofProgram p = .ok functions ∧ ofProgram q = .ok functions := by
  obtain ⟨functions, hp⟩ := exists_ofProgram_iff.2 h
  obtain ⟨functions', hq⟩ := exists_ofProgram_iff.2 ((hperm.map _).nodup_iff.1 h)
  have hsame : functions = functions' :=
    ((extends_of_ofProgram hp).perm hperm).unique (extends_of_ofProgram hq)
  exact ⟨functions, hp, hsame ▸ hq⟩

theorem ofProgram_eq_error_iff :
    ofProgram p = .error kind ↔ ∃ name, p.FirstRepeated name ∧ kind = .duplicateFunction name := by
  constructor
  · intro h
    have hrepeats : ¬ p.functionNames.Nodup := by
      rw [← exists_ofProgram_iff, h]
      simp
    obtain ⟨name, hname, herror⟩ := ofProgram_of_not_nodup hrepeats
    exact ⟨name, hname, Except.error.inj (h.symm.trans herror)⟩
  · rintro ⟨name, hname, rfl⟩
    obtain ⟨name', hname', herror⟩ := ofProgram_of_not_nodup hname.not_nodup
    rw [herror, hname.unique hname']

/-! ### Offers -/

/-- The table after functions were registered one after the other, where those that are refused are
passed over. -/
def ofOffers (fs : List FunctionDecl) : FunctionTable :=
  fs.foldl (fun table f => (register f table).2) empty

/-- A table that has refused a function has the size and the functions that it had. -/
theorem unchanged_of_register_eq_error (h : (register f table).1 = .error kind) :
    (register f table).2.size = table.size ∧
      ∀ name, (register f table).2.get? name = table.get? name := by
  obtain ⟨htaken, -⟩ := register_eq_error_iff.1 h
  rw [register_of_taken htaken]
  exact ⟨rfl, fun _ => rfl⟩

/-- What a table has it keeps, and a function is taken for a name that is free. -/
theorem get?_register (table : FunctionTable) (f : FunctionDecl) (name : String) :
    (register f table).2.get? name =
      (table.get? name).or (if f.name = name then some f else none) := by
  by_cases hname : f.name = name
  · subst hname
    rw [if_pos rfl]
    by_cases hfree : table.get? f.name = none
    · rw [register_of_free hfree, get?_insert, if_pos rfl, hfree, Option.none_or]
    · rw [register_of_taken hfree, Option.or_of_isSome (Option.isSome_iff_ne_none.2 hfree)]
  · rw [if_neg hname, Option.or_none]
    by_cases hfree : table.get? f.name = none
    · rw [register_of_free hfree, get?_insert, if_neg hname]
    · rw [register_of_taken hfree]

theorem get?_foldl_register (fs : List FunctionDecl) (table : FunctionTable) (name : String) :
    (fs.foldl (fun table f => (register f table).2) table).get? name =
      (table.get? name).or (fs.find? (·.name == name)) := by
  induction fs generalizing table with
  | nil => rw [List.foldl_nil, List.find?_nil, Option.or_none]
  | cons f fs ih =>
    rw [List.foldl_cons, ih, get?_register, Option.or_assoc, List.find?_cons]
    by_cases hname : f.name = name
    · simp [hname]
    · have hdiffers : (f.name == name) = false := by simpa using hname
      simp [hname, hdiffers]

/-- Of the functions that are offered with a name, the first is the one that the table has. -/
theorem get?_ofOffers (fs : List FunctionDecl) (name : String) :
    (ofOffers fs).get? name = fs.find? (·.name == name) := by
  unfold ofOffers
  rw [get?_foldl_register, get?_empty, Option.none_or]

theorem ofOffers_concat (fs : List FunctionDecl) (f : FunctionDecl) :
    ofOffers (fs ++ [f]) = (register f (ofOffers fs)).2 := by
  unfold ofOffers
  rw [List.foldl_append, List.foldl_cons, List.foldl_nil]

/-- A function is refused exactly if one was offered before with its name. -/
theorem register_ofOffers_eq_error_iff : (register f (ofOffers fs)).1 = .error kind ↔
    (∃ g ∈ fs, g.name = f.name) ∧ kind = .duplicateFunction f.name := by
  rw [register_eq_error_iff, get?_ofOffers, ← Option.isSome_iff_ne_none, List.find?_isSome]
  simp

/-- A table has the functions that came with their names first. From a program it is made exactly if
the names of the functions differ. It then has as many functions as the program, each by its name,
and none by another name. Otherwise the error names the first function that repeats the name of one
before it. A table that refuses a function is left with the size and the functions that it had. A
table in which functions are registered one after the other, whether or not it takes each of them,
has for each name the first function that was offered with it. It refuses a function exactly if one
was offered before with its name, and is left as it was; else it has one function more. -/
theorem table_exact :
    (∀ p : Program,
      ((∃ functions, ofProgram p = .ok functions) ↔ (p.functions.map (·.name)).Nodup) ∧
      (∀ functions, ofProgram p = .ok functions →
        functions.size = p.functions.length ∧
        (∀ f ∈ p.functions, functions.get? f.name = some f) ∧
        ∀ name, (∀ f ∈ p.functions, f.name ≠ name) → functions.get? name = none) ∧
      ∀ kind, ofProgram p = .error kind ↔
        ∃ name, p.FirstRepeated name ∧ kind = .duplicateFunction name) ∧
    (∀ (table left : FunctionTable) (f : FunctionDecl) (kind : ErrorKind),
      register f table = (.error kind, left) →
        left.size = table.size ∧ ∀ name, left.get? name = table.get? name) ∧
    ∀ (offered : List FunctionDecl) (f : FunctionDecl),
      (∀ name, (ofOffers offered).get? name = offered.find? (·.name == name)) ∧
      ofOffers (offered ++ [f]) = (register f (ofOffers offered)).2 ∧
      (∀ kind, (register f (ofOffers offered)).1 = .error kind ↔
        (∃ g ∈ offered, g.name = f.name) ∧ kind = .duplicateFunction f.name) ∧
      (∀ kind, (register f (ofOffers offered)).1 = .error kind →
        (ofOffers (offered ++ [f])).size = (ofOffers offered).size ∧
        ∀ name, (ofOffers (offered ++ [f])).get? name = (ofOffers offered).get? name) ∧
      ((register f (ofOffers offered)).1 = .ok () →
        (ofOffers (offered ++ [f])).size = (ofOffers offered).size + 1) := by
  refine ⟨fun p => ?_, fun table left f kind h => ?_, fun offered f => ?_⟩
  · refine ⟨exists_ofProgram_iff, fun functions h => ⟨?_, fun f hf => ?_, fun name hname => ?_⟩,
      fun kind => ofProgram_eq_error_iff⟩
    · rw [size_of_forM_register (ofProgram_eq_ok_iff.1 h)]
      exact Nat.zero_add _
    · exact (get?_ofProgram_eq_some_iff h).2 ⟨hf, rfl⟩
    · rw [Option.eq_none_iff_forall_ne_some]
      intro f hf
      obtain ⟨hmem, rfl⟩ := (get?_ofProgram_eq_some_iff h).1 hf
      exact hname f hmem rfl
  · have hunchanged := unchanged_of_register_eq_error (congrArg Prod.fst h)
    rw [h] at hunchanged
    exact hunchanged
  · refine ⟨get?_ofOffers offered, ofOffers_concat offered f,
      fun kind => register_ofOffers_eq_error_iff, fun kind h => ?_, fun h => ?_⟩
    · rw [ofOffers_concat]
      exact unchanged_of_register_eq_error h
    · rw [ofOffers_concat]
      exact size_of_register (Prod.ext h rfl)

/-- A program with two functions and a global between them. When a third function comes with the
name of the first, the program is refused, and a table to which the three are offered has the first
of them. -/
theorem table_exact_repeated :
    ∃ (f g h : FunctionDecl) (functions : FunctionTable), f ≠ h ∧
      ofProgram ⟨[.function f, .global ⟨"x", .integer 1⟩, .function g]⟩ = .ok functions ∧
      functions.size = 2 ∧ functions.get? "f" = some f ∧ functions.get? "x" = none ∧
      ofProgram ⟨[.function f, .global ⟨"x", .integer 1⟩, .function g, .function h]⟩ =
        .error (.duplicateFunction "f") ∧
      (ofOffers [f, g, h]).get? "f" = some f ∧
      (ofOffers [f, g, h]).size = (ofOffers [f, g]).size := by
  let f : FunctionDecl := ⟨"f", [], .block []⟩
  let g : FunctionDecl := ⟨"g", [], .block []⟩
  let h : FunctionDecl := ⟨"f", ["x"], .block []⟩
  obtain ⟨hprograms, -, hoffers⟩ := table_exact
  obtain ⟨hexists, htable, -⟩ := hprograms ⟨[.function f, .global ⟨"x", .integer 1⟩, .function g]⟩
  obtain ⟨functions, hfunctions⟩ := hexists.2 (by decide)
  obtain ⟨hsize, hget, hnone⟩ := htable functions hfunctions
  obtain ⟨-, -, herror⟩ :=
    hprograms ⟨[.function f, .global ⟨"x", .integer 1⟩, .function g, .function h]⟩
  have hrepeated := (herror (.duplicateFunction "f")).2
    ⟨"f", ⟨["f", "g"], [], rfl, by decide, by decide⟩, rfl⟩
  obtain ⟨-, -, hrefused, hsame, -⟩ := hoffers [f, g] h
  obtain ⟨hsizes, -⟩ := hsame _ ((hrefused _).2 ⟨⟨f, List.mem_cons_self, rfl⟩, rfl⟩)
  have hdiffer : f ≠ h := by
    intro heq
    exact absurd (congrArg FunctionDecl.parameters heq) (by decide)
  refine ⟨f, g, h, functions, hdiffer, hfunctions, hsize, hget f List.mem_cons_self, hnone "x" ?_,
    hrepeated, (hoffers [f, g, h] f).1 "f", hsizes⟩
  intro d hd
  rcases List.mem_cons.1 hd with rfl | hd
  · decide
  · rw [List.mem_singleton.1 hd]
    decide

end FunctionTable

end Scriptlet
