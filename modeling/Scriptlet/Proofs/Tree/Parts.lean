import Mathlib.Logic.Relation
import Scriptlet.Tree.Program

/-!
# The parts of an expression

An expression has the expressions that stand directly in it (`children`), those in them, and so on
down to names and literals (`HasPart`). It mentions the names of variables that are read or assigned
in any of its parts. The names of functions and the labels of arguments are not names of variables,
so a call mentions what its arguments mention and nothing else.

An expression assigns the names on the left of the assignments among its parts, and calls the
functions that are named in the calls among them.

An expression is free of loops if none of its parts is one. Its height is one more than that of the
highest expression directly in it, so that going down to a part takes fewer steps than the height.
-/

namespace Scriptlet

namespace Expr

/-- The expressions that stand directly in an expression. -/
def children : Expr → List Expr
  | .integer _ | .boolean _ | .variable _ => []
  | .array items => items
  | .binary _ left right => [left, right]
  | .call _ arguments => arguments
  | .labelledCall _ arguments => arguments.map Prod.snd
  | .assign _ value => [value]
  | .block statements => statements
  | .ifThen condition consequence => [condition, consequence]
  | .ifElse condition consequence alternative => [condition, consequence, alternative]
  | .loop condition body => [condition, body]

/-- The second expression stands somewhere in the first, or is the first itself. -/
def HasPart : Expr → Expr → Prop :=
  Relation.ReflTransGen fun e d => d ∈ e.children

/-- The variable that an expression itself reads or assigns. -/
def ownName? : Expr → Option String
  | .variable name => some name
  | .assign name _ => some name
  | _ => none

/-- The variable is read or assigned somewhere in the expression. -/
def Mentions (e : Expr) (name : String) : Prop :=
  ∃ d, e.HasPart d ∧ d.ownName? = some name

variable {d e : Expr} {name : String}

theorem mentions_of_ownName? (h : e.ownName? = some name) : e.Mentions name :=
  ⟨e, .refl, h⟩

/-- What a part mentions the whole mentions. -/
theorem Mentions.of_child (hd : d ∈ e.children) (h : d.Mentions name) : e.Mentions name := by
  obtain ⟨part, hpart, hname⟩ := h
  exact ⟨part, hpart.head hd, hname⟩

/-- An expression mentions its own variable and what is mentioned in the expressions directly in
it. -/
theorem mentions_iff :
    e.Mentions name ↔ e.ownName? = some name ∨ ∃ d ∈ e.children, d.Mentions name := by
  constructor
  · rintro ⟨part, hpart, hname⟩
    rcases Relation.ReflTransGen.cases_head hpart with rfl | ⟨d, hd, hrest⟩
    · exact .inl hname
    · exact .inr ⟨d, hd, part, hrest, hname⟩
  · rintro (hname | ⟨d, hd, h⟩)
    · exact mentions_of_ownName? hname
    · exact h.of_child hd

@[simp] theorem mentions_variable_iff {x : String} :
    (Expr.variable x).Mentions name ↔ x = name := by
  rw [mentions_iff]
  simp [ownName?, children]

@[simp] theorem mentions_assign_iff {x : String} :
    (Expr.assign x e).Mentions name ↔ x = name ∨ e.Mentions name := by
  rw [mentions_iff]
  simp [ownName?, children]

@[simp] theorem mentions_call_iff {f : String} {arguments : List Expr} :
    (Expr.call f arguments).Mentions name ↔ ∃ argument ∈ arguments, argument.Mentions name := by
  rw [mentions_iff]
  simp [ownName?, children]

@[simp] theorem mentions_block_iff {statements : List Expr} :
    (Expr.block statements).Mentions name ↔ ∃ statement ∈ statements, statement.Mentions name := by
  rw [mentions_iff]
  simp [ownName?, children]

/-! ### Assignments and calls -/

/-- The variable is assigned somewhere in the expression. -/
def Assigns (e : Expr) (name : String) : Prop :=
  ∃ value, e.HasPart (.assign name value)

/-- The name of the function that an expression itself calls. -/
def callee? : Expr → Option String
  | .call function _ => some function
  | .labelledCall function _ => some function
  | _ => none

/-- The function is called somewhere in the expression. -/
def CallsFunction (e : Expr) (name : String) : Prop :=
  ∃ d, e.HasPart d ∧ d.callee? = some name

theorem Assigns.of_child (hd : d ∈ e.children) (h : d.Assigns name) : e.Assigns name := by
  obtain ⟨value, hpart⟩ := h
  exact ⟨value, hpart.head hd⟩

theorem Assigns.mentions (h : e.Assigns name) : e.Mentions name := by
  obtain ⟨value, hpart⟩ := h
  exact ⟨_, hpart, rfl⟩

theorem CallsFunction.of_child (hd : d ∈ e.children) (h : d.CallsFunction name) :
    e.CallsFunction name := by
  obtain ⟨part, hpart, hname⟩ := h
  exact ⟨part, hpart.head hd, hname⟩

/-! ### Loops -/

/-- No loop stands anywhere in the expression. -/
def LoopFree (e : Expr) : Prop :=
  ∀ condition body, ¬ e.HasPart (.loop condition body)

/-- An expression is free of loops if it is none itself and those directly in it are free of
them. -/
theorem loopFree_iff : e.LoopFree ↔
    (∀ condition body, e ≠ .loop condition body) ∧ ∀ d ∈ e.children, d.LoopFree := by
  constructor
  · intro h
    refine ⟨fun condition body heq => h condition body ?_, fun d hd condition body hpart => ?_⟩
    · rw [heq]
      exact .refl
    · exact h condition body (hpart.head hd)
  · rintro ⟨hself, hchildren⟩ condition body hpart
    rcases Relation.ReflTransGen.cases_head hpart with heq | ⟨d, hd, hrest⟩
    · exact hself condition body heq
    · exact hchildren d hd condition body hrest

/-! ### Heights -/

theorem sizeOf_lt_of_mem_children (h : d ∈ e.children) : sizeOf d < sizeOf e := by
  cases e with
  | integer n | boolean b | «variable» name => cases h
  | array items | block items | call name items =>
    have hitem : sizeOf d < sizeOf items := List.sizeOf_lt_of_mem h
    decreasing_with omega
  | labelledCall name arguments =>
    obtain ⟨⟨label, value⟩, hmem, rfl⟩ := List.mem_map.1 h
    have hargument : sizeOf (label, value) < sizeOf arguments := List.sizeOf_lt_of_mem hmem
    rw [Prod.mk.sizeOf_spec] at hargument
    decreasing_with omega
  | _ =>
    simp only [children, List.mem_cons, List.not_mem_nil, or_false] at h
    rcases h with rfl | rfl | rfl <;> decreasing_with omega

/-- One more than the height of the highest expression directly in the expression, if there is
any. -/
def height (e : Expr) : Nat :=
  (e.children.attach.map fun d => d.1.height).max?.getD 0 + 1
termination_by e
decreasing_by exact sizeOf_lt_of_mem_children d.2

theorem height_eq (e : Expr) : e.height = (e.children.map height).max?.getD 0 + 1 := by
  rw [height, List.attach_map_val]

theorem height_pos (e : Expr) : 0 < e.height := by
  rw [height_eq]
  exact Nat.succ_pos _

theorem height_lt_of_mem_children (h : d ∈ e.children) : d.height < e.height := by
  rw [height_eq e]
  exact Nat.lt_succ_of_le (List.le_max?_getD_of_mem (List.mem_map_of_mem h))

end Expr

/-! ### Programs -/

namespace Program

/-- The expressions of a program: the initializers of its globals and the bodies of its
functions. -/
def expressions (p : Program) : List Expr :=
  p.globals.map GlobalDecl.initializer ++ p.functions.map FunctionDecl.body

/-- No loop stands anywhere in the program. -/
def LoopFree (p : Program) : Prop :=
  ∀ e ∈ p.expressions, e.LoopFree

/-- The height of the highest expression of a program. -/
def height (p : Program) : Nat :=
  (p.expressions.map Expr.height).max?.getD 0

theorem height_le_of_mem_expressions {p : Program} {e : Expr} (h : e ∈ p.expressions) :
    e.height ≤ p.height :=
  List.le_max?_getD_of_mem (List.mem_map_of_mem h)

end Program

end Scriptlet
