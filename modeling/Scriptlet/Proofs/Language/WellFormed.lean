import Scriptlet.Proofs.Language.Completeness

/-!
# The trees that have a text

The type of trees has more members than the grammar: it holds statements in the place of operands,
reserved words in the place of names, and conditionals whose `else` a text would give to another
conditional inside. `Program.WellFormed` singles out the trees without any of these. Main statement:
every derivation, and so the parser, yields such a tree (`wellFormed_of_isProgram`).

The last condition is about what stands at the end of a statement. A statement ends open when it
ends in a conditional without an alternative (`Expr.endsOpen`), and such a statement is derived only
where no `else` follows (`isStatement_of_statement`), hence never in front of one.
-/

namespace Scriptlet

/-- Whether a statement ends in a conditional without an alternative, which would take an `else`
that follows the statement. -/
def Expr.endsOpen : Expr → Bool
  | .ifThen _ _ => true
  | .ifElse _ _ alternative => alternative.endsOpen
  | .loop _ body => body.endsOpen
  | _ => false

namespace Language

/-- The trees of expressions. -/
inductive IsExpression : Expr → Prop
  | integer (n : Integer) : IsExpression (.integer n)
  | boolean (b : Bool) : IsExpression (.boolean b)
  | name {name : String} : IsName name → IsExpression (.variable name)
  | array {items : List Expr} : (∀ e ∈ items, IsExpression e) → IsExpression (.array items)
  | binary {op : Operator} {left right : Expr} :
    IsExpression left → IsExpression right → IsExpression (.binary op left right)
  | call {name : String} {arguments : List Expr} :
    IsName name → (∀ e ∈ arguments, IsExpression e) → IsExpression (.call name arguments)
  | labelledCall {name : String} {arguments : List (String × Expr)} :
    IsName name → (∀ argument ∈ arguments, IsName argument.1) →
    (∀ argument ∈ arguments, IsExpression argument.2) → IsExpression (.labelledCall name arguments)

/-- The trees of statements. -/
inductive IsStatement : Expr → Prop
  | loop {condition body : Expr} :
    IsExpression condition → IsStatement body → IsStatement (.loop condition body)
  | ifThen {condition consequence : Expr} :
    IsExpression condition → IsStatement consequence → IsStatement (.ifThen condition consequence)
  | ifElse {condition consequence alternative : Expr} :
    IsExpression condition → IsStatement consequence → consequence.endsOpen = false →
    IsStatement alternative → IsStatement (.ifElse condition consequence alternative)
  | assign {name : String} {value : Expr} :
    IsName name → IsExpression value → IsStatement (.assign name value)
  | block {statements : List Expr} :
    (∀ e ∈ statements, IsStatement e) → IsStatement (.block statements)
  | expression {e : Expr} : IsExpression e → IsStatement e

/-- The trees of definitions. -/
inductive IsDefinition : Scriptlet.Definition → Prop
  | global {name : String} {initializer : Expr} :
    IsName name → IsExpression initializer → IsDefinition (.global ⟨name, initializer⟩)
  | function {name : String} {parameters : List String} {statements : List Expr} :
    IsName name → (∀ parameter ∈ parameters, IsName parameter) →
    (∀ e ∈ statements, IsStatement e) →
    IsDefinition (.function ⟨name, parameters, .block statements⟩)

end Language

open Scriptlet.Language

/-- All definitions of the program are trees of definitions. -/
def Program.WellFormed (p : Program) : Prop :=
  ∀ d ∈ p.definitions, IsDefinition d

/-! ### Members of derived lists -/

section Members

variable {σ α : Type} {step : Step σ α} {s t : σ} {as : List α} {P : α → Prop}

theorem Repeated.forall_mem (h : Repeated step s as t) (hstep : ∀ s a t, step s a t → P a) :
    ∀ a ∈ as, P a := by
  induction h with
  | nil => exact List.forall_mem_nil _
  | cons hs _ ih => exact List.forall_mem_cons.2 ⟨hstep _ _ _ hs, ih⟩

theorem Separated.forall_mem {separator : σ → σ → Prop} (h : Separated separator step s as t)
    (hstep : ∀ s a t, step s a t → P a) : ∀ a ∈ as, P a := by
  cases h with
  | nil => exact List.forall_mem_nil _
  | cons hs hmore =>
    refine List.forall_mem_cons.2 ⟨hstep _ _ _ hs, hmore.forall_mem ?_⟩
    rintro s a t ⟨-, hnext⟩
    exact hstep _ _ _ hnext

end Members

namespace Language

variable {s t : List Char} {e : Expr} {rank : Nat}

theorem Identifier.isName {name : String} (h : Identifier s name t) : IsName name := by
  obtain ⟨-, -, hname, -⟩ := h
  exact hname

/-! ### Expressions -/

theorem isExpression_of_chain {operand : Nat → Reading Expr} {left : Expr}
    (h : Chain operand left rank s e t)
    (hoperand : ∀ rank s e t, operand rank s e t → IsExpression e) (hleft : IsExpression left) :
    IsExpression e := by
  induction h with
  | done => exact hleft
  | more _ _ hright _ ih => exact ih (.binary hleft (hoperand _ _ _ _ hright))

theorem isExpression_of_phrase (h : Phrase rank s e t) : IsExpression e := by
  refine Phrase.induction (P := fun _ _ e _ => IsExpression e)
    (fun _ hinner _ => hinner.2) (fun _ => .integer _)
    (fun hname _ harguments _ => .call hname.isName (harguments.forall_mem fun _ _ _ h => h.2))
    (fun hname _ harguments _ => ?labelledCall)
    (fun _ hitems _ => .array (hitems.forall_mem fun _ _ _ h => h.2))
    (fun _ => .boolean true) (fun _ => .boolean false) (fun hname => .name hname.isName)
    (fun hfirst hchain => isExpression_of_chain hchain (fun _ _ _ _ h => h.2) hfirst.2) h
  case labelledCall =>
    refine .labelledCall hname.isName ?_ ?_
    · refine harguments.forall_mem ?_
      rintro s argument t ⟨hlabel, -, -⟩
      exact hlabel.isName
    · refine harguments.forall_mem ?_
      rintro s argument t ⟨-, -, hvalue⟩
      exact hvalue.2

theorem IsExpression.endsOpen_eq_false (h : IsExpression e) : e.endsOpen = false := by
  cases h <;> rfl

/-! ### Statements -/

/-- A derived statement is a tree of statements, and no `else` follows it if it ends open. -/
theorem isStatement_of_statement (h : Statement s e t) :
    IsStatement e ∧ (e.endsOpen = true → ∀ u, ¬ Keyword "else" t u) := by
  refine Statement.induction
    (P := fun _ e t => IsStatement e ∧ (e.endsOpen = true → ∀ u, ¬ Keyword "else" t u))
    (fun _ _ hcondition _ hbody => ?loop)
    (fun _ _ hcondition _ hconsequence helse => ?ifThen)
    (fun _ _ hcondition _ hconsequence helse halternative => ?ifElse)
    (fun hname _ hvalue _ => ?assign) (fun _ hstatements _ => ?block)
    (fun hexpression _ => ?expression) h
  case loop => exact ⟨.loop (isExpression_of_phrase hcondition) hbody.1, hbody.2⟩
  case ifThen =>
    exact ⟨.ifThen (isExpression_of_phrase hcondition) hconsequence.1, fun _ => helse⟩
  case ifElse =>
    -- The `else` that is there shows that what stands before it does not end open.
    have hclosed : Expr.endsOpen _ = false :=
      Bool.eq_false_iff.2 fun hopen => hconsequence.2 hopen _ helse
    exact ⟨.ifElse (isExpression_of_phrase hcondition) hconsequence.1 hclosed halternative.1,
      halternative.2⟩
  case assign => exact ⟨.assign hname.isName (isExpression_of_phrase hvalue), nofun⟩
  case block => exact ⟨.block (hstatements.forall_mem fun _ _ _ h => h.1), nofun⟩
  case expression =>
    have htree := isExpression_of_phrase hexpression
    refine ⟨.expression htree, fun hopen => ?_⟩
    rw [htree.endsOpen_eq_false] at hopen
    cases hopen

/-! ### Programs -/

theorem isDefinition_of_definition {d : Scriptlet.Definition} (h : Definition s d t) :
    IsDefinition d := by
  cases h with
  | global _ hname _ hinitializer _ =>
    exact .global hname.isName (isExpression_of_phrase hinitializer)
  | function _ hname _ hparameters _ _ hstatements _ =>
    exact .function hname.isName (hparameters.forall_mem fun _ _ _ h => h.isName)
      (hstatements.forall_mem fun _ _ _ h => (isStatement_of_statement h).1)

theorem wellFormed_of_isProgram {p : Program} (h : IsProgram s p) : p.WellFormed := by
  obtain ⟨t, -, hdefinitions⟩ := h
  exact hdefinitions.forall_mem fun _ _ _ h => isDefinition_of_definition h

end Language

end Scriptlet
