import Scriptlet.Proofs.Language.Lexeme
import Scriptlet.Tree.Program

/-!
# The grammar

The grammar of the language as readings: one constructor for each alternative of each rule, over the
characters of the text and without any parser. A program is

    program     ::= trivia definition*
    definition  ::= "global" name "=" expression ";" | "define" name "(" names ")" block
    block       ::= "{" statement* "}"
    statement   ::= "while" "(" expression ")" statement
                  | "if" "(" expression ")" statement ("else" statement)?
                  | name "=" expression ";" | block | expression ";"

Expressions are phrases of rank 3. A phrase of rank `k + 1` is a chain of phrases of rank `k` with
operators of rank `k + 1` between them, joined from the left, and the phrases of rank 0 are the
primary expressions. A conditional without an alternative is read only where no `else` follows, so
that an `else` belongs to the nearest conditional before it.

`Phrase.induction` and `Statement.induction` are induction on derivations, where the premises about
lists and chains carry what is to be proved of each of their members.
-/

namespace Scriptlet

/-- How loosely an operator binds: products 1, sums 2, comparisons 3. -/
def Operator.rank : Operator → Nat
  | multiply | divide => 1
  | add | subtract => 2
  | lessThan | lessOrEqual | greaterThan | greaterOrEqual | equal | notEqual => 3

namespace Language

/-- Operators of one rank, each with the operand after it, which continue a chain that stands for
`left` so far. -/
inductive Chain (operand : Nat → Reading Expr) : Expr → Nat → Reading Expr
  | done {rank : Nat} {left : Expr} {s : List Char} : Chain operand left rank s left s
  | more {rank : Nat} {op : Operator} {left right e : Expr} {s s₁ s₂ t : List Char} :
    op.rank = rank + 1 → Symbol op.symbol s s₁ → operand rank s₁ right s₂ →
    Chain operand (.binary op left right) rank s₂ e t → Chain operand left rank s e t

/-- `label = argument`. -/
inductive LabelledArgument (argument : Reading Expr) : Reading (String × Expr)
  | mk {label : String} {e : Expr} {s s₁ s₂ t : List Char} :
    Identifier s label s₁ → Symbol "=" s₁ s₂ → argument s₂ e t →
    LabelledArgument argument s (label, e) t

/-- Expressions by rank. -/
inductive Phrase : Nat → Reading Expr
  | group {e : Expr} {s s₁ s₂ t : List Char} :
    Symbol "(" s s₁ → Phrase 3 s₁ e s₂ → Symbol ")" s₂ t → Phrase 0 s e t
  | integer {n : Integer} {s t : List Char} : Literal s n t → Phrase 0 s (.integer n) t
  | call {name : String} {arguments : List Expr} {s s₁ s₂ s₃ t : List Char} :
    Identifier s name s₁ → Symbol "(" s₁ s₂ → Separated (Symbol ",") (Phrase 3) s₂ arguments s₃ →
    Symbol ")" s₃ t → Phrase 0 s (.call name arguments) t
  | labelledCall {name : String} {arguments : List (String × Expr)} {s s₁ s₂ s₃ t : List Char} :
    Identifier s name s₁ → Symbol "[" s₁ s₂ →
    Separated (Symbol ",") (LabelledArgument (Phrase 3)) s₂ arguments s₃ → Symbol "]" s₃ t →
    Phrase 0 s (.labelledCall name arguments) t
  | array {items : List Expr} {s s₁ s₂ t : List Char} :
    Symbol "[" s s₁ → Separated (Symbol ",") (Phrase 3) s₁ items s₂ → Symbol "]" s₂ t →
    Phrase 0 s (.array items) t
  | boolTrue {s t : List Char} : Keyword "true" s t → Phrase 0 s (.boolean true) t
  | boolFalse {s t : List Char} : Keyword "false" s t → Phrase 0 s (.boolean false) t
  | name {name : String} {s t : List Char} : Identifier s name t → Phrase 0 s (.variable name) t
  | chain {rank : Nat} {first e : Expr} {s s₁ t : List Char} :
    Phrase rank s first s₁ → Chain Phrase first rank s₁ e t → Phrase (rank + 1) s e t

/-- Expressions. -/
abbrev Expression : Reading Expr :=
  Phrase 3

/-- Statements. -/
inductive Statement : Reading Expr
  | loop {condition body : Expr} {s s₁ s₂ s₃ s₄ t : List Char} :
    Keyword "while" s s₁ → Symbol "(" s₁ s₂ → Expression s₂ condition s₃ → Symbol ")" s₃ s₄ →
    Statement s₄ body t → Statement s (.loop condition body) t
  | ifThen {condition consequence : Expr} {s s₁ s₂ s₃ s₄ t : List Char} :
    Keyword "if" s s₁ → Symbol "(" s₁ s₂ → Expression s₂ condition s₃ → Symbol ")" s₃ s₄ →
    Statement s₄ consequence t → (∀ u, ¬ Keyword "else" t u) →
    Statement s (.ifThen condition consequence) t
  | ifElse {condition consequence alternative : Expr} {s s₁ s₂ s₃ s₄ s₅ s₆ t : List Char} :
    Keyword "if" s s₁ → Symbol "(" s₁ s₂ → Expression s₂ condition s₃ → Symbol ")" s₃ s₄ →
    Statement s₄ consequence s₅ → Keyword "else" s₅ s₆ → Statement s₆ alternative t →
    Statement s (.ifElse condition consequence alternative) t
  | assign {name : String} {value : Expr} {s s₁ s₂ s₃ t : List Char} :
    Identifier s name s₁ → Symbol "=" s₁ s₂ → Expression s₂ value s₃ → Symbol ";" s₃ t →
    Statement s (.assign name value) t
  | block {statements : List Expr} {s s₁ s₂ t : List Char} :
    Symbol "\x7b" s s₁ → Repeated Statement s₁ statements s₂ → Symbol "\x7d" s₂ t →
    Statement s (.block statements) t
  | expression {e : Expr} {s s₁ t : List Char} :
    Expression s e s₁ → Symbol ";" s₁ t → Statement s e t

/-- The definitions of functions and globals. The body of a function is a block. -/
inductive Definition : Reading Scriptlet.Definition
  | global {name : String} {initializer : Expr} {s s₁ s₂ s₃ s₄ t : List Char} :
    Keyword "global" s s₁ → Identifier s₁ name s₂ → Symbol "=" s₂ s₃ →
    Expression s₃ initializer s₄ → Symbol ";" s₄ t → Definition s (.global ⟨name, initializer⟩) t
  | function {name : String} {parameters : List String} {statements : List Expr}
    {s s₁ s₂ s₃ s₄ s₅ s₆ s₇ t : List Char} :
    Keyword "define" s s₁ → Identifier s₁ name s₂ → Symbol "(" s₂ s₃ →
    Separated (Symbol ",") Identifier s₃ parameters s₄ → Symbol ")" s₄ s₅ → Symbol "\x7b" s₅ s₆ →
    Repeated Statement s₆ statements s₇ → Symbol "\x7d" s₇ t →
    Definition s (.function ⟨name, parameters, .block statements⟩) t

/-- The whole text is a program: trivia and then definitions up to the end. -/
def IsProgram (s : List Char) (p : Program) : Prop :=
  ∃ t, Trivia s t ∧ Repeated Definition t p.definitions []

/-! ### Induction on derivations -/

section Induction

variable {P : Nat → Reading Expr}

/-- A phrase of which `P` holds. -/
abbrev With (P : Nat → Reading Expr) : Nat → Reading Expr :=
  fun rank s e t => Phrase rank s e t ∧ P rank s e t

/-- Induction on phrases. -/
theorem Phrase.induction
    (group : ∀ {e s s₁ s₂ t}, Symbol "(" s s₁ → With P 3 s₁ e s₂ → Symbol ")" s₂ t → P 0 s e t)
    (integer : ∀ {n s t}, Literal s n t → P 0 s (.integer n) t)
    (call : ∀ {name arguments s s₁ s₂ s₃ t}, Identifier s name s₁ → Symbol "(" s₁ s₂ →
      Separated (Symbol ",") (With P 3) s₂ arguments s₃ → Symbol ")" s₃ t →
      P 0 s (.call name arguments) t)
    (labelledCall : ∀ {name arguments s s₁ s₂ s₃ t}, Identifier s name s₁ → Symbol "[" s₁ s₂ →
      Separated (Symbol ",") (LabelledArgument (With P 3)) s₂ arguments s₃ → Symbol "]" s₃ t →
      P 0 s (.labelledCall name arguments) t)
    (array : ∀ {items s s₁ s₂ t}, Symbol "[" s s₁ →
      Separated (Symbol ",") (With P 3) s₁ items s₂ → Symbol "]" s₂ t → P 0 s (.array items) t)
    (boolTrue : ∀ {s t}, Keyword "true" s t → P 0 s (.boolean true) t)
    (boolFalse : ∀ {s t}, Keyword "false" s t → P 0 s (.boolean false) t)
    (name : ∀ {name s t}, Identifier s name t → P 0 s (.variable name) t)
    (chain : ∀ {rank first e s s₁ t}, With P rank s first s₁ →
      Chain (With P) first rank s₁ e t → P (rank + 1) s e t)
    {rank : Nat} {s t : List Char} {e : Expr} (h : Phrase rank s e t) : P rank s e t :=
  go h
where
  go {rank : Nat} {s t : List Char} {e : Expr} : Phrase rank s e t → P rank s e t
    | .group ho h hc => group ho ⟨h, go h⟩ hc
    | .integer h => integer h
    | .call hn ho h hc => call hn ho (items h) hc
    | .labelledCall hn ho h hc => labelledCall hn ho (labelled h) hc
    | .array ho h hc => array ho (items h) hc
    | .boolTrue h => boolTrue h
    | .boolFalse h => boolFalse h
    | .name h => name h
    | .chain h hs => chain ⟨h, go h⟩ (steps hs)
  items {s t : List Char} {es : List Expr} : Separated (Symbol ",") (Phrase 3) s es t →
      Separated (Symbol ",") (With P 3) s es t
    | .nil => .nil
    | .cons h hs => .cons ⟨h, go h⟩ (moreItems hs)
  moreItems {s t : List Char} {es : List Expr} : Repeated (After (Symbol ",") (Phrase 3)) s es t →
      Repeated (After (Symbol ",") (With P 3)) s es t
    | .nil => .nil
    | .cons (.mk hc h) hs => .cons (.mk hc ⟨h, go h⟩) (moreItems hs)
  labelled {s t : List Char} {es : List (String × Expr)} :
      Separated (Symbol ",") (LabelledArgument (Phrase 3)) s es t →
      Separated (Symbol ",") (LabelledArgument (With P 3)) s es t
    | .nil => .nil
    | .cons (.mk hl he h) hs => .cons (.mk hl he ⟨h, go h⟩) (moreLabelled hs)
  moreLabelled {s t : List Char} {es : List (String × Expr)} :
      Repeated (After (Symbol ",") (LabelledArgument (Phrase 3))) s es t →
      Repeated (After (Symbol ",") (LabelledArgument (With P 3))) s es t
    | .nil => .nil
    | .cons (.mk hc (.mk hl he h)) hs => .cons (.mk hc (.mk hl he ⟨h, go h⟩)) (moreLabelled hs)
  steps {rank : Nat} {left e : Expr} {s t : List Char} : Chain Phrase left rank s e t →
      Chain (With P) left rank s e t
    | .done => .done
    | .more hr ho h hs => .more hr ho ⟨h, go h⟩ (steps hs)

end Induction

/-- Induction on statements, where the statements of a block carry what is to be proved of each. -/
theorem Statement.induction {P : Reading Expr}
    (loop : ∀ {condition body s s₁ s₂ s₃ s₄ t}, Keyword "while" s s₁ → Symbol "(" s₁ s₂ →
      Expression s₂ condition s₃ → Symbol ")" s₃ s₄ → P s₄ body t → P s (.loop condition body) t)
    (ifThen : ∀ {condition consequence s s₁ s₂ s₃ s₄ t}, Keyword "if" s s₁ → Symbol "(" s₁ s₂ →
      Expression s₂ condition s₃ → Symbol ")" s₃ s₄ → P s₄ consequence t →
      (∀ u, ¬ Keyword "else" t u) → P s (.ifThen condition consequence) t)
    (ifElse : ∀ {condition consequence alternative s s₁ s₂ s₃ s₄ s₅ s₆ t}, Keyword "if" s s₁ →
      Symbol "(" s₁ s₂ → Expression s₂ condition s₃ → Symbol ")" s₃ s₄ → P s₄ consequence s₅ →
      Keyword "else" s₅ s₆ → P s₆ alternative t → P s (.ifElse condition consequence alternative) t)
    (assign : ∀ {name value s s₁ s₂ s₃ t}, Identifier s name s₁ → Symbol "=" s₁ s₂ →
      Expression s₂ value s₃ → Symbol ";" s₃ t → P s (.assign name value) t)
    (block : ∀ {statements s s₁ s₂ t}, Symbol "\x7b" s s₁ → Repeated P s₁ statements s₂ →
      Symbol "\x7d" s₂ t → P s (.block statements) t)
    (expression : ∀ {e s s₁ t}, Expression s e s₁ → Symbol ";" s₁ t → P s e t)
    {s t : List Char} {e : Expr} (h : Statement s e t) : P s e t :=
  go h
where
  go {s t : List Char} {e : Expr} : Statement s e t → P s e t
    | .loop hw ho hc hz h => loop hw ho hc hz (go h)
    | .ifThen hw ho hc hz h he => ifThen hw ho hc hz (go h) he
    | .ifElse hw ho hc hz h he h' => ifElse hw ho hc hz (go h) he (go h')
    | .assign hn he hv hs => assign hn he hv hs
    | .block ho h hc => block ho (statements h) hc
    | .expression h hs => expression h hs
  statements {s t : List Char} {es : List Expr} : Repeated Statement s es t → Repeated P s es t
    | .nil => .nil
    | .cons h hs => .cons (go h) (statements hs)

end Language

end Scriptlet
