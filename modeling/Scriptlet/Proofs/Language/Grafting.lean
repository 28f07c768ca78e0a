import Scriptlet.Proofs.Language.Completeness

/-!
# Another text after what was read

What a text is read as depends on the part that is read and hardly on what follows. So in a
derivation over a text that ends in `old`, this end can be exchanged for another text `k`, as long
as `k` cannot run into the last lexeme before it: `k` begins with a line feed, if it begins at all
(`Continuation`).

`Grafted k old s s'` relates the text of a derivation to the text after the exchange, and the
exchange is a simulation that goes from the end of a reading to its beginning (`Backward`): given
what follows the reading, exchanged, there is a text before it, exchanged, which is read as before.
Readings that allow this are `Local`, and all of the grammar are: the lexemes (`Symbol.graft` and
its kin), the expressions (`Phrase.graft`), the statements (`Statement.graft`) and the definitions
(`local_definition`).

A conditional without an alternative is read only where no `else` follows. This is the one place
where a reading looks at what follows it, and the reason why `Grafted` keeps an `else` from
appearing.
-/

namespace Scriptlet

/-! ### Simulation from the end to the beginning -/

section Backward

variable {σ τ α β : Type} {G : σ → τ → Prop}

/-- Wherever the end of a step is related to another place, its beginning is too, and the step can
be taken there. -/
def Backward (G : σ → τ → Prop) (step : Step σ α) (step' : Step τ α) : Prop :=
  ∀ ⦃s a t t'⦄, step s a t → G t t' → ∃ s', G s s' ∧ step' s' a t'

variable {step : Step σ α} {step' : Step τ α}

theorem backward_returns (a : α) : Backward G (Returns a) (Returns a) := by
  rintro _ _ _ t' ⟨⟩ ht
  exact ⟨t', ht, .mk⟩

theorem Backward.then {second : α → Step σ β} {second' : α → Step τ β} (h : Backward G step step')
    (hsecond : ∀ a, Backward G (second a) (second' a)) :
    Backward G (Then step second) (Then step' second') := by
  rintro s b t t' ⟨hfirst, hnext⟩ ht
  obtain ⟨s₁', hs₁, hnext'⟩ := hsecond _ hnext ht
  obtain ⟨s', hs, hfirst'⟩ := h hfirst hs₁
  exact ⟨s', hs, .mk hfirst' hnext'⟩

theorem Backward.optionally (h : Backward G step step') :
    Backward G (Optionally step) (Optionally step') := by
  intro s o t t' hstep ht
  cases hstep with
  | some hsome =>
    obtain ⟨s', hs, hsome'⟩ := h hsome ht
    exact ⟨s', hs, .some hsome'⟩
  | none => exact ⟨t', ht, .none⟩

theorem Backward.repeated (h : Backward G step step') :
    Backward G (Repeated step) (Repeated step') := by
  intro s as t t' hrun ht
  induction hrun with
  | nil => exact ⟨t', ht, .nil⟩
  | cons hfirst _ ih =>
    obtain ⟨s₁', hs₁, hrest'⟩ := ih ht
    obtain ⟨s', hs, hfirst'⟩ := h hfirst hs₁
    exact ⟨s', hs, .cons hfirst' hrest'⟩

variable {separator : σ → σ → Prop} {separator' : τ → τ → Prop}

theorem Backward.after (hsep : Backward G (Bare separator) (Bare separator'))
    (h : Backward G step step') : Backward G (After separator step) (After separator' step') := by
  rintro s a t t' ⟨hseparator, hstep⟩ ht
  obtain ⟨s₁', hs₁, hstep'⟩ := h hstep ht
  obtain ⟨s', hs, hseparator'⟩ := hsep (a := ()) hseparator hs₁
  exact ⟨s', hs, .mk hseparator' hstep'⟩

theorem Backward.separated (hsep : Backward G (Bare separator) (Bare separator'))
    (h : Backward G step step') :
    Backward G (Separated separator step) (Separated separator' step') := by
  intro s as t t' hrun ht
  cases hrun with
  | nil => exact ⟨t', ht, .nil⟩
  | cons hfirst hmore =>
    obtain ⟨s₁', hs₁, hmore'⟩ := (hsep.after h).repeated hmore ht
    obtain ⟨s', hs, hfirst'⟩ := h hfirst hs₁
    exact ⟨s', hs, .cons hfirst' hmore'⟩

end Backward

namespace Language

open Lexeme

variable {α β : Type} {s t t' u x : List Char}

/-! ### Continuations -/

/-- The keyword `else` begins the text. -/
def StartsElse (s : List Char) : Prop :=
  ∃ t, Keyword "else" s t

/-- A text that can be put after any lexeme, together with what it leaves after its trivia. -/
structure Continuation where
  text : List Char
  rest : List Char
  head : ∀ c ∈ text.head?, c = '\n'
  trivia : Trivia text rest

namespace Continuation

/-- The end of the text. -/
def stop : Continuation where
  text := []
  rest := []
  head := nofun
  trivia := .done (by decide)

/-- A text on a new line. -/
def line (rest : List Char) (h : Settled rest) : Continuation where
  text := '\n' :: rest
  rest := rest
  head := fun _ hc => (Option.some.inj hc).symm
  trivia := .blank isBlank_newline (.done h)

variable (k : Continuation) {old w : List Char}

/-- The text `w` with the continuation after it. Where nothing stands before the continuation, its
trivia have been skipped already. -/
def after (w : List Char) : List Char :=
  if w = [] then k.rest else w ++ k.text

theorem after_nil : k.after [] = k.rest :=
  if_pos rfl

theorem after_of_ne_nil (hw : w ≠ []) : k.after w = w ++ k.text :=
  if_neg hw

/-- What holds of the next character, whatever follows, holds of it with the continuation there. -/
theorem head_append {q : Char → Prop} (hq : q '\n') (h : ∀ c ∈ (w ++ old).head?, q c) :
    ∀ c ∈ (w ++ k.text).head?, q c := by
  intro c hc
  cases w with
  | nil => exact k.head c hc ▸ hq
  | cons d ds => exact h c hc

/-- Where neither a blank nor a comment begins, none does with the continuation there. -/
theorem settled_append (hw : w ≠ []) (h : Settled (w ++ old)) : Settled (w ++ k.text) := by
  obtain ⟨c, cs, rfl⟩ := List.exists_cons_of_ne_nil hw
  refine ⟨fun d hd => h.1 d hd, ?_⟩
  rintro ⟨rest, hrest⟩
  cases cs with
  | nil =>
    -- A lone solidus does not become a comment, because a line feed follows it.
    have hsecond : '/' :: rest = k.text := (List.cons.inj hrest).2
    have hhead := k.head '/' (by rw [← hsecond]; rfl)
    exact absurd hhead (by decide)
  | cons d ds =>
    obtain ⟨hfirst, hmore⟩ := List.cons.inj hrest
    obtain ⟨hsecond, -⟩ := List.cons.inj hmore
    refine h.2 ⟨ds ++ old, ?_⟩
    rw [← hfirst, ← hsecond]
    rfl

/-- Trivia before the place of the continuation stay trivia. -/
theorem trivia_append (h : Trivia s t) (ht : t = w ++ old) (v : List Char) (hs : s = v ++ t) :
    Trivia (v ++ (w ++ k.text)) (k.after w) := by
  induction h generalizing v with
  | done hsettled =>
    obtain rfl : v = [] := List.self_eq_append_left.1 hs
    by_cases hw : w = []
    · rw [hw, after_nil]
      exact k.trivia
    · rw [k.after_of_ne_nil hw]
      exact .done (k.settled_append hw (ht ▸ hsettled))
  | @blank c s t hblank hmore ih =>
    obtain ⟨v', rfl⟩ := hmore.exists_append
    obtain rfl : v = c :: v' := (List.append_cancel_right hs).symm
    exact .blank hblank (ih ht v' rfl)
  | @comment text s t htext hhead hmore ih =>
    obtain ⟨v', rfl⟩ := hmore.exists_append
    have hsplit : v ++ t = '/' :: '/' :: (text ++ v') ++ t := by
      rw [← hs]
      simp
    obtain rfl : v = '/' :: '/' :: (text ++ v') := List.append_cancel_right hsplit
    have hbefore : ∀ c ∈ ((v' ++ w) ++ old).head?, c = '\n' := by
      rwa [List.append_assoc, ← ht]
    have hline := k.head_append (q := fun c => c = '\n') rfl hbefore
    have hrest := ih ht v' rfl
    rw [List.append_assoc] at hline
    simpa using Trivia.comment htext hline hrest

end Continuation

/-- `s'` is `s` with the continuation `k` in place of its end `old`, and no `else` has come to stand
at the beginning. -/
structure Grafted (k : Continuation) (old s s' : List Char) : Prop where
  placed : ∃ w, s = w ++ old ∧ s' = k.after w
  no_else : StartsElse s' → StartsElse s

/-- What follows a reading can be exchanged. -/
def Local (R : Reading α) : Prop :=
  ∀ k old, Backward (Grafted k old) R R

variable {k : Continuation} {old : List Char}

/-! ### Lexemes -/

/-- The trivia after a lexeme, up to the place of the continuation. -/
theorem Grafted.trivia (h : Trivia u t) (ht : Grafted k old t t') :
    ∃ x, u = x ++ old ∧ Trivia (x ++ k.text) t' := by
  obtain ⟨w, rfl, rfl⟩ := ht.placed
  obtain ⟨v, rfl⟩ := h.exists_append
  refine ⟨v ++ w, by rw [List.append_assoc], ?_⟩
  rw [List.append_assoc]
  exact k.trivia_append h rfl v rfl

/-- A lexeme stands before the continuation as it stood before. -/
theorem grafted_append {body : List Char} (hbody : body ≠ [])
    (helse : StartsElse (body ++ (x ++ k.text)) → StartsElse (body ++ (x ++ old))) :
    Grafted k old (body ++ (x ++ old)) (body ++ (x ++ k.text)) where
  placed := by
    have hne : body ++ x ≠ [] := List.append_ne_nil_of_left_ne_nil hbody x
    exact ⟨body ++ x, by simp, by rw [k.after_of_ne_nil hne, List.append_assoc]⟩
  no_else := helse

theorem not_startsElse_of_not_startsWord (h : ¬ StartsWord s) : ¬ StartsElse s := by
  rintro ⟨_, helse⟩
  exact h (startsWord_of_keyword (by decide) helse)

variable {text word name : String}

theorem Symbol.graft (hmem : text ∈ symbols) (h : Symbol text s t) (ht : Grafted k old t t') :
    ∃ s', Grafted k old s s' ∧ Symbol text s' t' := by
  obtain ⟨u, rfl, hend, htrivia⟩ := h
  obtain ⟨x, rfl, htrivia'⟩ := ht.trivia htrivia
  have hend' : text ∈ extendable → (x ++ k.text).head? ≠ some '=' := by
    intro hext hequals
    have hne : ∀ c ∈ (x ++ old).head?, c ≠ '=' := by
      rintro c hc rfl
      exact hend hext hc
    exact k.head_append (by decide) hne '=' hequals rfl
  have hsymbol : Symbol text (text.toList ++ (x ++ k.text)) t' := ⟨_, rfl, hend', htrivia'⟩
  have hword := Begins.not_startsWord hmem ⟨_, hsymbol⟩
  refine ⟨_, grafted_append (symbols_head text hmem).1 fun helse => ?_, hsymbol⟩
  exact absurd helse (not_startsElse_of_not_startsWord hword)

theorem Keyword.graft (hmem : word ∈ keywords) (h : Keyword word s t) (ht : Grafted k old t t') :
    ∃ s', Grafted k old s s' ∧ Keyword word s' t' := by
  have hkeyword := h
  obtain ⟨u, rfl, hend, htrivia⟩ := h
  obtain ⟨x, rfl, htrivia'⟩ := ht.trivia htrivia
  have hkeyword' : Keyword word (word.toList ++ (x ++ k.text)) t' :=
    ⟨_, rfl, k.head_append (q := fun c => isWordChar c = false) (by decide) hend, htrivia'⟩
  refine ⟨_, grafted_append (keywords_word word hmem).1 ?_, hkeyword'⟩
  rintro ⟨_, helse⟩
  -- If this keyword is `else` now, it was so before.
  obtain rfl : word = "else" := hkeyword'.unique hmem (by decide) helse
  exact ⟨t, hkeyword⟩

theorem Identifier.graft (h : Identifier s name t) (ht : Grafted k old t t') :
    ∃ s', Grafted k old s s' ∧ Identifier s' name t' := by
  obtain ⟨u, rfl, hname, hend, htrivia⟩ := h
  obtain ⟨x, rfl, htrivia'⟩ := ht.trivia htrivia
  have hidentifier : Identifier (name.toList ++ (x ++ k.text)) name t' :=
    ⟨_, rfl, hname, k.head_append (q := fun c => isWordChar c = false) (by decide) hend, htrivia'⟩
  refine ⟨_, grafted_append hname.toList_ne_nil ?_, hidentifier⟩
  rintro ⟨_, helse⟩
  exact absurd helse (hidentifier.not_keyword (by decide))

theorem Literal.graft {n : Integer} (h : Literal s n t) (ht : Grafted k old t t') :
    ∃ s', Grafted k old s s' ∧ Literal s' n t' := by
  obtain ⟨negative, digits, u, rfl, hne, hall, hend, hvalue, htrivia⟩ := h
  obtain ⟨x, rfl, htrivia'⟩ := ht.trivia htrivia
  have hliteral : Literal ((if negative then ['-'] else []) ++ (digits ++ (x ++ k.text))) n t' :=
    ⟨negative, digits, _, rfl, hne, hall,
      k.head_append (q := fun c => c.isDigit = false) (by decide) hend, hvalue, htrivia'⟩
  have hword := hliteral.not_startsWord
  rw [← List.append_assoc] at hliteral hword ⊢
  refine ⟨_, grafted_append (List.append_ne_nil_of_right_ne_nil _ hne) fun helse => ?_, hliteral⟩
  exact absurd helse (not_startsElse_of_not_startsWord hword)

theorem local_symbol (hmem : text ∈ symbols) : Local (Bare (Symbol text)) :=
  fun _ _ _ _ _ _ => Symbol.graft hmem

theorem local_keyword (hmem : word ∈ keywords) : Local (Bare (Keyword word)) :=
  fun _ _ _ _ _ _ => Keyword.graft hmem

theorem local_identifier : Local Identifier :=
  fun _ _ _ _ _ _ => Identifier.graft

theorem local_literal : Local Literal :=
  fun _ _ _ _ _ _ => Literal.graft

theorem Local.repeated {R : Reading α} (h : Local R) : Local (Repeated R) :=
  fun k old => (h k old).repeated

theorem Local.separated {R : Reading α} (h : Local R) : Local (Separated (Symbol ",") R) :=
  fun k old => Backward.separated (local_symbol (by decide) k old) (h k old)

/-! ### Expressions -/

theorem backward_labelledArgument {argument argument' : Reading Expr}
    (h : Backward (Grafted k old) argument argument') :
    Backward (Grafted k old) (LabelledArgument argument) (LabelledArgument argument') := by
  rintro s a t t' ⟨hlabel, hequals, hvalue⟩ ht
  obtain ⟨s₂', hs₂, hvalue'⟩ := h hvalue ht
  obtain ⟨s₁', hs₁, hequals'⟩ := hequals.graft (by decide) hs₂
  obtain ⟨s', hs, hlabel'⟩ := hlabel.graft hs₁
  exact ⟨s', hs, .mk hlabel' hequals' hvalue'⟩

theorem backward_chain {operand operand' : Nat → Reading Expr} {left : Expr} {rank : Nat}
    (h : Backward (Grafted k old) (operand rank) (operand' rank)) :
    Backward (Grafted k old) (Chain operand left rank) (Chain operand' left rank) := by
  intro s e t t' hchain ht
  induction hchain with
  | done => exact ⟨t', ht, .done⟩
  | more hrank hop hright _ ih =>
    obtain ⟨s₂', hs₂, hmore'⟩ := ih h ht
    obtain ⟨s₁', hs₁, hright'⟩ := h hright hs₂
    obtain ⟨s', hs, hop'⟩ := hop.graft (operator_symbol_mem _).1 hs₁
    exact ⟨s', hs, .more hrank hop' hright' hmore'⟩

/-- What follows a phrase can be exchanged. -/
theorem Phrase.graft {rank : Nat} {e : Expr} (h : Phrase rank s e t) (ht : Grafted k old t t') :
    ∃ s', Grafted k old s s' ∧ Phrase rank s' e t' := by
  have hcomma : Backward (Grafted k old) (Bare (Symbol ",")) (Bare (Symbol ",")) :=
    local_symbol (by decide) k old
  refine Phrase.induction (P := fun rank s e t => ∀ t', Grafted k old t t' →
    ∃ s', Grafted k old s s' ∧ Phrase rank s' e t') ?group ?integer ?call ?labelledCall ?array
    ?boolTrue ?boolFalse ?name ?chain h t' ht
  case group =>
    intro e s s₁ s₂ t hopen hinner hclose t' ht
    obtain ⟨_, h₂, hclose'⟩ := hclose.graft (by decide) ht
    obtain ⟨_, h₁, hinner'⟩ := hinner.2 _ h₂
    obtain ⟨s', hs, hopen'⟩ := hopen.graft (by decide) h₁
    exact ⟨s', hs, .group hopen' hinner' hclose'⟩
  case integer =>
    intro n s t hn t' ht
    obtain ⟨s', hs, hn'⟩ := hn.graft ht
    exact ⟨s', hs, .integer hn'⟩
  case call =>
    intro name arguments s s₁ s₂ s₃ t hname hopen hitems hclose t' ht
    obtain ⟨_, h₃, hclose'⟩ := hclose.graft (by decide) ht
    obtain ⟨_, h₂, hitems'⟩ := hcomma.separated (fun _ _ _ t' hitem => hitem.2 t') hitems h₃
    obtain ⟨_, h₁, hopen'⟩ := hopen.graft (by decide) h₂
    obtain ⟨s', hs, hname'⟩ := hname.graft h₁
    exact ⟨s', hs, .call hname' hopen' hitems' hclose'⟩
  case labelledCall =>
    intro name arguments s s₁ s₂ s₃ t hname hopen hitems hclose t' ht
    obtain ⟨_, h₃, hclose'⟩ := hclose.graft (by decide) ht
    obtain ⟨_, h₂, hitems'⟩ :=
      hcomma.separated (backward_labelledArgument fun _ _ _ t' hitem => hitem.2 t') hitems h₃
    obtain ⟨_, h₁, hopen'⟩ := hopen.graft (by decide) h₂
    obtain ⟨s', hs, hname'⟩ := hname.graft h₁
    exact ⟨s', hs, .labelledCall hname' hopen' hitems' hclose'⟩
  case array =>
    intro items s s₁ s₂ t hopen hitems hclose t' ht
    obtain ⟨_, h₂, hclose'⟩ := hclose.graft (by decide) ht
    obtain ⟨_, h₁, hitems'⟩ := hcomma.separated (fun _ _ _ t' hitem => hitem.2 t') hitems h₂
    obtain ⟨s', hs, hopen'⟩ := hopen.graft (by decide) h₁
    exact ⟨s', hs, .array hopen' hitems' hclose'⟩
  case boolTrue =>
    intro s t hword t' ht
    obtain ⟨s', hs, hword'⟩ := hword.graft (by decide) ht
    exact ⟨s', hs, .boolTrue hword'⟩
  case boolFalse =>
    intro s t hword t' ht
    obtain ⟨s', hs, hword'⟩ := hword.graft (by decide) ht
    exact ⟨s', hs, .boolFalse hword'⟩
  case name =>
    intro name s t hname t' ht
    obtain ⟨s', hs, hname'⟩ := hname.graft ht
    exact ⟨s', hs, .name hname'⟩
  case chain =>
    intro rank first e s s₁ t hfirst hchain t' ht
    obtain ⟨_, h₁, hchain'⟩ := backward_chain (fun _ _ _ t' hitem => hitem.2 t') hchain ht
    obtain ⟨s', hs, hfirst'⟩ := hfirst.2 _ h₁
    exact ⟨s', hs, .chain hfirst' hchain'⟩

theorem local_phrase (rank : Nat) : Local (Phrase rank) :=
  fun _ _ _ _ _ _ => Phrase.graft

/-! ### Statements -/

/-- A keyword and a condition in parentheses. -/
theorem graft_condition {e : Expr} {s₁ s₂ s₃ : List Char} (hmem : word ∈ keywords)
    (hword : Keyword word s s₁) (hopen : Symbol "(" s₁ s₂) (hinner : Expression s₂ e s₃)
    (hclose : Symbol ")" s₃ t) (ht : Grafted k old t t') :
    ∃ s' s₁' s₂' s₃', Grafted k old s s' ∧ Keyword word s' s₁' ∧ Symbol "(" s₁' s₂' ∧
      Expression s₂' e s₃' ∧ Symbol ")" s₃' t' := by
  obtain ⟨s₃', h₃, hclose'⟩ := hclose.graft (by decide) ht
  obtain ⟨s₂', h₂, hinner'⟩ := hinner.graft h₃
  obtain ⟨s₁', h₁, hopen'⟩ := hopen.graft (by decide) h₂
  obtain ⟨s', hs, hword'⟩ := hword.graft hmem h₁
  exact ⟨s', s₁', s₂', s₃', hs, hword', hopen', hinner', hclose'⟩

/-- What follows a statement can be exchanged, if no `else` comes to follow it. -/
theorem Statement.graft {e : Expr} (h : Statement s e t) (ht : Grafted k old t t') :
    ∃ s', Grafted k old s s' ∧ Statement s' e t' := by
  refine Statement.induction (P := fun s e t => ∀ t', Grafted k old t t' →
    ∃ s', Grafted k old s s' ∧ Statement s' e t') ?loop ?ifThen ?ifElse ?assign ?block
    ?expression h t' ht
  case loop =>
    intro condition body s s₁ s₂ s₃ s₄ t hword hopen hinner hclose ih t' ht
    obtain ⟨_, h₄, hbody'⟩ := ih t' ht
    obtain ⟨s', _, _, _, hs, hword', hopen', hinner', hclose'⟩ :=
      graft_condition (by decide) hword hopen hinner hclose h₄
    exact ⟨s', hs, .loop hword' hopen' hinner' hclose' hbody'⟩
  case ifThen =>
    intro condition consequence s s₁ s₂ s₃ s₄ t hword hopen hinner hclose ih hno t' ht
    obtain ⟨_, h₄, hbody'⟩ := ih t' ht
    obtain ⟨s', _, _, _, hs, hword', hopen', hinner', hclose'⟩ :=
      graft_condition (by decide) hword hopen hinner hclose h₄
    have hno' : ∀ u, ¬ Keyword "else" t' u := by
      intro u helse
      obtain ⟨v, hv⟩ := ht.no_else ⟨u, helse⟩
      exact hno v hv
    exact ⟨s', hs, .ifThen hword' hopen' hinner' hclose' hbody' hno'⟩
  case ifElse =>
    intro condition consequence alternative s s₁ s₂ s₃ s₄ s₅ s₆ t hword hopen hinner hclose ih helse
      ih' t' ht
    obtain ⟨_, h₆, halternative'⟩ := ih' t' ht
    obtain ⟨_, h₅, helse'⟩ := helse.graft (by decide) h₆
    obtain ⟨_, h₄, hbody'⟩ := ih _ h₅
    obtain ⟨s', _, _, _, hs, hword', hopen', hinner', hclose'⟩ :=
      graft_condition (by decide) hword hopen hinner hclose h₄
    exact ⟨s', hs, .ifElse hword' hopen' hinner' hclose' hbody' helse' halternative'⟩
  case assign =>
    intro name value s s₁ s₂ s₃ t hname hequals hvalue hend t' ht
    obtain ⟨_, h₃, hend'⟩ := hend.graft (by decide) ht
    obtain ⟨_, h₂, hvalue'⟩ := hvalue.graft h₃
    obtain ⟨_, h₁, hequals'⟩ := hequals.graft (by decide) h₂
    obtain ⟨s', hs, hname'⟩ := hname.graft h₁
    exact ⟨s', hs, .assign hname' hequals' hvalue' hend'⟩
  case block =>
    intro statements s s₁ s₂ t hopen hbody hclose t' ht
    have hrow : Backward (Grafted k old) (fun s e t => ∀ t', Grafted k old t t' →
        ∃ s', Grafted k old s s' ∧ Statement s' e t') Statement :=
      fun _ _ _ t' hstatement => hstatement t'
    obtain ⟨_, h₂, hclose'⟩ := hclose.graft (by decide) ht
    obtain ⟨_, h₁, hbody'⟩ := hrow.repeated hbody h₂
    obtain ⟨s', hs, hopen'⟩ := hopen.graft (by decide) h₁
    exact ⟨s', hs, .block hopen' hbody' hclose'⟩
  case expression =>
    intro e s s₁ t hinner hend t' ht
    obtain ⟨_, h₁, hend'⟩ := hend.graft (by decide) ht
    obtain ⟨s', hs, hinner'⟩ := hinner.graft h₁
    exact ⟨s', hs, .expression hinner' hend'⟩

theorem local_statement : Local Statement :=
  fun _ _ _ _ _ _ => Statement.graft

/-! ### Definitions -/

/-- What follows a definition can be exchanged. -/
theorem local_definition : Local Definition := by
  intro k old s d t t' h ht
  cases h with
  | global hword hname hequals hvalue hend =>
    obtain ⟨_, h₄, hend'⟩ := hend.graft (by decide) ht
    obtain ⟨_, h₃, hvalue'⟩ := hvalue.graft h₄
    obtain ⟨_, h₂, hequals'⟩ := hequals.graft (by decide) h₃
    obtain ⟨_, h₁, hname'⟩ := hname.graft h₂
    obtain ⟨s', hs, hword'⟩ := hword.graft (by decide) h₁
    exact ⟨s', hs, .global hword' hname' hequals' hvalue' hend'⟩
  | function hword hname hopen hparameters hclose hbegin hbody hend =>
    obtain ⟨_, h₇, hend'⟩ := hend.graft (by decide) ht
    obtain ⟨_, h₆, hbody'⟩ := local_statement.repeated k old hbody h₇
    obtain ⟨_, h₅, hbegin'⟩ := hbegin.graft (by decide) h₆
    obtain ⟨_, h₄, hclose'⟩ := hclose.graft (by decide) h₅
    obtain ⟨_, h₃, hparameters'⟩ := local_identifier.separated k old hparameters h₄
    obtain ⟨_, h₂, hopen'⟩ := hopen.graft (by decide) h₃
    obtain ⟨_, h₁, hname'⟩ := hname.graft h₂
    obtain ⟨s', hs, hword'⟩ := hword.graft (by decide) h₁
    exact ⟨s', hs, .function hword' hname' hopen' hparameters' hclose' hbegin' hbody' hend'⟩

end Language

end Scriptlet
