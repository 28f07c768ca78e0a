import Scriptlet.Lexeme
import Scriptlet.Proofs.Parsing.Replies

/-!
# Chains of operators are folds of separated lists

A chain and a list with separators are both an item and then a loop, but the loop of the chain keeps
the operators and the loop of the list drops them. What a loop does with the values of its rounds
has no influence on where it stops or fails (`Replies.many_map`), so both are functions of one
reading, the first item together with the operators and the items after it (`linked`). Hence they
have the same flag and stop or fail alike, whatever the parsers are and however many rounds their
loops have.

`Interleaved` says without any loop which operators stand between the items of a list. There is one
such list of operators (`Interleaved.operators_unique`). Main statement: the value of a chain is the
fold of these operators over the items of the separated list, from the left
(`chainLeft_eq_foldl_sepBy1`).
-/

namespace Scriptlet

namespace Replies

variable {α β : Type} {limit : Cursor → Option Nat} {p : Replies α}
  {operator : Replies (α → α → α)} {c d : Cursor}

/-! ### One reading for both -/

/-- An operator and the item after it. -/
def joined (operator : Replies (α → α → α)) (p : Replies α) : Replies ((α → α → α) × α) := do
  let join ← operator
  let operand ← p
  return (join, operand)

/-- The first item, and then the operators and items after it. -/
def linked (limit : Cursor → Option Nat) (p : Replies α) (operator : Replies (α → α → α)) :
    Replies (α × List ((α → α → α) × α)) := do
  let first ← p
  let others ← (joined operator p).many limit
  return (first, others)

theorem sepBy1_eq_map_linked :
    p.sepBy1 limit operator = (fun r => r.1 :: r.2.map Prod.snd) <$> linked limit p operator := by
  have hround : operator *> p = Prod.snd <$> joined operator p := by
    simp [joined, seqRight_eq_bind]
  unfold sepBy1 linked
  rw [hround, many_map]
  simp

theorem chainLeft_eq_map_linked :
    p.chainLeft limit operator =
      (fun r => r.2.foldl (fun left step => step.1 left step.2) r.1) <$>
        linked limit p operator := by
  unfold chainLeft linked
  simp [joined]

theorem Single.joined (hoperator : operator.Single) (hp : p.Single) :
    (joined operator p).Single :=
  hoperator.bind fun _ => hp.bind fun _ => single_pure _

theorem Single.sepBy1 (hp : p.Single) (hoperator : operator.Single) :
    (p.sepBy1 limit operator).Single :=
  hp.bind fun _ => ((hoperator.seqRight hp).many limit).bind fun _ => single_pure _

theorem Single.chainLeft (hp : p.Single) (hoperator : operator.Single) :
    (p.chainLeft limit operator).Single :=
  hp.bind fun _ => ((hoperator.joined hp).many limit).bind fun _ => single_pure _

theorem sepBy1_of_loops {separator : Replies β} {c₁ : Cursor} {consumed : Bool} {x : α}
    {xs : List α} (hfirst : p c ⟨consumed, .ok (x, c₁)⟩)
    (h : Loops (separator *> p) (limit c₁) c₁ (.ok (xs, d))) :
    p.sepBy1 limit separator c ⟨consumed || decide (c₁.pos < d.pos), .ok (x :: xs, d)⟩ :=
  .ok hfirst (map_iff.2 ⟨_, ⟨_, h, rfl⟩, rfl⟩)

/-! ### The operators between the items -/

/-- From `c` to `d` items are read with operators between them, each where the one before it
stopped. -/
inductive Interleaved (p : Replies α) (operator : Replies β) :
    Cursor → List α → List β → Cursor → Prop
  | last {c d : Cursor} {x : α} : p.Gives c x d → Interleaved p operator c [x] [] d
  | more {c c₁ c₂ d : Cursor} {x : α} {f : β} {xs : List α} {fs : List β} :
    p.Gives c x c₁ → operator.Gives c₁ f c₂ → Interleaved p operator c₂ xs fs d →
    Interleaved p operator c (x :: xs) (f :: fs) d

/-- Each parser gives one value at a place, so the operators between the items are determined. -/
theorem Interleaved.operators_unique {operator : Replies β} {xs : List α} {fs gs : List β}
    {d' : Cursor} (hp : p.Single) (hoperator : operator.Single)
    (h : Interleaved p operator c xs fs d) (h' : Interleaved p operator c xs gs d') : fs = gs := by
  induction h generalizing gs with
  | last _ =>
    cases h' with
    | last _ => rfl
    | more _ _ hnone => cases hnone
  | more hitem hjoin hmore ih =>
    cases h' with
    | last _ => cases hmore
    | more hitem' hjoin' hmore' =>
      obtain ⟨-, rfl⟩ := hitem.unique hp hitem'
      obtain ⟨rfl, rfl⟩ := hjoin.unique hoperator hjoin'
      rw [ih hmore']

theorem exists_of_gives_joined {join : α → α → α} {a : α}
    (h : (joined operator p).Gives c (join, a) d) :
    ∃ c₁, operator.Gives c join c₁ ∧ p.Gives c₁ a d := by
  obtain ⟨join', c₁, hoperator, hrest⟩ := exists_of_gives_bind h
  obtain ⟨a', c₂, hitem, hpure⟩ := exists_of_gives_bind hrest
  obtain ⟨heq, rfl⟩ := gives_pure_iff.1 hpure
  obtain ⟨rfl, rfl⟩ := Prod.mk.inj heq
  exact ⟨c₁, hoperator, hitem⟩

/-- An item and rounds of operators and items after it are an interleaved reading. -/
theorem interleaved_of_repeated {first : α} {others : List ((α → α → α) × α)} {c₁ : Cursor}
    (hfirst : p.Gives c first c₁) (h : Repeated (joined operator p).Gives c₁ others d) :
    Interleaved p operator c (first :: others.map Prod.snd) (others.map Prod.fst) d := by
  induction h generalizing c first with
  | nil => exact .last hfirst
  | cons hround _ ih =>
    -- The item of the round is the first item of what comes after its operator.
    obtain ⟨c₂, hoperator, hitem⟩ := exists_of_gives_joined hround
    exact .more hfirst hoperator (ih hitem)

theorem interleaved_of_gives_linked {first : α} {others : List ((α → α → α) × α)}
    (h : (linked limit p operator).Gives c (first, others) d) :
    Interleaved p operator c (first :: others.map Prod.snd) (others.map Prod.fst) d := by
  obtain ⟨x, c₁, hfirst, hrest⟩ := exists_of_gives_bind h
  obtain ⟨steps, c₂, hothers, hpure⟩ := exists_of_gives_bind hrest
  obtain ⟨heq, rfl⟩ := gives_pure_iff.1 hpure
  obtain ⟨rfl, rfl⟩ := Prod.mk.inj heq
  exact interleaved_of_repeated hfirst (repeated_of_gives_many hothers)

/-! ### Left folds -/

/-- At every place the list and the chain have one reply each or none, and both have none or both
fail, with the same flag and the same failure, or both succeed, with the same flag and at the same
place. Then the list has a first item and operators stand between its items, and with these
operators the chain has the value that comes from the first item by each operator and the item after
it in turn. -/
structure LeftFold (p : Replies α) (operator : Replies (α → α → α)) (list : Replies (List α))
    (chain : Replies α) : Prop where
  single_list : list.Single
  single_chain : chain.Single
  error_iff : ∀ c consumed e, list c ⟨consumed, .error e⟩ ↔ chain c ⟨consumed, .error e⟩
  ok : ∀ c consumed xs d, list c ⟨consumed, .ok (xs, d)⟩ →
    ∃ x others, xs = x :: others ∧ (∃ fs, Interleaved p operator c xs fs d) ∧
      ∀ fs, Interleaved p operator c xs fs d →
        chain c ⟨consumed, .ok ((fs.zip others).foldl (fun left step => step.1 left step.2) x, d)⟩
  ok_of_chain : ∀ c consumed a d, chain c ⟨consumed, .ok (a, d)⟩ →
    ∃ xs, list c ⟨consumed, .ok (xs, d)⟩

theorem leftFold_sepBy1_chainLeft (limit : Cursor → Option Nat) (hp : p.Single)
    (hoperator : operator.Single) :
    LeftFold p operator (p.sepBy1 limit operator) (p.chainLeft limit operator) where
  single_list := hp.sepBy1 hoperator
  single_chain := hp.chainLeft hoperator
  error_iff c consumed e := by
    rw [sepBy1_eq_map_linked, chainLeft_eq_map_linked, map_iff, map_iff]
    refine exists_congr fun r => and_congr_right fun _ => ?_
    rw [eq_comm, Reply.map_eq_error_iff, eq_comm (a := (⟨consumed, .error e⟩ : Reply α)),
      Reply.map_eq_error_iff]
  ok c consumed xs d h := by
    rw [sepBy1_eq_map_linked] at h
    obtain ⟨r, hlinked, hr⟩ := map_iff.1 h
    obtain ⟨⟨first, others⟩, rfl, rfl⟩ := Reply.map_eq_ok_iff.1 hr.symm
    have hread := interleaved_of_gives_linked ⟨consumed, hlinked⟩
    refine ⟨first, others.map Prod.snd, rfl, ⟨_, hread⟩, fun fs hfs => ?_⟩
    -- There are no other operators between these items, so with the items they are the rounds of
    -- the loop.
    have hvalue : fs.zip (others.map Prod.snd) = others := by
      rw [← hread.operators_unique hp hoperator hfs, List.zip_map']
      simp
    rw [chainLeft_eq_map_linked, hvalue]
    exact map_iff.2 ⟨_, hlinked, rfl⟩
  ok_of_chain c consumed a d h := by
    rw [chainLeft_eq_map_linked] at h
    obtain ⟨r, hlinked, hr⟩ := map_iff.1 h
    obtain ⟨⟨first, others⟩, rfl, rfl⟩ := Reply.map_eq_ok_iff.1 hr.symm
    refine ⟨first :: others.map Prod.snd, ?_⟩
    rw [sepBy1_eq_map_linked]
    exact map_iff.2 ⟨_, hlinked, rfl⟩

end Replies

namespace Parser

open Scriptlet.Replies

variable {α : Type} {p : Parser α} {operator : Parser (α → α → α)} {limit : Cursor → Option Nat}

/-- Where the loops of the functions are those of their replies, so are the list and the chain. -/
theorem replies_sepBy1_of_many
    (h : (operator *> p).many.replies = (operator *> p).replies.many limit) :
    (p.sepBy1 operator).replies = p.replies.sepBy1 limit operator.replies := by
  simp only [Parser.sepBy1, replies_bind, h, replies_seqRight, replies_pure]
  rfl

theorem replies_chainLeft_of_many
    (h : (joined operator p).many.replies = (joined operator p).replies.many limit) :
    (p.chainLeft operator).replies = p.replies.chainLeft limit operator.replies := by
  have hjoined : (joined operator p).replies = Replies.joined operator.replies p.replies := by
    simp only [joined, replies_bind, replies_pure]
    rfl
  simp only [chainLeft_eq, replies_bind, h, hjoined, replies_pure]
  rfl

/-- A chain is the left fold of what the separated list reads. This is so for all parsers, those
that do not return everywhere included, with any limit on the rounds of their loops and with none.
It is so for the list and the chain as functions, whose loops have a limit. For honest parsers that
limit makes no difference: the functions have the replies that there are without one. -/
theorem chainLeft_eq_foldl_sepBy1 :
    (∀ (limit : Cursor → Option Nat) (p : Replies α) (operator : Replies (α → α → α)),
      p.Single → operator.Single →
        LeftFold p operator (p.sepBy1 limit operator) (p.chainLeft limit operator)) ∧
    (∀ (p : Parser α) (operator : Parser (α → α → α)),
      LeftFold p.replies operator.replies (p.sepBy1 operator).replies
        (p.chainLeft operator).replies) ∧
    ∀ (p : Parser α) (operator : Parser (α → α → α)), p.Honest → operator.Honest →
      (p.sepBy1 operator).replies = p.replies.sepBy1 (fun _ => none) operator.replies ∧
      (p.chainLeft operator).replies = p.replies.chainLeft (fun _ => none) operator.replies := by
  refine ⟨fun limit p operator => leftFold_sepBy1_chainLeft limit, fun p operator => ?_,
    fun p operator hp hoperator => ⟨?_, ?_⟩⟩
  · rw [replies_sepBy1_of_many (replies_many _), replies_chainLeft_of_many (replies_many _)]
    exact leftFold_sepBy1_chainLeft _ (single_replies p) (single_replies operator)
  · exact replies_sepBy1_of_many (replies_many_of_honest (hoperator.seqRight hp))
  · have hjoined : (joined operator p).Honest :=
      hoperator.bind fun _ => hp.bind fun _ => honest_pure _
    exact replies_chainLeft_of_many (replies_many_of_honest hjoined)

open Lexeme in
/-- Names with minus signs between them are grouped from the left, up to the semicolon, and a sign
with no name after it makes the list fail, and the chain likewise. A separator that goes on in
another text leads to four items without a limit and to three with the one that functions have; in
both cases they are grouped from the left. -/
theorem chainLeft_eq_foldl_sepBy1_names :
    ∃ (join : String → String → String) (operator wayward : Parser (String → String → String))
      (e : Failure),
      Interleaved identifier.replies operator.replies (.start "a - b-c;".toList) ["a", "b", "c"]
        [join, join] ⟨7, [';']⟩ ∧
      (identifier.chainLeft operator).run (.start "a - b-c;".toList) =
        ⟨true, .ok ("((a-b)-c)", ⟨7, [';']⟩)⟩ ∧
      (identifier.sepBy1 operator).run (.start "a - b-".toList) = ⟨true, .error e⟩ ∧
      (identifier.chainLeft operator).run (.start "a - b-".toList) = ⟨true, .error e⟩ ∧
      identifier.replies.chainLeft (fun _ => none) wayward.replies (.start "a,".toList)
        ⟨true, .ok ("(((a-b)-c)-d)", ⟨7, []⟩)⟩ ∧
      (identifier.chainLeft wayward).run (.start "a,".toList) =
        ⟨true, .ok ("((a-b)-c)", ⟨5, ";d".toList⟩)⟩ := by
  let join (left right : String) : String := "(" ++ left ++ "-" ++ right ++ ")"
  let operator : Parser (String → String → String) := (fun _ => join) <$> symbol "-"
  let wayward : Parser (String → String → String) :=
    ⟨fun c => match c.rest with
      | [','] => ⟨true, .ok (join, ⟨2, "b;c;d".toList⟩)⟩
      | ';' :: rest => ⟨true, .ok (join, ⟨c.pos + 1, rest⟩)⟩
      | _ => .refusal c.pos .endOfInput⟩
  obtain ⟨hreplies, hfunctions, -⟩ := chainLeft_eq_foldl_sepBy1 (α := String)
  have hread : Interleaved identifier.replies operator.replies (.start "a - b-c;".toList)
      ["a", "b", "c"] [join, join] ⟨7, [';']⟩ :=
    .more ⟨_, (show identifier.run _ = ⟨true, .ok ("a", ⟨2, "- b-c;".toList⟩)⟩ from rfl)⟩
      ⟨_, (show operator.run _ = ⟨true, .ok (join, ⟨4, "b-c;".toList⟩)⟩ from rfl)⟩
      (.more ⟨_, (show identifier.run _ = ⟨true, .ok ("b", ⟨5, "-c;".toList⟩)⟩ from rfl)⟩
        ⟨_, (show operator.run _ = ⟨true, .ok (join, ⟨6, "c;".toList⟩)⟩ from rfl)⟩
        (.last ⟨true, rfl⟩))
  have hlist : (identifier.sepBy1 operator).run (.start "a - b-c;".toList) =
      ⟨true, .ok (["a", "b", "c"], ⟨7, [';']⟩)⟩ := rfl
  have hopen : (identifier.sepBy1 operator).run (.start "a - b-".toList) =
      ⟨true, .error ⟨6, [.named "identifier"]⟩⟩ := rfl
  obtain ⟨x, others, hitems, -, hvalue⟩ := (hfunctions identifier operator).ok _ _ _ _ hlist
  obtain ⟨rfl, rfl⟩ := List.cons.inj hitems
  -- The items after the first, in the loop without a limit and in the other text.
  have hrounds : Loops (wayward *> identifier).replies none ⟨1, [',']⟩
      (.ok (["b", "c", "d"], ⟨7, []⟩)) := by
    have hlimit : (none : Option Nat) ≠ some 0 := nofun
    have hstop : Loops (wayward *> identifier).replies none ⟨7, []⟩ (.ok ([], ⟨7, []⟩)) :=
      .stop hlimit rfl
    have hd := Loops.more (c := ⟨5, ";d".toList⟩) (a := "d") hlimit rfl hstop
    have hc := Loops.more (c := ⟨3, ";c;d".toList⟩) (a := "c") hlimit rfl hd
    exact Loops.more (c := ⟨1, [',']⟩) (a := "b") hlimit rfl hc
  rw [replies_seqRight] at hrounds
  have hfirst : identifier.replies (.start "a,".toList) ⟨true, .ok ("a", ⟨1, [',']⟩)⟩ := rfl
  have hwayward : identifier.replies.sepBy1 (fun _ => none) wayward.replies (.start "a,".toList)
      ⟨true || decide (1 < 7), .ok (["a", "b", "c", "d"], ⟨7, []⟩)⟩ :=
    sepBy1_of_loops hfirst hrounds
  obtain ⟨y, others', hitems', -, hvalue'⟩ :=
    (hreplies (fun _ => none) _ _ (single_replies identifier) (single_replies wayward)).ok
      _ _ _ _ hwayward
  obtain ⟨rfl, rfl⟩ := List.cons.inj hitems'
  have hread' : Interleaved identifier.replies wayward.replies (.start "a,".toList)
      ["a", "b", "c", "d"] [join, join, join] ⟨7, []⟩ :=
    .more ⟨_, hfirst⟩
      ⟨_, (show wayward.run _ = ⟨true, .ok (join, ⟨2, "b;c;d".toList⟩)⟩ from rfl)⟩
      (.more ⟨_, (show identifier.run _ = ⟨true, .ok ("b", ⟨3, ";c;d".toList⟩)⟩ from rfl)⟩
        ⟨_, (show wayward.run _ = ⟨true, .ok (join, ⟨4, "c;d".toList⟩)⟩ from rfl)⟩
        (.more ⟨_, (show identifier.run _ = ⟨true, .ok ("c", ⟨5, ";d".toList⟩)⟩ from rfl)⟩
          ⟨_, (show wayward.run _ = ⟨true, .ok (join, ⟨6, "d".toList⟩)⟩ from rfl)⟩
          (.last ⟨true, rfl⟩)))
  refine ⟨join, operator, wayward, _, hread, (hvalue _ hread).trans rfl, hopen, ?_,
    hvalue' _ hread', rfl⟩
  exact ((hfunctions identifier operator).error_iff _ _ _).1 hopen

end Parser

end Scriptlet
