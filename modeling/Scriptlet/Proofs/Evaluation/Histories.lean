import Scriptlet.Proofs.Evaluation.Chains

/-!
# Environments under any use

Whoever holds an environment can bind and assign names, enter scopes and leave them. A scope is
entered under a parent that is there, and left by the mark that was taken when it was entered. Marks
may be used in any order, also when scopes above them are still open, so a mark can outlive the
scopes that it was taken among and later go back to a place that another scope has taken. All that
is asked is that a mark does not lie above the present scopes.

Even so the environment stays rooted: a mark goes back to a place below its own size, and what is
below that size has parents further down (`Holding.exists_perform`). Main statement: no sequence of
such requests ends in a fault, and after each one `find` and `lookup` search the way outward down to
the root (`Holding.rooted_after_requests`).
-/

namespace Scriptlet

/-- What the holder of an environment can ask for. -/
inductive Holding.Request where
  | define (name : String) (value : Value)
  | defineGlobal (name : String) (value : Value)
  | assign (name : String) (value : Value)
  | enter (parent : ScopeId)
  /-- Leaves the scope of a mark that is held and gives the mark up. The latest mark has the number
  zero. -/
  | leave (number : Nat)

/-- An environment, and the marks of scopes that were entered and not left by their mark. -/
structure Holding where
  env : Environment
  marks : List Mark

namespace Holding

open Environment

/-- A new environment, and no marks. -/
def new : Holding :=
  ⟨.empty, []⟩

/-- Does what is asked for. A mark that is not held cannot be used, and then nothing happens. -/
def perform (h : Holding) : Request → Except Fault Holding
  | .define name value => (h.env.define name value).map (⟨·, h.marks⟩)
  | .defineGlobal name value => (h.env.defineGlobal name value).map (⟨·, h.marks⟩)
  | .assign name value => (h.env.assign name value).map (⟨·, h.marks⟩)
  | .enter parent => .ok ⟨h.env.enter parent, h.env.mark :: h.marks⟩
  | .leave number =>
    match h.marks[number]? with
    | some mark => (h.env.leave mark).map (⟨·, h.marks.eraseIdx number⟩)
    | none => .ok h

/-- Does what is asked for, one after the other. -/
def performAll (h : Holding) (requests : List Request) : Except Fault Holding :=
  requests.foldlM perform h

/-- What the holder has to see to: the parent of a new scope is there, and a mark that is used is
held and does not lie above the scopes. -/
def Allows (h : Holding) : Request → Prop
  | .enter parent => parent < h.env.depth
  | .leave number => ∃ mark, h.marks[number]? = some mark ∧ mark.size ≤ h.env.depth
  | .define _ _ | .defineGlobal _ _ | .assign _ _ => True

instance (h : Holding) : (r : Request) → Decidable (h.Allows r)
  | .enter parent => inferInstanceAs (Decidable (parent < h.env.depth))
  | .leave number =>
    decidable_of_iff (h.marks[number]?.any (·.size ≤ h.env.depth) = true) (by
      simp [Allows, Option.any_eq_true])
  | .define _ _ | .defineGlobal _ _ | .assign _ _ => inferInstanceAs (Decidable True)

/-- Each request is allowed at its time. -/
def AllowsAll : Holding → List Request → Prop
  | _, [] => True
  | h, r :: rs => h.Allows r ∧ ∀ h' ∈ (h.perform r).toOption, h'.AllowsAll rs

instance decidableAllowsAll : (h : Holding) → (rs : List Request) → Decidable (h.AllowsAll rs)
  | _, [] => inferInstanceAs (Decidable True)
  | h, r :: rs =>
    have (h' : Holding) : Decidable (h'.AllowsAll rs) := decidableAllowsAll h' rs
    inferInstanceAs (Decidable (h.Allows r ∧ ∀ h' ∈ (h.perform r).toOption, h'.AllowsAll rs))

/-- The environment is rooted, and each mark goes back to a scope below its size. -/
structure Sound (h : Holding) : Prop where
  rooted : h.env.Rooted
  mark_lt : ∀ mark ∈ h.marks, mark.current < mark.size

theorem sound_new : new.Sound where
  rooted := rooted_ofRoot ∅
  mark_lt := by simp [new]

/-! ### One request -/

variable {h : Holding}

/-- Binding changes neither the scopes nor the marks. -/
theorem Sound.exists_map {bound : Except Fault Environment} (hs : h.Sound)
    (hbound : ∃ env, bound = .ok env ∧ SameShape h.env env) :
    ∃ h' : Holding, bound.map (Holding.mk · h.marks) = .ok h' ∧ h'.Sound := by
  obtain ⟨env, rfl, hshape⟩ := hbound
  exact ⟨⟨env, h.marks⟩, rfl, hshape.rooted hs.rooted, hs.mark_lt⟩

theorem Sound.enter (hs : h.Sound) {parent : ScopeId} (hparent : parent < h.env.depth) :
    Sound ⟨h.env.enter parent, h.env.mark :: h.marks⟩ where
  rooted := rooted_push hs.rooted ∅ hparent
  mark_lt mark hmark := by
    rcases List.mem_cons.1 hmark with rfl | hmark
    · exact hs.rooted.current_lt
    · exact hs.mark_lt mark hmark

/-- What is left when the scopes above a size are taken off is rooted, wherever below that size one
goes back to. -/
theorem rooted_shrink {env : Environment} (henv : env.Rooted) {current size : Nat}
    (hcurrent : current < size) (hsize : size ≤ env.depth) :
    Rooted ⟨current, env.scopes.shrink size⟩ := by
  have hdepth : depth ⟨current, env.scopes.shrink size⟩ = size := by
    simp only [depth, Array.size_shrink]
    exact Nat.min_eq_left hsize
  have hparents (id : Nat) (hid : id < size) :
      (parents ⟨current, env.scopes.shrink size⟩)[id]? = env.parents[id]? := by
    rw [getElem?_parents, getElem?_parents, getElem?_shrink hsize, if_pos hid]
  refine ⟨?_, ?_, fun id hpos hid => ?_⟩
  · rw [hdepth]
    exact hcurrent
  · rw [hparents root (Nat.zero_lt_of_lt hcurrent)]
    exact henv.root_parent
  · rw [hdepth] at hid
    rw [hparents id hid]
    exact henv.parent_lt id hpos (Nat.lt_of_lt_of_le hid hsize)

/-- A request that is allowed ends without a fault and leaves all in order. -/
theorem exists_perform (hs : h.Sound) (r : Request) (hr : h.Allows r) :
    ∃ h', h.perform r = .ok h' ∧ h'.Sound := by
  have hwf := hs.rooted.wellFormed
  cases r with
  | define name value => exact hs.exists_map (sameShape_bindAt hwf.current_lt name value)
  | defineGlobal name value =>
    have hroot : root < h.env.scopes.size := Nat.zero_lt_of_lt hwf.current_lt
    exact hs.exists_map (sameShape_bindAt hroot name value)
  | assign name value => exact hs.exists_map (sameShape_assign hwf name value)
  | enter parent => exact ⟨_, rfl, hs.enter hr⟩
  | leave number =>
    obtain ⟨mark, hmark, hsize⟩ := hr
    have hleave : h.env.leave mark = .ok ⟨mark.current, h.env.scopes.shrink mark.size⟩ :=
      if_pos hsize
    have hheld : mark ∈ h.marks := List.mem_of_getElem? hmark
    refine ⟨⟨⟨mark.current, h.env.scopes.shrink mark.size⟩, h.marks.eraseIdx number⟩, ?_, ?_, ?_⟩
    · simp only [perform, hmark, hleave, Except.map]
    · -- The mark is the holder's own, so it goes back to a scope that stays.
      exact rooted_shrink hs.rooted (hs.mark_lt mark hheld) hsize
    · intro other hother
      exact hs.mark_lt other (List.mem_of_mem_eraseIdx hother)

/-! ### Any number of requests -/

theorem exists_performAll (hs : h.Sound) (requests : List Request) (hall : h.AllowsAll requests) :
    ∃ h', h.performAll requests = .ok h' ∧ h'.Sound := by
  induction requests generalizing h with
  | nil => exact ⟨h, rfl, hs⟩
  | cons r rs ih =>
    obtain ⟨hr, hrs⟩ := hall
    obtain ⟨h₁, hperform, hs₁⟩ := exists_perform hs r hr
    obtain ⟨h₂, hperformAll, hs₂⟩ := ih hs₁ (hrs h₁ (by rw [hperform]; rfl))
    refine ⟨h₂, ?_, hs₂⟩
    unfold performAll
    rw [List.foldlM_cons, hperform]
    exact hperformAll

/-- No sequence of allowed requests to a new environment ends in a fault. Afterwards there is a root
without a parent, the current scope is there, and every other scope has a parent below it. So one
way leads from the current scope down to the root, through scopes that are there, and on it `find`
gives the first scope that binds a name and `lookup` the value there. -/
theorem rooted_after_requests (requests : List Request) (hall : new.AllowsAll requests) :
    ∃ h, new.performAll requests = .ok h ∧ 0 < h.env.depth ∧ h.env.current < h.env.depth ∧
      h.env.parents[root]? = some none ∧
      (∀ id, root < id → id < h.env.depth →
        ∃ parent, h.env.parents[id]? = some (some parent) ∧ parent < id) ∧
      ∃ chain, Outward h.env h.env.current chain ∧ (∀ id ∈ chain, id < h.env.depth) ∧
        chain.getLast? = some root ∧
        ∀ name, h.env.find name = .ok (chain.find? (h.env.Binds · name)) ∧
          h.env.lookup name = .ok (chain.findSome? (h.env.valueAt? · name)) := by
  obtain ⟨h, hperform, hs⟩ := exists_performAll sound_new requests hall
  have hrooted := hs.rooted
  have hwf := hrooted.wellFormed
  have hpos : 0 < h.env.depth := Nat.zero_lt_of_lt hrooted.current_lt
  obtain ⟨above, hchain, habove⟩ := hrooted.exists_outward hrooted.current_lt
  refine ⟨h, hperform, hpos, hrooted.current_lt, hrooted.root_parent, hrooted.parent_lt,
    above ++ [root], hchain, fun id hid => ?_, by simp,
    fun name => ⟨hchain.find_eq hwf name, hchain.lookup_eq hwf name⟩⟩
  rcases List.mem_append.1 hid with hid | hid
  · exact Nat.lt_of_le_of_lt (habove id hid).2 hrooted.current_lt
  · rw [List.mem_singleton.1 hid]
    exact hpos

/-- The outer of two scopes is left first. A third scope takes its place, and the mark of the inner
one then goes back to that place, which is now in another scope. -/
theorem rooted_after_stale_mark :
    ∃ requests h, requests = [.enter 0, .define "x" (.int 1), .enter 1, .leave 1, .enter 0,
        .define "y" (.int 2), .leave 1] ∧
      new.AllowsAll requests ∧ new.performAll requests = .ok h ∧ h.env.current = 1 ∧
        h.env.depth = 2 ∧
      h.env.find "x" = .ok none ∧ h.env.find "y" = .ok (some 1) ∧
      ∃ chain, Outward h.env h.env.current chain ∧ chain.getLast? = some root := by
  let requests : List Request := [.enter 0, .define "x" (.int 1), .enter 1, .leave 1, .enter 0,
    .define "y" (.int 2), .leave 1]
  have hall : new.AllowsAll requests := by decide
  obtain ⟨h, hperform, -, -, -, -, chain, hchain, -, hlast, -⟩ :=
    rooted_after_requests requests hall
  obtain ⟨h', hperform', hcurrent, hdepth, hx, hy⟩ : ∃ h', new.performAll requests = .ok h' ∧
      h'.env.current = 1 ∧ h'.env.depth = 2 ∧ h'.env.find "x" = .ok none ∧
      h'.env.find "y" = .ok (some 1) := ⟨_, rfl, rfl, rfl, rfl, rfl⟩
  obtain rfl : h' = h := Except.ok.inj (hperform'.symm.trans hperform)
  exact ⟨requests, h', rfl, hall, hperform, hcurrent, hdepth, hx, hy, chain, hchain, hlast⟩

end Holding

end Scriptlet
