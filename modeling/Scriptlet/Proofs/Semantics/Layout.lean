import Scriptlet.Proofs.Evaluation.Steps
import Scriptlet.Proofs.Semantics.Reference

/-!
# Stores in environments

How the scopes of an environment hold a store. A layout gives the environment for a store, together
with what else lies in the environment while a call is active, and its laws say that looking up,
assigning, entering and leaving do there what they do in the store.

Under dynamic scoping the frames lie in the scopes from the bottom, outermost first, and the parent
of each scope is the one below it (`arena`). Under lexical scoping the globals lie at the bottom and
the innermost frame on top; between them are the frames of the other active calls, which nothing can
reach until the calls above them end.
-/

namespace Scriptlet

/-- Leaving the scope on top takes off that scope. -/
theorem Environment.leave_push (scopes : Array Scope) (scope : Scope) (current id : ScopeId) :
    leave ⟨current, scopes.push scope⟩ ⟨scopes.size, id⟩ = .ok ⟨id, scopes⟩ := by
  unfold leave
  rw [if_pos (by rw [Array.size_push]; exact Nat.le_succ _)]
  simp

namespace Reference

/-- How environments hold stores. -/
structure Layout {σ : Type} (store : Store σ) (scoping : Scoping) where
  /-- Where a call stands: what an environment holds besides the store. -/
  Place : Type
  /-- The stores that there can be at a place. -/
  Fits : Place → σ → Prop
  environment : Place → σ → Environment
  /-- The place outside all calls. -/
  outermost : Place
  /-- The place inside a call. -/
  inside : Place → σ → Place
  lookup : ∀ {k s}, Fits k s → ∀ name,
    (environment k s).lookup name = .ok (store.lookup s name)
  assign : ∀ {k s}, Fits k s → ∀ name value,
    (environment k s).assign name value = .ok (environment k (store.assign s name value)) ∧
      Fits k (store.assign s name value)
  enter : ∀ {k s}, Fits k s → ∀ parameters,
    (environment k s).enterCall scoping parameters =
        environment (inside k s) (store.enter s (frameOf parameters)) ∧
      Fits (inside k s) (store.enter s (frameOf parameters))
  leave : ∀ {k s s'}, Fits k s → Fits (inside k s) s' →
    (environment (inside k s) s').leave (environment k s).mark =
        .ok (environment k (store.leave s s')) ∧
      Fits k (store.leave s s')
  fits_outermost : ∀ {s}, Fits outermost s ↔ ∃ globals, s = store.top globals
  environment_top : ∀ globals, environment outermost (store.top globals) = .ofRoot globals
  globals_top : ∀ globals, store.globals (store.top globals) = globals

/-! ### Dynamic scoping -/

/-- The scope below. -/
def parentOf : ScopeId → Option ScopeId
  | 0 => none
  | id + 1 => some id

/-- The scopes of frames that are given innermost first. -/
def arena : List Bindings → Array Scope
  | [] => #[]
  | frame :: outer => (arena outer).push ⟨frame, parentOf outer.length⟩

@[simp]
theorem size_arena (frames : List Bindings) : (arena frames).size = frames.length := by
  induction frames with
  | nil => rfl
  | cons frame outer ih => rw [arena, Array.size_push, ih, List.length_cons]

/-- The place of a frame is the number of frames outside it. -/
theorem getElem?_arena (inner : List Bindings) (frame : Bindings) (outer : List Bindings) :
    (arena (inner ++ frame :: outer))[outer.length]? = some ⟨frame, parentOf outer.length⟩ := by
  induction inner with
  | nil => rw [List.nil_append, arena, ← size_arena outer, Array.getElem?_push_size]
  | cons first inner ih =>
    have hlt : outer.length < (arena (inner ++ frame :: outer)).size := by
      simp only [size_arena, List.length_append, List.length_cons]
      omega
    rw [List.cons_append, arena, Array.getElem?_push, if_neg (Nat.ne_of_lt hlt), ih]

theorem modify_arena (inner : List Bindings) (frame : Bindings) (outer : List Bindings)
    (name : String) (value : Value) :
    (arena (inner ++ frame :: outer)).modify outer.length (·.insert name value) =
      arena (inner ++ frame.insert name value :: outer) := by
  induction inner with
  | nil =>
    have hpush :=
      modify_push_size (arena outer) ⟨frame, parentOf outer.length⟩ (·.insert name value)
    rw [size_arena] at hpush
    exact hpush
  | cons first inner ih =>
    have hlt : outer.length < (arena (inner ++ frame :: outer)).size := by
      simp only [size_arena, List.length_append, List.length_cons]
      omega
    -- The parent of the first scope depends only on how many frames there are outside it.
    have hlength : (inner ++ frame :: outer).length =
        (inner ++ frame.insert name value :: outer).length := by
      simp
    rw [List.cons_append, List.cons_append, arena, arena, modify_push_of_lt hlt, ih, hlength]

/-- The place of the first frame that binds a name. -/
def owner (name : String) : List Bindings → Option ScopeId
  | [] => none
  | frame :: outer => if frame.contains name then some outer.length else owner name outer

/-- From any frame the way along the parents goes through the frames outside it. -/
theorem findFrom_arena (name : String) (inner : List Bindings) (frame : Bindings)
    (outer : List Bindings) {steps : Nat} (hsteps : outer.length < steps) :
    Environment.findFrom (arena (inner ++ frame :: outer)) name steps outer.length =
      .ok (owner name (frame :: outer)) := by
  induction steps generalizing inner frame outer with
  | zero => exact absurd hsteps (Nat.not_lt_zero _)
  | succ steps ih =>
    rw [Environment.findFrom, getElem?_arena, owner]
    dsimp only
    by_cases hbound : frame.contains name = true
    · rw [if_pos hbound, if_pos hbound]
    · rw [if_neg hbound, if_neg hbound]
      -- The next frame outward is the one below, or there is none.
      cases outer with
      | nil => rfl
      | cons next outer =>
        have hnext := ih (inner ++ [frame]) next outer (Nat.lt_of_succ_lt_succ hsteps)
        rw [List.append_assoc, List.singleton_append] at hnext
        exact hnext

theorem owner_eq_none {name : String} {frames : List Bindings} (h : owner name frames = none)
    (value : Value) :
    frames.findSome? (·[name]?) = none ∧ rebind name value frames = none := by
  induction frames with
  | nil => exact ⟨rfl, rfl⟩
  | cons frame outer ih =>
    rw [owner] at h
    split at h
    · cases h
    · rename_i hbound
      obtain ⟨hlookup, hrebind⟩ := ih h
      have hmissing : frame[name]? = none := by
        rw [Std.ExtTreeMap.contains_eq_isSome_getElem?] at hbound
        exact Option.not_isSome_iff_eq_none.1 hbound
      rw [List.findSome?_cons, hmissing, rebind, if_neg hbound, hrebind]
      exact ⟨hlookup, rfl⟩

theorem owner_eq_some {name : String} {frames : List Bindings} {id : ScopeId}
    (h : owner name frames = some id) (value : Value) :
    ∃ inner frame outer, frames = inner ++ frame :: outer ∧ outer.length = id ∧
      frames.findSome? (·[name]?) = frame[name]? ∧
      rebind name value frames = some (inner ++ frame.insert name value :: outer) := by
  induction frames with
  | nil => cases h
  | cons frame outer ih =>
    rw [owner] at h
    split at h
    · rename_i hbound
      refine ⟨[], frame, outer, rfl, Option.some.inj h, ?_, if_pos hbound⟩
      rw [Std.ExtTreeMap.contains_eq_isSome_getElem?] at hbound
      obtain ⟨value, hvalue⟩ := Option.isSome_iff_exists.1 hbound
      rw [List.findSome?_cons, hvalue]
    · rename_i hbound
      obtain ⟨inner, found, rest, rfl, hid, hlookup, hrebind⟩ := ih h
      refine ⟨frame :: inner, found, rest, rfl, hid, ?_, ?_⟩
      · rw [Std.ExtTreeMap.contains_eq_isSome_getElem?] at hbound
        rw [List.findSome?_cons, Option.not_isSome_iff_eq_none.1 hbound]
        exact hlookup
      · rw [rebind, if_neg hbound, hrebind]
        rfl

section Dynamic

variable {frames : List Bindings} {depth : Nat}

theorem find_arena (h : frames.length = depth + 1) (name : String) :
    Environment.find ⟨depth, arena frames⟩ name = .ok (owner name frames) := by
  cases frames with
  | nil => cases h
  | cons frame outer =>
    obtain rfl := Nat.succ.inj h
    apply findFrom_arena name []
    rw [size_arena, List.length_cons]
    omega

theorem lookup_arena (h : frames.length = depth + 1) (name : String) :
    Environment.lookup ⟨depth, arena frames⟩ name = .ok (dynamicStore.lookup frames name) := by
  unfold Environment.lookup
  rw [find_arena h]
  cases howner : owner name frames with
  | none =>
    have hlookup : dynamicStore.lookup frames name = none := (owner_eq_none howner .unit).1
    rw [hlookup]
    rfl
  | some id =>
    obtain ⟨inner, frame, outer, rfl, rfl, hfound, -⟩ := owner_eq_some howner .unit
    have hlookup : dynamicStore.lookup (inner ++ frame :: outer) name = frame[name]? := hfound
    rw [hlookup]
    simp [Except.map, getElem?_arena]

/-- The frame that an assignment changes, and its place. -/
theorem assign_eq_append (h : frames.length = depth + 1) (name : String) (value : Value) :
    ∃ inner frame outer, frames = inner ++ frame :: outer ∧
      (owner name frames).getD depth = outer.length ∧
      dynamicStore.assign frames name value = inner ++ frame.insert name value :: outer := by
  cases howner : owner name frames with
  | none =>
    cases frames with
    | nil => cases h
    | cons frame outer =>
      refine ⟨[], frame, outer, rfl, (Nat.succ.inj h).symm, ?_⟩
      show (rebind name value (frame :: outer)).getD _ = _
      rw [(owner_eq_none howner value).2]
      rfl
  | some id =>
    obtain ⟨inner, frame, outer, hframes, hid, -, hrebind⟩ := owner_eq_some howner value
    refine ⟨inner, frame, outer, hframes, hid.symm, ?_⟩
    show (rebind name value frames).getD _ = _
    rw [hrebind]
    rfl

theorem length_assign (h : frames.length = depth + 1) (name : String) (value : Value) :
    (dynamicStore.assign frames name value).length = depth + 1 := by
  obtain ⟨inner, frame, outer, hframes, -, hassign⟩ := assign_eq_append h name value
  rw [← h, hassign, hframes, List.length_append, List.length_append, List.length_cons,
    List.length_cons]

theorem assign_arena (h : frames.length = depth + 1) (name : String) (value : Value) :
    Environment.assign ⟨depth, arena frames⟩ name value =
      .ok ⟨depth, arena (dynamicStore.assign frames name value)⟩ := by
  obtain ⟨inner, frame, outer, hframes, howner, hassign⟩ := assign_eq_append h name value
  have hlt : outer.length < (arena frames).size := by
    rw [size_arena, hframes, List.length_append, List.length_cons]
    omega
  unfold Environment.assign
  rw [find_arena h, hassign]
  show Environment.bindAt _ ((owner name frames).getD depth) name value = _
  rw [howner]
  unfold Environment.bindAt
  rw [if_pos hlt, hframes, modify_arena]

end Dynamic

/-- The frames are the scopes, and each has the one below it as its parent. -/
def dynamicLayout : Layout dynamicStore .dynamic where
  Place := Nat
  Fits depth frames := frames.length = depth + 1
  environment depth frames := ⟨depth, arena frames⟩
  outermost := 0
  inside depth _ := depth + 1
  lookup h name := lookup_arena h name
  assign h name value := ⟨assign_arena h name value, length_assign h name value⟩
  enter := by
    intro depth frames h parameters
    refine ⟨?_, congrArg (· + 1) h⟩
    unfold Environment.enterCall
    rw [size_arena, h]
    show _ = Environment.mk (depth + 1) (arena (frameOf parameters :: frames))
    rw [arena, h]
    rfl
  leave := by
    intro depth frames frames' h h'
    cases frames' with
    | nil => cases h'
    | cons frame outer =>
      have houter : outer.length = depth + 1 := Nat.succ.inj h'
      refine ⟨?_, houter⟩
      have hsize : (arena frames).size = (arena outer).size := by
        rw [size_arena, size_arena, h, houter]
      show Environment.leave ⟨depth + 1, arena (frame :: outer)⟩ ⟨(arena frames).size, depth⟩ = _
      rw [hsize, arena]
      exact Environment.leave_push _ _ _ _
  fits_outermost := by
    intro frames
    exact List.length_eq_one_iff
  environment_top _ := rfl
  globals_top _ := rfl

/-! ### Lexical scoping -/

section Lexical

variable (globals frame : Bindings) (hidden : List Scope)

/-- The environment inside a call, with the frames of the other calls in between. -/
def callEnvironment : Environment where
  current := hidden.length + 1
  scopes := (Scope.mk globals none :: hidden).toArray.push ⟨frame, some Environment.root⟩

theorem size_callEnvironment :
    (callEnvironment globals frame hidden).scopes.size = hidden.length + 1 + 1 := by
  rw [callEnvironment, Array.size_push, List.size_toArray, List.length_cons]

/-- A name is looked for in the frame of the call and then among the globals. -/
theorem find_callEnvironment (name : String) :
    (callEnvironment globals frame hidden).find name =
      .ok (if frame.contains name then some (hidden.length + 1)
        else if globals.contains name then some Environment.root else none) := by
  have htop : (callEnvironment globals frame hidden).scopes[hidden.length + 1]? =
      some ⟨frame, some Environment.root⟩ :=
    Array.getElem?_push_size
  have hroot : (callEnvironment globals frame hidden).scopes[Environment.root]? =
      some ⟨globals, none⟩ := by
    simp [callEnvironment, Environment.root]
  have hcurrent : (callEnvironment globals frame hidden).current = hidden.length + 1 := rfl
  unfold Environment.find
  rw [size_callEnvironment, hcurrent, Environment.findFrom, htop]
  dsimp only
  by_cases hframe : frame.contains name = true
  · rw [if_pos hframe, if_pos hframe]
  · -- The parent is the root, whatever lies in between.
    rw [if_neg hframe, if_neg hframe, Environment.findFrom, hroot]
    dsimp only
    split <;> rfl

theorem lookup_callEnvironment (name : String) :
    (callEnvironment globals frame hidden).lookup name =
      .ok (lexicalStore.lookup ⟨some frame, globals⟩ name) := by
  unfold Environment.lookup
  rw [find_callEnvironment]
  simp only [lexicalStore, Option.bind_some, Std.ExtTreeMap.contains_eq_isSome_getElem?]
  cases hframe : frame[name]? with
  | some value => simp [Except.map, callEnvironment, hframe]
  | none =>
    cases hglobal : globals[name]? with
    | some value => simp [Except.map, callEnvironment, hglobal, Environment.root]
    | none => simp [Except.map]

theorem assign_callEnvironment (name : String) (value : Value) :
    (callEnvironment globals frame hidden).assign name value =
      .ok (if !frame.contains name && globals.contains name then
        callEnvironment (globals.insert name value) frame hidden
      else callEnvironment globals (frame.insert name value) hidden) := by
  have htop : (callEnvironment globals frame hidden).bindAt (hidden.length + 1) name value =
      .ok (callEnvironment globals (frame.insert name value) hidden) := by
    have hmodify := modify_push_size (Scope.mk globals none :: hidden).toArray
      ⟨frame, some Environment.root⟩ (·.insert name value)
    unfold Environment.bindAt
    rw [size_callEnvironment, if_pos (Nat.lt_succ_self _)]
    exact congrArg (fun scopes => Except.ok (Environment.mk _ scopes)) hmodify
  have hroot : (callEnvironment globals frame hidden).bindAt Environment.root name value =
      .ok (callEnvironment (globals.insert name value) frame hidden) := by
    have hlt : Environment.root < (Scope.mk globals none :: hidden).toArray.size := Nat.succ_pos _
    have hmodify := modify_push_of_lt hlt ⟨frame, some Environment.root⟩ (·.insert name value)
    rw [List.modify_toArray] at hmodify
    unfold Environment.bindAt
    rw [size_callEnvironment, if_pos (show Environment.root < _ from Nat.succ_pos _)]
    exact congrArg (fun scopes => Except.ok (Environment.mk _ scopes)) hmodify
  -- A name that neither frame binds goes to the frame of the call.
  unfold Environment.assign
  rw [find_callEnvironment]
  show Environment.bindAt _ (Option.getD _ (hidden.length + 1)) name value = _
  cases frame.contains name with
  | true => exact htop
  | false =>
    cases globals.contains name with
    | true => exact hroot
    | false => exact htop

/-- After a call the caller's frame, which it could not reach, is on top again. -/
theorem leave_callEnvironment (globals' frame' : Bindings) :
    (callEnvironment globals' frame' (hidden ++ [⟨frame, some Environment.root⟩])).leave
        (callEnvironment globals frame hidden).mark =
      .ok (callEnvironment globals' frame hidden) := by
  have hscopes : (Scope.mk globals' none :: (hidden ++ [⟨frame, some Environment.root⟩])).toArray =
      (callEnvironment globals' frame hidden).scopes := by
    simp [callEnvironment]
  have hmark : (callEnvironment globals frame hidden).mark =
      ⟨(callEnvironment globals' frame hidden).scopes.size, hidden.length + 1⟩ := by
    rw [size_callEnvironment, Environment.mark, size_callEnvironment]
    rfl
  rw [hmark, callEnvironment, hscopes]
  exact Environment.leave_push _ _ _ _

end Lexical

theorem lookup_ofRoot (globals : Bindings) (name : String) :
    (Environment.ofRoot globals).lookup name = .ok globals[name]? := by
  have hlookup : dynamicStore.lookup [globals] name = globals[name]? := List.findSome?_singleton
  rw [← hlookup]
  exact lookup_arena (show [globals].length = 0 + 1 from rfl) name

theorem assign_ofRoot (globals : Bindings) (name : String) (value : Value) :
    (Environment.ofRoot globals).assign name value = .ok (.ofRoot (globals.insert name value)) := by
  have hassign : dynamicStore.assign [globals] name value = [globals.insert name value] := by
    simp only [dynamicStore, rebind]
    split <;> rfl
  have harena := assign_arena (show [globals].length = 0 + 1 from rfl) name value
  rw [hassign] at harena
  exact harena

/-- The globals are at the bottom and the frame of the innermost call is on top. -/
def lexicalLayout : Layout lexicalStore .lexical where
  Place := Option (List Scope)
  Fits k s := s.locals.isSome = k.isSome
  environment
    | none, s => .ofRoot s.globals
    | some hidden, s => callEnvironment s.globals (s.locals.getD ∅) hidden
  outermost := none
  inside
    | none, _ => some []
    | some hidden, s => some (hidden ++ [⟨s.locals.getD ∅, some Environment.root⟩])
  lookup := by
    rintro (_ | hidden) ⟨_ | frame, globals⟩ h name
    · exact lookup_ofRoot globals name
    · cases h
    · cases h
    · exact lookup_callEnvironment globals frame hidden name
  assign := by
    rintro (_ | hidden) ⟨_ | frame, globals⟩ h name value
    · exact ⟨assign_ofRoot globals name value, rfl⟩
    · cases h
    · cases h
    · dsimp only [Option.getD_some]
      rw [assign_callEnvironment]
      simp only [lexicalStore]
      split <;> exact ⟨rfl, rfl⟩
  enter := by
    rintro (_ | hidden) ⟨_ | frame, globals⟩ h parameters
    · exact ⟨rfl, rfl⟩
    · cases h
    · cases h
    · refine ⟨?_, rfl⟩
      simp [Environment.enterCall, callEnvironment, lexicalStore, frameOf, Scoping.parent]
  leave := by
    rintro (_ | hidden) ⟨_ | frame, globals⟩ ⟨_ | frame', globals'⟩ h h'
    · cases h'
    · exact ⟨rfl, rfl⟩
    · cases h
    · cases h
    · cases h
    · cases h
    · cases h'
    · exact ⟨leave_callEnvironment globals frame hidden globals' frame', rfl⟩
  fits_outermost := by
    rintro ⟨_ | frame, globals⟩
    · exact ⟨fun _ => ⟨globals, rfl⟩, fun _ => rfl⟩
    · exact ⟨nofun, nofun⟩
  environment_top _ := rfl
  globals_top _ := rfl

end Reference

end Scriptlet
