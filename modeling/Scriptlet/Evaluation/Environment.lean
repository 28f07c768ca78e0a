import Std.Data.ExtTreeMap
import Scriptlet.Value.Basic

/-!
# Environments

An environment is a stack of scopes, each with its own bindings and a parent among the scopes below
it. The scope at the bottom is the root and holds the globals. A name means the first binding on the
way from the current scope along the parents.

Scopes are named by their place in the stack. Entering a scope puts a new one on top; leaving it
takes off everything above a mark and goes back to the scope that was current at the mark. Places
are used again afterwards, so a name that is kept too long can mean another scope or none: an
operation that meets a missing scope ends in a fault.
-/

namespace Scriptlet

/-- The variables of one scope. -/
abbrev Bindings := Std.ExtTreeMap String Value

/-- The place of a scope in the stack, counted from the bottom. -/
abbrev ScopeId := Nat

/-- Variables, and where to look for others. -/
structure Scope where
  bindings : Bindings
  parent : Option ScopeId

/-- Binds a name in a scope. -/
def Scope.insert (scope : Scope) (name : String) (value : Value) : Scope :=
  ⟨scope.bindings.insert name value, scope.parent⟩

/-- A stack of scopes, of which one is current. -/
structure Environment where
  current : ScopeId
  scopes : Array Scope

/-- What leaving a scope goes back to. -/
structure Mark where
  /-- The number of scopes before the scope was entered. -/
  size : Nat
  /-- The scope that was current then. -/
  current : ScopeId

namespace Environment

/-- The root scope. -/
def root : ScopeId := 0

/-- The environment that has a root scope only, with the bindings. -/
def ofRoot (bindings : Bindings) : Environment where
  current := root
  scopes := #[⟨bindings, none⟩]

/-- The environment that has a root scope without bindings. -/
def empty : Environment :=
  ofRoot ∅

/-- The number of scopes. -/
def depth (env : Environment) : Nat :=
  env.scopes.size

/-! ### Looking up -/

/-- Follows the parents from a scope to the first one that binds a name, for at most `steps`
scopes. -/
def findFrom (scopes : Array Scope) (name : String) : Nat → ScopeId → Except Fault (Option ScopeId)
  | 0, _ => .error .endlessChain
  | steps + 1, id =>
    match scopes[id]? with
    | none => .error .danglingScope
    | some scope =>
      if scope.bindings.contains name then
        .ok (some id)
      else
        match scope.parent with
        | none => .ok none
        | some parent => findFrom scopes name steps parent

/-- The first scope that binds a name, from the current one along the parents. A chain that does not
come back to a scope has no more steps than there are scopes, and one to a missing scope. -/
def find (env : Environment) (name : String) : Except Fault (Option ScopeId) :=
  findFrom env.scopes name (env.scopes.size + 1) env.current

/-- The value of a name, if any scope in sight binds it. -/
def lookup (env : Environment) (name : String) : Except Fault (Option Value) :=
  (env.find name).map fun owner => do
    let scope ← env.scopes[← owner]?
    scope.bindings[name]?

/-! ### Binding -/

/-- Binds a name in a given scope. -/
def bindAt (env : Environment) (id : ScopeId) (name : String) (value : Value) :
    Except Fault Environment :=
  if id < env.scopes.size then
    .ok ⟨env.current, env.scopes.modify id (·.insert name value)⟩
  else
    .error .danglingScope

/-- Binds a name in the current scope, in front of any binding further out. -/
def define (env : Environment) (name : String) (value : Value) : Except Fault Environment :=
  env.bindAt env.current name value

/-- Binds a name in the root scope. -/
def defineGlobal (env : Environment) (name : String) (value : Value) : Except Fault Environment :=
  env.bindAt root name value

/-- Binds a name in the first scope that binds it already, or else in the current scope. -/
def assign (env : Environment) (name : String) (value : Value) : Except Fault Environment := do
  let owner ← env.find name
  env.bindAt (owner.getD env.current) name value

/-! ### Entering and leaving -/

/-- The mark of the present state. -/
def mark (env : Environment) : Mark :=
  ⟨env.scopes.size, env.current⟩

/-- Puts a new scope without bindings on top and makes it current. -/
def enter (env : Environment) (parent : ScopeId) : Environment :=
  ⟨env.scopes.size, env.scopes.push ⟨∅, some parent⟩⟩

/-- Takes off the scopes above a mark and goes back to the scope that was current at it. -/
def leave (env : Environment) (mark : Mark) : Except Fault Environment :=
  if mark.size ≤ env.scopes.size then
    .ok ⟨mark.current, env.scopes.shrink mark.size⟩
  else
    .error .leftOutOfOrder

/-- Leaving a scope just after entering it leads back. -/
theorem leave_enter (env : Environment) (parent : ScopeId) :
    (env.enter parent).leave env.mark = .ok env := by
  simp [leave, enter, mark]

end Environment

end Scriptlet
