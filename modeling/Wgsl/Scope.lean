import Wgsl.Table

/-! # Scopes

Bindings in nested scopes. Scopes live in an arena and name their parent by index: a block hangs off
the block around it, a function body off the root. They are opened and closed in nesting order, so
closing one also closes every scope opened after it. The root, at index zero, always stays.
-/

namespace Wgsl
set_option autoImplicit false

/-- The index of a scope in its arena. -/
abbrev ScopeId := Nat

/-- One scope: its parent and its bindings in the order of declaration. -/
structure Scope (α : Type) where
  parent : Option ScopeId
  bindings : Table α
  deriving Inhabited

namespace Scope

variable {α : Type}

/-- A scope without bindings. -/
def empty (parent : Option ScopeId) : Scope α := ⟨parent, []⟩

/-- Binds a name, in the place of an earlier binding of it. -/
def insert (s : Scope α) (name : String) (value : α) : Scope α :=
  { s with bindings := s.bindings.insert name value }

def find? (s : Scope α) (name : String) : Option α := s.bindings.find? name

end Scope

/-- The scopes that are open, the root first. -/
structure ScopeArena (α : Type) where
  scopes : Array (Scope α)
  deriving Inhabited

namespace ScopeArena

variable {α : Type}

/-- The arena with an empty root. -/
def new : ScopeArena α := ⟨#[Scope.empty none]⟩

/-- The root scope. -/
def root : ScopeId := 0

/-- How many scopes are open. -/
def depth (a : ScopeArena α) : Nat := a.scopes.size

/-- Opens a scope and gives its index. -/
def push (a : ScopeArena α) (parent : ScopeId) : ScopeArena α × ScopeId :=
  (⟨a.scopes.push (Scope.empty (some parent))⟩, a.scopes.size)

/-- Closes a scope and every scope opened after it; the root stays. -/
def pop (a : ScopeArena α) (id : ScopeId) : ScopeArena α :=
  if 0 < id ∧ id < a.scopes.size then ⟨a.scopes.take id⟩ else a

/-- Whether the scope is open. -/
def isLive (a : ScopeArena α) (id : ScopeId) : Bool := id < a.scopes.size

def scope? (a : ScopeArena α) (id : ScopeId) : Option (Scope α) := a.scopes[id]?

/-- The parent of an open scope other than the root. -/
def parent? (a : ScopeArena α) (id : ScopeId) : Option ScopeId := (a.scope? id).bind Scope.parent

/-- Binds a name in an open scope. -/
def insert (a : ScopeArena α) (id : ScopeId) (name : String) (value : α) : ScopeArena α :=
  ⟨a.scopes.modify id fun s => s.insert name value⟩

/-- The value bound to the name in that very scope. -/
def findIn? (a : ScopeArena α) (id : ScopeId) (name : String) : Option α :=
  (a.scope? id).bind fun s => s.find? name

/-- Follows at most `budget` scopes from `id` outward to the first that binds the name. -/
def lookupWithin (a : ScopeArena α) (name : String) : Nat → ScopeId → Option (ScopeId × α)
  | 0, _ => none
  | budget + 1, id =>
    match a.scope? id with
    | none => none
    | some s =>
      match s.find? name with
      | some value => some (id, value)
      | none =>
        match s.parent with
        | some parent => lookupWithin a name budget parent
        | none => none

/-- The nearest binding of a name from a scope outward. A chain of parents passes no scope twice, so
the number of open scopes bounds it. -/
def lookup (a : ScopeArena α) (id : ScopeId) (name : String) : Option (ScopeId × α) :=
  a.lookupWithin name a.depth id

/-- The scope that a name resolves to. -/
def resolve? (a : ScopeArena α) (id : ScopeId) (name : String) : Option ScopeId :=
  (a.lookup id name).map Prod.fst

/-- Whether a name resolves at all. -/
def isDefined (a : ScopeArena α) (id : ScopeId) (name : String) : Bool :=
  (a.lookup id name).isSome

/-- Replaces the value of a name that the scope itself binds. -/
def replace (a : ScopeArena α) (id : ScopeId) (name : String) (value : α) : ScopeArena α :=
  if (a.findIn? id name).isSome then a.insert id name value else a

end ScopeArena

end Wgsl
