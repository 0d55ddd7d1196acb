import FlatTable.Table.Basic

/-!
# Scopes and scoped entries

Each section of a shared table has a scope that is live until the section ends, however it ends. An
entry detached inside a section remembers the scope and is refused everywhere else.
-/

namespace FlatTable

/-- The scopes opened so far, and those that are live. -/
structure Scopes where
  opened : Nat := 0
  live : List Nat := []

namespace Scopes

/-- Opens a scope that was never open before. -/
def enter (s : Scopes) : Nat × Scopes := (s.opened, ⟨s.opened + 1, s.opened :: s.live⟩)

def leave (s : Scopes) (scope : Nat) : Scopes := { s with live := s.live.filter (· ≠ scope) }

def isLive (s : Scopes) (scope : Nat) : Bool := s.live.contains scope

/-- Refuses a scope that has ended. -/
def check (s : Scopes) (scope : Nat) : Except TableError Unit :=
  if s.isLive scope then .ok () else .error .staleView

/-- Refuses a scope that has ended, and one that is not the view's. -/
def checkSame (s : Scopes) (scope viewScope : Nat) : Except TableError Unit :=
  if s.isLive scope && scope == viewScope then .ok () else .error .staleView

end Scopes

/-- A key detached inside a section. -/
structure ScopedEntry (K : Type) where
  key : K
  scope : Nat

namespace ScopedEntry

variable {K V : Type}

/-- The entry of a key that is present, detached in a scope; it carries the stored key. -/
def detach [BEq K] (t : Table K V) (k : K) (scope : Nat) : Option (ScopedEntry K) :=
  (t.getEntry? k).map fun entry => ⟨entry.1, scope⟩

/-- The key, while the scope is live. -/
def key? (e : ScopedEntry K) (scopes : Scopes) : Except TableError K :=
  (scopes.check e.scope).map fun _ => e.key

/-- The current value, through a view of the entry's own section. -/
def value [BEq K] (e : ScopedEntry K) (scopes : Scopes) (viewScope : Nat) (t : Table K V) :
    Except TableError V := do
  scopes.checkSame e.scope viewScope
  match t.get? e.key with
  | some v => return v
  | none => throw .staleEntry

/-- Replaces the current value, through a view of the entry's own section; gives the old one. -/
def setValue [BEq K] (e : ScopedEntry K) (scopes : Scopes) (viewScope : Nat) (t : Table K V)
    (v : V) : Except TableError V × Table K V :=
  match e.value scopes viewScope t with
  | .error why => (.error why, t)
  | .ok old => (.ok old, (t.modify e.key fun _ => v).2)

end ScopedEntry

end FlatTable
