import FlatTable.Table.Iter

/-!
# Entry handles

A handle names a pair by its key and stays usable while the pair moves inside its table. It is
refused by every other table, and by its own once that has been cleared or the key is absent.
-/

namespace FlatTable

universe u v

/-- Names a pair of a table. -/
structure EntryHandle (K : Type u) where
  key : K
  tableId : Nat
  generation : Nat

variable {K : Type u} {V : Type v}

/-- Handles are equal when they name equal keys of one table in one generation. -/
instance [BEq K] : BEq (EntryHandle K) where
  beq h g := h.key == g.key && h.tableId == g.tableId && h.generation == g.generation

def Table.handleFor (t : Table K V) (k : K) : EntryHandle K := ⟨k, t.id, t.generation⟩

/-- The handle of a key that is present; it carries the stored key. -/
def Table.handle? [BEq K] (t : Table K V) (k : K) : Option (EntryHandle K) :=
  (t.getEntry? k).map fun entry => t.handleFor entry.1

/-- The handles of all pairs in traversal order. -/
def Table.handles (t : Table K V) : List (EntryHandle K) :=
  t.iter.toList.map fun p => t.handleFor p.1

namespace EntryHandle

/-- Refuses another table, then an earlier generation of its own. -/
def checkOwner (h : EntryHandle K) (t : Table K V) : Except TableError Unit :=
  if t.id ≠ h.tableId then .error .wrongTable
  else if t.generation ≠ h.generation then .error .staleEntry
  else .ok ()

def value [BEq K] (h : EntryHandle K) (t : Table K V) : Except TableError V :=
  match h.checkOwner t with
  | .error e => .error e
  | .ok _ => match t.get? h.key with
    | none => .error .staleEntry
    | some v => .ok v

/-- Changes the value that the handle names; gives the value before and after. -/
def modify [BEq K] (h : EntryHandle K) (t : Table K V) (f : V → V) :
    Except TableError (V × V) × Table K V :=
  match h.value t with
  | .error e => (.error e, t)
  | .ok v => (.ok (v, f v), (t.modify h.key f).2)

/-- Replaces the value that the handle names; gives the old one. -/
def setValue [BEq K] (h : EntryHandle K) (t : Table K V) (v : V) :
    Except TableError V × Table K V :=
  match h.modify t fun _ => v with
  | (.error e, t) => (.error e, t)
  | (.ok (old, _), t) => (.ok old, t)

def isLive [BEq K] (h : EntryHandle K) (t : Table K V) : Bool := (h.value t).isOk

end EntryHandle

end FlatTable
