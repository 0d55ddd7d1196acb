import FlatTable.Table.Journal

/-!
# Rebuilding a table from its persisted parts

A persisted table is a pair count, a load factor and the pairs. The count serves twice: the slot
array is made ready for that many pairs, and in the end it must agree with the pairs read and with
the distinct keys among them.
-/

namespace FlatTable

/-- Pairs made ready for when nothing but the declared count is known. -/
def presizeLimit : Nat := twoPow 16

/--
The number of pairs to make ready for: the declared one, but no more than the number of elements
that are said to come, less the two of the header.
-/
def presize (declared : Nat) (hint : Option Nat) : Nat :=
  min declared (match hint with
    | none => presizeLimit
    | some n => n - 2)

/-- Both the number of pairs and that of distinct keys must be the declared one. -/
def checkCount (declared actual distinct : Nat) : Except TableError Unit :=
  if actual ≠ declared then .error (.corruptPersistedForm declared actual)
  else if distinct ≠ declared then .error (.corruptPersistedForm declared distinct)
  else .ok ()

variable {K V ε : Type}

/-- An empty table made ready for so many pairs. -/
def Table.readyFor (hash : K → UInt64) (count : Nat) (lf : LoadFactor) (id : Nat) :
    Except TableError (Table K V) := do
  Table.create hash (← Config.forPersisted count lf) id

def Table.ofPersisted [BEq K] (hash : K → UInt64) (declared : Nat) (lf : LoadFactor)
    (pairs : List (K × V)) (id : Nat) : Except TableError (Table K V) := do
  let t := (← Table.readyFor hash declared lf id).extend pairs
  checkCount declared pairs.length t.size
  return t

/-- The journal of storing pairs in a table made ready for so many. -/
def readyForEvents [BEq K] (hash : K → UInt64) (count : Nat) (lf : LoadFactor)
    (pairs : List (K × V)) : List Event :=
  match Table.readyFor hash count lf 0 with
  | .error _ => []
  | .ok t => t.extendEvents pairs

/-- A persisted table as far as it could be read. -/
structure Form (K V ε : Type) where
  declared : Nat
  loadFactor : LoadFactor
  pairs : List (K × V)
  /-- What ended the pairs before their time. -/
  broken : Option ε
  /-- What follows a complete form and should not. -/
  trailing : Option ε

namespace Form

/--
Builds the table while the form is read: a bad load factor is reported before the pairs are looked
at, a broken pair before their number, and what follows last.
-/
def build [BEq K] (form : Form K V ε) (refused : TableError → ε) (hash : K → UInt64)
    (hint : Option Nat) (id : Nat) : Except ε (Table K V) := do
  let ready := Table.readyFor hash (presize form.declared hint) form.loadFactor id
  let t := (← ready.mapError refused).extend form.pairs
  if let some e := form.broken then throw e
  (checkCount form.declared form.pairs.length t.size).mapError refused
  if let some e := form.trailing then throw e
  return t

/-- The journal of building the table while the form is read. -/
def events [BEq K] (form : Form K V ε) (hash : K → UInt64) (hint : Option Nat) : List Event :=
  readyForEvents hash (presize form.declared hint) form.loadFactor form.pairs

end Form

end FlatTable
