import FlatTable.Config
import FlatTable.Json.Skip
import FlatTable.Json.Value

/-!
# Configurations as JSON text

A configuration is written as a map of its two fields. It is read from a map, where fields may be
missing or unknown but not repeated, or from a sequence of the two values, which may stop early.
-/

namespace FlatTable

def Config.dataText (c : Config) : String :=
  "\x7b\"initial_capacity\":" ++ toString c.initialCapacity ++ ",\"load_factor\":"
    ++ c.loadFactor.dataText ++ "\x7d"

namespace Json

/-- A load factor, rounded once more if it was written with a fraction or an exponent. -/
def loadFactor : Reader LoadFactor := do return ⟨(← number).toSingleBits⟩

/-- The fields read so far. -/
structure ConfigFields where
  capacity : Option Nat := none
  factor : Option LoadFactor := none

/-- The configuration of the fields, with standard values for those that are missing. -/
def ConfigFields.config (fields : ConfigFields) : Config where
  initialCapacity := fields.capacity.getD Config.standard.initialCapacity
  loadFactor := fields.factor.getD Config.standard.loadFactor

/-- The members of a configuration up to the end of the map; each takes at least one character. -/
def configMembers : (fuel : Nat) → (first : Bool) → ConfigFields → Reader ConfigFields
  | 0, _, _ => fail .truncated
  | fuel + 1, first, fields => do
    if !(← nextMember first) then return fields
    advance
    let name ← textBody true
    if name = "initial_capacity" then
      if fields.capacity.isSome then fail (.unsuited .element)
      colon
      let capacity ← natural
      configMembers fuel false { fields with capacity := some capacity }
    else if name = "load_factor" then
      if fields.factor.isSome then fail (.unsuited .element)
      colon
      let factor ← loadFactor
      configMembers fuel false { fields with factor := some factor }
    else
      colon
      skipValue
      configMembers fuel false fields

/-- The elements of a configuration written as a sequence. -/
def configItems : Reader ConfigFields := do
  if !(← nextItem true) then return {}
  let capacity ← natural
  if !(← nextItem false) then return { capacity := some capacity }
  return { capacity := some capacity, factor := some (← loadFactor) }

def config : Reader Config := do
  match ← peek with
  | none => fail .truncated
  | some '[' => do
    advance
    let fields ← configItems
    endSequence
    return fields.config
  | some '{' => do
    advance
    let fields ← configMembers ((← get).length + 1) true {}
    endMap
    return fields.config
  | some _ => refuseElement

end Json

def Config.ofText (text : String) : Except JsonError Config := Json.readAll Json.config text

end FlatTable
