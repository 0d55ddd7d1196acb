import FlatTable.LoadFactor

/-!
# What a table operation can refuse

Each constructor is a cause, and `message` is the one place that words it.
-/

namespace FlatTable

/-- Why an argument is refused. -/
inductive BadArgument
  | loadFactor (given : LoadFactor)
  | capacity (given limit : Nat)
  | tooManyPairs (count : Nat)
  | noSections
  | sectionIndex (index count : Nat)
deriving DecidableEq

inductive TableError
  | invalidArgument (why : BadArgument)
  | exhausted
  | invalidCursorState
  | unsupportedMutation
  | staleView
  | staleEntry
  | wrongTable
  | corruptPersistedForm (declared actual : Nat)
deriving DecidableEq

def BadArgument.reason : BadArgument → String
  | .loadFactor given =>
    "load factor must be finite and at least " ++ LoadFactor.least.messageText
      ++ ", got " ++ given.messageText
  | .capacity given limit => s!"initial capacity {given} exceeds {limit}"
  | .tooManyPairs count => s!"{count} pairs exceed the maximum capacity"
  | .noSections => "section count must be positive"
  | .sectionIndex index count => s!"section index {index} out of range for {count} sections"

def TableError.message : TableError → String
  | .invalidArgument why => "invalid argument: " ++ why.reason
  | .exhausted => "cursor exhausted: no more pairs to visit"
  | .invalidCursorState => "invalid cursor state: remove requires a preceding next"
  | .unsupportedMutation => "unsupported mutation through a read-only view"
  | .staleView => "scoped view used after its critical section ended"
  | .staleEntry => "entry handle is stale"
  | .wrongTable => "entry handle belongs to a different table"
  | .corruptPersistedForm declared actual =>
    s!"corrupt persisted form: declared {declared} pairs, found {actual}"

end FlatTable
