import FlatTable.Error
import FlatTable.Numeric.Double
import FlatTable.Text.Quoted

/-!
# Reading JSON text

A reader takes what it needs from the front of the text and leaves the rest, so the first problem
from left to right decides the error: the text ends early, it is not JSON, or it is JSON of a kind
that does not suit. This module holds the errors, the elementary readers and the punctuation of
sequences; `Json.Number`, `Json.Text` and `Json.Skip` hold the grammar of single values.
-/

namespace FlatTable

/-- What a persisted table must be, in the words of an error. -/
inductive Expected
  | parts
  | persistedTable
deriving DecidableEq

def Expected.text : Expected → String
  | .parts => "a sequence of pair count, load factor and key/value pairs"
  | .persistedTable => "a persisted slot table"

namespace Json

/-- A value that was found where another kind of value must stand. -/
inductive Found
  | null
  | boolean (b : Bool)
  | natural (n : Nat)
  | negative (n : Nat)
  | real (x : Double)
  | text (s : String)
  | sequence
  | map

def Found.wording : Found → String
  | .null => "null"
  | .boolean b => s!"boolean \x60{b}\x60"
  | .natural n => s!"integer \x60{n}\x60"
  | .negative n => s!"integer \x60-{n}\x60"
  | .real x => "floating point \x60" ++ x.dataText ++ "\x60"
  | .text s => "string " ++ Text.listingQuoted s
  | .sequence => "sequence"
  | .map => "map"

/-- Why well-formed text does not suit. -/
inductive Unsuited
  /-- An element of the wrong kind, out of range, missing or given twice. -/
  | element
  | header (count : Nat)
  /-- Something else in the place of a persisted table. -/
  | notASequence (found : Found)
  | refused (why : TableError)

end Json

/-- What went wrong in reading JSON text. -/
inductive JsonError
  | truncated
  | malformed
  /-- The text is JSON, but not for what is read. -/
  | unsuited (why : Json.Unsuited)

/-- The message of an error about the persisted table as a whole; others have none. -/
def JsonError.message? : JsonError → Option String
  | .unsuited (.header count) => some s!"invalid length {count}, expected {Expected.parts.text}"
  | .unsuited (.notASequence found) =>
    some s!"invalid type: {found.wording}, expected {Expected.parts.text}"
  | .unsuited (.refused why) => some why.message
  | _ => none

namespace Json

/-- Takes a value from the front of the text. -/
abbrev Reader := StateT (List Char) (Except JsonError)

def fail {α : Type} (e : JsonError) : Reader α := fun _ => .error e

/-- The blanks that may stand between values. -/
def isBlank (c : Char) : Bool := c == ' ' || c == '\n' || c == '\t' || c == '\r'

/-- The next character after blanks, left in place. -/
def peek : Reader (Option Char) := fun cs =>
  let rest := cs.dropWhile isBlank
  .ok (rest.head?, rest)

def advance : Reader Unit := modify List.tail

/-- Takes the given letters, which complete a keyword. -/
def keyword : List Char → Reader Unit
  | [] => pure ()
  | c :: cs => do
    match ← get with
    | [] => fail .truncated
    | d :: rest => if c = d then set rest; keyword cs else fail .malformed

/-- Whether a sequence has another element, which then stands next. -/
def nextItem (first : Bool) : Reader Bool := do
  match ← peek with
  | none => fail .truncated
  | some ']' => return false
  | some c =>
    if first then return true
    else if c ≠ ',' then fail .malformed
    else
      advance
      match ← peek with
      | none => fail .truncated
      | some ']' => fail .malformed
      | some _ => return true

/-- Takes the end of a sequence whose elements have all been read. -/
def endSequence : Reader Unit := do
  match ← peek with
  | none => fail .truncated
  | some ']' => advance
  | some _ => fail .malformed

/-- Whether a map has another member, whose key then stands next. -/
def nextMember (first : Bool) : Reader Bool := do
  match ← peek with
  | none => fail .truncated
  | some '}' => return false
  | some c =>
    if first then
      if c = '"' then return true else fail .malformed
    else if c ≠ ',' then fail .malformed
    else
      advance
      match ← peek with
      | none => fail .truncated
      | some '"' => return true
      | some _ => fail .malformed

/-- Takes the end of a map whose members have all been read. -/
def endMap : Reader Unit := do
  match ← peek with
  | none => fail .truncated
  | some '}' => advance
  | some _ => fail .malformed

def colon : Reader Unit := do
  match ← peek with
  | none => fail .truncated
  | some ':' => advance
  | some _ => fail .malformed

/-- Nothing but blanks may follow a complete value. -/
def endText : Reader Unit := do
  match ← peek with
  | none => return
  | some _ => fail .malformed

end Json

end FlatTable
