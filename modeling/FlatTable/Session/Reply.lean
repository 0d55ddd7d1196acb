import FlatTable.Persist.Binary
import FlatTable.Persist.Text
import FlatTable.Table.Retain

/-!
# Replies

What a request to a session answers, whichever kind of table it was made of.
-/

namespace FlatTable

/-- Why a request was broken off. -/
inductive Abort
  | missingKey
  | callback
  | inSection
deriving DecidableEq

def Abort.message : Abort → String
  | .missingKey => "key not present in slot table"
  | .callback => "callback panicked"
  | .inSection => "section panicked"

/-- The numbers that describe a table. -/
structure Facts where
  size : Nat
  isEmpty : Bool
  capacity : Nat
  loadFactor : LoadFactor
  maxSize : Nat
  cellCount : Nat

def Table.facts {K V : Type} (t : Table K V) : Facts where
  size := t.size
  isEmpty := t.isEmpty
  capacity := t.capacity
  loadFactor := t.loadFactor
  maxSize := t.maxSize
  cellCount := t.cellCount

/-- The answer to a request. -/
inductive Reply (K V : Type)
  | nothing
  | flag (b : Bool)
  | count (n : Nat)
  | word (w : UInt64)
  | text (s : String)
  | bytes (input : List UInt8)
  | key (k : K)
  | value (v : V)
  | pair (k : K) (v : V)
  | list (replies : List (Reply K V))
  | refused (why : TableError)
  | codecFailed (why : CodecError)
  | jsonFailed (why : JsonError)
  | aborted (why : Abort)
  /-- A value found or stored, and whether its default was asked for. -/
  | obtained (v : V) (called : Bool)
  /-- How often a callback was called. -/
  | calls (n : Nat)
  | detected (k : Option K)
  | swept (sweep : Sweep K V)
  /-- Items yielded, lengths reported, and, of an iterator that can be copied, what a copy yields. -/
  | iterated (items : List (Reply K V)) (lengths : List Nat) (rest : Option (List K))
  | facts (f : Facts)
  | contents (pairs : List (K × V)) (keys : List K) (values : List V) (indexed : List (Nat × K))
  | layout (slots : List (Nat × List K))
  | hashes (content digest : UInt64)
  /-- Pairs met by a parallel walk, and how many more were met than there are. -/
  | met (pairs : List (K × V)) (extra : Nat)
  /-- The request names nothing that is there. -/
  | unknown

namespace Reply

variable {K V : Type}

def value? : Option V → Reply K V
  | none => nothing
  | some v => value v

def pair? : Option (K × V) → Reply K V
  | none => nothing
  | some (k, v) => pair k v

def keys (ks : List K) : Reply K V := list (ks.map key)

def values (vs : List V) : Reply K V := list (vs.map value)

def pairs (ps : List (K × V)) : Reply K V := list (ps.map fun p => pair p.1 p.2)

/-- The answer of a request that may be refused. -/
def ofExcept {α : Type} (reply : α → Reply K V) : Except TableError α → Reply K V
  | .ok a => reply a
  | .error e => refused e

/-- The answer of a filter: done, refused or broken off. -/
def ofWalk {σ : Type} : Except TableError (Walked σ) → Reply K V
  | .ok walked => if walked.aborted then aborted .callback else flag true
  | .error e => refused e

def abort? : Reply K V → Option Abort
  | aborted why => some why
  | _ => none

/--
Answers requests one after the other and lists the replies; a request that is broken off breaks off
the list, and the changes made so far stay.
-/
def sequence {ρ σ : Type} (answer : ρ → σ → Reply K V × σ) (requests : List ρ) (s : σ) :
    Reply K V × σ :=
  go requests s []
where
  /-- Gathers the replies in reverse. -/
  go : List ρ → σ → List (Reply K V) → Reply K V × σ
    | [], s, replies => (list replies.reverse, s)
    | r :: rs, s, replies =>
      let (reply, s) := answer r s
      match reply.abort? with
      | some why => (aborted why, s)
      | none => go rs s (reply :: replies)

end Reply

end FlatTable
