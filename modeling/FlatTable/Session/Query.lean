import FlatTable.Session.Probe
import FlatTable.Table.Batch
import FlatTable.Table.Handle
import FlatTable.Table.Iter

/-!
# Requests that only read a table
-/

namespace FlatTable

/-- A request that leaves the table as it is. -/
inductive Query (K V : Type)
  | get (k : K)
  | getEntry (k : K)
  | contains (k : K)
  /-- The value of a key that must be there. -/
  | index (k : K)
  | facts
  | hashOf (k : K)
  | containsValue (v : V)
  | listing (isSpread : Bool)
  | equalsPairs (pairs : List (K × V))
  | hashes
  | contents
  | layout
  | sectionCount (target : Nat)
  | sectionPairs (index count : Nat)
  | sections (count : Nat)
  | parallel
  | dataText
  | bytes
  | bytesInto (room : Option Nat)

namespace Query

variable {K V : Type} [KeyKind K] [ValueKind V]

def workers : Nat := 4

/-- Keys that an ordinary map under a hasher takes for one: equal, and with hashes of one tag. -/
def sameKey (h : Hasher) (a b : K) : Bool := a == b && hashTag (h.on a) == hashTag (h.on b)

/-- The pairs that a parallel walk meets, against those that there are. -/
def parallelReply (t : Table K V) : Reply K V :=
  let met := t.parallelPairs workers (List.range workers)
  .met met (met.length - t.size)

/-- What a callback is shown by each of the walks over all pairs. -/
def shown (t : Table K V) : Reply K V :=
  let gather {α : Type} (walk : StateM (Array α) PUnit) : List α := (walk.run #[]).2.toList
  .contents (gather (t.forEach fun k v => modify (·.push (k, v))))
    (gather (t.forEach fun k _ => modify (·.push k)))
    (gather (t.forEach fun _ v => modify (·.push v)))
    (gather (t.forEachWithIndex fun k _ i => modify (·.push (i, k))))

/-- Answers a request; ordinary maps that the table is compared with use the given hasher. -/
def answer (standard : Hasher) (t : Table K V) : Query K V → Reply K V
  | get k => .value? (t.get? k)
  | getEntry k => .pair? (t.getEntry? k)
  | contains k => .flag (t.contains k)
  | index k => match t.get? k with
    | some v => .value v
    | none => .aborted .missingKey
  | facts => .facts t.facts
  | hashOf k => .word (t.hash k)
  | containsValue v => .flag (t.containsValue v)
  | listing isSpread => .text (t.listing isSpread)
  | equalsPairs pairs => .flag (t.equalsMap (sameKey standard) (.ofList (sameKey standard) pairs))
  | hashes => .hashes t.contentSum t.digest
  | contents => shown t
  | layout => .layout t.layout
  | sectionCount target => .count (t.sectionCount target)
  | sectionPairs i n => .ofExcept .pairs (t.sectionPairs i n)
  | sections n => .list ((t.sections n).map fun ps => .keys (ps.map Prod.fst))
  | parallel => parallelReply t
  | dataText => .text t.dataText
  | bytes => .bytes t.encode
  | bytesInto room => match t.encodeInto room with
    | .ok input => .bytes input
    | .error e => .codecFailed e

end Query

end FlatTable
