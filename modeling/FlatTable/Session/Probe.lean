import FlatTable.Element.Kinds
import FlatTable.Session.Reply

/-!
# Probes

A probe is a callback given by its parts: which pairs it accepts, by what amount it changes a value
it may change, and at which call it breaks off. Calls are counted from zero.
-/

namespace FlatTable

/--
What a request says by means of the equality of keys and values and of amounts of values, which are
those of the table that answers it.
-/
abbrev OnCall (K V α : Type) : Type := [BEq K] → [BEq V] → [Bump V] → α

/-- Which pairs a probe accepts. -/
inductive ProbeRule (K V : Type)
  | all
  | none
  /-- The calls whose number leaves `remainder` when divided by `modulus`. -/
  | every (modulus remainder : Nat)
  | keys (ks : List K)
  | values (vs : List V)

/-- A callback given by its parts. -/
structure Probe (K V : Type) where
  rule : ProbeRule K V
  inverted : Bool
  abortAt : Option Nat
  bump : Option V

namespace Probe

variable {K V : Type} [BEq K] [BEq V]

/-- Whether the probe accepts on call `i` what it is shown of a pair. -/
def accepts (p : Probe K V) (i : Nat) (k : Option K) (v : Option V) : Bool :=
  let accepted := match p.rule with
    | .all => true
    | .none => false
    | .every modulus remainder => i % modulus == remainder
    | .keys ks => k.any fun k => ks.any (· == k)
    | .values vs => v.any fun v => vs.any (· == v)
  accepted != p.inverted

/-- The callback that gives one verdict on what the probe accepts and another on the rest. -/
def callback [Bump V] (p : Probe K V) (mutable : Bool) (accepted rejected : Verdict) :
    Callback Nat K V := fun i k v =>
  let v := match p.bump with
    | some amount => if mutable then Bump.bump v amount else v
    | none => v
  if p.abortAt = some i then (i + 1, v, .abort)
  else (i + 1, v, if p.accepts i (some k) (some v) then accepted else rejected)

/-- The callback of a filter that may change values. -/
def keeping [Bump V] (p : Probe K V) : Callback Nat K V := p.callback true .keep .remove

/-- The callback of a sweep. -/
def removing [Bump V] (p : Probe K V) : Callback Nat K V := p.callback true .remove .keep

/-- The judge of a filter, who is shown the key or the value of a pair. -/
def judge (p : Probe K V) (i : Nat) (k : Option K) (v : Option V) : Nat × Verdict :=
  (i + 1, if p.abortAt = some i then .abort else if p.accepts i k v then .keep else .remove)

/-- Calls are counted, and a call may break off. -/
abbrev Calls := StateT Nat (Except Abort)

/-- The condition on keys, as a function that counts its calls. -/
def onKey (p : Probe K V) (k : K) : Calls Bool := do
  let i ← get
  set (i + 1)
  if p.abortAt = some i then throw .callback
  return p.accepts i (some k) none

end Probe

end FlatTable
