/-!
# Traversal of containers

A container offers its elements in one of three ways: as one run of memory, by index, or one after
the other. All functions here go through `drive`, which visits the elements in order with their
indices in whichever way the container chose, so a callback of any monad sees the same calls.
-/

namespace FlatTable.Traversal

universe u

/-- Containers of at least this many elements offer them as one run, if they have one. -/
def directThreshold : Nat := 100

/-- How a container offers its elements. -/
inductive Strategy (α : Type u)
  | contiguous (items : Array α)
  | indexed (size : Nat) (item : Nat → Option α)
  | cursor (items : List α)

class Enumerable (γ : Type u) (α : outParam (Type u)) where
  strategy : γ → Strategy α

class RandomAccess (γ : Type u) (α : outParam (Type u)) where
  size : γ → Nat
  item : γ → Nat → Option α

section

variable {α β γ : Type} {m : Type → Type} [Monad m]

/-- Visits the elements of a run from index `i` on. -/
def driveRun (step : β → Nat → α → m (ForInStep β)) (items : Array α) (i : Nat) (b : β) : m β :=
  if h : i < items.size then do
    match ← step b i items[i] with
    | .done b => return b
    | .yield b => driveRun step items (i + 1) b
  else return b
termination_by items.size - i

/-- Visits `left` elements by index from `i` on. -/
def driveIndexed (step : β → Nat → α → m (ForInStep β)) (item : Nat → Option α) :
    (left i : Nat) → β → m β
  | 0, _, b => return b
  | left + 1, i, b =>
    match item i with
    | none => return b
    | some a => do
      match ← step b i a with
      | .done b => return b
      | .yield b => driveIndexed step item left (i + 1) b

/-- Visits elements one after the other, counting from `i`. -/
def driveList (step : β → Nat → α → m (ForInStep β)) : List α → (i : Nat) → β → m β
  | [], _, b => return b
  | a :: items, i, b => do
    match ← step b i a with
    | .done b => return b
    | .yield b => driveList step items (i + 1) b

/-- Visits the elements in order with their indices until a step says that it is done. -/
def drive [Enumerable γ α] (source : γ) (start : β) (step : β → Nat → α → m (ForInStep β)) : m β :=
  match Enumerable.strategy source with
  | .contiguous items => driveRun step items 0 start
  | .indexed size item => driveIndexed step item size 0 start
  | .cursor items => driveList step items 0 start

def forEach [Enumerable γ α] (source : γ) (f : α → m Unit) : m Unit :=
  drive source () fun _ _ a => do
    f a
    return .yield ()

def forEachWithIndex [Enumerable γ α] (source : γ) (f : α → Nat → m Unit) : m Unit :=
  drive source () fun _ i a => do
    f a i
    return .yield ()

/-- The results of a function on every element. -/
def collect [Enumerable γ α] (source : γ) (f : α → m β) : m (Array β) :=
  drive source #[] fun out _ a => return .yield (out.push (← f a))

def select [Enumerable γ α] (source : γ) (p : α → m Bool) : m (Array α) :=
  drive source #[] fun out _ a => return .yield (if ← p a then out.push a else out)

def reject [Enumerable γ α] (source : γ) (p : α → m Bool) : m (Array α) :=
  select source fun a => return !(← p a)

/-- The first element that satisfies a condition; none after it is looked at. -/
def detect [Enumerable γ α] (source : γ) (p : α → m Bool) : m (Option α) :=
  drive source none fun _ _ a => return if ← p a then .done (some a) else .yield none

def anySatisfy [Enumerable γ α] (source : γ) (p : α → m Bool) : m Bool :=
  return (← detect source p).isSome

def allSatisfy [Enumerable γ α] (source : γ) (p : α → m Bool) : m Bool :=
  return (← detect source fun a => return !(← p a)).isNone

/-- The number of elements that satisfy a condition. -/
def count [Enumerable γ α] (source : γ) (p : α → m Bool) : m Nat :=
  drive source 0 fun n _ a => return .yield (if ← p a then n + 1 else n)

/-- Combines all elements with an accumulator, from the first on. -/
def injectInto [Enumerable γ α] (start : β) (source : γ) (f : β → α → m β) : m β :=
  drive source start fun acc _ a => return .yield (← f acc a)

end

end FlatTable.Traversal
