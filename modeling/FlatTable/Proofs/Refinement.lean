import FlatTable.Proofs.Operations
import FlatTable.Proofs.Walk

/-!
# Tables refine association lists

A run of map operations on a table is matched step by step by one on an association list in which keys are told apart as the table tells them apart. Only walks depend on the order of the pairs, which is the table's own; everything else answers from the pairs alone.
-/

namespace FlatTable

universe u v w

variable {K : Type u} {V : Type v} {σ : Type w}

/-- An operation of a map. The state that callbacks carry through a walk is of type `σ`. -/
inductive MapOp (σ : Type w) (K : Type u) (V : Type v)
  | insert (k : K) (v : V)
  | extend (pairs : List (K × V))
  /-- A default that is `none` aborts. -/
  | getOrInsert (k : K) (default : Option V)
  | get (k : K)
  | getEntry (k : K)
  | contains (k : K)
  | modify (k : K) (f : V → V)
  | remove (k : K)
  | removeEntry (k : K)
  | retain (f : Callback σ K V) (s : σ)
  /-- A walk of a cursor over all pairs, which removes those that the callback says. -/
  | sweep (f : Callback σ K V) (s : σ)
  | clear

inductive MapAnswer (σ : Type w) (K : Type u) (V : Type v)
  | done
  | value (v : Option V)
  | entry (entry : Option (K × V))
  | flag (b : Bool)
  /-- The value that was found or stored, and whether the default was asked for. -/
  | obtained (v : Option V) (called : Bool)
  | aborted
  | walked (walked : Walked σ)
  | swept (sweep : Option (Sweep K V))

namespace MapOp

/-- Whether pairs are met one after the other. -/
def isWalk : MapOp σ K V → Bool
  | retain _ _ | sweep _ _ => true
  | _ => false

/-- The operation on a table. -/
def onTable [BEq K] : MapOp σ K V → Table K V → MapAnswer σ K V × Table K V
  | insert k v, t =>
    let (old, t) := t.insert k v
    (.value old, t)
  | extend pairs, t => (.done, t.extend pairs)
  | getOrInsert k default, t =>
    match t.getOrInsert k default with
    | (.found loc, t) => (.obtained ((t.bucketAt? loc).map (·.value)) false, t)
    | (.inserted loc, t) => (.obtained ((t.bucketAt? loc).map (·.value)) true, t)
    | (.aborted, t) => (.aborted, t)
  | get k, t => (.value (t.get? k), t)
  | getEntry k, t => (.entry (t.getEntry? k), t)
  | contains k, t => (.flag (t.contains k), t)
  | modify k f, t =>
    let (v, t) := t.modify k f
    (.value v, t)
  | remove k, t =>
    let (v, t) := t.remove k
    (.value v, t)
  | removeEntry k, t =>
    let (entry, t) := t.removeEntry k
    (.entry entry, t)
  | retain f s, t =>
    let (walked, t) := t.retain f s
    (.walked walked, t)
  | sweep f s, t =>
    let (report, c) := (Cursor.start t).sweep f s
    (.swept report, c.table)
  | clear, t => (.done, t.clear)

/-- The operation on an association list. A walk meets the pairs in the order of the list. -/
def onMap (same : K → K → Bool) : MapOp σ K V → PairMap K V → MapAnswer σ K V × PairMap K V
  | insert k v, m => (.value ((m.find? same k).map Prod.snd), m.insert same k v)
  | extend pairs, m => (.done, pairs.foldl (fun m p => m.insert same p.1 p.2) m)
  | getOrInsert k default, m =>
    match m.find? same k, default with
    | some p, _ => (.obtained (some p.2) false, m)
    | none, some v => (.obtained (some v) true, m.insert same k v)
    | none, none => (.aborted, m)
  | get k, m => (.value ((m.find? same k).map Prod.snd), m)
  | getEntry k, m => (.entry (m.find? same k), m)
  | contains k, m => (.flag (m.find? same k).isSome, m)
  | modify k f, m => (.value ((m.find? same k).map fun p => f p.2), m.modify same k f)
  | remove k, m => (.value ((m.find? same k).map Prod.snd), m.erase same k)
  | removeEntry k, m => (.entry (m.find? same k), m.erase same k)
  | retain f s, m =>
    let r := visit f s m.pairs
    (.walked r.walked, ⟨r.left⟩)
  | sweep f s, m =>
    let r := visit f s m.pairs
    (.swept r.sweep?, ⟨r.left⟩)
  | clear, _ => (.done, {})

/-- What an association list may answer, and the list afterwards: before a walk its pairs may be put in another order. -/
def Allows (same : K → K → Bool) (op : MapOp σ K V) (m : PairMap K V) (answer : MapAnswer σ K V)
    (m' : PairMap K V) : Prop :=
  ∃ pairs, pairs.Perm m.pairs ∧ (op.isWalk = false → pairs = m.pairs) ∧ op.onMap same ⟨pairs⟩ = (answer, m')

/-- The table after some operations. -/
def runTable [BEq K] (ops : List (MapOp σ K V)) (t : Table K V) : Table K V :=
  ops.foldl (fun t op => (op.onTable t).2) t

end MapOp

namespace Table

variable [BEq K]

/-- A table and an association list with distinct keys hold the same pairs. -/
structure Matches (same : K → K → Bool) (t : Table K V) (m : PairMap K V) : Prop where
  size_eq : t.size = m.size
  perm : t.toList.Perm m.pairs
  distinct : PairMap.Distinct same m.pairs

/-- A run on a table is matched by one on an association list: before and after each operation both hold the same pairs, and each operation gives the same answer. -/
def Refines (same : K → K → Bool) : List (MapOp σ K V) → Table K V → PairMap K V → Prop
  | [], t, m => t.Matches same m
  | op :: ops, t, m => t.Matches same m ∧
    ∃ m', op.Allows same m (op.onTable t).1 m' ∧ Refines same ops (op.onTable t).2 m'

variable [EquivBEq K]

theorem matches_of_models {t : Table K V} {m : PairMap K V} (h : t.Models m) : t.Matches (sameKey t.hash) m :=
  ⟨size_eq_of_models h, h.perm, distinct_of_models h⟩

theorem keeps_onTable (op : MapOp σ K V) (t : Table K V) : t.Keeps (op.onTable t).2 := by
  cases op with
  | insert k v => exact keeps_insert t k v
  | extend pairs => exact keeps_extend t pairs
  | getOrInsert k default =>
    have hkeeps := keeps_getOrInsert t k default
    rw [MapOp.onTable]
    rcases hobtained : t.getOrInsert k default with ⟨loc | loc | -, u⟩ <;> rw [hobtained] at hkeeps <;> exact hkeeps
  | get k => exact Keeps.refl t
  | getEntry k => exact Keeps.refl t
  | contains k => exact Keeps.refl t
  | modify k f => exact keeps_modify t k f
  | remove k => exact keeps_remove t k
  | removeEntry k => exact keeps_removeEntry t k
  | retain f s => exact keeps_retain t f s
  | sweep f s => exact Cursor.keeps_sweep (.start t) f s
  | clear => exact keeps_clear t

theorem models_getOrInsert {t : Table K V} {m : PairMap K V} (h : t.Models m) (k : K) (default : Option V) :
    ((MapOp.getOrInsert k default : MapOp σ K V).onTable t).1 =
        ((MapOp.getOrInsert k default : MapOp σ K V).onMap (sameKey t.hash) m).1 ∧
      ((MapOp.getOrInsert k default : MapOp σ K V).onTable t).2.Models
        ((MapOp.getOrInsert k default : MapOp σ K V).onMap (sameKey t.hash) m).2 := by
  rcases hfind : m.find? (sameKey t.hash) k with - | p
  · cases default with
    | none =>
      obtain ⟨u, hobtained, hmodels⟩ := getOrInsert_aborted h hfind
      simp only [MapOp.onTable, MapOp.onMap, hobtained, hfind]
      exact ⟨trivial, hmodels⟩
    | some v =>
      obtain ⟨loc, b, u, hobtained, hb, hpair, hmodels⟩ := getOrInsert_of_find?_eq_none h hfind v
      obtain ⟨-, rfl⟩ := Prod.mk.inj hpair
      simp only [MapOp.onTable, MapOp.onMap, hobtained, hfind, hb]
      exact ⟨rfl, hmodels⟩
  · obtain ⟨loc, b, hobtained, hb, rfl⟩ := getOrInsert_of_find? h hfind default
    simp only [MapOp.onTable, MapOp.onMap, hobtained, hfind, hb]
    exact ⟨rfl, h⟩

/-- Each operation answers as the association list may, and leaves the same pairs. -/
theorem models_onTable {t : Table K V} {m : PairMap K V} (h : t.Models m) (op : MapOp σ K V) :
    ∃ m', op.Allows (sameKey t.hash) m (op.onTable t).1 m' ∧ (op.onTable t).2.Models m' := by
  -- Outside of walks it is the list as it stands that answers.
  have inPlace (answer : MapAnswer σ K V) (m' : PairMap K V) (hop : op.onMap (sameKey t.hash) m = (answer, m'))
      (hanswer : (op.onTable t).1 = answer) (hmodels : (op.onTable t).2.Models m') :
      ∃ m', op.Allows (sameKey t.hash) m (op.onTable t).1 m' ∧ (op.onTable t).2.Models m' :=
    ⟨m', ⟨m.pairs, List.Perm.refl _, fun _ => rfl, by rw [hop, hanswer]⟩, hmodels⟩
  cases op with
  | insert k v =>
    obtain ⟨hold, hmodels⟩ := models_insert h k v
    exact inPlace _ _ rfl (congrArg MapAnswer.value hold) hmodels
  | extend pairs => exact inPlace _ _ rfl rfl (models_extend h pairs)
  | getOrInsert k default =>
    obtain ⟨hobtained, hmodels⟩ := models_getOrInsert h k default
    exact inPlace _ _ rfl hobtained hmodels
  | get k => exact inPlace _ _ rfl (congrArg MapAnswer.value (get?_eq h k)) h
  | getEntry k => exact inPlace _ _ rfl (congrArg MapAnswer.entry (getEntry?_eq h k)) h
  | contains k => exact inPlace _ _ rfl (congrArg MapAnswer.flag (contains_eq h k)) h
  | modify k f =>
    obtain ⟨hvalue, hmodels⟩ := models_modify h k f
    exact inPlace _ _ rfl (congrArg MapAnswer.value hvalue) hmodels
  | remove k =>
    obtain ⟨hvalue, hmodels⟩ := models_remove h k
    exact inPlace _ _ rfl (congrArg MapAnswer.value hvalue) hmodels
  | removeEntry k =>
    obtain ⟨hentry, hmodels⟩ := models_removeEntry h k
    exact inPlace _ _ rfl (congrArg MapAnswer.entry hentry) hmodels
  | retain f s =>
    obtain ⟨pairs, hperm, hwalked, hleft⟩ := retain_eq_visit h.layout f s
    refine ⟨⟨(visit f s pairs).left⟩, ⟨pairs, hperm.trans h.perm, by simp [MapOp.isWalk], ?_⟩,
      (keeps_retain t f s).layout h.layout, hleft⟩
    exact congrArg (fun w => (MapAnswer.walked w, PairMap.mk (visit f s pairs).left)) hwalked.symm
  | sweep f s =>
    obtain ⟨pairs, hperm, hreport, hlayout, hleft⟩ := Cursor.sweep_eq_visit h.layout f s
    refine ⟨⟨(visit f s pairs).left⟩, ⟨pairs, hperm.trans h.perm, by simp [MapOp.isWalk], ?_⟩, hlayout, hleft⟩
    exact congrArg (fun r => (MapAnswer.swept r, PairMap.mk (visit f s pairs).left)) hreport.symm
  | clear =>
    refine inPlace .done {} rfl rfl ⟨(keeps_clear t).layout h.layout, ?_⟩
    change t.clear.toList.Perm []
    rw [toList, buckets_clear]
    rfl

/-- A table refines every association list of its pairs. -/
theorem refines_of_models (ops : List (MapOp σ K V)) {t : Table K V} {m : PairMap K V} (h : t.Models m) :
    t.Refines (sameKey t.hash) ops m := by
  induction ops generalizing t m with
  | nil => exact matches_of_models h
  | cons op ops ih =>
    obtain ⟨m', hallows, hmodels⟩ := models_onTable h op
    have hrest := ih hmodels
    rw [(keeps_onTable op t).hash] at hrest
    exact ⟨matches_of_models h, m', hallows, hrest⟩

theorem keeps_runTable (ops : List (MapOp σ K V)) (t : Table K V) : t.Keeps (MapOp.runTable ops t) := by
  induction ops generalizing t with
  | nil => exact Keeps.refl t
  | cons op ops ih => exact (keeps_onTable op t).trans (ih (op.onTable t).2)

/-- Storing under a key that is present gives back the old value and replaces it, and the stored key stays. -/
theorem insert_of_getEntry? {t : Table K V} (h : t.LayoutInvariant) {k : K} {p : K × V} (hp : t.getEntry? k = some p)
    (v : V) : (t.insert k v).1 = some p.2 ∧ (t.insert k v).2.size = t.size ∧
      getEntry? (t.insert k v).2 k = some (p.1, v) ∧ ((t.insert k v).2.removeEntry k).1 = some (p.1, v) := by
  have hmodels := models_toList h
  rw [getEntry?_eq hmodels] at hp
  obtain ⟨hold, hmodels'⟩ := models_insert hmodels k v
  have hsame : sameKey (t.insert k v).2.hash = sameKey t.hash := congrArg sameKey (keeps_insert t k v).hash
  rw [PairMap.insert_of_any (PairMap.any_of_find? hp)] at hmodels'
  have hfind := PairMap.find?_modify_of_find? (sameKey_equivalence t.hash) (distinct_of_models hmodels) hp fun _ => v
  refine ⟨by rw [hold, hp]; rfl, ?_, ?_, ?_⟩
  · rw [size_eq_of_models hmodels', size_eq_of_models hmodels, PairMap.size_modify]
  · rw [getEntry?_eq hmodels', hsame, hfind]
  · rw [(models_removeEntry hmodels' k).1, hsame, hfind]

/-- A table that was made with any valid configuration and hash function refines the empty association list. -/
theorem create_refines (hash : K → UInt64) {config : Config} (hvalid : config.validate = .ok ()) (id : Nat) :
    ∃ t : Table K V, create hash config id = .ok t ∧ ∀ ops : List (MapOp σ K V),
      t.Refines (sameKey hash) ops {} ∧
      ((∀ a b, (a == b) = true → hash a = hash b) → t.Refines (fun a b => a == b) ops {}) ∧
      ∀ k p v, getEntry? (MapOp.runTable ops t) k = some p →
        ((MapOp.runTable ops t).insert k v).1 = some p.2 ∧
        ((MapOp.runTable ops t).insert k v).2.size = (MapOp.runTable ops t).size ∧
        getEntry? ((MapOp.runTable ops t).insert k v).2 k = some (p.1, v) ∧
        (((MapOp.runTable ops t).insert k v).2.removeEntry k).1 = some (p.1, v) := by
  refine ⟨build hash config id, by rw [create, hvalid], fun ops => ?_⟩
  have hmodels : (build hash config id : Table K V).Models {} := models_build hash config id
  have hrefines := refines_of_models ops hmodels
  refine ⟨hrefines, fun hhash => ?_, fun k p v hp => ?_⟩
  · rwa [← sameKey_eq_beq hhash]
  · exact insert_of_getEntry? ((keeps_runTable ops _).layout hmodels.layout) hp v

/-- Keys that all collide, with a walk between the changes. -/
theorem create_refines_colliding : Config.standard.validate = .ok () ∧
    ∃ t : Table Nat Nat, create (fun _ => 7) .standard 0 = .ok t ∧
      t.Refines (σ := Unit) (sameKey fun _ => 7)
        [.extend [(1, 10), (2, 20), (3, 30)], .retain (fun s k v => (s, v, if k = 1 then .remove else .keep)) (),
          .insert 2 21, .removeEntry 2, .get 3] {} := by
  have hvalid : Config.standard.validate = .ok () := by decide
  obtain ⟨t, hcreate, hruns⟩ := create_refines (σ := Unit) (V := Nat) (fun _ : Nat => 7) hvalid 0
  exact ⟨hvalid, t, hcreate, (hruns _).1⟩

end Table

end FlatTable
