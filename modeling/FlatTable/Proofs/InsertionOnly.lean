import FlatTable.Proofs.InsertionOrder
import FlatTable.Proofs.Refinement

/-!
# Runs that take nothing out

A run of operations that only look up, store and overwrite leaves the pairs in the order in which their keys were first stored, and the slots are read off that order. The starting capacity, the load factor, the moments at which the array was doubled and the operation by which a key was stored leave no trace beyond the final capacity.
-/

namespace FlatTable

universe u v w

variable {K : Type u} {V : Type v} {σ : Type w}

namespace MapOp

/-- Whether pairs may be taken out. -/
def takesOut : MapOp σ K V → Bool
  | remove _ | removeEntry _ | retain _ _ | sweep _ _ | clear => true
  | _ => false

/-- The keys that are stored if they are absent. An aborted default stores none. -/
def storedKeys : MapOp σ K V → List K
  | insert k _ | getOrInsert k (some _) => [k]
  | extend pairs => pairs.map Prod.fst
  | _ => []

/-- The association list after some operations. -/
def runMap (same : K → K → Bool) (ops : List (MapOp σ K V)) (m : PairMap K V) : PairMap K V :=
  ops.foldl (fun m op => (op.onMap same m).2) m

end MapOp

/-! ### The keys of an association list -/

namespace PairMap

variable {same : K → K → Bool} (hsame : Equivalence fun a b => same a b = true)

theorem keys_modify (m : PairMap K V) (k : K) (f : V → V) :
    (m.modify same k f).pairs.map Prod.fst = m.pairs.map Prod.fst := by
  rw [modify, List.map_map]
  apply List.map_congr_left
  intro p _
  rw [Function.comp_apply]
  split <;> rfl

include hsame

/-- Inserting keeps a key out if the same key is there, as erasing duplicates does. -/
theorem loop_insert (m : PairMap K V) (k : K) (v : V) (ks : List K) :
    List.eraseDupsBy.loop same (k :: ks) (m.pairs.map Prod.fst).reverse =
      List.eraseDupsBy.loop same ks ((m.insert same k v).pairs.map Prod.fst).reverse := by
  have hany : (m.pairs.map Prod.fst).reverse.any (same k) = m.pairs.any fun p => same p.1 k := by
    rw [List.any_reverse, List.any_map]
    congr 1
    funext p
    exact same_comm hsame k p.1
  rw [List.eraseDupsBy.loop, hany]
  rcases hfound : m.pairs.any fun p => same p.1 k with - | -
  · have hnone : ∀ p ∈ m.pairs, same p.1 k = false := by simpa using hfound
    rw [insert_of_not_any hnone, List.map_append, List.reverse_append]
    rfl
  · rw [insert_of_any hfound, keys_modify]

theorem loop_foldl_insert (pairs : List (K × V)) (m : PairMap K V) (ks : List K) :
    List.eraseDupsBy.loop same (pairs.map Prod.fst ++ ks) (m.pairs.map Prod.fst).reverse =
      List.eraseDupsBy.loop same ks
        ((pairs.foldl (fun m p => m.insert same p.1 p.2) m).pairs.map Prod.fst).reverse := by
  induction pairs generalizing m with
  | nil => rfl
  | cons p pairs ih => exact (loop_insert hsame m p.1 p.2 _).trans (ih _)

theorem loop_onMap {op : MapOp σ K V} (hop : op.takesOut = false) (m : PairMap K V) (ks : List K) :
    List.eraseDupsBy.loop same (op.storedKeys ++ ks) (m.pairs.map Prod.fst).reverse =
      List.eraseDupsBy.loop same ks ((op.onMap same m).2.pairs.map Prod.fst).reverse := by
  cases op with
  | insert k v => exact loop_insert hsame m k v ks
  | extend pairs => exact loop_foldl_insert hsame pairs m ks
  | getOrInsert k default =>
    rcases hfind : m.find? same k with - | p <;> rcases default with - | v <;> simp only [MapOp.onMap, hfind]
    · rfl
    · exact loop_insert hsame m k v ks
    · rfl
    · have hstored := loop_insert hsame m k v ks
      rwa [insert_of_any (any_of_find? hfind), keys_modify] at hstored
  | get k => rfl
  | getEntry k => rfl
  | contains k => rfl
  | modify k f =>
    simp only [MapOp.onMap, keys_modify]
    rfl
  | remove k => cases hop
  | removeEntry k => cases hop
  | retain f s => cases hop
  | sweep f s => cases hop
  | clear => cases hop

/-- What was stored without taking anything out: the distinct keys in the order in which they were first stored. -/
theorem keys_runMap {ops : List (MapOp σ K V)} (hops : ∀ op ∈ ops, op.takesOut = false) :
    (MapOp.runMap same ops {}).pairs.map Prod.fst = (ops.flatMap MapOp.storedKeys).eraseDupsBy same := by
  have hrun : ∀ m : PairMap K V, List.eraseDupsBy.loop same (ops.flatMap MapOp.storedKeys) (m.pairs.map Prod.fst).reverse =
      (MapOp.runMap same ops m).pairs.map Prod.fst := by
    induction ops with
    | nil => exact fun m => List.reverse_reverse _
    | cons op ops ih =>
      intro m
      rw [List.flatMap_cons, loop_onMap hsame (hops op List.mem_cons_self)]
      exact ih (fun op hop => hops op (List.mem_cons_of_mem _ hop)) _
  exact (hrun {}).symm

end PairMap

/-! ### The layout after a run -/

namespace Table

variable [BEq K] [EquivBEq K] {t : Table K V} {m : PairMap K V}

theorem inOrder_getOrInsert (h : t.InOrder m) (k : K) (default : Option V) :
    ((MapOp.getOrInsert k default : MapOp σ K V).onTable t).2.InOrder
      ((MapOp.getOrInsert k default : MapOp σ K V).onMap (sameKey t.hash) m).2 := by
  rcases hfind : m.find? (sameKey t.hash) k with - | p
  · have hnone := locate?_eq_none_of_find? h.models hfind
    have hready := inOrder_madeReady h
    simp only [MapOp.onTable, MapOp.onMap, getOrInsert_of_locate?_eq_none hnone, hfind]
    cases default with
    | none => exact hready
    | some v =>
      rw [← (keeps_madeReady t).hash]
      exact inOrder_addNew hready (locate?_madeReady h.layout hnone) v
  · obtain ⟨loc, b, hobtained, -, -⟩ := getOrInsert_of_find? h.models hfind default
    simp only [MapOp.onTable, MapOp.onMap, hobtained, hfind]
    exact h

theorem inOrder_onTable (h : t.InOrder m) {op : MapOp σ K V} (hop : op.takesOut = false) :
    (op.onTable t).2.InOrder (op.onMap (sameKey t.hash) m).2 := by
  cases op with
  | insert k v => exact inOrder_insert h k v
  | extend pairs => exact inOrder_extend h pairs
  | getOrInsert k default => exact inOrder_getOrInsert h k default
  | get k => exact h
  | getEntry k => exact h
  | contains k => exact h
  | modify k f => exact inOrder_modify h k f
  | remove k => cases hop
  | removeEntry k => cases hop
  | retain f s => cases hop
  | sweep f s => cases hop
  | clear => cases hop

theorem inOrder_runTable {ops : List (MapOp σ K V)} (hops : ∀ op ∈ ops, op.takesOut = false) (h : t.InOrder m) :
    (MapOp.runTable ops t).InOrder (MapOp.runMap (sameKey t.hash) ops m) := by
  induction ops generalizing t m with
  | nil => exact h
  | cons op ops ih =>
    have hrest := ih (fun op hop => hops op (List.mem_cons_of_mem _ hop)) (inOrder_onTable h (hops op List.mem_cons_self))
    rwa [(keeps_onTable op t).hash] at hrest

omit [BEq K] [EquivBEq K] in
theorem selecting_keys (hash : K → UInt64) (capacity i : Nat) (pairs : List (K × V)) :
    ((selecting hash capacity i pairs).map (Bucket.ofPair hash)).map (·.key) =
      (pairs.map Prod.fst).filter fun k => slotIndex (spread (hash k)) capacity = i := by
  rw [List.map_map, List.filter_map]
  rfl

/-- In a table from which nothing was taken, each slot holds the distinct keys that select it in the order in which they were first stored, each with the value it was left with. Two such tables that end at the same capacity hold the same keys in the same places if they were asked to store the same keys, whatever they were made with and by whatever operations the keys were stored; if the keys were left with the same values, too, the tables are the same slot for slot. -/
theorem canonical_layout (hash : K → UInt64) {config : Config} (hvalid : config.validate = .ok ()) (id : Nat) :
    ∃ t : Table K V, create hash config id = .ok t ∧
      ∀ ops : List (MapOp σ K V), (∀ op ∈ ops, op.takesOut = false) →
        (MapOp.runMap (sameKey hash) ops {}).pairs.map Prod.fst =
          (ops.flatMap MapOp.storedKeys).eraseDupsBy (sameKey hash) ∧
        (∀ i, bucketsIn (MapOp.runTable ops t).slots i =
          (selecting hash (MapOp.runTable ops t).capacity i (MapOp.runMap (sameKey hash) ops {}).pairs).map
            (Bucket.ofPair hash)) ∧
        ∀ config' : Config, config'.validate = .ok () → ∀ id',
          ∃ u : Table K V, create hash config' id' = .ok u ∧
            ∀ ops' : List (MapOp σ K V), (∀ op ∈ ops', op.takesOut = false) →
              (MapOp.runTable ops' u).capacity = (MapOp.runTable ops t).capacity →
              (ops'.flatMap MapOp.storedKeys = ops.flatMap MapOp.storedKeys →
                ∀ i, (bucketsIn (MapOp.runTable ops' u).slots i).map (·.key) =
                  (bucketsIn (MapOp.runTable ops t).slots i).map (·.key)) ∧
              (MapOp.runMap (sameKey hash) ops' ({} : PairMap K V) = MapOp.runMap (sameKey hash) ops {} →
                (MapOp.runTable ops' u).slots = (MapOp.runTable ops t).slots ∧
                (MapOp.runTable ops' u).toList = (MapOp.runTable ops t).toList) := by
  -- Every run starts from an empty table, which is filled in the order of the empty list.
  have hfilled (config : Config) (id : Nat) {ops : List (MapOp σ K V)} (hops : ∀ op ∈ ops, op.takesOut = false) :
      (MapOp.runTable ops (build hash config id)).InOrder (MapOp.runMap (sameKey hash) ops {}) :=
    inOrder_runTable hops (inOrder_build hash config id)
  have hhash (config : Config) (id : Nat) (ops : List (MapOp σ K V)) :
      (MapOp.runTable ops (build hash config id)).hash = hash :=
    (keeps_runTable ops (build hash config id)).hash
  refine ⟨build hash config id, by rw [create, hvalid], fun ops hops => ?_⟩
  have ht := hfilled config id hops
  refine ⟨PairMap.keys_runMap (sameKey_equivalence hash) hops, fun i => ?_, fun config' hvalid' id' => ?_⟩
  · rw [ht.bucketsIn_eq, hhash]
    rfl
  · refine ⟨build hash config' id', by rw [create, hvalid'], fun ops' hops' hcapacity => ⟨fun hkeys i => ?_, ?_⟩⟩
    · have hu := hfilled config' id' hops'
      have hsize : (MapOp.runTable ops' (build hash config' id')).slots.size =
        (MapOp.runTable ops (build hash config id)).slots.size := hcapacity
      rw [hu.bucketsIn_eq, ht.bucketsIn_eq, hhash, hhash, hsize, selecting_keys, selecting_keys,
        PairMap.keys_runMap (sameKey_equivalence hash) hops', PairMap.keys_runMap (sameKey_equivalence hash) hops, hkeys]
    · intro hwritten
      have hu := hfilled config' id' hops'
      rw [hwritten] at hu
      have hslots := ht.slots_eq_slots hu ((hhash config' id' ops').trans (hhash config id ops).symm) hcapacity
      exact ⟨hslots, toList_of_slots hslots⟩

/-- Two ways to store keys that all collide, one of which doubles three times. -/
theorem canonical_layout_colliding : ∃ t u : Table Nat Nat,
    create (fun _ => 7) ⟨1, .standard⟩ 0 = .ok t ∧ create (fun _ => 7) .standard 1 = .ok u ∧
      (MapOp.runTable (σ := Unit) [.extend [(1, 11), (2, 20)], .getOrInsert 1 (some 12), .insert 3 30, .insert 4 40]
          u).slots =
        (MapOp.runTable (σ := Unit) [.insert 1 10, .getOrInsert 2 (some 20), .extend [(3, 30), (1, 11)],
          .getOrInsert 4 (some 40)] t).slots := by
  have hvalid : (Config.mk 1 .standard).validate = .ok () := by decide
  obtain ⟨t, ht, hruns⟩ := canonical_layout (σ := Unit) (V := Nat) (fun _ : Nat => 7) hvalid 0
  obtain ⟨-, -, hothers⟩ := hruns [.insert 1 10, .getOrInsert 2 (some 20), .extend [(3, 30), (1, 11)],
    .getOrInsert 4 (some 40)] (by decide)
  obtain ⟨u, hu, hsame⟩ := hothers .standard (by decide) 1
  refine ⟨t, u, ht, hu, ?_⟩
  obtain rfl := Except.ok.inj ht
  obtain rfl := Except.ok.inj hu
  exact ((hsame _ (by decide) (by decide +kernel)).2 (congrArg PairMap.mk (by decide +kernel))).1

end Table

end FlatTable
