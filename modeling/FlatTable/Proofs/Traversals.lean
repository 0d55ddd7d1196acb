import FlatTable.Proofs.Iteration
import FlatTable.Proofs.Operations
import FlatTable.Traversal.Containers

/-!
# Traversals as list functions

A way to offer elements comes to a list of them, and every traversal is the walk of `driveList` over that list: the three loops differ in nothing that a callback can see. From there each function on a container is a function on lists, in any monad, and the calls that it makes can be listed.
-/

namespace FlatTable.Traversal

variable {α β γ : Type}

/-! ### The elements of a container -/

/-- What access by index comes to, up to the first index without an element. -/
def indexedItems (item : Nat → Option α) : (left i : Nat) → List α
  | 0, _ => []
  | left + 1, i =>
    match item i with
    | none => []
    | some a => a :: indexedItems item left (i + 1)

def Strategy.elements : Strategy α → List α
  | contiguous items => items.toList
  | indexed size item => indexedItems item size 0
  | cursor items => items

/-- The elements of a container in the order in which it offers them. -/
def elements [Enumerable γ α] (source : γ) : List α := (Enumerable.strategy source).elements

section Drive

variable {m : Type → Type} [Monad m] (step : β → Nat → α → m (ForInStep β))

theorem driveRun_eq (items : Array α) (i : Nat) (b : β) :
    driveRun step items i b = driveList step (items.toList.drop i) i b := by
  fun_induction driveRun step items i b with
  | case1 i b hi ih =>
    rw [List.drop_eq_getElem_cons (by rwa [Array.length_toList]), driveList]
    refine congrArg (step b i items[i] >>= ·) (funext fun r => ?_)
    cases r with
    | done b => rfl
    | yield b => exact ih b
  | case2 i b hi =>
    rw [List.drop_eq_nil_of_le (by rw [Array.length_toList]; omega)]
    rfl

theorem driveIndexed_eq (item : Nat → Option α) (left i : Nat) (b : β) :
    driveIndexed step item left i b = driveList step (indexedItems item left i) i b := by
  induction left generalizing i b with
  | zero => rfl
  | succ left ih =>
    rw [driveIndexed, indexedItems]
    cases item i with
    | none => rfl
    | some a =>
      refine congrArg (step b i a >>= ·) (funext fun r => ?_)
      cases r with
      | done b => rfl
      | yield b => exact ih (i + 1) b

/-- Whichever way a container chose, its elements are visited one after the other. -/
theorem drive_eq [Enumerable γ α] (source : γ) (start : β) :
    drive source start step = driveList step (elements source) 0 start := by
  rw [drive, elements]
  cases Enumerable.strategy source with
  | contiguous items => exact driveRun_eq step items 0 start
  | indexed size item => exact driveIndexed_eq step item size 0 start
  | cursor items => rfl

end Drive

theorem indexedItems_eq {item : Nat → Option α} {l : List α} (h : ∀ i, item i = l[i]?) (left i : Nat) :
    indexedItems item left i = (l.drop i).take left := by
  induction left generalizing i with
  | zero => rw [indexedItems, List.take_zero]
  | succ left ih =>
    rw [indexedItems, h]
    by_cases hi : i < l.length
    · rw [List.getElem?_eq_getElem hi, List.drop_eq_getElem_cons hi, List.take_succ_cons]
      exact congrArg (l[i] :: ·) (ih (i + 1))
    · rw [List.getElem?_eq_none (Nat.not_lt.mp hi), List.drop_eq_nil_of_le (Nat.not_lt.mp hi), List.take_nil]

theorem elements_indexed {item : Nat → Option α} {l : List α} {size : Nat} (h : ∀ i, item i = l[i]?)
    (hsize : size = l.length) : (Strategy.indexed size item).elements = l := by
  rw [Strategy.elements, indexedItems_eq h, List.drop_zero, hsize, List.take_length]

theorem elements_runStrategy (items : Array α) : (runStrategy items).elements = items.toList := by
  rw [runStrategy]
  split
  · rfl
  · exact elements_indexed (fun i => Array.getElem?_toList.symm) Array.length_toList.symm

theorem elements_array (items : Array α) : elements items = items.toList := elements_runStrategy items

theorem elements_vector {n : Nat} (items : Vector α n) : elements items = items.toList := elements_runStrategy items.toArray

theorem elements_slice (s : Slice α) : elements s = (s.items.extract s.start s.stop).toList := by
  change Strategy.elements (if directThreshold ≤ s.size then _ else _) = _
  split
  · rfl
  · refine elements_indexed (fun i => ?_) ?_
    · rw [Slice.get?, Array.getElem?_toList, Array.getElem?_extract]
      rfl
    · rw [Array.length_toList, Array.size_extract]
      rfl

/-- The elements of a ring buffer stand in its first run and then in its second, wherever the one ends. -/
theorem elements_ringBuffer (q : RingBuffer α) : elements q = q.front.toList ++ q.back.toList := by
  change Strategy.elements (if q.back.isEmpty && decide (directThreshold ≤ q.front.size) then _ else _) = _
  split
  · rename_i hrun
    rw [Bool.and_eq_true, Array.isEmpty_iff] at hrun
    rw [hrun.1]
    exact (List.append_nil _).symm
  · refine elements_indexed (fun i => ?_) ?_
    · rw [RingBuffer.get?, List.getElem?_append, Array.length_toList, Array.getElem?_toList, Array.getElem?_toList]
    · rw [List.length_append, Array.length_toList, Array.length_toList]
      rfl

/-! ### Functions on lists -/

/-- The elements for which the answer was yes. -/
def chosen (l : List α) (answers : List Bool) : List α := ((l.zip answers).filter Prod.snd).map Prod.fst

theorem chosen_cons (a : α) (l : List α) (b : Bool) (bs : List Bool) :
    chosen (a :: l) (b :: bs) = if b then a :: chosen l bs else chosen l bs := by
  cases b <;> rfl

theorem chosen_map (p : α → Bool) (l : List α) : chosen l (l.map p) = l.filter p := by
  induction l with
  | nil => rfl
  | cons a l ih => rw [List.map_cons, chosen_cons, ih, List.filter_cons]

/-- There is a first yes among the answers of a list if there is a yes. -/
theorem isSome_first {l : List α} (bs : List Bool) (h : bs.length = l.length) :
    (l[bs.findIdx id]?).isSome = bs.any id := by
  rw [Bool.eq_iff_iff, isSome_getElem?, List.any_eq_true]
  rw [← h, List.findIdx_lt_length]

section Lists

variable {m : Type → Type} [Monad m] [LawfulMonad m]

theorem filterAuxM_eq (p : α → m Bool) (l kept : List α) :
    l.filterAuxM p kept = (fun bs => (chosen l bs).reverse ++ kept) <$> l.mapM p := by
  induction l generalizing kept with
  | nil => simp [List.filterAuxM, chosen]
  | cons a l ih =>
    rw [List.filterAuxM, List.mapM_cons, map_bind]
    refine congrArg (p a >>= ·) (funext fun b => ?_)
    rw [ih, map_bind, map_eq_pure_bind]
    refine congrArg (l.mapM p >>= ·) (funext fun bs => ?_)
    rw [map_pure, chosen_cons]
    cases b <;> simp

theorem filterM_eq (p : α → m Bool) (l : List α) : l.filterM p = chosen l <$> l.mapM p := by
  rw [List.filterM, filterAuxM_eq]
  simp

/-- The first step of a walk whose steps go on from what a callback gave. -/
theorem driveList_cons {δ : Type} (f : β → Nat → α → m δ) (g : β → Nat → α → δ → ForInStep β) (a : α) (l : List α)
    (i : Nat) (b : β) : driveList (fun b i a => f b i a >>= fun r => pure (g b i a r)) (a :: l) i b =
      f b i a >>= fun r => match g b i a r with
        | .done b => pure b
        | .yield b => driveList (fun b i a => f b i a >>= fun r => pure (g b i a r)) l (i + 1) b := by
  rw [driveList, bind_assoc]
  refine congrArg (f b i a >>= ·) (funext fun r => (pure_bind _ _).trans ?_)
  cases g b i a r <;> rfl

theorem driveList_forEach (f : α → Nat → m Unit) (l : List α) (i : Nat) :
    driveList (fun _ i a => do f a i; return .yield ()) l i () = (l.zipIdx i).forM fun p => f p.1 p.2 := by
  induction l generalizing i with
  | nil => rfl
  | cons a l ih =>
    rw [driveList_cons, List.zipIdx_cons, List.forM]
    exact congrArg (f a i >>= ·) (funext fun _ => ih (i + 1))

theorem driveList_collect (f : α → m β) (l : List α) (i : Nat) (out : Array β) :
    driveList (fun out _ a => return .yield (out.push (← f a))) l i out = (out ++ ·.toArray) <$> l.mapM f := by
  induction l generalizing i out with
  | nil => simp [driveList]
  | cons a l ih =>
    rw [driveList_cons, List.mapM_cons, map_bind]
    refine congrArg (f a >>= ·) (funext fun b => ?_)
    refine (ih (i + 1) _).trans ?_
    rw [map_bind, map_eq_pure_bind]
    refine congrArg (l.mapM f >>= ·) (funext fun bs => ?_)
    simp

theorem driveList_select (p : α → m Bool) (l : List α) (i : Nat) (out : Array α) :
    driveList (fun out _ a => return .yield (if ← p a then out.push a else out)) l i out =
      (fun bs => out ++ (chosen l bs).toArray) <$> l.mapM p := by
  induction l generalizing i out with
  | nil => simp [driveList, chosen]
  | cons a l ih =>
    rw [driveList_cons, List.mapM_cons, map_bind]
    refine congrArg (p a >>= ·) (funext fun b => ?_)
    refine (ih (i + 1) _).trans ?_
    rw [map_bind, map_eq_pure_bind]
    refine congrArg (l.mapM p >>= ·) (funext fun bs => ?_)
    rw [map_pure, chosen_cons]
    cases b <;> simp

theorem driveList_detect (p : α → m Bool) (l : List α) (i : Nat) :
    driveList (fun _ _ a => return if ← p a then .done (some a) else .yield none) l i none = l.findM? p := by
  induction l generalizing i with
  | nil => rfl
  | cons a l ih =>
    rw [driveList_cons, List.findM?]
    refine congrArg (p a >>= ·) (funext fun b => ?_)
    cases b
    · exact ih (i + 1)
    · rfl

theorem driveList_count (p : α → m Bool) (l : List α) (i n : Nat) :
    driveList (fun n _ a => return .yield (if ← p a then n + 1 else n)) l i n =
      (fun bs => n + (chosen l bs).length) <$> l.mapM p := by
  induction l generalizing i n with
  | nil => simp [driveList, chosen]
  | cons a l ih =>
    rw [driveList_cons, List.mapM_cons, map_bind]
    refine congrArg (p a >>= ·) (funext fun b => ?_)
    refine (ih (i + 1) _).trans ?_
    rw [map_bind, map_eq_pure_bind]
    refine congrArg (l.mapM p >>= ·) (funext fun bs => ?_)
    rw [map_pure, chosen_cons]
    cases b <;> simp [Nat.add_assoc, Nat.add_comm 1]

theorem anyM_eq (p : α → m Bool) (l : List α) : l.anyM p = Option.isSome <$> l.findM? p := by
  induction l with
  | nil => simp [List.findM?]
  | cons a l ih =>
    rw [List.anyM_cons, List.findM?, map_bind]
    refine congrArg (p a >>= ·) (funext fun b => ?_)
    cases b
    · exact ih
    · simp

theorem allM_eq (p : α → m Bool) (l : List α) :
    l.allM p = Option.isNone <$> l.findM? fun a => return !(← p a) := by
  induction l with
  | nil => simp [List.findM?]
  | cons a l ih =>
    rw [List.allM_cons, List.findM?, map_bind, bind_assoc]
    refine congrArg (p a >>= ·) (funext fun b => ?_)
    rw [pure_bind]
    cases b
    · simp
    · exact ih

theorem driveList_inject (f : β → α → m β) (l : List α) (i : Nat) (b : β) :
    driveList (fun b _ a => return .yield (← f b a)) l i b = l.foldlM f b := by
  induction l generalizing i b with
  | nil => rfl
  | cons a l ih =>
    rw [driveList_cons, List.foldlM_cons]
    exact congrArg (f b a >>= ·) (funext fun b => ih (i + 1) b)

end Lists

/-! ### The calls of a callback -/

section Calls

variable {σ δ : Type}

/-- The callback that also lists what it is called on. -/
def recording (f : α → StateM σ δ) (a : α) : StateM (σ × List α) δ := do
  let s ← get
  let (answer, state) := (f a).run s.1
  set (state, s.2 ++ [a])
  return answer

/-- What a callback answers that is called on some elements in order. -/
def answers (f : α → StateM σ δ) (s : σ) (l : List α) : List δ := ((l.mapM f).run s).1

/-- The state of a callback after it was called on some elements in order. -/
def stateAfter (f : α → StateM σ δ) (s : σ) (l : List α) : σ := ((l.mapM f).run s).2

variable (f : α → StateM σ δ) (p : α → StateM σ Bool) (s : σ) (calls l : List α)

theorem answers_cons (a : α) :
    answers f s (a :: l) = ((f a).run s).1 :: answers f ((f a).run s).2 l := by
  rw [answers, List.mapM_cons]
  rfl

theorem stateAfter_cons (a : α) : stateAfter f s (a :: l) = stateAfter f ((f a).run s).2 l := by
  rw [stateAfter, List.mapM_cons]
  rfl

theorem run_mapM_recording :
    (l.mapM (recording f)).run (s, calls) = (answers f s l, stateAfter f s l, calls ++ l) := by
  induction l generalizing s calls with
  | nil =>
    rw [List.append_nil]
    rfl
  | cons a l ih =>
    have hrest := ih ((f a).run s).2 (calls ++ [a])
    rw [List.mapM_cons, answers_cons, stateAfter_cons, List.append_cons]
    change (((f a).run s).1 :: ((l.mapM (recording f)).run (((f a).run s).2, calls ++ [a])).1,
      ((l.mapM (recording f)).run (((f a).run s).2, calls ++ [a])).2) = _
    rw [hrest]

theorem length_answers : (answers f s l).length = l.length := by
  induction l generalizing s with
  | nil => rfl
  | cons a l ih => rw [answers_cons, List.length_cons, List.length_cons, ih]

theorem recording_not : (fun a => return !(← recording p a)) = recording fun a => return !(← p a) := rfl

theorem answers_not : answers (fun a => return !(← p a)) s l = (answers p s l).map not := by
  induction l generalizing s with
  | nil => rfl
  | cons a l ih =>
    rw [answers_cons, answers_cons, List.map_cons, ← ih]
    rfl

theorem stateAfter_not : stateAfter (fun a => return !(← p a)) s l = stateAfter p s l := by
  induction l generalizing s with
  | nil => rfl
  | cons a l ih =>
    rw [stateAfter_cons, stateAfter_cons, ← ih]
    rfl

theorem run_forM_recording (f : α → StateM σ Unit) :
    (l.forM (recording f)).run (s, calls) = ((), stateAfter f s l, calls ++ l) := by
  induction l generalizing s calls with
  | nil =>
    rw [List.append_nil]
    rfl
  | cons a l ih =>
    rw [stateAfter_cons, List.append_cons]
    exact ih ((f a).run s).2 (calls ++ [a])

theorem run_foldlM_recording (f : δ → α → StateM σ δ) (b : δ) :
    (l.foldlM (fun b => recording (f b)) b).run (s, calls) =
      (((l.foldlM f b).run s).1, ((l.foldlM f b).run s).2, calls ++ l) := by
  induction l generalizing s calls b with
  | nil =>
    rw [List.append_nil]
    rfl
  | cons a l ih =>
    have hrest := ih ((f b a).run s).2 (calls ++ [a]) ((f b a).run s).1
    rw [List.append_cons]
    exact hrest

theorem run_findM?_cons (a : α) : ((a :: l).findM? p).run s =
    if ((p a).run s).1 then (some a, ((p a).run s).2) else (l.findM? p).run ((p a).run s).2 := by
  change (match ((p a).run s).1 with
    | true => pure (some a)
    | false => l.findM? p).run ((p a).run s).2 = _
  cases ((p a).run s).1 <;> rfl

/-- The first element for which the answer is yes, if there is one, is the last that the callback is called on. -/
theorem run_findM?_recording : (l.findM? (recording p)).run (s, calls) =
    (l[(answers p s l).findIdx id]?, stateAfter p s (l.take ((answers p s l).findIdx id + 1)),
      calls ++ l.take ((answers p s l).findIdx id + 1)) := by
  induction l generalizing s calls with
  | nil =>
    rw [List.take_nil, List.append_nil]
    rfl
  | cons a l ih =>
    have hcall : (recording p a).run (s, calls) = (((p a).run s).1, ((p a).run s).2, calls ++ [a]) := rfl
    rw [run_findM?_cons, hcall, answers_cons, List.findIdx_cons]
    cases ((p a).run s).1 with
    | true => rfl
    | false =>
      have hrest := ih ((p a).run s).2 (calls ++ [a])
      rw [List.append_assoc] at hrest
      rw [id, cond_false, List.take_succ_cons, stateAfter_cons]
      exact hrest

end Calls

/-! ### Traversals -/

section Traversals

variable [Enumerable γ α] (source : γ)

/-- The functions on a container are those on a list, in every monad that obeys the laws. -/
structure ActsAs (l : List α) : Prop where
  forEach : ∀ {m : Type → Type} [Monad m] [LawfulMonad m] (f : α → m Unit), forEach source f = l.forM f
  forEachWithIndex : ∀ {m : Type → Type} [Monad m] [LawfulMonad m] (f : α → Nat → m Unit),
    forEachWithIndex source f = l.zipIdx.forM fun p => f p.1 p.2
  collect : ∀ {m : Type → Type} [Monad m] [LawfulMonad m] {δ : Type} (f : α → m δ),
    collect source f = List.toArray <$> l.mapM f
  select : ∀ {m : Type → Type} [Monad m] [LawfulMonad m] (p : α → m Bool),
    select source p = List.toArray <$> l.filterM p
  reject : ∀ {m : Type → Type} [Monad m] [LawfulMonad m] (p : α → m Bool),
    reject source p = List.toArray <$> l.filterM fun a => return !(← p a)
  detect : ∀ {m : Type → Type} [Monad m] [LawfulMonad m] (p : α → m Bool), detect source p = l.findM? p
  anySatisfy : ∀ {m : Type → Type} [Monad m] [LawfulMonad m] (p : α → m Bool), anySatisfy source p = l.anyM p
  allSatisfy : ∀ {m : Type → Type} [Monad m] [LawfulMonad m] (p : α → m Bool), allSatisfy source p = l.allM p
  count : ∀ {m : Type → Type} [Monad m] [LawfulMonad m] (p : α → m Bool),
    count source p = List.length <$> l.filterM p
  injectInto : ∀ {m : Type → Type} [Monad m] [LawfulMonad m] {δ : Type} (start : δ) (f : δ → α → m δ),
    injectInto start source f = l.foldlM f start

/-- What each function makes of a callback with a state of its own: its result, the state afterwards, and the elements that the callback was called on. -/
structure CallsOn (l : List α) : Prop where
  forEach : ∀ {σ : Type} (f : α → StateM σ Unit) (s : σ),
    (forEach source (recording f)).run (s, []) = ((), stateAfter f s l, l)
  forEachWithIndex : ∀ {σ : Type} (f : α × Nat → StateM σ Unit) (s : σ),
    (forEachWithIndex source fun a i => recording f (a, i)).run (s, []) = ((), stateAfter f s l.zipIdx, l.zipIdx)
  collect : ∀ {σ δ : Type} (f : α → StateM σ δ) (s : σ),
    (collect source (recording f)).run (s, []) = ((answers f s l).toArray, stateAfter f s l, l)
  select : ∀ {σ : Type} (p : α → StateM σ Bool) (s : σ),
    (select source (recording p)).run (s, []) = ((chosen l (answers p s l)).toArray, stateAfter p s l, l)
  reject : ∀ {σ : Type} (p : α → StateM σ Bool) (s : σ), (reject source (recording p)).run (s, []) =
    ((chosen l ((answers p s l).map not)).toArray, stateAfter p s l, l)
  /-- The element for which the first answer is yes is the last one looked at. -/
  detect : ∀ {σ : Type} (p : α → StateM σ Bool) (s : σ),
    let first := (answers p s l).findIdx id
    (detect source (recording p)).run (s, []) = (l[first]?, stateAfter p s (l.take (first + 1)), l.take (first + 1))
  anySatisfy : ∀ {σ : Type} (p : α → StateM σ Bool) (s : σ),
    let first := (answers p s l).findIdx id
    (anySatisfy source (recording p)).run (s, []) =
      ((answers p s l).any id, stateAfter p s (l.take (first + 1)), l.take (first + 1))
  /-- The element for which the first answer is no is the last one looked at. -/
  allSatisfy : ∀ {σ : Type} (p : α → StateM σ Bool) (s : σ),
    let first := (answers p s l).findIdx not
    (allSatisfy source (recording p)).run (s, []) =
      ((answers p s l).all id, stateAfter p s (l.take (first + 1)), l.take (first + 1))
  count : ∀ {σ : Type} (p : α → StateM σ Bool) (s : σ),
    (count source (recording p)).run (s, []) = ((chosen l (answers p s l)).length, stateAfter p s l, l)
  injectInto : ∀ {σ δ : Type} (start : δ) (f : δ → α → StateM σ δ) (s : σ),
    (injectInto start source fun acc => recording (f acc)).run (s, []) =
      (((l.foldlM f start).run s).1, ((l.foldlM f start).run s).2, l)

theorem actsAs_elements : ActsAs source (elements source) where
  forEach f := by
    have hmap : ((elements source).zipIdx.map Prod.fst).forM f = _ := List.forM_map
    rw [List.zipIdx_map_fst] at hmap
    rw [Traversal.forEach, drive_eq, driveList_forEach fun a _ => f a]
    exact hmap.symm
  forEachWithIndex f := by
    rw [Traversal.forEachWithIndex, drive_eq]
    exact driveList_forEach f _ 0
  collect f := by
    rw [Traversal.collect, drive_eq, driveList_collect]
    simp
  select p := by
    rw [Traversal.select, drive_eq, driveList_select, filterM_eq]
    simp
  reject p := by
    rw [Traversal.reject, Traversal.select, drive_eq, driveList_select, filterM_eq]
    simp
  detect p := by
    rw [Traversal.detect, drive_eq, driveList_detect]
  anySatisfy p := by
    rw [Traversal.anySatisfy, Traversal.detect, drive_eq, driveList_detect, anyM_eq, map_eq_pure_bind]
  allSatisfy p := by
    rw [Traversal.allSatisfy, Traversal.detect, drive_eq, driveList_detect, allM_eq, map_eq_pure_bind]
  count p := by
    rw [Traversal.count, drive_eq, driveList_count, filterM_eq]
    simp
  injectInto start f := by
    rw [Traversal.injectInto, drive_eq, driveList_inject]

variable {source}

theorem callsOn_of_actsAs {l : List α} (h : ActsAs source l) : CallsOn source l where
  forEach f s := by
    rw [h.forEach, run_forM_recording, List.nil_append]
  forEachWithIndex f s := by
    rw [h.forEachWithIndex]
    exact (run_forM_recording s [] l.zipIdx f).trans (by rw [List.nil_append])
  collect f s := by
    rw [h.collect, StateT.run_map, run_mapM_recording]
    rfl
  select p s := by
    rw [h.select, filterM_eq, Functor.map_map, StateT.run_map, run_mapM_recording]
    rfl
  reject p s := by
    rw [h.reject, filterM_eq, Functor.map_map, StateT.run_map, recording_not, run_mapM_recording, answers_not,
      stateAfter_not]
    rfl
  detect p s := by
    rw [h.detect, run_findM?_recording, List.nil_append]
  anySatisfy p s := by
    rw [h.anySatisfy, anyM_eq, StateT.run_map, run_findM?_recording, List.nil_append]
    exact congrArg (·, _) (isSome_first _ (length_answers p s l))
  allSatisfy p s := by
    have hfirst : ((answers p s l).map not).findIdx id = (answers p s l).findIdx not := List.findIdx_map _ _ _
    have hsome := isSome_first (l := l) ((answers p s l).map not) (by rw [List.length_map, length_answers])
    have hall : ((answers p s l).map not).any id = !(answers p s l).all id := by
      rw [List.any_map]
      exact List.not_all_eq_any_not.symm
    rw [hfirst, hall] at hsome
    rw [h.allSatisfy, allM_eq, StateT.run_map, recording_not, run_findM?_recording, List.nil_append, answers_not,
      hfirst, stateAfter_not]
    refine congrArg (·, _) ?_
    rw [← Option.not_isSome, hsome, Bool.not_not]
  count p s := by
    rw [h.count, filterM_eq, Functor.map_map, StateT.run_map, run_mapM_recording]
    rfl
  injectInto start f s := by
    rw [h.injectInto, run_foldlM_recording, List.nil_append]

end Traversals

/-! ### Containers of the same elements -/

section Same

variable {γ' : Type} [Enumerable γ α] [Enumerable γ' α]

/-- Every function makes the same of two containers, in every monad: whatever a callback does, it cannot tell them apart. -/
structure SameTraversals (source : γ) (source' : γ') : Prop where
  forEach : ∀ {m : Type → Type} [Monad m] (f : α → m Unit), forEach source f = forEach source' f
  forEachWithIndex : ∀ {m : Type → Type} [Monad m] (f : α → Nat → m Unit),
    forEachWithIndex source f = forEachWithIndex source' f
  collect : ∀ {m : Type → Type} [Monad m] {δ : Type} (f : α → m δ), collect source f = collect source' f
  select : ∀ {m : Type → Type} [Monad m] (p : α → m Bool), select source p = select source' p
  reject : ∀ {m : Type → Type} [Monad m] (p : α → m Bool), reject source p = reject source' p
  detect : ∀ {m : Type → Type} [Monad m] (p : α → m Bool), detect source p = detect source' p
  anySatisfy : ∀ {m : Type → Type} [Monad m] (p : α → m Bool), anySatisfy source p = anySatisfy source' p
  allSatisfy : ∀ {m : Type → Type} [Monad m] (p : α → m Bool), allSatisfy source p = allSatisfy source' p
  count : ∀ {m : Type → Type} [Monad m] (p : α → m Bool), count source p = count source' p
  injectInto : ∀ {m : Type → Type} [Monad m] {δ : Type} (start : δ) (f : δ → α → m δ),
    injectInto start source f = injectInto start source' f

variable {source : γ} {source' : γ'}

theorem drive_congr (h : elements source = elements source') {m : Type → Type} [Monad m] {δ : Type} (start : δ)
    (step : δ → Nat → α → m (ForInStep δ)) : drive source start step = drive source' start step := by
  rw [drive_eq, drive_eq, h]

theorem detect_congr (h : elements source = elements source') {m : Type → Type} [Monad m] (p : α → m Bool) :
    detect source p = detect source' p := drive_congr h none _

theorem sameTraversals_of_elements (h : elements source = elements source') : SameTraversals source source' where
  forEach f := drive_congr h () _
  forEachWithIndex f := drive_congr h () _
  collect f := drive_congr h #[] _
  select p := drive_congr h #[] _
  reject p := drive_congr h #[] _
  detect p := detect_congr h p
  anySatisfy p := by rw [anySatisfy, anySatisfy, detect_congr h]
  allSatisfy p := by rw [allSatisfy, allSatisfy, detect_congr h]
  count p := drive_congr h 0 _
  injectInto start f := drive_congr h start _

end Same

/-! ### Selecting and rejecting -/

/-- Two parts of a list that a condition tells apart: each is in the order of the list, and together they are all of it. -/
structure Splits (p : α → Bool) (l yes no : List α) : Prop where
  perm : (yes ++ no).Perm l
  yes_sublist : yes.Sublist l
  no_sublist : no.Sublist l
  of_mem_yes : ∀ a ∈ yes, p a = true
  of_mem_no : ∀ a ∈ no, p a = false

theorem splits_filter (p : α → Bool) (l : List α) : Splits p l (l.filter p) (l.filter fun a => !p a) where
  perm := List.filter_append_perm p l
  yes_sublist := List.filter_sublist
  no_sublist := List.filter_sublist
  of_mem_yes _ ha := (List.mem_filter.mp ha).2
  of_mem_no a ha := by simpa using (List.mem_filter.mp ha).2

theorem filterM_pure {m : Type → Type} [Monad m] [LawfulMonad m] (p : α → Bool) (l : List α) :
    (l.filterM fun a => (pure (p a) : m Bool)) = pure (l.filter p) := by
  have hmap : (l.mapM fun a => (pure (p a) : m Bool)) = pure (l.map p) := List.mapM_pure
  rw [filterM_eq, hmap, map_pure, chosen_map]

theorem exists_split [Enumerable γ α] (source : γ) (p : α → Bool) : ∃ yes no, Splits p (elements source) yes no ∧
    ∀ {m : Type → Type} [Monad m] [LawfulMonad m],
      select source (fun a => (pure (p a) : m Bool)) = pure yes.toArray ∧
        reject source (fun a => (pure (p a) : m Bool)) = pure no.toArray := by
  refine ⟨_, _, splits_filter p (elements source), fun {m} _ _ => ⟨?_, ?_⟩⟩
  · rw [(actsAs_elements source).select, filterM_pure, map_pure]
  · rw [(actsAs_elements source).reject]
    simp only [pure_bind]
    rw [filterM_pure, map_pure]

/-! ### Every kind of container -/

theorem elements_keySet {K V : Type} [BEq K] (s : KeySet K V) (h : s.table.LayoutInvariant) :
    elements s = s.table.iter.toList.map Prod.fst := by
  rw [Table.toList_iter h, Table.toList, List.map_map]
  rfl

/-- Whatever a container is and however it offers its elements, its functions are those on the list of its elements and call their callbacks on the elements of that list: on all of them in order, or on those up to the first that decides. For callbacks there is no difference between two containers of the same elements. With a condition that has no effects, what is selected and what is rejected are the two parts of the list. -/
theorem traversals_act_as_lists :
    ((∀ items : Array α, elements items = items.toList) ∧
      (∀ s : Slice α, elements s = (s.items.extract s.start s.stop).toList) ∧
      (∀ (n : Nat) (items : Vector α n), elements items = items.toList) ∧
      (∀ q : RingBuffer α, elements q = q.front.toList ++ q.back.toList) ∧ (∀ l : List α, elements l = l) ∧
      (∀ s : OrderedSet α, elements s = s.items) ∧
      ∀ {V : Type} [BEq α] (s : KeySet α V), s.table.LayoutInvariant →
        elements s = s.table.iter.toList.map Prod.fst) ∧
    (∀ {γ : Type} [Enumerable γ α] (source : γ),
      ActsAs source (elements source) ∧ CallsOn source (elements source)) ∧
    (∀ {γ γ' : Type} [Enumerable γ α] [Enumerable γ' α] (source : γ) (source' : γ'),
      elements source = elements source' → SameTraversals source source') ∧
    ∀ {γ : Type} [Enumerable γ α] (source : γ) (p : α → Bool), ∃ yes no, Splits p (elements source) yes no ∧
      ∀ {m : Type → Type} [Monad m] [LawfulMonad m],
        select source (fun a => (pure (p a) : m Bool)) = pure yes.toArray ∧
          reject source (fun a => (pure (p a) : m Bool)) = pure no.toArray := by
  refine ⟨⟨elements_array, elements_slice, fun n => elements_vector, elements_ringBuffer, fun _ => rfl, fun _ => rfl,
    elements_keySet⟩, fun source => ?_, fun source source' h => sameTraversals_of_elements h, exists_split⟩
  exact ⟨actsAs_elements source, callsOn_of_actsAs (actsAs_elements source)⟩

/-- A queue that runs past the end of its memory and the key set of a table of colliding keys offer the same elements; the callback counts its calls. -/
theorem traversals_act_as_lists_wrapped : ∃ q : RingBuffer Nat, ∃ s : KeySet Nat Nat, ∃ f : Nat → StateM Nat Bool,
    q = ⟨#[1, 2], #[3]⟩ ∧ s = ⟨⟨.shared, (Table.build (fun _ => 7) .standard 0).extend [(1, 10), (2, 20), (3, 30)]⟩⟩ ∧
      f = (fun n => do modify (· + 1); return n == 2) ∧ s.table.LayoutInvariant ∧ elements q = elements s ∧
      elements q = [1, 2, 3] ∧ SameTraversals q s ∧ detect q f = [1, 2, 3].findM? f ∧
      (detect s (recording f)).run (0, []) = (some 2, 2, [1, 2]) ∧ Splits (· == 2) [1, 2, 3] [2] [1, 3] := by
  refine ⟨_, _, _, rfl, rfl, rfl, ?_⟩
  have hlayout := Table.layoutInvariant_extend_build (V := Nat) (fun _ : Nat => 7) .standard 0
    [(1, 10), (2, 20), (3, 30)]
  obtain ⟨⟨-, -, -, hqueue, -, -, hkeys⟩, hfunctions, hsame, hsplit⟩ := traversals_act_as_lists (α := Nat)
  set s : KeySet Nat Nat := ⟨⟨.shared, (Table.build (fun _ => 7) .standard 0).extend [(1, 10), (2, 20), (3, 30)]⟩⟩
  have hq : elements (⟨#[1, 2], #[3]⟩ : RingBuffer Nat) = [1, 2, 3] := hqueue _
  have hs : elements s = [1, 2, 3] := (hkeys s hlayout).trans (by decide +kernel)
  have hfind := fun f : Nat → StateM Nat Bool => (hfunctions (⟨#[1, 2], #[3]⟩ : RingBuffer Nat)).1.detect f
  have hcalls := fun f : Nat → StateM Nat Bool => (hfunctions s).2.detect f 0
  obtain ⟨yes, no, hsplits, hruns⟩ := hsplit (⟨#[1, 2], #[3]⟩ : RingBuffer Nat) (· == 2)
  obtain ⟨hyes, hno⟩ := hruns (m := Id)
  obtain rfl : [2] = yes := congrArg Array.toList hyes
  obtain rfl : [1, 3] = no := congrArg Array.toList hno
  rw [hq] at hfind hsplits
  rw [hs] at hcalls
  exact ⟨hlayout, hq.trans hs.symm, hq, hsame _ _ (hq.trans hs.symm), hfind _, hcalls _, hsplits⟩

end FlatTable.Traversal
