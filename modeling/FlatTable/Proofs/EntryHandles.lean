import FlatTable.Proofs.Histories
import FlatTable.Proofs.Iteration

/-!
# Entry handles in the course of a session

A handle remembers the identity and the generation of the table it was taken from, and the stored key. So every other table refuses it, however it came to be; and its own table refuses it from the first clear on. Until then the handle answers as its key does: it is refused while the key is absent. While the key stays, the handle acts on the pair that was there when it was taken, wherever that is moved. A key that is taken out leaves no trace, so the handle acts again when an equal key is stored.
-/

namespace FlatTable

variable {K V : Type}

/-! ### Handles and the tables they are taken from -/

namespace Table

/-- A handle that a table gives: that of a key, or one of those of all keys. -/
def Gives [BEq K] (t : Table K V) (h : EntryHandle K) : Prop := (∃ k, t.handle? k = some h) ∨ h ∈ t.handles

/-- A table with the same pairs in the same places, but for the value of one of them. -/
structure Rewrites (t : Table K V) (p : K × V) (v : V) (u : Table K V) : Prop where
  toList : ∃ before after, t.toList = before ++ p :: after ∧ u.toList = before ++ (p.1, v) :: after
  capacity : u.capacity = t.capacity
  others : u = { t with slots := u.slots }

variable [BEq K] {t : Table K V} {k : K} {p : K × V}

theorem exists_bucket_of_found (h : t.getEntry? k = some p) :
    ∃ loc b, t.locate? k = some loc ∧ t.bucketAt? loc = some b ∧ b.toPair = p := by
  obtain ⟨loc, hloc, hb⟩ := Option.bind_eq_some_iff.mp h
  obtain ⟨b, hb, hp⟩ := Option.map_eq_some_iff.mp hb
  exact ⟨loc, b, hloc, hb, hp⟩

theorem rewrites_modify (hlayout : t.LayoutInvariant) (h : t.getEntry? k = some p) (f : V → V) :
    t.Rewrites p (f p.2) (t.modify k f).2 := by
  obtain ⟨loc, b, hloc, hb, rfl⟩ := exists_bucket_of_found h
  obtain ⟨before, after, hold, hnew⟩ := buckets_modifyValueAt hlayout.wellFormed hb
  rw [modify, hloc]
  refine ⟨⟨before.map Bucket.toPair, after.map Bucket.toPair, ?_, ?_⟩, Array.size_modify, rfl⟩
  · rw [toList, hold, List.map_append, List.map_cons]
  · show ((t.modifyValueAt loc f).buckets).map Bucket.toPair = _
    rw [hnew f, List.map_append, List.map_cons]
    rfl

variable [EquivBEq K]

theorem handle_of_gives (hlayout : t.LayoutInvariant) {h : EntryHandle K} (hgives : t.Gives h) :
    h.tableId = t.id ∧ h.generation = t.generation ∧ h.key ∈ t.keys := by
  rcases hgives with ⟨k, hk⟩ | hmem
  · obtain ⟨p, hp, rfl⟩ := Option.map_eq_some_iff.mp hk
    exact ⟨rfl, rfl, (mem_keys_of_entry hlayout hp).1⟩
  · obtain ⟨p, hp, rfl⟩ := List.mem_map.mp hmem
    rw [toList_iter hlayout] at hp
    obtain ⟨b, hb, rfl⟩ := List.mem_map.mp hp
    exact ⟨rfl, rfl, List.mem_map_of_mem hb⟩

/-- Under an absent key a pair is stored as it is given. -/
theorem getEntry?_insert (hlayout : t.LayoutInvariant) (habsent : t.contains k = false) {k' : K}
    (hsame : sameKey t.hash k' k = true) (v : V) : getEntry? (t.insert k' v).2 k = some (k', v) := by
  have hmodels := models_toList hlayout
  have hequivalence := sameKey_equivalence t.hash
  have hnone : t.locate? k = none := by simpa [contains] using habsent
  have hothers : ∀ p ∈ (⟨t.toList⟩ : PairMap K V).pairs, sameKey t.hash p.1 k' = false := by
    intro p hp
    rw [← not_mem_of_models hmodels hnone p hp, Bool.eq_iff_iff]
    exact ⟨fun hpk => hequivalence.trans hpk hsame, fun hpk => hequivalence.trans hpk (hequivalence.symm hsame)⟩
  have hstored := (models_insert hmodels k' v).2
  have hhash := (keeps_insert t k' v).hash
  rw [getEntry?_eq hstored, hhash]
  have hdistinct := distinct_of_models hstored
  rw [hhash] at hdistinct
  refine PairMap.find?_of_mem hequivalence hdistinct ?_ hsame
  rw [PairMap.insert_of_not_any hothers]
  exact List.mem_append_right _ List.mem_cons_self

end Table

namespace EntryHandle

variable [BEq K] {h : EntryHandle K} {t : Table K V} {why : TableError}

/-- Every use of a handle fails and changes nothing. -/
structure IsRefused (h : EntryHandle K) (t : Table K V) (why : TableError) : Prop where
  value : h.value t = .error why
  isLive : h.isLive t = false
  modify : ∀ f, h.modify t f = (.error why, t)
  setValue : ∀ v, h.setValue t v = (.error why, t)

/-- A handle reads a pair and changes its value, and nothing else. -/
structure ActsOn (h : EntryHandle K) (t : Table K V) (p : K × V) : Prop where
  found : t.getEntry? h.key = some p
  value : h.value t = .ok p.2
  isLive : h.isLive t = true
  modify : ∀ f, ∃ u, h.modify t f = (.ok (p.2, f p.2), u) ∧ t.Rewrites p (f p.2) u
  setValue : ∀ v, ∃ u, h.setValue t v = (.ok p.2, u) ∧ t.Rewrites p v u

theorem isRefused_of_value (hvalue : h.value t = .error why) : h.IsRefused t why := by
  have hmodify (f : V → V) : h.modify t f = (.error why, t) := by rw [modify, hvalue]
  refine ⟨hvalue, by rw [isLive, hvalue]; rfl, hmodify, fun v => ?_⟩
  rw [setValue, hmodify]

theorem isRefused_of_id_ne (hid : t.id ≠ h.tableId) : h.IsRefused t .wrongTable := by
  apply isRefused_of_value
  rw [value, checkOwner, if_pos hid]

theorem isRefused_of_generation_ne (hid : t.id = h.tableId) (hgeneration : t.generation ≠ h.generation) :
    h.IsRefused t .staleEntry := by
  apply isRefused_of_value
  rw [value, checkOwner, if_neg (not_not.mpr hid), if_pos hgeneration]

theorem value_eq (hid : t.id = h.tableId) (hgeneration : t.generation = h.generation) :
    h.value t = match t.get? h.key with
      | none => .error .staleEntry
      | some v => .ok v := by
  rw [value, checkOwner, if_neg (not_not.mpr hid), if_neg (not_not.mpr hgeneration)]
  rfl

theorem isRefused_of_get? (hid : t.id = h.tableId) (hgeneration : t.generation = h.generation)
    (habsent : t.get? h.key = none) : h.IsRefused t .staleEntry := by
  apply isRefused_of_value
  rw [value_eq hid hgeneration, habsent]

theorem actsOn_of_found (hlayout : t.LayoutInvariant) (hid : t.id = h.tableId)
    (hgeneration : t.generation = h.generation) {p : K × V} (hfound : t.getEntry? h.key = some p) : h.ActsOn t p := by
  have hget : t.get? h.key = some p.2 := by rw [Table.get?, hfound, Option.map_some]
  have hvalue : h.value t = .ok p.2 := by rw [value_eq hid hgeneration, hget]
  have hmodify (f : V → V) : h.modify t f = (.ok (p.2, f p.2), (t.modify h.key f).2) := by rw [modify, hvalue]
  refine ⟨hfound, hvalue, by rw [isLive, hvalue]; rfl, fun f => ⟨_, hmodify f, t.rewrites_modify hlayout hfound f⟩,
    fun v => ⟨_, by rw [setValue, hmodify], Table.rewrites_modify hlayout hfound fun _ => v⟩⟩

section Follows

variable {u : Table K V} {cleared : Prop} (hfollows : t.Follows u cleared)
  (htaken : h.tableId = t.id ∧ h.generation = t.generation)
include hfollows htaken

theorem isRefused_of_cleared (hcleared : cleared) : h.IsRefused u .staleEntry := by
  refine isRefused_of_generation_ne (hfollows.id_eq.trans htaken.1.symm) fun hgeneration => ?_
  exact hfollows.generation_eq_iff.mp (hgeneration.trans htaken.2) hcleared

/-- Under an absent key a handle is refused by its own table, whether or not that was cleared. -/
theorem isRefused_of_absent [EquivBEq K] (hlayout : u.LayoutInvariant) (habsent : u.contains h.key = false) :
    h.IsRefused u .staleEntry := by
  by_cases hcleared : cleared
  · exact isRefused_of_cleared hfollows htaken hcleared
  · have hgeneration := hfollows.generation_eq_iff.mpr hcleared
    refine isRefused_of_get? (hfollows.id_eq.trans htaken.1.symm) (hgeneration.trans htaken.2.symm) ?_
    rw [Table.contains_eq_isSome hlayout, Option.isSome_eq_false_iff, Option.isNone_iff_eq_none] at habsent
    rw [Table.get?, habsent, Option.map_none]

theorem actsOn_of_follows (hlayout : u.LayoutInvariant) (hkept : ¬cleared) {p : K × V}
    (hfound : u.getEntry? h.key = some p) : h.ActsOn u p :=
  actsOn_of_found hlayout (hfollows.id_eq.trans htaken.1.symm)
    ((hfollows.generation_eq_iff.mpr hkept).trans htaken.2.symm) hfound

end Follows

end EntryHandle

namespace Moment

variable [KeyKind K] [EquivBEq K] [ValueKind V] {m m' : Moment K V} {name name' : String} {held held' : Held K V}
  {h : EntryHandle K} {past : History K V}

/-! ### Handles and histories -/

omit [ValueKind V] in
theorem layout_of_find? (hsound : m.Sound) (hheld : m.session.tables.find? name = some held) :
    held.table.LayoutInvariant :=
  (Table.sound_of_reachable (Session.reachable_of_find? hsound.reachable hheld)).layout

theorem numbered_of_reaches_start (hasher : Hasher) (hm : (start hasher).Reaches m) : m.session.Numbered := by
  have hnone (name : String) : (start hasher : Moment K V).session.tables.find? name = none := rfl
  refine numbered_reaches (sound_start hasher) ⟨?_, ?_⟩ hm
  · intro name held hheld
    simp [hnone] at hheld
  · intro name name' held held' hheld
    simp [hnone] at hheld

/-- What holds when a handle was taken and some moves were made since. -/
structure Outlives (h : EntryHandle K) (t : Table K V) (name : String) (past : History K V) (m : Moment K V) : Prop where
  taken : h.tableId = t.id ∧ h.generation = t.generation
  traces : Traces t name past m
  mem_keys : h.key ∈ t.keys
  layout : ∀ {name held}, m.session.tables.find? name = some held → held.table.LayoutInvariant

theorem outlives_of_runs (hasher : Hasher) (hm : (start hasher).Reaches m)
    (hheld : m.session.tables.find? name = some held) (hgives : held.table.Gives h) (hruns : m.Runs past m') :
    Outlives h held.table name past m' := by
  have hsound := sound_reaches (sound_start hasher) hm
  obtain ⟨hid, hgeneration, hkey⟩ := Table.handle_of_gives (layout_of_find? hsound hheld) hgives
  refine ⟨⟨hid, hgeneration⟩, traces_runs hsound (numbered_of_reaches_start hasher hm) hheld hruns, hkey, ?_⟩
  exact layout_of_find? (sound_reaches hsound (reaches_iff_exists_runs.mpr ⟨past, hruns⟩))

/-- Every other table refuses a handle, be it a clone or one put in the place of the handle's own. The table that it was taken from refuses it once it was cleared, and while the key is absent. As long as neither happens, the handle acts on the pair with the very key that was stored when it was taken. -/
theorem handle_honoured (hasher : Hasher) (hm : (start hasher).Reaches m)
    (hheld : m.session.tables.find? name = some held) (hgives : held.table.Gives h) :
    (∀ {σ : Type} (requests : List (Step K V σ)), ∃ past, m.Runs past ⟨(m.session.run requests).2, m.running⟩) ∧
    ∀ {past m'}, m.Runs past m' → ∀ {name' held'}, m'.session.tables.find? name' = some held' →
      (name' ≠ name ∨ past.Replaced name → h.IsRefused held'.table .wrongTable) ∧
      (name' = name → ¬past.Replaced name →
        (past.Cleared name → h.IsRefused held'.table .staleEntry) ∧
        (held'.table.contains h.key = false → h.IsRefused held'.table .staleEntry) ∧
        (¬past.Cleared name → past.Held name h.key → held'.table.contains h.key = true →
          ∃ v, h.ActsOn held'.table (h.key, v))) := by
  refine ⟨fun requests => reaches_iff_exists_runs.mp (reaches_run (sound_reaches (sound_start hasher) hm) requests), ?_⟩
  intro past m' hruns name' held' hheld'
  have houtlives := outlives_of_runs hasher hm hheld hgives hruns
  have hlayout := houtlives.layout hheld'
  constructor
  · -- Only the table under the name can be the handle's own, and only if none was put in its place.
    intro hother
    apply EntryHandle.isRefused_of_id_ne
    rw [houtlives.taken.1]
    exact houtlives.traces.others hheld' hother
  · rintro rfl hkept
    obtain ⟨held'', hfind, hfollows, hkeys⟩ := houtlives.traces.own hkept
    obtain rfl : held' = held'' := Option.some.inj (hheld'.symm.trans hfind)
    refine ⟨EntryHandle.isRefused_of_cleared hfollows houtlives.taken,
      EntryHandle.isRefused_of_absent hfollows houtlives.taken hlayout, ?_⟩
    -- Found before every move and now, the key is still the one that was stored when the handle was taken.
    intro hgeneration hpast hfound
    have hstored := hkeys hgeneration h.key houtlives.mem_keys hpast ⟨held', hheld', hfound⟩
    have hself := (sameKey_equivalence held'.table.hash).refl h.key
    obtain ⟨v, hv⟩ := Table.exists_entry_of_mem_keys hlayout hstored hself
    exact ⟨v, EntryHandle.actsOn_of_follows hfollows houtlives.taken hlayout hgeneration hv⟩

/-- A handle beside a clone, while its table grows and after that was cleared through a view and the key stored again. -/
theorem handle_honoured_cloned : ∃ (m m₁ m₂ : Moment UInt64 Int64) (h : EntryHandle UInt64)
    (own clone cleared : Held UInt64 Int64), (start .identity).Reaches m ∧ m.Reaches m₁ ∧ m.Reaches m₂ ∧
      m₁.session.tables.find? "a" = some own ∧ own.table.capacity = 16 ∧ (∃ v, h.ActsOn own.table (1, v)) ∧
      m₁.session.tables.find? "b" = some clone ∧ h.IsRefused clone.table .wrongTable ∧
      m₂.session.tables.find? "a" = some cleared ∧ cleared.table.contains 1 = true ∧
      h.IsRefused cleared.table .staleEntry := by
  obtain ⟨making, hmaking⟩ : ∃ requests : List (Step UInt64 Int64), requests =
    [.make "a" (.ofConfig .standard none), .edit "a" (.insert 1 10)] := ⟨_, rfl⟩
  obtain ⟨m, hm⟩ : ∃ m : Moment UInt64 Int64, m = ⟨(Session.run { hasher := .identity } making).2, []⟩ := ⟨_, rfl⟩
  obtain ⟨growing, hgrowing⟩ : ∃ requests : List (Step UInt64 Int64), requests = [.clone "a" "b",
    .edit "a" (.extend [(2, 20), (3, 30), (4, 40), (5, 50), (6, 60), (7, 70)])] := ⟨_, rfl⟩
  obtain ⟨clearing, hclearing⟩ : ∃ requests : List (Step UInt64 Int64), requests =
    [.edit "a" (.part .exclusive (.keys [.clear])), .edit "a" (.insert 1 11)] := ⟨_, rfl⟩
  have hreaches : (start .identity).Reaches m := by
    rw [hm]
    exact reaches_run (sound_start .identity) _
  have hruns := (Runs.start : m.Runs [] m).requests growing (by rw [hgrowing]; decide)
  have hruns' := (Runs.start : m.Runs [] m).requests clearing (by rw [hclearing]; decide)
  have htaken : ((m.session.tables.find? "a").bind fun held => held.table.handle? 1).map EntryHandle.key = some 1 := by
    rw [hm, hmaking]
    decide +kernel
  obtain ⟨h, hh, hkey⟩ := Option.map_eq_some_iff.mp htaken
  obtain ⟨held, hheld, hgives⟩ := Option.bind_eq_some_iff.mp hh
  obtain ⟨-, hhonoured⟩ := handle_honoured .identity hreaches hheld (.inl ⟨1, hgives⟩)
  obtain ⟨own, hown, hgrown⟩ : ∃ own, (m.session.run growing).2.tables.find? "a" = some own ∧
      decide (own.table.capacity = 16 ∧ own.table.contains 1 = true) = true := by
    rw [← Option.any_eq_true, hm, hmaking, hgrowing]
    decide +kernel
  obtain ⟨hcapacity, hfound⟩ := of_decide_eq_true hgrown
  obtain ⟨clone, hclone⟩ : ∃ clone, (m.session.run growing).2.tables.find? "b" = some clone := by
    rw [← Option.isSome_iff_exists, hm, hmaking, hgrowing]
    decide +kernel
  obtain ⟨cleared, hcleared, hstored⟩ : ∃ cleared, (m.session.run clearing).2.tables.find? "a" = some cleared ∧
      cleared.table.contains 1 = true := by
    rw [← Option.any_eq_true, hm, hmaking, hclearing]
    decide +kernel
  obtain ⟨t, ht⟩ : ∃ t, m.session.plain? "a" = some t := by
    rw [← Option.isSome_iff_exists, hm, hmaking]
    decide +kernel
  obtain ⟨-, hacts⟩ := hhonoured hruns hown
  obtain ⟨hrefused, -⟩ := hhonoured hruns hclone
  obtain ⟨-, hstale⟩ := hhonoured hruns' hcleared
  refine ⟨m, _, _, h, own, clone, cleared, hreaches, reaches_iff_exists_runs.mpr ⟨_, hruns⟩,
    reaches_iff_exists_runs.mpr ⟨_, hruns'⟩, hown, hcapacity, ?_, hclone, hrefused (.inl (by decide)), hcleared,
    hstored, ?_⟩
  · have hpast : (m.session.history growing).Held "a" 1 := by
      rw [hm, hmaking, hgrowing]
      simp only [Session.history, History.Held, List.forall_mem_cons]
      decide +kernel
    rw [hkey] at hacts
    refine (hacts rfl ?_).2.2 ?_ hpast hfound
    · simp [hgrowing, Session.history, History.Replaced, Move.Replaces]
    · simp [hgrowing, Session.history, History.Cleared, Move.Clears, Edit.Clears]
  · refine (hstale rfl ?_).1 ?_
    · simp [hclearing, Session.history, History.Replaced, Move.Replaces]
    · rw [hclearing]
      exact ⟨_, List.mem_cons_self, rfl, t, ht, rfl, List.mem_cons_self⟩

/-- Until its own table is cleared, a handle answers as its key does, whatever became of the pair that was stored when it was taken: while the key is absent the handle is refused, and from when an equal key is stored again the handle acts on the pair stored with that. -/
theorem handle_follows_key (hasher : Hasher) (hm : (start hasher).Reaches m)
    (hheld : m.session.tables.find? name = some held) (hgives : held.table.Gives h) (hruns : m.Runs past m')
    (hkept : ¬past.Replaced name) (hgeneration : ¬past.Cleared name)
    (hheld' : m'.session.tables.find? name = some held') :
    (held'.table.contains h.key = false → h.IsRefused held'.table .staleEntry ∧
      ∀ {k}, sameKey held'.table.hash k h.key = true → ∀ v, h.ActsOn (held'.table.insert k v).2 (k, v)) ∧
    ∀ {p}, held'.table.getEntry? h.key = some p → h.ActsOn held'.table p := by
  have houtlives := outlives_of_runs hasher hm hheld hgives hruns
  have hlayout := houtlives.layout hheld'
  obtain ⟨held'', hfind, hfollows, -⟩ := houtlives.traces.own hkept
  obtain rfl : held' = held'' := Option.some.inj (hheld'.symm.trans hfind)
  refine ⟨fun habsent => ⟨EntryHandle.isRefused_of_absent hfollows houtlives.taken hlayout habsent, ?_⟩,
    EntryHandle.actsOn_of_follows hfollows houtlives.taken hlayout hgeneration⟩
  -- Storing a key raises no generation, so the handle passes for one taken since.
  intro k hsame v
  have hinserted := Table.widens_insert held'.table k v
  exact EntryHandle.actsOn_of_follows (hfollows.trans hinserted.toFollows) houtlives.taken
    (hinserted.layout hlayout) (by simpa using hgeneration) (Table.getEntry?_insert hlayout habsent hsame v)

/-- A run in which the pair of a key is taken out and another one is stored under the key. -/
theorem exists_removal_run : ∃ (m m' : Moment UInt64 Int64) (past : History UInt64 Int64) (h : EntryHandle UInt64)
    (held held' : Held UInt64 Int64), (start .identity).Reaches m ∧ m.session.tables.find? "t" = some held ∧
      held.table.handle? 1 = some h ∧ h.key = 1 ∧ m.Runs past m' ∧ ¬past.Replaced "t" ∧ ¬past.Cleared "t" ∧
      (∃ entry ∈ past, ¬entry.1.Holds "t" 1) ∧ m'.session.tables.find? "t" = some held' ∧
      held.table.getEntry? 1 = some (1, 10) ∧ held'.table.getEntry? 1 = some (1, 20) ∧ h.value held'.table = .ok 20 ∧
      (h.setValue held'.table 30).1 = .ok 20 := by
  obtain ⟨making, hmaking⟩ : ∃ requests : List (Step UInt64 Int64), requests =
    [.make "t" (.ofConfig .standard none), .edit "t" (.insert 1 10)] := ⟨_, rfl⟩
  obtain ⟨m, hm⟩ : ∃ m : Moment UInt64 Int64, m = ⟨(Session.run { hasher := .identity } making).2, []⟩ := ⟨_, rfl⟩
  obtain ⟨requests, hrequests⟩ : ∃ requests : List (Step UInt64 Int64), requests =
    [.edit "t" (.remove 1), .edit "t" (.insert 1 20)] := ⟨_, rfl⟩
  have hreaches : (start .identity).Reaches m := by
    rw [hm]
    exact reaches_run (sound_start .identity) _
  have hruns := (Runs.start : m.Runs [] m).requests requests (by rw [hrequests]; decide)
  obtain ⟨held, hheld, hfirst⟩ : ∃ held, m.session.tables.find? "t" = some held ∧
      decide ((held.table.handle? 1).map (fun h => (h.key, h.tableId, h.generation)) = some (1, 1, 0) ∧
        held.table.getEntry? 1 = some (1, 10)) = true := by
    rw [← Option.any_eq_true, hm, hmaking]
    decide +kernel
  obtain ⟨hgives, hold⟩ := of_decide_eq_true hfirst
  obtain ⟨⟨k, tableId, generation⟩, hh, hparts⟩ := Option.map_eq_some_iff.mp hgives
  obtain ⟨rfl, rfl, rfl⟩ : k = 1 ∧ tableId = 1 ∧ generation = 0 := by simpa using hparts
  obtain ⟨held', hheld', hlast⟩ : ∃ held', (m.session.run requests).2.tables.find? "t" = some held' ∧
      decide (held'.table.getEntry? 1 = some (1, 20) ∧ (⟨1, 1, 0⟩ : EntryHandle UInt64).value held'.table = .ok 20 ∧
        ((⟨1, 1, 0⟩ : EntryHandle UInt64).setValue held'.table 30).1 = .ok 20) = true := by
    rw [← Option.any_eq_true, hm, hmaking, hrequests]
    decide +kernel
  obtain ⟨hnew, hvalue, hset⟩ := of_decide_eq_true hlast
  refine ⟨m, _, _, _, held, held', hreaches, hheld, hh, rfl, hruns, ?_, ?_, ?_, hheld', hold, hnew, hvalue, hset⟩
  · simp [hrequests, Session.history, History.Replaced, Move.Replaces]
  · simp [hrequests, Session.history, History.Cleared, Move.Clears, Edit.Clears]
  · refine ⟨((m.session.step (.edit "t" (.remove 1) : Step UInt64 Int64)).2,
      .request (.edit "t" (.insert 1 20) : Step UInt64 Int64)), ?_, ?_⟩
    · simp [hrequests, Session.history]
    · rw [hm, hmaking]
      decide +kernel

/-- A handle that was taken before its pair was taken out, and acts on the one stored since. -/
theorem handle_follows_key_stored_again : ∃ (m : Moment UInt64 Int64) (h : EntryHandle UInt64)
    (held' : Held UInt64 Int64), m.session.tables.find? "t" = some held' ∧ h.ActsOn held'.table (1, 20) := by
  obtain ⟨m, m', past, h, held, held', hm, hheld, hgives, hkey, hruns, hkept, hgeneration, -, hheld', -, hnew, -⟩ :=
    exists_removal_run
  obtain ⟨-, hacts⟩ := handle_follows_key .identity hm hheld (.inl ⟨1, hgives⟩) hruns hkept hgeneration hheld'
  rw [hkey] at hacts
  exact ⟨m', h, held', hheld', hacts hnew⟩

/-- The key of a handle was absent since the handle was taken, and the handle reads and overwrites what was stored under the key again. -/
theorem removed_handle_revived : ∃ (m m' : Moment UInt64 Int64) (past : History UInt64 Int64) (h : EntryHandle UInt64)
    (held held' : Held UInt64 Int64), (start .identity).Reaches m ∧ m.session.tables.find? "t" = some held ∧
      held.table.Gives h ∧ h.key = 1 ∧ m.Runs past m' ∧ ¬past.Replaced "t" ∧ (∃ entry ∈ past, ¬entry.1.Holds "t" 1) ∧
      m'.session.tables.find? "t" = some held' ∧ held.table.getEntry? 1 = some (1, 10) ∧
      held'.table.getEntry? 1 = some (1, 20) ∧ h.value held'.table = .ok 20 ∧ (h.setValue held'.table 30).1 = .ok 20 ∧
      ¬h.IsRefused held'.table .staleEntry := by
  obtain ⟨m, m', past, h, held, held', hm, hheld, hgives, hkey, hruns, hkept, -, hremoved, hheld', hold, hnew, hvalue,
    hset⟩ := exists_removal_run
  refine ⟨m, m', past, h, held, held', hm, hheld, .inl ⟨1, hgives⟩, hkey, hruns, hkept, hremoved, hheld', hold, hnew,
    hvalue, hset, fun hrefused => ?_⟩
  rw [hrefused.value] at hvalue
  simp at hvalue

end Moment

end FlatTable
