import FlatTable.Proofs.Sessions
import Mathlib.Data.List.Nodup
import Mathlib.Logic.Relation

/-!
# Moments of a session

A session answers a request as a whole, a section with all that it does included. Here its run is cut into moments: requests come in, sections open, act and end, several of them at a time and in any order. Every run of requests is such a run of moments, and so is everything that a section does.

The live scopes of a moment are those of the sections that are running, and each of them has a scope of its own. What runs later ran already or was opened since, and so a section that has ended never runs again.
-/

namespace FlatTable

variable {K V σ : Type}

/-- Whether a request opens no section. -/
def Step.isAtomic : Step K V σ → Bool
  | .runSection .. => false
  | _ => true

/-- A session between two things that it does, and the sections that are running. -/
structure Moment (K V : Type) where
  session : Session K V
  running : List OpenSection

namespace Session

/-! ### Scopes

Only the opening and the end of a section touch the scopes. -/

theorem scopes_of_acts [BEq K] {s s' : Session K V} {sec : OpenSection} (h : s.Acts sec s') : s'.scopes = s.scopes := by
  cases h <;> rfl

section Steps

variable [KeyKind K] [ValueKind V]

theorem scopes_editPlain (s : Session K V) (table : String) (e : Edit K V) :
    (s.editPlain table e).2.scopes = s.scopes := by
  rw [editPlain]
  split <;> rfl

omit [KeyKind K] [ValueKind V] in
theorem scopes_editByHandle (s : Session K V) (table handle : String)
    (change : EntryHandle K → Table K V → Reply K V × Table K V) :
    (s.editByHandle table handle change).2.scopes = s.scopes := by
  rw [editByHandle]
  split <;> rfl

theorem scopes_step (s : Session K V) {request : Step K V σ} (h : request.isAtomic = true) :
    (s.step request).2.scopes = s.scopes := by
  cases request with
  | edit table e => exact scopes_editPlain s table e
  | handleSet table handle v => exact scopes_editByHandle s table handle _
  | handleModify table handle amount => exact scopes_editByHandle s table handle _
  | takeHandle table k handle =>
    rw [step]
    split
    · rfl
    · split <;> rfl
  | takeHandles table stem =>
    rw [step]
    split
    · rfl
    · rename_i t _
      obtain ⟨handles, hkept⟩ := exists_keepHandles s stem t.handles
      rw [hkept]
  | runSection table access ops => exact Bool.noConfusion h
  | entryKey entry => rfl
  | entryIsLive entry => rfl
  | _ =>
    rw [step]
    split <;> rfl

end Steps

end Session

namespace Moment

variable [KeyKind K] [ValueKind V]

/-- The moment before the first request. -/
def start (hasher : Hasher) : Moment K V := ⟨{ hasher := hasher }, []⟩

/-- A request is answered. -/
def request (m : Moment K V) (request : Step K V σ) : Moment K V := { m with session := (m.session.step request).2 }

/-- A section opens. -/
def enter (m : Moment K V) (table : String) (access : Access) : Moment K V where
  session := { m.session with scopes := m.session.scopes.enter.2 }
  running := ⟨m.session.scopes.enter.1, table, access⟩ :: m.running

/-- A section does one thing. -/
def act (m : Moment K V) (sec : OpenSection) (op : SectionOp K V σ) : Moment K V :=
  { m with session := (Session.sectionOp sec m.session op).2 }

/-- A section ends, done or broken off. -/
def leave (m : Moment K V) (sec : OpenSection) : Moment K V where
  session := { m.session with scopes := m.session.scopes.leave sec.scope }
  running := m.running.filter (·.scope ≠ sec.scope)

/-- One moment comes right after another. The callbacks of any two requests may have states of different types. -/
inductive Next (m : Moment K V) : Moment K V → Prop
  | request {σ : Type} {request : Step K V σ} (h : request.isAtomic = true) : Next m (m.request request)
  | enter (table : String) (access : Access) : Next m (m.enter table access)
  | act {sec : OpenSection} (hsec : sec ∈ m.running) {σ : Type} {op : SectionOp K V σ} (h : op.isAtomic = true) :
    Next m (m.act sec op)
  | leave {sec : OpenSection} (hsec : sec ∈ m.running) : Next m (m.leave sec)

/-- One moment comes after another, or is the same. -/
def Reaches : Moment K V → Moment K V → Prop := Relation.ReflTransGen Next

/-! ### What holds at every moment -/

/-- The running sections are those with live scopes, and no two of them share one. -/
structure Sound (m : Moment K V) : Prop where
  live : m.session.scopes.live = m.running.map (·.scope)
  nodup : (m.running.map (·.scope)).Nodup
  opened : ∀ sec ∈ m.running, sec.scope < m.session.scopes.opened
  reachable : m.session.AllReachable

omit [ValueKind V] in
theorem sound_of_scopes_eq {m : Moment K V} (h : m.Sound) {s : Session K V} (hscopes : s.scopes = m.session.scopes)
    (hreachable : s.AllReachable) : (⟨s, m.running⟩ : Moment K V).Sound where
  live := by rw [hscopes, h.live]
  nodup := h.nodup
  opened sec hsec := by
    rw [hscopes]
    exact h.opened sec hsec
  reachable := hreachable

omit [ValueKind V] in
theorem sound_enter {m : Moment K V} (h : m.Sound) (table : String) (access : Access) :
    (m.enter table access).Sound where
  live := by rw [enter, Scopes.enter, List.map_cons, h.live]
  nodup := by
    -- The next scope is above all that were opened.
    rw [enter, List.map_cons, List.nodup_cons]
    refine ⟨?_, h.nodup⟩
    intro hmem
    obtain ⟨sec, hsec, hscope⟩ := List.mem_map.mp hmem
    have hlt := h.opened sec hsec
    have heq : sec.scope = m.session.scopes.opened := hscope
    omega
  opened sec hsec := by
    show sec.scope < m.session.scopes.opened + 1
    rcases List.mem_cons.mp hsec with rfl | hsec
    · exact Nat.lt_succ_self _
    · exact Nat.lt_succ_of_lt (h.opened sec hsec)
  reachable := h.reachable

omit [ValueKind V] in
theorem sound_leave {m : Moment K V} (h : m.Sound) (sec : OpenSection) : (m.leave sec).Sound where
  live := by
    show m.session.scopes.live.filter (· ≠ sec.scope) = (m.running.filter (·.scope ≠ sec.scope)).map (·.scope)
    rw [h.live, List.filter_map]
    rfl
  nodup := h.nodup.sublist (List.filter_sublist.map _)
  opened other hother := h.opened other (List.mem_of_mem_filter hother)
  reachable := h.reachable

theorem sound_next {m m' : Moment K V} (h : m.Sound) (hnext : m.Next m') : m'.Sound := by
  cases hnext with
  | request hatomic =>
    exact sound_of_scopes_eq h (Session.scopes_step m.session hatomic) (Session.allReachable_step h.reachable _)
  | enter table access => exact sound_enter h table access
  | @act sec hsec σ op hatomic =>
    have hacts := Session.acts_sectionOp sec m.session hatomic
    exact sound_of_scopes_eq h (Session.scopes_of_acts hacts) (Session.allReachable_of_acts h.reachable hacts)
  | leave hsec => exact sound_leave h _

theorem sound_reaches {m m' : Moment K V} (h : m.Sound) (hreaches : m.Reaches m') : m'.Sound := by
  induction hreaches with
  | refl => exact h
  | tail _ hnext ih => exact sound_next ih hnext

omit [ValueKind V] in
theorem sound_start (hasher : Hasher) : (start hasher : Moment K V).Sound where
  live := rfl
  nodup := List.nodup_nil
  opened _ hsec := absurd hsec List.not_mem_nil
  reachable _ hentry := absurd hentry List.not_mem_nil

section Sound

variable {m : Moment K V} (h : m.Sound)
include h

omit [ValueKind V] in
theorem eq_of_scope_eq {sec other : OpenSection} (hsec : sec ∈ m.running) (hother : other ∈ m.running)
    (hscope : sec.scope = other.scope) : sec = other :=
  List.inj_on_of_nodup_map h.nodup hsec hother hscope

omit [ValueKind V] in
theorem isLive_iff (scope : Nat) :
    m.session.scopes.isLive scope = true ↔ ∃ sec ∈ m.running, sec.scope = scope := by
  rw [Scopes.isLive, h.live, List.contains_iff_mem, List.mem_map]

end Sound

/-! ### What runs later -/

/-- The sections that run later ran already or have scopes opened since. -/
structure Precedes (m m' : Moment K V) : Prop where
  opened : m.session.scopes.opened ≤ m'.session.scopes.opened
  running : ∀ sec ∈ m'.running, sec ∈ m.running ∨ m.session.scopes.opened ≤ sec.scope

omit [KeyKind K] [ValueKind V] in
theorem precedes_trans {m m' m'' : Moment K V} (h : m.Precedes m') (h' : m'.Precedes m'') : m.Precedes m'' where
  opened := h.opened.trans h'.opened
  running sec hsec := by
    rcases h'.running sec hsec with hsec | hnew
    · exact h.running sec hsec
    · exact .inr (h.opened.trans hnew)

omit [KeyKind K] [ValueKind V] in
theorem precedes_of_scopes_eq {m : Moment K V} {s : Session K V} (hscopes : s.scopes = m.session.scopes) :
    m.Precedes ⟨s, m.running⟩ where
  opened := by rw [hscopes]
  running sec hsec := .inl hsec

theorem precedes_next {m m' : Moment K V} (hnext : m.Next m') : m.Precedes m' := by
  cases hnext with
  | request hatomic => exact precedes_of_scopes_eq (Session.scopes_step m.session hatomic)
  | enter table access =>
    refine ⟨Nat.le_succ _, ?_⟩
    intro sec hsec
    rcases List.mem_cons.mp hsec with rfl | hsec
    · exact .inr (Nat.le_refl _)
    · exact .inl hsec
  | @act sec hsec σ op hatomic =>
    exact precedes_of_scopes_eq (Session.scopes_of_acts (Session.acts_sectionOp sec m.session hatomic))
  | leave hsec => exact ⟨Nat.le_refl _, fun other hother => .inl (List.mem_of_mem_filter hother)⟩

theorem precedes_reaches {m m' : Moment K V} (hreaches : m.Reaches m') : m.Precedes m' := by
  induction hreaches with
  | refl => exact precedes_of_scopes_eq rfl
  | tail _ hnext ih => exact precedes_trans ih (precedes_next hnext)

/-- A section that was open once and runs no more never runs again. -/
theorem not_mem_running_of_reaches {m m' : Moment K V} (hreaches : m.Reaches m') {sec : OpenSection}
    (hopened : sec.scope < m.session.scopes.opened) (hended : sec ∉ m.running) : sec ∉ m'.running := by
  intro hsec
  rcases (precedes_reaches hreaches).running sec hsec with hsec | hnew
  · exact hended hsec
  · omega

/-! ### Whole requests and sections -/

/-- A section that opens, does what it does and ends leads back to the sections that ran before. -/
theorem reaches_of_section {m : Moment K V} (h : m.Sound) (table : String) (access : Access) {s : Session K V}
    (hops : (m.enter table access).Reaches ⟨s, (m.enter table access).running⟩) :
    m.Reaches ⟨{ s with scopes := s.scopes.leave m.session.scopes.opened }, m.running⟩ := by
  have hothers : m.running.filter (·.scope ≠ m.session.scopes.opened) = m.running := by
    rw [List.filter_eq_self]
    intro sec hsec
    have hlt := h.opened sec hsec
    simp only [ne_eq, decide_not, Bool.not_eq_true', decide_eq_false_iff_not]
    omega
  have hended : (m.enter table access).running.filter (·.scope ≠ m.session.scopes.opened) = m.running := by
    rw [enter, Scopes.enter, List.filter_cons_of_neg (by simp), hothers]
  have hopen : (⟨m.session.scopes.opened, table, access⟩ : OpenSection) ∈ (m.enter table access).running :=
    List.mem_cons_self
  have hleave : Next ⟨s, (m.enter table access).running⟩ _ := .leave hopen
  rw [leave, hended] at hleave
  exact (Relation.ReflTransGen.head (.enter table access) hops).tail hleave

mutual

theorem reaches_sectionOp {sec : OpenSection} {s : Session K V} {running : List OpenSection}
    (h : (⟨s, running⟩ : Moment K V).Sound) (hsec : sec ∈ running) :
    (op : SectionOp K V σ) → Reaches ⟨s, running⟩ ⟨(Session.sectionOp sec s op).2, running⟩
  | .nested table access ops => by
    rw [Session.sectionOp]
    exact reaches_of_section h table access
      (reaches_sectionOps (sound_enter h table access) List.mem_cons_self ops)
  | .view _ | .isLive | .detach .. | .entryKey _ | .entryIsLive _ | .entryValue _ | .entrySet .. | .abort =>
    .single (.act hsec rfl)

/-- What a section does, to the end or to where it breaks off, is a run of moments. -/
theorem reaches_sectionOps {sec : OpenSection} {s : Session K V} {running : List OpenSection}
    (h : (⟨s, running⟩ : Moment K V).Sound) (hsec : sec ∈ running) :
    (ops : List (SectionOp K V σ)) → Reaches ⟨s, running⟩ ⟨(Session.sectionOps sec s ops).2, running⟩
  | [] => .refl
  | op :: ops => by
    have hop := reaches_sectionOp h hsec op
    rw [Session.sectionOps]
    dsimp only
    split
    · exact hop
    · exact hop.trans (reaches_sectionOps (sound_reaches h hop) hsec ops)

end

theorem reaches_step {m : Moment K V} (h : m.Sound) (request : Step K V σ) : m.Reaches (m.request request) := by
  by_cases hatomic : request.isAtomic = true
  · exact .single (.request hatomic)
  · cases request with
    | runSection table access ops =>
      rw [Moment.request, Session.step]
      split
      · exact .refl
      · exact reaches_of_section h table access
          (reaches_sectionOps (sound_enter h table access) List.mem_cons_self ops)
    | _ => exact absurd rfl hatomic

/-- Requests, answered one after the other, are a run of moments. -/
theorem reaches_run {m : Moment K V} (h : m.Sound) (requests : List (Step K V σ)) :
    m.Reaches ⟨(m.session.run requests).2, m.running⟩ := by
  induction requests generalizing m with
  | nil => exact .refl
  | cons request requests ih =>
    have hstep := reaches_step h request
    exact hstep.trans (ih (sound_reaches h hstep))

end Moment

end FlatTable
