import Patchbay.Proofs.History.Moves
import Patchbay.Proofs.Snapshot.Readable

/-!
# Histories as timelines

A history keeps a list of packed snapshots with an index into it. What it stands for is a timeline:
the snapshot that the patch is at, what came before it and what comes after it, each seen from
there. On a timeline there is no index that could be wrong, and a bound on the number of states is a
bound on how far back it reaches.

## Key results

- `Shows.record` / `Shows.undo` / `Shows.redo` / `Shows.clear`: the operations of a history are
  those of its timeline
- `shows_timeline`: after any use a history shows the timeline of that use, and its moves restore
  the snapshots of their targets
-/

namespace Patchbay

/-- States, seen from the current one. Those before it are listed latest first, those after it next
first. -/
inductive Timeline (α : Type) where
  | empty
  | at (before : List α) (current : α) (after : List α)

namespace Timeline

variable {α : Type}

/-- The states in the order of time. -/
def states : Timeline α → List α
  | empty => []
  | .at before current after => before.reverse ++ current :: after

/-- How many states there are before the current one. -/
def position : Timeline α → Nat
  | empty => 0
  | .at before _ _ => before.length

def current? : Timeline α → Option α
  | empty => none
  | .at _ current _ => some current

/-- A new state comes after the current one and takes the place of all that came after it. No more
than `most` states are kept, so that the oldest ones may go. -/
def record (most : Nat) (new : α) : Timeline α → Timeline α
  | empty => .at [] new []
  | .at before current _ => .at ((current :: before).take (most - 1)) new []

/-- The timeline seen from the state before. -/
def back? : Timeline α → Option (Timeline α)
  | .at (last :: before) current after => some (.at before last (current :: after))
  | _ => none

/-- The timeline seen from the state after. -/
def forth? : Timeline α → Option (Timeline α)
  | .at before current (next :: after) => some (.at (current :: before) next after)
  | _ => none

/-- The current state is the one at the position. -/
theorem getElem?_position (t : Timeline α) : t.states[t.position]? = t.current? := by
  cases t with
  | empty => rfl
  | «at» before current after =>
    rw [states, position, List.getElem?_append_right (by simp), List.length_reverse, Nat.sub_self]
    rfl

/-- A step back is among the same states. -/
theorem of_back? {t u : Timeline α} (h : t.back? = some u) :
    u.states = t.states ∧ u.position + 1 = t.position := by
  obtain _ | ⟨_ | ⟨last, before⟩, current, after⟩ := t
  · cases h
  · cases h
  · obtain rfl := Option.some.inj h
    simp [states, position]

/-- A step forward is among the same states. -/
theorem of_forth? {t u : Timeline α} (h : t.forth? = some u) :
    u.states = t.states ∧ u.position = t.position + 1 := by
  obtain _ | ⟨before, current, _ | ⟨next, after⟩⟩ := t
  · cases h
  · cases h
  · obtain rfl := Option.some.inj h
    simp [states, position]

theorem isSome_back? (t : Timeline α) : t.back?.isSome = decide (0 < t.position) := by
  obtain _ | ⟨_ | ⟨last, before⟩, current, after⟩ := t <;> simp [back?, position]

theorem isSome_forth? (t : Timeline α) :
    t.forth?.isSome = decide (t.position + 1 < t.states.length) := by
  obtain _ | ⟨before, current, _ | ⟨next, after⟩⟩ := t <;> simp [forth?, position, states]

/-- After a step there is a current state. -/
theorem exists_current? {t u : Timeline α} (h : t.back? = some u ∨ t.forth? = some u) :
    ∃ s, u.current? = some s := by
  cases u with
  | empty =>
    -- No step leads to the empty timeline.
    obtain _ | ⟨_ | ⟨last, before⟩, current, _ | ⟨next, after⟩⟩ := t <;>
      simp [back?, forth?] at h
  | «at» before current after => exact ⟨current, rfl⟩

/-- What is kept besides the new state are the latest of the states up to the current one. -/
theorem states_record (most : Nat) (new : α) (t : Timeline α) : (t.record most new).states =
    (t.states.take (t.position + 1)).drop
      ((t.states.take (t.position + 1)).length - (most - 1)) ++ [new] := by
  cases t with
  | empty => simp [record, states]
  | «at» before current after =>
    have htake : (before.reverse ++ current :: after).take (before.length + 1) =
        (current :: before).reverse := by
      rw [List.take_append, List.length_reverse, Nat.add_sub_cancel_left,
        List.take_of_length_le (by simp), List.reverse_cons]
      rfl
    rw [record, states, states, position, htake, List.length_reverse, ← List.reverse_take]

end Timeline

/-- What a packed snapshot is unpacked to has nodes of the same kinds. So it is restored where these
are declared. -/
theorem Patch.exists_restore_of_unpack {p : Patch} {s d : Snapshot}
    (hkinds : ∀ n ∈ s.nodes, p.kinds.contains n.kind = true) (hd : Snapshot.unpack s.pack = .ok d) :
    ∃ q, p.restore d = .ok q := by
  refine exists_restore fun n hn => ?_
  have hkind : n.kind ∈ s.nodes.map (·.kind) :=
    Snapshot.kinds_of_ofText (s.unpack_pack ▸ hd) ▸ List.mem_map_of_mem hn
  obtain ⟨m, hm, hmn⟩ := List.mem_map.1 hkind
  exact hmn ▸ hkinds m hm

namespace History

variable {h : History} {p : Patch} {most : Nat} {t : Timeline Snapshot}

/-- A history that keeps no more than `most` states shows a timeline of snapshots: it holds them
packed in the order of time, and its index is the position. -/
structure Shows (h : History) (most : Nat) (t : Timeline Snapshot) : Prop where
  entries : h.entries = t.states.map Snapshot.pack
  current : h.current = t.position
  capacity : h.capacity = most
  room : t.states.length ≤ most

namespace Shows

theorem size (hs : h.Shows most t) : h.size = t.states.length := by
  rw [History.size, hs.entries, List.length_map]

theorem canUndo (hs : h.Shows most t) : h.canUndo = t.back?.isSome := by
  rw [History.canUndo, hs.current, t.isSome_back?]

theorem canRedo (hs : h.Shows most t) : h.canRedo = t.forth?.isSome := by
  rw [History.canRedo, hs.current, hs.size, t.isSome_forth?]

/-- The index of a history with states is that of a state. -/
theorem valid (hs : h.Shows most t) : h.Valid := by
  unfold Valid
  rw [hs.size, hs.current]
  cases t with
  | empty => exact Nat.zero_lt_one
  | «at» before current after =>
    simp only [Timeline.position, Timeline.states, List.length_append, List.length_reverse,
      List.length_cons]
    omega

/-- The current state is in the history. -/
theorem getElem?_entries (hs : h.Shows most t) :
    h.entries[t.position]? = t.current?.map Snapshot.pack := by
  rw [hs.entries, List.getElem?_map, t.getElem?_position]

theorem empty (capacity : Nat) : (History.empty capacity).Shows (max capacity 1) .empty where
  entries := rfl
  current := rfl
  capacity := rfl
  room := Nat.zero_le _

theorem clear (hs : h.Shows most t) : h.clear.Shows most .empty where
  entries := rfl
  current := rfl
  capacity := hs.capacity
  room := Nat.zero_le _

/-- What is recorded comes after the current state; what came after that goes, and so do the oldest
states if there are too many. -/
theorem record (hs : h.Shows most t) (hmost : 0 < most) (p : Patch) :
    (h.record p).Shows most (t.record most p.snapshot) := by
  have hstates := t.states_record most p.snapshot
  have hkept : h.entries.take (h.current + 1) =
      (t.states.take (t.position + 1)).map Snapshot.pack := by
    rw [hs.entries, hs.current, List.map_take]
  generalize t.states.take (t.position + 1) = kept at hstates hkept
  have hentries : (h.record p).entries = (t.record most p.snapshot).states.map Snapshot.pack := by
    -- Nothing is dropped but states before the new one.
    simp only [History.record, push, evict, History.size, hkept, hs.capacity, hstates,
      List.map_append, List.map_drop, List.map_cons, List.map_nil, List.length_append,
      List.length_map, List.length_cons, List.length_nil]
    rw [List.drop_append_of_le_length (by rw [List.length_map]; omega)]
    congr 2
    omega
  have hlength : (t.record most p.snapshot).states.length =
      kept.length - (kept.length - (most - 1)) + 1 := by
    rw [hstates, List.length_append, List.length_drop, List.length_singleton]
  constructor
  case entries => exact hentries
  case current =>
    -- The new state is the last one on both sides.
    have hlast : (t.record most p.snapshot).position + 1 =
        (t.record most p.snapshot).states.length := by
      cases t <;> simp [Timeline.record, Timeline.position, Timeline.states]
    simp only [History.record, push, evict, History.size, hkept, hs.capacity, List.length_append,
      List.length_map, List.length_cons, List.length_nil]
    omega
  case capacity => exact hs.capacity
  case room => omega

/-- Where the index is moved to another state, the history shows the timeline from there. -/
theorem moved {u : Timeline Snapshot} (hs : h.Shows most t) (hu : u.states = t.states) :
    { h with current := u.position }.Shows most u where
  entries := hs.entries.trans (by rw [hu])
  current := rfl
  capacity := hs.capacity
  room := hu ▸ hs.room

end Shows

/-- What a move answers whose target is a timeline, if there is one. Without a target nothing
happens. Otherwise the history shows the target, and on a patch that declares the kinds of the
snapshot that was recorded there, what the snapshot is unpacked to is restored. This is the snapshot
itself if its objects have their keys in order, all its floating-point numbers are read back, and it
nests no deeper than texts may. -/
def Answers (h : History) (most : Nat) (p : Patch) (r : History × Except Error (Option Patch)) :
    Option (Timeline Snapshot) → Prop
  | none => r = (h, .ok none)
  | some u => r.1.Shows most u ∧ r.2 ≠ .ok none ∧ ∃ s, u.current? = some s ∧
    ((∀ n ∈ s.nodes, p.kinds.contains n.kind = true) →
      (∀ d, Snapshot.unpack s.pack = .ok d → ∃ q, p.restore d = .ok q ∧ r.2 = .ok (some q)) ∧
        (s.Ordered → s.Legible → s.toRaw.depth ≤ Json.depthLimit →
          ∃ q, p.restore s = .ok q ∧ r.2 = .ok (some q)))

/-- Moving the index to another state of the timeline restores the patch from the snapshot that was
recorded there. -/
theorem Shows.answers {u : Timeline Snapshot} {s : Snapshot}
    {r : History × Except Error (Option Patch)} (hs : h.Shows most t) (hu : u.states = t.states)
    (hcurrent : u.current? = some s)
    (hr : r = ({ h with current := u.position }, (p.restorePacked s.pack).map some)) :
    h.Answers most p r (some u) := by
  have hunpacked : (∀ n ∈ s.nodes, p.kinds.contains n.kind = true) →
      ∀ d, Snapshot.unpack s.pack = .ok d → ∃ q, p.restore d = .ok q ∧ r.2 = .ok (some q) := by
    intro hkinds d hd
    obtain ⟨q, hq⟩ := Patch.exists_restore_of_unpack hkinds hd
    refine ⟨q, hq, ?_⟩
    rw [hr, Patch.restorePacked_of_unpack hd, hq]
    rfl
  refine ⟨hr ▸ hs.moved hu, fun hnone => ?_, s, hcurrent, fun hkinds => ⟨hunpacked hkinds, ?_⟩⟩
  · cases hq : p.restorePacked s.pack <;> simp [hr, hq, Except.map] at hnone
  · intro hordered hlegible hdepth
    have hsame : Snapshot.unpack s.pack = .ok s :=
      s.unpack_pack.trans (Snapshot.ofText_toText hordered hlegible hdepth)
    exact hunpacked hkinds s hsame

/-- A step back restores the state before. -/
theorem Shows.undo_eq {u : Timeline Snapshot} {s : Snapshot} (hs : h.Shows most t)
    (hback : t.back? = some u) (hcurrent : u.current? = some s) (p : Patch) :
    h.undo p = ({ h with current := u.position }, (p.restorePacked s.pack).map some) := by
  obtain ⟨hstates, hposition⟩ := Timeline.of_back? hback
  have hindex : h.current - 1 = u.position := by
    rw [hs.current]
    omega
  have hstate : h.entries[h.current - 1]? = some s.pack := by
    rw [hindex, (hs.moved hstates).getElem?_entries, hcurrent, Option.map_some]
  rw [History.undo_eq (by rw [hs.canUndo, hback]; rfl) hstate, hindex]

/-- A step forward restores the state after. -/
theorem Shows.redo_eq {u : Timeline Snapshot} {s : Snapshot} (hs : h.Shows most t)
    (hforth : t.forth? = some u) (hcurrent : u.current? = some s) (p : Patch) :
    h.redo p = ({ h with current := u.position }, (p.restorePacked s.pack).map some) := by
  obtain ⟨hstates, hposition⟩ := Timeline.of_forth? hforth
  have hindex : h.current + 1 = u.position := by
    rw [hs.current, hposition]
  have hstate : h.entries[h.current + 1]? = some s.pack := by
    rw [hindex, (hs.moved hstates).getElem?_entries, hcurrent, Option.map_some]
  rw [History.redo_eq (by rw [hs.canRedo, hforth]; rfl) hstate, hindex]

/-- A step back goes one back on the timeline. -/
theorem Shows.undo (hs : h.Shows most t) (p : Patch) : h.Answers most p (h.undo p) t.back? := by
  cases hback : t.back? with
  | none => exact undo_of_not_canUndo (by rw [hs.canUndo, hback]; rfl)
  | some u =>
    obtain ⟨s, hcurrent⟩ := Timeline.exists_current? (.inl hback)
    exact hs.answers (Timeline.of_back? hback).1 hcurrent (hs.undo_eq hback hcurrent p)

/-- A step forward goes one forth on the timeline. -/
theorem Shows.redo (hs : h.Shows most t) (p : Patch) : h.Answers most p (h.redo p) t.forth? := by
  cases hforth : t.forth? with
  | none => exact redo_of_not_canRedo (by rw [hs.canRedo, hforth]; rfl)
  | some u =>
    obtain ⟨s, hcurrent⟩ := Timeline.exists_current? (.inr hforth)
    exact hs.answers (Timeline.of_forth? hforth).1 hcurrent (hs.redo_eq hforth hcurrent p)

/-! ### Histories in use -/

/-- What is done with a history. Each time it is given any patch, so that anything may have been
done in between. -/
inductive Use where
  | record (p : Patch)
  | undo (p : Patch)
  | redo (p : Patch)
  | clear

/-- The history after a use. -/
def use (h : History) : Use → History
  | .record p => h.record p
  | .undo p => (h.undo p).1
  | .redo p => (h.redo p).1
  | .clear => h.clear

/-- The timeline after a use. -/
def Use.trace (most : Nat) (t : Timeline Snapshot) : Use → Timeline Snapshot
  | .record p => t.record most p.snapshot
  | .undo _ => t.back?.getD t
  | .redo _ => t.forth?.getD t
  | .clear => .empty

/-- Whatever a move answers, the history shows the target, or the timeline as it was. -/
theorem Answers.shows {r : History × Except Error (Option Patch)} {u : Option (Timeline Snapshot)}
    (hs : h.Shows most t) (ha : h.Answers most p r u) : r.1.Shows most (u.getD t) := by
  cases u with
  | none =>
    obtain rfl : r = (h, .ok none) := ha
    exact hs
  | some u => exact ha.1

theorem Shows.use (hs : h.Shows most t) (hmost : 0 < most) (u : Use) :
    (h.use u).Shows most (u.trace most t) := by
  cases u with
  | record p => exact hs.record hmost p
  | undo p => exact (hs.undo p).shows hs
  | redo p => exact (hs.redo p).shows hs
  | clear => exact hs.clear

theorem Shows.uses (hs : h.Shows most t) (hmost : 0 < most) (us : List Use) :
    (us.foldl History.use h).Shows most (us.foldl (Use.trace most) t) := by
  induction us generalizing h t with
  | nil => exact hs
  | cons u us ih => exact ih (hs.use hmost u)

/-- After any use a new history shows the timeline of that use. It holds as many states as the
timeline, no more than its capacity, and its index is that of a state if there are any; what it says
about moves is so on the timeline; and a move restores the snapshot that was recorded at its target.
-/
theorem shows_timeline (capacity : Nat) (us : List Use) :
    let h := us.foldl History.use (.empty capacity)
    let t := us.foldl (Use.trace (max capacity 1)) .empty
    h.Shows (max capacity 1) t ∧
      h.size = t.states.length ∧ h.size ≤ max capacity 1 ∧
      (h.entries ≠ [] → h.current < h.entries.length) ∧
      h.canUndo = t.back?.isSome ∧ h.canRedo = t.forth?.isSome ∧
      ∀ p, h.Answers (max capacity 1) p (h.undo p) t.back? ∧
        h.Answers (max capacity 1) p (h.redo p) t.forth? := by
  intro h t
  have hs : h.Shows (max capacity 1) t :=
    (Shows.empty capacity).uses (Nat.lt_of_lt_of_le Nat.zero_lt_one (Nat.le_max_right _ _)) us
  refine ⟨hs, hs.size, hs.size ▸ hs.room, fun hne => ?_, hs.canUndo, hs.canRedo,
    fun p => ⟨hs.undo p, hs.redo p⟩⟩
  have hv := hs.valid
  have hpos := List.length_pos_iff.2 hne
  simp only [Valid, History.size] at hv
  omega

/-- A patch with one node, a number. -/
def counted (x : Nat) : Patch :=
  ((Session.start true .base 2).performAll
    [.declare Builtin.number, .insert "number" "n" .origin,
      .edit "n" (.setValue "value" .input (.ofNat x))]).patch

/-- The state of a patch is recorded before and after its number was changed. A step back from there
changes it back. -/
theorem shows_timeline_counted :
    let h := ([.record (counted 3), .record (counted 7)] : List Use).foldl use (.empty 2)
    (counted 3).snapshot.Ordered ∧ (counted 3).snapshot.Legible ∧
      (counted 3).snapshot.toRaw.depth ≤ Json.depthLimit ∧
      (h.undo (counted 7)).1.entries = [(counted 3).snapshot.pack, (counted 7).snapshot.pack] ∧
      (h.undo (counted 7)).1.current = 0 ∧
      ∃ q, (counted 7).restore (counted 3).snapshot = .ok q ∧
        (h.undo (counted 7)).2 = .ok (some q) ∧
        q.nodes.map (fun n => (n.id, n.kind, (n.port? "value" .input).bind (·.value))) =
          [("n", "number", some (.ofNat 3))] := by
  intro h
  have hordered : (counted 3).snapshot.Ordered :=
    List.forall_mem_singleton.2 ⟨⟨Table.ascending _, trivial, trivial⟩,
      ⟨Table.ascending _, trivial, trivial⟩, trivial⟩
  have hlegible : (counted 3).snapshot.Legible := by decide +kernel
  have hdepth : (counted 3).snapshot.toRaw.depth ≤ Json.depthLimit := by decide +kernel
  have hkinds : ∀ n ∈ (counted 3).snapshot.nodes, (counted 7).kinds.contains n.kind = true := by
    decide +kernel
  obtain ⟨-, -, -, -, -, -, hmoves⟩ := shows_timeline 2 [.record (counted 3), .record (counted 7)]
  obtain ⟨hshows, -, s, hs, hanswer⟩ := (hmoves (counted 7)).1
  obtain rfl := Option.some.inj hs
  obtain ⟨q, hq, hundo⟩ := (hanswer hkinds).2 hordered hlegible hdepth
  obtain ⟨r, hr, hnumber⟩ : ∃ r, (counted 7).restore (counted 3).snapshot = .ok r ∧
      r.nodes.map (fun n => (n.id, n.kind, (n.port? "value" .input).bind (·.value))) =
        [("n", "number", some (.ofNat 3))] := ⟨_, rfl, rfl⟩
  obtain rfl := Except.ok.inj (hr.symm.trans hq)
  exact ⟨hordered, hlegible, hdepth, hshows.entries, hshows.current, r, hq, hundo, hnumber⟩

end History

end Patchbay
