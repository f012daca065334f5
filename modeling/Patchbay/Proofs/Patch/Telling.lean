import Patchbay.Proofs.Patch.Regular

/-!
# What nodes are told, and what they make of it

The hooks of both ends of a wire are told of its changes, the source first. A hook answers with the
event as it leaves it, and with edits of its own node; the target is told of whatever the source has
left. So for any hooks it can be said exactly what telling comes to: the event as it is in the end
decides about the answer, each end that has a hook has one more notice in the journal, and all other
nodes stay as they are. Only of hooks that keep to what an event is about can it be said that the
target, too, hears of the change in question.

## Key results

- `tell_cases`: what it comes to that a node is told of an event
- `announce_eq_true_iff`: a change is cancelled iff the event is, when both ends have been told
- `informed_announce`: telling the ends of a wire leaves notices and edits of these nodes
- `countP_tidings`: each end with a hook is told once, where hooks keep to the change
-/

namespace Patchbay

/-- The hook may cancel the event, or take that back; what the event is about stays. -/
def Hook.KeepsChange (hook : Hook) : Prop := ∀ e n g, (hook e n g).1.change = e.change

/-- The hook of the kind, if it has one, keeps to what an event is about. -/
def Kind.KeepsChange (k : Kind) : Prop :=
  ∀ hook, k.behaviour.onUpdate = some hook → hook.KeepsChange

/-- The wire that is made or was taken away. -/
def Change.wire (c : Change) : Wire := (WireEvent.ofChange c).wire

/-- Whether the notice is that the hook of a node was told of a change. -/
def Notice.tells (node : String) (c : Change) : Notice → Bool
  | .told x e _ => x = node && e.change = c
  | _ => false

namespace Patch

open Patchbay.Graph

variable {p q r : Patch} {id : String} {e : WireEvent} {c : Change}

/-- The hook by which a node is told of its wires. -/
def hook? (p : Patch) (id : String) : Option Hook :=
  (p.kindOf? id).bind fun k => (p.behaviour k).onUpdate

theorem Trimmed.hook? (h : p.Trimmed q) (id : String) : q.hook? id = p.hook? id := by
  rw [Patch.hook?, Patch.hook?, h.kindOf?, h.behaviour]

/-- The hook of the node, if it has one, does not make an event be about something else. -/
def KeepsChangeAt (p : Patch) (id : String) : Prop :=
  ∀ hook, p.hook? id = some hook → hook.KeepsChange

/-- No hook of a node makes an event be about something else. -/
def KeepsChanges (p : Patch) : Prop := ∀ id, p.KeepsChangeAt id

theorem KeepsChangeAt.trimmed (hp : p.KeepsChangeAt id) (h : p.Trimmed q) : q.KeepsChangeAt id :=
  fun hook hhook => hp hook (h.hook? id ▸ hhook)

theorem KeepsChanges.trimmed (hp : p.KeepsChanges) (h : p.Trimmed q) : q.KeepsChanges :=
  fun id => (hp id).trimmed h

/-- The patch `q` is `p` after hooks were told what the notices say: a node that was told nothing is
as before. -/
structure Informed (p : Patch) (ns : List Notice) (q : Patch) : Prop where
  trimmed : p.Trimmed q
  journal : q.journal = p.journal ++ ns
  node? : ∀ id, (∀ e g, .told id e g ∉ ns) → q.node? id = p.node? id

theorem Informed.refl (p : Patch) : p.Informed [] p :=
  ⟨.refl p, (List.append_nil _).symm, fun _ _ => rfl⟩

theorem Informed.trans {ns ms : List Notice} (h₁ : p.Informed ns q) (h₂ : q.Informed ms r) :
    p.Informed (ns ++ ms) r where
  trimmed := h₁.trimmed.trans h₂.trimmed
  journal := by rw [h₂.journal, h₁.journal, List.append_assoc]
  node? := fun id h =>
    (h₂.node? id fun e g hmem => h e g (List.mem_append_right _ hmem)).trans
      (h₁.node? id fun e g hmem => h e g (List.mem_append_left _ hmem))

/-! ### One node -/

/-- The notice of what a node was told, if it has a hook. -/
def hearing (p : Patch) (id : String) (e : WireEvent) : List Notice :=
  if (p.hook? id).isSome then [.told id e p.toGraph] else []

/-- A node without a hook is told nothing; a hook answers with the event as it leaves it, and with
what to do to the node. -/
theorem tell_cases (p : Patch) (id : String) (e : WireEvent) :
    p.hook? id = none ∧ p.tell id e = (e, p) ∨
      ∃ n hook, p.node? id = some n ∧ p.hook? id = some hook ∧
        p.tell id e = ((hook e n (p.without id)).1,
          (p.note (.told id e p.toGraph)).withGraph
            (p.toGraph.revise id fun _ => n.edit (hook e n (p.without id)).2)) := by
  have hkind : p.kindOf? id = (p.node? id).map (·.kind) := rfl
  unfold tell
  rw [hook?, hkind]
  cases p.node? id with
  | none => exact .inl ⟨rfl, rfl⟩
  | some n =>
    simp only [Option.map_some, Option.bind_some]
    cases (p.behaviour n.kind).onUpdate with
    | none => exact .inl ⟨rfl, rfl⟩
    | some hook => exact .inr ⟨n, hook, rfl, rfl, rfl⟩

/-- A node without a hook hears of nothing. -/
theorem tell_of_hook?_eq_none (h : p.hook? id = none) (e : WireEvent) : p.tell id e = (e, p) := by
  obtain ⟨_, htell⟩ | ⟨_, _, _, hsome, _⟩ := p.tell_cases id e
  · exact htell
  · rw [h] at hsome
    cases hsome

@[simp]
theorem wires_tell (p : Patch) (id : String) (e : WireEvent) : (p.tell id e).2.wires = p.wires := by
  obtain ⟨_, htell⟩ | ⟨_, _, _, _, htell⟩ := p.tell_cases id e
  · rw [htell]
  · rw [htell]
    rfl

/-- What an event is about stays if the hook of the node keeps to it. -/
theorem KeepsChangeAt.change_tell (h : p.KeepsChangeAt id) (e : WireEvent) :
    (p.tell id e).1.change = e.change := by
  obtain ⟨_, htell⟩ | ⟨n, hook, _, hhook, htell⟩ := p.tell_cases id e
  · rw [htell]
  · rw [htell]
    exact h hook hhook _ _ _

/-- Telling a node changes that node alone, and only if it has a hook. -/
theorem informed_tell (p : Patch) (id : String) (e : WireEvent) :
    p.Informed (p.hearing id e) (p.tell id e).2 := by
  have htrim := p.trimmed_tell id e
  obtain ⟨hnone, htell⟩ | ⟨n, hook, hn, hh, htell⟩ := p.tell_cases id e
  · rw [htell, hearing, hnone]
    exact .refl p
  · rw [htell] at htrim ⊢
    rw [hearing, hh]
    refine ⟨htrim, rfl, fun j hj => ?_⟩
    have hne : j ≠ id := fun h => hj e p.toGraph (h ▸ List.mem_singleton_self _)
    refine (p.toGraph.node?_revise (fun _ _ => ?_) j).trans (if_neg hne)
    exact (n.id_edit _).trans (id_of_node? hn)

theorem of_mem_hearing {n : Notice} (h : n ∈ p.hearing id e) :
    n = .told id e p.toGraph ∧ (p.hook? id).isSome := by
  unfold hearing at h
  split at h
  next hh => exact ⟨List.mem_singleton.1 h, hh⟩
  next => cases h

theorem countP_hearing (p : Patch) (id : String) (e : WireEvent) (x : String) (c : Change) :
    (p.hearing id e).countP (·.tells x c) =
      if x = id ∧ e.change = c ∧ (p.hook? x).isSome then 1 else 0 := by
  unfold hearing
  by_cases hx : x = id
  · subst hx
    split
    next hh => by_cases hc : e.change = c <;> simp [Notice.tells, hc, hh]
    next hh => simp [hh]
  · split <;> simp [Notice.tells, hx, Ne.symm hx]

/-! ### Both ends of a wire -/

/-- A change as the source of the wire passes it on to the target. -/
def passedOn (p : Patch) (c : Change) : WireEvent × Patch := p.tell c.wire.source (.ofChange c)

/-- The change does not come about: the event is cancelled once the source of the wire has been told
of the change, and then its target of what the source has passed on. -/
def Vetoed (p : Patch) (c : Change) : Prop :=
  ((p.passedOn c).2.tell c.wire.target (p.passedOn c).1).1.cancelled = true

instance (p : Patch) (c : Change) : Decidable (p.Vetoed c) := inferInstanceAs (Decidable (_ = _))

/-- The notices of what the ends of a wire were told. -/
def tidings (p : Patch) (c : Change) : List Notice :=
  p.hearing c.wire.source (.ofChange c) ++
    (p.passedOn c).2.hearing c.wire.target (p.passedOn c).1

theorem announce_passedOn (p : Patch) (c : Change) : p.announce c =
    (((p.passedOn c).2.tell c.wire.target (p.passedOn c).1).1.cancelled,
      ((p.passedOn c).2.tell c.wire.target (p.passedOn c).1).2) := rfl

theorem trimmed_passedOn (p : Patch) (c : Change) : p.Trimmed (p.passedOn c).2 :=
  p.trimmed_tell _ _

@[simp]
theorem wires_announce (p : Patch) (c : Change) : (p.announce c).2.wires = p.wires := by
  rw [announce_passedOn, wires_tell, passedOn, wires_tell]

/-- A source without a hook passes the change on as it is. -/
theorem passedOn_of_hook?_eq_none (h : p.hook? c.wire.source = none) :
    p.passedOn c = (.ofChange c, p) :=
  tell_of_hook?_eq_none h _

/-- So does a source whose hook keeps to the change, but that it may be cancelled then. -/
theorem KeepsChangeAt.passedOn_eq (h : p.KeepsChangeAt c.wire.source) :
    (p.passedOn c).1 = ⟨c, (p.passedOn c).1.cancelled⟩ := by
  have hchange : (p.passedOn c).1.change = c := h.change_tell _
  generalize (p.passedOn c).1 = e at hchange
  obtain ⟨d, k⟩ := e
  subst hchange
  rfl

theorem announce_eq_true_iff (p : Patch) (c : Change) : (p.announce c).1 = true ↔ p.Vetoed c :=
  Iff.rfl

theorem announce_eq_false_iff (p : Patch) (c : Change) :
    (p.announce c).1 = false ↔ ¬ p.Vetoed c := by
  rw [← announce_eq_true_iff, Bool.not_eq_true]

/-- Telling the ends of a wire changes them alone, and only if they have hooks. -/
theorem informed_announce (p : Patch) (c : Change) : p.Informed (p.tidings c) (p.announce c).2 :=
  (p.informed_tell _ _).trans (informed_tell _ _ _)

/-- The source is told of the change in question, in the patch as it was at the start, and the target
of what the source has left of both. -/
theorem of_mem_tidings {n : Notice} (h : n ∈ p.tidings c) :
    n = .told c.wire.source (.ofChange c) p.toGraph ∧ (p.hook? c.wire.source).isSome ∨
      n = .told c.wire.target (p.passedOn c).1 (p.passedOn c).2.toGraph ∧
        (p.hook? c.wire.target).isSome := by
  rcases List.mem_append.1 h with h | h
  · exact .inl (of_mem_hearing h)
  · obtain ⟨hn, hh⟩ := of_mem_hearing h
    exact .inr ⟨hn, (p.trimmed_passedOn c).hook? _ ▸ hh⟩

/-- The first end to be told hears of the change in question, in the patch as it was at the start. -/
theorem first_of_mem_tidings (hloop : c.wire.source ≠ c.wire.target) {g : Graph}
    (h : .told id e g ∈ p.tidings c) (hfirst : id = c.wire.source ∨ p.hook? c.wire.source = none) :
    e = .ofChange c ∧ g = p.toGraph := by
  obtain ⟨hn, _⟩ | ⟨hn, _⟩ := of_mem_tidings h
  · cases hn
    exact ⟨rfl, rfl⟩
  · cases hn
    rw [passedOn_of_hook?_eq_none (hfirst.resolve_left hloop.symm)]
    exact ⟨rfl, rfl⟩

/-- Only the ends of the wire are told something, while the nodes are those that are there. -/
theorem exists_of_mem_tidings {n : Notice} (h : n ∈ p.tidings c) :
    ∃ x e g, n = .told x e g ∧ (x = c.wire.source ∨ x = c.wire.target) ∧ (p.hook? x).isSome ∧
      g.ids = p.ids := by
  obtain ⟨hn, hh⟩ | ⟨hn, hh⟩ := of_mem_tidings h
  · exact ⟨_, _, _, hn, .inl rfl, hh, rfl⟩
  · exact ⟨_, _, _, hn, .inr rfl, hh, (p.trimmed_passedOn c).ids⟩

/-- Each end is told once, if it has a hook and hooks keep to the change. -/
theorem countP_tidings (hkeeps : p.KeepsChanges) (hloop : c.wire.source ≠ c.wire.target)
    (x : String) (d : Change) :
    (p.tidings c).countP (·.tells x d) =
      if c = d ∧ (x = c.wire.source ∨ x = c.wire.target) ∧ (p.hook? x).isSome then 1 else 0 := by
  have hchange : (p.passedOn c).1.change = c := (hkeeps _).change_tell _
  rw [tidings, List.countP_append, countP_hearing, countP_hearing, (p.trimmed_passedOn c).hook?,
    hchange]
  by_cases hx : x = c.wire.source
  · simp [hx, hloop, WireEvent.ofChange]
  · simp [hx, and_left_comm]

/-! ### Taking a wire away -/

/-- A wire is back under its number if it was cancelled that it was taken away. -/
theorem detach_eq_ite (p : Patch) (id : WireId) (w : Wire) :
    p.detach id w =
      let r := (p.cut id).announce (.removed id w)
      if r.1 then (true, r.2.withGraph { r.2.toGraph with wires := r.2.wires.insert id w })
      else (false, r.2) := rfl

/-- A wire that its ends let go is gone. -/
theorem detach_of_not_vetoed {i : WireId} {w : Wire} (h : ¬ (p.cut i).Vetoed (.removed i w)) :
    p.detach i w = (false, ((p.cut i).announce (.removed i w)).2) := by
  rw [detach_eq_ite]
  dsimp only
  rw [(announce_eq_false_iff _ _).2 h, if_neg Bool.false_ne_true]

/-- A wire that its ends refuse to lose is back. -/
theorem detach_of_vetoed {i : WireId} {w : Wire} (h : (p.cut i).Vetoed (.removed i w)) :
    (p.detach i w).1 = true ∧ (p.detach i w).2.wires = (p.wires.erase i).insert i w := by
  rw [detach_eq_ite]
  dsimp only
  rw [(announce_eq_true_iff _ _).2 h, if_pos rfl]
  exact ⟨rfl, congrArg (Table.insert · i w) (wires_announce _ _)⟩

/-- The other wires stay, and so does this one if its ends refuse to lose it. -/
theorem wires_detach_of_vetoed {i : WireId} {w : Wire} (hw : p.wires.find? i = some w)
    (h : (p.cut i).Vetoed (.removed i w)) : (p.detach i w).2.wires = p.wires := by
  rw [(detach_of_vetoed h).2]
  refine Table.ext_find? fun j => ?_
  rw [Table.find?_insert, Table.find?_erase]
  split
  next hj => rw [hj, hw]
  next => rfl

theorem find?_detach_of_ne {i j : WireId} (hj : j ≠ i) (w : Wire) :
    (p.detach i w).2.wires.find? j = p.wires.find? j := by
  by_cases h : (p.cut i).Vetoed (.removed i w)
  · rw [(detach_of_vetoed h).2, Table.find?_insert, if_neg hj, Table.find?_erase, if_neg hj]
  · rw [detach_of_not_vetoed h, wires_announce]
    exact (p.wires.find?_erase i j).trans (if_neg hj)

/-- What is left of taking a wire away, besides that it is gone, is what its ends were told. -/
theorem informed_detach {i : WireId} {w : Wire} (hw : p.wires.find? i = some w) :
    p.Informed ((p.cut i).tidings (.removed i w)) (p.detach i w).2 := by
  have htrim := p.trimmed_detach hw
  have hcut : p.Informed [] (p.cut i) :=
    ⟨p.trimmed_cut i, (List.append_nil _).symm, fun _ _ => rfl⟩
  obtain ⟨_, hjournal, hnode⟩ := hcut.trans (informed_announce (p.cut i) (.removed i w))
  rw [detach_eq_ite] at htrim ⊢
  generalize (p.cut i).announce (.removed i w) = r at hjournal hnode htrim ⊢
  obtain ⟨kept, r⟩ := r
  cases kept with
  | true => exact ⟨htrim, hjournal, hnode⟩
  | false => exact ⟨htrim, hjournal, hnode⟩

end Patch

end Patchbay
