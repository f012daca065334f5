import Patchbay.Proofs.Patch.Connecting

/-!
# Which notices nodes act upon

A node changes only when its hook is told of something, and a reroute only when it is told of a wire
into its input that nobody has refused. So whoever wants to know whether the ports of a node are as
they were has to look through the notices that the node heeds, and through no others. Hooks may do
anything here, except that a node of kind `reroute` is a reroute.

## Key results

- `tell_reroute`: what a reroute does when it is told of an event
- `steady_announce` / `steady_detach` / `steady_detachPorts`: operations change only nodes that heed
  one of their notices
- `exists_steady_connect`: the same when a wire is made
-/

namespace Patchbay.Patch

open Patchbay.Graph

variable {p q r : Patch} {id x : String} {c : Change}

/-- Nodes of kind `reroute` are reroutes. -/
def Genuine (p : Patch) : Prop :=
  ∀ x, p.kindOf? x = some "reroute" → p.behaviour "reroute" = Builtin.reroute.behaviour

theorem Genuine.trimmed (hp : p.Genuine) (h : p.Trimmed q) : q.Genuine := by
  intro x hx
  rw [h.behaviour]
  exact hp x (h.kindOf? x ▸ hx)

theorem Genuine.hook? (hp : p.Genuine) (hx : p.kindOf? x = some "reroute") :
    p.hook? x = some Builtin.rerouteHook := by
  rw [Patch.hook?, hx, Option.bind_some, hp x hx]
  rfl

/-- A reroute that is told of an event takes another type or does nothing. -/
theorem tell_reroute (hp : p.Genuine) (hx : p.kindOf? x = some "reroute") (e : WireEvent) :
    ∃ q, p.tell x e = (e, q) ∧ p.Adopted x (p.typeFor x e) q := by
  obtain ⟨n, hn, hkind⟩ := Option.map_eq_some_iff.1 hx
  obtain rfl : n.id = x := id_of_node? hn
  have hhook : (p.behaviour n.kind).onUpdate = some Builtin.rerouteHook := by
    rw [hkind, hp n.id hx]
    rfl
  have htell : p.tell n.id e = (e, (p.note (.told n.id e p.toGraph)).withGraph
      (p.toGraph.revise n.id fun _ => n.adopt (p.typeFor n.id e))) := by
    simp only [tell, hn, hhook, Builtin.rerouteHook, edit_rerouteEdits]
  have htrim := p.trimmed_tell n.id e
  rw [htell] at htrim
  refine ⟨_, htell, { trimmed := htrim, wires := rfl, node? := fun j => ?_ }⟩
  refine (p.toGraph.node?_revise (fun m hm => Node.id_adopt n _) j).trans ?_
  by_cases hj : j = n.id
  · simp [hj, hn]
  · simp [hj]

/-- A reroute takes a type only from a wire into its input that nobody has refused. -/
theorem typeFor_eq_none {e : WireEvent}
    (h : (!e.cancelled && e.wire.endsAt x "in" .input) = false) : p.typeFor x e = none := by
  unfold typeFor
  refine if_pos ?_
  simp only [Wire.endsAt, WireEvent.targets] at h ⊢
  grind

/-! ### Notices that nodes heed -/

/-- Whether the node may change on account of the notice: it is told something, and if it is a
reroute, this is about a wire into its input that nobody has refused. -/
def heeds (p : Patch) (x : String) : Notice → Bool
  | .told y e _ => y = x && (p.kindOf? x ≠ some "reroute" ||
      (!e.cancelled && e.wire.endsAt x "in" .input))
  | _ => false

theorem heeds_congr (h : q.kindOf? x = p.kindOf? x) : q.heeds x = p.heeds x := by
  funext n
  cases n <;> simp only [heeds, h]

/-- The patch `q` is `p` after hooks were told what the notices say: a node that heeds none of them
is as before. -/
structure Steady (p : Patch) (ns : List Notice) (q : Patch) : Prop where
  trimmed : p.Trimmed q
  journal : q.journal = p.journal ++ ns
  node? : ∀ x, (∀ n ∈ ns, p.heeds x n = false) → q.node? x = p.node? x

theorem Steady.refl (p : Patch) : p.Steady [] p :=
  ⟨.refl p, (List.append_nil _).symm, fun _ _ => rfl⟩

theorem Steady.trans {ns ms : List Notice} (h₁ : p.Steady ns q) (h₂ : q.Steady ms r) :
    p.Steady (ns ++ ms) r where
  trimmed := h₁.trimmed.trans h₂.trimmed
  journal := by rw [h₂.journal, h₁.journal, List.append_assoc]
  node? := fun x h => by
    have hsecond : ∀ n ∈ ms, q.heeds x n = false := fun n hn => by
      rw [heeds_congr (h₁.trimmed.kindOf? x)]
      exact h n (List.mem_append_right _ hn)
    exact (h₂.node? x hsecond).trans (h₁.node? x fun n hn => h n (List.mem_append_left _ hn))

theorem steady_tell (hp : p.Genuine) (id : String) (e : WireEvent) :
    p.Steady (p.hearing id e) (p.tell id e).2 := by
  have hinformed := p.informed_tell id e
  refine ⟨hinformed.trimmed, hinformed.journal, fun x hx => ?_⟩
  by_cases hreroute : p.kindOf? x = some "reroute"
  · by_cases hid : x = id
    · subst hid
      obtain ⟨q, htell, hadopted⟩ := tell_reroute hp hreroute e
      -- The reroute has been told, so it must have been of something that it does not heed.
      have hmem : Notice.told x e p.toGraph ∈ p.hearing x e := by
        rw [hearing, hp.hook? hreroute]
        exact List.mem_singleton_self _
      have hnone : p.typeFor x e = none := by
        refine typeFor_eq_none ?_
        simpa [heeds, hreroute] using hx _ hmem
      rw [htell, hadopted.node?, hnone]
      split
      · cases p.node? x <;> rfl
      · rfl
    · exact hinformed.node? x fun e g hmem => hid (by cases (of_mem_hearing hmem).1; rfl)
  · refine hinformed.node? x fun e g hmem => ?_
    have hheeds := hx _ hmem
    simp [heeds, hreroute] at hheeds

theorem steady_announce (hp : p.Genuine) (c : Change) :
    p.Steady (p.tidings c) (p.announce c).2 :=
  (steady_tell hp _ _).trans (steady_tell (hp.trimmed (p.trimmed_passedOn c)) _ _)

theorem steady_cut (p : Patch) (i : WireId) : p.Steady [] (p.cut i) :=
  ⟨p.trimmed_cut i, (List.append_nil _).symm, fun _ _ => rfl⟩

theorem steady_detach (hp : p.Genuine) {i : WireId} {w : Wire} (hw : p.wires.find? i = some w) :
    p.Steady ((p.cut i).tidings (.removed i w)) (p.detach i w).2 := by
  have htrim := p.trimmed_detach hw
  obtain ⟨_, hjournal, hnode⟩ :=
    (p.steady_cut i).trans (steady_announce (hp.trimmed (p.trimmed_cut i)) (.removed i w))
  rw [detach_eq_ite] at htrim ⊢
  generalize (p.cut i).announce (.removed i w) = a at hjournal hnode htrim ⊢
  obtain ⟨kept, a⟩ := a
  cases kept with
  | true => exact ⟨htrim, hjournal, hnode⟩
  | false => exact ⟨htrim, hjournal, hnode⟩

/-- Steps that are steady one by one are so together. -/
theorem exists_steady_foldl {α : Type} {f : Patch → α → Patch}
    (hf : ∀ p : Patch, p.Genuine → ∀ a, ∃ ns, p.Steady ns (f p a)) (as : List α) (hp : p.Genuine) :
    ∃ ns, p.Steady ns (as.foldl f p) := by
  induction as generalizing p with
  | nil => exact ⟨[], .refl p⟩
  | cons a as ih =>
    obtain ⟨ns, hfirst⟩ := hf p hp a
    obtain ⟨ms, hrest⟩ := ih (hp.trimmed hfirst.trimmed)
    exact ⟨ns ++ ms, hfirst.trans hrest⟩

theorem exists_steady_detachAll (hp : p.Genuine) (is : List WireId) :
    ∃ ns, p.Steady ns (p.detachAll is) := by
  refine exists_steady_foldl (fun p hp i => ?_) is hp
  cases hw : p.wires.find? i with
  | none => exact ⟨[], .refl p⟩
  | some w => exact ⟨_, steady_detach hp hw⟩

theorem exists_steady_detachPorts (hp : p.Genuine) (node : String) (side : Side)
    (ports : List String) : ∃ ns, p.Steady ns (p.detachPorts node side ports) :=
  exists_steady_foldl (fun _ hp _ => exists_steady_detachAll hp _) ports hp

theorem exists_steady_disconnect (hp : p.Genuine) (node port : String) (side : Side) :
    ∃ ns, p.Steady ns (p.disconnect node port side).2 := by
  unfold disconnect
  cases hfound : p.wireAt? node port side with
  | none => exact ⟨[], .refl p⟩
  | some e => exact ⟨_, steady_detach hp (of_wireAt? hfound).1⟩

theorem Freed.exists_steady {node port : String} (hp : p.Genuine) (h : p.Freed node port r) :
    ∃ ns, p.Steady ns r := by
  cases h with
  | already => exact ⟨[], .refl p⟩
  | detached i v hfound hfree =>
    have hsteady := steady_detach hp (of_wireAt? hfound).1
    rw [detach_of_not_vetoed hfree] at hsteady
    exact ⟨_, hsteady⟩

/-- Making a wire is steady, apart from the wire. -/
theorem exists_steady_connect (hp : p.Genuine) (w : Wire) : ∃ ns q, p.Steady ns q ∧
    (p.connect w).2.journal = q.journal ∧ (p.connect w).2.nodes = q.nodes := by
  have hattempt := p.attempt_connect w
  generalize p.connect w = a at hattempt ⊢
  cases hattempt with
  | refused => exact ⟨[], p, .refl p, rfl, rfl⟩
  | kept i v _ hfound => exact ⟨_, _, steady_detach hp (of_wireAt? hfound).1, rfl, rfl⟩
  | mismatched _ hfreed =>
    obtain ⟨ns, hsteady⟩ := hfreed.exists_steady hp
    exact ⟨ns, _, hsteady, rfl, rfl⟩
  | vetoed _ hfreed | made _ hfreed =>
    obtain ⟨ns, hsteady⟩ := hfreed.exists_steady hp
    exact ⟨_, _, hsteady.trans (steady_announce (hp.trimmed hsteady.trimmed) _), rfl, rfl⟩

end Patchbay.Patch
