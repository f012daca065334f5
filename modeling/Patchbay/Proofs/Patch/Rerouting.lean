import Patchbay.Builtin.Reroute
import Patchbay.Proofs.Patch.Sound

/-!
# Patches whose only hooks are those of reroutes

Where no kind but the built-in reroute has hooks, it can be said exactly what telling the ends of a
wire does: nothing is ever cancelled, and only the node that the wire leads to changes, if it is a
reroute, by taking another type.

## Key results

- `tell_eq` / `announce_eq`: what is told of a wire changes at most the types of a reroute
- `detach_eq`: a wire that is detached is gone
-/

namespace Patchbay

/-- The reroute with another type. -/
def Node.retyped (n : Node) (t : PortType) : Node :=
  NodeEdit.apply (NodeEdit.apply n (.setType "in" .input t)) (.setType "out" .output t)

@[simp]
theorem Node.id_retyped (n : Node) (t : PortType) : (n.retyped t).id = n.id :=
  (NodeEdit.id_apply _ _).trans (NodeEdit.id_apply n _)

@[simp]
theorem Node.kind_retyped (n : Node) (t : PortType) : (n.retyped t).kind = n.kind :=
  (NodeEdit.kind_apply _ _).trans (NodeEdit.kind_apply n _)

/-- A node takes a type if there is one to take. -/
def Node.adopt (n : Node) (t : Option PortType) : Node := t.elim n n.retyped

@[simp]
theorem Node.kind_adopt (n : Node) (t : Option PortType) : (n.adopt t).kind = n.kind := by
  cases t <;> simp [adopt]

@[simp]
theorem Node.id_adopt (n : Node) (t : Option PortType) : (n.adopt t).id = n.id := by
  cases t <;> simp [adopt]

/-- The kind of the node under an id. -/
def Graph.kindOf? (g : Graph) (id : String) : Option String := (g.node? id).map (·.kind)

theorem Graph.kindOf?_of_node? {g : Graph} {id : String} {n : Node} (h : g.node? id = some n) :
    g.kindOf? id = some n.kind := by
  rw [kindOf?, h, Option.map_some]

theorem Graph.kindOf?_congr {g h : Graph} {id : String} (hn : h.node? id = g.node? id) :
    h.kindOf? id = g.kindOf? id := by
  rw [kindOf?, kindOf?, hn]

namespace Patch

variable {p q : Patch}

/-- A kind either has no hooks, or is the built-in reroute. -/
def Tame (p : Patch) : Prop := ∀ k d, p.kinds.find? k = some d →
  (p.behaviour k).onCreate = none ∧ (p.behaviour k).onUpdate = none ∨
    d = Builtin.reroute.declaration ∧ p.behaviour k = Builtin.reroute.behaviour

/-- Whether the node has a hook that is told of wires. -/
def reroutes (p : Patch) (id : String) : Bool :=
  (p.kindOf? id).any fun k => (p.behaviour k).onUpdate.isSome

theorem reroutes_congr {id : String} (hb : q.behaviour = p.behaviour)
    (hk : q.kindOf? id = p.kindOf? id) : q.reroutes id = p.reroutes id := by
  rw [reroutes, reroutes, hb, hk]

/-- A node with a hook is a reroute. -/
theorem Tame.reroute (h : p.Tame) (hs : p.Sound) {id : String} {n : Node}
    (hn : p.node? id = some n) (hr : p.reroutes id = true) :
    p.kinds.find? n.kind = some Builtin.reroute.declaration ∧
      p.behaviour n.kind = Builtin.reroute.behaviour := by
  obtain ⟨d, hd⟩ := Option.isSome_iff_exists.1 (hs.declared id n hn)
  rcases h n.kind d hd with ⟨_, hnone⟩ | ⟨rfl, hb⟩
  · simp [reroutes, Graph.kindOf?_of_node? hn, hnone] at hr
  · exact ⟨hd, hb⟩

/-- No kind does anything on creation. -/
theorem Tame.onCreate (h : p.Tame) {k : String} (hk : (p.kinds.find? k).isSome) :
    (p.behaviour k).onCreate = none := by
  obtain ⟨d, hd⟩ := Option.isSome_iff_exists.1 hk
  rcases h k d hd with ⟨hnone, _⟩ | ⟨_, hb⟩
  · exact hnone
  · rw [hb]
    rfl

theorem Tame.of_kinds (h : p.Tame) (hk : q.kinds = p.kinds) (hb : q.behaviour = p.behaviour) :
    q.Tame := by
  intro k d hd
  rw [hb]
  exact h k d (hk ▸ hd)

/-- The patch `q` is `p` after a node took a type, if there was one to take. -/
structure Adopted (p : Patch) (id : String) (t : Option PortType) (q : Patch) : Prop where
  trimmed : p.Trimmed q
  wires : q.wires = p.wires
  node? : ∀ j, q.node? j = if j = id then (p.node? j).map (·.adopt t) else p.node? j

/-- Without a type to take, nothing is different. -/
theorem Adopted.node?_none {id : String} (h : p.Adopted id none q) (j : String) :
    q.node? j = p.node? j := by
  rw [h.node?]
  split
  · cases p.node? j <;> rfl
  · rfl

theorem Adopted.refl (p : Patch) (id : String) : p.Adopted id none p where
  trimmed := .refl p
  wires := rfl
  node? := fun j => by
    split
    · cases p.node? j <;> rfl
    · rfl

theorem Adopted.kindOf? {id : String} {t : Option PortType} (h : p.Adopted id t q) (j : String) :
    q.kindOf? j = p.kindOf? j := by
  unfold Graph.kindOf?
  rw [h.node?]
  split
  · rw [Option.map_map]
    exact congrArg (Option.map · _) (funext fun n => n.kind_adopt t)
  · rfl

theorem Adopted.reroutes {id : String} {t : Option PortType} (h : p.Adopted id t q) (j : String) :
    q.reroutes j = p.reroutes j :=
  reroutes_congr h.trimmed.behaviour (h.kindOf? j)

/-- The type that a reroute takes when it is told of an event. -/
def typeFor (p : Patch) (id : String) (e : WireEvent) : Option PortType :=
  if e.cancelled || !e.targets id || e.wire.targetPort ≠ "in" then none
  else
    match e.change with
    | .created w _ _ => ((p.without id).port? w.source w.sourcePort .output).map (·.type)
    | .removed _ _ => some .any

/-- The edits of a reroute are that it takes a type. -/
theorem edit_rerouteEdits (p : Patch) (e : WireEvent) (n : Node) :
    n.edit (Builtin.rerouteEdits e n (p.without n.id)) = n.adopt (p.typeFor n.id e) := by
  unfold Builtin.rerouteEdits typeFor
  split
  · rfl
  · cases e.change with
    | created w s t =>
      dsimp only
      cases (p.without n.id).port? w.source w.sourcePort .output <;> rfl
    | removed i w => rfl

/-- Telling a node of an event changes at most its types, if it is a reroute. -/
theorem tell_eq (hs : p.Sound) (ht : p.Tame) (id : String) (e : WireEvent) :
    ∃ q, p.tell id e = (e, q) ∧
      p.Adopted id (if p.reroutes id then p.typeFor id e else none) q := by
  cases hn : p.node? id with
  | none => exact ⟨p, by simp [tell, hn], by simpa [reroutes, Graph.kindOf?, hn] using .refl p id⟩
  | some n =>
    cases hr : p.reroutes id with
    | false =>
      have hnone : (p.behaviour n.kind).onUpdate = none := by
        simpa [reroutes, Graph.kindOf?_of_node? hn] using hr
      exact ⟨p, by simp [tell, hn, hnone], by simpa using .refl p id⟩
    | true =>
      -- The only hook of a tame patch is that of a reroute.
      obtain ⟨_, hb⟩ := ht.reroute hs hn hr
      obtain rfl : n.id = id := Graph.id_of_node? hn
      have htell : p.tell n.id e = (e, (p.note (.told n.id e p.toGraph)).withGraph
          (p.toGraph.revise n.id fun _ => n.adopt (p.typeFor n.id e))) := by
        simp only [tell, hn, hb, Builtin.reroute, Builtin.rerouteHook, edit_rerouteEdits]
      have htrim := p.trimmed_tell n.id e
      rw [htell] at htrim
      refine ⟨_, htell, { trimmed := htrim, wires := rfl, node? := fun j => ?_ }⟩
      refine (p.toGraph.node?_revise (fun m hm => Node.id_adopt n _) j).trans ?_
      by_cases hj : j = n.id
      · simp [hj, hn]
      · simp [hj]

/-- The type that a reroute takes when a wire into it is made or taken away. -/
def newType (p : Patch) : Change → Option PortType
  | .created w _ _ => (p.port? w.source w.sourcePort .output).map (·.type)
  | .removed _ _ => some .any

/-- A reroute is told of its new type when the wire into its input changes. -/
theorem typeFor_target (p : Patch) (c : Change)
    (hloop : (WireEvent.ofChange c).wire.source ≠ (WireEvent.ofChange c).wire.target) :
    p.typeFor (WireEvent.ofChange c).wire.target (.ofChange c) =
      if (WireEvent.ofChange c).wire.targetPort = "in" then p.newType c else none := by
  cases c with
  | created w s t =>
    have hport : (p.without w.target).port? w.source w.sourcePort .output =
        p.port? w.source w.sourcePort .output :=
      Graph.port?_congr ((p.node?_without w.target w.source).trans (if_neg hloop)) _ _
    simp only [typeFor, newType, WireEvent.ofChange, WireEvent.targets, WireEvent.wire, hport]
    by_cases hin : w.targetPort = "in" <;> simp [hin]
  | removed i w =>
    simp only [typeFor, newType, WireEvent.ofChange, WireEvent.targets, WireEvent.wire]
    by_cases hin : w.targetPort = "in" <;> simp [hin]

/-- The ends of a wire never cancel anything; a reroute at its target takes another type. -/
theorem announce_eq (hs : p.Sound) (ht : p.Tame) {c : Change} {w : Wire}
    (hw : (WireEvent.ofChange c).wire = w) (hloop : w.source ≠ w.target) :
    ∃ q, p.announce c = (false, q) ∧ p.Adopted w.target
      (if p.reroutes w.target ∧ w.targetPort = "in" then p.newType c else none) q := by
  -- The source is told first, but it is not the one that the wire leads to.
  obtain ⟨q, hq, hpq⟩ := tell_eq hs ht w.source (.ofChange c)
  have hsource : p.typeFor w.source (.ofChange c) = none := by
    have hnot : (WireEvent.ofChange c).targets w.source = false := by
      simpa [WireEvent.targets, hw] using Ne.symm hloop
    simp [typeFor, hnot]
  rw [hsource, ite_self] at hpq
  obtain ⟨r, hr, hqr⟩ := tell_eq (hs.trimmed hpq.trimmed.toTrimmed)
    (ht.of_kinds hpq.trimmed.kinds hpq.trimmed.behaviour) w.target (.ofChange c)
  have hnew : q.newType c = p.newType c := by
    cases c with
    | created v s t => rw [newType, newType, Graph.port?_congr (hpq.node?_none v.source)]
    | removed i v => rfl
  have htarget : q.typeFor w.target (.ofChange c) =
      if w.targetPort = "in" then p.newType c else none := by
    rw [← hnew, ← hw]
    exact q.typeFor_target c (hw ▸ hloop)
  have hboth : (if p.reroutes w.target then if w.targetPort = "in" then p.newType c else none
      else none) = if p.reroutes w.target ∧ w.targetPort = "in" then p.newType c else none := by
    cases p.reroutes w.target <;> simp
  rw [hpq.reroutes, htarget, hboth] at hqr
  refine ⟨r, by simp only [announce, hw, hq, hr]; rfl, ?_⟩
  exact { trimmed := hpq.trimmed.trans hqr.trimmed
          wires := hqr.wires.trans hpq.wires
          node? := fun j => by rw [hqr.node?, hpq.node?_none] }

/-- A wire that is detached is gone; a reroute that it led to takes anything again. -/
theorem detach_eq (hs : p.Sound) (ht : p.Tame) {id : WireId} {w : Wire}
    (hw : p.wires.find? id = some w) :
    ∃ q, p.detach id w = (false, q) ∧ (p.cut id).Adopted w.target
      (if p.reroutes w.target ∧ w.targetPort = "in" then some .any else none) q := by
  have hcut := p.trimmed_cut id
  obtain ⟨q, hq, hadopted⟩ := announce_eq (hs.trimmed hcut.toTrimmed)
    (ht.of_kinds hcut.kinds hcut.behaviour) (c := .removed id w) rfl (hs.loopless id w hw)
  refine ⟨q, ?_, hadopted⟩
  unfold cut at hq
  simp only [detach, hq]
  rfl

end Patch

end Patchbay
