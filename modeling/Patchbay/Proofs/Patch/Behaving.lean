import Patchbay.Proofs.Patch.Telling

/-!
# Behaviour that does not matter

While a snapshot is restored, only the kinds of its own nodes get to do anything. What other kinds
would do may be exchanged, and restoring leads to the same nodes, wires and notices. So what is
shown of patches where no kind but the reroute has hooks holds of all snapshots that only use such
kinds, wherever they are restored.

## Key results

- `tell_behaving` / `connect_behaving`: what is done to wires depends on the kinds of the nodes
- `restore_behaving`: what a snapshot is restored to depends on the kinds in the snapshot
-/

namespace Patchbay

namespace Patch

open Patchbay.Graph

variable {p q : Patch} {b : String → Behaviour}

/-- The same patch, whose kinds behave otherwise. -/
def behaving (p : Patch) (b : String → Behaviour) : Patch := { p with behaviour := b }

/-- The nodes that are there behave the same. -/
def ActsAs (p : Patch) (b : String → Behaviour) : Prop :=
  ∀ id k, p.kindOf? id = some k → b k = p.behaviour k

theorem ActsAs.trimmed (h : p.ActsAs b) (ht : p.Trimmed q) : q.ActsAs b := by
  intro id k hk
  rw [ht.behaviour]
  exact h id k ((ht.kindOf? id).symm.trans hk)

/-! ### Wires -/

theorem tell_behaving (h : p.ActsAs b) (id : String) (e : WireEvent) :
    (p.behaving b).tell id e = ((p.tell id e).1, (p.tell id e).2.behaving b) := by
  have hnode : (p.behaving b).node? id = p.node? id := rfl
  unfold tell
  rw [hnode]
  cases hn : p.node? id with
  | none => rfl
  | some n =>
    have hb : (p.behaving b).behaviour n.kind = p.behaviour n.kind :=
      h id n.kind (kindOf?_of_node? hn)
    dsimp only
    rw [hb]
    cases (p.behaviour n.kind).onUpdate <;> rfl

theorem announce_behaving (h : p.ActsAs b) (c : Change) :
    (p.behaving b).announce c = ((p.announce c).1, (p.announce c).2.behaving b) := by
  simp only [announce, tell_behaving h, tell_behaving (h.trimmed (p.trimmed_tell _ _))]

theorem detach_behaving (h : p.ActsAs b) (id : WireId) (w : Wire) :
    (p.behaving b).detach id w = ((p.detach id w).1, (p.detach id w).2.behaving b) := by
  have hcut : (p.behaving b).cut id = (p.cut id).behaving b := rfl
  simp only [detach_eq_ite, hcut, announce_behaving (h.trimmed (p.trimmed_cut id))]
  split <;> rfl

theorem freeInput_behaving (h : p.ActsAs b) (node port : String) :
    (p.behaving b).freeInput node port =
      ((p.freeInput node port).1, (p.freeInput node port).2.behaving b) := by
  have hat : (p.behaving b).wireAt? node port .input = p.wireAt? node port .input := rfl
  unfold freeInput
  rw [hat]
  cases p.wireAt? node port .input with
  | none => rfl
  | some e => exact detach_behaving h e.1 e.2

theorem connect_behaving (h : p.ActsAs b) (w : Wire) :
    (p.behaving b).connect w = ((p.connect w).1, (p.connect w).2.behaving b) := by
  have hadmits : (p.behaving b).admits w = p.admits w := rfl
  have htrim := p.trimmed_freeInput w.target w.targetPort
  unfold connect
  rw [hadmits, freeInput_behaving h]
  generalize p.freeInput w.target w.targetPort = r at htrim
  obtain ⟨kept, q⟩ := r
  have htypes : (q.behaving b).typesOf? w = q.typesOf? w := rfl
  dsimp only at htrim ⊢
  rw [htypes]
  split
  · split
    · rfl
    · cases q.typesOf? w with
      | none => rfl
      | some st =>
        dsimp only
        rw [announce_behaving (h.trimmed htrim)]
        generalize q.announce _ = r
        obtain ⟨cancelled, r⟩ := r
        cases cancelled <;> rfl
  · rfl

theorem restoreWire_behaving (h : p.ActsAs b) (w : Wire) :
    (p.behaving b).restoreWire w = (p.restoreWire w).behaving b := by
  unfold restoreWire
  rw [connect_behaving h]
  generalize p.connect w = r
  obtain ⟨made, q⟩ := r
  cases made <;> rfl

theorem actsAs_restoreWire (hp : p.Sound) (h : p.ActsAs b) (w : Wire) :
    (p.restoreWire w).ActsAs b := by
  have hconnect : (p.connect w).2.ActsAs b := by
    obtain ⟨q, hq, heq⟩ | ⟨q, hq, _, _, _, _, heq⟩ := connect_cases hp w
    · rw [heq]
      exact h.trimmed hq
    · rw [heq]
      show q.ActsAs b
      exact h.trimmed hq
  unfold restoreWire
  split
  next heq => rwa [heq] at hconnect
  next heq =>
    rw [heq] at hconnect
    exact hconnect

theorem restoreWires_behaving (hp : p.Sound) (h : p.ActsAs b) (ws : List Wire) :
    ws.foldl restoreWire (p.behaving b) = (ws.foldl restoreWire p).behaving b := by
  induction ws generalizing p with
  | nil => rfl
  | cons w ws ih =>
    rw [List.foldl_cons, List.foldl_cons, restoreWire_behaving h]
    exact ih (sound_restoreWire hp w).1 (actsAs_restoreWire hp h w)

/-! ### Nodes -/

theorem insert_behaving {kind : String} (hb : b kind = p.behaviour kind) (id : String)
    (position : Position) :
    (p.behaving b).insert kind id position = (p.insert kind id position).map (·.behaving b) := by
  have hkinds : (p.behaving b).kinds = p.kinds := rfl
  have hbehaviour : (p.behaving b).behaviour kind = p.behaviour kind := hb
  unfold insert
  rw [hkinds, hbehaviour]
  cases p.kinds.find? kind <;> rfl

theorem restoreValues_behaving (p : Patch) (b : String → Behaviour) (id : String) (side : Side)
    (values : PortValues) :
    (p.behaving b).restoreValues id side values = (p.restoreValues id side values).behaving b := by
  unfold restoreValues
  induction values.entries generalizing p with
  | nil => rfl
  | cons e es ih =>
    rw [List.foldl_cons, List.foldl_cons, ← ih]
    congr 1
    have hport : (p.behaving b).port? id e.1 side = p.port? id e.1 side := rfl
    rw [hport]
    split <;> rfl

theorem fill_behaving (p : Patch) (b : String → Behaviour) (s : NodeState) :
    (p.behaving b).fill s = (p.fill s).behaving b := by
  unfold fill
  rw [restoreValues_behaving, restoreValues_behaving]
  rfl

theorem restoreNode_eq_map (p : Patch) (s : NodeState) :
    p.restoreNode s = (p.insert s.kind s.id s.position).map (·.fill s) := by
  unfold restoreNode fill
  cases p.insert s.kind s.id s.position <;> rfl

theorem restoreNode_behaving {s : NodeState} (hb : b s.kind = p.behaviour s.kind) :
    (p.behaving b).restoreNode s = (p.restoreNode s).map (·.behaving b) := by
  rw [restoreNode_eq_map, restoreNode_eq_map, insert_behaving hb]
  cases p.insert s.kind s.id s.position with
  | error e => rfl
  | ok q => exact congrArg Except.ok (fill_behaving q b s)

/-- The node that is inserted is of the kind that was asked for. -/
theorem actsAs_insert (hp : p.Sound) (h : p.ActsAs b) {kind id : String}
    (hb : b kind = p.behaviour kind) {position : Position}
    (hq : p.insert kind id position = .ok q) : q.ActsAs b := by
  obtain ⟨n, hn, rfl⟩ : ∃ n : Node, n.kind = kind ∧ q = p.withGraph (p.toGraph.put n) := by
    unfold insert at hq
    cases hd : p.kinds.find? kind with
    | none =>
      rw [hd] at hq
      cases hq
    | some d =>
      rw [hd] at hq
      refine ⟨_, ?_, (Except.ok.inj hq).symm⟩
      have hkind : d.id = kind := hp.keyed kind d hd
      split
      · exact (Node.kind_edit _ _).trans hkind
      · exact hkind
  intro j k hk
  show b k = p.behaviour k
  have hnode := p.toGraph.node?_put n j
  replace hk : (p.toGraph.put n).kindOf? j = some k := hk
  rw [kindOf?, hnode] at hk
  split at hk
  · obtain rfl : n.kind = k := Option.some.inj hk
    rwa [hn]
  · exact h j k hk

theorem actsAs_restoreNode (hp : p.Sound) (h : p.ActsAs b) {s : NodeState}
    (hb : b s.kind = p.behaviour s.kind) (hq : p.restoreNode s = .ok q) : q.ActsAs b := by
  obtain ⟨r, hr, rfl⟩ := restoreNode_cases hq
  exact (actsAs_insert hp h hb hr).trimmed (r.trimmed_fill s)

/-- Nodes of kinds that behave the same are restored in the same way. -/
theorem restoreNodes_behaving (hp : p.Sound) (hw : p.wires = ∅) (h : p.ActsAs b)
    {ss : List NodeState} (hb : ∀ s ∈ ss, b s.kind = p.behaviour s.kind) :
    ss.foldlM restoreNode (p.behaving b) = (ss.foldlM restoreNode p).map (·.behaving b) ∧
      ∀ q, ss.foldlM restoreNode p = .ok q → q.Sound ∧ q.ActsAs b := by
  induction ss generalizing p with
  | nil =>
    refine ⟨rfl, fun q hq => ?_⟩
    obtain rfl := Except.ok.inj hq
    exact ⟨hp, h⟩
  | cons s ss ih =>
    have hs := hb s List.mem_cons_self
    rw [List.foldlM_cons, List.foldlM_cons, restoreNode_behaving hs]
    cases hr : p.restoreNode s with
    | error e => exact ⟨rfl, fun q hq => by cases hq⟩
    | ok r =>
      obtain ⟨hsound, hempty, _⟩ := sound_restoreNode hp hw hr
      have hbehaviour : r.behaviour = p.behaviour := (sameKinds_restoreNode hp hr).behaviour
      exact ih hsound hempty (actsAs_restoreNode hp h hs hr)
        fun t ht => (hb t (List.mem_cons_of_mem _ ht)).trans (by rw [hbehaviour])

/-- Restoring a snapshot only depends on what the kinds of its nodes do. -/
theorem restore_behaving (hp : p.Sound) {s : Snapshot}
    (hb : ∀ n ∈ s.nodes, b n.kind = p.behaviour n.kind) :
    (p.behaving b).restore s = (p.restore s).map (·.behaving b) := by
  have hkinds : (p.behaving b).kinds = p.kinds := rfl
  have hclear : (p.behaving b).clear = p.clear.behaving b := rfl
  obtain ⟨hnodes, hafter⟩ := restoreNodes_behaving (b := b) (sound_clear hp) rfl
    (fun id k hk => by cases hk) hb
  unfold restore
  rw [hkinds, hclear]
  split
  · rfl
  · rw [hnodes]
    cases hr : s.nodes.foldlM restoreNode p.clear with
    | error e => rfl
    | ok r =>
      obtain ⟨hsound, hacts⟩ := hafter r hr
      exact congrArg Except.ok (restoreWires_behaving hsound hacts s.wires)

end Patch

end Patchbay
