import Patchbay.Proofs.Patch.Connecting

/-!
# Where no control ports come from

Nodes get their control ports from the declaration of their kind, and from nowhere else: an edit
revises a control port that is there, hooks make edits, and a snapshot has no ports at all. A wire
is made between ports that are there. So where no kind uses control, no operation on nodes and wires
brings a control port into the patch, or a wire at one. `Patch.Upholds p q` says this of a patch `q`
that came from `p`, and that the kinds and the lists of their categories are the same.

## Key results

- `Node.controlless_apply` / `Node.controlless_ofDeclaration`: edits add no control ports, and a
  node has none if its kind uses no control
- `upholds_insert` / `upholds_connect` / `upholds_remove` / `upholds_restore`: operations on nodes
  and wires add no control ports either
-/

namespace Patchbay

/-- The node has no control ports. -/
structure Node.Controlless (n : Node) : Prop where
  flowIn : n.flowIn = none
  flowOut : n.flowOut = none

namespace Node

variable {n : Node}

theorem controlless_apply (h : n.Controlless) (e : NodeEdit) : (e.apply n).Controlless := by
  obtain ⟨hin, hout⟩ := h
  cases e with
  | move | setData => exact ⟨hin, hout⟩
  | revisePort name side f =>
    cases side <;> simp only [NodeEdit.apply, revisePort] <;> split
    -- Revising a control port that is not there leaves it so.
    · exact ⟨by rw [hin, Option.map_none], hout⟩
    · exact ⟨hin, hout⟩
    · exact ⟨hin, by rw [hout, Option.map_none]⟩
    · exact ⟨hin, hout⟩
  | addPort name side port => cases side <;> exact ⟨hin, hout⟩

theorem controlless_edit (h : n.Controlless) (es : List NodeEdit) : (n.edit es).Controlless :=
  List.foldlRecOn (motive := Controlless) es NodeEdit.apply h fun _ hn e _ => controlless_apply hn e

/-- A new node has the control ports of its kind. -/
theorem controlless_ofDeclaration {d : Declaration} (hd : d.usesFlow = false) (id : String)
    (position : Position) : (ofDeclaration d id position).Controlless := by
  have hflow : d.flow = .none := by
    simpa [Declaration.usesFlow, FlowMode.usesFlow] using hd
  constructor <;> simp only [ofDeclaration, hflow] <;> rfl

/-- A port under the name of a control port is a control port. -/
theorem Controlless.port?_eq_none (h : n.Controlless) :
    n.port? flowInName .input = none ∧ n.port? flowOutName .output = none :=
  ⟨by rw [port?, if_pos rfl, h.flowIn], by rw [port?, if_pos rfl, h.flowOut]⟩

end Node

/-- Neither a kind nor a node has control ports, and no wire is at one. -/
structure Graph.Controlless (g : Graph) : Prop where
  kinds : ∀ id d, g.kinds.find? id = some d → d.usesFlow = false
  nodes : ∀ n ∈ g.nodes, n.Controlless
  wires : ∀ i w, g.wires.find? i = some w → w.targetPort ≠ flowInName ∧ w.sourcePort ≠ flowOutName

namespace Graph

variable {g : Graph}

theorem Controlless.port?_eq_none (h : g.Controlless) (node : String) :
    g.port? node flowInName .input = none ∧ g.port? node flowOutName .output = none := by
  unfold port?
  cases hn : g.node? node with
  | none => exact ⟨rfl, rfl⟩
  | some n => exact (h.nodes n (List.mem_of_find?_eq_some hn)).port?_eq_none

/-- A wire between ports that are there is not at a control port. -/
theorem Controlless.ends {w : Wire} {s t : Port} (h : g.Controlless) (hw : g.Joins w s t) :
    w.targetPort ≠ flowInName ∧ w.sourcePort ≠ flowOutName := by
  refine ⟨fun htarget => ?_, fun hsource => ?_⟩
  · cases (htarget ▸ hw.target).symm.trans (h.port?_eq_none w.target).1
  · cases (hsource ▸ hw.source).symm.trans (h.port?_eq_none w.source).2

theorem mem_nodes_revise {id : String} {f : Node → Node} {m : Node}
    (hm : m ∈ (g.revise id f).nodes) : m ∈ g.nodes ∨ ∃ n ∈ g.nodes, m = f n := by
  obtain ⟨n, hn, rfl⟩ := List.mem_map.1 hm
  split
  · exact .inr ⟨n, hn, rfl⟩
  · exact .inl hn

theorem supportsFlow_put (g : Graph) (n : Node) : (g.put n).supportsFlow = g.supportsFlow := by
  unfold put
  split <;> rfl

theorem categories_put (g : Graph) (n : Node) : (g.put n).categories = g.categories := by
  unfold put
  split <;> rfl

theorem mem_nodes_put {n m : Node} (hm : m ∈ (g.put n).nodes) : m ∈ g.nodes ∨ m = n := by
  unfold put at hm
  split at hm
  · exact (mem_nodes_revise hm).imp_right fun ⟨_, _, h⟩ => h
  · exact (List.mem_append.1 hm).imp_right List.mem_singleton.1

end Graph

/-- The patch `q` has the kinds of `p`, listed in the same way, and control ports only if `p` has
some. -/
structure Patch.Upholds (p q : Patch) : Prop where
  supportsFlow : q.supportsFlow = p.supportsFlow
  kinds : q.kinds = p.kinds
  categories : q.categories = p.categories
  controlless : p.Controlless → q.Controlless

namespace Patch

variable {p q r : Patch}

theorem Upholds.refl (p : Patch) : p.Upholds p := ⟨rfl, rfl, rfl, id⟩

theorem Upholds.trans (h₁ : p.Upholds q) (h₂ : q.Upholds r) : p.Upholds r where
  supportsFlow := h₂.supportsFlow.trans h₁.supportsFlow
  kinds := h₂.kinds.trans h₁.kinds
  categories := h₂.categories.trans h₁.categories
  controlless := h₂.controlless ∘ h₁.controlless

theorem upholds_foldl {α : Type} {f : Patch → α → Patch} (hf : ∀ q a, Upholds q (f q a))
    (as : List α) (p : Patch) : p.Upholds (as.foldl f p) :=
  List.foldlRecOn (motive := p.Upholds) as f (.refl p) fun q hq a _ => hq.trans (hf q a)

/-- Nodes and wires are taken away. -/
theorem upholds_of_subset (hflow : q.supportsFlow = p.supportsFlow) (hkinds : q.kinds = p.kinds)
    (hcategories : q.categories = p.categories) (hnodes : ∀ n ∈ q.nodes, n ∈ p.nodes)
    (hwires : ∀ i w, q.wires.find? i = some w → p.wires.find? i = some w) : p.Upholds q :=
  ⟨hflow, hkinds, hcategories, fun h => ⟨hkinds ▸ h.kinds, fun n hn => h.nodes n (hnodes n hn),
    fun i w hw => h.wires i w (hwires i w hw)⟩⟩

/-- Nodes are edited, and wires are taken away. -/
theorem upholds_of_trimmed (h : p.Trimmed q)
    (hnodes : p.Controlless → ∀ n ∈ q.nodes, n.Controlless) : p.Upholds q :=
  ⟨h.supportsFlow, h.kinds, h.categories, fun hp =>
    ⟨h.kinds ▸ hp.kinds, hnodes hp, fun i w hw => hp.wires i w (h.wires i w hw)⟩⟩

/-! ### Edits and hooks -/

theorem upholds_edit (p : Patch) (id : String) (e : NodeEdit) : p.Upholds (p.edit id e) := by
  refine upholds_of_trimmed (p.trimmed_edit id e) fun hp m hm => ?_
  obtain hm | ⟨n, hn, rfl⟩ := Graph.mem_nodes_revise hm
  · exact hp.nodes m hm
  · exact Node.controlless_apply (hp.nodes n hn) e

theorem upholds_tell (p : Patch) (id : String) (e : WireEvent) : p.Upholds (p.tell id e).2 := by
  refine upholds_of_trimmed (p.trimmed_tell id e) fun hp m hm => ?_
  obtain ⟨-, h⟩ | ⟨n, hook, hn, -, h⟩ := p.tell_cases id e
  · rw [h] at hm
    exact hp.nodes m hm
  · rw [h] at hm
    obtain hm | ⟨-, -, rfl⟩ := Graph.mem_nodes_revise hm
    · exact hp.nodes m hm
    · exact Node.controlless_edit (hp.nodes n (List.mem_of_find?_eq_some hn)) _

theorem upholds_announce (p : Patch) (c : Change) : p.Upholds (p.announce c).2 :=
  (p.upholds_tell _ _).trans (upholds_tell _ _ _)

/-! ### Wires -/

theorem upholds_cut (p : Patch) (id : WireId) : p.Upholds (p.cut id) :=
  upholds_of_trimmed (p.trimmed_cut id) fun hp => hp.nodes

theorem upholds_detach {id : WireId} {w : Wire} (h : p.wires.find? id = some w) :
    p.Upholds (p.detach id w).2 := by
  have htold := (p.upholds_cut id).trans (upholds_announce _ (.removed id w))
  refine upholds_of_trimmed (p.trimmed_detach h) fun hp n hn => ?_
  refine (htold.controlless hp).nodes n ?_
  rw [detach_eq_ite] at hn
  dsimp only at hn
  split at hn <;> exact hn

theorem Freed.upholds {node port : String} (h : p.Freed node port r) : p.Upholds r := by
  cases h with
  | already => exact .refl p
  | detached i v => exact (p.upholds_cut i).trans (upholds_announce _ _)

theorem upholds_addWire {w : Wire} (h : p.Controlless → w.targetPort ≠ flowInName ∧
    w.sourcePort ≠ flowOutName) : p.Upholds (p.addWire w) := by
  refine ⟨rfl, rfl, rfl, fun hp => ⟨hp.kinds, hp.nodes, fun i v hv => ?_⟩⟩
  obtain ⟨-, rfl⟩ | hv := wires_addWire_cases hv
  · exact h hp
  · exact hp.wires i v hv

theorem upholds_connect (p : Patch) (w : Wire) : p.Upholds (p.connect w).2 := by
  have h := p.attempt_connect w
  generalize p.connect w = r at h
  cases h with
  | refused _ => exact .refl p
  | kept i v _ hfound _ => exact upholds_detach (Graph.of_wireAt? hfound).1
  | mismatched _ hfreed _ => exact hfreed.upholds
  | vetoed _ hfreed _ _ => exact hfreed.upholds.trans (upholds_announce _ _)
  | @made r s t _ hfreed hjoins _ =>
    -- The ports were there before the ends were told, when there was no control port.
    have htold := upholds_announce r (.created w s.type.id t.type.id)
    refine ⟨htold.supportsFlow.trans hfreed.upholds.supportsFlow,
      htold.kinds.trans hfreed.upholds.kinds, htold.categories.trans hfreed.upholds.categories,
      fun hp => ?_⟩
    have hr := hfreed.upholds.controlless hp
    exact (upholds_addWire fun _ => hr.ends hjoins).controlless (htold.controlless hr)

theorem upholds_disconnect (p : Patch) (node port : String) (side : Side) :
    p.Upholds (p.disconnect node port side).2 := by
  unfold disconnect
  split
  next => exact .refl p
  next h => exact upholds_detach (Graph.of_wireAt? h).1

theorem upholds_detachPorts (p : Patch) (node : String) (side : Side) (ports : List String) :
    p.Upholds (p.detachPorts node side ports) := by
  refine upholds_foldl (fun p port => upholds_foldl (fun p id => ?_) _ p) ports p
  split
  next h => exact upholds_detach h
  next => exact .refl p

/-! ### Nodes -/

theorem upholds_dropWires (p : Patch) (node : String) : p.Upholds (p.dropWires node) := by
  refine upholds_of_trimmed (p.trimmed_dropWires node) fun hp n hn => ?_
  simp only [dropWires] at hn
  split at hn <;> exact hp.nodes n hn

theorem upholds_remove (p : Patch) (id : String) : p.Upholds (p.remove id).2 := by
  unfold remove
  split
  next => exact .refl p
  next node _ =>
    refine (((p.upholds_detachPorts id .input _).trans (upholds_detachPorts _ id .output _)).trans
      (upholds_dropWires _ id)).trans (upholds_of_subset rfl rfl rfl ?_ fun _ _ h => h)
    exact fun n hn => (List.mem_filter.1 hn).1

theorem upholds_put {n : Node} (h : p.Controlless → n.Controlless) :
    p.Upholds (p.withGraph (p.toGraph.put n)) := by
  refine ⟨Graph.supportsFlow_put p.toGraph n, Graph.kinds_put p.toGraph n,
    Graph.categories_put p.toGraph n, fun hp => ⟨?_, fun m hm => ?_, ?_⟩⟩
  · exact (Graph.kinds_put p.toGraph n).symm ▸ hp.kinds
  · obtain hm | rfl := Graph.mem_nodes_put hm
    · exact hp.nodes m hm
    · exact h hp
  · exact (Graph.wires_put p.toGraph n).symm ▸ hp.wires

/-- A node is made from the declaration of its kind, and edited by the hook. -/
theorem upholds_insert {kind id : String} {position : Position}
    (h : p.insert kind id position = .ok q) : p.Upholds q := by
  unfold insert at h
  split at h
  next => cases h
  next d hd =>
    have hnew : p.Controlless → (Node.ofDeclaration d id position).Controlless :=
      fun hp => Node.controlless_ofDeclaration (hp.kinds kind d hd) id position
    obtain rfl := Except.ok.inj h
    split
    · exact upholds_put fun hp => Node.controlless_edit (hnew hp) _
    · exact upholds_put hnew

theorem upholds_clear (p : Patch) : p.Upholds p.clear :=
  upholds_of_subset rfl rfl rfl (fun _ hn => by cases hn) fun _ _ hw => by cases hw

/-! ### Snapshots -/

theorem upholds_restoreValues (p : Patch) (node : String) (side : Side) (values : PortValues) :
    p.Upholds (p.restoreValues node side values) := by
  refine upholds_foldl (fun p e => ?_) values.entries p
  split
  · exact p.upholds_edit node _
  · exact upholds_of_subset rfl rfl rfl (fun _ hn => hn) fun _ _ hw => hw

theorem upholds_restoreNode {s : NodeState} (h : p.restoreNode s = .ok q) : p.Upholds q := by
  obtain ⟨r, hr, rfl⟩ := restoreNode_cases h
  exact (((upholds_insert hr).trans (r.upholds_restoreValues s.id .input s.inputs)).trans
    (upholds_restoreValues _ s.id .output s.outputs)).trans (upholds_edit _ s.id _)

theorem upholds_restoreWire (p : Patch) (w : Wire) : p.Upholds (p.restoreWire w) := by
  have h := p.upholds_connect w
  unfold restoreWire
  split
  next heq => rwa [heq] at h
  next heq =>
    rw [heq] at h
    exact h.trans (upholds_of_subset rfl rfl rfl (fun _ hn => hn) fun _ _ hw => hw)

/-- Whatever a snapshot has, its nodes get the ports of their kinds. -/
theorem upholds_restore {s : Snapshot} (h : p.restore s = .ok q) : p.Upholds q := by
  obtain ⟨r, hfold, rfl⟩ := restore_cases h
  have hr : p.Upholds r := foldlM_keeps p.Upholds hfold p.upholds_clear
    fun _ _ _ _ hq hone => hq.trans (upholds_restoreNode hone)
  exact hr.trans (upholds_foldl upholds_restoreWire s.wires r)

end Patch

end Patchbay
