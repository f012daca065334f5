import Mathlib.Logic.Relation
import Patchbay.Proofs.Patch.Sound
import Patchbay.Run.Dependents

/-!
# Which nodes feed which

Values pass over the wires that do not lead into `__flow_in`. `Graph.Feeds` says that a node feeds
another directly; everything upstream of a node is what its outputs may depend on.

Where nothing upstream of a node feeds itself, nodes have a `height`: the number of nodes that are
strictly upstream. It falls along wires against their direction, and so carries the inductions over
evaluations, which go from a node to its sources.

## Key results

- `mem_dataWires`: the wires that an evaluation takes values over
- `Sound.node?_of_feeds` / `Sound.input_of_dataWire`: in sound wiring, sources and input ports exist
- `height_lt_of_feeds` / `height_lt_length`: a source is lower, and no node is higher than their
  number
-/

namespace Patchbay.Graph

variable {g : Graph}

/-- Values pass over a wire from one node to another. -/
def Feeds (g : Graph) (m n : String) : Prop :=
  ∃ i w, g.wires.find? i = some w ∧ w.isFlow = false ∧ w.source = m ∧ w.target = n

/-- Values pass from one node to another, directly or through others, or the two are the same. -/
def Upstream (g : Graph) : String → String → Prop := Relation.ReflTransGen g.Feeds

/-- Values pass from one node to another, directly or through others. -/
def Above (g : Graph) : String → String → Prop := Relation.TransGen g.Feeds

theorem mem_dataWires {node : String} {i : WireId} {w : Wire} :
    (i, w) ∈ g.dataWires node ↔
      g.wires.find? i = some w ∧ w.target = node ∧ w.isFlow = false := by
  simp only [dataWires, wiresWith, List.mem_filter, Table.mem_entries_iff, Bool.and_eq_true,
    decide_eq_true_eq, Bool.not_eq_true']

theorem feeds_of_mem_dataWires {node : String} {i : WireId} {w : Wire}
    (h : (i, w) ∈ g.dataWires node) : g.Feeds w.source node := by
  obtain ⟨hw, ht, hflow⟩ := mem_dataWires.1 h
  exact ⟨i, w, hw, hflow, rfl, ht⟩

theorem exists_dataWire_of_feeds {m n : String} (h : g.Feeds m n) :
    ∃ i w, (i, w) ∈ g.dataWires n ∧ w.source = m := by
  obtain ⟨i, w, hw, hflow, hs, ht⟩ := h
  exact ⟨i, w, mem_dataWires.2 ⟨hw, ht, hflow⟩, hs⟩

/-- Control passes from one node to another, node by node, or the two are the same. -/
def Onward (g : Graph) : String → String → Prop :=
  Relation.ReflTransGen fun m n => g.nextInFlow? m = some n

/-- Control goes on over a wire that carries control. -/
theorem exists_wire_of_flowTarget? {node port target : String}
    (h : g.flowTarget? node port = some target) :
    ∃ i w, g.wires.find? i = some w ∧ w.targetPort = flowInName ∧ w.target = target := by
  obtain ⟨⟨i, w⟩, hw, rfl⟩ := Option.map_eq_some_iff.1 h
  have hends : (w.endsAt node port .output && w.isFlow) = true :=
    List.find?_some (p := fun e : WireId × Wire => e.2.endsAt node port .output && e.2.isFlow) hw
  exact ⟨i, w, Table.mem_entries_iff.1 (List.mem_of_find?_eq_some hw),
    of_decide_eq_true (Bool.and_eq_true_iff.1 hends).2, rfl⟩

/-! ### In sound wiring -/

theorem Sound.node?_of_feeds (hg : g.Sound) {m n : String} (h : g.Feeds m n) :
    ∃ node, g.node? m = some node := by
  obtain ⟨i, w, hw, _, rfl, _⟩ := h
  exact node?_of_isSome_port? (hg.source i w hw)

theorem Sound.node?_of_flowTarget? (hg : g.Sound) {node port target : String}
    (h : g.flowTarget? node port = some target) : ∃ n, g.node? target = some n := by
  obtain ⟨i, w, hw, _, rfl⟩ := exists_wire_of_flowTarget? h
  exact node?_of_isSome_port? (hg.target i w hw)

/-- From a node that is there control only comes to nodes that are there. -/
theorem Sound.node?_of_onward (hg : g.Sound) {m n : String} (h : g.Onward m n)
    (hm : ∃ node, g.node? m = some node) : ∃ node, g.node? n = some node := by
  induction h with
  | refl => exact hm
  | tail _ hnext _ => exact hg.node?_of_flowTarget? hnext

/-- A wire that carries values leads into an ordinary port. -/
theorem Sound.input_of_dataWire (hg : g.Sound) {node : Node} {id : String}
    (hn : g.node? id = some node) {i : WireId} {w : Wire} (h : (i, w) ∈ g.dataWires id) :
    ∃ port, node.inputs.find? w.targetPort = some port := by
  obtain ⟨hw, rfl, hflow⟩ := mem_dataWires.1 h
  have hport := hg.target i w hw
  have hname : w.targetPort ≠ flowInName := by simpa [Wire.isFlow] using hflow
  simp only [port?, hn, Option.bind_eq_bind, Option.bind_some, Node.port?, if_neg hname] at hport
  exact Option.isSome_iff_exists.1 hport

/-- Each wire is listed once. -/
theorem pairwise_keys_dataWires (id : String) :
    (g.dataWires id).Pairwise fun a b => a.1 ≠ b.1 := by
  refine List.Pairwise.filter _ (g.wires.ascending.imp fun {a b} hab heq => ?_)
  rw [heq] at hab
  exact absurd hab (by simp)

/-- No two wires that carry values lead into one port. -/
theorem Sound.pairwise_dataWires (hg : g.Sound) (id : String) :
    (g.dataWires id).Pairwise fun a b => a.2.targetPort ≠ b.2.targetPort := by
  refine (pairwise_keys_dataWires id).imp_of_mem fun {a b} ha hb hne hport => hne ?_
  obtain ⟨hw, ht, _⟩ := mem_dataWires.1 ha
  obtain ⟨hv, hs, _⟩ := mem_dataWires.1 hb
  exact hg.single _ _ _ _ hw hv (ht.trans hs.symm) hport

/-! ### Heights -/

section Height

open Classical

/-- The number of nodes that are strictly upstream of a node. -/
noncomputable def height (g : Graph) (n : String) : Nat :=
  g.ids.countP fun m => g.Above m n

/-- Where nothing feeds itself, a source is lower than what it feeds. -/
theorem height_lt_of_feeds (hg : g.Sound) {m n : String} (h : g.Feeds m n)
    (hcycle : ¬ g.Above m m) : g.height m < g.height n := by
  obtain ⟨node, hm⟩ := hg.node?_of_feeds h
  have hids : m ∈ g.ids := (mem_ids_iff g m).2 (by rw [hm]; rfl)
  refine countP_lt_countP hids ?_ ?_ fun k hk => ?_
  · exact decide_eq_true (Relation.TransGen.single h)
  · exact decide_eq_false hcycle
  · exact decide_eq_true (Relation.TransGen.tail (of_decide_eq_true hk) h)

/-- A node that does not feed itself is lower than the number of nodes. -/
theorem height_lt_length {n : String} (hn : n ∈ g.ids) (hcycle : ¬ g.Above n n) :
    g.height n < g.nodes.length := by
  have h : g.height n < g.ids.countP fun _ => true :=
    countP_lt_countP hn rfl (decide_eq_false hcycle) fun _ _ => rfl
  simpa [ids] using h

end Height

end Patchbay.Graph
