import Patchbay.Patch.Wiring
import Patchbay.Proofs.Table

/-!
# What hooks and removals can do to a patch

Hooks run in the middle of most operations. Whatever they do, they only edit nodes that are there
already: ids, kinds and ports stay, and no wire appears. `Patch.Trimmed p q` says that `q` came from
`p` in this way, with some wires taken away besides. The relation is reflexive and transitive, and
every operation that makes neither nodes nor wires stays in it.

## Key results

- `Node.grown_edit`: edits take nothing away from a node
- `Patch.trimmed_announce`: telling both ends of a wire edits nodes and does nothing else
- `Patch.trimmed_detach`: a wire that is detached is gone, or is the same wire as before
- `Patch.trimmed_detachPorts` / `Patch.trimmed_unwired`: the same for all wires of a node
-/

namespace Patchbay

/-- The node `m` is `n` after edits: it has the same id and kind, and all ports of `n`. -/
structure Node.Grown (n m : Node) : Prop where
  id : m.id = n.id
  kind : m.kind = n.kind
  port : ∀ name side, (n.port? name side).isSome → (m.port? name side).isSome

namespace Node

theorem Grown.refl (n : Node) : n.Grown n := ⟨rfl, rfl, fun _ _ h => h⟩

theorem Grown.trans {n m k : Node} (h₁ : n.Grown m) (h₂ : m.Grown k) : n.Grown k where
  id := h₂.id.trans h₁.id
  kind := h₂.kind.trans h₁.kind
  port := fun name side h => h₂.port name side (h₁.port name side h)

theorem grown_apply (n : Node) (e : NodeEdit) : n.Grown (e.apply n) where
  id := NodeEdit.id_apply n e
  kind := NodeEdit.kind_apply n e
  port := fun _ _ h => NodeEdit.isSome_port?_apply e h

theorem grown_edit (n : Node) (es : List NodeEdit) : n.Grown (n.edit es) where
  id := id_edit n es
  kind := kind_edit n es
  port := fun _ _ h => isSome_port?_edit es h

/-- Every port of a node has its name on the list. -/
theorem mem_portNames {n : Node} {name : String} {side : Side} (h : (n.port? name side).isSome) :
    name ∈ n.portNames side := by
  cases side <;> simp only [port?] at h <;> split at h <;> simp only [portNames, List.mem_append]
  case input.isTrue hname => exact .inr (by simp [h, hname])
  case input.isFalse => exact .inl (Table.mem_keys_iff.2 h)
  case output.isTrue hname => exact .inr (by simp [h, hname])
  case output.isFalse => exact .inl (Table.mem_keys_iff.2 h)

end Node

/-- The graph `h` is `g` after edits to nodes and after wires were taken away. -/
structure Graph.Trimmed (g h : Graph) : Prop where
  supportsFlow : h.supportsFlow = g.supportsFlow
  conversions : h.conversions = g.conversions
  kinds : h.kinds = g.kinds
  categories : h.categories = g.categories
  ids : h.ids = g.ids
  nodes : ∀ id n, g.node? id = some n → ∃ m, h.node? id = some m ∧ n.Grown m
  wires : ∀ i w, h.wires.find? i = some w → g.wires.find? i = some w
  nextWire : h.nextWire = g.nextWire

namespace Graph

theorem Trimmed.refl (g : Graph) : g.Trimmed g where
  supportsFlow := rfl
  conversions := rfl
  kinds := rfl
  categories := rfl
  ids := rfl
  nodes := fun _ n h => ⟨n, h, .refl n⟩
  wires := fun _ _ h => h
  nextWire := rfl

theorem Trimmed.trans {g h k : Graph} (h₁ : g.Trimmed h) (h₂ : h.Trimmed k) : g.Trimmed k where
  supportsFlow := h₂.supportsFlow.trans h₁.supportsFlow
  conversions := h₂.conversions.trans h₁.conversions
  kinds := h₂.kinds.trans h₁.kinds
  categories := h₂.categories.trans h₁.categories
  ids := h₂.ids.trans h₁.ids
  nodes := fun id n hn => by
    obtain ⟨m, hm, hnm⟩ := h₁.nodes id n hn
    obtain ⟨k, hk, hmk⟩ := h₂.nodes id m hm
    exact ⟨k, hk, hnm.trans hmk⟩
  wires := fun i w hw => h₁.wires i w (h₂.wires i w hw)
  nextWire := h₂.nextWire.trans h₁.nextWire

/-- A port that was there is there. -/
theorem Trimmed.isSome_port? {g h : Graph} (ht : g.Trimmed h) {node name : String} {side : Side}
    (hp : (g.port? node name side).isSome) : (h.port? node name side).isSome := by
  unfold port? at hp ⊢
  cases hn : g.node? node with
  | none => simp [hn] at hp
  | some n =>
    obtain ⟨m, hm, hnm⟩ := ht.nodes node n hn
    simp only [hn, Option.bind_eq_bind, Option.bind_some] at hp
    simpa only [hm, Option.bind_eq_bind, Option.bind_some] using hnm.port name side hp

/-- A node is exchanged for one that grew out of it. -/
theorem trimmed_revise (g : Graph) {id : String} {f : Node → Node}
    (hid : ∀ n : Node, n.id = id → (f n).id = id)
    (hf : ∀ n, g.node? id = some n → n.Grown (f n)) : g.Trimmed (g.revise id f) where
  supportsFlow := rfl
  conversions := rfl
  kinds := rfl
  categories := rfl
  ids := ids_revise g hid
  nodes := fun j n hn => by
    rw [node?_revise g hid]
    by_cases hj : j = id
    · subst hj
      exact ⟨f n, by rw [if_pos rfl, hn, Option.map_some], hf n hn⟩
    · exact ⟨n, by rw [if_neg hj, hn], .refl n⟩
  wires := fun _ _ h => h
  nextWire := rfl

/-- Only wires are exchanged, for some of those that were there. -/
theorem trimmed_wires (g : Graph) {ws : Table WireId Wire}
    (h : ∀ i w, ws.find? i = some w → g.wires.find? i = some w) :
    g.Trimmed { g with wires := ws } where
  supportsFlow := rfl
  conversions := rfl
  kinds := rfl
  categories := rfl
  ids := rfl
  nodes := fun _ n hn => ⟨n, hn, .refl n⟩
  wires := h
  nextWire := rfl

end Graph

/-- The wires that were dropped while snapshots were restored. -/
def Patch.dropped (p : Patch) : List Wire := p.journal.filterMap fun
  | .droppedWire w => some w
  | _ => none

/-- The patch `q` is `p` after edits to nodes and after wires were taken away; its kinds behave as
before, and nothing was dropped from a snapshot. -/
structure Patch.Trimmed (p q : Patch) : Prop extends p.toGraph.Trimmed q.toGraph where
  behaviour : q.behaviour = p.behaviour
  dropped : q.dropped = p.dropped

namespace Patch

theorem Trimmed.refl (p : Patch) : p.Trimmed p := ⟨.refl _, rfl, rfl⟩

theorem Trimmed.trans {p q r : Patch} (h₁ : p.Trimmed q) (h₂ : q.Trimmed r) : p.Trimmed r :=
  ⟨h₁.toTrimmed.trans h₂.toTrimmed, h₂.behaviour.trans h₁.behaviour, h₂.dropped.trans h₁.dropped⟩

/-- Steps that trim a patch do so one after the other. -/
theorem trimmed_foldl {α : Type} {f : Patch → α → Patch} (hf : ∀ q a, Trimmed q (f q a))
    (as : List α) (p : Patch) : p.Trimmed (as.foldl f p) :=
  List.foldlRecOn (motive := p.Trimmed) as f (.refl p) fun q hq a _ => hq.trans (hf q a)

theorem trimmed_edit (p : Patch) (id : String) (e : NodeEdit) : p.Trimmed (p.edit id e) := by
  refine ⟨p.toGraph.trimmed_revise (fun n h => ?_) fun n _ => n.grown_apply e, rfl, rfl⟩
  rw [NodeEdit.id_apply, h]

/-- A hook that is told of an event edits its node and does nothing else. -/
theorem trimmed_tell (p : Patch) (id : String) (e : WireEvent) : p.Trimmed (p.tell id e).2 := by
  unfold tell
  split
  next => exact .refl p
  next node hn =>
    split
    next => exact .refl p
    next hook _ =>
      -- The hook answers with its own node, which takes the place of the old one.
      have hid : node.id = id := Graph.id_of_node? hn
      refine ⟨p.toGraph.trimmed_revise (fun _ _ => ?_) fun n h => ?_, rfl, ?_⟩
      · exact (node.id_edit _).trans hid
      · obtain rfl : node = n := Option.some.inj (hn.symm.trans h)
        exact node.grown_edit _
      · simp [dropped, withGraph, note]

theorem trimmed_announce (p : Patch) (c : Change) : p.Trimmed (p.announce c).2 :=
  (p.trimmed_tell _ _).trans (trimmed_tell _ _ _)

/-- The patch without the wire under a number. -/
def cut (p : Patch) (id : WireId) : Patch :=
  p.withGraph { p.toGraph with wires := p.wires.erase id }

theorem trimmed_cut (p : Patch) (id : WireId) : p.Trimmed (p.cut id) := by
  refine ⟨p.toGraph.trimmed_wires fun i v hv => ?_, rfl, rfl⟩
  rw [Table.find?_erase] at hv
  split at hv
  · cases hv
  · exact hv

/-- A wire that is detached is gone, or is back under its number. -/
theorem trimmed_detach (p : Patch) {id : WireId} {w : Wire} (h : p.wires.find? id = some w) :
    p.Trimmed (p.detach id w).2 := by
  have hall := (p.trimmed_cut id).trans (trimmed_announce _ (.removed id w))
  unfold detach
  unfold cut at hall
  generalize Patch.announce _ _ = r at hall ⊢
  obtain ⟨kept, q⟩ := r
  dsimp only at hall ⊢
  split
  next =>
    -- The wire that is put back is the one that was there.
    have hws : ∀ i v, (q.wires.insert id w).find? i = some v → p.wires.find? i = some v := by
      intro i v hv
      rw [Table.find?_insert] at hv
      split at hv
      next hi => rwa [hi, h]
      next => exact hall.wires i v hv
    exact { hall with wires := hws }
  next => exact hall

theorem trimmed_freeInput (p : Patch) (node port : String) :
    p.Trimmed (p.freeInput node port).2 := by
  unfold freeInput
  split
  next id w h => exact p.trimmed_detach (Table.mem_entries_iff.1 (List.mem_of_find?_eq_some h))
  next => exact .refl p

theorem trimmed_disconnect (p : Patch) (node port : String) (side : Side) :
    p.Trimmed (p.disconnect node port side).2 := by
  unfold disconnect
  split
  next => exact .refl p
  next id w h => exact p.trimmed_detach (Table.mem_entries_iff.1 (List.mem_of_find?_eq_some h))

theorem trimmed_detachAll (p : Patch) (ids : List WireId) : p.Trimmed (p.detachAll ids) := by
  refine trimmed_foldl (fun p id => ?_) ids p
  split
  next w h => exact p.trimmed_detach h
  next => exact .refl p

theorem trimmed_detachPorts (p : Patch) (node : String) (side : Side) (ports : List String) :
    p.Trimmed (p.detachPorts node side ports) :=
  trimmed_foldl (fun p _ => p.trimmed_detachAll _) ports p

/-- What is left once the wires that touch a node are dropped. -/
theorem find?_wires_dropWires (p : Patch) (node : String) (i : WireId) (w : Wire) :
    (p.dropWires node).wires.find? i = some w ↔
      p.wires.find? i = some w ∧ w.touches node = false := by
  simp only [dropWires]
  split
  next hempty =>
    -- Nothing is dropped, since no wire touches the node.
    rw [List.isEmpty_iff, Graph.wiresWith, List.filter_eq_nil_iff] at hempty
    refine ⟨fun h => ⟨h, ?_⟩, fun h => h.1⟩
    simpa using hempty (i, w) (Table.mem_entries_iff.2 h)
  next =>
    simp only [withGraph, note]
    rw [Table.find?_eraseAll fun e : WireId × Wire => e.1]
    by_cases htouch : i ∈ (p.wiresWith (·.touches node)).map (·.1)
    · rw [if_pos htouch]
      -- A number that is dropped belongs to one wire only, and that wire touches the node.
      obtain ⟨⟨_, v⟩, hmem, rfl⟩ := List.mem_map.1 htouch
      obtain ⟨hv, ht⟩ := List.mem_filter.1 hmem
      refine ⟨fun h => (by cases h), fun h => ?_⟩
      obtain ⟨hw, hnot⟩ := h
      obtain rfl : v = w := Option.some.inj ((Table.mem_entries_iff.1 hv).symm.trans hw)
      exact absurd ht (by simp only [hnot, Bool.false_eq_true, not_false_eq_true])
    · rw [if_neg htouch]
      refine ⟨fun h => ⟨h, ?_⟩, fun h => h.1⟩
      cases ht : w.touches node with
      | false => rfl
      | true =>
        have hmem : (i, w) ∈ p.wiresWith (·.touches node) :=
          List.mem_filter.2 ⟨Table.mem_entries_iff.2 h, ht⟩
        exact absurd (List.mem_map_of_mem hmem) htouch

theorem trimmed_dropWires (p : Patch) (node : String) : p.Trimmed (p.dropWires node) := by
  have hws := fun i w h => ((p.find?_wires_dropWires node i w).1 h).1
  simp only [dropWires] at hws ⊢
  split
  next => exact .refl p
  next hleft =>
    rw [if_neg hleft] at hws
    exact ⟨p.toGraph.trimmed_wires hws, rfl, by simp [dropped, withGraph, note]⟩

/-- All wires of a node are detached, and those that were kept are dropped. -/
theorem trimmed_unwired (p : Patch) (id : String) (n : Node) :
    p.Trimmed (((p.detachPorts id .input (n.portNames .input)).detachPorts id .output
      (n.portNames .output)).dropWires id) :=
  ((p.trimmed_detachPorts id .input _).trans (trimmed_detachPorts _ id .output _)).trans
    (trimmed_dropWires _ id)

end Patch

end Patchbay
