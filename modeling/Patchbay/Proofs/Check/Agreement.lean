import Patchbay.Builtin.Catalogue
import Patchbay.Proofs.Check.Reports
import Patchbay.Proofs.Patch.Conforming
import Patchbay.Proofs.Patch.RoundTrip
import Patchbay.Proofs.Session.Sound

/-!
# Graphs and their snapshots have the same problems

The problems of a graph are found with the ports that its nodes have; those of a snapshot with the
ports that are declared, since a snapshot holds no ports. Both ways lead to the same list as long as
nodes have the ports that are declared, with the declared types.

A declaration may give an ordinary port the name of a control port. Nobody gets at such a port of a
node, but a snapshot would find it declared. This does no harm, because a wire only ends at ports
that were there when it was made.

## Key results

- `Surroundings.map_relabel_problems`: labels are only passed on
- `type_of_start`: what a declaration says of a port that a new node has
- `problems_snapshot`: the two lists are the same, apart from the labels of wires
-/

namespace Patchbay

/-- The problem with other labels for its wires. -/
def Problem.relabel (f : String → String) : Problem → Problem
  | unknownNode wire node => unknownNode (f wire) node
  | unknownPort wire node port => unknownPort (f wire) node port
  | selfLoop wire node => selfLoop (f wire) node
  | fanInExceeded node port count => fanInExceeded node port count
  | incompatibleTypes wire s t => incompatibleTypes (f wire) s t
  | unknownKind node kind => unknownKind node kind
  | dataCycle nodes => dataCycle nodes

/-- Wires of different numbers have different labels. -/
theorem WireId.label_injective {i j : WireId} (h : WireId.label i = WireId.label j) : i = j :=
  eq_of_label_eq "conn-" h

/-! ### Labels -/

namespace Surroundings

variable (s : Surroundings) (f : String → String)

theorem map_relabel_portProblems (label : String) (w : Wire) :
    (s.portProblems label w).map (Problem.relabel f) = s.portProblems (f label) w := by
  unfold portProblems
  cases s.portType? w.source w.sourcePort .output with
  | none => cases s.portType? w.target w.targetPort .input <;> rfl
  | some a =>
    cases s.portType? w.target w.targetPort .input with
    | none => rfl
    | some b =>
      dsimp only
      split <;> rfl

theorem map_relabel_wireProblems (label : String) (w : Wire) :
    (s.wireProblems label w).map (Problem.relabel f) = s.wireProblems (f label) w := by
  have hends : (s.unknownEnds label w).map (Problem.relabel f) = s.unknownEnds (f label) w := by
    by_cases hsource : w.source ∈ s.ids <;> by_cases htarget : w.target ∈ s.ids <;>
      simp [unknownEnds, hsource, htarget, Problem.relabel]
  have hempty : (s.unknownEnds (f label) w).isEmpty = (s.unknownEnds label w).isEmpty := by
    rw [← hends, List.isEmpty_map]
  simp only [wireProblems, List.map_append, hends, hempty]
  congr 1
  · congr 1
    split <;> rfl
  · split
    · exact s.map_relabel_portProblems f label w
    · rfl

/-- Labels are passed on from the wires to their problems, and do nothing else. -/
theorem map_relabel_problems (ws : List (String × Wire)) :
    (s.problems ws).map (Problem.relabel f) = s.problems (ws.map fun e => (f e.1, e.2)) := by
  have hfan : ∀ wires, (fanIn wires).map (Problem.relabel f) = fanIn wires := by
    intro wires
    refine (List.map_congr_left fun x hx => ?_).trans (List.map_id _)
    obtain ⟨node, _, hnode⟩ := List.mem_flatMap.1 hx
    obtain ⟨port, _, hport⟩ := List.mem_filterMap.1 hnode
    dsimp only at hport
    split at hport
    · obtain rfl := Option.some.inj hport
      rfl
    · cases hport
  have hwires : (ws.map fun e => (f e.1, e.2)).map (·.2) = ws.map (·.2) := by
    rw [List.map_map]
    rfl
  simp only [problems, List.map_append, hfan, hwires, List.map_flatMap, List.flatMap_map,
    map_relabel_wireProblems]
  congr 1
  split <;> rfl

/-- Only the types of ports at the ends of wires between known nodes are looked at. -/
theorem problems_congr {s t : Surroundings} (hids : s.ids = t.ids)
    (hconversions : s.conversions = t.conversions) {ws : List (String × Wire)}
    (hsource : ∀ e ∈ ws, s.portType? e.2.source e.2.sourcePort .output =
      t.portType? e.2.source e.2.sourcePort .output)
    (htarget : ∀ e ∈ ws, s.portType? e.2.target e.2.targetPort .input =
      t.portType? e.2.target e.2.targetPort .input) : s.problems ws = t.problems ws := by
  have hwires : ∀ e ∈ ws, s.wireProblems e.1 e.2 = t.wireProblems e.1 e.2 := by
    intro e he
    simp only [wireProblems, unknownEnds, portProblems, hids, hconversions, hsource e he,
      htarget e he]
    rfl
  have hall : ws.flatMap (fun e => s.wireProblems e.1 e.2) =
      ws.flatMap fun e => t.wireProblems e.1 e.2 := by
    rw [List.flatMap_def, List.flatMap_def, List.map_congr_left hwires]
  simp only [problems, hids, hall]

end Surroundings

/-! ### Declared ports -/

namespace Declaration

/-- The ports that are declared on a side. -/
def listed (d : Declaration) : Side → List (String × Port)
  | .input => d.inputs
  | .output => d.outputs

/-- No two ports of a side have one name. -/
def Distinct (d : Declaration) : Prop := ∀ side, ((d.listed side).map (·.1)).Nodup

instance (d : Declaration) : Decidable d.Distinct :=
  decidable_of_iff (((d.listed .input).map (·.1)).Nodup ∧ ((d.listed .output).map (·.1)).Nodup)
    ⟨fun h side => by cases side <;> simp [h], fun h => ⟨h .input, h .output⟩⟩

/-- The type of a port that a new node of the kind has is the declared one. -/
theorem type_of_start {d : Declaration} (hd : d.Distinct) {name : String} {side : Side} {a : Port}
    (h : d.start name side = some a) : (d.port? name side).map (·.type) = some a.type := by
  cases side with
  | input =>
    simp only [start, Node.port?, Node.ofDeclaration] at h
    simp only [port?]
    by_cases hname : name = flowInName
    · by_cases hentry : d.flow.hasEntry
      · simp only [hname, hentry, if_true, Option.some.injEq] at h
        simp [hname, hentry, ← h, Node.controlPort]
      · simp [hname, hentry] at h
    · have hfind := Table.find?_ofList (hd .input) name
      rw [if_neg hname] at h
      rw [listed, h] at hfind
      simp [hname, ← hfind]
  | output =>
    simp only [start, Node.port?, Node.ofDeclaration] at h
    simp only [port?]
    by_cases hname : name = flowOutName
    · by_cases hexit : d.flow.hasExit
      · simp only [hname, hexit, if_true, Option.some.injEq] at h
        simp [hname, hexit, ← h, Node.controlPort]
      · simp [hname, hexit] at h
    · have hfind := Table.find?_ofList (hd .output) name
      rw [if_neg hname] at h
      rw [listed, h] at hfind
      simp [hname, ← hfind]

end Declaration

/-! ### The two lists of problems -/

namespace Graph

variable {g : Graph}

/-- The kinds of the nodes give each port one declaration, and the ports of every node have the
types that those of a new node of its kind have; no port is missing, and none was added. -/
structure AsDeclared (g : Graph) : Prop where
  distinct : ∀ id n d, g.node? id = some n → g.kinds.find? n.kind = some d → d.Distinct
  ports : ∀ id n d, g.node? id = some n → g.kinds.find? n.kind = some d →
    ∀ name side, (n.port? name side).map (·.type) = (d.start name side).map (·.type)

/-- The nodes have the ports of new nodes, as far as the types of the ports go. This can be checked
table by table. -/
def LooksNew (g : Graph) : Prop :=
  ∀ n ∈ g.nodes, ∀ d ∈ g.kinds.find? n.kind, d.Distinct ∧
    let new := Node.ofDeclaration d n.id n.position
    n.inputs.map Port.type = new.inputs.map Port.type ∧
      n.outputs.map Port.type = new.outputs.map Port.type ∧
      n.flowIn.map Port.type = new.flowIn.map Port.type ∧
      n.flowOut.map Port.type = new.flowOut.map Port.type

instance (g : Graph) : Decidable g.LooksNew := by
  unfold LooksNew
  infer_instance

theorem LooksNew.asDeclared (h : g.LooksNew) : g.AsDeclared := by
  refine ⟨fun id n d hn hd => (h n (List.mem_of_find?_eq_some hn) d hd).1, ?_⟩
  intro id n d hn hd name side
  obtain ⟨_, hinputs, houtputs, hflowIn, hflowOut⟩ := h n (List.mem_of_find?_eq_some hn) d hd
  cases side with
  | input =>
    simp only [Declaration.start, Node.port?]
    by_cases hname : name = flowInName
    · simp only [if_pos hname]
      exact hflowIn
    · simp only [if_neg hname, ← Table.find?_map, hinputs]
      rfl
  | output =>
    simp only [Declaration.start, Node.port?]
    by_cases hname : name = flowOutName
    · simp only [if_pos hname]
      exact hflowOut
    · simp only [if_neg hname, ← Table.find?_map, houtputs]
      rfl

/-- The label of a wire by its place among all wires, given its label by number. -/
def placeLabel (g : Graph) (label : String) : String :=
  "#" ++ toString ((g.wires.entries.map fun e => WireId.label e.1).idxOf label)

theorem nodup_labels (g : Graph) : (g.wires.entries.map fun e => WireId.label e.1).Nodup := by
  refine List.pairwise_map.2 (g.wires.ascending.imp fun {a b} hab heq => ?_)
  have hkey : a.1 = b.1 := WireId.label_injective heq
  simp [hkey] at hab

/-- By their places wires are labelled as in a snapshot. -/
theorem map_placeLabel (g : Graph) :
    ((g.wires.entries.map fun e => (WireId.label e.1, e.2)).map fun e =>
        (g.placeLabel e.1, e.2)) =
      g.snapshot.wires.zipIdx.map fun e => ("#" ++ toString e.2, e.1) := by
  refine List.ext_getElem (by simp [snapshot]) fun i hi _ => ?_
  have hlabel := g.nodup_labels.idxOf_getElem i (by simpa using hi)
  simp only [List.getElem_map] at hlabel
  simp [snapshot, placeLabel, hlabel]

/-- The snapshot of a graph has one entry for each node. -/
theorem declaration?_snapshot (hg : g.ids.Nodup) (id : String) :
    g.snapshot.declaration? g id = (g.node? id).bind fun n => g.kinds.find? n.kind := by
  simp only [Snapshot.declaration?, snapshot, List.filterMap_map]
  unfold node?
  unfold ids at hg
  generalize g.nodes = nodes at hg ⊢
  induction nodes with
  | nil => rfl
  | cons n ns ih =>
    obtain ⟨hn, hns⟩ := List.nodup_cons.1 hg
    by_cases hid : n.id = id
    -- No later entry has the same id.
    · have hrest : ns.filterMap ((fun n : NodeState => if n.id = id then g.kinds.find? n.kind
          else none) ∘ .ofNode) = [] := by
        refine List.filterMap_eq_nil_iff.2 fun m hm => if_neg fun hmid => hn ?_
        have hsame : m.id = n.id := hmid.trans hid.symm
        exact List.mem_map.2 ⟨m, hm, hsame⟩
      rw [List.filterMap_cons, List.find?_cons_of_pos (by simpa using hid), hrest]
      simp only [Function.comp, NodeState.ofNode, hid, if_true, Option.bind_some]
      cases g.kinds.find? n.kind <;> rfl
    · rw [List.find?_cons_of_neg (by simpa using hid), ← ih hns, List.filterMap_cons]
      simp [NodeState.ofNode, hid]

/-- Where a port is there, its type is the one that is declared. -/
theorem AsDeclared.type_declared (h : g.AsDeclared) (hg : g.Sound) {id name : String}
    {side : Side} (hport : (g.port? id name side).isSome) :
    (do (← (← g.snapshot.declaration? g id).port? name side).type : Option PortType) =
      (g.port? id name side).map (·.type) := by
  obtain ⟨n, hn⟩ := node?_of_isSome_port? hport
  obtain ⟨d, hd⟩ := Option.isSome_iff_exists.1 (hg.declared id n hn)
  have hnode : g.port? id name side = n.port? name side := by simp [port?, hn]
  have hsame := h.ports id n d hn hd name side
  rw [hnode] at hport ⊢
  obtain ⟨b, hb⟩ := Option.isSome_iff_exists.1 hport
  rw [hb, Option.map_some, eq_comm, Option.map_eq_some_iff] at hsame
  obtain ⟨a, ha, hab⟩ := hsame
  rw [declaration?_snapshot hg.nodup, hn, Option.bind_some, hd, hb, Option.map_some, ← hab,
    ← Declaration.type_of_start (h.distinct id n d hn hd) ha]
  cases hport : d.port? name side <;> simp [hport]

/-- A graph whose nodes are as declared has the problems of its snapshot. -/
theorem problems_snapshot (hg : g.Sound) (h : g.AsDeclared) :
    g.snapshot.problems g = g.problems.map (Problem.relabel g.placeLabel) := by
  have hkinds : (unknownKinds g (g.nodes.map fun n => (n.id, n.kind))).map
      (Problem.relabel g.placeLabel) =
        unknownKinds g (g.snapshot.nodes.map fun n => (n.id, n.kind)) := by
    simp only [unknownKinds, snapshot, List.map_map, List.map_filterMap]
    congr 1
    funext n
    split <;> rfl
  have hids : g.snapshot.nodes.map (·.id) = g.ids := by
    rw [snapshot, List.map_map]
    rfl
  -- Every wire of the snapshot is one of the graph, so its ports are there.
  have hmem : ∀ e ∈ g.snapshot.wires.zipIdx.map fun x => ("#" ++ toString x.2, x.1),
      ∃ i, g.wires.find? i = some e.2 := by
    intro e he
    obtain ⟨x, hx, rfl⟩ := List.mem_map.1 he
    obtain ⟨d, hd, hdx⟩ := List.mem_map.1 (List.fst_mem_of_mem_zipIdx hx)
    exact ⟨d.1, Table.mem_entries_iff.1 (hdx ▸ hd)⟩
  rw [problems, List.map_append, hkinds, Surroundings.map_relabel_problems, map_placeLabel,
    Snapshot.problems]
  congr 1
  apply Surroundings.problems_congr
  · exact hids
  · rfl
  · intro e he
    obtain ⟨i, hi⟩ := hmem e he
    exact h.type_declared hg (hg.source i _ hi)
  · intro e he
    obtain ⟨i, hi⟩ := hmem e he
    exact h.type_declared hg (hg.target i _ hi)

end Graph

namespace Session

variable {s : Session}

/-- Two sums feed each other, a comparison feeds a sum that stops taking truth values, and the
first wire is taken away again. -/
def entangle : List Operation :=
  [.declare Builtin.add, .declare Builtin.greaterThan, .insert "add" "a" .origin,
    .insert "add" "b" .origin, .insert "greater-than" "test" .origin,
    .connect ⟨"a", "result", "test", "a"⟩, .connect ⟨"a", "result", "b", "a"⟩,
    .connect ⟨"b", "result", "a", "a"⟩, .connect ⟨"test", "result", "b", "b"⟩,
    .disconnect "test" "a" .input, .removeRule .boolean "number"]

theorem reachable_entangle : ((start true .base 10).performAll entangle).Reachable :=
  Reaches.performAll (.start true .base 10) (by decide +kernel)

end Session

end Patchbay
