import Patchbay.Node

/-! # Graphs

The data of a patch: declared kinds, nodes and wires. Nodes are listed in the order in which they
were inserted, wires in the order of their numbers. All look-ups are here; the operations that tell
the nodes about a change are in `Patchbay.Patch`.

What an operation does to the nodes is said through the look-up `node?`: `node?_without`,
`node?_revise` and `node?_put`. The ids and their order only change where a node comes or goes
(`ids_revise`, `ids_put`).
-/

namespace Patchbay

/-- Declared kinds, nodes and the wires between them. -/
structure Graph where
  /-- Whether kinds may have control ports. -/
  supportsFlow : Bool
  conversions : Conversions
  kinds : Table String Declaration
  /-- The ids of the kinds by category, in the order in which they were declared. -/
  categories : Table String (List String)
  /-- The nodes, in the order in which they were inserted. -/
  nodes : List Node
  wires : Table WireId Wire
  /-- The number that the next wire will have. -/
  nextWire : WireId

namespace Graph

/-- Nothing declared, nothing inserted. -/
def empty (supportsFlow : Bool) (conversions : Conversions) : Graph where
  supportsFlow := supportsFlow
  conversions := conversions
  kinds := ∅
  categories := ∅
  nodes := []
  wires := ∅
  nextWire := 0

/-! ### Kinds -/

/-- Takes a kind out of the list of its category; a category without kinds disappears. -/
def unlist (cs : Table String (List String)) (category id : String) : Table String (List String) :=
  match cs.find? category with
  | none => cs
  | some ids =>
    let left := ids.filter (· ≠ id)
    if left.isEmpty then cs.erase category else cs.insert category left

/-- Puts a kind at the end of the list of its category. -/
def list (cs : Table String (List String)) (category id : String) : Table String (List String) :=
  cs.insert category ((cs.find? category).getD [] ++ [id])

/-- Declares a kind; an earlier one with the same id is replaced. -/
def declare (g : Graph) (d : Declaration) : Graph :=
  let categories :=
    match g.kinds.find? d.id with
    | some old => unlist g.categories old.category old.id
    | none => g.categories
  { g with kinds := g.kinds.insert d.id d, categories := list categories d.category d.id }

/-! ### Nodes and ports -/

def node? (g : Graph) (id : String) : Option Node := g.nodes.find? (·.id = id)

/-- The ids of the nodes, in the order of insertion. -/
def ids (g : Graph) : List String := g.nodes.map (·.id)

/-- The graph without a node; its wires stay. -/
def without (g : Graph) (id : String) : Graph :=
  { g with nodes := g.nodes.filter (·.id ≠ id) }

/-- Changes a node, if it is there. -/
def revise (g : Graph) (id : String) (f : Node → Node) : Graph :=
  { g with nodes := g.nodes.map fun n => if n.id = id then f n else n }

/-- Puts a node at the end, or in the place of the node with the same id. -/
def put (g : Graph) (n : Node) : Graph :=
  if (g.node? n.id).isSome then g.revise n.id fun _ => n
  else { g with nodes := g.nodes ++ [n] }

/-- What is found under an id has that id. -/
theorem id_of_node? {g : Graph} {id : String} {n : Node} (h : g.node? id = some n) : n.id = id := by
  simpa using List.find?_some h

theorem node?_without (g : Graph) (id j : String) :
    (g.without id).node? j = if j = id then none else g.node? j := by
  simp only [without, node?, List.find?_filter]
  split
  next h =>
    subst h
    simp
  next h =>
    congr 1
    funext n
    by_cases hn : n.id = j
    · simp [hn, h]
    · simp [hn]

/-- A change that keeps the id is seen under that id alone. -/
theorem node?_revise (g : Graph) {id : String} {f : Node → Node}
    (hf : ∀ n : Node, n.id = id → (f n).id = id) (j : String) :
    (g.revise id f).node? j = if j = id then (g.node? j).map f else g.node? j := by
  simp only [revise, node?]
  induction g.nodes with
  | nil => simp
  | cons n ns ih =>
    have hid : (if n.id = id then f n else n).id = n.id := by
      split
      next h => rw [hf n h, h]
      next => rfl
    rw [List.map_cons, List.find?_cons, List.find?_cons, hid, ih]
    by_cases hn : n.id = j
    · by_cases hj : j = id <;> simp [hn, hj]
    · simp [hn]

theorem ids_revise (g : Graph) {id : String} {f : Node → Node}
    (hf : ∀ n : Node, n.id = id → (f n).id = id) : (g.revise id f).ids = g.ids := by
  rw [ids, revise, List.map_map]
  refine List.map_congr_left fun n _ => ?_
  rw [Function.comp]
  split
  next h => rw [hf n h, h]
  next => rfl

theorem node?_put (g : Graph) (n : Node) (j : String) :
    (g.put n).node? j = if j = n.id then some n else g.node? j := by
  unfold put
  split
  next h =>
    rw [node?_revise g fun _ _ => rfl]
    split
    next hj =>
      subst hj
      obtain ⟨m, hm⟩ := Option.isSome_iff_exists.1 h
      rw [hm, Option.map_some]
    next => rfl
  next h =>
    rw [Bool.not_eq_true, Option.isSome_eq_false_iff, Option.isNone_iff_eq_none] at h
    simp only [node?, List.find?_append, List.find?_singleton, decide_eq_true_eq] at h ⊢
    by_cases hj : n.id = j
    · subst hj
      simp [h]
    · simp [hj, Ne.symm hj]

/-- A new id goes to the end. -/
theorem ids_put (g : Graph) (n : Node) :
    (g.put n).ids = if n.id ∈ g.ids then g.ids else g.ids ++ [n.id] := by
  have hmem : (g.node? n.id).isSome ↔ n.id ∈ g.ids := by
    simp [node?, ids, List.find?_isSome]
  unfold put
  by_cases h : n.id ∈ g.ids
  · rw [if_pos (hmem.2 h), if_pos h, ids_revise g fun _ _ => rfl]
  · rw [if_neg (fun hs => h (hmem.1 hs)), if_neg h]
    simp [ids]

/-- Whether the kind of the node has a control port. -/
def usesFlow (g : Graph) (id : String) : Bool :=
  match g.node? id with
  | some n => (g.kinds.find? n.kind).any Declaration.usesFlow
  | none => false

/-- The port of a node, control ports included. -/
def port? (g : Graph) (node name : String) (side : Side) : Option Port := do
  (← g.node? node).port? name side

/-! ### Wires -/

/-- The first wire in the order of the numbers that has a property. -/
def wireWith? (g : Graph) (p : Wire → Bool) : Option (WireId × Wire) :=
  g.wires.entries.find? fun e => p e.2

/-- The wires that have a property, in the order of the numbers. -/
def wiresWith (g : Graph) (p : Wire → Bool) : List (WireId × Wire) :=
  g.wires.entries.filter fun e => p e.2

/-- The first wire at a port. -/
def wireAt? (g : Graph) (node port : String) (side : Side) : Option (WireId × Wire) :=
  g.wireWith? (·.endsAt node port side)

/-- The wires at a port. -/
def wiresAt (g : Graph) (node port : String) (side : Side) : List (WireId × Wire) :=
  g.wiresWith (·.endsAt node port side)

/-- The wires that carry values into a node. -/
def dataWires (g : Graph) (node : String) : List (WireId × Wire) :=
  g.wiresWith fun w => w.target = node && !w.isFlow

/-- The node that control goes on to from a port: the target of the first wire that carries control.
Value ports fed from the same port do not count. -/
def flowTarget? (g : Graph) (node port : String) : Option String :=
  (g.wireWith? fun w => w.endsAt node port .output && w.isFlow).map (·.2.target)

/-- The node that control goes on to after a node. -/
def nextInFlow? (g : Graph) (node : String) : Option String := g.flowTarget? node flowOutName

/-- The types of the two ports of a wire, if both ports exist and values can pass. -/
def typesOf? (g : Graph) (w : Wire) : Option (PortType × PortType) := do
  let s ← g.port? w.source w.sourcePort .output
  let t ← g.port? w.target w.targetPort .input
  if g.conversions.canConnect s.type t.type then some (s.type, t.type) else none

/-- Whether a wire could be made: its ends are different nodes, its ports exist and take wires, and
values can pass. -/
def admits (g : Graph) (w : Wire) : Bool :=
  w.source ≠ w.target &&
    (match g.port? w.source w.sourcePort .output, g.port? w.target w.targetPort .input with
    | some s, some t => s.hasPort && t.hasPort
    | _, _ => false) &&
    (g.typesOf? w).isSome

end Graph

end Patchbay
