import Patchbay.Proofs.Patch.Conforming
import Patchbay.Proofs.Patch.Kinds

/-!
# Restoring the nodes of a snapshot

What `restoreNode` makes of the state of a node, port by port, for kinds that do nothing on
creation. The values of a side are set one after the other; `Node.Valued` says what several such
changes come to.

## Key results

- `restoreNode_eq`: the restored node is new but for values, data and position
- `restoreNodes_eq`: all nodes of a snapshot come back, in their order
-/

namespace Patchbay

/-- The node `m` is `n` after ports of one side were given values. -/
structure Node.Valued (side : Side) (values : String → Option Value) (n m : Node) : Prop where
  id : m.id = n.id
  kind : m.kind = n.kind
  position : m.position = n.position
  data : m.data = n.data
  port : ∀ name t, m.port? name t = (n.port? name t).map fun a =>
    { a with value := (if t = side then values name else none).or a.value }
  shadowed : ∀ t : Side, (m.ports t).find? t.controlName = (n.ports t).find? t.controlName

namespace Node

variable {side : Side} {n m k : Node}

theorem Valued.refl (side : Side) (n : Node) : n.Valued side (fun _ => none) n where
  id := rfl
  kind := rfl
  position := rfl
  data := rfl
  port := fun name t => by simp
  shadowed := fun _ => rfl

theorem Valued.trans {v w : String → Option Value} (h₁ : n.Valued side v m)
    (h₂ : m.Valued side w k) : n.Valued side (fun name => (w name).or (v name)) k where
  id := h₂.id.trans h₁.id
  kind := h₂.kind.trans h₁.kind
  position := h₂.position.trans h₁.position
  data := h₂.data.trans h₁.data
  port := fun name t => by
    rw [h₂.port, h₁.port, Option.map_map]
    by_cases ht : t = side <;> simp [Function.comp_def, ht, Option.or_assoc]
  shadowed := fun t => (h₂.shadowed t).trans (h₁.shadowed t)

theorem position_revisePort (n : Node) (name : String) (side : Side) (f : Port → Port) :
    (n.revisePort name side f).position = n.position := by
  cases side <;> simp only [revisePort] <;> split <;> rfl

theorem data_revisePort (n : Node) (name : String) (side : Side) (f : Port → Port) :
    (n.revisePort name side f).data = n.data := by
  cases side <;> simp only [revisePort] <;> split <;> rfl

theorem valued_setValue (n : Node) (side : Side) (name : String) (v : Value) :
    n.Valued side (fun j => if j = name then some v else none)
      (NodeEdit.apply n (.setValue name side v)) where
  id := NodeEdit.id_apply n _
  kind := NodeEdit.kind_apply n _
  position := n.position_revisePort name side _
  data := n.data_revisePort name side _
  port := fun j t => by
    refine (n.port?_revisePort name j side t _).trans ?_
    by_cases ht : t = side <;> by_cases hj : j = name <;> simp [ht, hj]
  shadowed := fun t => n.find?_controlName_revisePort name side t _

/-- A value for a port that is not there has no effect. -/
theorem valued_of_port?_eq_none {name : String} (h : n.port? name side = none) (v : Value) :
    n.Valued side (fun j => if j = name then some v else none) n where
  id := rfl
  kind := rfl
  position := rfl
  data := rfl
  port := fun j t => by
    by_cases ht : t = side <;> by_cases hj : j = name
    · simp [ht, hj, h]
    all_goals simp [ht, hj]
  shadowed := fun _ => rfl

end Node

namespace Patch

open Patchbay.Graph

variable {p : Patch}

theorem node?_edit (p : Patch) (id : String) (e : NodeEdit) (j : String) :
    (p.edit id e).node? j = if j = id then (p.node? j).map (NodeEdit.apply · e) else p.node? j :=
  p.toGraph.node?_revise (fun n h => (NodeEdit.id_apply n e).trans h) j

/-- A value is given to a port of a node, if the port is there. -/
theorem node?_restoreValue {id : String} {n : Node} (hn : p.node? id = some n) (side : Side)
    (name : String) (v : Value) :
    ∃ m, n.Valued side (fun j => if j = name then some v else none) m ∧
      ∀ j, (if (p.port? id name side).isSome then p.setValue id name side v
          else p.note (.missingPort side name id)).node? j =
        if j = id then some m else p.node? j := by
  have hport : p.port? id name side = n.port? name side := by simp [port?, hn]
  rw [hport]
  cases hsome : n.port? name side with
  | some a =>
    refine ⟨_, n.valued_setValue side name v, fun j => ?_⟩
    rw [Option.isSome_some, if_pos rfl, setValue, node?_edit]
    by_cases hj : j = id
    · simp [hj, hn]
    · simp [hj]
  | none =>
    refine ⟨n, Node.valued_of_port?_eq_none hsome v, fun j => ?_⟩
    show p.node? j = _
    by_cases hj : j = id
    · simp [hj, hn]
    · simp [hj]

/-- The values of a snapshot are given to the ports of a node, as far as these are there. -/
theorem node?_restoreValues {id : String} {n : Node} (hn : p.node? id = some n) (side : Side)
    (values : PortValues) : ∃ m, n.Valued side (fun name => values.find? name) m ∧
      ∀ j, (p.restoreValues id side values).node? j = if j = id then some m else p.node? j := by
  obtain ⟨es, hes⟩ := values
  simp only [restoreValues, Table.find?]
  induction es generalizing p n with
  | nil =>
    refine ⟨n, .refl side n, fun j => ?_⟩
    by_cases hj : j = id
    · simp [hj, hn]
    · simp [hj]
  | cons e es ih =>
    obtain ⟨m, hm, hfirst⟩ := node?_restoreValue hn side e.1 e.2
    obtain ⟨k, hk, hrest⟩ := ih (by rw [hfirst, if_pos rfl]) (List.pairwise_cons.1 hes).2
    -- The names of values differ, so that the first value is not replaced by a later one.
    have hfind : (fun name => Entries.find? name (e :: es)) = fun name =>
        (Entries.find? name es).or (if name = e.1 then some e.2 else none) :=
      funext fun name => Entries.find?_cons_of_ascending hes name
    refine ⟨k, hfind ▸ hm.trans hk, fun j => ?_⟩
    rw [List.foldl_cons, hrest, hfirst]
    by_cases hj : j = id <;> simp [hj]

/-- A kind that does nothing on creation leaves a new node as declared. -/
theorem insert_eq {kind : String} {d : Declaration} (hd : p.kinds.find? kind = some d)
    (hcreate : (p.behaviour kind).onCreate = none) (id : String) (position : Position) :
    p.insert kind id position =
      .ok (p.withGraph (p.toGraph.put (.ofDeclaration d id position))) := by
  simp only [insert, hd, hcreate]

/-- A restored node is as new, but for what the snapshot says. -/
theorem restoreNode_eq {s : NodeState} {d : Declaration} (hd : p.kinds.find? s.kind = some d)
    (hcreate : (p.behaviour s.kind).onCreate = none) :
    ∃ q m, p.restoreNode s = .ok q ∧ m.Restored d s ∧
      ∀ j, q.node? j = if j = s.id then some m else p.node? j := by
  have hinsert := insert_eq hd hcreate s.id s.position
  have hnew := p.toGraph.node?_put (.ofDeclaration d s.id s.position)
  -- What follows only looks at the nodes of the patch with the new node.
  generalize hr : p.withGraph (p.toGraph.put (.ofDeclaration d s.id s.position)) = r at hinsert
  replace hnew : ∀ j, r.node? j =
      if j = s.id then some (.ofDeclaration d s.id s.position) else p.node? j := by
    rw [← hr]
    exact hnew
  -- Inputs come first, then outputs, and the data last.
  obtain ⟨n₁, hn₁, hr₁⟩ := node?_restoreValues (by rw [hnew, if_pos rfl]) .input s.inputs
  obtain ⟨n₂, hn₂, hr₂⟩ := node?_restoreValues (by rw [hr₁, if_pos rfl]) .output s.outputs
  refine ⟨_, NodeEdit.apply n₂ (.setData s.data), by rw [restoreNode, hinsert]; rfl, ?_,
    fun j => ?_⟩
  · exact {
      id := hn₂.id.trans hn₁.id
      kind := hn₂.kind.trans hn₁.kind
      position := hn₂.position.trans hn₁.position
      data := rfl
      port := fun name side => by
        show n₂.port? name side = _
        rw [hn₂.port, hn₁.port, Node.port?_ofDeclaration, Option.map_map]
        cases side <;> simp [Function.comp_def, NodeState.values]
      shadowed := fun side => ((hn₂.shadowed side).trans (hn₁.shadowed side)).trans (by
        cases side <;> rfl) }
  · rw [node?_edit, hr₂, hr₁, hnew]
    by_cases hj : j = s.id <;> simp [hj]

/-- A restored node goes to the end, or in the place of the node with the same id. -/
theorem ids_restoreNode (hp : ∀ k d, p.kinds.find? k = some d → d.id = k) {s : NodeState}
    {q : Patch} (hq : p.restoreNode s = .ok q) :
    q.ids = (if s.id ∈ p.ids then p.ids else p.ids ++ [s.id]) ∧ p.SameKinds q := by
  obtain ⟨r, hr, rfl⟩ := restoreNode_cases hq
  have hrq := r.trimmed_fill s
  obtain ⟨n, hn, _, rfl⟩ := insert_cases hp hr
  refine ⟨hrq.ids.trans ?_, (p.sameKinds_put n).trans hrq.sameKinds⟩
  rw [← hn]
  exact p.toGraph.ids_put n

/-- Nodes with different new ids are restored one after the other. -/
theorem restoreNodes_eq {ss : List NodeState} (hp : ∀ k d, p.kinds.find? k = some d → d.id = k)
    (hids : (p.ids ++ ss.map (·.id)).Nodup)
    (hkinds : ∀ s ∈ ss, (p.kinds.find? s.kind).isSome ∧ (p.behaviour s.kind).onCreate = none) :
    ∃ r, ss.foldlM restoreNode p = .ok r ∧ r.ids = p.ids ++ ss.map (·.id) ∧
      (∀ j ∈ p.ids, r.node? j = p.node? j) ∧
      ∀ s ∈ ss, ∀ d, p.kinds.find? s.kind = some d →
        ∃ m, r.node? s.id = some m ∧ m.Restored d s := by
  induction ss generalizing p with
  | nil => exact ⟨p, rfl, (List.append_nil _).symm, fun _ _ => rfl,
      List.forall_mem_nil _⟩
  | cons s ss ih =>
    obtain ⟨hsome, hcreate⟩ := hkinds s List.mem_cons_self
    obtain ⟨d, hd⟩ := Option.isSome_iff_exists.1 hsome
    obtain ⟨q, m, hq, hm, hnode⟩ := restoreNode_eq hd hcreate
    -- The first node goes to the end, and stays as it is while the others follow.
    have hnew : s.id ∉ p.ids := fun hmem =>
      (List.nodup_append.1 hids).2.2 s.id hmem s.id List.mem_cons_self rfl
    obtain ⟨hqids, hsame⟩ := ids_restoreNode hp hq
    rw [if_neg hnew] at hqids
    obtain ⟨r, hr, hrids, hold, hrestored⟩ := ih (p := q) (hsame.kinds ▸ hp)
      (by rw [hqids, List.append_assoc]; exact hids)
      (by rw [hsame.kinds, hsame.behaviour]; exact fun t ht => hkinds t (List.mem_cons_of_mem _ ht))
    refine ⟨r, by rw [List.foldlM_cons, hq]; exact hr, ?_, fun j hj => ?_, fun t ht e he => ?_⟩
    · rw [hrids, hqids, List.append_assoc]
      rfl
    · rw [hold j (hqids ▸ List.mem_append_left _ hj), hnode, if_neg]
      rintro rfl
      exact hnew hj
    · rcases List.mem_cons.1 ht with rfl | ht
      · obtain rfl : d = e := Option.some.inj (hd.symm.trans he)
        refine ⟨m, ?_, hm⟩
        have hmem : t.id ∈ q.ids := hqids ▸ List.mem_append_right _ (List.mem_singleton_self _)
        rw [hold t.id hmem, hnode, if_pos rfl]
      · exact hrestored t ht e (hsame.kinds ▸ he)

end Patch

end Patchbay
