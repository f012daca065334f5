import Patchbay.Proofs.Check.Behind
import Patchbay.Proofs.Check.Reports

/-!
# What is reported of a snapshot

The report on a snapshot is empty iff nothing is wrong with it, and in any case it has each problem
as often as there is a reason for it. Faults do not hide each other, apart from what the check says
it skips: ports of a wire are looked at only where both its ends are known.

## Key results

- `Snapshot.declaration?_eq_some_iff`: which entry decides on the ports of a node
- `Snapshot.reported_problems`: how often each problem is reported
- `Snapshot.problems_exact`: the report is empty iff nothing is wrong, and it is exact
-/

namespace Patchbay

open Relation

namespace Snapshot

variable {s : Snapshot} {g : Graph}

/-! ### Declarations -/

/-- Of the entries under an id, the last one whose kind is declared decides. -/
theorem declaration?_eq_some_iff (s : Snapshot) (g : Graph) (id : String) (d : Declaration) :
    s.declaration? g id = some d ↔ ∃ before n after, s.nodes = before ++ n :: after ∧
      n.id = id ∧ g.kinds.find? n.kind = some d ∧
        ∀ m ∈ after, m.id = id → g.kinds.find? m.kind = none := by
  have hone : ∀ n : NodeState, (if n.id = id then g.kinds.find? n.kind else none) = some d ↔
      n.id = id ∧ g.kinds.find? n.kind = some d := by
    intro n
    by_cases hn : n.id = id <;> simp [hn]
  have hnone : ∀ n : NodeState, (if n.id = id then g.kinds.find? n.kind else none) = none ↔
      (n.id = id → g.kinds.find? n.kind = none) := by
    intro n
    by_cases hn : n.id = id <;> simp [hn]
  rw [declaration?, List.getLast?_filterMap, List.findSome?_eq_some_iff]
  simp only [hone, hnone, List.reverse_eq_iff, and_assoc]
  -- From the end the entries after the deciding one come first.
  constructor
  · rintro ⟨after, n, before, hnodes, hid, hkind, hafter⟩
    exact ⟨before.reverse, n, after.reverse, by simpa using hnodes, hid, hkind,
      fun m hm => hafter m (List.mem_reverse.1 hm)⟩
  · rintro ⟨before, n, after, hnodes, hid, hkind, hafter⟩
    exact ⟨after.reverse, n, before.reverse, by simpa using hnodes, hid, hkind,
      fun m hm => hafter m (List.mem_reverse.1 hm)⟩

/-! ### Reports -/

/-- The label of a wire of a snapshot, by its place. -/
def wireLabel (i : Nat) : String := "#" ++ toString i

/-- Each problem is in a report as often as a snapshot gives reason for it. Wires are labelled by
their places in the snapshot. -/
structure Reported (s : Snapshot) (g : Graph) (ps : List Problem) : Prop where
  /-- One problem for each entry of an undeclared kind. -/
  kinds : ∀ id kind, ps.count (.unknownKind id kind) =
    s.nodes.countP fun n => n.id = id && n.kind = kind && !g.kinds.contains kind
  /-- Problems of wires are problems of the wires of the snapshot. -/
  labels : ∀ p ∈ ps, ∀ label, p.wire? = some label →
    ∃ i < s.wires.length, label = wireLabel i
  /-- One problem for a wire that leads back to its own node. -/
  loops : ∀ i (w : Wire), s.wires[i]? = some w → ∀ node, ps.count (.selfLoop (wireLabel i) node) =
    if w.source = node ∧ w.target = node then 1 else 0
  /-- One problem for each end of a wire that is not a node. -/
  ends : ∀ i (w : Wire), s.wires[i]? = some w → ∀ node, ps.count (.unknownNode (wireLabel i) node) =
    (if w.source = node ∧ node ∉ s.nodes.map (·.id) then 1 else 0) +
      if w.target = node ∧ node ∉ s.nodes.map (·.id) then 1 else 0
  /-- One problem for each port that is missing, if both ends are nodes. -/
  ports : ∀ i (w : Wire), s.wires[i]? = some w → ∀ node port,
    ps.count (.unknownPort (wireLabel i) node port) =
      if w.source ∈ s.nodes.map (·.id) ∧ w.target ∈ s.nodes.map (·.id) then
        (if w.source = node ∧ w.sourcePort = port ∧ s.declaredType? g node port .output = none
          then 1 else 0) +
        if w.target = node ∧ w.targetPort = port ∧ s.declaredType? g node port .input = none
          then 1 else 0
      else 0
  /-- One problem for types that do not fit, if both ends are nodes and have the ports. -/
  types : ∀ i (w : Wire), s.wires[i]? = some w → ∀ a b,
    ps.count (.incompatibleTypes (wireLabel i) a b) ≤ 1 ∧
      (.incompatibleTypes (wireLabel i) a b ∈ ps ↔
        (w.source ∈ s.nodes.map (·.id) ∧ w.target ∈ s.nodes.map (·.id)) ∧ ∃ ta tb,
          s.declaredType? g w.source w.sourcePort .output = some ta ∧
          s.declaredType? g w.target w.targetPort .input = some tb ∧
          g.conversions.canConnect ta tb = false ∧ ta.id = a ∧ tb.id = b)
  /-- One problem, with the number of the wires, for each input that several wires lead into. -/
  inputs : ∀ node port count, ps.count (.fanInExceeded node port count) =
    if 1 < count ∧ s.wires.countP (·.endsAt node port .input) = count then 1 else 0
  /-- Inputs are reported in ascending order. -/
  ascending : (ps.filterMap Problem.input?).Pairwise InputBefore
  /-- One problem for all nodes on cycles of data wires and behind them, if there are any. -/
  cycles : ∃ nodes : List String, nodes.Pairwise (fun a b => compare a b = .lt) ∧
    (∀ n, n ∈ nodes ↔ BehindCycle (s.nodes.map (·.id)) s.wires n) ∧
    ps.filter (·.part = .cycles) = if nodes = [] then [] else [.dataCycle nodes]

/-- What the wires of a snapshot are checked against. -/
def surroundings (s : Snapshot) (g : Graph) : Surroundings where
  ids := s.nodes.map (·.id)
  portType? := s.declaredType? g
  conversions := g.conversions

/-- The wires of a snapshot with their labels. -/
def labelled (s : Snapshot) : List (String × Wire) :=
  s.wires.zipIdx.map fun e => (wireLabel e.2, e.1)

theorem mem_labelled_iff {label : String} {w : Wire} :
    (label, w) ∈ s.labelled ↔ ∃ i, s.wires[i]? = some w ∧ label = wireLabel i := by
  simp only [labelled, List.mem_map, Prod.exists, List.mem_zipIdx_iff_getElem?, Prod.mk.injEq]
  constructor
  · rintro ⟨w, i, hw, rfl, rfl⟩
    exact ⟨i, hw, rfl⟩
  · rintro ⟨i, hw, rfl⟩
    exact ⟨w, i, hw, rfl, rfl⟩

theorem map_snd_labelled (s : Snapshot) : s.labelled.map (·.2) = s.wires := by
  rw [labelled, List.map_map]
  exact List.zipIdx_map_fst 0 s.wires

theorem nodup_labelled (s : Snapshot) : (s.labelled.map (·.1)).Nodup := by
  rw [labelled, List.map_map]
  have hplaces : (s.wires.zipIdx.map (·.2)).Nodup := by
    rw [List.zipIdx_map_snd]
    exact List.nodup_range'
  exact List.Pairwise.map _ (fun a b hab heq => hab (eq_of_label_eq "#" heq))
    (List.pairwise_map.1 hplaces)

theorem problems_eq (s : Snapshot) (g : Graph) :
    s.problems g = unknownKinds g (s.nodes.map fun n => (n.id, n.kind)) ++
      (s.surroundings g).problems s.labelled := rfl

/-- The parts of a report on a snapshot. -/
theorem filter_part_problems (s : Snapshot) (g : Graph) (a : Part) :
    (s.problems g).filter (·.part = a) =
      match a with
      | .kinds => unknownKinds g (s.nodes.map fun n => (n.id, n.kind))
      | .wires => s.labelled.flatMap fun e => (s.surroundings g).wireProblems e.1 e.2
      | .inputs => fanIn s.wires
      | .cycles => (s.surroundings g).cycleProblems s.wires := by
  rw [problems_eq, List.filter_append, filter_part_of_forall fun p => part_of_mem_unknownKinds,
    Surroundings.filter_part_problems, map_snd_labelled]
  cases a <;> simp

/-- Only its own part of the report matters to a problem. -/
theorem count_problems (s : Snapshot) (g : Graph) (p : Problem) :
    (s.problems g).count p = ((s.problems g).filter (·.part = p.part)).count p :=
  (List.count_filter (by simp)).symm

/-- What is reported of a wire is what is wrong with it. -/
theorem count_problems_of_wire {i : Nat} {w : Wire} (hw : s.wires[i]? = some w) {p : Problem}
    (hp : p.wire? = some (wireLabel i)) :
    (s.problems g).count p = ((s.surroundings g).wireProblems (wireLabel i) w).count p := by
  rw [count_problems, Problem.part_of_wire? hp, filter_part_problems]
  exact (s.surroundings g).count_flatMap_wireProblems s.nodup_labelled
    (mem_labelled_iff.2 ⟨i, hw, rfl⟩) hp

theorem reported_problems (s : Snapshot) (g : Graph) : s.Reported g (s.problems g) where
  kinds id kind := by
    rw [count_problems, Problem.part, filter_part_problems, count_unknownKinds,
      List.count_eq_countP, List.countP_map]
    cases hkind : g.kinds.contains kind with
    | true => simp
    | false =>
      refine List.countP_congr fun n _ => ?_
      simp [Prod.ext_iff]
  labels p hp label hlabel := by
    have hmem : p ∈ (s.problems g).filter (·.part = .wires) :=
      List.mem_filter.2 ⟨hp, by simp [Problem.part_of_wire? hlabel]⟩
    rw [filter_part_problems] at hmem
    obtain ⟨⟨label', w⟩, hw, hpw⟩ := List.mem_flatMap.1 hmem
    obtain ⟨i, hi, rfl⟩ := mem_labelled_iff.1 hw
    have hsame := ((s.surroundings g).wire?_of_mem_wireProblems hpw).symm.trans hlabel
    exact ⟨i, (List.getElem?_eq_some_iff.1 hi).1, (Option.some.inj hsame).symm⟩
  loops i w hw node :=
    (count_problems_of_wire hw rfl).trans ((s.surroundings g).count_selfLoop _ node w)
  ends i w hw node :=
    (count_problems_of_wire hw rfl).trans ((s.surroundings g).count_unknownNode _ node w)
  ports i w hw node port :=
    (count_problems_of_wire hw rfl).trans ((s.surroundings g).count_unknownPort _ node port w)
  types i w hw a b := by
    have hcount := count_problems_of_wire (g := g) hw
      (p := .incompatibleTypes (wireLabel i) a b) rfl
    rw [← List.count_pos_iff, hcount, List.count_pos_iff]
    exact (s.surroundings g).count_incompatibleTypes _ a b w
  inputs node port count := by
    rw [count_problems, Problem.part, filter_part_problems]
    exact count_fanIn s.wires node port count
  ascending := by
    have hinputs : (s.problems g).filterMap Problem.input? =
        ((s.problems g).filter (·.part = .inputs)).filterMap Problem.input? := by
      rw [List.filterMap_filter]
      congr 1
      funext p
      cases p <;> rfl
    rw [hinputs, filter_part_problems]
    exact fanIn_ascending s.wires
  cycles := by
    refine ⟨unsettledNodes (s.nodes.map (·.id)) s.wires, unsettledNodes_ascending _ _,
      mem_unsettledNodes_iff_behindCycle, ?_⟩
    rw [filter_part_problems]
    simp only [Surroundings.cycleProblems, surroundings, List.isEmpty_iff]

/-! ### The whole check -/

/-- The report on a snapshot is empty iff its kinds are declared, its wires are faultless, no two of
them lead into one input, and the data wires form no cycle. In any case each problem is reported as
often as there is a reason for it. What ports a node has is decided by the last of its entries whose
kind is declared. -/
theorem problems_exact (s : Snapshot) (g : Graph) :
    (s.problems g = [] ↔ (∀ n ∈ s.nodes, g.kinds.contains n.kind = true) ∧
      (∀ w ∈ s.wires, s.Faultless g w) ∧
      (∀ node port, s.wires.countP (·.endsAt node port .input) ≤ 1) ∧
      ∀ n, ¬ TransGen (fun a b => ∃ w ∈ s.wires, w.source = a ∧ w.target = b ∧
        w.targetPort ≠ flowInName) n n) ∧
    s.Reported g (s.problems g) ∧
    ∀ id d, s.declaration? g id = some d ↔ ∃ before n after, s.nodes = before ++ n :: after ∧
      n.id = id ∧ g.kinds.find? n.kind = some d ∧
        ∀ m ∈ after, m.id = id → g.kinds.find? m.kind = none := by
  refine ⟨?_, s.reported_problems g, s.declaration?_eq_some_iff g⟩
  rw [problems_eq_nil_iff, unsettledNodes_eq_nil_iff]
  refine and_congr_right fun _ => and_congr_right fun hwires => and_congr_right fun _ => ?_
  -- Wires without faults lead from one known node to another anyway.
  have hsame : LeadsAmong (s.nodes.map (·.id)) s.wires = fun a b => ∃ w ∈ s.wires, w.source = a ∧
      w.target = b ∧ w.targetPort ≠ flowInName := by
    funext a b
    refine propext ⟨fun h => h.2.2.2, ?_⟩
    rintro ⟨w, hw, rfl, rfl, hdata⟩
    obtain ⟨hne, ⟨hsource, htarget⟩, _⟩ := hwires w hw
    exact ⟨hne, hsource, htarget, w, hw, rfl, rfl, hdata⟩
  rw [hsame]

end Snapshot

end Patchbay
