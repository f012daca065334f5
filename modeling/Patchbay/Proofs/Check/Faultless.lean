import Patchbay.Check.Problem
import Patchbay.Proofs.Table

/-!
# Snapshots without problems

What it means that a check reports nothing, part by part: kinds, ends and ports of wires, inputs,
and cycles.

## Key results

- `Surroundings.wireProblems_eq_nil_iff`: when nothing is wrong with a wire
- `mem_fanIn_iff`: which inputs are listed
- `fanIn_eq_nil_iff`: when no input is fed twice
- `Snapshot.problems_eq_nil_iff`: when nothing is wrong with a snapshot
-/

namespace Patchbay

/-- Nothing is wrong with kinds that are all declared. -/
theorem unknownKinds_eq_nil_iff (g : Graph) (ns : List (String × String)) :
    unknownKinds g ns = [] ↔ ∀ n ∈ ns, g.kinds.contains n.2 = true := by
  unfold unknownKinds
  rw [List.filterMap_eq_nil_iff]
  refine forall₂_congr fun n _ => ?_
  cases g.kinds.contains n.2 <;> simp

namespace Surroundings

variable (s : Surroundings)

theorem unknownEnds_eq_nil_iff (label : String) (w : Wire) :
    s.unknownEnds label w = [] ↔ w.source ∈ s.ids ∧ w.target ∈ s.ids := by
  by_cases hsource : w.source ∈ s.ids <;> by_cases htarget : w.target ∈ s.ids <;>
    simp [unknownEnds, hsource, htarget]

theorem portProblems_eq_nil_iff (label : String) (w : Wire) :
    s.portProblems label w = [] ↔ ∃ a b,
      s.portType? w.source w.sourcePort .output = some a ∧
        s.portType? w.target w.targetPort .input = some b ∧
          s.conversions.canConnect a b = true := by
  unfold portProblems
  cases s.portType? w.source w.sourcePort .output with
  | none => cases s.portType? w.target w.targetPort .input <;> simp
  | some a =>
    cases s.portType? w.target w.targetPort .input with
    | none => simp
    | some b => simp

/-- Nothing is wrong with a wire that leads from one known node to another, between known ports
whose types fit. -/
theorem wireProblems_eq_nil_iff (label : String) (w : Wire) :
    s.wireProblems label w = [] ↔ w.source ≠ w.target ∧ (w.source ∈ s.ids ∧ w.target ∈ s.ids) ∧
      ∃ a b, s.portType? w.source w.sourcePort .output = some a ∧
        s.portType? w.target w.targetPort .input = some b ∧
          s.conversions.canConnect a b = true := by
  rw [← s.unknownEnds_eq_nil_iff label w, ← s.portProblems_eq_nil_iff label w]
  simp only [wireProblems, List.append_eq_nil_iff, and_assoc]
  refine and_congr ?_ (and_congr_right fun hends => ?_)
  · by_cases hloop : w.source = w.target <;> simp [hloop]
  · rw [hends, List.isEmpty_nil, if_pos rfl]

end Surroundings

/-- What is listed of inputs. -/
theorem mem_fanIn_iff (ws : List Wire) (p : Problem) :
    p ∈ fanIn ws ↔ ∃ node port, 1 < ws.countP (·.endsAt node port .input) ∧
      p = .fanInExceeded node port (ws.countP (·.endsAt node port .input)) := by
  simp only [fanIn, List.mem_flatMap, List.mem_filterMap, Table.mem_distinct]
  constructor
  · rintro ⟨node, _, port, _, hp⟩
    obtain ⟨hcount, hp⟩ := Option.ite_none_right_eq_some.1 hp
    exact ⟨node, port, hcount, (Option.some.inj hp).symm⟩
  · rintro ⟨node, port, hcount, rfl⟩
    -- An input that several wires lead into is among those that are looked at.
    obtain ⟨w, hw, hends⟩ := List.countP_pos_iff.1 (Nat.zero_lt_of_lt hcount)
    simp only [Wire.endsAt, Bool.and_eq_true, decide_eq_true_eq] at hends
    obtain ⟨rfl, rfl⟩ := hends
    exact ⟨w.target, List.mem_map_of_mem hw, w.targetPort,
      List.mem_map_of_mem (List.mem_filter.2 ⟨hw, by simp⟩), if_pos hcount⟩

/-- No input is listed if no two wires lead into one. -/
theorem fanIn_eq_nil_iff (ws : List Wire) :
    fanIn ws = [] ↔ ∀ node port, ws.countP (·.endsAt node port .input) ≤ 1 := by
  rw [List.eq_nil_iff_forall_not_mem]
  constructor
  · intro h node port
    exact Nat.le_of_not_lt fun hcount => h _ ((mem_fanIn_iff ws _).2 ⟨node, port, hcount, rfl⟩)
  · intro h p hp
    obtain ⟨node, port, hcount, _⟩ := (mem_fanIn_iff ws p).1 hp
    exact Nat.not_lt.2 (h node port) hcount

/-- Nothing is wrong with wires that are all in order by themselves, feed no input twice, and lead
in no cycle. -/
theorem Surroundings.problems_eq_nil_iff (s : Surroundings) (ws : List (String × Wire)) :
    s.problems ws = [] ↔ (∀ e ∈ ws, s.wireProblems e.1 e.2 = []) ∧ fanIn (ws.map (·.2)) = [] ∧
      unsettledNodes s.ids (ws.map (·.2)) = [] := by
  have hcycle : ∀ ids : List String, (if ids.isEmpty then [] else [Problem.dataCycle ids]) = [] ↔
      ids = [] := by
    intro ids
    cases ids <;> simp
  simp only [problems, List.append_eq_nil_iff, List.flatMap_eq_nil_iff, hcycle, and_assoc]

namespace Snapshot

variable {s : Snapshot} {g : Graph}

/-- The declared type of a port of a node of a snapshot. -/
def declaredType? (s : Snapshot) (g : Graph) (node port : String) (side : Side) :
    Option PortType := do
  (← (← s.declaration? g node).port? port side).type

/-- The wire leads from one node of the snapshot to another, between declared ports whose types fit.
-/
def Faultless (s : Snapshot) (g : Graph) (w : Wire) : Prop :=
  w.source ≠ w.target ∧ (w.source ∈ s.nodes.map (·.id) ∧ w.target ∈ s.nodes.map (·.id)) ∧
    ∃ a b, s.declaredType? g w.source w.sourcePort .output = some a ∧
      s.declaredType? g w.target w.targetPort .input = some b ∧
        g.conversions.canConnect a b = true

/-- Nothing is wrong with a snapshot whose kinds are declared, whose wires are faultless, and whose
wires feed no input twice and lead in no cycle. -/
theorem problems_eq_nil_iff (s : Snapshot) (g : Graph) :
    s.problems g = [] ↔ (∀ n ∈ s.nodes, g.kinds.contains n.kind = true) ∧
      (∀ w ∈ s.wires, s.Faultless g w) ∧
        (∀ node port, s.wires.countP (·.endsAt node port .input) ≤ 1) ∧
          unsettledNodes (s.nodes.map (·.id)) s.wires = [] := by
  have hwires : (s.wires.zipIdx.map fun e => ("#" ++ toString e.2, e.1)).map (·.2) = s.wires := by
    rw [List.map_map]
    exact List.zipIdx_map_fst 0 s.wires
  rw [problems, List.append_eq_nil_iff, unknownKinds_eq_nil_iff, List.forall_mem_map,
    Surroundings.problems_eq_nil_iff, hwires, fanIn_eq_nil_iff]
  simp only [Surroundings.wireProblems_eq_nil_iff]
  refine and_congr_right fun _ => and_congr_left fun _ => ?_
  -- The labels by place do not matter.
  constructor
  · intro h w hw
    obtain ⟨i, hi, rfl⟩ := List.getElem_of_mem hw
    exact h ("#" ++ toString i, s.wires[i])
      (List.mem_map.2 ⟨(s.wires[i], i), List.mem_zipIdx_iff_getElem?.2 (by simp), rfl⟩)
  · intro h e he
    obtain ⟨x, hx, rfl⟩ := List.mem_map.1 he
    exact h x.1 (List.fst_mem_of_mem_zipIdx hx)

end Snapshot

end Patchbay
