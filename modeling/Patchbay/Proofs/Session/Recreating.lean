import Patchbay.Builtin.Operator
import Patchbay.Builtin.Source
import Patchbay.Proofs.Patch.Recreating
import Patchbay.Proofs.Session.Sound

/-!
# What sessions restore from any snapshot

A snapshot is restored completely or not at all, as far as kinds go: if the kind of a node is not
declared, the session stays as it is. Otherwise the snapshot may still have several nodes under one
id and wires that cannot be made; without hooks it is settled what becomes of them.

## Key results

- `restored_of_reachable`: when a snapshot is restored in a session, and to what
-/

namespace Patchbay

namespace Session

open Patch

variable {s : Session}

/-- In every session, restoring a snapshot fails iff the kind of one of its nodes is not declared.
The first such kind is reported then, and the session stays as it is.

Otherwise, if no declared kind has hooks, the nodes are those of the snapshot, each as its last
entry says and where its first entry stands, and the wires are those that can be made between them
and are not followed by another one that can be made and leads into the same input. -/
theorem restored_of_reachable (h : s.Reachable) (t : Snapshot) :
    ((∃ e, s.patch.restore t = .error e) ↔
      ∃ n ∈ t.nodes, s.patch.kinds.contains n.kind = false) ∧
    (∀ e, s.patch.restore t = .error e →
      (∃ n, s.patch.firstUndeclared? t = some n ∧ e = .kindNotFound n.kind) ∧
        s.perform (.restore t) = s) ∧
    ((∀ n ∈ t.nodes, s.patch.kinds.contains n.kind = true) →
      (∀ k, s.patch.kinds.contains k = true →
        (s.patch.behaviour k).onCreate = none ∧ (s.patch.behaviour k).onUpdate = none) →
      ∃ q, s.patch.restore t = .ok q ∧ s.patch.Recreated t q ∧
        ∀ w, q.admits w = true ↔ q.Connectable w) := by
  have hsound := (wired_of_reachable h).sound
  refine ⟨⟨?_, ?_⟩, fun e he => ⟨(s.patch.restore_eq_error_iff t e).1 he, ?_⟩, fun hkinds hnone => ?_⟩
  · rintro ⟨e, he⟩
    obtain ⟨n, hn, _⟩ := (s.patch.restore_eq_error_iff t e).1 he
    exact ⟨n, List.mem_of_find?_eq_some hn, by simpa using List.find?_some hn⟩
  · rintro ⟨n, hn, hkind⟩
    -- The first such node need not be this one.
    obtain ⟨m, hm⟩ : ∃ m, s.patch.firstUndeclared? t = some m := by
      refine Option.isSome_iff_exists.1 (List.find?_isSome.2 ⟨n, hn, ?_⟩)
      simpa using hkind
    exact ⟨_, (s.patch.restore_eq_error_iff t _).2 ⟨m, hm, rfl⟩⟩
  · rw [perform, he]
    rfl
  · obtain ⟨q, hq, hrecreated⟩ := recreated_restore hsound hkinds hnone
    exact ⟨q, hq, hrecreated, q.admits_iff_connectable⟩

/-- Numbers and sums are declared, and nothing else. -/
def counting : Session :=
  (start true .base 1).performAll [.declare Builtin.number, .declare Builtin.add]

theorem reachable_counting : counting.Reachable :=
  Reaches.performAll (.start true .base 1) ⟨trivial, trivial, trivial⟩

/-- No kind that is declared there has hooks. -/
theorem hookless_counting (k : String) (hk : counting.patch.kinds.contains k = true) :
    (counting.patch.behaviour k).onCreate = none ∧
      (counting.patch.behaviour k).onUpdate = none := by
  have hkeys : counting.patch.kinds.keys = ["add", "number"] := rfl
  have hmem := Table.mem_keys_iff.2 hk
  rw [hkeys] at hmem
  rcases List.mem_cons.1 hmem with rfl | hmem
  · exact ⟨rfl, rfl⟩
  · obtain rfl := List.mem_singleton.1 hmem
    exact ⟨rfl, rfl⟩

/-- The number `a` is listed twice, and there are six wires: two that feed one input, one into
another input, one that leads back to its node, one from a node that is not there, and one into a
port that takes none. -/
def tangled : Snapshot where
  nodes := [⟨"a", "number", .origin, ∅, ∅, .string "first"⟩, ⟨"sum", "add", .origin, ∅, ∅, .null⟩,
    ⟨"b", "number", .origin, ∅, ∅, .null⟩, ⟨"a", "number", .origin, ∅, ∅, .string "last"⟩]
  wires := [⟨"a", "value", "sum", "a"⟩, ⟨"a", "value", "sum", "b"⟩, ⟨"sum", "result", "sum", "b"⟩,
    ⟨"b", "value", "sum", "a"⟩, ⟨"c", "value", "sum", "b"⟩, ⟨"sum", "result", "a", "value"⟩]

/-- The last entry of `a` counts, in the place of the first one, and of the wires two stay. -/
theorem restored_tangled :
    counting.Reachable ∧ (∀ n ∈ tangled.nodes, counting.patch.kinds.contains n.kind = true) ∧
      ∃ q, counting.patch.restore tangled = .ok q ∧ q.ids = ["a", "sum", "b"] ∧
        (∃ m, q.node? "a" = some m ∧ m.data = .string "last") ∧
        q.wires.entries.map (·.2) = [⟨"a", "value", "sum", "b"⟩, ⟨"b", "value", "sum", "a"⟩] := by
  have hkinds : ∀ n ∈ tangled.nodes, counting.patch.kinds.contains n.kind = true :=
    List.all_eq_true.1 rfl
  obtain ⟨_, _, hrestored⟩ := restored_of_reachable reachable_counting tangled
  obtain ⟨q, hq, hrecreated, _⟩ := hrestored hkinds hookless_counting
  refine ⟨reachable_counting, hkinds, q, hq, ?_, ?_, ?_⟩
  · rw [hrecreated.ids]
    rfl
  · obtain ⟨d, m, _, _, hm, hlast⟩ := hrecreated.node (tangled.nodes.take 3)
      ⟨"a", "number", .origin, ∅, ∅, .string "last"⟩ [] rfl (List.forall_mem_nil _)
    exact ⟨m, hm, hlast.data⟩
  · rw [hrecreated.wires]
    -- What can be made depends on the nodes that are restored.
    have hall : (counting.patch.restore tangled).toOption.map
        (fun q => surviving q.admits tangled.wires) =
          some [⟨"a", "value", "sum", "b"⟩, ⟨"b", "value", "sum", "a"⟩] := rfl
    rw [hq] at hall
    exact Option.some.inj hall

end Session

end Patchbay
