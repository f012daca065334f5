import Patchbay.Proofs.Patch.Obstructed
import Patchbay.Proofs.Session.Compatible

/-!
# What comes back of a snapshot without problems

A snapshot without problems is always restored, and its wires are made in their order. Hooks may
refuse some of them. Where no node of the snapshot has other hooks than those of reroutes, the wires
that are refused are those that are obstructed, and no others.

## Key results

- `plain_of_builtin`: built-in kinds are plain
- `restore_of_problems_eq_nil`: what a snapshot without problems is restored to
-/

namespace Patchbay

/-- No built-in kind has two ports of a side under one name. -/
theorem Builtin.distinct_of_mem {k : Kind} (hk : k ∈ Builtin.all) : k.declaration.Distinct := by
  have hall : ∀ d ∈ Builtin.all.map (·.declaration), d.Distinct := by decide +kernel
  exact hall _ (List.mem_map_of_mem hk)

namespace Session

open Patch

variable {s : Session}

/-- Where a kind is the built-in one, it is plain. -/
theorem plain_of_builtin (h : s.KindsFrom (· ∈ Builtin.all)) (kind : String) :
    s.patch.Plain kind := by
  intro d hd
  obtain ⟨k, hk, rfl, hb⟩ := h kind d hd
  refine ⟨Builtin.distinct_of_mem hk, ?_⟩
  rw [hb]
  rcases Builtin.tame_of_mem hk with hnone | rfl
  · exact .inl hnone
  · exact .inr ⟨rfl, rfl⟩

/-- Wherever a snapshot with distinct ids has no problems, it is restored; each of its wires is made
or dropped, and both kinds of wires keep their order. If the kinds of its nodes are plain, exactly
the obstructed wires are dropped, so that the snapshot is restored completely iff none of its wires
is obstructed. -/
theorem restore_of_problems_eq_nil (h : s.Reachable) {t : Snapshot}
    (hids : (t.nodes.map (·.id)).Nodup) (hproblems : t.problems s.patch.toGraph = []) :
    ∃ q fates, s.patch.restore t = .ok q ∧ fates.map (·.1) = t.wires ∧
      s.patch.Accounts fates q ∧
      ((∀ n ∈ t.nodes, s.patch.Plain n.kind) → fates = t.fates s.patch ∧
        ((q.wires.entries.map (·.2) = t.wires ∧ q.dropped = s.patch.dropped) ↔
          ∀ i w, t.wires[i]? = some w → t.obstructed s.patch i w = false)) := by
  have hsound := (wired_of_reachable h).sound
  by_cases hplain : ∀ n ∈ t.nodes, s.patch.Plain n.kind
  · obtain ⟨q, hq, haccounts⟩ := restore_of_plain hsound hids hproblems hplain
    have hcomplete := haccounts.complete_iff.trans (t.forall_fates_iff s.patch)
    rw [t.map_fates] at hcomplete
    exact ⟨q, _, hq, t.map_fates s.patch, haccounts, fun _ => ⟨rfl, hcomplete⟩⟩
  · obtain ⟨hkinds, _, hsingle, _⟩ := (t.problems_eq_nil_iff s.patch.toGraph).1 hproblems
    obtain ⟨q, fates, hq, hfates, haccounts⟩ := accounts_restore hsound hkinds hsingle
    exact ⟨q, fates, hq, hfates, haccounts, fun hall => absurd hall hplain⟩

/-- Only the built-in kinds are declared. -/
def bare : Session := (start true .base 1).performAll (Builtin.all.map .declare)

theorem reaches_bare :
    Reaches (fun s op => op.Fresh s.patch ∧ op.Declares (· ∈ Builtin.all)) bare := by
  refine Reaches.performAll (.start true .base 1) (AllowedAll.and (by decide +kernel) ?_)
  intro op hop
  obtain ⟨k, hk, rfl⟩ := List.mem_map.1 hop
  exact hk

/-- A node as it is before anything is done with it. -/
def fresh (kind id : String) : NodeState := ⟨id, kind, .origin, ∅, ∅, .null⟩

/-- A text and a number, each through two reroutes, reach the two inputs of a sum. -/
def forked : Snapshot where
  nodes := [fresh "text" "word", fresh "number" "n", fresh "reroute" "r", fresh "reroute" "q",
    fresh "reroute" "u", fresh "reroute" "v", fresh "add" "sum"]
  wires := [⟨"word", "value", "r", "in"⟩, ⟨"r", "out", "q", "in"⟩, ⟨"q", "out", "sum", "a"⟩,
    ⟨"n", "value", "u", "in"⟩, ⟨"u", "out", "v", "in"⟩, ⟨"v", "out", "sum", "b"⟩]

/-- The text cannot reach the sum, but no declaration says so: with all built-in kinds declared the
snapshot has no problems, and is not restored completely. -/
theorem incomplete_forked :
    bare.Reachable ∧ (forked.nodes.map (·.id)).Nodup ∧ forked.problems bare.patch.toGraph = [] ∧
      ¬ ∃ q, bare.patch.restore forked = .ok q ∧ q.dropped = bare.patch.dropped ∧
        q.wires.entries.map (·.2) = forked.wires := by
  have hreachable : bare.Reachable := reaches_bare.mono fun _ _ h => h.1
  have hids : (forked.nodes.map (·.id)).Nodup := by decide +kernel
  have hproblems : forked.problems bare.patch.toGraph = [] := by decide +kernel
  refine ⟨hreachable, hids, hproblems, ?_⟩
  rintro ⟨q, hq, hdropped, hwires⟩
  obtain ⟨q', hq', haccounts⟩ := restore_of_plain (wired_of_reachable hreachable).sound hids
    hproblems fun n _ => plain_of_builtin (kindsFrom_of_reaches reaches_bare) n.kind
  obtain rfl : q = q' := Except.ok.inj (hq.symm.trans hq')
  -- The third wire has no mark.
  have hmarked := haccounts.complete_iff.1 ⟨by rw [hwires, Snapshot.map_fates], hdropped⟩
  exact absurd hmarked (by decide +kernel)

/-- What is dropped is the wire that would bring the text to the sum, and nothing else. -/
theorem restore_forked :
    bare.Reachable ∧ (forked.nodes.map (·.id)).Nodup ∧ forked.problems bare.patch.toGraph = [] ∧
      ∃ q, bare.patch.restore forked = .ok q ∧ q.dropped = [⟨"q", "out", "sum", "a"⟩] ∧
        q.wires.entries.map (·.2) = forked.wires.erase ⟨"q", "out", "sum", "a"⟩ := by
  have hreachable : bare.Reachable := reaches_bare.mono fun _ _ h => h.1
  have hids : (forked.nodes.map (·.id)).Nodup := by decide +kernel
  have hproblems : forked.problems bare.patch.toGraph = [] := by decide +kernel
  obtain ⟨q, fates, hq, _, haccounts, hplain⟩ :=
    restore_of_problems_eq_nil hreachable hids hproblems
  obtain ⟨rfl, _⟩ := hplain fun n _ => plain_of_builtin (kindsFrom_of_reaches reaches_bare) n.kind
  have hnone : bare.patch.dropped = [] := by decide +kernel
  refine ⟨hreachable, hids, hproblems, q, hq, ?_, ?_⟩
  · rw [haccounts.dropped, hnone]
    decide +kernel
  · rw [haccounts.made]
    decide +kernel

end Session

end Patchbay
