import Patchbay.Proofs.Patch.Removing
import Patchbay.Proofs.Session.Kinds

/-!
# Nodes that are removed in a session

In a session a node that is known is always removed, and its wires with it, whichever of them its
hooks and those of other nodes try to keep. Where hooks keep to what an event is about, each that may
object is asked once for each wire, while all nodes are still there, and the rest of the patch stays.

## Key results

- `remove_of_reachable`: what the removal of a node comes to
-/

namespace Patchbay.Session

open Patch

variable {s : Session}

/-- In every session, whatever its hooks make of an event and of the node that is told of it: nothing
happens where the node is unknown, and otherwise the answer is that node, as its own hook has left
it, and `Patch.Removed` says what is left. Among that is how often each end of a wire is told of its
removal, for hooks that may cancel an event, or take that back, but do not turn it into another. No
ordinary port of the node may have the name of a control port, lest the wires of that port be looked
for twice. -/
theorem remove_of_reachable (h : s.Reachable) (id : String)
    (hplain : ∀ n ∈ s.patch.node? id, n.Plain) :
    ((s.patch.remove id).1 = none ↔ id ∉ s.patch.ids) ∧
      (id ∉ s.patch.ids → s.patch.remove id = (none, s.patch)) ∧
      ∀ n, s.patch.node? id = some n → ∃ m ns, (s.patch.remove id).1 = some m ∧ n.Grown m ∧
        ((∀ e g, .told id e g ∉ ns) → m = n) ∧ s.patch.Removed id ns (s.patch.remove id).2 := by
  have hsound := (wired_of_reachable h).sound
  have hknown : ∀ n, s.patch.node? id = some n → ∃ m ns, (s.patch.remove id).1 = some m ∧
      n.Grown m ∧ ((∀ e g, .told id e g ∉ ns) → m = n) ∧
        s.patch.Removed id ns (s.patch.remove id).2 :=
    fun n hn => removed_of_node? hsound hn (hplain n hn)
  rw [← Graph.node?_eq_none_iff]
  refine ⟨⟨fun hnone => ?_, fun hunknown => ?_⟩, remove_of_node?_eq_none, hknown⟩
  · cases hn : s.patch.node? id with
    | none => rfl
    | some n =>
      obtain ⟨m, _, hsome, _⟩ := hknown n hn
      cases hnone.symm.trans hsome
  · rw [remove_of_node?_eq_none hunknown]

/-- The only kind of that session cancels removals, and leaves events at that. -/
theorem keepsChanges_muddle :
    ((start true .base 10).performAll muddle).patch.KeepsChanges := by
  have hfresh : AllowedAll (fun s op => op.Fresh s.patch) (start true .base 10) muddle := by
    decide +kernel
  have hkinds : ∀ op ∈ muddle, op.Declares (· = stubborn) := by simp [muddle, Operation.Declares]
  have hreaches := Reaches.performAll (.start true .base 10) (hfresh.and hkinds)
  refine (kindsFrom_of_reaches hreaches).keepsChanges (wired_of_reachable reachable_muddle).sound ?_
  rintro k rfl hook hhook e n g
  obtain rfl := Option.some.inj hhook
  dsimp only
  split <;> rfl

/-- A node is removed though it lets no wire go: both nodes are told once that the wire is taken
away, both object, and it is gone with the node. -/
theorem remove_muddle :
    (((start true .base 10).performAll muddle).patch.node? "a").isSome = true ∧
      (((start true .base 10).performAll muddle).patch.disconnect "a" "out" .output).2.wires.find? 2
        = some ⟨"a", "out", "b", "in"⟩ ∧
      ∃ ns, ((start true .base 10).performAll muddle).patch.Removed "a" ns
          (((start true .base 10).performAll muddle).patch.remove "a").2 ∧
        ns.countP (·.tells "a" (.removed 2 ⟨"a", "out", "b", "in"⟩)) = 1 ∧
        ns.countP (·.tells "b" (.removed 2 ⟨"a", "out", "b", "in"⟩)) = 1 := by
  have hsome : (((start true .base 10).performAll muddle).patch.node? "a").isSome = true := by
    decide +kernel
  obtain ⟨n, hn⟩ := Option.isSome_iff_exists.1 hsome
  obtain ⟨m, ns, _, _, _, hremoved⟩ :=
    (remove_of_reachable reachable_muddle "a" (by decide +kernel)).2.2 n hn
  refine ⟨hsome, by decide +kernel, ns, hremoved, ?_, ?_⟩
  · rw [hremoved.count keepsChanges_muddle, if_pos (by decide +kernel)]
  · rw [hremoved.count keepsChanges_muddle, if_pos (by decide +kernel)]

end Patchbay.Session
