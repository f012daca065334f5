import Patchbay.Check.Problem
import Patchbay.Proofs.Check.Peeling
import Patchbay.Proofs.Run.Feeding

/-!
# Cycles of value wires

A node is circular if it lies on a cycle of value wires, or gets values from such a cycle. Wherever
one comes from going back along value wires from a circular node, there is a next circular node.

A run can only come back to a node that it evaluates if the nodes of the cycle have no control
ports: all others are not pulled.

## Key results

- `Circular.exists_feeds`: a circular node gets values from a circular node
- `Sound.reported_of_circular`: circular nodes are reported
-/

namespace Patchbay.Graph

variable {g : Graph}

/-- The node lies on a cycle of value wires, or gets values from one. -/
def Circular (g : Graph) (n : String) : Prop := ∃ c, g.Above c c ∧ g.Upstream c n

/-- Values pass over a wire from one node to another, neither of which has a control port. -/
def FreeFeeds (g : Graph) (m n : String) : Prop :=
  g.Feeds m n ∧ g.usesFlow m = false ∧ g.usesFlow n = false

/-- The node lies on a cycle of value wires whose nodes have no control ports. -/
def OnFreeCycle (g : Graph) (n : String) : Prop := Relation.TransGen g.FreeFeeds n n

theorem OnFreeCycle.circular {n : String} (h : g.OnFreeCycle n) : g.Circular n := by
  have hfeeds : g.FreeFeeds ≤ g.Feeds := fun _ _ hfree => hfree.1
  exact ⟨n, Relation.TransGen.mono hfeeds n n h, .refl⟩

theorem usesFlow_of_transGen {m n : String} (h : Relation.TransGen g.FreeFeeds m n) :
    g.usesFlow m = false := by
  obtain ⟨_, hfeeds, _⟩ := Relation.TransGen.head'_iff.1 h
  exact hfeeds.2.1

/-- What a circular node gets values from, going on along a cycle, is circular too. -/
theorem Circular.exists_feeds {n : String} (h : g.Circular n) :
    ∃ m, g.Circular m ∧ g.Feeds m n := by
  obtain ⟨c, hcycle, hup⟩ := h
  -- The node itself may be where the cycle was entered.
  rcases hup.cases_tail with rfl | ⟨m, hup, hfeeds⟩
  · obtain ⟨m, hup, hfeeds⟩ := Relation.TransGen.tail'_iff.1 hcycle
    exact ⟨m, ⟨_, hcycle, hup⟩, hfeeds⟩
  · exact ⟨m, ⟨c, hcycle, hup⟩, hfeeds⟩

/-- The edges that are looked at are those over which values pass. -/
theorem Sound.mem_valueEdges_iff (hg : g.Sound) (m n : String) :
    (m, n) ∈ valueEdges g.ids (g.wires.entries.map (·.2)) ↔ g.Feeds m n := by
  simp only [valueEdges, List.mem_map, List.mem_filter, Bool.and_eq_true, Bool.not_eq_true',
    decide_eq_true_eq, List.contains_eq_mem, Prod.mk.injEq]
  constructor
  · rintro ⟨w, ⟨⟨e, he, rfl⟩, hflow⟩, hsource, htarget⟩
    exact ⟨e.1, e.2, Table.mem_entries_iff.1 he, hflow.1.1.1, hsource, htarget⟩
  · rintro ⟨i, w, hw, hflow, hsource, htarget⟩
    obtain ⟨s, hs⟩ := node?_of_isSome_port? (hg.source i w hw)
    obtain ⟨t, ht⟩ := node?_of_isSome_port? (hg.target i w hw)
    refine ⟨w, ⟨⟨(i, w), Table.mem_entries_iff.2 hw, rfl⟩, ⟨⟨hflow, hg.loopless i w hw⟩, ?_⟩, ?_⟩,
      hsource, htarget⟩
    · rw [mem_ids_iff, hs]
      rfl
    · rw [mem_ids_iff, ht]
      rfl

/-- From a circular node the way back goes on for ever. -/
theorem Circular.not_grounded {edges : List (String × String)}
    (hedges : ∀ m n, g.Feeds m n → (m, n) ∈ edges) {n : String} (h : g.Circular n) :
    ¬ Grounded edges n := by
  intro hground
  induction hground with
  | intro n _ ih =>
    obtain ⟨m, hm, hfeeds⟩ := h.exists_feeds
    exact ih m (hedges m n hfeeds) hm

/-- Circular nodes are left over by peeling, and reported. -/
theorem Sound.reported_of_circular (hg : g.Sound) {n : String} (h : g.Circular n) :
    ∃ nodes, .dataCycle nodes ∈ g.problems ∧ n ∈ nodes := by
  obtain ⟨m, _, i, w, hw, _, _, rfl⟩ := h.exists_feeds
  obtain ⟨node, hn⟩ := node?_of_isSome_port? (hg.target i w hw)
  have hmem : w.target ∈ unsettledNodes g.ids (g.wires.entries.map (·.2)) := by
    refine (mem_unsettledNodes_iff _ _ _).2 ⟨(mem_ids_iff g _).2 (by rw [hn]; rfl), ?_⟩
    exact h.not_grounded fun m n hfeeds => (hg.mem_valueEdges_iff m n).2 hfeeds
  refine ⟨_, ?_, hmem⟩
  have hsome := List.isEmpty_eq_false_iff_exists_mem.2 ⟨_, hmem⟩
  simp [problems, Surroundings.problems, Function.comp_def, hsome]

end Patchbay.Graph
