import Patchbay.Proofs.Check.Behind
import Patchbay.Proofs.Check.Reports

/-!
# Peeling in any order

Peeling starts from the nodes without wires into them, and they may be enumerated in any order.
`Peeling.Reaches` goes through it edge by edge, so that something can be said of what happens on the
way: no degree is lowered that is zero already, and no node is taken from the queue twice.

In the end the nodes that were looked at are those from which the way back ends, whatever the order
was. This settles the degrees that are left, and with them what is reported.

## Key results

- `Peeling.Reaches.valid`: what holds after each edge and each node
- `Peeling.Reaches.degrees_eq`: all orders lead to the same degrees
- `Surroundings.cycles_reported`: what is reported of cycles, and how it is found
-/

namespace Patchbay

namespace Peeling

/-- Peeling, edge by edge: the nodes that were taken from the queue so far, the edges from the last
of them that are still to be settled, and how far it has come. -/
inductive Reaches (edges : List (String × String)) (first : Peeling) :
    List String → List (String × String) → Peeling → Prop where
  | start : Reaches edges first [] [] first
  | dequeue {looked queue : List String} {node : String} {s : Peeling} :
    Reaches edges first looked [] s → s.queue = node :: queue →
    Reaches edges first (looked ++ [node]) (edges.filter (·.1 = node)) { s with queue }
  | settle {looked : List String} {e : String × String} {rest : List (String × String)}
    {s : Peeling} :
    Reaches edges first looked (e :: rest) s → Reaches edges first looked rest (s.settle e.2)

variable {edges rest : List (String × String)} {ids looked looked' : List String}
  {first s t : Peeling}

theorem Reaches.settleAll (h : Reaches edges first looked rest s) :
    Reaches edges first looked [] (rest.foldl (fun s e => s.settle e.2) s) := by
  induction rest generalizing s with
  | nil => exact h
  | cons e rest ih => exact ih h.settle

/-- What `peel` gives is reached when no node is left in the queue. -/
theorem Reaches.exists_peel (h : Reaches edges first looked [] s) :
    ∃ looked t, Reaches edges first looked [] t ∧ t.queue = [] ∧ t.degrees = s.peel edges := by
  induction s using Peeling.peel.induct edges generalizing looked with
  | case1 s hqueue =>
    rw [Peeling.peel]
    split
    next => exact ⟨looked, s, h, hqueue, rfl⟩
    next hcons => simp [hqueue] at hcons
  | case2 s node queue hqueue ih =>
    rw [Peeling.peel]
    split
    next hnil => simp [hqueue] at hnil
    next node' queue' hcons =>
      obtain ⟨rfl, rfl⟩ := List.cons.inj (hqueue.symm.trans hcons)
      exact ih (h.dequeue hqueue).settleAll

/-- Peeling may begin so: all edges count, and the nodes without edges into them have been
enumerated in some order. -/
structure Begins (ids : List String) (edges : List (String × String)) (first : Peeling) :
    Prop where
  degrees : first.degrees = (start ids edges).degrees
  queue : first.queue.Perm (start ids edges).queue

/-- The queue may have another order. -/
theorem Valid.reorder {pending : List (String × String)} (h : s.Valid edges pending ids looked)
    {queue : List String} (hqueue : queue.Perm s.queue) :
    ({ s with queue } : Peeling).Valid edges pending ids looked where
  degree := h.degree
  closed := h.closed
  nodup := (hqueue.append_left looked).nodup_iff.2 h.nodup
  settled := fun id => (hqueue.append_left looked).mem_iff.trans (h.settled id)
  grounded := fun id hid => h.grounded id ((hqueue.append_left looked).mem_iff.1 hid)

theorem Begins.valid (h : Begins ids edges first) (hends : ∀ e ∈ edges, e.2 ∈ ids) :
    first.Valid edges edges ids [] := by
  have hreordered := (valid_start hends).reorder h.queue
  rwa [← h.degrees] at hreordered

/-- After each edge, the edges that are not settled are those still to be settled and those from
nodes that were not taken from the queue yet. -/
theorem Reaches.valid (h : Reaches edges first looked rest s)
    (hfirst : first.Valid edges edges ids []) (hends : ∀ e ∈ edges, e.2 ∈ ids) :
    s.Valid edges (rest ++ ahead edges looked) ids looked ∧
      ∀ e ∈ rest, e.1 ∈ looked ∧ e.2 ∈ ids := by
  induction h with
  | start =>
    rw [List.nil_append, ahead_nil]
    exact ⟨hfirst, List.forall_mem_nil _⟩
  | dequeue _ hqueue ih =>
    refine ⟨ih.1.dequeue hqueue, fun e he => ?_⟩
    obtain ⟨he, hsource⟩ := List.mem_filter.1 he
    exact ⟨List.mem_append_right _ (List.mem_singleton.2 (of_decide_eq_true hsource)), hends e he⟩
  | settle _ ih =>
    obtain ⟨hvalid, hrest⟩ := ih
    obtain ⟨⟨hsource, htarget⟩, hrest⟩ := List.forall_mem_cons.1 hrest
    exact ⟨hvalid.settle hsource htarget, hrest⟩

/-- An edge that is to be settled counts in the degree of its target. -/
theorem Reaches.degree_pos {e : String × String} (h : Reaches edges first looked (e :: rest) s)
    (hfirst : first.Valid edges edges ids []) (hends : ∀ e ∈ edges, e.2 ∈ ids) :
    ∃ d, s.degrees.find? e.2 = some (d + 1) := by
  obtain ⟨hvalid, hrest⟩ := h.valid hfirst hends
  refine ⟨(rest ++ ahead edges looked).countP fun x => x.2 = e.2, ?_⟩
  rw [hvalid.degree, if_pos (hrest e List.mem_cons_self).2, List.cons_append,
    List.countP_cons_of_pos (by simp)]

/-- In the end the nodes that were looked at are those from which the way back ends. -/
theorem Valid.mem_looked_iff (h : s.Valid edges (ahead edges looked) ids looked)
    (hqueue : s.queue = []) (hends : ∀ e ∈ edges, e.1 ∈ ids) (id : String) :
    id ∈ looked ↔ id ∈ ids ∧ Grounded edges id := by
  have hlooked : id ∈ looked ↔ s.degrees.find? id = some 0 := by
    rw [← h.settled, hqueue, List.append_nil]
  by_cases hid : id ∈ ids
  · rw [hlooked, h.degree_eq_zero_iff hqueue hends hid]
    simp [hid]
  · rw [hlooked, h.degree, if_neg hid]
    simp [hid]

/-- What is left in the end does not depend on the order in which nodes were looked at. -/
theorem Valid.degrees_eq (h : s.Valid edges (ahead edges looked) ids looked)
    (h' : t.Valid edges (ahead edges looked') ids looked') (hs : s.queue = []) (ht : t.queue = [])
    (hends : ∀ e ∈ edges, e.1 ∈ ids) : s.degrees = t.degrees := by
  have hahead : ahead edges looked = ahead edges looked' := by
    refine List.filter_congr fun e _ => ?_
    have hsame : e.1 ∈ looked ↔ e.1 ∈ looked' := by
      rw [h.mem_looked_iff hs hends, h'.mem_looked_iff ht hends]
    simp only [List.contains_eq_mem, hsame]
  refine Table.ext_find? fun id => ?_
  rw [h.degree, h'.degree, hahead]

/-- All orders lead to the same degrees. -/
theorem Reaches.degrees_eq {first' : Peeling} (h : Reaches edges first looked [] s)
    (h' : Reaches edges first' looked' [] t) (hs : s.queue = []) (ht : t.queue = [])
    (hfirst : first.Valid edges edges ids []) (hfirst' : first'.Valid edges edges ids [])
    (hends : ∀ e ∈ edges, e.1 ∈ ids ∧ e.2 ∈ ids) : s.degrees = t.degrees :=
  (h.valid hfirst fun e he => (hends e he).2).1.degrees_eq
    (h'.valid hfirst' fun e he => (hends e he).2).1 hs ht fun e he => (hends e he).1

end Peeling

/-! ### The report -/

namespace Surroundings

variable (s : Surroundings)

/-- What is reported of cycles, and how it is found.

A cycle is reported iff the value wires between different known nodes form one. Then there is one
report, and it lists the nodes that lie on such cycles and those behind them, in ascending order and
each once.

In whatever order the nodes are enumerated that have no wires into them: whenever a wire is settled,
the degree of its target is not zero yet; no node is taken from the queue twice; peeling comes to an
end, and wherever it has come to an end, the nodes with a degree are those of the report. Nor does
it matter how the known nodes are listed. -/
theorem cycles_reported (ws : List (String × Wire)) :
    ((∃ nodes, .dataCycle nodes ∈ s.problems ws) ↔
      ∃ n, Relation.TransGen (LeadsAmong s.ids (ws.map (·.2))) n n) ∧
    (∀ nodes, .dataCycle nodes ∈ s.problems ws →
      (s.problems ws).filter (·.part = .cycles) = [.dataCycle nodes] ∧
      nodes.Pairwise (fun a b => compare a b = .lt) ∧
      ∀ n, n ∈ nodes ↔ BehindCycle s.ids (ws.map (·.2)) n) ∧
    (∀ first, Peeling.Begins s.ids (valueEdges s.ids (ws.map (·.2))) first →
      (∀ looked rest t, Peeling.Reaches (valueEdges s.ids (ws.map (·.2))) first looked rest t →
        looked.Nodup ∧ ∀ e ∈ rest.head?, ∃ d, t.degrees.find? e.2 = some (d + 1)) ∧
      (∃ looked t, Peeling.Reaches (valueEdges s.ids (ws.map (·.2))) first looked [] t ∧
        t.queue = []) ∧
      ∀ looked t, Peeling.Reaches (valueEdges s.ids (ws.map (·.2))) first looked [] t →
        t.queue = [] → ∀ n, BehindCycle s.ids (ws.map (·.2)) n ↔
          ∃ d, 0 < d ∧ t.degrees.find? n = some d) ∧
    ∀ ids, (∀ id, id ∈ ids ↔ id ∈ s.ids) →
      unsettledNodes ids (ws.map (·.2)) = unsettledNodes s.ids (ws.map (·.2)) := by
  have hmem : ∀ nodes, .dataCycle nodes ∈ s.problems ws ↔
      nodes = unsettledNodes s.ids (ws.map (·.2)) ∧ nodes ≠ [] := by
    intro nodes
    have hfilter : .dataCycle nodes ∈ s.problems ws ↔
        .dataCycle nodes ∈ (s.problems ws).filter (·.part = .cycles) :=
      (List.mem_filter.trans (and_iff_left rfl)).symm
    rw [hfilter, s.filter_part_problems]
    cases hleft : unsettledNodes s.ids (ws.map (·.2)) <;>
      simp +contextual [cycleProblems, hleft]
  refine ⟨?_, fun nodes hnodes => ?_, fun first hbegins => ?_, fun ids =>
    unsettledNodes_congr⟩
  · simp only [hmem, exists_eq_left, ne_eq, unsettledNodes_eq_nil_iff, not_forall, not_not]
  · obtain ⟨rfl, hne⟩ := (hmem nodes).1 hnodes
    refine ⟨?_, unsettledNodes_ascending _ _, mem_unsettledNodes_iff_behindCycle⟩
    rw [s.filter_part_problems]
    exact if_neg (by simpa using hne)
  · generalize ws.map (·.2) = wires at hbegins ⊢
    have hends : ∀ e ∈ valueEdges s.ids wires, e.1 ∈ s.ids ∧ e.2 ∈ s.ids :=
      fun e => ends_of_mem_valueEdges
    have hfirst := hbegins.valid fun e he => (hends e he).2
    have hstart := Peeling.valid_start fun e he => (hends e he).2
    refine ⟨fun looked rest t h => ⟨?_, fun e he => ?_⟩, ?_, fun looked t h ht n => ?_⟩
    · exact (List.nodup_append.1 (h.valid hfirst fun e he => (hends e he).2).1.nodup).1
    · obtain ⟨rest, rfl⟩ := List.head?_eq_some_iff.1 he
      exact h.degree_pos hfirst fun e he => (hends e he).2
    · obtain ⟨looked, t, h, ht, _⟩ := Peeling.Reaches.start.exists_peel
      exact ⟨looked, t, h, ht⟩
    · obtain ⟨_, u, hu, hend, hpeel⟩ := Peeling.Reaches.start.exists_peel
      rw [← mem_unsettledNodes_iff_behindCycle, mem_unsettledNodes_iff_degree, ← hpeel,
        h.degrees_eq hu ht hend hfirst hstart hends]

end Surroundings

end Patchbay
