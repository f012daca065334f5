import Patchbay.Graph

/-! # Dependents of a node

The nodes without control ports that get values from a node, directly or through other such nodes.
They are found by a search that visits each node once, along wires that carry values.
-/

namespace Patchbay.Graph

/-- The nodes that a node feeds values to, wire by wire. -/
def fed (g : Graph) (node : String) : List String :=
  (g.wiresWith fun w => w.source = node && !w.isFlow).map (·.2.target)

/-- Visits a node, unless it has a control port or was seen before. A search knows the nodes seen
and those to go on from. -/
def visit (g : Graph) (s : List String × List String) (node : String) :
    List String × List String :=
  if g.usesFlow node || s.1.contains node then s else (s.1 ++ [node], s.2 ++ [node])

/-- The ends of wires that are still unseen. -/
def unseen (g : Graph) (seen : List String) : Nat :=
  g.wires.entries.countP fun e => !seen.contains e.2.target

/-- A test that fails for one element more holds less often. -/
theorem countP_lt_countP {α : Type} {p q : α → Bool} {xs : List α} {a : α} (ha : a ∈ xs)
    (hq : q a = true) (hp : p a = false) (h : ∀ x, p x = true → q x = true) :
    xs.countP p < xs.countP q := by
  induction xs with
  | nil => cases ha
  | cons x xs ih =>
    have hle : xs.countP p ≤ xs.countP q := List.countP_mono_left fun y _ => h y
    rw [List.countP_cons, List.countP_cons]
    rcases List.mem_cons.1 ha with rfl | ha
    · rw [if_pos hq, if_neg (by rw [hp]; exact Bool.false_ne_true)]
      omega
    · have hlt := ih ha
      have hx : (if p x = true then 1 else 0) ≤ (if q x = true then 1 else 0) := by
        by_cases hpx : p x = true
        · exact Nat.le_of_eq (by rw [if_pos hpx, if_pos (h x hpx)])
        · rw [if_neg hpx]
          exact Nat.zero_le _
      omega

/-- A visit makes no more work: what it adds to go on from was unseen before. -/
theorem unseen_visit (g : Graph) (s : List String × List String) {node : String}
    (h : ∃ e ∈ g.wires.entries, e.2.target = node) :
    g.unseen (g.visit s node).1 + (g.visit s node).2.length ≤ g.unseen s.1 + s.2.length := by
  unfold visit
  split
  next => exact Nat.le_refl _
  next hs =>
    obtain ⟨e, he, rfl⟩ := h
    have hnew : e.2.target ∉ s.1 := fun hin => hs (by simp [hin])
    have hlt : g.unseen (s.1 ++ [e.2.target]) < g.unseen s.1 := by
      refine countP_lt_countP he (by simpa using hnew) (by simp) fun x hx => ?_
      simp only [List.contains_eq_mem, List.mem_append, Bool.not_eq_true', decide_eq_false_iff_not,
        not_or] at hx ⊢
      exact hx.1
    simp only [List.length_append, List.length_singleton]
    omega

theorem exists_of_mem_fed {g : Graph} {node target : String} (h : target ∈ g.fed node) :
    ∃ e ∈ g.wires.entries, e.2.target = target := by
  obtain ⟨e, he, rfl⟩ := List.mem_map.1 h
  exact ⟨e, (List.mem_filter.1 he).1, rfl⟩

theorem unseen_visitAll (g : Graph) (s : List String × List String) {nodes : List String}
    (h : ∀ n ∈ nodes, ∃ e ∈ g.wires.entries, e.2.target = n) :
    g.unseen (nodes.foldl g.visit s).1 + (nodes.foldl g.visit s).2.length ≤
      g.unseen s.1 + s.2.length := by
  induction nodes generalizing s with
  | nil => exact Nat.le_refl _
  | cons n ns ih =>
    exact Nat.le_trans (ih (g.visit s n) fun m hm => h m (List.mem_cons_of_mem _ hm))
      (g.unseen_visit s (h n List.mem_cons_self))

/-- Goes on from nodes until nothing new is seen. -/
def spread (g : Graph) (seen : List String) : List String → List String
  | [] => seen
  | node :: queue =>
    let s := (g.fed node).foldl g.visit (seen, queue)
    g.spread s.1 s.2
termination_by queue => g.unseen seen + queue.length
decreasing_by
  have := g.unseen_visitAll (seen, queue) fun n (hn : n ∈ g.fed node) => exists_of_mem_fed hn
  simp only [List.length_cons]
  simp only at this
  omega

/-- The nodes without control ports that get values from a node, directly or through others. -/
def dependents (g : Graph) (node : String) : List String := g.spread [] [node]

end Patchbay.Graph
