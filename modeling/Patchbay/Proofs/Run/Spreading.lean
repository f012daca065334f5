import Patchbay.Proofs.Run.Feeding

/-!
# What the search for dependents finds

`Graph.dependents` searches for the nodes whose outputs have to be dropped when a node publishes
others. It finds exactly the nodes without control ports that values reach, through such nodes only.

What is seen but not gone on from is in the queue. That is the invariant of the search, and at its
end the queue is empty.

## Key results

- `mem_dependents`: the dependents of a node
- `dependents_of_feeds` / `dependents_of_dependents`: what a node or a dependent feeds is a
  dependent
-/

namespace Patchbay.Graph

variable {g : Graph}

/-- Values pass from one node to another that has no control ports. -/
def Passes (g : Graph) (m n : String) : Prop := g.Feeds m n ∧ g.usesFlow n = false

theorem mem_fed {m n : String} : n ∈ g.fed m ↔ g.Feeds m n := by
  simp only [fed, wiresWith, List.mem_map, List.mem_filter, Prod.exists, Table.mem_entries_iff,
    Bool.and_eq_true, decide_eq_true_eq, Bool.not_eq_true', Feeds]
  constructor
  · rintro ⟨i, w, ⟨hw, hs, hflow⟩, ht⟩
    exact ⟨i, w, hw, hflow, hs, ht⟩
  · rintro ⟨i, w, hw, hflow, hs, ht⟩
    exact ⟨i, w, ⟨hw, hs, hflow⟩, ht⟩

/-- A visit adds the node to what is seen and to what is to go on from, unless it is seen or has
control ports. -/
theorem visit_cases (g : Graph) (s : List String × List String) (node : String) :
    (g.visit s node = s ∧ (g.usesFlow node = false → node ∈ s.1)) ∨
      (g.usesFlow node = false ∧ g.visit s node = (s.1 ++ [node], s.2 ++ [node])) := by
  unfold visit
  cases hflow : g.usesFlow node with
  | true => exact .inl ⟨rfl, fun h => by cases h⟩
  | false =>
    by_cases hseen : node ∈ s.1
    · exact .inl ⟨by simp [hseen], fun _ => hseen⟩
    · exact .inr ⟨rfl, by simp [hseen]⟩

/-- What visits to some nodes come to. -/
structure Visited (g : Graph) (nodes : List String) (s s' : List String × List String) : Prop where
  seen : ∀ x ∈ s.1, x ∈ s'.1
  queue : ∀ x ∈ s.2, x ∈ s'.2
  all : ∀ x ∈ nodes, g.usesFlow x = false → x ∈ s'.1
  /-- What is new is to go on from, and was visited. -/
  new : ∀ x ∈ s'.1, x ∈ s.1 ∨ x ∈ s'.2
  seenFrom : ∀ x ∈ s'.1, x ∈ s.1 ∨ x ∈ nodes ∧ g.usesFlow x = false
  queueFrom : ∀ x ∈ s'.2, x ∈ s.2 ∨ x ∈ nodes ∧ g.usesFlow x = false

theorem visited_visitAll (g : Graph) (nodes : List String) (s : List String × List String) :
    g.Visited nodes s (nodes.foldl g.visit s) := by
  induction nodes generalizing s with
  | nil => exact ⟨fun _ h => h, fun _ h => h, List.forall_mem_nil _, fun _ h => .inl h,
      fun _ h => .inl h, fun _ h => .inl h⟩
  | cons n ns ih =>
    have h := ih (g.visit s n)
    rw [List.foldl_cons]
    obtain ⟨hsame, hn⟩ | ⟨hn, hnew⟩ := g.visit_cases s n
    -- Nothing happens: the node has control ports or was seen before.
    · rw [hsame] at h ⊢
      refine ⟨h.seen, h.queue, ?_, h.new, ?_, ?_⟩
      · intro x hx hflow
        rcases List.mem_cons.1 hx with rfl | hx
        · exact h.seen x (hn hflow)
        · exact h.all x hx hflow
      · exact fun x hx => (h.seenFrom x hx).imp_right fun hx => ⟨List.mem_cons_of_mem _ hx.1, hx.2⟩
      · exact fun x hx => (h.queueFrom x hx).imp_right fun hx => ⟨List.mem_cons_of_mem _ hx.1, hx.2⟩
    -- The node is seen and put in the queue.
    · rw [hnew] at h ⊢
      have hadd : ∀ {xs : List String} {x : String}, x ∈ xs ++ [n] → x ∈ xs ∨ x = n := by
        intro xs x hx
        simpa using hx
      refine ⟨fun x hx => h.seen x (List.mem_append_left _ hx),
        fun x hx => h.queue x (List.mem_append_left _ hx), ?_, ?_, ?_, ?_⟩
      · intro x hx hflow
        rcases List.mem_cons.1 hx with rfl | hx
        · exact h.seen x (List.mem_append_right _ (List.mem_singleton_self _))
        · exact h.all x hx hflow
      · intro x hx
        rcases h.new x hx with hx | hx
        · rcases hadd hx with hx | rfl
          · exact .inl hx
          · exact .inr (h.queue x (List.mem_append_right _ (List.mem_singleton_self _)))
        · exact .inr hx
      · intro x hx
        rcases h.seenFrom x hx with hx | hx
        · rcases hadd hx with hx | rfl
          · exact .inl hx
          · exact .inr ⟨List.mem_cons_self, hn⟩
        · exact .inr ⟨List.mem_cons_of_mem _ hx.1, hx.2⟩
      · intro x hx
        rcases h.queueFrom x hx with hx | hx
        · rcases hadd hx with hx | rfl
          · exact .inl hx
          · exact .inr ⟨List.mem_cons_self, hn⟩
        · exact .inr ⟨List.mem_cons_of_mem _ hx.1, hx.2⟩

/-- From what is seen and not in the queue the search has gone on. -/
def Expanded (g : Graph) (start : String) (seen queue : List String) : Prop :=
  ∀ a, a = start ∨ a ∈ seen → a ∈ queue ∨ ∀ b, g.Passes a b → b ∈ seen

/-- At the end of the search nothing is left to be seen. -/
theorem expanded_spread {start : String} {seen queue : List String}
    (h : g.Expanded start seen queue) : g.Expanded start (g.spread seen queue) [] := by
  induction seen, queue using spread.induct g with
  | case1 seen =>
    rw [spread]
    exact h
  | case2 seen node queue s ih =>
    rw [spread]
    have hvisit := g.visited_visitAll (g.fed node) (seen, queue)
    refine ih fun a ha => ?_
    -- The search has just gone on from the first node of the queue.
    have hold : a = start ∨ a ∈ seen → a ∈ s.2 ∨ ∀ b, g.Passes a b → b ∈ s.1 := by
      intro ha
      rcases h a ha with hqueue | hall
      · rcases List.mem_cons.1 hqueue with rfl | hqueue
        · exact .inr fun b hb => hvisit.all b (mem_fed.2 hb.1) hb.2
        · exact .inl (hvisit.queue a hqueue)
      · exact .inr fun b hb => hvisit.seen b (hall b hb)
    rcases ha with ha | ha
    · exact hold (.inl ha)
    · rcases hvisit.new a ha with ha | ha
      · exact hold (.inr ha)
      · exact .inl ha

/-- Whatever is seen or in the queue was reached from the start. -/
theorem reached_spread {start : String} {seen queue : List String}
    (hseen : ∀ x ∈ seen, Relation.TransGen g.Passes start x)
    (hqueue : ∀ x ∈ queue, Relation.ReflTransGen g.Passes start x) :
    ∀ x ∈ g.spread seen queue, Relation.TransGen g.Passes start x := by
  induction seen, queue using spread.induct g with
  | case1 seen =>
    rw [spread]
    exact hseen
  | case2 seen node queue s ih =>
    rw [spread]
    have hvisit := g.visited_visitAll (g.fed node) (seen, queue)
    -- The node was reached, and so is what it feeds.
    have hnode := hqueue node List.mem_cons_self
    have hfed : ∀ x, x ∈ g.fed node ∧ g.usesFlow x = false → Relation.TransGen g.Passes start x :=
      fun x hx => Relation.TransGen.tail' hnode ⟨mem_fed.1 hx.1, hx.2⟩
    refine ih (fun x hx => ?_) fun x hx => ?_
    · exact (hvisit.seenFrom x hx).elim (hseen x) (hfed x)
    · exact (hvisit.queueFrom x hx).elim (fun hx => hqueue x (List.mem_cons_of_mem _ hx))
        fun hx => (hfed x hx).to_reflTransGen

/-- The dependents of a node are the nodes without control ports that values reach from it through
such nodes. -/
theorem mem_dependents {node x : String} :
    x ∈ g.dependents node ↔ Relation.TransGen g.Passes node x := by
  have hexpanded : g.Expanded node (g.dependents node) [] := by
    refine expanded_spread fun a ha => .inl ?_
    simpa using ha
  constructor
  · refine reached_spread (fun x hx => absurd hx List.not_mem_nil) (fun x hx => ?_) x
    rw [List.mem_singleton.1 hx]
  · intro h
    induction h with
    | single h => exact (hexpanded node (.inl rfl)).resolve_left List.not_mem_nil _ h
    | tail _ h ih => exact (hexpanded _ (.inr ih)).resolve_left List.not_mem_nil _ h

theorem dependents_of_feeds {node x : String} (h : g.Feeds node x) (hx : g.usesFlow x = false) :
    x ∈ g.dependents node :=
  mem_dependents.2 (.single ⟨h, hx⟩)

theorem dependents_of_dependents {node x y : String} (hx : x ∈ g.dependents node)
    (h : g.Feeds x y) (hy : g.usesFlow y = false) : y ∈ g.dependents node :=
  mem_dependents.2 ((mem_dependents.1 hx).tail ⟨h, hy⟩)

theorem usesFlow_of_passes {node x : String} (h : Relation.TransGen g.Passes node x) :
    g.usesFlow x = false := by
  obtain ⟨_, _, hx⟩ := Relation.TransGen.tail'_iff.1 h
  exact hx.2

theorem usesFlow_of_mem_dependents {node x : String} (h : x ∈ g.dependents node) :
    g.usesFlow x = false :=
  usesFlow_of_passes (mem_dependents.1 h)

end Patchbay.Graph
