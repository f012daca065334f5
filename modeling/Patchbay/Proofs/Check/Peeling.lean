import Mathlib.Order.WellFounded
import Patchbay.Check.Cycle
import Patchbay.Proofs.Table

/-!
# What peeling leaves over

Peeling settles a node when all wires into it are settled. Throughout, the degree of a node is the
number of edges into it that are not settled yet (`Peeling.Valid`), and a node is settled only where
the way back along the edges comes to an end. When no settled node is left to look at, the edges
that are not settled are those from nodes that are not settled, so nothing else is left over.

## Key results

- `Peeling.Valid.settle` / `Peeling.Valid.peel`: what one edge keeps, and what the search keeps
- `mem_unsettledNodes_iff`: the nodes that are left over are those from which the way back along the
  edges goes on for ever
-/

namespace Patchbay

/-- The way back along the edges from a node comes to an end, whichever way is taken. -/
def Grounded (edges : List (String × String)) (node : String) : Prop :=
  Acc (fun a b => (a, b) ∈ edges) node

namespace Peeling

/-- Of the settled nodes some have been looked at; the pending edges are not settled. -/
structure Valid (edges pending : List (String × String)) (ids looked : List String)
    (s : Peeling) : Prop where
  /-- The degree of a node is the number of pending edges into it. -/
  degree : ∀ id, s.degrees.find? id =
    if id ∈ ids then some (pending.countP fun e => e.2 = id) else none
  closed : ∀ e ∈ edges, e ∈ pending ∨ e.1 ∈ looked
  /-- No node is settled twice. -/
  nodup : (looked ++ s.queue).Nodup
  settled : ∀ id, id ∈ looked ++ s.queue ↔ s.degrees.find? id = some 0
  grounded : ∀ id ∈ looked ++ s.queue, Grounded edges id

variable {edges pending : List (String × String)} {ids looked : List String} {s : Peeling}

/-! ### The beginning -/

/-- Every edge into a node adds one to its degree. -/
theorem find?_addEdges (es : List (String × String)) (t : Table String Nat) (id : String) (d : Nat)
    (h : t.find? id = some d) :
    (es.foldl (fun t e => addEdge t e.2) t).find? id =
      some (d + es.countP fun e => e.2 = id) := by
  induction es generalizing t d with
  | nil => simpa using h
  | cons e es ih =>
    rw [List.foldl_cons]
    by_cases he : e.2 = id
    · rw [ih _ (d + 1) (by rw [addEdge, he, Table.find?_insert, if_pos rfl, h]; rfl),
        List.countP_cons_of_pos (by simpa using he)]
      congr 1
      omega
    · rw [ih _ d (by rw [addEdge, Table.find?_insert, if_neg (Ne.symm he), h]),
        List.countP_cons_of_neg (by simpa using he)]

theorem find?_addEdges_none (es : List (String × String)) (t : Table String Nat) (id : String)
    (h : t.find? id = none) (hes : ∀ e ∈ es, e.2 ≠ id) :
    (es.foldl (fun t e => addEdge t e.2) t).find? id = none := by
  induction es generalizing t with
  | nil => exact h
  | cons e es ih =>
    obtain ⟨he, hes⟩ := List.forall_mem_cons.1 hes
    rw [List.foldl_cons]
    exact ih _ (by rw [addEdge, Table.find?_insert, if_neg (Ne.symm he), h]) hes

/-- In the beginning all edges are pending. -/
theorem valid_start (hends : ∀ e ∈ edges, e.2 ∈ ids) :
    (start ids edges).Valid edges edges ids [] := by
  have hdegree : ∀ id, (start ids edges).degrees.find? id =
      if id ∈ ids then some (edges.countP fun e => e.2 = id) else none := by
    intro id
    have hzero := Table.find?_ofList_const ids 0 id
    simp only [start]
    by_cases hid : id ∈ ids
    · rw [find?_addEdges edges _ id 0 (by rw [hzero, if_pos hid]), if_pos hid, Nat.zero_add]
    · rw [find?_addEdges_none edges _ id (by rw [hzero, if_neg hid])
        fun e he heq => hid (heq ▸ hends e he), if_neg hid]
  have hqueue : ∀ id, id ∈ (start ids edges).queue ↔
      (start ids edges).degrees.find? id = some 0 := by
    intro id
    rw [← Table.mem_entries_iff]
    simp only [start, List.mem_map, List.mem_filter, decide_eq_true_eq]
    constructor
    · rintro ⟨⟨id, d⟩, ⟨he, hd⟩, rfl⟩
      obtain rfl : d = 0 := hd
      exact he
    · exact fun he => ⟨_, ⟨he, rfl⟩, rfl⟩
  refine ⟨hdegree, fun e he => .inl he, ?_, by simpa using hqueue, ?_⟩
  · rw [List.nil_append]
    refine List.Pairwise.map _ (fun a b hab => ?_)
      (List.Pairwise.filter _ (start ids edges).degrees.ascending)
    intro heq
    simp [heq] at hab
  · intro id hid
    rw [List.nil_append, hqueue, hdegree] at hid
    split at hid
    -- There are no edges back from the node.
    · refine Acc.intro _ fun a ha => ?_
      have hcount := List.countP_eq_zero.1 (Option.some.inj hid) _ ha
      simp at hcount
    · cases hid

/-! ### Settling edges -/

/-- One edge from a node that is looked at is settled. -/
theorem Valid.settle {e : String × String} (h : s.Valid edges (e :: pending) ids looked)
    (hsource : e.1 ∈ looked) (htarget : e.2 ∈ ids) :
    (s.settle e.2).Valid edges pending ids looked := by
  have hdegree : s.degrees.find? e.2 = some ((pending.countP fun x => x.2 = e.2) + 1) := by
    rw [h.degree, if_pos htarget, List.countP_cons_of_pos (by simp)]
  have hother : ∀ id, id ≠ e.2 → s.degrees.find? id =
      if id ∈ ids then some (pending.countP fun x => x.2 = id) else none := by
    intro id hid
    rw [h.degree, List.countP_cons_of_neg (by simpa using Ne.symm hid)]
  have hclosed : ∀ x ∈ edges, x ∈ pending ∨ x.1 ∈ looked := by
    intro x hx
    rcases h.closed x hx with hx | hx
    · rcases List.mem_cons.1 hx with rfl | hx
      · exact .inr hsource
      · exact .inl hx
    · exact .inr hx
  have hunsettled : e.2 ∉ looked ++ s.queue := fun hmem => by
    rw [h.settled, hdegree] at hmem
    simp at hmem
  cases hcount : pending.countP fun x => x.2 = e.2 with
  | zero =>
    rw [hcount] at hdegree
    have hsettle : s.settle e.2 =
        { degrees := s.degrees.insert e.2 0, queue := s.queue ++ [e.2] } := by
      simp only [Peeling.settle, hdegree]
    have hmem : ∀ id, id ∈ looked ++ (s.queue ++ [e.2]) ↔ id ∈ looked ++ s.queue ∨ id = e.2 := by
      intro id
      simp [or_assoc]
    rw [hsettle]
    refine ⟨fun id => ?_, hclosed, ?_, fun id => ?_, fun id hid => ?_⟩
    · rw [Table.find?_insert]
      by_cases hid : id = e.2
      · rw [if_pos hid, hid, if_pos htarget, hcount]
      · rw [if_neg hid, hother id hid]
    · rw [← List.append_assoc]
      exact List.nodup_append.2 ⟨h.nodup, List.pairwise_singleton _ _,
        fun a ha b hb hab => hunsettled (List.mem_singleton.1 hb ▸ hab ▸ ha)⟩
    · rw [hmem, Table.find?_insert]
      by_cases hid : id = e.2
      · simp [hid]
      · simp [hid, h.settled]
    · rcases (hmem id).1 hid with hid | rfl
      · exact h.grounded id hid
      -- All edges into the node come from nodes that were looked at.
      · refine Acc.intro _ fun a ha => h.grounded a (List.mem_append_left _ ?_)
        refine (hclosed _ ha).resolve_left fun hpending => ?_
        simpa using List.countP_eq_zero.1 hcount _ hpending
  | succ d =>
    rw [hcount] at hdegree
    have hsettle : s.settle e.2 = { s with degrees := s.degrees.insert e.2 (d + 1) } := by
      simp only [Peeling.settle, hdegree]
    rw [hsettle]
    refine ⟨fun id => ?_, hclosed, h.nodup, fun id => ?_, h.grounded⟩
    · rw [Table.find?_insert]
      by_cases hid : id = e.2
      · rw [if_pos hid, hid, if_pos htarget, hcount]
      · rw [if_neg hid, hother id hid]
    · rw [Table.find?_insert]
      by_cases hid : id = e.2
      · subst hid
        simp only [if_true, hunsettled, false_iff]
        simp
      · rw [if_neg hid]
        exact h.settled id

theorem Valid.settleAll {es : List (String × String)} (h : s.Valid edges (es ++ pending) ids looked)
    (hes : ∀ e ∈ es, e.1 ∈ looked ∧ e.2 ∈ ids) :
    (es.foldl (fun s e => s.settle e.2) s).Valid edges pending ids looked := by
  induction es generalizing s with
  | nil => exact h
  | cons e es ih =>
    obtain ⟨⟨hsource, htarget⟩, hes⟩ := List.forall_mem_cons.1 hes
    exact ih (h.settle hsource htarget) hes

/-! ### Looking at nodes -/

/-- The edges from nodes that were not looked at. -/
def ahead (edges : List (String × String)) (looked : List String) : List (String × String) :=
  edges.filter fun e => !looked.contains e.1

theorem ahead_nil (edges : List (String × String)) : ahead edges [] = edges :=
  List.filter_eq_self.2 fun _ _ => rfl

/-- Looking at one more node takes the edges from it. -/
theorem ahead_perm (edges : List (String × String)) {looked : List String} {node : String}
    (hnode : node ∉ looked) :
    (edges.filter (·.1 = node) ++ ahead edges (looked ++ [node])).Perm (ahead edges looked) := by
  have hfrom : (ahead edges looked).filter (·.1 = node) = edges.filter (·.1 = node) := by
    rw [ahead, List.filter_filter]
    refine List.filter_congr fun e _ => ?_
    by_cases he : e.1 = node
    · simp [he, hnode]
    · simp [he]
  have hrest : (ahead edges looked).filter (fun e => !decide (e.1 = node)) =
      ahead edges (looked ++ [node]) := by
    rw [ahead, ahead, List.filter_filter]
    refine List.filter_congr fun e _ => ?_
    by_cases he : e.1 = node <;> simp [he]
  rw [← hfrom, ← hrest]
  exact List.filter_append_perm _ _

/-- A settled node is taken from the queue; the edges from it come next. -/
theorem Valid.dequeue {node : String} {queue : List String}
    (h : s.Valid edges (ahead edges looked) ids looked) (hqueue : s.queue = node :: queue) :
    ({ s with queue } : Peeling).Valid edges
      (edges.filter (·.1 = node) ++ ahead edges (looked ++ [node])) ids (looked ++ [node]) := by
  have hnode : node ∉ looked := by
    intro hmem
    have hnodup := h.nodup
    rw [hqueue] at hnodup
    exact (List.nodup_append.1 hnodup).2.2 node hmem node List.mem_cons_self rfl
  have hperm := ahead_perm edges hnode
  have hsame : looked ++ [node] ++ queue = looked ++ s.queue := by simp [hqueue]
  refine ⟨fun id => ?_, fun e he => ?_, ?_, fun id => ?_, ?_⟩
  · rw [hperm.countP_eq]
    exact h.degree id
  · rw [hperm.mem_iff, List.mem_append]
    exact (h.closed e he).imp_right .inl
  · rw [hsame]
    exact h.nodup
  · rw [hsame]
    exact h.settled id
  · rw [hsame]
    exact h.grounded

/-- A settled node is looked at. -/
theorem Valid.look {node : String} {queue : List String}
    (h : s.Valid edges (ahead edges looked) ids looked) (hqueue : s.queue = node :: queue)
    (hends : ∀ e ∈ edges, e.2 ∈ ids) :
    (settleFrom edges node { s with queue }).Valid edges (ahead edges (looked ++ [node])) ids
      (looked ++ [node]) := by
  refine (h.dequeue hqueue).settleAll fun e he => ?_
  obtain ⟨he, hsource⟩ := List.mem_filter.1 he
  exact ⟨List.mem_append_right _ (List.mem_singleton.2 (of_decide_eq_true hsource)), hends e he⟩

/-- When no settled node is left to look at, all settled nodes have been looked at. -/
theorem Valid.peel (h : s.Valid edges (ahead edges looked) ids looked)
    (hends : ∀ e ∈ edges, e.2 ∈ ids) :
    ∃ looked', ({ degrees := s.peel edges, queue := [] } : Peeling).Valid edges
      (ahead edges looked') ids looked' := by
  induction s using Peeling.peel.induct edges generalizing looked with
  | case1 s hqueue =>
    rw [Peeling.peel]
    split
    next => exact ⟨looked, hqueue ▸ h⟩
    next hcons => simp [hqueue] at hcons
  | case2 s node queue hqueue ih =>
    rw [Peeling.peel]
    split
    next hnil => simp [hqueue] at hnil
    next node' queue' hcons =>
      obtain ⟨rfl, rfl⟩ := List.cons.inj (hqueue.symm.trans hcons)
      exact ih (h.look hqueue hends)

/-- In the end the settled nodes are those from which the way back comes to an end. -/
theorem Valid.degree_eq_zero_iff (h : s.Valid edges (ahead edges looked) ids looked)
    (hqueue : s.queue = []) (hends : ∀ e ∈ edges, e.1 ∈ ids) {id : String} (hid : id ∈ ids) :
    s.degrees.find? id = some 0 ↔ Grounded edges id := by
  have hlooked : ∀ x, x ∈ looked ↔ s.degrees.find? x = some 0 := by
    intro x
    rw [← h.settled, hqueue, List.append_nil]
  constructor
  · intro hzero
    exact h.grounded id ((h.settled id).2 hzero)
  · intro hground
    induction hground with
    | intro n _ ih =>
      rw [h.degree, if_pos hid]
      congr 1
      refine List.countP_eq_zero.2 fun e he hn => ?_
      obtain ⟨he, hnew⟩ := List.mem_filter.1 he
      obtain rfl : e.2 = n := of_decide_eq_true hn
      -- The source is settled, so it has been looked at.
      have hsource := (hlooked e.1).2 (ih e.1 he (hends e he))
      simp [hsource] at hnew

end Peeling

/-- The edges that are looked at lead from known nodes to known nodes. -/
theorem ends_of_mem_valueEdges {ids : List String} {ws : List Wire} {e : String × String}
    (he : e ∈ valueEdges ids ws) : e.1 ∈ ids ∧ e.2 ∈ ids := by
  obtain ⟨w, hw, rfl⟩ := List.mem_map.1 he
  have hw := (List.mem_filter.1 hw).2
  simp only [Bool.and_eq_true, List.contains_eq_mem, decide_eq_true_eq] at hw
  exact ⟨hw.1.2, hw.2⟩

/-- The nodes that are left over are those with a degree in the end. -/
theorem mem_unsettledNodes_iff_degree (ids : List String) (ws : List Wire) (id : String) :
    id ∈ unsettledNodes ids ws ↔ ∃ d, 0 < d ∧
      ((Peeling.start ids (valueEdges ids ws)).peel (valueEdges ids ws)).find? id = some d := by
  simp only [unsettledNodes, List.mem_filterMap, ← Table.mem_entries_iff]
  constructor
  · rintro ⟨e, he, hpos⟩
    split at hpos
    next hd =>
      obtain rfl := Option.some.inj hpos
      exact ⟨e.2, hd, he⟩
    next => cases hpos
  · rintro ⟨d, hd, he⟩
    exact ⟨_, he, if_pos hd⟩

/-- The nodes that are left over are those from which the way back goes on for ever. -/
theorem mem_unsettledNodes_iff (ids : List String) (ws : List Wire) (id : String) :
    id ∈ unsettledNodes ids ws ↔ id ∈ ids ∧ ¬ Grounded (valueEdges ids ws) id := by
  have hstart : (Peeling.start ids (valueEdges ids ws)).Valid (valueEdges ids ws)
      (Peeling.ahead (valueEdges ids ws) []) ids [] := by
    rw [Peeling.ahead_nil]
    exact Peeling.valid_start fun e he => (ends_of_mem_valueEdges he).2
  obtain ⟨looked, hend⟩ := hstart.peel fun e he => (ends_of_mem_valueEdges he).2
  rw [mem_unsettledNodes_iff_degree]
  constructor
  · rintro ⟨d, hd, hfind⟩
    have hid : id ∈ ids := by
      have hdegree := hend.degree id
      rw [hfind] at hdegree
      split at hdegree
      next hid => exact hid
      next => cases hdegree
    refine ⟨hid, fun hground => ?_⟩
    have hzero :=
      (hend.degree_eq_zero_iff rfl (fun e he => (ends_of_mem_valueEdges he).1) hid).2 hground
    rw [hfind] at hzero
    obtain rfl := Option.some.inj hzero
    exact absurd hd (Nat.lt_irrefl 0)
  · rintro ⟨hid, hground⟩
    have hdegree := hend.degree id
    rw [if_pos hid] at hdegree
    refine ⟨_, Nat.pos_of_ne_zero fun hzero => hground ?_, hdegree⟩
    rw [hzero] at hdegree
    exact (hend.degree_eq_zero_iff rfl (fun e he => (ends_of_mem_valueEdges he).1) hid).1 hdegree

end Patchbay
