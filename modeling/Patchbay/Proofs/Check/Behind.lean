import Mathlib.Logic.Relation
import Patchbay.Proofs.Check.Peeling
import Patchbay.Run.Dependents

/-!
# Cycles, and what lies behind them

Peeling leaves over the nodes from which the way back goes on for ever (`mem_unsettledNodes_iff`).
There are only finitely many nodes, so such a way comes to some node twice. Hence the nodes that are
left over are those that some cycle of value wires leads to.

## Key results

- `acc_iff_of_finite`: over finitely many elements, the way back ends iff no cycle leads here
- `mem_unsettledNodes_iff_behindCycle`: what is left over lies on a cycle or behind one
- `unsettledNodes_ascending`: it is listed in ascending order
-/

namespace Patchbay

open Relation

/-! ### Ways back -/

section WayBack

variable {α : Type} {R : α → α → Prop}

/-- A way back that ends does not come from a cycle. -/
theorem not_acyclic_of_acc {n c : α} (h : Acc R n) (hn : ReflTransGen R c n) : ¬ TransGen R c c := by
  induction h generalizing c with
  | intro n _ ih =>
    intro hcycle
    rcases hn.cases_tail with rfl | ⟨m, hcm, hmn⟩
    -- The node is on the cycle, and so is the one before it.
    · obtain ⟨b, hnb, hbn⟩ := TransGen.tail'_iff.1 hcycle
      exact ih b hbn .refl (.head' hbn hnb)
    · exact ih m hmn hcm hcycle

open Classical in
/-- Where no cycle leads to an element, there are fewer and fewer elements before it on the way
back. -/
theorem acc_of_acyclic {xs : List α} (hR : ∀ a b, R a b → a ∈ xs) {n : α}
    (h : ∀ c, ReflTransGen R c n → ¬ TransGen R c c) : Acc R n := by
  induction hk : xs.countP (fun m => TransGen R m n) using Nat.strongRecOn generalizing n with
  | _ k ih =>
    refine Acc.intro n fun a ha => ih _ ?_ (fun c hc => h c (hc.tail ha)) rfl
    rw [← hk]
    -- All before `a` are before `n`; `a` itself is one of those before `n` only.
    refine Graph.countP_lt_countP (hR a n ha) ?_ ?_ fun m hm => ?_
    · exact decide_eq_true (.single ha)
    · exact decide_eq_false (h a (.single ha))
    · exact decide_eq_true ((of_decide_eq_true hm).tail ha)

/-- Over finitely many elements, the way back from one of them ends iff no cycle leads to it. -/
theorem acc_iff_of_finite {xs : List α} (hR : ∀ a b, R a b → a ∈ xs) (n : α) :
    Acc R n ↔ ∀ c, ReflTransGen R c n → ¬ TransGen R c c :=
  ⟨fun h _ hc => not_acyclic_of_acc h hc, acc_of_acyclic hR⟩

end WayBack

/-! ### Value wires between known nodes -/

/-- A wire leads from one known node to another, and it carries values. -/
def LeadsAmong (ids : List String) (ws : List Wire) (m n : String) : Prop :=
  m ≠ n ∧ m ∈ ids ∧ n ∈ ids ∧
    ∃ w ∈ ws, w.source = m ∧ w.target = n ∧ w.targetPort ≠ flowInName

/-- Some node lies on a cycle of value wires and leads to this node, or is this node. -/
def BehindCycle (ids : List String) (ws : List Wire) (n : String) : Prop :=
  ∃ c, TransGen (LeadsAmong ids ws) c c ∧ ReflTransGen (LeadsAmong ids ws) c n

variable {ids : List String} {ws : List Wire}

theorem mem_valueEdges_iff (m n : String) : (m, n) ∈ valueEdges ids ws ↔ LeadsAmong ids ws m n := by
  simp only [valueEdges, Wire.isFlow, List.mem_map, List.mem_filter, Bool.and_eq_true,
    Bool.not_eq_true', decide_eq_true_eq, decide_eq_false_iff_not, List.contains_eq_mem,
    Prod.mk.injEq]
  constructor
  · rintro ⟨w, ⟨hw, ⟨⟨hflow, hne⟩, hsource⟩, htarget⟩, rfl, rfl⟩
    exact ⟨hne, hsource, htarget, w, hw, rfl, rfl, hflow⟩
  · rintro ⟨hne, hsource, htarget, w, hw, rfl, rfl, hflow⟩
    exact ⟨w, ⟨hw, ⟨⟨hflow, hne⟩, hsource⟩, htarget⟩, rfl, rfl⟩

theorem grounded_iff (n : String) :
    Grounded (valueEdges ids ws) n ↔
      ∀ c, ReflTransGen (LeadsAmong ids ws) c n → ¬ TransGen (LeadsAmong ids ws) c c := by
  have hsame : (fun a b => (a, b) ∈ valueEdges ids ws) = LeadsAmong ids ws := by
    funext a b
    exact propext (mem_valueEdges_iff a b)
  unfold Grounded
  rw [hsame]
  exact acc_iff_of_finite (fun a b hab => hab.2.1) n

/-- What lies on a cycle or behind one is known. -/
theorem BehindCycle.mem {n : String} (h : BehindCycle ids ws n) : n ∈ ids := by
  obtain ⟨c, hcycle, hn⟩ := h
  rcases hn.cases_tail with rfl | ⟨m, _, hmn⟩
  · obtain ⟨b, _, hbn⟩ := TransGen.tail'_iff.1 hcycle
    exact hbn.2.2.1
  · exact hmn.2.2.1

/-- The nodes that peeling leaves over are those on cycles of value wires and behind them. -/
theorem mem_unsettledNodes_iff_behindCycle (n : String) :
    n ∈ unsettledNodes ids ws ↔ BehindCycle ids ws n := by
  rw [mem_unsettledNodes_iff, grounded_iff]
  constructor
  · rintro ⟨_, hcycle⟩
    simp only [not_forall, not_not] at hcycle
    obtain ⟨c, hn, hcc⟩ := hcycle
    exact ⟨c, hcc, hn⟩
  · intro h
    refine ⟨h.mem, fun hall => ?_⟩
    obtain ⟨c, hcycle, hn⟩ := h
    exact hall c hn hcycle

/-- Something is left over iff there is a cycle of value wires. -/
theorem unsettledNodes_eq_nil_iff :
    unsettledNodes ids ws = [] ↔ ∀ n, ¬ TransGen (LeadsAmong ids ws) n n := by
  simp only [List.eq_nil_iff_forall_not_mem, mem_unsettledNodes_iff_behindCycle]
  constructor
  · exact fun h n hn => h n ⟨n, hn, .refl⟩
  · rintro h n ⟨c, hcycle, _⟩
    exact h c hcycle

/-- What is left over is listed in ascending order, each node once. -/
theorem unsettledNodes_ascending (ids : List String) (ws : List Wire) :
    (unsettledNodes ids ws).Pairwise fun a b => compare a b = .lt := by
  refine List.Pairwise.filterMap _ (fun a b hab m hm n hn => ?_) (Table.ascending _)
  obtain ⟨_, hm⟩ := Option.ite_none_right_eq_some.1 hm
  obtain ⟨_, hn⟩ := Option.ite_none_right_eq_some.1 hn
  rw [← Option.some.inj hm, ← Option.some.inj hn]
  exact hab

/-- Ascending lists of the same elements are the same. -/
theorem eq_of_ascending {xs ys : List String} (hx : xs.Pairwise fun a b => compare a b = .lt)
    (hy : ys.Pairwise fun a b => compare a b = .lt) (h : ∀ a, a ∈ xs ↔ a ∈ ys) : xs = ys := by
  have hnodup : ∀ {zs : List String}, zs.Pairwise (fun a b => compare a b = .lt) → zs.Nodup :=
    fun hz => hz.imp fun {a b} hab heq => by simp [heq] at hab
  have hperm := (List.perm_ext_iff_of_nodup (hnodup hx) (hnodup hy)).2 h
  refine hperm.eq_of_pairwise (fun a b _ _ hab hba => ?_) hx hy
  cases hab.symm.trans (Std.OrientedCmp.gt_iff_lt.2 hba)

/-- The list depends on which nodes are known, not on how they are listed. -/
theorem unsettledNodes_congr {ids' : List String} (h : ∀ id, id ∈ ids' ↔ id ∈ ids) :
    unsettledNodes ids' ws = unsettledNodes ids ws := by
  have hleads : LeadsAmong ids' ws = LeadsAmong ids ws := by
    funext m n
    simp only [LeadsAmong, h]
  refine eq_of_ascending (unsettledNodes_ascending ids' ws) (unsettledNodes_ascending ids ws) ?_
  simp only [mem_unsettledNodes_iff_behindCycle, BehindCycle, hleads, implies_true]

end Patchbay
