import Patchbay.Builtin.Catalogue
import Patchbay.Check.Problem
import Patchbay.Proofs.Patch.Relaxed
import Patchbay.Proofs.Session.RoundTrip

/-!
# Types at the ends of wires

The types of a wire are only looked at when the wire is made. Reroutes change their types later, and
nothing looks at the wires out of them then. So the types at the ends of a wire may come not to fit,
but only in this one way: the wire leads out of a reroute, and a wire into that reroute was made
after it.

## Key results

- `Graph.incompatibleTypes_mem_problems_iff`: incompatible types are reported of the wires whose
  types do not fit
- `relaxed_of_reaches`: in every session reroutes take anything while nothing feeds them
- `compatible_or_fedLater`: types fit, except at wires out of reroutes that were fed later
-/

namespace Patchbay

namespace Surroundings

/-- Neither full inputs nor cycles are a matter of types. -/
theorem incompatibleTypes_mem_problems_iff (s : Surroundings) (ws : List (String × Wire))
    (label a b : String) : .incompatibleTypes label a b ∈ s.problems ws ↔
      ∃ e ∈ ws, .incompatibleTypes label a b ∈ s.wireProblems e.1 e.2 := by
  have hfan : Problem.incompatibleTypes label a b ∉ fanIn (ws.map (·.2)) := fun h => by
    obtain ⟨node, _, hnode⟩ := List.mem_flatMap.1 h
    obtain ⟨port, _, hport⟩ := List.mem_filterMap.1 hnode
    dsimp only at hport
    split at hport <;> cases hport
  have hcycle : ∀ ids : List String, Problem.incompatibleTypes label a b ∉
      if ids.isEmpty then [] else [Problem.dataCycle ids] := fun ids h => by
    split at h <;> simp at h
  simp only [problems, List.mem_append, hfan, hcycle, or_false, List.mem_flatMap]

/-- Types are looked at where both nodes and both ports of a wire are known. -/
theorem incompatibleTypes_mem_wireProblems_iff (s : Surroundings) {w : Wire} (l label a b : String)
    (hs : w.source ∈ s.ids) (ht : w.target ∈ s.ids) :
    .incompatibleTypes label a b ∈ s.wireProblems l w ↔ label = l ∧
      ∃ x y, s.portType? w.source w.sourcePort .output = some x ∧
        s.portType? w.target w.targetPort .input = some y ∧
        s.conversions.canConnect x y = false ∧ a = x.id ∧ b = y.id := by
  have hloop : Problem.incompatibleTypes label a b ∉
      if w.source = w.target then [Problem.selfLoop l w.source] else [] := fun h => by
    split at h <;> simp at h
  have hends : s.unknownEnds l w = [] := by simp [unknownEnds, hs, ht]
  simp only [wireProblems, hends, List.append_nil, List.mem_append, hloop, false_or,
    List.isEmpty_nil, if_pos, portProblems]
  cases s.portType? w.source w.sourcePort .output with
  | none => cases s.portType? w.target w.targetPort .input <;> simp
  | some x =>
    cases s.portType? w.target w.targetPort .input with
    | none => simp
    | some y => cases hcan : s.conversions.canConnect x y <;> simp [hcan]

end Surroundings

namespace Graph

/-- Incompatible types are reported of the wires whose types do not fit, and of no others. -/
theorem incompatibleTypes_mem_problems_iff {g : Graph} (hg : g.Sound) (label a b : String) :
    .incompatibleTypes label a b ∈ g.problems ↔
      ∃ i w, g.wires.find? i = some w ∧ label = WireId.label i ∧
        ∃ s t, g.typeOf? w.source w.sourcePort .output = some s ∧
          g.typeOf? w.target w.targetPort .input = some t ∧
          g.conversions.canConnect s t = false ∧ a = s.id ∧ b = t.id := by
  have hkinds : Problem.incompatibleTypes label a b ∉
      unknownKinds g (g.nodes.map fun n => (n.id, n.kind)) := fun h => by
    obtain ⟨n, _, hn⟩ := List.mem_filterMap.1 h
    split at hn <;> cases hn
  simp only [problems, List.mem_append, hkinds, false_or,
    Surroundings.incompatibleTypes_mem_problems_iff, List.mem_map]
  -- Both nodes of a wire are there.
  have hknown : ∀ {n name side}, (g.port? n name side).isSome → n ∈ g.ids := by
    intro n name side h
    obtain ⟨m, hm⟩ := node?_of_isSome_port? h
    exact (mem_ids_iff g n).2 (by rw [hm]; rfl)
  constructor
  · rintro ⟨_, ⟨⟨i, w⟩, hmem, rfl⟩, hproblem⟩
    have hw := Table.mem_entries_iff.1 hmem
    exact ⟨i, w, hw, (Surroundings.incompatibleTypes_mem_wireProblems_iff _ _ _ _ _
      (hknown (hg.source i w hw)) (hknown (hg.target i w hw))).1 hproblem⟩
  · rintro ⟨i, w, hw, htypes⟩
    exact ⟨_, ⟨(i, w), Table.mem_entries_iff.2 hw, rfl⟩,
      (Surroundings.incompatibleTypes_mem_wireProblems_iff _ _ _ _ _
        (hknown (hg.source i w hw)) (hknown (hg.target i w hw))).2 htypes⟩

end Graph

/-- Built-in kinds have no hooks, apart from reroutes. -/
theorem Builtin.tame_of_mem {k : Kind} (hk : k ∈ Builtin.all) : k.Tame := by
  simp only [Builtin.all, List.mem_cons, List.not_mem_nil, or_false] at hk
  rcases hk with rfl | rfl | rfl | rfl | rfl | rfl | rfl | rfl | rfl | rfl | rfl | rfl | rfl | rfl
  all_goals first
    | exact .inl ⟨rfl, rfl⟩
    | exact .inr rfl

/-- The operation makes or takes away a node or a wire, or declares a built-in kind. -/
def Operation.Building : Operation → Prop
  | declare k => k ∈ Builtin.all
  | insert _ _ _ | connect _ | disconnect _ _ _ | remove _ => True
  | _ => False

namespace Session

open Patch

variable {s : Session}

/-- The operation is allowed where built-in nodes are wired up by hand. -/
def Builds (s : Session) (op : Operation) : Prop :=
  (op.Fresh s.patch ∧ op.Restorable s.patch) ∧ op.Building

/-- Sessions in which built-in nodes are wired up by hand can be restored from their snapshots. -/
theorem Builds.faithful {op : Operation} (h : s.Builds op) : s.Faithful op := by
  refine ⟨h.1, ?_⟩
  cases op with
  | declare k => exact Builtin.tame_of_mem h.2
  | _ => exact trivial

theorem relaxed_accept (hs : s.patch.Relaxed) {r : Except Error Patch}
    (h : ∀ q, r = .ok q → q.Relaxed) : (s.accept r).patch.Relaxed := by
  obtain hsame | ⟨q, hq, hsame⟩ := s.accept_cases r
  · rwa [hsame]
  · rw [hsame]
    exact h q hq

theorem relaxed_afterMove (hs : s.patch.Relaxed) {r : History × Except Error (Option Patch)}
    (h : ∀ q, r.2 = .ok (some q) → ∃ t, s.patch.restore t = .ok q) :
    (s.afterMove r).patch.Relaxed := by
  obtain hsame | hok := s.patch_afterMove r
  · rwa [hsame]
  · obtain ⟨t, ht⟩ := h _ hok
    exact relaxed_restore hs ht

/-- A faithful operation keeps the patch relaxed. -/
theorem relaxed_perform (hs : s.patch.Relaxed) {op : Operation} (hop : s.Faithful op) :
    (s.perform op).patch.Relaxed := by
  have hreg := regular_perform hs.toRegular hop
  obtain ⟨⟨hfresh, hrestorable⟩, _⟩ := hop
  cases op with
  | declare k =>
    refine relaxed_accept hs fun q hq => relaxed_of_nodes_eq_nil ?_ ?_
    · simpa only [perform, hq, accept] using hreg
    · rw [(declare_cases hq).1]
      exact List.isEmpty_iff.1 hrestorable
  | setRule => exact relaxed_of_nodes_eq_nil hreg (List.isEmpty_iff.1 hrestorable)
  | removeRule => exact relaxed_of_nodes_eq_nil hreg (List.isEmpty_iff.1 hrestorable)
  | insert kind id position =>
    exact relaxed_accept hs fun q hq => relaxed_insert hs (.inl hfresh) hq
  | edit id e => exact relaxed_edit hs hrestorable
  | remove id => exact relaxed_remove hs id
  | connect w => exact relaxed_connect hs w
  | disconnect node port side => exact relaxed_disconnect hs node port side
  | notify => exact hrestorable.elim
  | clear => exact relaxed_clear hs
  | restore t => exact relaxed_accept hs fun q hq => relaxed_restore hs hq
  | record => exact hs
  | undo => exact relaxed_afterMove hs fun q hq => History.restore_of_undo hq
  | redo => exact relaxed_afterMove hs fun q hq => History.restore_of_redo hq
  | forget => exact hs

theorem relaxed_of_reaches (h : Reaches Faithful s) : s.patch.Relaxed :=
  Reaches.invariant (fun s => s.patch.Relaxed)
    (fun flow conversions _ => relaxed_of_nodes_eq_nil (regular_empty flow conversions) rfl)
    (fun _ _ hs hop => relaxed_perform hs hop) h

/-- In every session that faithful operations lead to, a wire joins ports whose types fit, unless it
leads out of a reroute into which a wire was made later. Incompatible types are reported of such
wires alone; so there are none where each reroute was fed before a wire was made out of it. -/
theorem compatible_or_fedLater (h : Reaches Faithful s) :
    (∀ i w, s.patch.wires.find? i = some w →
      (s.patch.typesOf? w).isSome ∨
        s.patch.reroutes w.source = true ∧ s.patch.FedLater i w.source) ∧
    ∀ label a b, .incompatibleTypes label a b ∈ s.patch.problems →
      ∃ i w, s.patch.wires.find? i = some w ∧ label = WireId.label i ∧
        s.patch.reroutes w.source = true ∧ s.patch.FedLater i w.source := by
  have hs := relaxed_of_reaches h
  refine ⟨fun i w hw => hs.fits_or_fedLater hw, fun label a b hmem => ?_⟩
  obtain ⟨i, w, hw, rfl, s', t, hs', ht, hcan, _⟩ :=
    (Graph.incompatibleTypes_mem_problems_iff hs.sound label a b).1 hmem
  refine ⟨i, w, hw, rfl, (hs.fits_or_fedLater hw).resolve_left fun hfits => ?_⟩
  simp [Graph.typesOf?_eq, hs', ht, hcan] at hfits

/-- A reroute feeds a sum, and only then a text feeds the reroute. -/
def latecomer : List Operation :=
  Builtin.all.map .declare ++
    [.insert "text" "word" .origin, .insert "reroute" "via" .origin, .insert "add" "sum" .origin,
      .connect ⟨"via", "out", "sum", "a"⟩, .connect ⟨"word", "value", "via", "in"⟩]

theorem reaches_latecomer : Reaches Builds ((start true .base 10).performAll latecomer) := by
  refine Reaches.performAll (.start true .base 10) (AllowedAll.and (by decide +kernel) ?_)
  intro op hop
  rcases List.mem_append.1 hop with hop | hop
  · obtain ⟨k, hk, rfl⟩ := List.mem_map.1 hop
    exact hk
  · simp only [List.mem_cons, List.not_mem_nil, or_false] at hop
    rcases hop with rfl | rfl | rfl | rfl | rfl <;> exact trivial

/-- The wire out of the reroute leads from a text to a number now. -/
theorem incompatible_latecomer :
    Reaches Builds ((start true .base 10).performAll latecomer) ∧
      ((start true .base 10).performAll latecomer).patch.wires.find? 0 =
        some ⟨"via", "out", "sum", "a"⟩ ∧
      ((start true .base 10).performAll latecomer).patch.typesOf? ⟨"via", "out", "sum", "a"⟩ =
        none ∧
      .incompatibleTypes "conn-0" "string" "number" ∈
        ((start true .base 10).performAll latecomer).patch.problems := by
  have hs := relaxed_of_reaches (reaches_latecomer.mono fun _ _ h => h.faithful)
  refine ⟨reaches_latecomer, by decide +kernel, by decide +kernel,
    (Graph.incompatibleTypes_mem_problems_iff hs.sound _ _ _).2 ?_⟩
  exact ⟨0, ⟨"via", "out", "sum", "a"⟩, by decide +kernel, by decide +kernel, .string, .number,
    by decide +kernel, by decide +kernel, by decide +kernel, rfl, rfl⟩

/-- The wire that the text came by is the later one. -/
theorem fedLater_latecomer :
    ((start true .base 10).performAll latecomer).patch.typesOf? ⟨"via", "out", "sum", "a"⟩ = none ∧
      ((start true .base 10).performAll latecomer).patch.FedLater 0 "via" := by
  have hfaithful := reaches_latecomer.mono fun _ _ h => h.faithful
  have hnone : ((start true .base 10).performAll latecomer).patch.typesOf?
      ⟨"via", "out", "sum", "a"⟩ = none := by decide +kernel
  refine ⟨hnone, ?_⟩
  rcases (compatible_or_fedLater hfaithful).1 0 ⟨"via", "out", "sum", "a"⟩ (by decide +kernel) with
    hfits | ⟨_, hlater⟩
  · rw [hnone] at hfits
    cases hfits
  · exact hlater

end Session

end Patchbay
