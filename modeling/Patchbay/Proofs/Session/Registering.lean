import Mathlib.Data.List.Induction
import Patchbay.Proofs.Patch.Controlless
import Patchbay.Proofs.Patch.Listing
import Patchbay.Proofs.Session.Sound

/-!
# The registry of a session

Declarations are the only operations that change which kinds there are, and how they are listed by
category. So both are determined by the declarations of a session, in whatever operations these are
embedded; and where control is not supported, the kinds that use it are turned away, and with them
everything that would come of them.

## Key results

- `registered_perform`: what one operation does to the registry
- `performAll_declare`: several kinds are declared at once as they are one after the other
- `registry_performAll`: kinds, lists and control ports after any operations
-/

namespace Patchbay

/-- The declaration that an operation makes; without support for control some are refused. -/
def Operation.declared? (supportsFlow : Bool) : Operation → Option Declaration
  | declare k => if k.declaration.usesFlow && !supportsFlow then none else some k.declaration
  | _ => none

namespace Patch

variable {p q : Patch} {k : Kind}

theorem declare_eq_error_iff {e : Error} : p.declare k = .error e ↔
    k.declaration.usesFlow = true ∧ p.supportsFlow = false ∧
      e = .flowNotSupported k.declaration.id := by
  have hrefused : (k.declaration.usesFlow && !p.supportsFlow) = true ↔
      k.declaration.usesFlow = true ∧ p.supportsFlow = false := by
    rw [Bool.and_eq_true, Bool.not_eq_true']
  unfold declare
  dsimp only
  split
  next h =>
    rw [hrefused] at h
    exact ⟨fun he => ⟨h.1, h.2, (Except.error.inj he).symm⟩, fun he => congrArg _ he.2.2.symm⟩
  next h =>
    rw [hrefused] at h
    exact ⟨fun he => (by cases he), fun he => (h ⟨he.1, he.2.1⟩).elim⟩

theorem allowed_of_declare (h : p.declare k = .ok q) :
    (!k.declaration.usesFlow || p.supportsFlow) = true := by
  cases hk : k.declaration.usesFlow with
  | false => rfl
  | true =>
    cases hflow : p.supportsFlow with
    | true => rfl
    | false => cases h.symm.trans (declare_eq_error_iff.2 ⟨hk, hflow, rfl⟩)

/-- The last kind of a list is declared after the others, and is counted if it is not refused. -/
theorem declareAll_concat (p : Patch) (ks : List Kind) (k : Kind) :
    p.declareAll (ks ++ [k]) =
      match (p.declareAll ks).2.declare k with
      | .ok q => ((p.declareAll ks).1 + 1, q)
      | .error _ => p.declareAll ks := by
  rw [declareAll, List.foldl_append]
  rfl

theorem supportsFlow_declare (h : p.declare k = .ok q) : q.supportsFlow = p.supportsFlow := by
  rw [(declare_cases h).1]
  rfl

/-- A kind that uses no control brings no control ports. -/
theorem controlless_declare (hp : p.Controlless) (hk : k.declaration.usesFlow = false)
    (h : p.declare k = .ok q) : q.Controlless := by
  have hgraph := (declare_cases h).1
  refine ⟨fun id d hd => ?_, ?_, ?_⟩
  · replace hd : (p.kinds.insert k.declaration.id k.declaration).find? id = some d := by
      rwa [hgraph] at hd
    rw [Table.find?_insert] at hd
    split at hd
    · exact Option.some.inj hd ▸ hk
    · exact hp.kinds id d hd
  · rw [hgraph]
    exact hp.nodes
  · rw [hgraph]
    exact hp.wires

end Patch

namespace Session

open Patch

variable {s : Session}

theorem upholds_accept {r : Except Error Patch} (h : ∀ q, r = .ok q → s.patch.Upholds q) :
    s.patch.Upholds (s.accept r).patch := by
  obtain hsame | ⟨q, hq, hsame⟩ := s.accept_cases r
  · exact hsame.symm ▸ .refl _
  · exact hsame.symm ▸ h q hq

theorem upholds_afterMove {r : History × Except Error (Option Patch)}
    (h : ∀ q, r.2 = .ok (some q) → ∃ t, s.patch.restore t = .ok q) :
    s.patch.Upholds (s.afterMove r).patch := by
  obtain hsame | hok := s.patch_afterMove r
  · exact hsame.symm ▸ .refl _
  · obtain ⟨t, ht⟩ := h _ hok
    exact upholds_restore ht

/-- Whatever is no declaration leaves kinds and lists alone, and brings no control ports. -/
theorem upholds_perform {op : Operation} (hop : ∀ k, op ≠ .declare k) :
    s.patch.Upholds (s.perform op).patch := by
  cases op with
  | declare k => exact (hop k rfl).elim
  | setRule | removeRule => exact ⟨rfl, rfl, rfl, fun h => ⟨h.kinds, h.nodes, h.wires⟩⟩
  | insert kind id position => exact upholds_accept fun _ => upholds_insert
  | edit id e => exact s.patch.upholds_edit id e
  | remove id => exact s.patch.upholds_remove id
  | connect w => exact s.patch.upholds_connect w
  | disconnect node port side => exact s.patch.upholds_disconnect node port side
  | notify id event => exact s.patch.upholds_tell id event
  | clear => exact s.patch.upholds_clear
  | restore t => exact upholds_accept fun _ => upholds_restore
  | record => exact .refl _
  | undo => exact upholds_afterMove fun _ => History.restore_of_undo
  | redo => exact upholds_afterMove fun _ => History.restore_of_redo
  | forget => exact .refl _

/-- The registry of the patch comes from these declarations. -/
structure Registered (flow : Bool) (ds : List Declaration) (s : Session) : Prop where
  supportsFlow : s.patch.supportsFlow = flow
  lists : s.patch.Lists ds
  controlless : flow = false → s.patch.Controlless

variable {flow : Bool} {ds : List Declaration}

theorem registered_start (flow : Bool) (conversions : Conversions) (capacity : Nat) :
    (start flow conversions capacity).Registered flow [] where
  supportsFlow := rfl
  lists := Graph.lists_empty flow conversions
  controlless := fun _ =>
    ⟨fun _ _ h => (by cases h), fun _ h => (by cases h), fun _ _ h => (by cases h)⟩

theorem Registered.of_upholds {s' : Session} (hs : s.Registered flow ds)
    (h : s.patch.Upholds s'.patch) : s'.Registered flow ds where
  supportsFlow := h.supportsFlow.trans hs.supportsFlow
  lists := hs.lists.congr h.kinds h.categories
  controlless := h.controlless ∘ hs.controlless

/-- A declaration is one more, or is refused and changes nothing. -/
theorem registered_declare (hs : s.Registered flow ds) (k : Kind) :
    (s.perform (.declare k)).Registered flow
      (ds ++ ((Operation.declare k).declared? flow).toList) := by
  rw [perform, Operation.declared?]
  cases hr : s.patch.declare k with
  | error e =>
    obtain ⟨hk, hflow, -⟩ := declare_eq_error_iff.1 hr
    rw [hk, ← hs.supportsFlow, hflow, Bool.not_false, Bool.and_true, if_pos rfl, Option.toList_none,
      List.append_nil, ← hflow, hs.supportsFlow]
    exact hs
  | ok q =>
    have hallowed := allowed_of_declare hr
    rw [hs.supportsFlow, Bool.or_eq_true, Bool.not_eq_true'] at hallowed
    have hnot : (k.declaration.usesFlow && !flow) = false := by
      rwa [Bool.and_eq_false_iff, Bool.not_eq_false']
    rw [hnot, if_neg Bool.false_ne_true, Option.toList_some]
    have hgraph := (declare_cases hr).1
    exact {
      supportsFlow := (supportsFlow_declare hr).trans hs.supportsFlow
      lists := (hs.lists.declare k.declaration).congr (congrArg (·.kinds) hgraph)
        (congrArg (·.categories) hgraph)
      controlless := fun hflow => controlless_declare (hs.controlless hflow)
        (hallowed.resolve_right (Bool.eq_false_iff.1 hflow)) hr }

/-- Only declarations are seen in the registry. -/
theorem registered_perform (hs : s.Registered flow ds) (op : Operation) :
    (s.perform op).Registered flow (ds ++ (op.declared? flow).toList) := by
  cases op with
  | declare k => exact registered_declare hs k
  | _ =>
    rw [Operation.declared?, Option.toList_none, List.append_nil]
    · exact hs.of_upholds (upholds_perform fun _ h => by cases h)
    all_goals exact fun _ h => by cases h

/-- The registry after any operations comes from the declarations among them. -/
theorem registered_performAll (flow : Bool) (conversions : Conversions) (capacity : Nat)
    (ops : List Operation) : ((start flow conversions capacity).performAll ops).Registered flow
      (ops.filterMap (Operation.declared? flow)) := by
  induction ops using List.reverseRecOn with
  | nil => exact registered_start flow conversions capacity
  | append_singleton ops op ih =>
    have hlast : [op].filterMap (Operation.declared? flow) = (op.declared? flow).toList := by
      cases h : op.declared? flow <;> simp [h]
    rw [performAll_snoc, List.filterMap_append, hlast]
    exact registered_perform ih op

/-- Several kinds are declared at once as they are one after the other, and those that are not
refused are counted. -/
theorem performAll_declare (s : Session) (ks : List Kind) :
    s.performAll (ks.map .declare) = { s with patch := (s.patch.declareAll ks).2 } ∧
      (s.patch.declareAll ks).2.supportsFlow = s.patch.supportsFlow ∧
      (s.patch.declareAll ks).1 =
        ks.countP fun k => !k.declaration.usesFlow || s.patch.supportsFlow := by
  induction ks using List.reverseRecOn with
  | nil => exact ⟨rfl, rfl, rfl⟩
  | append_singleton ks k ih =>
    obtain ⟨hall, hflow, hcount⟩ := ih
    rw [List.map_append, List.map_singleton, performAll_snoc, hall, declareAll_concat,
      List.countP_append, List.countP_singleton, ← hcount, perform]
    cases hr : (s.patch.declareAll ks).2.declare k with
    | error e =>
      obtain ⟨hk, hnot, -⟩ := declare_eq_error_iff.1 hr
      rw [hk, ← hflow, hnot]
      exact ⟨rfl, rfl, rfl⟩
    | ok q =>
      rw [← hflow, if_pos (allowed_of_declare hr)]
      exact ⟨rfl, supportsFlow_declare hr, rfl⟩

/-- After any operations, whatever hooks and snapshots do on the way: the kinds are those that were
declared last under their ids; every kind is listed once over all categories, in the list of its
own, and nothing else is; no list is empty, and each has its ids in the order of their last
declarations. Only control that is not supported makes a declaration fail, which then changes
nothing. To declare several kinds at once is to declare them one after the other. Without support
for control there is no kind that uses it, no node with a control port, and no wire at one. -/
theorem registry_performAll (flow : Bool) (conversions : Conversions) (capacity : Nat)
    (ops : List Operation) :
    let s := (start flow conversions capacity).performAll ops
    let ds := Declaration.latest (ops.filterMap (Operation.declared? flow))
    (∀ id, s.patch.kinds.find? id = ds.find? (·.id = id)) ∧
      (∀ id, s.patch.listed.count id = if s.patch.kinds.contains id then 1 else 0) ∧
      (∀ c ids, s.patch.categories.find? c = some ids →
        ids ≠ [] ∧ ids = Declaration.idsOf c ds ∧
          ∀ id, id ∈ ids ↔ ∃ d, s.patch.kinds.find? id = some d ∧ d.category = c) ∧
      (∀ id d, s.patch.kinds.find? id = some d →
        ∃ ids, s.patch.categories.find? d.category = some ids ∧ id ∈ ids) ∧
      (∀ k e, s.patch.declare k = .error e ↔
        k.declaration.usesFlow = true ∧ flow = false ∧ e = .flowNotSupported k.declaration.id) ∧
      (∀ k e, s.patch.declare k = .error e → s.perform (.declare k) = s) ∧
      (∀ ks, s.performAll (ks.map .declare) = { s with patch := (s.patch.declareAll ks).2 } ∧
        (s.patch.declareAll ks).1 = ks.countP fun k => !k.declaration.usesFlow || flow) ∧
      (flow = false →
        (∀ id d, s.patch.kinds.find? id = some d → d.usesFlow = false) ∧
          (∀ n ∈ s.patch.nodes, n.flowIn = none ∧ n.flowOut = none) ∧
          ∀ i w, s.patch.wires.find? i = some w →
            w.targetPort ≠ flowInName ∧ w.sourcePort ≠ flowOutName) := by
  intro s ds
  have hs : s.Registered flow _ := registered_performAll flow conversions capacity ops
  refine ⟨hs.lists.kinds, hs.lists.count_listed, fun c ids hc => ?_, fun id d hd => ?_,
    fun k e => ?_, fun k e he => ?_, fun ks => ?_, fun hflow => ?_⟩
  · obtain ⟨hids, hne⟩ := Graph.unlessEmpty_eq_some_iff.1 ((hs.lists.categories c).symm.trans hc)
    exact ⟨hne, hids.symm, hs.lists.mem_iff hc⟩
  · obtain ⟨ids, hids⟩ := hs.lists.exists_list hd
    exact ⟨ids, hids, (hs.lists.mem_iff hids id).2 ⟨d, hd, rfl⟩⟩
  · rw [declare_eq_error_iff, hs.supportsFlow]
  · rw [perform, he]
    rfl
  · obtain ⟨hall, -, hcount⟩ := s.performAll_declare ks
    exact ⟨hall, hs.supportsFlow ▸ hcount⟩
  · have h := hs.controlless hflow
    exact ⟨h.kinds, fun n hn => ⟨(h.nodes n hn).flowIn, (h.nodes n hn).flowOut⟩, h.wires⟩

/-- A kind moves to another category, one is declared again in its own, and one is refused. -/
example :
    ((start false .base 10).performAll
      [.declare ⟨.plain "a" "x", {}⟩, .declare ⟨.plain "b" "x", {}⟩, .declare ⟨.plain "c" "x", {}⟩,
        .declare ⟨.plain "d" "z", {}⟩, .declare ⟨.plain "d" "y", {}⟩, .declare ⟨.plain "b" "x", {}⟩,
        .declare ⟨{ Declaration.plain "a" "y" with flow := .entry }, {}⟩,
        .declare ⟨.plain "a" "y", {}⟩]).patch.categories.entries =
      [("x", ["c", "b"]), ("y", ["d", "a"])] := by
  decide +kernel

end Session

end Patchbay
