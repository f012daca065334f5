import Mathlib.Data.List.Induction
import Patchbay.Proofs.Patch.Connecting
import Patchbay.Proofs.Patch.Declared
import Patchbay.Proofs.Patch.Restoring

/-!
# What a snapshot is restored to without hooks

A snapshot may hold anything: several nodes under one id, wires between nodes that are not there,
several wires into one input. Where the declared kinds have no hooks, it can be said what becomes of
it. Of several nodes under one id the last one stays, in the place of the first. A wire stays if it
can be made between the nodes that stay, and if no later wire takes its place.

## Key results

- `restoreNodes_last`: which nodes stay
- `connect_of_hookless`: a wire that can be made takes the place of the one at its input
- `surviving_snoc`: what one more wire does to those that stay
- `recreated_restore`: what a snapshot is restored to
-/

namespace Patchbay

/-- The wires of a list that stay, if each wire that is allowed takes the place of those before it
that lead into the same input. -/
def surviving (allowed : Wire → Bool) : List Wire → List Wire
  | [] => []
  | w :: ws =>
    if allowed w && !ws.any fun v => allowed v && v.endsAt w.target w.targetPort .input then
      w :: surviving allowed ws
    else surviving allowed ws

/-- One more wire that is allowed clears its input. -/
theorem surviving_snoc (allowed : Wire → Bool) (ws : List Wire) (w : Wire) :
    surviving allowed (ws ++ [w]) =
      if allowed w then
        (surviving allowed ws).filter (!·.endsAt w.target w.targetPort .input) ++ [w]
      else surviving allowed ws := by
  have hsame : ∀ v : Wire, w.endsAt v.target v.targetPort .input =
      v.endsAt w.target w.targetPort .input := by
    intro v
    simp only [Wire.endsAt, eq_comm]
  induction ws with
  | nil => cases hw : allowed w <;> simp [surviving, hw]
  | cons v ws ih =>
    rw [List.cons_append, surviving, surviving, ih, List.any_append]
    cases hw : allowed w with
    | false => simp [hw]
    | true =>
      cases hends : v.endsAt w.target w.targetPort .input with
      | true =>
        -- What stays of the wires before is cleared of `v`, if it had stayed.
        have hany : ([w].any fun u => allowed u && u.endsAt v.target v.targetPort .input) = true := by
          simp [hw, hsame, hends]
        simp only [hany, Bool.or_true, Bool.not_true, Bool.and_false, Bool.false_eq_true, ↓reduceIte]
        split
        next => rw [List.filter_cons_of_neg (by simp [hends])]
        next => rfl
      | false =>
        have hany : ([w].any fun u => allowed u && u.endsAt v.target v.targetPort .input) =
            false := by
          simp [hsame, hends]
        simp only [hany, Bool.or_false, ↓reduceIte]
        split
        next => rw [List.filter_cons_of_pos (by simp [hends]), List.cons_append]
        next => rfl

/-- Of elements that are alike the first one stays. -/
theorem eraseDups_concat (xs : List String) (x : String) : (xs ++ [x]).eraseDups =
    if x ∈ xs then xs.eraseDups else xs.eraseDups ++ [x] := by
  rw [List.eraseDups_append]
  split
  next hmem =>
    have hold : [x].removeAll xs = [] := by
      rw [List.removeAll, List.filter_eq_nil_iff]
      simpa using hmem
    rw [hold, List.eraseDups_nil, List.append_nil]
  next hmem =>
    have hnew : [x].removeAll xs = [x] := by
      rw [List.removeAll, List.filter_eq_self]
      simpa using hmem
    rw [hnew]
    rfl

/-- An element of a list with one more at the end is the one at the end, or it was there before. -/
theorem eq_or_exists_of_concat_eq {α : Type} {xs before after : List α} {x a : α}
    (h : xs ++ [x] = before ++ a :: after) :
    a = x ∧ after = [] ∨ ∃ after', after = after' ++ [x] ∧ xs = before ++ a :: after' := by
  rcases List.eq_nil_or_concat after with rfl | ⟨after', y, rfl⟩
  · obtain ⟨-, hx⟩ := List.append_inj' h rfl
    exact .inl ⟨(List.singleton_inj.1 hx).symm, rfl⟩
  · rw [List.concat_eq_append] at h
    rw [← List.cons_append, ← List.append_assoc] at h
    obtain ⟨hxs, hx⟩ := List.append_inj' h rfl
    obtain rfl := List.singleton_inj.1 hx
    exact .inr ⟨after', List.concat_eq_append, hxs⟩

namespace Patch

open Patchbay.Graph

variable {p q r : Patch}

/-! ### Nodes -/

/-- Of several nodes under one id the last one is restored, in the place of the first. -/
theorem restoreNodes_last (hp : p.Sound) {ss : List NodeState}
    (hkinds : ∀ s ∈ ss, (p.kinds.find? s.kind).isSome ∧ (p.behaviour s.kind).onCreate = none) :
    ∃ r, ss.foldlM restoreNode p.clear = .ok r ∧ (r.Sound ∧ r.wires = ∅ ∧ p.SameKinds r) ∧
      r.ids = (ss.map (·.id)).eraseDups ∧
      ∀ before n after, ss = before ++ n :: after → (∀ m ∈ after, m.id ≠ n.id) →
        ∀ d, p.kinds.find? n.kind = some d → ∃ m, r.node? n.id = some m ∧ m.Restored d n := by
  induction ss using List.reverseRec with
  | nil =>
    exact ⟨p.clear, rfl, ⟨sound_clear hp, rfl, ⟨rfl, rfl, rfl⟩⟩, rfl,
      fun before n after h => by simp at h⟩
  | append_singleton ss s ih =>
    obtain ⟨r, hr, ⟨hsound, hwires, hsame⟩, hids, hnodes⟩ :=
      ih fun n hn => hkinds n (List.mem_append_left _ hn)
    obtain ⟨hsome, hcreate⟩ := hkinds s (List.mem_append_right _ (List.mem_singleton_self s))
    obtain ⟨d, hd⟩ := Option.isSome_iff_exists.1 hsome
    obtain ⟨q, m, hq, hm, hnode⟩ := restoreNode_eq (p := r) (s := s) (d := d)
      (by rw [hsame.kinds, hd]) (by rw [hsame.behaviour, hcreate])
    obtain ⟨hqids, hqsame⟩ := ids_restoreNode hsound.keyed hq
    obtain ⟨hqsound, hqwires, _⟩ := sound_restoreNode hsound hwires hq
    refine ⟨q, ?_, ⟨hqsound, hqwires, hsame.trans hqsame⟩, ?_, ?_⟩
    · rw [List.foldlM_append, hr]
      show [s].foldlM restoreNode r = _
      rw [List.foldlM_cons, hq]
      rfl
    · rw [hqids, hids, List.map_append, List.map_singleton, eraseDups_concat]
      simp only [List.mem_eraseDups]
    · intro before n after hss hlast e he
      rw [hnode]
      obtain ⟨rfl, rfl⟩ | ⟨after', rfl, rfl⟩ := eq_or_exists_of_concat_eq hss
      · obtain rfl : d = e := Option.some.inj (hd.symm.trans he)
        exact ⟨m, if_pos rfl, hm⟩
      · rw [if_neg (hlast s (by simp)).symm]
        exact hnodes before n after' rfl (fun m hm => hlast m (by simp [hm])) e he

/-! ### Wires -/

/-- No node has a hook by which it is told of wires. -/
def Hookless (p : Patch) : Prop := ∀ id, p.hook? id = none

/-- Where no declared kind has a hook, no node has one. -/
theorem hookless_of_kinds (hp : p.Sound)
    (h : ∀ k, p.kinds.contains k = true → (p.behaviour k).onUpdate = none) : p.Hookless := by
  intro id
  refine Option.bind_eq_none_iff.2 fun k hk => ?_
  obtain ⟨n, hn, rfl⟩ := Option.map_eq_some_iff.1 hk
  exact h n.kind (hp.declared id n hn)

theorem Hookless.announce (h : p.Hookless) (c : Change) : p.announce c = (false, p) := by
  have htell : ∀ id e, p.tell id e = (e, p) := fun id e => tell_of_hook?_eq_none (h id) e
  simp only [Patch.announce, htell]
  rfl

/-- Without hooks an input is freed, and nothing else happens. -/
theorem freeInput_of_hookless (hp : p.Sound) (h : p.Hookless) (node port : String) :
    ∃ ws : Table WireId Wire,
      p.freeInput node port = (false, p.withGraph { p.toGraph with wires := ws }) ∧
        ws.entries = p.wires.entries.filter fun e => !e.2.endsAt node port .input := by
  unfold freeInput
  cases hfound : p.wireAt? node port .input with
  | none =>
    refine ⟨p.wires, rfl, (List.filter_eq_self.2 fun e he => ?_).symm⟩
    simp [(p.wireAt?_eq_none_iff node port .input).1 hfound e.1 e.2 (Table.mem_entries_iff.1 he)]
  | some e =>
    obtain ⟨i, v⟩ := e
    have hcut : (p.cut i).Hookless := fun id => ((p.trimmed_cut i).hook? id).trans (h id)
    refine ⟨p.wires.erase i, ?_, ?_⟩
    · dsimp only
      rw [detach_eq_ite]
      dsimp only
      rw [hcut.announce]
      rfl
    · -- No other wire leads into the input.
      obtain ⟨hv, hends⟩ := of_wireAt? hfound
      obtain ⟨hnode, hport⟩ := (endsAt_input _ _ _).1 hends
      refine List.filter_congr fun e he => ?_
      have he := Table.mem_entries_iff.1 he
      by_cases hi : e.1 = i
      · have hev : e.2 = v := Option.some.inj ((hi ▸ he).symm.trans hv)
        simp [hi, hev, hends]
      · have hnot : e.2.endsAt node port .input = false := by
          refine Bool.eq_false_iff.2 fun hat => hi ?_
          obtain ⟨hnode', hport'⟩ := (endsAt_input _ _ _).1 hat
          exact hp.single e.1 i e.2 v he hv (hnode'.trans hnode.symm) (hport'.trans hport.symm)
        simp [hi, hnot]

/-- Without hooks, a wire that can be made takes the place of the one that led into its input. -/
theorem connect_of_hookless (hp : p.Sound) (h : p.Hookless) {w : Wire} (hw : p.admits w = true) :
    ∃ ws : Table WireId Wire,
      p.connect w = (some p.nextWire, (p.withGraph { p.toGraph with wires := ws }).addWire w) ∧
        ws.entries = p.wires.entries.filter fun e => !e.2.endsAt w.target w.targetPort .input := by
  obtain ⟨ws, hfree, hws⟩ := freeInput_of_hookless hp h w.target w.targetPort
  obtain ⟨⟨a, b⟩, htypes⟩ := Option.isSome_iff_exists.1 ((admits_iff _ _).1 hw).2.2
  -- With the same nodes the types still fit, and there is still no hook.
  have hfits : (p.withGraph { p.toGraph with wires := ws }).typesOf? w = some (a, b) := htypes
  have hnone : (p.withGraph { p.toGraph with wires := ws }).Hookless := h
  refine ⟨ws, ?_, hws⟩
  simp only [connect, hw, hfree, hfits, hnone.announce, Bool.false_eq_true, ↓reduceIte]
  rfl

/-- The patch `q` has the nodes of `p` and the wires of a list. -/
structure Rewired (p : Patch) (ws : List Wire) (q : Patch) : Prop where
  sound : q.Sound
  sameKinds : p.SameKinds q
  nodes : q.nodes = p.nodes
  wires : q.wires.entries.map (·.2) = ws

namespace Rewired

variable {ws : List Wire}

theorem port?_eq (h : p.Rewired ws q) (node name : String) (side : Side) :
    q.port? node name side = p.port? node name side :=
  Graph.port?_congr (by rw [Graph.node?, Graph.node?, h.nodes]) name side

theorem typesOf?_eq (h : p.Rewired ws q) (w : Wire) : q.typesOf? w = p.typesOf? w := by
  simp only [Graph.typesOf?, h.port?_eq, h.sameKinds.conversions]

theorem admits_eq (h : p.Rewired ws q) (w : Wire) : q.admits w = p.admits w := by
  simp only [Graph.admits, h.port?_eq, h.typesOf?_eq]

theorem hookless (h : p.Rewired ws q) (hp : p.Hookless) : q.Hookless := by
  intro id
  have hnode : q.node? id = p.node? id := by rw [Graph.node?, Graph.node?, h.nodes]
  have hhook := hp id
  rw [hook?, kindOf?] at hhook ⊢
  rw [hnode, h.sameKinds.behaviour, hhook]

/-- A wire that can be made is added after the others, and takes the place of the one that led into
its input; any other wire is dropped. -/
theorem restoreWire (h : p.Rewired ws q) (hp : p.Hookless) (w : Wire) :
    p.Rewired (if p.admits w then ws.filter (!·.endsAt w.target w.targetPort .input) ++ [w] else ws)
      (q.restoreWire w) := by
  have hsound := (sound_restoreWire h.sound w).1
  have hsame := h.sameKinds.trans (sameKinds_restoreWire h.sound w)
  rw [← h.admits_eq]
  cases hw : q.admits w with
  | false =>
    have hdropped : q.restoreWire w = q.note (.droppedWire w) := by
      simp only [Patch.restoreWire, connect, hw, Bool.false_eq_true, ↓reduceIte]
    rw [hdropped] at hsound hsame ⊢
    exact ⟨hsound, hsame, h.nodes, h.wires⟩
  | true =>
    obtain ⟨left, hconnect, hleft⟩ := connect_of_hookless h.sound (h.hookless hp) hw
    have hmade : q.restoreWire w = (q.withGraph { q.toGraph with wires := left }).addWire w := by
      rw [Patch.restoreWire, hconnect]
    rw [hmade] at hsound hsame ⊢
    refine ⟨hsound, hsame, h.nodes, ?_⟩
    -- The new wire has the highest number.
    have hlast : ∀ e ∈ left.entries, compare e.1 q.nextWire = .lt := by
      intro e he
      rw [hleft] at he
      exact Nat.compare_eq_lt.2
        (h.sound.below e.1 e.2 (Table.mem_entries_iff.1 (List.mem_filter.1 he).1))
    show (left.insert q.nextWire w).entries.map _ = _
    rw [Table.entries_insert_of_lt hlast, hleft, ← h.wires, if_pos rfl, List.map_append,
      List.filter_map]
    rfl

/-- Of the wires of a list those stay that can be made and are not replaced. -/
theorem restoreWires (hp : p.Sound) (hempty : p.wires = ∅) (hnone : p.Hookless) (ws : List Wire) :
    p.Rewired (surviving p.admits ws) (ws.foldl Patch.restoreWire p) := by
  induction ws using List.reverseRec with
  | nil =>
    refine ⟨hp, .refl p, rfl, ?_⟩
    rw [List.foldl_nil, hempty]
    rfl
  | append_singleton ws w ih =>
    rw [List.foldl_append, surviving_snoc]
    exact ih.restoreWire hnone w

end Rewired

/-! ### Nodes and wires together -/

/-- The patch `q` is what a snapshot is restored to in the place of `p`, without hooks. -/
structure Recreated (p : Patch) (s : Snapshot) (q : Patch) : Prop where
  sameKinds : p.SameKinds q
  /-- The nodes have the ids of the snapshot, in the order in which these come up first. -/
  ids : q.ids = (s.nodes.map (·.id)).eraseDups
  /-- A node is as its last entry says, on top of what is declared. -/
  node : ∀ before n after, s.nodes = before ++ n :: after → (∀ m ∈ after, m.id ≠ n.id) →
    ∃ d m, p.kinds.find? n.kind = some d ∧ d.id = n.kind ∧ q.node? n.id = some m ∧ m.Restored d n
  /-- The wires are those that can be made between these nodes and are not followed by another one
  that can be made and leads into the same input. -/
  wires : q.wires.entries.map (·.2) = surviving q.admits s.wires

/-- Without hooks a snapshot is restored as far as it goes, if its kinds are declared. -/
theorem recreated_restore (hp : p.Sound) {s : Snapshot}
    (hkinds : ∀ n ∈ s.nodes, p.kinds.contains n.kind = true)
    (hnone : ∀ k, p.kinds.contains k = true →
      (p.behaviour k).onCreate = none ∧ (p.behaviour k).onUpdate = none) :
    ∃ q, p.restore s = .ok q ∧ p.Recreated s q := by
  obtain ⟨q, hq⟩ := exists_restore hkinds
  obtain ⟨r, hr, rfl⟩ := restore_cases hq
  obtain ⟨r', hr', ⟨hsound, hempty, hsame⟩, hids, hnodes⟩ :=
    restoreNodes_last hp fun n hn => ⟨hkinds n hn, (hnone n.kind (hkinds n hn)).1⟩
  obtain rfl := Except.ok.inj (hr.symm.trans hr')
  have hhookless : r.Hookless := hookless_of_kinds hsound fun k hk => by
    rw [hsame.behaviour]
    exact (hnone k (by rwa [hsame.kinds] at hk)).2
  have hwires := Rewired.restoreWires hsound hempty hhookless s.wires
  have hadmits : (s.wires.foldl restoreWire r).admits = r.admits := funext hwires.admits_eq
  refine ⟨_, hq, hsame.trans hwires.sameKinds, ?_, fun before n after hs hlast => ?_, ?_⟩
  · rw [Graph.ids, hwires.nodes, ← hids]
    rfl
  · have hn : n ∈ s.nodes := hs ▸ List.mem_append_right _ List.mem_cons_self
    obtain ⟨d, hd⟩ := Option.isSome_iff_exists.1 (hkinds n hn)
    obtain ⟨m, hm, hrestored⟩ := hnodes before n after hs hlast d hd
    refine ⟨d, m, hd, hp.keyed n.kind d hd, ?_, hrestored⟩
    rw [Graph.node?, hwires.nodes]
    exact hm
  · rw [hwires.wires, hadmits]

end Patch

end Patchbay
