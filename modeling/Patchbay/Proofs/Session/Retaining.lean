import Patchbay.Builtin.Print
import Patchbay.Builtin.Source
import Patchbay.Proofs.Patch.Recreating
import Patchbay.Proofs.Patch.RoundTrip
import Patchbay.Proofs.Session.Sound

/-!
# Values that snapshots retain

A snapshot has the values of the ordinary ports that have one, and a restored node starts with the
values of its declaration. So a port that was left without a value has its first one again, and the
value of a control port is not retained at all. Every other port has the value it had.

## Key results

- `Node.Restored.value_eq`: the value of each port of a restored node
- `values_of_reachable`: which ports have their values again after a snapshot was restored
-/

namespace Patchbay

namespace Node

variable {d : Declaration} {n m : Node} {name : String} {side : Side} {b c : Port}

/-- The value that the snapshot of a node has under the name of a port. -/
def retained (n : Node) (name : String) (side : Side) : Option Value :=
  ((n.ports side).find? name).bind (·.value)

theorem retained_of_ne (hname : name ≠ side.controlName) (hb : n.port? name side = some b) :
    n.retained name side = b.value := by
  rw [retained, ← n.port?_of_ne hname, hb]
  rfl

/-- The value that a port of a restored node has: the one of the snapshot, or else the declared one.
-/
def regained (d : Declaration) (n : Node) (name : String) (side : Side) : Option Value :=
  (n.retained name side).or ((d.start name side).bind (·.value))

/-- What the restored node has under the name of a port. -/
theorem Restored.value_eq (hm : m.Restored d (.ofNode n)) (name : String) (side : Side) :
    (m.port? name side).map (·.value) =
      (d.start name side).map fun _ => n.regained d name side := by
  have hvalue : ((NodeState.ofNode n).values side).find? name = n.retained name side := by
    rw [values_ofNode, Table.find?_filterMap]
    rfl
  rw [hm.port, hvalue, regained]
  cases d.start name side <;> rfl

/-- A change of a port takes no port away and adds none. -/
theorem isSome_port?_revisePort (n : Node) (name j : String) (side t : Side) (f : Port → Port) :
    ((n.revisePort name side f).port? j t).isSome = (n.port? j t).isSome := by
  rw [port?_revisePort]
  split
  · exact Option.isSome_map
  · rfl

/-- Control ports start without a value. -/
theorem start_controlName (d : Declaration) (side : Side) :
    (d.start side.controlName side).bind (·.value) = none := by
  have hport : ∀ entry : Bool,
      (if entry then some controlPort else none : Option Port).bind (·.value) = none := by
    intro entry
    cases entry <;> rfl
  cases side
  · exact hport d.flow.hasEntry
  · exact hport d.flow.hasExit

/-- When a port has its value again: an ordinary port unless it had none where one is declared, and
a control port if it had the value of the ordinary port behind it, if there is one. -/
theorem regained_eq_iff (hb : n.port? name side = some b) :
    n.regained d name side = b.value ↔
      if name = side.controlName then b.value = n.retained name side
      else b.value = none → (d.start name side).bind (·.value) = none := by
  split
  next hname => rw [regained, hname, start_controlName, Option.or_none, eq_comm]
  next hname =>
    rw [regained, retained_of_ne hname hb]
    cases b.value with
    | none => exact ⟨fun h _ => h, fun h => h rfl⟩
    | some v => exact ⟨fun _ h => (by cases h), fun _ => rfl⟩

end Node

namespace Patch

open Patchbay.Graph

variable {p q : Patch}

/-- The snapshot lists each node once. -/
theorem exists_split_snapshot (hp : p.Sound) {id : String} {n : Node} (hn : p.node? id = some n) :
    ∃ before after, p.snapshot.nodes = before ++ .ofNode n :: after ∧ ∀ m ∈ after, m.id ≠ id := by
  obtain ⟨before, after, hnodes⟩ := List.append_of_mem (List.mem_of_find?_eq_some hn)
  refine ⟨before.map .ofNode, after.map .ofNode, ?_, fun m hm => ?_⟩
  · rw [Graph.snapshot, hnodes, List.map_append, List.map_cons]
  · obtain ⟨k, hk, rfl⟩ := List.mem_map.1 hm
    have hnodup : (p.nodes.map (·.id)).Nodup := hp.nodup
    rw [hnodes, List.map_append, List.map_cons, List.nodup_append] at hnodup
    obtain ⟨hnot, -⟩ := List.nodup_cons.1 hnodup.2.1
    rw [id_of_node? hn] at hnot
    exact fun heq => hnot (heq ▸ List.mem_map_of_mem hk)

theorem eraseDups_of_nodup {ids : List String} (h : ids.Nodup) : ids.eraseDups = ids := by
  induction ids using List.reverseRec with
  | nil => rfl
  | append_singleton ids id ih =>
    obtain ⟨hids, -, hdisjoint⟩ := List.nodup_append.1 h
    rw [eraseDups_concat, if_neg fun hmem => hdisjoint id hmem id List.mem_cons_self rfl, ih hids]

/-- Where there are no hooks, a patch is restored in the place of another one node by node. -/
theorem restored_snapshot (hp : p.Sound) (hq : q.Sound) (hkinds : q.kinds = p.kinds)
    (hnone : ∀ k, q.kinds.contains k = true →
      (q.behaviour k).onCreate = none ∧ (q.behaviour k).onUpdate = none) :
    ∃ r, q.restore p.snapshot = .ok r ∧ r.ids = p.ids ∧
      ∀ id n, p.node? id = some n → ∃ d m, p.kinds.find? n.kind = some d ∧
        r.node? id = some m ∧ m.Restored d (.ofNode n) := by
  have hdeclared : ∀ s ∈ p.snapshot.nodes, q.kinds.contains s.kind = true := by
    intro s hs
    obtain ⟨n, hn, rfl⟩ := List.mem_map.1 hs
    rw [hkinds]
    exact hp.declared n.id n (node?_of_mem hp.nodup hn)
  obtain ⟨r, hr, hrecreated⟩ := recreated_restore hq hdeclared hnone
  refine ⟨r, hr, ?_, fun id n hn => ?_⟩
  · have hids : p.snapshot.nodes.map (·.id) = p.ids := List.map_map
    rw [hrecreated.ids, hids, eraseDups_of_nodup hp.nodup]
  · obtain ⟨before, after, hnodes, hafter⟩ := exists_split_snapshot hp hn
    have hid : (NodeState.ofNode n).id = id := id_of_node? hn
    obtain ⟨d, m, hd, -, hm, hrestored⟩ :=
      hrecreated.node before (.ofNode n) after hnodes (hid ▸ hafter)
    exact ⟨d, m, hkinds ▸ hd, hid ▸ hm, hrestored⟩

end Patch

namespace Session

open Patch

/-- In every two sessions with the same kinds, none of them with hooks: the snapshot of the one,
whose nodes have the ports of their kinds, is restored in the other to nodes with the same ids and
ports. An ordinary port has the value it had, unless it had none where its kind declares one, which
it then has. A control port has the value of the ordinary port behind it, if there is one, and
otherwise none. -/
theorem values_of_reachable {s t : Session} (hs : s.Reachable) (ht : t.Reachable)
    (hkinds : t.patch.kinds = s.patch.kinds)
    (hnone : ∀ k, t.patch.kinds.contains k = true →
      (t.patch.behaviour k).onCreate = none ∧ (t.patch.behaviour k).onUpdate = none)
    (hports : ∀ id n d, s.patch.node? id = some n → s.patch.kinds.find? n.kind = some d →
      ∀ name side, (n.port? name side).isSome = (d.start name side).isSome) :
    ∃ q, t.patch.restore s.patch.snapshot = .ok q ∧ q.ids = s.patch.ids ∧
      ∀ id n, s.patch.node? id = some n → ∃ d m, s.patch.kinds.find? n.kind = some d ∧
        q.node? id = some m ∧
        ∀ name side, (m.port? name side).isSome = (n.port? name side).isSome ∧
          ∀ b c, n.port? name side = some b → m.port? name side = some c →
            c.value = n.regained d name side ∧
              (c.value = b.value ↔
                if name = side.controlName then b.value = n.retained name side
                else b.value = none → (d.start name side).bind (·.value) = none) := by
  obtain ⟨q, hq, hids, hnodes⟩ :=
    restored_snapshot (wired_of_reachable hs).sound (wired_of_reachable ht).sound hkinds hnone
  refine ⟨q, hq, hids, fun id n hn => ?_⟩
  obtain ⟨d, m, hd, hm, hrestored⟩ := hnodes id n hn
  refine ⟨d, m, hd, hm, fun name side => ?_⟩
  have hsome := hports id n d hn hd name side
  have hvalue := hrestored.value_eq name side
  refine ⟨?_, fun b c hb hc => ?_⟩
  · have h := congrArg Option.isSome hvalue
    rwa [Option.isSome_map, Option.isSome_map, ← hsome] at h
  · rw [hb, Option.isSome_some, eq_comm] at hsome
    obtain ⟨a, ha⟩ := Option.isSome_iff_exists.1 hsome
    rw [hc, ha] at hvalue
    have hvalue : c.value = n.regained d name side := Option.some.inj hvalue
    exact ⟨hvalue, hvalue ▸ Node.regained_eq_iff hb⟩

/-- The edits of a number `n` and a print node `p`: one value is taken away, one is null, and one is
given to a control port. -/
def forgettingEdits : List Operation :=
  [.edit "n" (.revisePort "value" .input fun a => { a with value := none }),
    .edit "n" (.setValue "value" .output (.bool true)), .edit "p" (.setValue "value" .input .null),
    .edit "p" (.setValue flowInName .input (.bool true))]

/-- A session whose snapshot does not retain all values. -/
def forgetting : Session :=
  (start true .base 1).performAll ([.declare Builtin.number, .declare Builtin.print,
    .insert "number" "n" .origin, .insert "print" "p" .origin] ++ forgettingEdits)

theorem reachable_forgetting : forgetting.Reachable :=
  Reaches.performAll (.start true .base 1) (by decide +kernel)

theorem hookless_forgetting (k : String) (hk : forgetting.patch.kinds.contains k = true) :
    (forgetting.patch.behaviour k).onCreate = none ∧
      (forgetting.patch.behaviour k).onUpdate = none := by
  have hkeys : forgetting.patch.kinds.keys = ["number", "print"] := rfl
  have hmem := Table.mem_keys_iff.2 hk
  rw [hkeys] at hmem
  rcases List.mem_cons.1 hmem with rfl | hmem
  · exact ⟨rfl, rfl⟩
  · obtain rfl := List.mem_singleton.1 hmem
    exact ⟨rfl, rfl⟩

/-- The nodes have the ports of their kinds, with other values. -/
theorem ported_forgetting (id : String) (n : Node) (d : Declaration)
    (hn : forgetting.patch.node? id = some n)
    (hd : forgetting.patch.kinds.find? n.kind = some d) (name : String) (side : Side) :
    (n.port? name side).isSome = (d.start name side).isSome := by
  have hnodes : forgetting.patch.nodes =
      [((Node.ofDeclaration Builtin.number.declaration "n" .origin).revisePort "value" .input
          fun a => { a with value := none }).revisePort "value" .output
          fun a => { a with value := some (.bool true) },
        ((Node.ofDeclaration Builtin.print.declaration "p" .origin).revisePort "value" .input
          fun a => { a with value := some .null }).revisePort flowInName .input
          fun a => { a with value := some (.bool true) }] := rfl
  have hmem := List.mem_of_find?_eq_some hn
  rw [hnodes] at hmem
  rcases List.mem_cons.1 hmem with rfl | hmem
  · obtain rfl := Option.some.inj ((rfl : _ = some Builtin.number.declaration).symm.trans hd)
    rw [Node.isSome_port?_revisePort, Node.isSome_port?_revisePort, Node.port?_ofDeclaration]
  · obtain rfl := List.mem_singleton.1 hmem
    obtain rfl := Option.some.inj ((rfl : _ = some Builtin.print.declaration).symm.trans hd)
    rw [Node.isSome_port?_revisePort, Node.isSome_port?_revisePort, Node.port?_ofDeclaration]

/-- A value that is null is null again, and a port that never had a value has none again. -/
theorem values_forgetting : forgetting.Reachable ∧
    ∃ q, forgetting.patch.restore forgetting.patch.snapshot = .ok q ∧
      (q.port? "p" "value" .input).map (·.value) = some (some .null) ∧
      (q.port? "n" "value" .output).map (·.value) = some (some (.bool true)) ∧
      (q.port? "p" flowOutName .output).map (·.value) = some none := by
  obtain ⟨q, hq, -, hnodes⟩ := values_of_reachable reachable_forgetting reachable_forgetting rfl
    hookless_forgetting ported_forgetting
  have hkept : ∀ id n name side b, forgetting.patch.node? id = some n → n.port? name side = some b →
      (if name = side.controlName then b.value = n.retained name side else b.value.isSome = true) →
      (q.port? id name side).map (·.value) = some b.value := by
    intro id n name side b hn hb hvalue
    obtain ⟨d, m, -, hm, hports⟩ := hnodes id n hn
    obtain ⟨hsome, hport⟩ := hports name side
    rw [hb, Option.isSome_some] at hsome
    obtain ⟨c, hc⟩ := Option.isSome_iff_exists.1 hsome
    have hsame : c.value = b.value := (hport b c hb hc).2.2 (by
      split
      next hname => rwa [if_pos hname] at hvalue
      next hname =>
        rw [if_neg hname] at hvalue
        intro hnone
        rw [hnone] at hvalue
        cases hvalue)
    rw [Graph.port?, hm]
    show (m.port? name side).map (·.value) = _
    rw [hc, Option.map_some, hsame]
  exact ⟨reachable_forgetting, q, hq, hkept "p" _ "value" .input _ rfl rfl rfl,
    hkept "n" _ "value" .output _ rfl rfl rfl, hkept "p" _ flowOutName .output _ rfl rfl rfl⟩

/-- Nothing has hooks and all nodes have the ports of their kinds, but of four values that the
snapshot should retain two are lost: the port without a value has one again, and the control port
has none. -/
theorem forgotten_values : forgetting.Reachable ∧
    (∀ k, forgetting.patch.kinds.contains k = true →
      (forgetting.patch.behaviour k).onCreate = none ∧
        (forgetting.patch.behaviour k).onUpdate = none) ∧
    (∀ id n d, forgetting.patch.node? id = some n → forgetting.patch.kinds.find? n.kind = some d →
      ∀ name side, (n.port? name side).isSome = (d.start name side).isSome) ∧
    (forgetting.patch.port? "n" "value" .input).map (·.value) = some none ∧
    (forgetting.patch.port? "p" flowInName .input).map (·.value) = some (some (.bool true)) ∧
    ∃ q, forgetting.patch.restore forgetting.patch.snapshot = .ok q ∧
      (q.port? "n" "value" .input).map (·.value) = some (some (.ofNat 0)) ∧
      (q.port? "p" flowInName .input).map (·.value) = some none :=
  ⟨reachable_forgetting, hookless_forgetting, ported_forgetting, rfl, rfl, _, rfl, rfl, rfl⟩

end Session

end Patchbay
