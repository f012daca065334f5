import Patchbay.Proofs.Patch.Regular
import Patchbay.Proofs.Run.Likeness

/-!
# Wires that lead through a reroute

A wire can be replaced by two, the first one into a reroute and the second one out of it
(`Graph.Detours`). A path over wires that carry values then goes through the reroute exactly where it
went over the old wire, or ends there. So with the source of the wire in place of the reroute every
path is one of before (`Detours.upstream_bypass`), and nothing feeds itself that did not.

## Key results

- `Detours.feeds_bypass` / `Detours.exists_feeds_bypass`: which nodes feed each other
- `Detours.upstream` / `Detours.upstream_bypass`: what is upstream of what
- `Detours.not_above_self`: there are no new cycles
-/

namespace Patchbay

namespace Wire

/-- The part of the way through a reroute that leads into it. -/
def into (w : Wire) (r : String) : Wire := ⟨w.source, w.sourcePort, r, "in"⟩

/-- The part of the way through a reroute that leads out of it. -/
def outOf (w : Wire) (r : String) : Wire := ⟨r, "out", w.target, w.targetPort⟩

theorem isFlow_into (w : Wire) (r : String) : (w.into r).isFlow = false := by
  show decide ("in" = flowInName) = false
  decide

/-- The node itself, but in place of the reroute the node that the wire comes from. -/
def bypass (w : Wire) (r node : String) : String := if node = r then w.source else node

theorem bypass_self (w : Wire) (r : String) : w.bypass r r = w.source := if_pos rfl

theorem bypass_of_ne {w : Wire} {r node : String} (h : node ≠ r) : w.bypass r node = node :=
  if_neg h

end Wire

/-- The node `n` has the kind of `m`, and the same inputs with the same values. -/
structure Node.SameInputs (m n : Node) : Prop where
  kind : n.kind = m.kind
  values : n.inputs.map Port.value = m.inputs.map Port.value

namespace Graph

variable {g h : Graph} {w : Wire} {r : String}

/-- In sound wiring it is known which wire brings the value of an input port. -/
theorem Sound.find?_dataWires_iff (hg : g.Sound) {node name : String} {v : Wire} :
    (((g.dataWires node).find? fun x => x.2.targetPort = name).map (·.2)) = some v ↔
      g.Wired v ∧ v.isFlow = false ∧ v.target = node ∧ v.targetPort = name := by
  rw [find?_dataWires, find?_map_eq_some_iff]
  · simp only [Bool.and_eq_true, decide_eq_true_eq, Bool.not_eq_true']
    tauto
  · intro u v hu hv hends hends'
    simp only [Bool.and_eq_true, decide_eq_true_eq] at hends hends'
    exact hg.eq_of_wired hu hv (hends.1.1.trans hends'.1.1.symm) (hends.2.trans hends'.2.symm)

/-- What is not there is no end of a wire. -/
theorem Sound.ends_ne (hg : g.Sound) (hr : g.node? r = none) {v : Wire} (hv : g.Wired v) :
    v.source ≠ r ∧ v.target ≠ r := by
  obtain ⟨i, hi⟩ := hv
  obtain ⟨m, hm⟩ := node?_of_isSome_port? (hg.source i v hi)
  obtain ⟨n, hn⟩ := node?_of_isSome_port? (hg.target i v hi)
  constructor
  · rintro rfl
    cases hm.symm.trans hr
  · rintro rfl
    cases hn.symm.trans hr

/-- What counts as an input port under a name, other than that of control. -/
theorem port?_input {id name : String} {n : Node} (hn : g.node? id = some n)
    (hname : name ≠ flowInName) : g.port? id name .input = n.inputs.find? name := by
  rw [port?, hn, Option.bind_eq_bind, Option.bind_some, Node.port?, if_neg hname]

theorem typeOf?_input {id name : String} {n : Node} {p : Port} (hn : g.node? id = some n)
    (hname : name ≠ flowInName) (hp : n.inputs.find? name = some p) :
    g.typeOf? id name .input = some p.type := by
  rw [typeOf?, port?_input hn hname, hp, Option.map_some]

/-- The ports that the nodes of `g` have are there in `h`, with the same types; the node `r` does not
count. -/
def KeepsPorts (g h : Graph) (r : String) : Prop :=
  ∀ id name side t, id ≠ r → g.typeOf? id name side = some t → h.typeOf? id name side = some t

/-- The nodes of `g` have the same inputs in `h`, with the same values; the node `r` does not count. -/
def KeepsValues (g h : Graph) (r : String) : Prop :=
  ∀ id m n, id ≠ r → g.node? id = some m → h.node? id = some n →
    n.inputs.map Port.value = m.inputs.map Port.value

/-- In `h` the wire `w` of `g`, which carries values, leads through the reroute `r`. The other nodes
keep their kinds, the types of their ports, and the values of their inputs. -/
structure Detours (g h : Graph) (w : Wire) (r : String) : Prop where
  conversions : h.conversions = g.conversions
  wired : g.Wired w
  data : w.isFlow = false
  wires : ∀ v, h.Wired v ↔ v = w.into r ∨ v = w.outOf r ∨ g.Wired v ∧ v ≠ w
  fresh : g.node? r = none
  nodes : ∀ id, id ≠ r → (g.node? id = none ∧ h.node? id = none) ∨
    ∃ m n, g.node? id = some m ∧ h.node? id = some n ∧ m.SameInputs n
  types : g.KeepsPorts h r
  usesFlow : ∀ id, h.usesFlow id = if id = r then false else g.usesFlow id
  reroute : h.kindOf? r = some "reroute"
  /-- The reroute has the type of the port that the wire comes from. -/
  type : ∃ t, g.typeOf? w.source w.sourcePort .output = some t ∧
    h.typeOf? r "in" .input = some t ∧ h.typeOf? r "out" .output = some t

namespace Detours

variable (hd : g.Detours h w r) (hg : g.Sound)
include hd

/-- What was a node before is one with the same inputs. -/
theorem exists_node {id : String} {m : Node} (hid : id ≠ r) (hm : g.node? id = some m) :
    ∃ n, h.node? id = some n ∧ m.SameInputs n := by
  obtain ⟨hnone, _⟩ | ⟨m', n, hm', hn, hmn⟩ := hd.nodes id hid
  · cases hm.symm.trans hnone
  · obtain rfl := Option.some.inj (hm.symm.trans hm')
    exact ⟨n, hn, hmn⟩

/-- What is a node now, but for the reroute, was one with the same inputs. -/
theorem exists_node_before {id : String} {n : Node} (hid : id ≠ r) (hn : h.node? id = some n) :
    ∃ m, g.node? id = some m ∧ m.SameInputs n := by
  obtain ⟨_, hnone⟩ | ⟨m, n', hm, hn', hmn⟩ := hd.nodes id hid
  · cases hn.symm.trans hnone
  · obtain rfl := Option.some.inj (hn.symm.trans hn')
    exact ⟨m, hm, hmn⟩

theorem feeds_iff {a b : String} : h.Feeds a b ↔
    a = w.source ∧ b = r ∨ a = r ∧ b = w.target ∨
      ∃ v, g.Wired v ∧ v ≠ w ∧ v.isFlow = false ∧ v.source = a ∧ v.target = b := by
  rw [Graph.feeds_iff]
  constructor
  · rintro ⟨v, hv, hflow, rfl, rfl⟩
    rcases (hd.wires v).1 hv with rfl | rfl | ⟨hv, hne⟩
    · exact .inl ⟨rfl, rfl⟩
    · exact .inr (.inl ⟨rfl, rfl⟩)
    · exact .inr (.inr ⟨v, hv, hne, hflow, rfl, rfl⟩)
  · rintro (⟨rfl, rfl⟩ | ⟨rfl, rfl⟩ | ⟨v, hv, hne, hflow, hends⟩)
    · exact ⟨_, (hd.wires _).2 (.inl rfl), w.isFlow_into _, rfl, rfl⟩
    · exact ⟨_, (hd.wires _).2 (.inr (.inl rfl)), hd.data, rfl, rfl⟩
    · exact ⟨v, (hd.wires v).2 (.inr (.inr ⟨hv, hne⟩)), hflow, hends⟩

/-- What was upstream of a node still is. -/
theorem upstream {a b : String} (hab : g.Upstream a b) : h.Upstream a b := by
  induction hab with
  | refl => exact .refl
  | @tail b c _ hbc ih =>
    refine ih.trans ?_
    obtain ⟨v, hv, hflow, rfl, rfl⟩ := Graph.feeds_iff.1 hbc
    by_cases hvw : v = w
    · subst hvw
      exact (Relation.ReflTransGen.single (hd.feeds_iff.2 (.inl ⟨rfl, rfl⟩))).tail
        (hd.feeds_iff.2 (.inr (.inl ⟨rfl, rfl⟩)))
    · exact .single (hd.feeds_iff.2 (.inr (.inr ⟨v, hv, hvw, hflow, rfl, rfl⟩)))

include hg

/-- The reroute is no end of a wire of the first graph. -/
theorem ends_ne {v : Wire} (hv : g.Wired v) : v.source ≠ r ∧ v.target ≠ r :=
  hg.ends_ne hd.fresh hv

/-- Seen without the reroute, the same nodes feed each other. -/
theorem feeds_bypass {a b : String} (hab : h.Feeds a b) :
    a = w.source ∧ b = r ∨ b ≠ r ∧ g.Feeds (w.bypass r a) (w.bypass r b) := by
  have hsource := (hd.ends_ne hg hd.wired).1
  have htarget := (hd.ends_ne hg hd.wired).2
  rcases hd.feeds_iff.1 hab with hinto | ⟨rfl, rfl⟩ | ⟨v, hv, _, hflow, rfl, rfl⟩
  · exact .inl hinto
  · refine .inr ⟨htarget, ?_⟩
    rw [Wire.bypass_self, Wire.bypass_of_ne htarget]
    exact Graph.feeds_iff.2 ⟨w, hd.wired, hd.data, rfl, rfl⟩
  · obtain ⟨hs, ht⟩ := hd.ends_ne hg hv
    refine .inr ⟨ht, ?_⟩
    rw [Wire.bypass_of_ne hs, Wire.bypass_of_ne ht]
    exact Graph.feeds_iff.2 ⟨v, hv, hflow, rfl, rfl⟩

theorem feeds_bypass_of_ne {a b : String} (hb : b ≠ r) (hab : h.Feeds a b) :
    g.Feeds (w.bypass r a) b := by
  obtain ⟨_, hr⟩ | ⟨_, hbefore⟩ := hd.feeds_bypass hg hab
  · exact absurd hr hb
  · rwa [Wire.bypass_of_ne hb] at hbefore

/-- What fed a node still does, or the reroute does in its place. -/
theorem exists_feeds_bypass {a b : String} (hb : b ≠ r) (hab : g.Feeds a b) :
    ∃ c, h.Feeds c b ∧ w.bypass r c = a := by
  obtain ⟨v, hv, hflow, rfl, rfl⟩ := Graph.feeds_iff.1 hab
  by_cases hvw : v = w
  · subst hvw
    exact ⟨r, hd.feeds_iff.2 (.inr (.inl ⟨rfl, rfl⟩)), Wire.bypass_self _ _⟩
  · exact ⟨v.source, hd.feeds_iff.2 (.inr (.inr ⟨v, hv, hvw, hflow, rfl, rfl⟩)),
      Wire.bypass_of_ne (hd.ends_ne hg hv).1⟩

theorem upstream_bypass {a b : String} (hab : h.Upstream a b) :
    g.Upstream (w.bypass r a) (w.bypass r b) := by
  induction hab with
  | refl => exact .refl
  | @tail b c _ hbc ih =>
    rcases hd.feeds_bypass hg hbc with ⟨rfl, rfl⟩ | ⟨_, hfeeds⟩
    -- The step into the reroute does not move at all, as that counts as the source.
    · rwa [Wire.bypass_self, ← Wire.bypass_of_ne (hd.ends_ne hg hd.wired).1]
    · exact ih.tail hfeeds

/-- A way from one node to another is a way without the reroute, or leads just into that. -/
theorem above_bypass {a b : String} (hab : h.Above a b) :
    a = w.source ∧ b = r ∨ g.Above (w.bypass r a) (w.bypass r b) := by
  have hsource := (hd.ends_ne hg hd.wired).1
  induction hab with
  | single hab => exact (hd.feeds_bypass hg hab).imp_right fun h => .single h.2
  | @tail b c _ hbc ih =>
    right
    rcases hd.feeds_bypass hg hbc with ⟨rfl, rfl⟩ | ⟨_, hfeeds⟩
    · rcases ih with ⟨_, hsame⟩ | ih
      · exact absurd hsame hsource
      · rwa [Wire.bypass_self, ← Wire.bypass_of_ne hsource]
    · rcases ih with ⟨rfl, rfl⟩ | ih
      · rw [Wire.bypass_self] at hfeeds
        rw [Wire.bypass_of_ne hsource]
        exact .single hfeeds
      · exact ih.tail hfeeds

/-- Nothing feeds itself that did not before. -/
theorem not_above_self {a : String} (ha : ¬ g.Above (w.bypass r a) (w.bypass r a)) :
    ¬ h.Above a a := fun hab =>
  (hd.above_bypass hg hab).elim
    (fun ⟨hs, hr⟩ => (hd.ends_ne hg hd.wired).1 (hs.symm.trans hr)) ha

end Detours

end Graph

end Patchbay
