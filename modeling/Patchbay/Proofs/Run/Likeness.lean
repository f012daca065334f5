import Mathlib.Data.List.Nodup
import Patchbay.Proofs.Run.Filling

/-!
# Graphs that differ in the order of their wires

Two patches may have been wired in different orders. Then their wires have other numbers, but the
graphs are alike (`Graph.Alike`): they have the same wires, between nodes that agree in all that a
run uses. As long as control can only go one way from each port, all that depends on the order of
the wires is the order in which sources are pulled (`Engine.Mirrors`).

This order does not matter for what is filled in.

## Key results

- `mirrors_of_alike`: engines over built-in kinds whose graphs are alike
- `Mirrors.filled`: what a node is filled in with
- `Mirrors.grown_unique`: the outputs that are kept once all sources of a node are there
-/

namespace Patchbay

/-- What a run uses of a port. -/
def Port.essence (p : Port) : PortType × Option Value := (p.type, p.value)

/-- The nodes agree in kind, and in types and values of their ports. -/
structure Node.Alike (m n : Node) : Prop where
  kind : m.kind = n.kind
  inputs : m.inputs.map Port.essence = n.inputs.map Port.essence
  outputs : m.outputs.map Port.essence = n.outputs.map Port.essence
  flowOut : m.flowOut.map Port.essence = n.flowOut.map Port.essence

theorem Node.Alike.refl (n : Node) : n.Alike n := ⟨rfl, rfl, rfl, rfl⟩

namespace Graph

variable {g h : Graph}

/-- The wire is there, under some number. -/
def Wired (g : Graph) (w : Wire) : Prop := ∃ i, g.wires.find? i = some w

/-- The graphs have the same wires, and their nodes are alike. -/
structure Alike (g h : Graph) : Prop where
  conversions : g.conversions = h.conversions
  nodes : ∀ id, Option.Rel Node.Alike (g.node? id) (h.node? id)
  wires : ∀ w, g.Wired w ↔ h.Wired w

/-- Control can go only one way from each control output: `__flow_out` and the output ports that
carry control have one wire into `__flow_in` at most. -/
def FlowsOnce (g : Graph) : Prop :=
  ∀ x ∈ g.wires.entries, ∀ y ∈ g.wires.entries, x.2.isFlow = true → y.2.isFlow = true →
    x.2.source = y.2.source → x.2.sourcePort = y.2.sourcePort →
    x.2.sourcePort = flowOutName ∨
      (g.port? x.2.source x.2.sourcePort .output).any Port.isFlow = true →
    x.1 = y.1

theorem feeds_iff {m n : String} :
    g.Feeds m n ↔ ∃ w, g.Wired w ∧ w.isFlow = false ∧ w.source = m ∧ w.target = n := by
  constructor
  · rintro ⟨i, w, hw, hends⟩
    exact ⟨w, ⟨i, hw⟩, hends⟩
  · rintro ⟨w, ⟨i, hw⟩, hends⟩
    exact ⟨i, w, hw, hends⟩

/-- Where there is one wire at most, it does not matter that the first one is taken. -/
theorem find?_map_eq_some_iff {p : Wire → Bool}
    (hone : ∀ v w, g.Wired v → g.Wired w → p v = true → p w = true → v = w) {w : Wire} :
    (g.wireWith? p).map (·.2) = some w ↔ g.Wired w ∧ p w = true := by
  constructor
  · intro hw
    obtain ⟨⟨i, v⟩, hfind, rfl⟩ := Option.map_eq_some_iff.1 hw
    exact ⟨⟨i, Table.mem_entries_iff.1 (List.mem_of_find?_eq_some hfind)⟩,
      List.find?_some (p := fun x : WireId × Wire => p x.2) hfind⟩
  · rintro ⟨hw, hp⟩
    obtain ⟨i, hi⟩ := hw
    obtain ⟨⟨j, v⟩, hfind⟩ : ∃ x, g.wireWith? p = some x :=
      Option.isSome_iff_exists.1 (List.find?_isSome.2 ⟨(i, w), Table.mem_entries_iff.2 hi, hp⟩)
    have hv : g.Wired v := ⟨j, Table.mem_entries_iff.1 (List.mem_of_find?_eq_some hfind)⟩
    have hpv : p v = true := List.find?_some (p := fun x : WireId × Wire => p x.2) hfind
    rw [hfind, Option.map_some, hone v w hv ⟨i, hi⟩ hpv hp]

theorem wired_iff_mem {w : Wire} : g.Wired w ↔ w ∈ g.wires.entries.map (·.2) := by
  simp only [Wired, List.mem_map, Prod.exists, Table.mem_entries_iff, exists_eq_right]

/-- In sound wiring no two wires lead into one input port. -/
theorem Sound.eq_of_wired (hg : g.Sound) {v w : Wire} (hv : g.Wired v) (hw : g.Wired w)
    (htarget : v.target = w.target) (hport : v.targetPort = w.targetPort) : v = w := by
  obtain ⟨i, hi⟩ := hv
  obtain ⟨j, hj⟩ := hw
  obtain rfl : i = j := hg.single i j v w hi hj htarget hport
  exact Option.some.inj (hi.symm.trans hj)

/-- Graphs with the same nodes, and the same wires in another order. -/
theorem alike_of_perm (hconversions : g.conversions = h.conversions) (hnodes : g.nodes = h.nodes)
    (hwires : (g.wires.entries.map (·.2)).Perm (h.wires.entries.map (·.2))) : g.Alike h where
  conversions := hconversions
  nodes := by
    intro id
    unfold node?
    rw [hnodes]
    cases h.nodes.find? (·.id = id) with
    | none => exact .none
    | some n => exact .some (.refl n)
  wires := fun w => by rw [wired_iff_mem, wired_iff_mem, hwires.mem_iff]

namespace Alike

/-- A node is absent from both graphs, or there are two nodes that are alike. -/
theorem node?_cases (hgh : g.Alike h) (id : String) :
    (g.node? id = none ∧ h.node? id = none) ∨
      ∃ m n, g.node? id = some m ∧ h.node? id = some n ∧ m.Alike n := by
  have hrel := hgh.nodes id
  revert hrel
  generalize g.node? id = a
  generalize h.node? id = b
  rintro (hmn | _)
  · exact .inr ⟨_, _, rfl, rfl, hmn⟩
  · exact .inl ⟨rfl, rfl⟩

theorem feeds_iff (hgh : g.Alike h) {m n : String} : g.Feeds m n ↔ h.Feeds m n := by
  simp only [Graph.feeds_iff, hgh.wires]

/-- The two graphs have the same wire with a property, if there is one at most. -/
theorem wireWith? (hgh : g.Alike h) {p : Wire → Bool}
    (hone : ∀ v w, g.Wired v → g.Wired w → p v = true → p w = true → v = w) :
    (g.wireWith? p).map (·.2) = (h.wireWith? p).map (·.2) := by
  have hone' : ∀ v w, h.Wired v → h.Wired w → p v = true → p w = true → v = w :=
    fun v w hv hw => hone v w ((hgh.wires v).2 hv) ((hgh.wires w).2 hw)
  refine Option.ext fun w => ?_
  rw [find?_map_eq_some_iff hone, find?_map_eq_some_iff hone', hgh.wires]

/-- Control goes the same way from a control output. -/
theorem flowTarget? (hgh : g.Alike h) (hg : g.FlowsOnce) {node port : String}
    (hport : port = flowOutName ∨ (g.port? node port .output).any Port.isFlow = true) :
    g.flowTarget? node port = h.flowTarget? node port := by
  have hone : ∀ v w, g.Wired v → g.Wired w →
      (v.endsAt node port .output && v.isFlow) = true →
      (w.endsAt node port .output && w.isFlow) = true → v = w := by
    rintro v w ⟨i, hi⟩ ⟨j, hj⟩ hv hw
    simp only [Wire.endsAt, Bool.and_eq_true, decide_eq_true_eq] at hv hw
    obtain ⟨⟨rfl, rfl⟩, hvflow⟩ := hv
    obtain ⟨⟨hsource, hname⟩, hwflow⟩ := hw
    obtain rfl : i = j := hg (i, v) (Table.mem_entries_iff.2 hi) (j, w) (Table.mem_entries_iff.2 hj)
      hvflow hwflow hsource.symm hname.symm hport
    exact Option.some.inj (hi.symm.trans hj)
  have hsame := congrArg (Option.map Wire.target) (hgh.wireWith? hone)
  rwa [Option.map_map, Option.map_map] at hsame

/-- Output ports have the same types. -/
theorem type_port? (hgh : g.Alike h) (node name : String) :
    (g.port? node name .output).map (·.type) = (h.port? node name .output).map (·.type) := by
  have htype : ∀ p q : Option Port, p.map Port.essence = q.map Port.essence →
      p.map (·.type) = q.map (·.type) := by
    intro p q hpq
    have h := congrArg (Option.map Prod.fst) hpq
    rwa [Option.map_map, Option.map_map] at h
  unfold port?
  obtain ⟨hm, hn⟩ | ⟨m, n, hm, hn, hmn⟩ := hgh.node?_cases node
  · rw [hm, hn]
  · rw [hm, hn]
    simp only [Option.bind_eq_bind, Option.bind_some, Node.port?]
    split
    · exact htype _ _ hmn.flowOut
    · refine htype _ _ ?_
      rw [← Table.find?_map, ← Table.find?_map, hmn.outputs]

end Alike

theorem find?_dataWires (g : Graph) (node name : String) :
    ((g.dataWires node).find? fun x => x.2.targetPort = name) =
      g.wireWith? fun w => (w.target = node && !w.isFlow) && w.targetPort = name := by
  rw [dataWires, wiresWith, List.find?_filter, Graph.wireWith?]
  congr 1
  funext x
  rw [Bool.decide_and, Bool.decide_eq_true, Bool.decide_eq_true]

/-- In sound wiring the same wire brings the value of an input port. -/
theorem Alike.find?_dataWires (hgh : g.Alike h) (hg : g.Sound) (node name : String) :
    ((g.dataWires node).find? fun x => x.2.targetPort = name).map (·.2) =
      ((h.dataWires node).find? fun x => x.2.targetPort = name).map (·.2) := by
  rw [Graph.find?_dataWires, Graph.find?_dataWires]
  refine hgh.wireWith? fun v w hv hw hends hends' => ?_
  simp only [Bool.and_eq_true, decide_eq_true_eq] at hends hends'
  exact hg.eq_of_wired hv hw (hends.1.1.trans hends'.1.1.symm) (hends.2.trans hends'.2.symm)

end Graph

namespace Builtin

/-- Built-in kinds are told apart by their ids. -/
theorem eq_of_id {k l : Kind} (hk : k ∈ all) (hl : l ∈ all)
    (h : k.declaration.id = l.declaration.id) : k = l := by
  have hnodup : (all.map (·.declaration.id)).Nodup := by decide
  exact List.inj_on_of_nodup_map hnodup hk hl h

/-- What a built-in kind calculates depends on the inputs, and on the id of its node. -/
theorem calculate_congr {k : Kind} (hk : k ∈ all) {v v' : Evaluation} (hid : v.node.id = v'.node.id)
    (hinputs : v.inputs = v'.inputs) : k.behaviour.calculate v = k.behaviour.calculate v' := by
  obtain ⟨node, graph, inputs, flows⟩ := v
  obtain ⟨node', graph', inputs', flows'⟩ := v'
  obtain rfl : inputs = inputs' := hinputs
  replace hid : node.id = node'.id := hid
  have harithmetic : ∀ id title op failure,
      (arithmetic id title op failure).behaviour.calculate ⟨node, graph, inputs, flows⟩ =
        (arithmetic id title op failure).behaviour.calculate ⟨node', graph', inputs, flows'⟩ := by
    intro id title op failure
    simp only [arithmetic, hid]
    rfl
  simp only [all, List.mem_cons, List.not_mem_nil, or_false] at hk
  rcases hk with rfl | rfl | rfl | rfl | rfl | rfl | rfl | rfl | rfl | rfl | rfl | rfl | rfl | rfl
  all_goals first
    | rfl
    | exact harithmetic _ _ _ _
    | (simp only [print, hid]; rfl)

end Builtin

namespace Engine

variable {e e' : Engine}

/-- In the two engines the nodes get the same inputs, calculate the same, and let control go on to
the same nodes. -/
structure Likens (e e' : Engine) (m n : Node) : Prop where
  inputs : ∀ outputs, e.inputsFrom outputs m = e'.inputsFrom outputs n
  script : ∀ inputs, e.script m inputs = e'.script n inputs
  flows : e.flows m = e'.flows n

/-- The two engines only differ in the order in which sources are pulled. -/
structure Mirrors (e e' : Engine) : Prop where
  feeds : ∀ m n, e.graph.Feeds m n ↔ e'.graph.Feeds m n
  usesFlow : ∀ id, e.graph.usesFlow id = e'.graph.usesFlow id
  next : ∀ id, e.graph.nextInFlow? id = e'.graph.nextInFlow? id
  nodes : ∀ id, (e.graph.node? id = none ∧ e'.graph.node? id = none) ∨
    ∃ m n, e.graph.node? id = some m ∧ e'.graph.node? id = some n ∧ e.Likens e' m n

section Alike

variable {id : String} {m n : Node}

/-- The value of an input port, which may come over a wire. -/
theorem inputValue_of_alike (halike : e.graph.Alike e'.graph) (hg : e.graph.Sound)
    (hm : e.graph.node? id = some m) (hn : e'.graph.node? id = some n)
    (outputs : String → PortValues) (name : String) {p q : Port} (hpq : p.essence = q.essence) :
    e.inputValue outputs m name p = e'.inputValue outputs n name q := by
  obtain ⟨htype, hvalue⟩ := Prod.mk.inj hpq
  have hwire := halike.find?_dataWires hg id name
  rw [inputValue, inputValue, Graph.id_of_node? hm, Graph.id_of_node? hn]
  cases hx : (e.graph.dataWires id).find? fun x => x.2.targetPort = name with
  | none =>
    rw [hx, Option.map_none] at hwire
    rw [Option.map_eq_none_iff.1 hwire.symm]
    simp only [Port.valueOrNull, hvalue]
  | some x =>
    rw [hx, Option.map_some] at hwire
    obtain ⟨y, hy, hxy⟩ := Option.map_eq_some_iff.1 hwire.symm
    rw [hy]
    simp only [hxy]
    -- The port at the other end has the same type, by which the value is converted.
    have hsource := halike.type_port? x.2.source x.2.sourcePort
    cases hs : e.graph.port? x.2.source x.2.sourcePort .output with
    | none =>
      rw [hs, Option.map_none] at hsource
      rw [Option.map_eq_none_iff.1 hsource.symm]
    | some source =>
      rw [hs, Option.map_some] at hsource
      obtain ⟨source', hs', hsame⟩ := Option.map_eq_some_iff.1 hsource.symm
      rw [hs']
      simp only [halike.conversions, hsame, htype]

theorem inputsFrom_of_alike (halike : e.graph.Alike e'.graph) (hg : e.graph.Sound)
    (hm : e.graph.node? id = some m) (hn : e'.graph.node? id = some n) (hmn : m.Alike n)
    (outputs : String → PortValues) : e.inputsFrom outputs m = e'.inputsFrom outputs n := by
  refine Table.ext_find? fun name => ?_
  rw [find?_inputsFrom, find?_inputsFrom]
  have hport : (m.inputs.find? name).map Port.essence = (n.inputs.find? name).map Port.essence := by
    rw [← Table.find?_map, ← Table.find?_map, hmn.inputs]
  cases hp : m.inputs.find? name with
  | none =>
    rw [hp, Option.map_none] at hport
    rw [Option.map_eq_none_iff.1 hport.symm]
    rfl
  | some p =>
    rw [hp, Option.map_some] at hport
    obtain ⟨q, hq, hpq⟩ := Option.map_eq_some_iff.1 hport.symm
    rw [hq, Option.map_some, Option.map_some,
      inputValue_of_alike halike hg hm hn outputs name hpq.symm]

/-- Where control goes from a port, if that carries control. -/
def flowOf (g : Graph) (node : String) (x : String × PortType × Option Value) :
    Option (String × String) :=
  if x.2.1.isFlow then (g.flowTarget? node x.1).map (x.1, ·) else none

theorem flows_of_alike (halike : e.graph.Alike e'.graph) (honce : e.graph.FlowsOnce)
    (hm : e.graph.node? id = some m) (hn : e'.graph.node? id = some n) (hmn : m.Alike n) :
    e.flows m = e'.flows n := by
  have hlist : ∀ (g : Graph) (node : Node),
      (node.outputs.entries.filterMap fun p =>
        if p.2.isFlow then (g.flowTarget? node.id p.1).map (p.1, ·) else none) =
      ((node.outputs.map Port.essence).entries).filterMap (flowOf g node.id) := by
    intro g node
    show _ = (node.outputs.entries.map fun p => (p.1, p.2.essence)).filterMap (flowOf g node.id)
    rw [List.filterMap_map]
    rfl
  unfold flows
  rw [hlist, hlist, ← hmn.outputs, Graph.id_of_node? hm, Graph.id_of_node? hn]
  congr 1
  refine List.filterMap_congr fun x hx => ?_
  unfold flowOf
  split
  next hflow =>
    rw [halike.flowTarget? honce ?_]
    by_cases hname : x.1 = flowOutName
    · exact .inl hname
    · -- The port is the one that is found under its name.
      have hfind : (m.outputs.map Port.essence).find? x.1 = some x.2 := Table.mem_entries_iff.1 hx
      rw [Table.find?_map] at hfind
      obtain ⟨p, hp, hpx⟩ := Option.map_eq_some_iff.1 hfind
      have hport : e.graph.port? id x.1 .output = some p := by
        simp only [Graph.port?, hm, Option.bind_eq_bind, Option.bind_some, Node.port?,
          if_neg hname, hp]
      refine .inr ?_
      rw [hport, Option.any_some, Port.isFlow, show p.type = x.2.1 from congrArg Prod.fst hpx]
      exact hflow
  next => rfl

theorem script_of_alike (hbuilt : e.BuiltIn) (hbuilt' : e'.BuiltIn) (hg : e.graph.Sound)
    (hg' : e'.graph.Sound) (hm : e.graph.node? id = some m) (hn : e'.graph.node? id = some n)
    (hmn : m.Alike n) (inputs : PortValues) : e.script m inputs = e'.script n inputs := by
  obtain ⟨k, hk, hid, _, hbehaviour⟩ := hbuilt.exists_kind hg hm
  obtain ⟨k', hk', hid', _, hbehaviour'⟩ := hbuilt'.exists_kind hg' hn
  obtain rfl : k = k' := Builtin.eq_of_id hk hk' (hid.trans (hmn.kind.trans hid'.symm))
  unfold script
  rw [hbehaviour, hbehaviour']
  exact Builtin.calculate_congr hk ((Graph.id_of_node? hm).trans (Graph.id_of_node? hn).symm) rfl

/-- Over built-in kinds, nothing but the order of pulling depends on the order of the wires. -/
theorem mirrors_of_alike (hbuilt : e.BuiltIn) (hbuilt' : e'.BuiltIn) (hg : e.graph.Sound)
    (hg' : e'.graph.Sound) (halike : e.graph.Alike e'.graph) (honce : e.graph.FlowsOnce) :
    e.Mirrors e' where
  feeds := fun _ _ => halike.feeds_iff
  usesFlow := by
    intro id
    obtain ⟨hm, hn⟩ | ⟨m, n, hm, hn, hmn⟩ := halike.node?_cases id
    · simp only [Graph.usesFlow, hm, hn]
    · obtain ⟨k, hk, hid, hkind, _⟩ := hbuilt.exists_kind hg hm
      obtain ⟨k', hk', hid', hkind', _⟩ := hbuilt'.exists_kind hg' hn
      obtain rfl : k = k' := Builtin.eq_of_id hk hk' (hid.trans (hmn.kind.trans hid'.symm))
      simp only [Graph.usesFlow, hm, hn, hkind, hkind']
  next := fun _ => halike.flowTarget? honce (.inl rfl)
  nodes := by
    intro id
    refine (halike.node?_cases id).imp_right ?_
    rintro ⟨m, n, hm, hn, hmn⟩
    exact ⟨m, n, hm, hn, fun outputs => inputsFrom_of_alike halike hg hm hn hmn outputs,
      script_of_alike hbuilt hbuilt' hg hg' hm hn hmn, flows_of_alike halike honce hm hn hmn⟩

end Alike

/-! ### What is filled in does not depend on the order -/

namespace Mirrors

variable {base : Table String PortValues} {goal : String}

theorem symm (h : e.Mirrors e') : e'.Mirrors e where
  feeds := fun m n => (h.feeds m n).symm
  usesFlow := fun id => (h.usesFlow id).symm
  next := fun id => (h.next id).symm
  nodes := fun id => by
    rcases h.nodes id with ⟨hm, hn⟩ | ⟨m, n, hm, hn, hmn⟩
    · exact .inl ⟨hn, hm⟩
    · exact .inr ⟨n, m, hn, hm, fun o => (hmn.inputs o).symm, fun i => (hmn.script i).symm,
        hmn.flows.symm⟩

theorem dependents (h : e.Mirrors e') {node x : String} :
    x ∈ e.graph.dependents node ↔ x ∈ e'.graph.dependents node := by
  have hpasses : e.graph.Passes = e'.graph.Passes := by
    funext m n
    simp only [Graph.Passes, h.feeds, h.usesFlow]
  rw [Graph.mem_dependents, Graph.mem_dependents, hpasses]

theorem filled (h : e.Mirrors e') {id : String} {out : PortValues}
    (hfilled : e.Filled base id out) : e'.Filled base id out := by
  induction hfilled with
  | kept hfind => exact .kept hfind
  | @calculated id node out outputs hnew hflow hm _ hyields ih =>
    obtain ⟨hm', _⟩ | ⟨m, n, hm', hn, hmn⟩ := h.nodes id
    · cases hm.symm.trans hm'
    · obtain rfl : node = m := Option.some.inj (hm.symm.trans hm')
      refine .calculated outputs hnew (h.usesFlow id ▸ hflow) hn
        (fun k hk => ih k ((h.feeds k id).2 hk)) ?_
      rwa [← hmn.inputs, ← hmn.script]

theorem wanted (h : e.Mirrors e') {x : String} (hx : e.Wanted base goal x) :
    e'.Wanted base goal x := by
  obtain ⟨m, hm, hpath⟩ := hx
  exact ⟨m, (h.feeds m goal).1 hm,
    Relation.ReflTransGen.mono (fun a b hab => ⟨(h.feeds a b).1 hab.1, hab.2⟩) x m hpath⟩

/-- Once the sources are there, the second engine has kept what the first one has. -/
theorem find?_of_grown (h : e.Mirrors e') {cache cache' : Table String PortValues}
    (hgrown : e.Grown base goal cache) (hgrown' : e'.Grown base goal cache')
    (hsources : ∀ m, e'.graph.Feeds m goal → ∃ out, cache'.find? m = some out) {x : String}
    {out : PortValues} (hx : cache.find? x = some out) : cache'.find? x = some out := by
  cases hb : base.find? x with
  | some o =>
    obtain rfl := Option.some.inj ((hgrown.kept x o hb).symm.trans hx)
    exact hgrown'.kept x o hb
  | none =>
    obtain ⟨o, ho⟩ := hgrown'.exists_of_wanted hsources (h.wanted (hgrown.wanted x out hx hb))
    rw [ho, (hgrown'.filled x o ho).unique (h.filled (hgrown.filled x out hx))]

/-- Outputs that were filled in from the same ones are the same, once all sources are there. -/
theorem grown_unique (h : e.Mirrors e') {cache cache' : Table String PortValues}
    (hgrown : e.Grown base goal cache) (hgrown' : e'.Grown base goal cache')
    (hsources : ∀ m, e.graph.Feeds m goal → ∃ out, cache.find? m = some out)
    (hsources' : ∀ m, e'.graph.Feeds m goal → ∃ out, cache'.find? m = some out) :
    cache = cache' := by
  refine Table.ext_find? fun x => Option.ext fun out => ⟨fun hx => ?_, fun hx => ?_⟩
  · exact h.find?_of_grown hgrown hgrown' hsources' hx
  · exact h.symm.find?_of_grown hgrown' hgrown hsources hx

end Mirrors

end Engine

end Patchbay
