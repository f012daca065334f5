import Patchbay.Builtin.Reroute
import Patchbay.Proofs.Run.Detour
import Patchbay.Proofs.Run.Failing

/-!
# Evaluations through a reroute

A wire may be led through a reroute. If both ports of the reroute have the type of the port that the
wire comes from, then what arrives at the reroute is converted to the type that it has already, and
so stays as it is; the second part of the way converts it as the wire did. So all other nodes get
the same inputs (`Detours.inputsFrom`), and if these decide about what they calculate, evaluations
afresh do not see the difference.

Nor do runs, though they pull sources in another order: they end with the outputs of evaluations
afresh, or fail where there are none.

## Key results

- `Detours.afresh_iff`: nodes have the same outputs afresh
- `Detours.runNode`: runs of a node end alike
-/

namespace Patchbay

namespace Wire

/-- The given outputs, with a reroute that hands on what the wire brings. -/
def through (w : Wire) (r : String) (outputs : String → PortValues) (node : String) : PortValues :=
  if node = r then .singleton "out" (((outputs w.source).find? w.sourcePort).getD .null)
  else outputs node

theorem through_self (w : Wire) (r : String) (outputs : String → PortValues) : w.through r outputs r =
    .singleton "out" (((outputs w.source).find? w.sourcePort).getD .null) :=
  if_pos rfl

theorem through_of_ne {w : Wire} {r node : String} (h : node ≠ r) (outputs : String → PortValues) :
    w.through r outputs node = outputs node :=
  if_neg h

/-- For one node only one of the outputs counts. -/
theorem through_bypass (w : Wire) (r : String) (outputs : String → PortValues) (node : String) :
    w.through r (fun _ => outputs (w.bypass r node)) node = w.through r outputs node := by
  by_cases hnode : node = r
  · subst hnode
    rw [through_self, through_self, bypass_self]
  · rw [through_of_ne hnode, through_of_ne hnode, bypass_of_ne hnode]

end Wire

theorem Conversions.convert_self (c : Conversions) (t : PortType) (v : Value) :
    c.convert t t v = v := by
  simp only [convert, compatibility, if_true]
  rfl

namespace Engine

variable {e e' : Engine} {w : Wire} {r id : String} {outputs : String → PortValues}

/-- The second engine runs the same nodes, with a wire that leads through a reroute. -/
structure Detours (e e' : Engine) (w : Wire) (r : String) : Prop where
  graph : e.graph.Detours e'.graph w r
  sound : e.graph.Sound
  sound' : e'.graph.Sound
  behaviour : e'.behaviour = e.behaviour
  reroute : e.behaviour "reroute" = Builtin.reroute.behaviour

/-! ### Inputs -/

/-- The value that a wire brings to an input port. -/
theorem inputValue_of_wired (hg : e.graph.Sound) {v : Wire} (hv : e.graph.Wired v)
    (hflow : v.isFlow = false) {n : Node} (hn : v.target = n.id) {t : PortType}
    (ht : e.graph.typeOf? v.source v.sourcePort .output = some t) (p : Port)
    (outputs : String → PortValues) :
    e.inputValue outputs n v.targetPort p = e.graph.conversions.convert t p.type
      (((outputs v.source).find? v.sourcePort).getD .null) := by
  obtain ⟨⟨i, u⟩, hfind, rfl⟩ := Option.map_eq_some_iff.1
    (hg.find?_dataWires_iff.2 ⟨hv, hflow, hn, rfl⟩)
  obtain ⟨s, hs, rfl⟩ := Option.map_eq_some_iff.1 ht
  simp only [inputValue, hfind, hs]

/-- Without a wire an input port has its own value. -/
theorem inputValue_of_not_wired (hg : e.graph.Sound) {n : Node} {name : String}
    (hnone : ¬ ∃ v, e.graph.Wired v ∧ v.isFlow = false ∧ v.target = n.id ∧ v.targetPort = name)
    (p : Port) : e.inputValue outputs n name p = p.valueOrNull := by
  cases hfind : (e.graph.dataWires n.id).find? fun x => x.2.targetPort = name with
  | none => simp only [inputValue, hfind]
  | some x =>
    exact absurd ⟨x.2, hg.find?_dataWires_iff.1 (by rw [hfind, Option.map_some])⟩ hnone

namespace Detours

variable (hd : e.Detours e' w r)
include hd

/-- A wire brings what it brought, and in the place of the old wire the way through the reroute
does. -/
theorem inputValue_of_wire {v : Wire} (hv : e.graph.Wired v) (hflow : v.isFlow = false)
    {m n : Node} (hm : v.target = m.id) (hn : v.target = n.id) {p q : Port} (htype : q.type = p.type)
    (outputs : String → PortValues) :
    e'.inputValue (w.through r outputs) n v.targetPort q = e.inputValue outputs m v.targetPort p := by
  by_cases hvw : v = w
  · subst hvw
    obtain ⟨t, hsource, _, hvia⟩ := hd.graph.type
    have hafter := inputValue_of_wired hd.sound' ((hd.graph.wires (v.outOf r)).2 (.inr (.inl rfl)))
      hflow hn hvia q (v.through r outputs)
    refine hafter.trans ?_
    rw [inputValue_of_wired hd.sound hv hflow hm hsource, hd.graph.conversions, htype]
    -- The reroute has the one output that leads on.
    show Conversions.convert _ _ _ (((v.through r outputs r).find? "out").getD .null) = _
    rw [Wire.through_self, Table.singleton, Table.find?_insert, if_pos rfl, Option.getD_some]
  · have hkept : e'.graph.Wired v := (hd.graph.wires v).2 (.inr (.inr ⟨hv, hvw⟩))
    have hne := (hd.graph.ends_ne hd.sound hv).1
    obtain ⟨i, hi⟩ := hv
    obtain ⟨s, hs⟩ := Option.isSome_iff_exists.1 (hd.sound.source i v hi)
    have hsource : e.graph.typeOf? v.source v.sourcePort .output = some s.type := by
      rw [Graph.typeOf?, hs, Option.map_some]
    rw [inputValue_of_wired hd.sound ⟨i, hi⟩ hflow hm hsource,
      inputValue_of_wired hd.sound' hkept hflow hn (hd.graph.types _ _ _ _ hne hsource),
      hd.graph.conversions, htype, Wire.through_of_ne hne]

/-- The ports of a node have the values that they had. -/
theorem inputValue {m n : Node} (hm : e.graph.node? id = some m) (hn : e'.graph.node? id = some n)
    (hid : id ≠ r) (outputs : String → PortValues) {name : String} {p q : Port}
    (hp : m.inputs.find? name = some p) (hq : n.inputs.find? name = some q)
    (hvalue : q.value = p.value) :
    e'.inputValue (w.through r outputs) n name q = e.inputValue outputs m name p := by
  have hmid := Graph.id_of_node? hm
  have hnid := Graph.id_of_node? hn
  by_cases hwired : ∃ v, e.graph.Wired v ∧ v.isFlow = false ∧ v.target = m.id ∧ v.targetPort = name
  · obtain ⟨v, hv, hflow, htarget, rfl⟩ := hwired
    have hname : v.targetPort ≠ flowInName := of_decide_eq_false hflow
    have htype := hd.graph.types id v.targetPort .input p.type hid
      (Graph.typeOf?_input hm hname hp)
    exact hd.inputValue_of_wire hv hflow htarget (htarget.trans (hmid.trans hnid.symm))
      (Option.some.inj ((Graph.typeOf?_input hn hname hq).symm.trans htype)) outputs
  · rw [inputValue_of_not_wired hd.sound hwired, inputValue_of_not_wired hd.sound', Port.valueOrNull,
      Port.valueOrNull, hvalue]
    rintro ⟨v, hv, hflow, htarget, rfl⟩
    rcases (hd.graph.wires v).1 hv with rfl | rfl | ⟨hv, _⟩
    · exact hid (hnid.symm.trans htarget.symm)
    · exact hwired ⟨w, hd.graph.wired, hd.graph.data, htarget.trans (hnid.trans hmid.symm), rfl⟩
    · exact hwired ⟨v, hv, hflow, htarget.trans (hnid.trans hmid.symm), rfl⟩

/-- The other nodes get the same inputs. -/
theorem inputsFrom {m n : Node} (hm : e.graph.node? id = some m) (hn : e'.graph.node? id = some n)
    (hmn : m.SameInputs n) (hid : id ≠ r) (outputs : String → PortValues) :
    e'.inputsFrom (w.through r outputs) n = e.inputsFrom outputs m := by
  refine Table.ext_find? fun name => ?_
  rw [find?_inputsFrom, find?_inputsFrom]
  have hport : (n.inputs.find? name).map Port.value = (m.inputs.find? name).map Port.value := by
    rw [← Table.find?_map, ← Table.find?_map, hmn.values]
  cases hp : m.inputs.find? name with
  | none =>
    rw [hp, Option.map_none] at hport
    rw [Option.map_eq_none_iff.1 hport]
    rfl
  | some p =>
    rw [hp, Option.map_some] at hport
    obtain ⟨q, hq, hpq⟩ := Option.map_eq_some_iff.1 hport
    rw [hq, Option.map_some, Option.map_some, hd.inputValue hm hn hid outputs hp hq hpq]

/-- The reroute hands on what its source gives, as it is. -/
theorem yields_reroute {n : Node} (hn : e'.graph.node? r = some n) (outputs : String → PortValues)
    (out : PortValues) :
    (e'.script n (e'.inputsFrom outputs n)).Yields out ↔ out = w.through r outputs r := by
  have hid : n.id = r := Graph.id_of_node? hn
  have hkind : n.kind = "reroute" := by
    have hkind := hd.graph.reroute
    rwa [Graph.kindOf?_of_node? hn, Option.some.injEq] at hkind
  obtain ⟨t, hsource, hinput, _⟩ := hd.graph.type
  obtain ⟨p, hp, rfl⟩ := Option.map_eq_some_iff.1 hinput
  have hport : n.inputs.find? "in" = some p := by
    rwa [Graph.port?_input hn (by decide)] at hp
  have hvalue : (e'.inputsFrom outputs n).find? "in" =
      some (((outputs w.source).find? w.sourcePort).getD .null) := by
    have hinto := inputValue_of_wired hd.sound' ((hd.graph.wires (w.into r)).2 (.inl rfl))
      (w.isFlow_into r) hid.symm
      (hd.graph.types _ _ _ _ (hd.graph.ends_ne hd.sound hd.graph.wired).1 hsource) p outputs
    rw [find?_inputsFrom, hport, Option.map_some]
    exact congrArg some (hinto.trans (Conversions.convert_self _ _ _))
  have hscript : e'.script n (e'.inputsFrom outputs n) = .done (w.through r outputs r) := by
    rw [script, hkind, hd.behaviour, hd.reroute]
    show Script.done (Table.singleton "out" (((e'.inputsFrom outputs n).find? "in").getD .null)) = _
    rw [hvalue, Option.getD_some, Wire.through_self]
  rw [hscript]
  exact eq_comm

/-! ### Evaluations afresh -/

/-- From the same inputs the other nodes calculate the same. -/
theorem yields_iff {m n : Node} (hmn : m.SameInputs n)
    (hinputs : (e.behaviour m.kind).FromInputs) (inputs out : PortValues) :
    (e'.script n inputs).Yields out ↔ (e.script m inputs).Yields out := by
  have hsame : (e'.evaluation n inputs).inputs = (e.evaluation m inputs).inputs := rfl
  unfold script
  rw [hd.behaviour, hmn.kind]
  exact hinputs.yields_iff hsame out

/-- Once the source has outputs, so does the reroute. -/
theorem afresh_reroute (hsource : e'.Afresh ∅ w.source (outputs w.source)) :
    e'.Afresh ∅ r (w.through r outputs r) := by
  obtain ⟨n, hn, _⟩ := Option.map_eq_some_iff.1 hd.graph.reroute
  refine .calculated outputs ?_ hn (fun x hx => ?_) ((hd.yields_reroute hn outputs _).2 rfl)
  · rw [hd.graph.usesFlow, if_pos rfl]
  · obtain ⟨hx, htarget, _⟩ := Graph.mem_dataWires.1 hx
    rcases (hd.graph.wires x.2).1 ⟨x.1, hx⟩ with heq | heq | ⟨hwired, _⟩
    · rwa [heq]
    · rw [heq] at htarget
      exact absurd htarget (hd.graph.ends_ne hd.sound hd.graph.wired).2
    · exact absurd htarget (hd.graph.ends_ne hd.sound hwired).2

/-- What the nodes of the first engine come to afresh, they come to in the second one. -/
theorem afresh {out : PortValues} (hdet : e.Determined id) (hout : e.Afresh ∅ id out) :
    e'.Afresh ∅ id out := by
  induction hout with
  | held _ hfind =>
    rw [Table.find?_empty] at hfind
    cases hfind
  | @calculated id m out outputs hflow hm hsources hyields ih =>
    have hid : id ≠ r := by
      rintro rfl
      cases hm.symm.trans hd.graph.fresh
    obtain ⟨n, hn, hmn⟩ := hd.graph.exists_node hid hm
    have hbefore : ∀ v, e.graph.Wired v → v.isFlow = false → v.target = id →
        e'.Afresh ∅ v.source (outputs v.source) := by
      rintro v ⟨i, hv⟩ hvflow rfl
      have hmem := Graph.mem_dataWires.2 ⟨hv, rfl, hvflow⟩
      exact ih (i, v) hmem (hdet.source (Graph.feeds_of_mem_dataWires hmem))
    refine .calculated (w.through r outputs) ?_ hn (fun x hx => ?_) ?_
    · rw [hd.graph.usesFlow, if_neg hid, hflow]
    · obtain ⟨hx, htarget, hxflow⟩ := Graph.mem_dataWires.1 hx
      rcases (hd.graph.wires x.2).1 ⟨x.1, hx⟩ with heq | heq | ⟨hwired, _⟩
      · exact absurd (htarget.symm.trans (congrArg Wire.target heq)) hid
      -- Behind the second part of the way is the reroute, and behind the first part its source.
      · rw [heq] at htarget ⊢
        exact hd.afresh_reroute (hbefore w hd.graph.wired hd.graph.data htarget)
      · rw [Wire.through_of_ne (hd.graph.ends_ne hd.sound hwired).1]
        exact hbefore _ hwired hxflow htarget
    · rw [hd.yields_iff hmn (hdet id m .refl hm),
        hd.inputsFrom hm hn hmn hid]
      exact hyields

/-- Where outputs of sources are what the first engine comes to afresh, with the reroute in place,
there are such outputs for the first engine itself. -/
theorem exists_outputs (hid : id ≠ r)
    (hwires : ∀ x ∈ e'.graph.dataWires id, ∃ o, e.Afresh ∅ (w.bypass r x.2.source) o ∧
      outputs x.2.source = w.through r (fun _ => o) x.2.source) :
    ∃ before, (∀ a, e.graph.Feeds a id → e.Afresh ∅ a (before a)) ∧
      ∀ x ∈ e'.graph.dataWires id, outputs x.2.source = w.through r before x.2.source := by
  -- Each source of the first engine is one of the second, or the reroute stands for it.
  have hsource : ∀ a, ∃ o, e.graph.Feeds a id → e.Afresh ∅ a o := by
    intro a
    by_cases ha : e.graph.Feeds a id
    · obtain ⟨b, hb, rfl⟩ := hd.graph.exists_feeds_bypass hd.sound hid ha
      obtain ⟨i, v, hv, rfl⟩ := Graph.exists_dataWire_of_feeds hb
      obtain ⟨o, ho, _⟩ := hwires (i, v) hv
      exact ⟨o, fun _ => ho⟩
    · exact ⟨∅, fun h => absurd h ha⟩
  choose before hbefore using hsource
  refine ⟨before, hbefore, fun x hx => ?_⟩
  obtain ⟨o, ho, hout⟩ := hwires x hx
  have hfeeds := hd.graph.feeds_bypass_of_ne hd.sound hid (Graph.feeds_of_mem_dataWires hx)
  rw [hout, ho.unique (hbefore _ hfeeds), Wire.through_bypass]

/-- What the nodes of the second engine come to afresh, they come to in the first one; the reroute
comes to what its source gives. -/
theorem of_afresh {out : PortValues} (hdet : e.Determined (w.bypass r id))
    (hout : e'.Afresh ∅ id out) :
    ∃ o, e.Afresh ∅ (w.bypass r id) o ∧ out = w.through r (fun _ => o) id := by
  have hends := hd.graph.ends_ne hd.sound hd.graph.wired
  induction hout with
  | held _ hfind =>
    rw [Table.find?_empty] at hfind
    cases hfind
  | @calculated id n out outputs hflow hn hsources hyields ih =>
    by_cases hid : id = r
    · subst hid
      obtain ⟨j, hj⟩ := (hd.graph.wires (w.into id)).2 (.inl rfl)
      rw [Wire.bypass_self] at hdet ⊢
      have hsource := ih (j, w.into id) (Graph.mem_dataWires.2 ⟨hj, rfl, w.isFlow_into id⟩)
      simp only [Wire.into, Wire.bypass_of_ne hends.1, Wire.through_of_ne hends.1] at hsource
      obtain ⟨o, ho, hsame⟩ := hsource hdet
      refine ⟨o, ho, ?_⟩
      rw [(hd.yields_reroute hn outputs out).1 hyields, Wire.through_self, Wire.through_self, hsame]
    · rw [Wire.bypass_of_ne hid] at hdet ⊢
      obtain ⟨m, hm, hmn⟩ := hd.graph.exists_node_before hid hn
      obtain ⟨before, hbefore, hsame⟩ := hd.exists_outputs hid fun x hx =>
        ih x hx (hdet.source
          (hd.graph.feeds_bypass_of_ne hd.sound hid (Graph.feeds_of_mem_dataWires hx)))
      rw [← Graph.id_of_node? hn] at hsame
      refine ⟨out, .calculated before ?_ hm (fun x hx => ?_) ?_, by rw [Wire.through_of_ne hid]⟩
      · rwa [hd.graph.usesFlow, if_neg hid] at hflow
      · exact hbefore _ (Graph.feeds_of_mem_dataWires hx)
      · rw [← hd.inputsFrom hm hn hmn hid, ← hd.yields_iff hmn (hdet id m .refl hm),
          ← inputsFrom_congr hsame]
        exact hyields

/-- But for the reroute the same nodes come to the same outputs afresh. -/
theorem afresh_iff {out : PortValues} (hid : id ≠ r) (hdet : e.Determined id) :
    e'.Afresh ∅ id out ↔ e.Afresh ∅ id out := by
  refine ⟨fun hout => ?_, hd.afresh hdet⟩
  rw [← Wire.bypass_of_ne (w := w) hid] at hdet
  obtain ⟨o, ho, rfl⟩ := hd.of_afresh hdet hout
  rw [Wire.through_of_ne hid]
  rwa [Wire.bypass_of_ne hid] at ho

/-! ### Runs -/

theorem pullable (hid : id ≠ r) (hp : e.Pullable id) : e'.Pullable id where
  free := fun m hm => by
    have hup := hd.graph.upstream_bypass hd.sound hm
    rw [Wire.bypass_of_ne hid] at hup
    rw [hd.graph.usesFlow]
    split
    next => rfl
    next hmr => exact hp.free m (Wire.bypass_of_ne (w := w) hmr ▸ hup)
  acyclic := fun m hm => by
    have hup := hd.graph.upstream_bypass hd.sound hm
    rw [Wire.bypass_of_ne hid] at hup
    exact hd.graph.not_above_self hd.sound (hp.acyclic _ hup)

theorem fromInputs_reroute : (e.behaviour "reroute").FromInputs := by
  refine ⟨fun inputs => some (.singleton "out" ((inputs.find? "in").getD .null)), fun v => ?_⟩
  rw [hd.reroute]
  rfl

theorem determined (hid : id ≠ r) (hdet : e.Determined id) : e'.Determined id := by
  intro m n hm hn
  rw [hd.behaviour]
  by_cases hmr : m = r
  · subst hmr
    have hkind := hd.graph.reroute
    rw [Graph.kindOf?_of_node? hn, Option.some.injEq] at hkind
    exact hkind ▸ hd.fromInputs_reroute
  · obtain ⟨k, hk, hkn⟩ := hd.graph.exists_node_before hmr hn
    have hup := hd.graph.upstream_bypass hd.sound hm
    rw [Wire.bypass_of_ne hid, Wire.bypass_of_ne hmr] at hup
    exact hkn.kind ▸ hdet m k hup hk

/-- A run of a node ends alike in both engines: with the same outputs of the node and of all that
is upstream of it in the first one, or with an error. -/
theorem runNode (hnode : (e.graph.node? id).isSome) (hp : e.Pullable id) (hdet : e.Determined id)
    {s s' : RunState} (hs : s.cache = ∅) (hs' : s'.cache = ∅) (hidle : s.evaluating = [])
    (hidle' : s'.evaluating = []) {allowance allowance' : Nat}
    (hallowance : e.graph.nodes.length ≤ allowance)
    (hallowance' : e'.graph.nodes.length ≤ allowance') :
    (∃ out t t', e.runNode allowance id s = (.done out, t) ∧
      e'.runNode allowance' id s' = (.done out, t') ∧
      ∀ m, e.graph.Upstream m id → ∃ o, t.cache.find? m = some o ∧ t'.cache.find? m = some o) ∨
    (∃ err t, e.runNode allowance id s = (.failed err, t)) ∧
      ∃ err t', e'.runNode allowance' id s' = (.failed err, t') := by
  obtain ⟨n, hn⟩ := Option.isSome_iff_exists.1 hnode
  have hid : id ≠ r := by
    rintro rfl
    cases hn.symm.trans hd.graph.fresh
  obtain ⟨n', hn', _⟩ := hd.graph.exists_node hid hn
  have hsecond := runNode_determined hd.sound' (by rw [hn']; rfl) (hd.pullable hid hp)
    (hd.determined hid hdet) hs' hidle' hallowance'
  rcases runNode_determined hd.sound hnode hp hdet hs hidle hallowance with
    ⟨out, t, ht, hout, hkept⟩ | ⟨hfailed, hnone⟩
  · rcases hsecond with ⟨out', t', ht', hout', hkept'⟩ | ⟨_, hnone'⟩
    · obtain rfl := hout.unique ((hd.afresh_iff hid hdet).1 hout')
      refine .inl ⟨out, t, t', ht, ht', fun m hm => ?_⟩
      obtain ⟨o, ho, hafresh⟩ := hkept m hm
      obtain ⟨o', ho', hafresh'⟩ := hkept' m (hd.graph.upstream hm)
      have hdetm : e.Determined m := fun k l hk hl => hdet k l (hk.trans hm) hl
      obtain rfl := (hd.afresh hdetm hafresh).unique hafresh'
      exact ⟨o, ho, ho'⟩
    · exact absurd ((hd.afresh_iff hid hdet).2 hout) (hnone' out)
  · rcases hsecond with ⟨out', _, _, hout', _⟩ | ⟨hfailed', _⟩
    · exact absurd ((hd.afresh_iff hid hdet).1 hout') (hnone out')
    · exact .inr ⟨hfailed, hfailed'⟩

end Detours

end Engine

end Patchbay
