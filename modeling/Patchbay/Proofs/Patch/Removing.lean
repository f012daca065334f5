import Patchbay.Proofs.Patch.Telling

/-!
# Removing nodes

When a node is removed, its wires are looked for port by port, and each of them is taken away while
its ends are told; some are put back, since an end objects, and are dropped in the end. `Detached`
says what has happened so far, for the wires that have had their turn: each end has been told of its
own wires once, and all other wires are still there. It composes where no wire has two turns, which
goes for the wires of a list, for the ports of a side and for the two sides.

## Key results

- `detached_detachAll` / `detached_detachPorts`: the wires of a list, and of the ports of a side
- `detached_touching`: all wires of a node
- `remove_of_node?_eq_none` / `removed_of_node?`: what `remove` comes to
-/

namespace Patchbay

/-- No ordinary port of the node has the name of a control port. -/
def Node.Plain (n : Node) : Prop := flowInName ∉ n.inputs.keys ∧ flowOutName ∉ n.outputs.keys

instance (n : Node) : Decidable n.Plain := inferInstanceAs (Decidable (_ ∧ _))

/-- Then no name is listed twice. -/
theorem Node.Plain.nodup_portNames {n : Node} (h : n.Plain) (side : Side) :
    (n.portNames side).Nodup := by
  have happend : ∀ {t : Table String Port} {name : String} (b : Bool), name ∉ t.keys →
      (t.keys ++ if b = true then [name] else []).Nodup := by
    intro t name b hname
    refine List.nodup_append.2 ⟨t.nodup_keys, by cases b <;> simp, fun a ha c hc hac => ?_⟩
    cases b with
    | true => exact hname (List.mem_singleton.1 hc ▸ hac ▸ ha)
    | false => cases hc
  cases side with
  | input => exact happend _ h.1
  | output => exact happend _ h.2

namespace Wire

/-- The node at one side of the wire: the wire is at an input of its target. -/
def nodeAt (w : Wire) : Side → String
  | .input => w.target
  | .output => w.source

def portAt (w : Wire) : Side → String
  | .input => w.targetPort
  | .output => w.sourcePort

variable {w : Wire} {node port other : String} {side : Side}

theorem endsAt_iff :
    w.endsAt node port side = true ↔ w.nodeAt side = node ∧ w.portAt side = port := by
  cases side <;> simp [endsAt, nodeAt, portAt]

/-- A wire that ends at a node ends at one of some of its ports, where its own is among them. -/
theorem any_endsAt {ports : List String} (h : w.nodeAt side = node → w.portAt side ∈ ports) :
    ports.any (w.endsAt node · side) = decide (w.nodeAt side = node) := by
  rw [Bool.eq_iff_iff, List.any_eq_true, decide_eq_true_eq]
  refine ⟨fun ⟨_, _, hends⟩ => (endsAt_iff.1 hends).1, fun hnode => ?_⟩
  exact ⟨w.portAt side, h hnode, endsAt_iff.2 ⟨hnode, rfl⟩⟩

end Wire

namespace Patch

open Patchbay.Graph

variable {p q r : Patch} {S T : WireId → Wire → Bool} {ns ms : List Notice} {side : Side}

/-- No wire leads from a node to itself. -/
def Loopless (p : Patch) : Prop := ∀ i w, p.wires.find? i = some w → w.source ≠ w.target

theorem Loopless.trimmed (hp : p.Loopless) (h : p.Trimmed q) : q.Loopless :=
  fun i w hw => hp i w (h.wires i w hw)

/-- Whether a node is to be told of a change: that a wire it is an end of is taken away, if the wire
is one of those that have their turn. -/
def due (p : Patch) (S : WireId → Wire → Bool) (x : String) : Change → Bool
  | .created _ _ _ => false
  | .removed i w =>
    p.wires.find? i = some w && S i w && (x = w.source || x = w.target) && (p.hook? x).isSome

/-- The patch `q` is `p` after some wires have had their turn to be taken away. -/
structure Detached (p : Patch) (S : WireId → Wire → Bool) (ns : List Notice) (q : Patch) :
    Prop where
  informed : p.Informed ns q
  /-- The other wires are still there. -/
  kept : ∀ i w, p.wires.find? i = some w → S i w = false → q.wires.find? i = some w
  /-- Each end is told once, where hooks keep to the change. -/
  count : p.KeepsChanges → ∀ x c, ns.countP (·.tells x c) = if p.due S x c then 1 else 0
  /-- All nodes are still there. -/
  ids : ∀ n ∈ ns, ∃ x e g, n = .told x e g ∧ g.ids = p.ids

/-- Only what is said of wires that are there matters. -/
theorem due_congr (h : ∀ i w, p.wires.find? i = some w → S i w = T i w) (x : String) (c : Change) :
    p.due S x c = p.due T x c := by
  cases c with
  | created => rfl
  | removed i w =>
    by_cases hw : p.wires.find? i = some w
    · simp only [due, h i w hw]
    · simp [due, hw]

theorem Detached.congr (h : p.Detached S ns q)
    (hST : ∀ i w, p.wires.find? i = some w → S i w = T i w) : p.Detached T ns q where
  informed := h.informed
  kept := fun i w hw hT => h.kept i w hw ((hST i w hw).trans hT)
  count := fun hkeeps x c => by rw [h.count hkeeps, due_congr hST]
  ids := h.ids

/-- Nothing has happened while no wire had its turn. -/
theorem Detached.refl (h : ∀ i w, p.wires.find? i = some w → S i w = false) :
    p.Detached S [] p where
  informed := .refl p
  kept := fun _ _ hw _ => hw
  count := fun _ x c => by
    rw [due_congr (T := fun _ _ => false) h]
    cases c <;> simp [due]
  ids := fun n hn => by cases hn

/-- What is due later was due before, where no wire has two turns. -/
theorem Detached.due_eq (h : p.Detached S ns q)
    (hdisjoint : ∀ i w, p.wires.find? i = some w → T i w = true → S i w = false) (x : String)
    (c : Change) : q.due T x c = p.due T x c := by
  cases c with
  | created => rfl
  | removed i w =>
    simp only [due, h.informed.trimmed.hook?]
    cases hT : T i w with
    | false => simp
    | true =>
      have hfind : q.wires.find? i = some w ↔ p.wires.find? i = some w :=
        ⟨h.informed.trimmed.wires i w, fun hw => h.kept i w hw (hdisjoint i w hw hT)⟩
      simp only [hfind]

/-- First some wires have their turn, then others. -/
theorem Detached.trans (h₁ : p.Detached S ns q) (h₂ : q.Detached T ms r)
    (hdisjoint : ∀ i w, p.wires.find? i = some w → T i w = true → S i w = false) :
    p.Detached (fun i w => S i w || T i w) (ns ++ ms) r where
  informed := h₁.informed.trans h₂.informed
  kept := fun i w hw hnot => by
    obtain ⟨hS, hT⟩ := Bool.or_eq_false_iff.1 hnot
    exact h₂.kept i w (h₁.kept i w hw hS) hT
  count := fun hkeeps x c => by
    rw [List.countP_append, h₁.count hkeeps, h₂.count (hkeeps.trimmed h₁.informed.trimmed),
      h₁.due_eq hdisjoint]
    cases c with
    | created => rfl
    | removed i w =>
      by_cases hw : p.wires.find? i = some w
      · have := hdisjoint i w hw
        cases hT : T i w <;> simp_all [due]
      · simp [due, hw]
  ids := fun n hn => by
    rcases List.mem_append.1 hn with hn | hn
    · exact h₁.ids n hn
    · obtain ⟨x, e, g, htold, hids⟩ := h₂.ids n hn
      exact ⟨x, e, g, htold, hids.trans h₁.informed.trimmed.ids⟩

/-! ### One wire, and lists of wires -/

theorem nodup_wiresAt (p : Patch) (node port : String) (side : Side) :
    ((p.wiresAt node port side).map (·.1)).Nodup :=
  p.wires.nodup_keys.sublist (List.filter_sublist.map _)

theorem contains_wiresAt {i : WireId} {w : Wire} (hw : p.wires.find? i = some w)
    (node port : String) (side : Side) :
    ((p.wiresAt node port side).map (·.1)).contains i = w.endsAt node port side := by
  rw [Bool.eq_iff_iff, List.contains_iff_mem]
  constructor
  · intro hmem
    obtain ⟨⟨_, v⟩, hv, rfl⟩ := List.mem_map.1 hmem
    obtain ⟨hv, hends⟩ := List.mem_filter.1 hv
    obtain rfl := Option.some.inj ((Table.mem_entries_iff.1 hv).symm.trans hw)
    exact hends
  · intro hends
    exact List.mem_map_of_mem (List.mem_filter.2 ⟨Table.mem_entries_iff.2 hw, hends⟩)

/-- A single wire has its turn. -/
theorem detached_detach (hp : p.Loopless) {i : WireId} {w : Wire} (hw : p.wires.find? i = some w) :
    p.Detached (fun j _ => j = i) ((p.cut i).tidings (.removed i w)) (p.detach i w).2 where
  informed := informed_detach hw
  kept := fun j v hv hj => by
    rw [find?_detach_of_ne (of_decide_eq_false hj)]
    exact hv
  count := fun hkeeps x c => by
    have hwire : (Change.removed i w).wire = w := rfl
    rw [countP_tidings (c := .removed i w) (hkeeps.trimmed (p.trimmed_cut i)) (hp i w hw),
      (p.trimmed_cut i).hook?, hwire]
    cases c with
    | created => simp [due]
    | removed j v =>
      by_cases hsame : i = j ∧ w = v
      · obtain ⟨rfl, rfl⟩ := hsame
        simp [due, hw]
      · -- Under its number there is this wire and no other.
        have hother : j = i → p.wires.find? j ≠ some v := by
          rintro rfl hv
          exact hsame ⟨rfl, Option.some.inj (hw.symm.trans hv)⟩
        rw [if_neg fun h => hsame (Change.removed.inj h.1), if_neg]
        simp only [due, Bool.and_eq_true, decide_eq_true_eq]
        exact fun h => hother h.1.1.2 h.1.1.1
  ids := fun n hn => by
    obtain ⟨x, e, g, htold, _, _, hids⟩ := exists_of_mem_tidings hn
    exact ⟨x, e, g, htold, hids⟩

/-- The wires of a list that are still there have their turn, one after the other. -/
theorem detached_detachAll (hp : p.Loopless) {is : List WireId} (his : is.Nodup) :
    ∃ ns, p.Detached (fun i _ => is.contains i) ns (p.detachAll is) := by
  induction is generalizing p with
  | nil => exact ⟨[], .refl fun _ _ _ => rfl⟩
  | cons i is ih =>
    obtain ⟨hi, his⟩ := List.nodup_cons.1 his
    have hstep : ∃ ns q, p.Detached (fun j _ => j = i) ns q ∧
        p.detachAll (i :: is) = q.detachAll is := by
      simp only [detachAll, List.foldl_cons]
      cases hw : p.wires.find? i with
      | none =>
        refine ⟨[], p, .refl fun j w hj => decide_eq_false ?_, rfl⟩
        rintro rfl
        cases hw.symm.trans hj
      | some w => exact ⟨_, _, detached_detach hp hw, rfl⟩
    obtain ⟨ns, q, hfirst, hsame⟩ := hstep
    obtain ⟨ms, hrest⟩ := ih (hp.trimmed hfirst.informed.trimmed) his
    rw [hsame]
    refine ⟨ns ++ ms, (hfirst.trans hrest ?_).congr ?_⟩
    · intro j w _ hj
      refine decide_eq_false ?_
      rintro rfl
      exact hi (List.contains_iff_mem.1 hj)
    · intro j w _
      simp

/-- The wires at some ports of a node have their turn, port by port. -/
theorem detached_detachPorts (hp : p.Loopless) (node : String) (side : Side) {ports : List String}
    (hports : ports.Nodup) : ∃ ns, p.Detached (fun _ w => ports.any (w.endsAt node · side)) ns
      (p.detachPorts node side ports) := by
  induction ports generalizing p with
  | nil => exact ⟨[], .refl fun _ _ _ => rfl⟩
  | cons port ports ih =>
    obtain ⟨hport, hports⟩ := List.nodup_cons.1 hports
    obtain ⟨ns, hfirst⟩ := detached_detachAll hp (p.nodup_wiresAt node port side)
    have hfirst := hfirst.congr (T := fun _ w => w.endsAt node port side) fun i w hw =>
      contains_wiresAt hw node port side
    obtain ⟨ms, hrest⟩ := ih (hp.trimmed hfirst.informed.trimmed) hports
    refine ⟨ns ++ ms, (hfirst.trans hrest ?_).congr ?_⟩
    · intro i w _ hany
      -- A wire ends at one port only on a side.
      obtain ⟨other, hmem, hends⟩ := List.any_eq_true.1 hany
      refine Bool.eq_false_iff.2 fun hfirst => hport ?_
      rwa [← (Wire.endsAt_iff.1 hfirst).2, (Wire.endsAt_iff.1 hends).2]
    · intro i w _
      simp

/-! ### The wires of a node -/

/-- Every wire has a port at each side. -/
theorem isSome_port?_nodeAt (hp : p.Sound) {i : WireId} {w : Wire} (hw : p.wires.find? i = some w)
    (side : Side) : (p.port? (w.nodeAt side) (w.portAt side) side).isSome := by
  cases side with
  | input => exact hp.target i w hw
  | output => exact hp.source i w hw

/-- The wires at one side of a node have their turn. Its ports are listed beforehand. -/
theorem detached_side (hp : p.Sound) {id : String} {n : Node} (hn : p.node? id = some n)
    (hplain : n.Plain) (h : p.Trimmed q) (side : Side) :
    ∃ ns, q.Detached (fun _ w => w.nodeAt side = id) ns
      (q.detachPorts id side (n.portNames side)) := by
  obtain ⟨ns, hdetached⟩ := detached_detachPorts (Loopless.trimmed hp.loopless h) id side
    (hplain.nodup_portNames side)
  refine ⟨ns, hdetached.congr fun i w hw => Wire.any_endsAt fun hnode => Node.mem_portNames ?_⟩
  have hport := isSome_port?_nodeAt hp (h.wires i w hw) side
  simpa only [port?, hnode, hn, Option.bind_eq_bind, Option.bind_some] using hport

/-- The wires of a node have their turn, first those that lead to it, then those that lead away. -/
theorem detached_touching (hp : p.Sound) {id : String} {n : Node} (hn : p.node? id = some n)
    (hplain : n.Plain) : ∃ ns, p.Detached (fun _ w => w.touches id) ns
      ((p.detachPorts id .input (n.portNames .input)).detachPorts id .output
        (n.portNames .output)) := by
  obtain ⟨ns, hfirst⟩ := detached_side hp hn hplain (.refl p) .input
  obtain ⟨ms, hsecond⟩ := detached_side hp hn hplain hfirst.informed.trimmed .output
  refine ⟨ns ++ ms, (hfirst.trans hsecond fun i w hw hs => ?_).congr fun i w _ => ?_⟩
  · refine decide_eq_false fun ht => hp.loopless i w hw ?_
    exact (of_decide_eq_true hs).trans ht.symm
  · exact Bool.or_comm _ _

/-! ### The whole removal -/

/-- The patch `q` is what is left of `p` when a node is removed, however its wires were kept. -/
structure Removed (p : Patch) (id : String) (ns : List Notice) (q : Patch) : Prop where
  journal : q.journal = p.journal ++ ns
  /-- Both ends of each wire of the node are told once that it is taken away, where hooks keep to the
  change: they may cancel it, but not make the event be about something else. -/
  count : p.KeepsChanges →
    ∀ x c, ns.countP (·.tells x c) = if p.due (fun _ w => w.touches id) x c then 1 else 0
  /-- While something is told, all nodes are still there. -/
  early : ∀ x e g, .told x e g ∈ ns → g.ids = p.ids
  wires : ∀ i w, q.wires.find? i = some w ↔ p.wires.find? i = some w ∧ w.touches id = false
  gone : q.node? id = none
  ids : q.ids = p.ids.filter (· ≠ id)
  nodes : ∀ x n, x ≠ id → p.node? x = some n → ∃ m, q.node? x = some m ∧ n.Grown m
  untold : ∀ x, x ≠ id → (∀ e g, .told x e g ∉ ns) → q.node? x = p.node? x

theorem remove_of_node?_eq_none {id : String} (h : p.node? id = none) :
    p.remove id = (none, p) := by
  rw [remove, h]

/-- Dropping wires touches no node, and tells nobody. -/
theorem dropWires_cases (p : Patch) (node : String) : (p.dropWires node).nodes = p.nodes ∧
    ∃ ds, (p.dropWires node).journal = p.journal ++ ds ∧
      ∀ n ∈ ds, ∃ k, n = .droppedWithNode k node := by
  simp only [dropWires]
  split
  next => exact ⟨rfl, [], (List.append_nil _).symm, fun n hn => by cases hn⟩
  next => exact ⟨rfl, _, rfl, fun n hn => ⟨_, List.mem_singleton.1 hn⟩⟩

theorem node?_dropWires (p : Patch) (node x : String) : (p.dropWires node).node? x = p.node? x :=
  congrArg (List.find? fun n : Node => n.id = x) (p.dropWires_cases node).1

theorem ids_without (g : Graph) (id : String) : (g.without id).ids = g.ids.filter (· ≠ id) := by
  rw [ids, ids, List.filter_map]
  rfl

/-- What is left once a node is gone whose wires have had their turn. -/
theorem Detached.removed {id : String} (h : p.Detached (fun _ w => w.touches id) ns q) :
    ∃ ds, p.Removed id (ns ++ ds)
      ((q.dropWires id).withGraph ((q.dropWires id).toGraph.without id)) := by
  obtain ⟨hnodes, ds, hjournal, hds⟩ := q.dropWires_cases id
  have hnode : ∀ x, ((q.dropWires id).toGraph.without id).node? x =
      if x = id then none else q.node? x := fun x => by
    rw [node?_without, node?_dropWires]
  refine ⟨ds, ?_⟩
  constructor
  case journal => exact hjournal.trans (by rw [h.informed.journal, List.append_assoc])
  case count =>
    intro hkeeps x c
    have hnone : ds.countP (·.tells x c) = 0 := List.countP_eq_zero.2 fun n hn => by
      obtain ⟨k, rfl⟩ := hds n hn
      exact Bool.false_ne_true
    rw [List.countP_append, hnone, h.count hkeeps, Nat.add_zero]
  case early =>
    intro x e g hmem
    rcases List.mem_append.1 hmem with hmem | hmem
    · obtain ⟨_, _, _, hn, hids⟩ := h.ids _ hmem
      cases hn
      exact hids
    · obtain ⟨k, hk⟩ := hds _ hmem
      cases hk
  case wires =>
    intro i w
    refine (find?_wires_dropWires q id i w).trans (and_congr_left fun htouch => ?_)
    exact ⟨h.informed.trimmed.wires i w, fun hw => h.kept i w hw htouch⟩
  case gone => exact (hnode id).trans (if_pos rfl)
  case ids =>
    refine (ids_without _ id).trans (congrArg (List.filter _) ?_)
    exact (congrArg (List.map Node.id) hnodes).trans h.informed.trimmed.ids
  case nodes =>
    intro x n hx hn
    obtain ⟨m, hm, hgrown⟩ := h.informed.trimmed.nodes x n hn
    exact ⟨m, ((hnode x).trans (if_neg hx)).trans hm, hgrown⟩
  case untold =>
    intro x hx htold
    refine ((hnode x).trans (if_neg hx)).trans (h.informed.node? x fun e g hmem => ?_)
    exact htold e g (List.mem_append_left _ hmem)

/-- The answer of `remove` is the node as the hooks have left it. -/
theorem removed_of_node? (hp : p.Sound) {id : String} {n : Node} (hn : p.node? id = some n)
    (hplain : n.Plain) : ∃ m ns, (p.remove id).1 = some m ∧ n.Grown m ∧
      ((∀ e g, .told id e g ∉ ns) → m = n) ∧ p.Removed id ns (p.remove id).2 := by
  obtain ⟨ns, hdetached⟩ := detached_touching hp hn hplain
  simp only [remove, hn]
  generalize (p.detachPorts id .input (n.portNames .input)).detachPorts id .output
    (n.portNames .output) = q at hdetached ⊢
  obtain ⟨m, hm, hgrown⟩ := hdetached.informed.trimmed.nodes id n hn
  obtain ⟨ds, hremoved⟩ := hdetached.removed
  refine ⟨m, ns ++ ds, (q.node?_dropWires id id).trans hm, hgrown, fun htold => ?_, hremoved⟩
  have hkept := hdetached.informed.node? id fun e g hmem => htold e g (List.mem_append_left _ hmem)
  exact Option.some.inj (hm.symm.trans (hkept.trans hn))

end Patch

end Patchbay
