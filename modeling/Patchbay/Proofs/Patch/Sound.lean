import Patchbay.Proofs.Folds
import Patchbay.Proofs.Patch.Trimmed
import Patchbay.Snapshot.Basic

/-!
# Sound wiring

`Graph.Sound` is what the wires of a patch always satisfy: no wire leads from a node to itself, no
input has two wires, both ports of every wire exist, and the next wire has a new number. Nodes are
listed once, and their kinds are declared.

Sound wiring only asks for nodes and ports that are there, and for wires that are not there. So it
outlives whatever hooks and removals do (`Sound.trimmed`), and each operation needs only what it
adds: `Sound.put` for nodes and `sound_addWire` for wires.

## Key results

- `Sound.trimmed`: sound wiring outlives edits and removals
- `sound_connect` / `sound_remove` / `sound_insert`: the operations on wires and nodes keep it
- `sound_restore`: what a snapshot is restored to is sound, whatever the snapshot holds
- `nextWire_connect`: a wire that is made has a number that no wire had before
-/

namespace Patchbay

/-- The wires of a graph are in order. -/
structure Graph.Sound (g : Graph) : Prop where
  /-- No id is listed twice. -/
  nodup : g.ids.Nodup
  /-- A kind is found under its own id. -/
  keyed : ∀ k d, g.kinds.find? k = some d → d.id = k
  declared : ∀ id n, g.node? id = some n → (g.kinds.find? n.kind).isSome
  loopless : ∀ i w, g.wires.find? i = some w → w.source ≠ w.target
  /-- An input port is the target of one wire at most. -/
  single : ∀ i j v w, g.wires.find? i = some v → g.wires.find? j = some w →
    v.target = w.target → v.targetPort = w.targetPort → i = j
  source : ∀ i w, g.wires.find? i = some w → (g.port? w.source w.sourcePort .output).isSome
  target : ∀ i w, g.wires.find? i = some w → (g.port? w.target w.targetPort .input).isSome
  below : ∀ i w, g.wires.find? i = some w → i < g.nextWire

namespace Graph

/-! ### Look-ups -/

theorem mem_ids_iff (g : Graph) (id : String) : id ∈ g.ids ↔ (g.node? id).isSome := by
  simp [node?, ids, List.find?_isSome]

theorem node?_eq_none_iff (g : Graph) (id : String) : g.node? id = none ↔ id ∉ g.ids := by
  rw [mem_ids_iff, Option.not_isSome_iff_eq_none]

theorem node?_of_isSome_port? {g : Graph} {node name : String} {side : Side}
    (h : (g.port? node name side).isSome) : ∃ n, g.node? node = some n := by
  unfold port? at h
  cases hn : g.node? node with
  | none => simp [hn] at h
  | some n => exact ⟨n, rfl⟩

/-- The ports of a node depend on that node alone. -/
theorem port?_congr {g h : Graph} {node : String} (hn : h.node? node = g.node? node)
    (name : String) (side : Side) : h.port? node name side = g.port? node name side := by
  unfold port?
  rw [hn]

theorem typesOf?_isSome {g : Graph} {w : Wire} {t : PortType × PortType}
    (h : g.typesOf? w = some t) :
    (g.port? w.source w.sourcePort .output).isSome ∧
      (g.port? w.target w.targetPort .input).isSome := by
  unfold typesOf? at h
  cases hs : g.port? w.source w.sourcePort .output with
  | none => simp [hs] at h
  | some s =>
    cases ht : g.port? w.target w.targetPort .input with
    | none => simp [hs, ht] at h
    | some t => exact ⟨rfl, rfl⟩

/-- The wire that is found has the lowest number of all that have the property. -/
theorem wireWith?_eq_some_iff {g : Graph} {P : Wire → Bool} {i : WireId} {w : Wire} :
    g.wireWith? P = some (i, w) ↔ g.wires.find? i = some w ∧ P w = true ∧
      ∀ j v, g.wires.find? j = some v → P v = true → i ≤ j := by
  simp only [wireWith?, ← Table.mem_entries_iff]
  have hascending := g.wires.ascending
  generalize g.wires.entries = es at hascending ⊢
  induction es with
  | nil => simp
  | cons e es ih =>
    obtain ⟨k, u⟩ := e
    obtain ⟨hfirst, hrest⟩ := List.pairwise_cons.1 hascending
    have hlt : ∀ j v, (j, v) ∈ es → k < j := fun j v hv => Nat.compare_eq_lt.1 (hfirst (j, v) hv)
    rw [List.find?_cons]
    by_cases hu : P u = true
    · rw [hu]
      constructor
      · rintro ⟨⟩
        refine ⟨List.mem_cons_self, hu, fun j v hv _ => ?_⟩
        rcases List.mem_cons.1 hv with hv | hv
        · exact Nat.le_of_eq (congrArg Prod.fst hv).symm
        · exact Nat.le_of_lt (hlt j v hv)
      · rintro ⟨hw, _, hleast⟩
        rcases List.mem_cons.1 hw with hw | hw
        · rw [hw]
        · exact absurd (hlt i w hw) (Nat.not_lt.2 (hleast k u List.mem_cons_self hu))
    · rw [Bool.eq_false_iff.2 hu]
      refine (ih hrest).trans ?_
      constructor
      · rintro ⟨hw, hP, hleast⟩
        refine ⟨List.mem_cons_of_mem _ hw, hP, fun j v hv hPv => ?_⟩
        rcases List.mem_cons.1 hv with hv | hv
        · cases hv
          exact absurd hPv hu
        · exact hleast j v hv hPv
      · rintro ⟨hw, hP, hleast⟩
        refine ⟨?_, hP, fun j v hv => hleast j v (List.mem_cons_of_mem _ hv)⟩
        rcases List.mem_cons.1 hw with hw | hw
        · cases hw
          exact absurd hP hu
        · exact hw

/-- There is no wire at a port iff every wire is elsewhere. -/
theorem wireAt?_eq_none_iff (g : Graph) (node port : String) (side : Side) :
    g.wireAt? node port side = none ↔
      ∀ i w, g.wires.find? i = some w → w.endsAt node port side = false := by
  simp only [wireAt?, wireWith?, List.find?_eq_none, Prod.forall, Table.mem_entries_iff,
    Bool.not_eq_true]

/-- The wire that is found at a port is a wire of the graph and ends there. -/
theorem of_wireAt? {g : Graph} {node port : String} {side : Side} {i : WireId} {w : Wire}
    (h : g.wireAt? node port side = some (i, w)) :
    g.wires.find? i = some w ∧ w.endsAt node port side = true :=
  ⟨Table.mem_entries_iff.1 (List.mem_of_find?_eq_some h),
    List.find?_some (p := fun e : WireId × Wire => e.2.endsAt node port side) h⟩

theorem endsAt_input (w : Wire) (node port : String) :
    w.endsAt node port .input = true ↔ w.target = node ∧ w.targetPort = port := by
  simp [Wire.endsAt]

/-! ### What keeps wires in order -/

/-- Where there are no wires, only the nodes have to be in order. -/
theorem sound_of_wires_eq_empty {g : Graph} (hw : g.wires = ∅) (hn : g.ids.Nodup)
    (hd : ∀ k d, g.kinds.find? k = some d → d.id = k)
    (hk : ∀ id n, g.node? id = some n → (g.kinds.find? n.kind).isSome) : g.Sound where
  nodup := hn
  keyed := hd
  declared := hk
  loopless := by simp [hw]
  single := by simp [hw]
  source := by simp [hw]
  target := by simp [hw]
  below := by simp [hw]

theorem sound_empty (supportsFlow : Bool) (conversions : Conversions) :
    (Graph.empty supportsFlow conversions).Sound :=
  sound_of_wires_eq_empty rfl List.nodup_nil (fun _ _ h => by cases h) fun _ _ h => by cases h

theorem node?_isSome_of_ids_eq {g h : Graph} (hids : h.ids = g.ids) {id : String} {m : Node}
    (hm : h.node? id = some m) : ∃ n, g.node? id = some n := by
  refine Option.isSome_iff_exists.1 ((mem_ids_iff g id).1 ?_)
  rw [← hids, mem_ids_iff, hm]
  rfl

/-- Sound wiring outlives edits to nodes and the loss of wires. -/
theorem Sound.trimmed {g h : Graph} (hg : g.Sound) (ht : g.Trimmed h) : h.Sound where
  nodup := ht.ids ▸ hg.nodup
  keyed := ht.kinds ▸ hg.keyed
  declared := fun id m hm => by
    -- The node was there before, and edits do not change its kind.
    obtain ⟨n, hn⟩ := node?_isSome_of_ids_eq ht.ids hm
    obtain ⟨k, hk, hgrown⟩ := ht.nodes id n hn
    obtain rfl : m = k := Option.some.inj (hm.symm.trans hk)
    rw [ht.kinds, hgrown.kind]
    exact hg.declared id n hn
  loopless := fun i w hw => hg.loopless i w (ht.wires i w hw)
  single := fun i j v w hv hw => hg.single i j v w (ht.wires i v hv) (ht.wires j w hw)
  source := fun i w hw => ht.isSome_port? (hg.source i w (ht.wires i w hw))
  target := fun i w hw => ht.isSome_port? (hg.target i w (ht.wires i w hw))
  below := fun i w hw => by
    rw [ht.nextWire]
    exact hg.below i w (ht.wires i w hw)

@[simp]
theorem wires_put (g : Graph) (n : Node) : (g.put n).wires = g.wires := by
  unfold Graph.put
  split <;> rfl

@[simp]
theorem kinds_put (g : Graph) (n : Node) : (g.put n).kinds = g.kinds := by
  unfold Graph.put
  split <;> rfl

@[simp]
theorem conversions_put (g : Graph) (n : Node) : (g.put n).conversions = g.conversions := by
  unfold Graph.put
  split <;> rfl

@[simp]
theorem nextWire_put (g : Graph) (n : Node) : (g.put n).nextWire = g.nextWire := by
  unfold Graph.put
  split <;> rfl

theorem nodup_ids_put {g : Graph} (hg : g.ids.Nodup) (n : Node) : (g.put n).ids.Nodup := by
  rw [ids_put]
  split
  next => exact hg
  next hid =>
    exact List.nodup_append.2 ⟨hg, List.pairwise_singleton _ _,
      fun a ha b hb hab => hid (List.mem_singleton.1 hb ▸ hab ▸ ha)⟩

theorem declared_put {g : Graph}
    (hg : ∀ id n, g.node? id = some n → (g.kinds.find? n.kind).isSome) {n : Node}
    (hk : (g.kinds.find? n.kind).isSome) (id : String) (m : Node)
    (hm : (g.put n).node? id = some m) : ((g.put n).kinds.find? m.kind).isSome := by
  rw [node?_put] at hm
  rw [kinds_put]
  split at hm
  · rwa [← Option.some.inj hm]
  · exact hg id m hm

/-- A node with a new id disturbs nothing. -/
theorem Sound.put {g : Graph} (hg : g.Sound) {n : Node} (hid : n.id ∉ g.ids)
    (hk : (g.kinds.find? n.kind).isSome) : (g.put n).Sound := by
  -- A node with ports was there before, so it is not the new one.
  have hport : ∀ {node name : String} {side : Side}, (g.port? node name side).isSome →
      ((g.put n).port? node name side).isSome := by
    intro node name side hp
    have hne : node ≠ n.id := by
      rintro rfl
      obtain ⟨m, hm⟩ := node?_of_isSome_port? hp
      exact hid ((mem_ids_iff g _).2 (by rw [hm]; rfl))
    rwa [port?_congr (g := g) (by rw [node?_put, if_neg hne])]
  constructor
  case nodup => exact nodup_ids_put hg.nodup n
  case keyed => exact kinds_put g n ▸ hg.keyed
  case declared => exact declared_put hg.declared hk
  case source => exact fun i w hw => hport (hg.source i w (wires_put g n ▸ hw))
  case target => exact fun i w hw => hport (hg.target i w (wires_put g n ▸ hw))
  all_goals rw [wires_put]
  case loopless => exact hg.loopless
  case single => exact hg.single
  case below => exact nextWire_put g n ▸ hg.below

/-- Where there are no wires, a node can be replaced as well. -/
theorem Sound.put_of_wires_eq_empty {g : Graph} (hg : g.Sound) (hw : g.wires = ∅) {n : Node}
    (hk : (g.kinds.find? n.kind).isSome) : (g.put n).Sound :=
  sound_of_wires_eq_empty (by rw [wires_put, hw]) (nodup_ids_put hg.nodup n)
    (kinds_put g n ▸ hg.keyed) (declared_put hg.declared hk)

/-- Without the wires of a node its removal disturbs nothing. -/
theorem Sound.without {g : Graph} (hg : g.Sound) {id : String}
    (hw : ∀ i w, g.wires.find? i = some w → w.touches id = false) : (g.without id).Sound := by
  have hport : ∀ {node name : String} {side : Side}, node ≠ id →
      (g.port? node name side).isSome → ((g.without id).port? node name side).isSome := by
    intro node name side hne hp
    rwa [port?_congr (g := g) (by rw [node?_without, if_neg hne])]
  -- No end of a wire is lost.
  have hends : ∀ i w, g.wires.find? i = some w → w.source ≠ id ∧ w.target ≠ id := by
    intro i w h
    simpa [Wire.touches] using hw i w h
  constructor
  case nodup => exact (List.filter_sublist.map _).nodup hg.nodup
  case declared =>
    intro j m hm
    rw [node?_without] at hm
    split at hm
    · cases hm
    · exact hg.declared j m hm
  case keyed => exact hg.keyed
  case loopless => exact hg.loopless
  case single => exact hg.single
  case source => exact fun i w h => hport (hends i w h).1 (hg.source i w h)
  case target => exact fun i w h => hport (hends i w h).2 (hg.target i w h)
  case below => exact hg.below

end Graph

namespace Patch

open Patchbay.Graph

variable {p : Patch}

theorem sound_clear (hp : p.Sound) : p.clear.Sound :=
  sound_of_wires_eq_empty rfl List.nodup_nil hp.keyed fun _ _ h => by cases h

/-! ### Making wires -/

/-- The wires are the old ones and the new one. -/
theorem wires_addWire_cases {w v : Wire} {i : WireId} (h : (p.addWire w).wires.find? i = some v) :
    i = p.nextWire ∧ v = w ∨ p.wires.find? i = some v := by
  simp only [addWire, withGraph, Table.find?_insert] at h
  split at h
  next hi => exact .inl ⟨hi, (Option.some.inj h).symm⟩
  next => exact .inr h

/-- A new wire between ports that are there, into a free input, disturbs nothing. -/
theorem sound_addWire (hp : p.Sound) {w : Wire} (hloop : w.source ≠ w.target)
    (hs : (p.port? w.source w.sourcePort .output).isSome)
    (ht : (p.port? w.target w.targetPort .input).isSome)
    (hfree : p.wireAt? w.target w.targetPort .input = none) : (p.addWire w).Sound := by
  have hfree := (p.wireAt?_eq_none_iff _ _ _).1 hfree
  have hnew : ∀ {i v}, p.wires.find? i = some v → v.target = w.target →
      v.targetPort = w.targetPort → False := by
    intro i v hv h₁ h₂
    exact absurd ((endsAt_input _ _ _).2 ⟨h₁, h₂⟩) (by simp [hfree i v hv])
  constructor
  case nodup => exact hp.nodup
  case keyed => exact hp.keyed
  case declared => exact hp.declared
  case loopless =>
    intro i v hv
    rcases wires_addWire_cases hv with ⟨_, rfl⟩ | hv
    · exact hloop
    · exact hp.loopless i v hv
  case single =>
    -- No old wire ends where the new one does.
    intro i j v u hv hu h₁ h₂
    rcases wires_addWire_cases hv with ⟨hi, hvw⟩ | hv <;>
      rcases wires_addWire_cases hu with ⟨hj, huw⟩ | hu
    · rw [hi, hj]
    · exact (hnew hu (hvw ▸ h₁.symm) (hvw ▸ h₂.symm)).elim
    · exact (hnew hv (huw ▸ h₁) (huw ▸ h₂)).elim
    · exact hp.single i j v u hv hu h₁ h₂
  case source =>
    intro i v hv
    rcases wires_addWire_cases hv with ⟨_, rfl⟩ | hv
    · exact hs
    · exact hp.source i v hv
  case target =>
    intro i v hv
    rcases wires_addWire_cases hv with ⟨_, rfl⟩ | hv
    · exact ht
    · exact hp.target i v hv
  case below =>
    intro i v hv
    show i < p.nextWire + 1
    rcases wires_addWire_cases hv with ⟨rfl, _⟩ | hv
    · exact Nat.lt_succ_self _
    · exact Nat.lt_succ_of_lt (hp.below i v hv)

/-- A wire that is not kept is gone. -/
theorem find?_wires_detach {id : WireId} {w : Wire} (h : (p.detach id w).1 = false) :
    (p.detach id w).2.wires.find? id = none := by
  have htell := trimmed_announce (p.cut id) (.removed id w)
  have hcut : (p.cut id).wires.find? id = none := (p.wires.find?_erase id id).trans (if_pos rfl)
  unfold detach at h ⊢
  unfold cut at htell hcut
  generalize Patch.announce _ _ = r at h htell ⊢
  obtain ⟨kept, q⟩ := r
  dsimp only at h htell ⊢
  cases kept with
  | true => cases h
  | false =>
    refine Option.eq_none_iff_forall_ne_some.2 fun v hv => ?_
    cases hcut.symm.trans (htell.wires id v hv)

/-- After the wire at an input is detached for good, none is left there. -/
theorem wireAt?_freeInput (hp : p.Sound) (node port : String)
    (h : (p.freeInput node port).1 = false) :
    (p.freeInput node port).2.wireAt? node port .input = none := by
  unfold freeInput at h ⊢
  cases hw : p.wireAt? node port .input with
  | none => exact hw
  | some e =>
    obtain ⟨id, w⟩ := e
    rw [hw] at h
    dsimp only at h ⊢
    obtain ⟨hfind, hends⟩ := of_wireAt? hw
    refine (wireAt?_eq_none_iff _ _ _ _).2 fun i v hv => ?_
    -- The detached wire is gone, and no other wire of the sound patch ends there.
    have herased : i ≠ id := by
      rintro rfl
      cases (find?_wires_detach h).symm.trans hv
    have hv := (p.trimmed_detach hfind).wires i v hv
    cases hat : v.endsAt node port .input with
    | false => rfl
    | true =>
      obtain ⟨h₁, h₂⟩ := (endsAt_input _ _ _).1 hends
      obtain ⟨h₃, h₄⟩ := (endsAt_input _ _ _).1 hat
      exact absurd (hp.single i id v w hv hfind (h₃.trans h₁.symm) (h₄.trans h₂.symm)) herased

/-- What `connect` comes to: the patch with edited nodes and fewer wires, and with the new wire if
it was made. -/
theorem connect_cases (hp : p.Sound) (w : Wire) :
    (∃ q, p.Trimmed q ∧ p.connect w = (none, q)) ∨
      ∃ q, p.Trimmed q ∧ w.source ≠ w.target ∧
        (q.port? w.source w.sourcePort .output).isSome ∧
        (q.port? w.target w.targetPort .input).isSome ∧
        q.wireAt? w.target w.targetPort .input = none ∧
        p.connect w = (some q.nextWire, q.addWire w) := by
  unfold connect
  split
  next ha =>
    have hloop : w.source ≠ w.target := by
      simp only [Graph.admits, Bool.and_eq_true, decide_eq_true_eq] at ha
      exact ha.1.1
    -- The hooks at the old wire run first, then those at the new one; both only trim the patch.
    have htrim := p.trimmed_freeInput w.target w.targetPort
    have hfree := wireAt?_freeInput hp w.target w.targetPort
    generalize p.freeInput w.target w.targetPort = r at htrim hfree
    obtain ⟨kept, q⟩ := r
    dsimp only at htrim hfree ⊢
    split
    next => exact .inl ⟨q, htrim, rfl⟩
    next hkept =>
      split
      next => exact .inl ⟨q, htrim, rfl⟩
      next s t hst =>
        have htell := q.trimmed_announce (.created w s.id t.id)
        generalize q.announce (.created w s.id t.id) = r at htell
        obtain ⟨cancelled, r⟩ := r
        dsimp only at htell ⊢
        split
        next => exact .inl ⟨r, htrim.trans htell, rfl⟩
        next =>
          obtain ⟨hs, ht⟩ := typesOf?_isSome hst
          refine .inr ⟨r, htrim.trans htell, hloop, htell.isSome_port? hs, htell.isSome_port? ht,
            ?_, rfl⟩
          have hnone := (wireAt?_eq_none_iff _ _ _ _).1 (hfree (by simpa using hkept))
          exact (wireAt?_eq_none_iff _ _ _ _).2 fun i v hv => hnone i v (htell.wires i v hv)
  next => exact .inl ⟨p, .refl p, rfl⟩

theorem sound_connect (hp : p.Sound) (w : Wire) : (p.connect w).2.Sound := by
  obtain ⟨q, hq, h⟩ | ⟨q, hq, hloop, hs, ht, hfree, h⟩ := connect_cases hp w
  · rw [h]
    exact hp.trimmed hq.toTrimmed
  · rw [h]
    exact sound_addWire (hp.trimmed hq.toTrimmed) hloop hs ht hfree

/-- A wire that is made has the next number, and its number is never given again. -/
theorem nextWire_connect (hp : p.Sound) (w : Wire) :
    p.nextWire ≤ (p.connect w).2.nextWire ∧
      ∀ i, (p.connect w).1 = some i → i = p.nextWire ∧ i < (p.connect w).2.nextWire := by
  obtain ⟨q, hq, h⟩ | ⟨q, hq, _, _, _, _, h⟩ := connect_cases hp w
  · rw [h]
    exact ⟨Nat.le_of_eq hq.nextWire.symm, fun _ h => by cases h⟩
  · rw [h, ← hq.nextWire]
    refine ⟨Nat.le_succ _, fun i hi => ?_⟩
    obtain rfl := Option.some.inj hi
    exact ⟨rfl, Nat.lt_succ_self _⟩

/-! ### Inserting and removing nodes -/

/-- What `insert` comes to: a node of a declared kind is put into the graph under the id. -/
theorem insert_cases (hp : ∀ k d, p.kinds.find? k = some d → d.id = k) {kind id : String}
    {position : Position} {q : Patch} (h : p.insert kind id position = .ok q) :
    ∃ n : Node, n.id = id ∧ (p.kinds.find? n.kind).isSome ∧
      q = p.withGraph (p.toGraph.put n) := by
  unfold insert at h
  split at h
  next => cases h
  next d hd =>
    have hkind : (p.kinds.find? d.id).isSome := by rw [hp kind d hd, hd]; rfl
    simp only [Except.ok.injEq] at h
    split at h
    next hook _ =>
      have hgrown := (Node.ofDeclaration d id position).grown_edit
        (hook (Node.ofDeclaration d id position) p.toGraph)
      exact ⟨_, hgrown.id, hgrown.kind ▸ hkind, h.symm⟩
    next => exact ⟨_, rfl, hkind, h.symm⟩

theorem sound_insert (hp : p.Sound) {kind id : String} {position : Position} {q : Patch}
    (hid : id ∉ p.ids) (h : p.insert kind id position = .ok q) : q.Sound := by
  obtain ⟨n, rfl, hkind, rfl⟩ := insert_cases hp.keyed h
  exact hp.put hid hkind

/-- Once the wires at some ports of a node are detached or kept, what is left is dropped with it. -/
theorem sound_remove (hp : p.Sound) (id : String) : (p.remove id).2.Sound := by
  unfold remove
  split
  next => exact hp
  next node _ =>
    refine (hp.trimmed (p.trimmed_unwired id node).toTrimmed).without fun i w hw => ?_
    exact ((find?_wires_dropWires _ _ i w).1 hw).2

theorem nextWire_remove (p : Patch) (id : String) : (p.remove id).2.nextWire = p.nextWire := by
  unfold remove
  split
  next => rfl
  next node _ => exact (p.trimmed_unwired id node).nextWire

/-- Removing a node makes no wires. -/
theorem wires_of_remove {id : String} {i : WireId} {w : Wire}
    (hw : (p.remove id).2.wires.find? i = some w) : p.wires.find? i = some w := by
  unfold remove at hw
  split at hw
  next => exact hw
  next node _ => exact (p.trimmed_unwired id node).wires i w hw

/-! ### Restoring snapshots -/

theorem trimmed_restoreValues (p : Patch) (node : String) (side : Side) (values : PortValues) :
    p.Trimmed (p.restoreValues node side values) := by
  refine trimmed_foldl (fun p e => ?_) values.entries p
  split
  · exact p.trimmed_edit node _
  · exact ⟨.refl _, rfl, by simp [dropped, note]⟩

/-- A node that was just inserted, with the values and the data of a snapshot. -/
def fill (p : Patch) (s : NodeState) : Patch :=
  ((p.restoreValues s.id .input s.inputs).restoreValues s.id .output s.outputs).edit s.id
    (.setData s.data)

theorem trimmed_fill (p : Patch) (s : NodeState) : p.Trimmed (p.fill s) :=
  ((p.trimmed_restoreValues s.id .input s.inputs).trans
    (trimmed_restoreValues _ s.id .output s.outputs)).trans (trimmed_edit _ s.id _)

/-- What `restoreNode` comes to: a node is inserted and then edited. -/
theorem restoreNode_cases {s : NodeState} {q : Patch} (h : p.restoreNode s = .ok q) :
    ∃ r, p.insert s.kind s.id s.position = .ok r ∧ q = r.fill s := by
  unfold restoreNode at h
  cases hr : p.insert s.kind s.id s.position with
  | error e =>
    rw [hr] at h
    cases h
  | ok r =>
    rw [hr] at h
    exact ⟨r, rfl, (Except.ok.inj h).symm⟩

/-- Where there are no wires, nodes can be replaced as well. -/
theorem sound_restoreNode (hp : p.Sound) (hw : p.wires = ∅) {s : NodeState} {q : Patch}
    (h : p.restoreNode s = .ok q) : q.Sound ∧ q.wires = ∅ ∧ q.nextWire = p.nextWire := by
  obtain ⟨r, hr, hq⟩ := restoreNode_cases h
  have hrq : r.Trimmed q := hq ▸ r.trimmed_fill s
  obtain ⟨n, _, hkind, rfl⟩ := insert_cases hp.keyed hr
  have hs : (p.toGraph.put n).Sound := hp.put_of_wires_eq_empty hw hkind
  refine ⟨hs.trimmed hrq.toTrimmed, Table.ext_find? fun i => ?_, ?_⟩
  · cases hq : q.wires.find? i with
    | none => rfl
    | some v => exact absurd (hrq.wires i v hq) (by simp [withGraph, hw])
  · exact hrq.nextWire.trans (nextWire_put p.toGraph n)

theorem sound_restoreWire (hp : p.Sound) (w : Wire) :
    (p.restoreWire w).Sound ∧ p.nextWire ≤ (p.restoreWire w).nextWire := by
  have hs := sound_connect hp w
  have hn := (nextWire_connect hp w).1
  unfold restoreWire
  split
  next h => exact ⟨by rwa [h] at hs, by rwa [h] at hn⟩
  next h => exact ⟨by rwa [h] at hs, by rwa [h] at hn⟩

/-- What `restore` comes to: after everything was cleared, all nodes are restored, then all wires.
-/
theorem restore_cases {s : Snapshot} {q : Patch} (h : p.restore s = .ok q) :
    ∃ r, s.nodes.foldlM restoreNode p.clear = .ok r ∧ q = s.wires.foldl restoreWire r := by
  unfold restore at h
  split at h
  next => cases h
  next =>
    cases hfold : s.nodes.foldlM restoreNode p.clear with
    | error e =>
      rw [hfold] at h
      cases h
    | ok r =>
      rw [hfold] at h
      exact ⟨r, rfl, (Except.ok.inj h).symm⟩

/-- While nodes are restored there are no wires, which allows for ids that are listed twice. -/
theorem sound_restoreNodes (hp : p.Sound) {ns : List NodeState} {r : Patch}
    (h : ns.foldlM restoreNode p.clear = .ok r) :
    r.Sound ∧ r.wires = ∅ ∧ r.nextWire = p.nextWire := by
  have hclear : p.clear.Sound ∧ p.clear.wires = ∅ ∧ p.clear.nextWire = p.nextWire :=
    ⟨sound_clear hp, rfl, rfl⟩
  exact foldlM_keeps
    (fun r => r.Sound ∧ r.wires = ∅ ∧ r.nextWire = p.nextWire) h hclear
    fun r n r' _ hr hone => by
      obtain ⟨hs, hw, hn⟩ := hr
      obtain ⟨hs', hw', hn'⟩ := sound_restoreNode hs hw hone
      exact ⟨hs', hw', hn'.trans hn⟩

theorem sound_restoreWires (hp : p.Sound) (ws : List Wire) :
    (ws.foldl restoreWire p).Sound ∧ p.nextWire ≤ (ws.foldl restoreWire p).nextWire := by
  have hwires : ∀ r : Patch, r.Sound ∧ p.nextWire ≤ r.nextWire → ∀ w ∈ ws,
      (r.restoreWire w).Sound ∧ p.nextWire ≤ (r.restoreWire w).nextWire := by
    rintro r ⟨hs, hn⟩ w _
    obtain ⟨hs', hn'⟩ := sound_restoreWire hs w
    exact ⟨hs', Nat.le_trans hn hn'⟩
  exact List.foldlRecOn (motive := fun r : Patch => r.Sound ∧ p.nextWire ≤ r.nextWire)
    ws restoreWire ⟨hp, Nat.le_refl _⟩ hwires

/-- A restored patch is sound, whatever was in the patch and is in the snapshot. -/
theorem sound_restore (hp : p.Sound) {s : Snapshot} {q : Patch} (h : p.restore s = .ok q) :
    q.Sound ∧ p.nextWire ≤ q.nextWire := by
  obtain ⟨r, hfold, rfl⟩ := restore_cases h
  obtain ⟨hs, _, hn⟩ := sound_restoreNodes hp hfold
  exact hn ▸ sound_restoreWires hs s.wires

end Patch

end Patchbay
