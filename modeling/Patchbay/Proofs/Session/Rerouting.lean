import Patchbay.Proofs.Run.Rerouted
import Patchbay.Proofs.Session.Showing

/-!
# Leading a wire through a reroute

A wire is led through a reroute in three steps: the reroute is inserted, a wire is made into it that
comes from where the old one does, and then one out of it, to where the old one leads, which gives
way (`Patch.Rerouted`). The reroute takes the type of the source when it is told of the first wire,
and does not heed the second one. So if all other nodes keep the types of their ports all the while,
and the values of their inputs, the graph is the one before with a detour.

The ends of the three wires are told of each step, and what their hooks make of it is up to them. A
hook that changes a value is noticed by whoever calculates with that value. And the reroute learns
what it is wired to from an event that the hook of the source has had before. If that has turned the
event into another one, the reroute goes on taking anything.

## Key results

- `Patch.wired_connect`: the wires that are left when another one is made
- `Patch.Rerouted.detours`: the graph in the end is that of before with a detour
- `Engine.runNode_rerouted`: runs of a node end alike
- `Engine.runNode_rerouted_latch`: but not if a hook has changed a value on the way, or an event
-/

namespace Patchbay

namespace Patch

open Patchbay.Graph

variable {p q : Patch} {r id : String} {w v : Wire} {t : PortType} {i j : WireId}

/-! ### Wires that are made -/

/-- A wire that is made takes the place of the one that leads to the same port. -/
theorem find?_connect_of_made (hs : p.Sound) (h : p.connect w = (some j, q)) :
    q.wires.find? i = some v ↔ i = j ∧ v = w ∨
      p.wires.find? i = some v ∧ ¬ (v.target = w.target ∧ v.targetPort = w.targetPort) := by
  obtain ⟨hw, s, a, b, hfreed, _, _⟩ := (p.isSome_connect_iff w).1 (by rw [h]; rfl)
  have hfind := find?_connect hs w i v
  rw [h] at hfind
  rw [hfind, Option.some.injEq, eq_comm (a := j)]
  refine or_congr_right (and_congr_right fun hv => not_congr ⟨fun hreplaces => ?_, fun hends => ?_⟩)
  · exact (endsAt_input _ _ _).1 (of_wireAt? hreplaces.found).2
  · have hfound := hs.wireAt?_eq_some_iff.2 ⟨hv, (endsAt_input _ _ _).2 hends⟩
    refine ⟨hw, hfound, ?_⟩
    -- The wire that was made has found its port free.
    cases hfreed with
    | already hnone => cases hnone.symm.trans hfound
    | detached k u hfound' hfree =>
      obtain ⟨rfl, rfl⟩ := Prod.mk.inj (Option.some.inj (hfound.symm.trans hfound'))
      exact hfree

theorem wired_connect (hs : p.Sound) (h : p.connect w = (some j, q)) : q.Wired v ↔
    v = w ∨ p.Wired v ∧ ¬ (v.target = w.target ∧ v.targetPort = w.targetPort) := by
  simp only [Wired, find?_connect_of_made hs h]
  constructor
  · rintro ⟨i, ⟨_, hv⟩ | ⟨hv, hends⟩⟩
    · exact .inl hv
    · exact .inr ⟨⟨i, hv⟩, hends⟩
  · rintro (rfl | ⟨⟨i, hv⟩, hends⟩)
    · exact ⟨j, .inl ⟨rfl, rfl⟩⟩
    · exact ⟨i, .inr ⟨hv, hends⟩⟩

/-- A reroute takes the type that the source has in the end, if it is told of this wire and not of
something that the source has put in its place. -/
theorem Shows.connect_into (hs : p.Sound) (hp : p.Genuine) (hkeeps : p.KeepsChangeAt w.source)
    (hr : p.Shows r t none) (h : p.connect w = (some j, q))
    (hends : w.endsAt r "in" .input = true) :
    ∃ u, q.Shows r u (some (j, w)) ∧ q.typeOf? w.source w.sourcePort .output = some u := by
  have hwire : q.wireAt? r "in" .input = some (j, w) := by
    have hsound := sound_connect hs w
    rw [h] at hsound
    exact hsound.wireAt?_eq_some_iff.2 ⟨(find?_connect_of_made hs h).2 (.inl ⟨rfl, rfl⟩), hends⟩
  have hattempt := p.attempt_connect w
  rw [h] at hattempt
  cases hattempt with
  | made hw hfreed hjoins hveto =>
    obtain ⟨htarget, hport⟩ := (endsAt_input _ _ _).1 hends
    cases hfreed with
    | already =>
      obtain ⟨u, htold, hsource⟩ := hr.announce_created hp hkeeps hw.1 hends hveto
        (by rw [hjoins.source]; rfl)
      exact ⟨u, htold.congr rfl hwire, hsource⟩
    | detached i v hfound =>
      rw [htarget, hport, hr.wire] at hfound
      cases hfound

/-- A reroute does not change when a wire is made that leads to another node. -/
theorem Shows.connect_of_target_ne (hs : p.Sound) (hp : p.Genuine) (hr : p.Shows r t (some (i, v)))
    (h : p.connect w = (some j, q)) (hne : w.target ≠ r) : q.Shows r t (some (i, v)) := by
  obtain ⟨hv, hvr⟩ := of_wireAt? hr.wire
  have hwire : q.wireAt? r "in" .input = some (i, v) := by
    have hsound := sound_connect hs w
    rw [h] at hsound
    refine hsound.wireAt?_eq_some_iff.2 ⟨(find?_connect_of_made hs h).2 (.inr ⟨hv, ?_⟩), hvr⟩
    exact fun hsame => hne (hsame.1.symm.trans ((endsAt_input _ _ _).1 hvr).1)
  have hattempt := p.attempt_connect w
  rw [h] at hattempt
  cases hattempt with
  | @made q a b hw hfreed _ _ =>
    have hfree : ∃ o, q.Shows r t o := by
      cases hfreed with
      | already => exact ⟨_, hr⟩
      | detached k u hfound =>
        obtain ⟨hu, hends⟩ := of_wireAt? hfound
        have htarget : u.target ≠ r := ((endsAt_input _ _ _).1 hends).1 ▸ hne
        have hcut : (p.cut k).Shows r t _ := hr.congr rfl rfl
        exact ⟨_, hcut.announce_of_target_ne (c := .removed k u) (hp.trimmed (p.trimmed_cut k))
          (hs.loopless k u hu) htarget⟩
    obtain ⟨o, hfree⟩ := hfree
    exact (hfree.announce_of_target_ne (c := .created w a.type.id b.type.id)
      (hp.trimmed hfreed.trimmed) hw.1 hne).congr rfl hwire

/-! ### A wire that is led through a reroute -/

/-- The patch `q` is sound and has the kinds of `p`, and all nodes but `r` are of the kinds that they
were of. -/
structure Upheld (p : Patch) (r : String) (q : Patch) : Prop where
  sound : q.Sound
  sameKinds : p.SameKinds q
  kindOf? : ∀ id, id ≠ r → q.kindOf? id = p.kindOf? id

theorem Upheld.trans {s : Patch} (h₁ : p.Upheld r q) (h₂ : q.Upheld r s) : p.Upheld r s where
  sound := h₂.sound
  sameKinds := h₁.sameKinds.trans h₂.sameKinds
  kindOf? := fun id hid => (h₂.kindOf? id hid).trans (h₁.kindOf? id hid)

theorem Upheld.behaviour (h : p.Upheld r q)
    (hb : p.behaviour "reroute" = Builtin.reroute.behaviour) :
    q.behaviour "reroute" = Builtin.reroute.behaviour :=
  (congrFun h.sameKinds.behaviour _).trans hb

/-- The other nodes have the hooks that they had. -/
theorem Upheld.keepsChangeAt (h : p.Upheld r q) (hid : id ≠ r) (hp : p.KeepsChangeAt id) :
    q.KeepsChangeAt id := by
  intro hook hhook
  refine hp hook ?_
  rwa [hook?, h.kindOf? id hid, h.sameKinds.behaviour] at hhook

theorem upheld_insert (hs : p.Sound) (hr : r ∉ p.ids) {kind : String} {position : Position}
    (h : p.insert kind r position = .ok q) : p.Upheld r q where
  sound := sound_insert hs hr h
  sameKinds := sameKinds_insert hs h
  kindOf? := fun id hid => by
    obtain ⟨n, hn, _, rfl⟩ := insert_cases hs.keyed h
    exact kindOf?_congr ((node?_put _ _ _).trans (if_neg (hn ▸ hid)))

theorem upheld_connect (hs : p.Sound) (hb : p.behaviour "reroute" = Builtin.reroute.behaviour)
    (h : p.connect w = (some j, q)) : p.Upheld r q := by
  have hsound := sound_connect hs w
  have hkinds := sameKinds_connect hs w
  have hkind : ∀ id, (p.connect w).2.kindOf? id = p.kindOf? id := fun id => by
    obtain ⟨_, hminded⟩ := exists_minded_connect (fun _ _ => hb) w id
    exact hminded.kindOf?
  rw [h] at hsound hkinds hkind
  exact ⟨hsound, hkinds, fun id _ => hkind id⟩

/-- From `p` the wire `w` was led through a new reroute `r`: into it in `p₂`, and out of it in `p₃`,
where it takes the place of the old wire. -/
structure Rerouted (p : Patch) (w : Wire) (r : String) (p₂ p₃ : Patch) : Prop where
  kind : p.kinds.find? "reroute" = some Builtin.reroute.declaration
  behaviour : p.behaviour "reroute" = Builtin.reroute.behaviour
  new : r ∉ p.ids
  made : ∃ position p₁ i j, p.insert "reroute" r position = .ok p₁ ∧
    p₁.connect (w.into r) = (some i, p₂) ∧ p₂.connect (w.outOf r) = (some j, p₃)

section Rerouted

variable {p₂ p₃ : Patch}

/-- What is known after each of the three steps. -/
theorem Rerouted.exists_steps (h : p.Rerouted w r p₂ p₃) (hs : p.Sound) : ∃ p₁ i j,
    p.Upheld r p₁ ∧ p₁.Upheld r p₂ ∧ p₂.Upheld r p₃ ∧ p₁.Shows r .any none ∧
      p₁.wires = p.wires ∧ p₁.connect (w.into r) = (some i, p₂) ∧
      p₂.connect (w.outOf r) = (some j, p₃) := by
  obtain ⟨position, p₁, i, j, hinsert, hinto, hout⟩ := h.made
  have h₁ := upheld_insert hs h.new hinsert
  have h₂ : p₁.Upheld r p₂ := upheld_connect h₁.sound (h₁.behaviour h.behaviour) hinto
  have h₃ : p₂.Upheld r p₃ :=
    upheld_connect h₂.sound (h₂.behaviour (h₁.behaviour h.behaviour)) hout
  refine ⟨p₁, i, j, h₁, h₂, h₃, shows_insert hs h.new h.kind h.behaviour hinsert, ?_, hinto, hout⟩
  obtain ⟨n, _, _, rfl⟩ := insert_cases hs.keyed hinsert
  exact wires_put p.toGraph n

/-- The reroute has the type that the source had after the first wire was made. -/
theorem Rerouted.shows (h : p.Rerouted w r p₂ p₃) (hs : p.Sound) (hsource : w.source ≠ r)
    (htarget : w.target ≠ r) (hkeeps : p.KeepsChangeAt w.source) :
    ∃ i u, p₃.Shows r u (some (i, w.into r)) ∧
      p₂.typeOf? w.source w.sourcePort .output = some u := by
  obtain ⟨p₁, i, j, h₁, h₂, -, hnew, -, hinto, hout⟩ := h.exists_steps hs
  have hb₁ := h₁.behaviour h.behaviour
  obtain ⟨u, hshows, hu⟩ := hnew.connect_into (w := w.into r) h₁.sound (fun _ _ => hb₁)
    (h₁.keepsChangeAt hsource hkeeps) hinto ((endsAt_input _ _ _).2 ⟨rfl, rfl⟩)
  have hb₂ := h₂.behaviour hb₁
  exact ⟨i, u, hshows.connect_of_target_ne h₂.sound (fun _ _ => hb₂) hout htarget, hu⟩

/-- The wires in the end: the two that lead through the reroute, and all others. -/
theorem Rerouted.wired (h : p.Rerouted w r p₂ p₃) (hs : p.Sound) (hw : p.Wired w)
    (hr : ∀ v, p.Wired v → v.target ≠ r) (v : Wire) :
    p₃.Wired v ↔ v = w.into r ∨ v = w.outOf r ∨ p.Wired v ∧ v ≠ w := by
  obtain ⟨p₁, i, j, h₁, h₂, -, -, hwires, hinto, hout⟩ := h.exists_steps hs
  have hsame : p₁.Wired v ↔ p.Wired v := by rw [Wired, Wired, hwires]
  rw [wired_connect h₂.sound hout, wired_connect h₁.sound hinto, hsame]
  constructor
  · rintro (hv | ⟨hv | ⟨hv, _⟩, hends⟩)
    · exact .inr (.inl hv)
    · exact .inl hv
    · refine .inr (.inr ⟨hv, ?_⟩)
      rintro rfl
      exact hends ⟨rfl, rfl⟩
  · rintro (rfl | hv | ⟨hv, hne⟩)
    · exact .inr ⟨.inl rfl, fun hends => hr w hw hends.1.symm⟩
    · exact .inl hv
    · refine .inr ⟨.inr ⟨hv, fun hends => hr v hv hends.1⟩, fun hends => hne ?_⟩
      exact hs.eq_of_wired hv hw hends.1 hends.2

/-- Whether a node has control ports is up to its kind. -/
theorem usesFlow_eq (g : Graph) (id : String) :
    g.usesFlow id = (g.kindOf? id).any fun k => (g.kinds.find? k).any Declaration.usesFlow := by
  rw [Graph.usesFlow, Graph.kindOf?]
  cases g.node? id <;> rfl

/-- If the other nodes keep the types of their ports, after the first wire as well as in the end, and
the values of their inputs, and the source does not make an event be about something else, then the
graph is that of before with a detour. -/
theorem Rerouted.detours (h : p.Rerouted w r p₂ p₃) (hs : p.Sound) (hw : p.Wired w)
    (hdata : w.isFlow = false) (hports₂ : p.KeepsPorts p₂.toGraph r)
    (hports₃ : p.KeepsPorts p₃.toGraph r) (hvalues : p.KeepsValues p₃.toGraph r)
    (hkeeps : p.KeepsChangeAt w.source) : p.Detours p₃.toGraph w r := by
  obtain ⟨p₁, i, j, h₁, h₂, h₃, -⟩ := h.exists_steps hs
  have hall := (h₁.trans h₂).trans h₃
  have hnone : p.node? r = none := (node?_eq_none_iff _ _).2 h.new
  obtain ⟨hsource, htarget⟩ := hs.ends_ne hnone hw
  -- What the reroute shows in the end is the type of the source after the first wire.
  obtain ⟨k, u, hshows, hu⟩ := h.shows hs hsource htarget hkeeps
  refine ⟨hall.sameKinds.conversions, hw, hdata,
    h.wired hs hw fun v hv => (hs.ends_ne hnone hv).2, hnone, fun id hid => ?_, hports₃,
    fun id => ?_, hshows.kind, u, ?_, hshows.input, hshows.output⟩
  · have hkind := hall.kindOf? id hid
    unfold Graph.kindOf? at hkind
    cases hm : p.node? id with
    | none =>
      rw [hm, Option.map_none, Option.map_eq_none_iff] at hkind
      exact .inl ⟨rfl, hkind⟩
    | some m =>
      rw [hm, Option.map_some] at hkind
      obtain ⟨n, hn, hmn⟩ := Option.map_eq_some_iff.1 hkind
      exact .inr ⟨m, n, rfl, hn, hmn, hvalues id m n hid hm hn⟩
  · rw [usesFlow_eq, hall.sameKinds.kinds]
    split
    next hid =>
      subst hid
      rw [hshows.kind, Option.any_some, h.kind]
      rfl
    next hid => rw [hall.kindOf? id hid, ← usesFlow_eq]
  · -- The source has the type after the first wire that it had before.
    obtain ⟨l, hl⟩ := hw
    obtain ⟨a, ha⟩ := Option.isSome_iff_exists.1 (hs.source l w hl)
    have htype : p.typeOf? w.source w.sourcePort .output = some a.type := by
      rw [typeOf?, ha, Option.map_some]
    rw [htype, ← hports₂ _ _ _ _ hsource htype, hu]

end Rerouted

end Patch

namespace Engine

open Patchbay.Graph

variable {e e' : Engine} {p : Patch} {w : Wire} {r node : String}

theorem behaviour_of_ofPatch {refusal : Option String} (he : Engine.ofPatch p refusal = .ok e) :
    e.behaviour = p.behaviour := by
  unfold ofPatch at he
  split at he
  · rw [← Except.ok.inj he]
  · cases he

/-- A wire that carries values is led through a new reroute, while the other nodes keep the types of
their ports and the values of their inputs, and the hook of the source, if it has one, does not turn
an event into one about something else. Then a node whose sources have no control ports, do not feed
themselves and calculate from inputs alone is evaluated alike before and after, if no outputs are
kept: with the same outputs of the node and of all that was upstream of it, or with an error in both
cases. -/
theorem runNode_rerouted {session : Session} (hreach : session.Reachable)
    (hw : session.patch.Wired w) (hdata : w.isFlow = false) {p₂ p₃ : Patch}
    (hrerouted : session.patch.Rerouted w r p₂ p₃)
    (hports₂ : session.patch.KeepsPorts p₂.toGraph r)
    (hports₃ : session.patch.KeepsPorts p₃.toGraph r)
    (hvalues : session.patch.KeepsValues p₃.toGraph r)
    (hkeeps : session.patch.KeepsChangeAt w.source) {refusal refusal' : Option String}
    (he : Engine.ofPatch session.patch refusal = .ok e) (he' : Engine.ofPatch p₃ refusal' = .ok e')
    {s s' : RunState} (hs : e.Between s) (hs' : e'.Between s') (hcache : s.cache = ∅)
    (hcache' : s'.cache = ∅) (hnode : (e.graph.node? node).isSome) (hp : e.Pullable node)
    (hdet : e.Determined node) {allowance allowance' : Nat}
    (hallowance : e.graph.nodes.length ≤ allowance)
    (hallowance' : e'.graph.nodes.length ≤ allowance') :
    (∃ out t t', e.runNode allowance node s = (.done out, t) ∧
      e'.runNode allowance' node s' = (.done out, t') ∧
      ∀ m, e.graph.Upstream m node → ∃ o, t.cache.find? m = some o ∧ t'.cache.find? m = some o) ∨
    (∃ err t, e.runNode allowance node s = (.failed err, t)) ∧
      ∃ err t', e'.runNode allowance' node s' = (.failed err, t') := by
  have hsound : session.patch.Sound := (Session.wired_of_reachable hreach).sound
  obtain ⟨p₁, i, j, h₁, h₂, h₃, -⟩ := hrerouted.exists_steps hsound
  have hall := (h₁.trans h₂).trans h₃
  have hd : e.Detours e' w r := by
    refine ⟨?_, ?_, ?_, ?_, ?_⟩
    · rw [graph_of_ofPatch he, graph_of_ofPatch he']
      exact hrerouted.detours hsound hw hdata hports₂ hports₃ hvalues hkeeps
    · exact graph_of_ofPatch he ▸ hsound
    · exact graph_of_ofPatch he' ▸ hall.sound
    · rw [behaviour_of_ofPatch he, behaviour_of_ofPatch he', hall.sameKinds.behaviour]
    · rw [behaviour_of_ofPatch he, hrerouted.behaviour]
  exact hd.runNode hnode hp hdet hcache hcache' hs.evaluating hs'.evaluating hallowance hallowance'

/-! ### Hooks that get in the way -/

/-- Its output says whether a wire was ever taken away that led to the node: the value of an input is
set then. -/
def latch : Kind where
  declaration :=
    { Declaration.plain "latch" "example" with
      inputs := [("in", .any "In"), ("lost", { Port.any "Lost" with value := some (.bool false) })]
      outputs := [("out", .any "Out")] }
  behaviour :=
    { onUpdate := some fun event node _ =>
        match event.change with
        | .created _ _ _ => (event, [])
        | .removed _ w =>
          if w.target = node.id then (event, [.setValue "lost" .input (.bool true)])
          else (event, [])
      calculate := fun v => .done (.singleton "out" (v.value "lost")) }

/-- Passes a number through, whatever becomes of it. -/
def gauge : Kind where
  declaration :=
    { Declaration.plain "gauge" "example" with
      inputs := [("in", .number "In")]
      outputs := [("out", .any "Out")] }
  behaviour := { calculate := fun v => .done (.singleton "out" (v.value "in")) }

/-- A text is compared with itself, and led to a node that remembers lost wires. A forger is wired to
a gauge, which gets its truth value as a number. -/
def latched : Session :=
  (Session.start true .base 1).performAll
    [.declare Builtin.text, .declare Builtin.equals, .declare Builtin.reroute, .declare latch,
      .declare Session.forger, .declare gauge,
      .insert "text" "word" .origin, .insert "equals" "same" .origin,
      .insert "latch" "latch" .origin, .insert "forger" "forger" .origin,
      .insert "gauge" "gauge" .origin, .connect ⟨"word", "value", "same", "a"⟩,
      .connect ⟨"word", "value", "same", "b"⟩, .connect ⟨"word", "value", "latch", "in"⟩,
      .connect ⟨"forger", "out", "gauge", "in"⟩]

def latchEngine : Engine := ⟨latched.patch.toGraph, latched.patch.behaviour, none⟩

theorem reachable_latched : latched.Reachable :=
  Session.Reaches.performAll (.start true .base 1) (by decide +kernel)

theorem feeds_latched {m n : String} (h : latchEngine.graph.Feeds m n) :
    (m = "word" ∨ m = "forger") ∧ (n = "same" ∨ n = "latch" ∨ n = "gauge") := by
  have hwires : latchEngine.graph.wires.entries =
      [(0, ⟨"word", "value", "same", "a"⟩), (1, ⟨"word", "value", "same", "b"⟩),
        (2, ⟨"word", "value", "latch", "in"⟩), (3, ⟨"forger", "out", "gauge", "in"⟩)] := rfl
  obtain ⟨i, w, hw, _, rfl, rfl⟩ := h
  have hmem := Table.mem_entries_iff.2 hw
  rw [hwires] at hmem
  simp only [List.mem_cons, Prod.mk.injEq, List.not_mem_nil, or_false] at hmem
  rcases hmem with ⟨_, rfl⟩ | ⟨_, rfl⟩ | ⟨_, rfl⟩ | ⟨_, rfl⟩ <;> decide

theorem upstream_latched {m n : String} (h : latchEngine.graph.Upstream m n) :
    m = "word" ∨ m = "forger" ∨ m = n := by
  rcases Relation.ReflTransGen.cases_head h with rfl | ⟨_, hm, _⟩
  · exact .inr (.inr rfl)
  · exact (feeds_latched hm).1.imp_right .inl

theorem pullable_latched {n : String} (hn : n = "same" ∨ n = "latch" ∨ n = "gauge") :
    latchEngine.Pullable n where
  free := fun m hm => by
    rcases upstream_latched hm with rfl | rfl | rfl
    · rfl
    · rfl
    · rcases hn with rfl | rfl | rfl <;> rfl
  acyclic := fun m _ hcycle => by
    obtain ⟨_, hm, _⟩ := Relation.TransGen.head'_iff.1 hcycle
    obtain ⟨_, _, hback⟩ := Relation.TransGen.tail'_iff.1 hcycle
    -- No node is at both ends of wires.
    have hsource := (feeds_latched hm).1
    have htarget := (feeds_latched hback).2
    rcases hsource with rfl | rfl <;> revert htarget <;> decide

/-- All kinds of nodes there calculate from inputs alone. -/
theorem determined_latched {n : String} (hn : n = "same" ∨ n = "latch" ∨ n = "gauge") :
    latchEngine.Determined n := by
  intro m k hm hk
  have hkinds : (latchEngine.graph.node? "word").map (·.kind) = some "text" ∧
      (latchEngine.graph.node? "forger").map (·.kind) = some "forger" ∧
      (latchEngine.graph.node? "same").map (·.kind) = some "equals" ∧
      (latchEngine.graph.node? "latch").map (·.kind) = some "latch" ∧
      (latchEngine.graph.node? "gauge").map (·.kind) = some "gauge" :=
    ⟨rfl, rfl, rfl, rfl, rfl⟩
  have hkind : k.kind ∈ ["text", "forger", "equals", "latch", "gauge"] := by
    rcases upstream_latched hm with rfl | rfl | rfl
    · simp_all
    · simp_all
    · rcases hn with rfl | rfl | rfl <;> simp_all
  simp only [List.mem_cons, List.not_mem_nil, or_false] at hkind
  rcases hkind with hkind | hkind | hkind | hkind | hkind <;> rw [hkind]
  · exact ⟨fun inputs => some (.singleton "value" (.string
      (Evaluation.text ⟨k, latchEngine.graph, inputs, ∅⟩ "value"))), fun _ => rfl⟩
  · exact ⟨fun _ => some (.singleton "out" (.bool true)), fun _ => rfl⟩
  · exact ⟨fun inputs => some (.singleton "result" (.bool (Builtin.valuesEqual
      ((inputs.find? "a").getD .null) ((inputs.find? "b").getD .null)))), fun _ => rfl⟩
  · exact ⟨fun inputs => some (.singleton "out" ((inputs.find? "lost").getD .null)), fun _ => rfl⟩
  · exact ⟨fun inputs => some (.singleton "out" ((inputs.find? "in").getD .null)), fun _ => rfl⟩

/-- The patch with a reroute, and a wire into it that comes from where the given one does. -/
def rerouteInto (w : Wire) : Patch :=
  ((latched.patch.withGraph (latched.patch.put
    (.ofDeclaration Builtin.reroute.declaration "via" .origin))).connect (w.into "via")).2

/-- The same with a wire out of it, to where the given one leads. -/
def rerouteThrough (w : Wire) : Patch := ((rerouteInto w).connect (w.outOf "via")).2

theorem rerouted_latched {w : Wire}
    (hinto : ((latched.patch.withGraph (latched.patch.put
      (.ofDeclaration Builtin.reroute.declaration "via" .origin))).connect (w.into "via")).1 = some 4)
    (hout : ((rerouteInto w).connect (w.outOf "via")).1 = some 5) :
    latched.patch.Rerouted w "via" (rerouteInto w) (rerouteThrough w) where
  kind := rfl
  behaviour := rfl
  new := by decide
  made := ⟨.origin, _, 4, 5, rfl, Prod.ext hinto rfl, Prod.ext hout rfl⟩

/-- One look at each port is enough. -/
theorem keepsPorts_of_nodes {g h : Graph} (r : String)
    (hall : (g.nodes.map fun n => [Side.input, .output].map fun side =>
        (n.portNames side).map fun name => h.typeOf? n.id name side) =
      g.nodes.map fun n => [Side.input, .output].map fun side =>
        (n.portNames side).map fun name => g.typeOf? n.id name side) : g.KeepsPorts h r := by
  intro id name side t _ ht
  cases hn : g.node? id with
  | none =>
    rw [typeOf?, port?, hn] at ht
    cases ht
  | some n =>
    obtain rfl : n.id = id := id_of_node? hn
    have hname : name ∈ n.portNames side := by
      have hport := isSome_port?_of_typeOf? ht
      rw [port?, hn] at hport
      exact Node.mem_portNames hport
    have hnode := List.map_inj_left.1 hall n (List.mem_of_find?_eq_some hn)
    have hside := List.map_inj_left.1 hnode side (by cases side <;> simp)
    rw [List.map_inj_left.1 hside name hname, ht]

theorem keepsValues_of_nodes {g h : Graph} (r : String)
    (hall : (g.nodes.map fun n => (h.node? n.id).map fun m => m.inputs.map Port.value) =
      g.nodes.map fun n => some (n.inputs.map Port.value)) : g.KeepsValues h r := by
  intro id m n _ hm hn
  have hsame := List.map_inj_left.1 hall m (List.mem_of_find?_eq_some hm)
  rwa [id_of_node? hm, hn, Option.map_some, Option.some.injEq] at hsame

/-- The engine over the patch in which a wire leads through the reroute. -/
def detourEngine (w : Wire) : Engine :=
  ⟨(rerouteThrough w).toGraph, (rerouteThrough w).behaviour, none⟩

/-- The text is the same as itself, also when it is led through a reroute for one of the sides. -/
theorem runNode_rerouted_comparison :
    ∃ out t t', latchEngine.runNode 5 "same" (.initial ∅) = (.done out, t) ∧
      (detourEngine ⟨"word", "value", "same", "a"⟩).runNode 6 "same" (.initial ∅) =
        (.done out, t') ∧
      out = .singleton "result" (.bool true) ∧
      ∃ o, t.cache.find? "word" = some o ∧ t'.cache.find? "word" = some o := by
  have hrerouted := rerouted_latched (w := ⟨"word", "value", "same", "a"⟩) rfl rfl
  have hfirst : Engine.ofPatch latched.patch none = .ok latchEngine := rfl
  have hsecond : Engine.ofPatch (rerouteThrough ⟨"word", "value", "same", "a"⟩) none =
      .ok (detourEngine ⟨"word", "value", "same", "a"⟩) := rfl
  have hword : latchEngine.graph.Upstream "word" "same" :=
    .single ⟨0, ⟨"word", "value", "same", "a"⟩, rfl, by decide, rfl, rfl⟩
  have hsame : (latchEngine.runNode 5 "same" (.initial ∅)).1 =
      .done (.singleton "result" (.bool true)) := rfl
  -- Texts have no hook.
  have hhook : latched.patch.hook? "word" = none := rfl
  have hends := runNode_rerouted reachable_latched ⟨0, rfl⟩ (by decide) hrerouted
    (keepsPorts_of_nodes _ rfl) (keepsPorts_of_nodes _ rfl) (keepsValues_of_nodes _ rfl)
    (fun hook h => by cases hhook.symm.trans h)
    hfirst hsecond (.initial ∅) (.initial ∅) rfl rfl rfl (pullable_latched (.inl rfl))
    (determined_latched (.inl rfl))
    (show latchEngine.graph.nodes.length ≤ 5 from Nat.le_refl 5)
    (show (detourEngine ⟨"word", "value", "same", "a"⟩).graph.nodes.length ≤ 6 from Nat.le_refl 6)
  obtain ⟨out, t, t', ht, ht', hkept⟩ | ⟨⟨err, t, ht⟩, _⟩ := hends
  · rw [ht] at hsame
    exact ⟨out, t, t', ht, ht', by cases hsame; rfl, hkept "word" hword⟩
  · rw [ht] at hsame
    cases hsame

/-- All that is asked of a wire that is led through the reroute, but for hooks: it carries values, it
is led through accepted wires, no port changes its type on the way, and the node that it leads to is
one that calculates from inputs alone. -/
structure Diverted (w : Wire) : Prop where
  reachable : latched.Reachable
  wired : latched.patch.Wired w
  data : w.isFlow = false
  rerouted : latched.patch.Rerouted w "via" (rerouteInto w) (rerouteThrough w)
  portsInto : latched.patch.KeepsPorts (rerouteInto w).toGraph "via"
  portsThrough : latched.patch.KeepsPorts (rerouteThrough w).toGraph "via"
  before : Engine.ofPatch latched.patch none = .ok latchEngine
  after : Engine.ofPatch (rerouteThrough w) none = .ok (detourEngine w)
  pullable : latchEngine.Pullable w.target
  determined : latchEngine.Determined w.target

/-- The truth value of an output, if an action ends with one. -/
def truth? (port : String) : Outcome PortValues → Option Bool
  | .done out =>
    match out.find? port with
    | some (.bool b) => some b
    | _ => none
  | _ => none

/-- The node that remembers lost wires is told that it loses one while its wire is led through the
reroute, so its output is another one. And the gauge gets a truth value where it got a number: the
forger does not let the reroute know that it is wired, so that both conversions are from and to the
type that takes anything. -/
theorem runNode_rerouted_latch :
    (Diverted ⟨"word", "value", "latch", "in"⟩ ∧
      truth? "out" (latchEngine.runNode 5 "latch" (.initial ∅)).1 = some false ∧
      truth? "out" ((detourEngine ⟨"word", "value", "latch", "in"⟩).runNode 6 "latch"
        (.initial ∅)).1 = some true) ∧
    Diverted ⟨"forger", "out", "gauge", "in"⟩ ∧
      latched.patch.KeepsValues (rerouteThrough ⟨"forger", "out", "gauge", "in"⟩).toGraph "via" ∧
      (latchEngine.runNode 5 "gauge" (.initial ∅)).1 = .done (.singleton "out" (.ofNat 1)) ∧
      truth? "out" ((detourEngine ⟨"forger", "out", "gauge", "in"⟩).runNode 6 "gauge"
        (.initial ∅)).1 = some true := by
  have hlatch : Diverted ⟨"word", "value", "latch", "in"⟩ :=
    ⟨reachable_latched, ⟨2, rfl⟩, by decide, rerouted_latched rfl rfl, keepsPorts_of_nodes _ rfl,
      keepsPorts_of_nodes _ rfl, rfl, rfl, pullable_latched (.inr (.inl rfl)),
      determined_latched (.inr (.inl rfl))⟩
  have hgauge : Diverted ⟨"forger", "out", "gauge", "in"⟩ :=
    ⟨reachable_latched, ⟨3, rfl⟩, by decide, rerouted_latched rfl rfl, keepsPorts_of_nodes _ rfl,
      keepsPorts_of_nodes _ rfl, rfl, rfl, pullable_latched (.inr (.inr rfl)),
      determined_latched (.inr (.inr rfl))⟩
  exact ⟨⟨hlatch, rfl, by decide +kernel⟩, hgauge, keepsValues_of_nodes _ rfl, rfl,
    by decide +kernel⟩

end Engine

end Patchbay
