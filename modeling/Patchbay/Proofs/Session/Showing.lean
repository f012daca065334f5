import Patchbay.Builtin.Source
import Patchbay.Proofs.Patch.Showing
import Patchbay.Proofs.Session.Kinds
import Mathlib.Data.List.Induction

/-!
# What reroutes show in a session

A reroute takes the type of its source once, when the wire is made. Nobody tells it when the source
changes its ports later on. So the type that it shows is that of its source unless the hook of the
source has acted since then, and a reroute is such a source itself: in a chain of reroutes that is
made from its far end, only the first one has the type of what feeds the chain.

## Key results

- `Shows.perform`: what an operation leaves a reroute with
- `shows_of_allowedAll`: what reroutes show in a session that nobody meddles with
- `unlike_chained`: a reroute that has another type than its source
-/

namespace Patchbay

namespace Patch

/-- A wire leads from the node into a reroute. -/
def Feeds (p : Patch) (id : String) : Prop := ∃ i w, p.wires.find? i = some w ∧ w.source = id ∧
  w.targetPort = "in" ∧ p.kindOf? w.target = some "reroute"

end Patch

namespace Operation

/-- Nobody retypes ports of reroutes, or of nodes that feed them, from outside; hooks are told of
real events only, and no state is restored. -/
def HandsOff (p : Patch) : Operation → Prop
  | edit id e => p.kindOf? id = some "reroute" ∨ p.Feeds id → p.KeepsTypes id e
  | notify _ _ | restore _ | undo | redo => False
  | _ => True

end Operation

namespace Session

open Patch

variable {s : Session} {op : Operation} {ops : List Operation} {r : String} {t t' : PortType}
  {o o' : Option (WireId × Wire)} {i : WireId} {w : Wire}

/-- Nobody meddles with reroutes: neither with the kind nor with the types of its nodes. -/
def Unmeddled (s : Session) (op : Operation) : Prop :=
  op.Fresh s.patch ∧
    op.Declares (fun k => k.declaration.id = "reroute" → k = Builtin.reroute) ∧
      op.HandsOff s.patch

/-- Nobody meddles with reroutes, and no hook turns an event into one about something else. -/
def Undisturbed (s : Session) (op : Operation) : Prop :=
  s.Unmeddled op ∧ op.Declares Kind.KeepsChange

/-- All kinds called `reroute` are reroutes. -/
theorem KindsFrom.genuine (hs : s.patch.Sound)
    (hk : s.KindsFrom fun k => k.declaration.id = "reroute" → k = Builtin.reroute) :
    s.patch.Genuine := by
  intro x hx
  obtain ⟨n, hn, hkind⟩ := Option.map_eq_some_iff.1 hx
  obtain ⟨d, hd⟩ := Option.isSome_iff_exists.1 (hs.declared x n hn)
  rw [hkind] at hd
  obtain ⟨k, hid, rfl, hbehaviour⟩ := hk "reroute" d hd
  rw [hbehaviour, hid (hs.keyed _ _ hd)]

/-- A new reroute takes anything. -/
theorem shows_insert (hs : s.patch.Sound)
    (hk : s.KindsFrom fun k => k.declaration.id = "reroute" → k = Builtin.reroute)
    {kind : String} {position : Position} (hid : r ∉ s.patch.ids)
    (hr : (s.perform (.insert kind r position)).patch.kindOf? r = some "reroute") :
    (s.perform (.insert kind r position)).patch.Shows r .any none := by
  obtain hsame | ⟨q, hq, hsame⟩ := s.accept_cases (s.patch.insert kind r position)
  · rw [perform, hsame, Graph.kindOf?, (Graph.node?_eq_none_iff _ _).2 hid] at hr
    cases hr
  · rw [perform, hsame] at hr ⊢
    obtain ⟨d, hd, hkind⟩ := kindOf?_insert hs hq
    obtain rfl : kind = "reroute" := Option.some.inj (hkind.symm.trans hr)
    obtain ⟨k, hreroute, rfl, hbehaviour⟩ := hk "reroute" d hd
    obtain rfl := hreroute (hs.keyed _ _ hd)
    exact Patch.shows_insert hs hid hd hbehaviour hq

/-- A removed node is not there. -/
theorem node?_remove_self (p : Patch) (id : String) : (p.remove id).2.node? id = none := by
  cases hn : p.node? id with
  | none => rw [remove_of_node?_eq_none hn, hn]
  | some n =>
    rw [remove_eq hn]
    exact (Graph.node?_without _ id id).trans (if_pos rfl)

/-- Apart from new nodes, nodes are of the kinds they were of before. -/
theorem kindOf?_perform (hp : s.patch.Genuine) (hs : s.patch.Sound) (hop : op.HandsOff s.patch)
    {k : String} (hr : (s.perform op).patch.kindOf? r = some k) :
    s.patch.kindOf? r = some k ∨ ∃ kind position, op = .insert kind r position := by
  cases op with
  | declare kind =>
    obtain hsame | ⟨q, hq, hsame⟩ := s.accept_cases (s.patch.declare kind)
    · rw [perform, hsame] at hr
      exact .inl hr
    · rw [perform, hsame] at hr
      replace hr : q.toGraph.kindOf? r = some k := hr
      rw [(declare_cases hq).1] at hr
      exact .inl hr
  | insert kind id position =>
    obtain hsame | ⟨q, hq, hsame⟩ := s.accept_cases (s.patch.insert kind id position)
    · rw [perform, hsame] at hr
      exact .inl hr
    · rw [perform, hsame] at hr
      obtain ⟨n, rfl, _, rfl⟩ := insert_cases hs.keyed hq
      by_cases hid : r = n.id
      · exact .inr ⟨kind, position, by rw [hid]⟩
      · refine .inl (Eq.trans (Graph.kindOf?_congr ?_).symm hr)
        exact (Graph.node?_put _ _ _).trans (if_neg hid)
  | edit id e => exact .inl (((s.patch.trimmed_edit id e).kindOf? r).symm.trans hr)
  | remove id =>
    by_cases hid : r = id
    · subst hid
      rw [perform, Graph.kindOf?, node?_remove_self] at hr
      cases hr
    · obtain ⟨ns, hminded⟩ := exists_minded_remove hp hid
      exact .inl (hminded.kindOf?.symm.trans hr)
  | connect w =>
    obtain ⟨ns, hminded⟩ := exists_minded_connect hp w r
    exact .inl (hminded.kindOf?.symm.trans hr)
  | disconnect node port side =>
    exact .inl (((s.patch.trimmed_disconnect node port side).kindOf? r).symm.trans hr)
  | clear => cases hr
  | notify | restore | undo | redo => exact hop.elim
  | setRule | removeRule | record | forget => exact .inl hr

/-- What an operation makes of a reroute that shows the type `t` and the wire `o`. -/
inductive Outcome (s : Session) (op : Operation) (r : String) (t : PortType)
    (o : Option (WireId × Wire)) : PortType → Option (WireId × Wire) → Prop where
  | same : Outcome s op r t o t o
  | freed : Outcome s op r t o .any none
  /-- A wire is made, and the reroute has the type of its source. -/
  | fed {w : Wire} {i : WireId} {u : PortType} : op = .connect w →
    (s.patch.connect w).1 = some i →
    (s.perform op).patch.typeOf? w.source w.sourcePort .output = some u →
    Outcome s op r t o u (some (i, w))
  /-- The source goes, and its wire with it, although somebody has cancelled that. -/
  | bereft {w : Wire} {i : WireId} : op = .remove w.source → o = some (i, w) →
    s.patch.Spared r i w (s.perform op).patch → Outcome s op r t o t none

/-- A reroute that is still there after an operation shows something, and it is known why. -/
theorem outcome_perform (hs : s.patch.Sound) (hp : s.patch.Orderly) (hop : s.Unmeddled op)
    (h : s.patch.Shows r t o) (hr : (s.perform op).patch.kindOf? r = some "reroute") :
    ∃ t' o', (s.perform op).patch.Shows r t' o' ∧ s.Outcome op r t o t' o' := by
  obtain ⟨hfresh, _, hhands⟩ := hop
  have hnode : (s.patch.node? r).isSome := by
    obtain ⟨n, hn, _⟩ := Option.map_eq_some_iff.1 h.kind
    rw [hn]
    rfl
  -- Most operations loosen the reroute at most.
  have hloose : s.patch.Loosened r (s.perform op).patch →
      ∃ t' o', (s.perform op).patch.Shows r t' o' ∧ s.Outcome op r t o t' o' := by
    intro hloosened
    rcases hloosened.shows t o h with h | h
    · exact ⟨t, o, h, .same⟩
    · exact ⟨.any, none, h, .freed⟩
  cases op with
  | declare kind =>
    refine ⟨t, o, ?_, .same⟩
    obtain hsame | ⟨q, hq, hsame⟩ := s.accept_cases (s.patch.declare kind)
    · rw [perform, hsame]
      exact h
    · rw [perform, hsame]
      have hgraph := (declare_cases hq).1
      refine h.congr ?_ (Eq.trans ?_ h.wire) <;> rw [hgraph] <;> rfl
  | insert kind id position =>
    refine ⟨t, o, ?_, .same⟩
    obtain hsame | ⟨q, hq, hsame⟩ := s.accept_cases (s.patch.insert kind id position)
    · rw [perform, hsame]
      exact h
    · rw [perform, hsame]
      obtain ⟨n, rfl, _, rfl⟩ := insert_cases hs.keyed hq
      refine h.congr ((Graph.node?_put _ _ _).trans (if_neg ?_)) (Eq.trans ?_ h.wire)
      · rintro rfl
        exact hfresh ((Graph.mem_ids_iff _ _).2 hnode)
      · exact congrArg (fun ws => ({ s.patch.toGraph with wires := ws }).wireAt? r "in" .input)
          (Graph.wires_put _ n)
  | edit id e =>
    exact ⟨t, o, h.edit fun hid => hhands (.inl (hid ▸ h.kind)), .same⟩
  | remove id =>
    have hid : r ≠ id := by
      rintro rfl
      rw [perform, Graph.kindOf?, node?_remove_self] at hr
      cases hr
    rcases h.remove hs hp hid with h | h | ⟨i, w, rfl, rfl, h, hspared⟩
    · exact ⟨t, o, h, .same⟩
    · exact ⟨.any, none, h, .freed⟩
    · exact ⟨t, none, h, .bereft rfl rfl hspared⟩
  | connect w =>
    rcases h.connect hs hp w with h | h | ⟨i, u, hmade, h, hsource⟩
    · exact ⟨t, o, h, .same⟩
    · exact ⟨.any, none, h, .freed⟩
    · exact ⟨u, some (i, w), h, .fed rfl hmade hsource⟩
  | disconnect node port side => exact hloose (loosened_disconnect hs hp node port side r)
  | clear => cases hr
  | notify | restore | undo | redo => exact hhands.elim
  | setRule | removeRule | record | forget => exact ⟨t, o, h.congr rfl h.wire, .same⟩

/-- A node that feeds a reroute before and after an operation keeps the types of its ports, unless
it heeds something that it is told in between. -/
theorem exists_minded_perform (hs : s.patch.Sound) (hp : s.patch.Genuine) (hop : s.Unmeddled op)
    {x : String} (hfeeds : s.patch.Feeds x) (hx : ((s.perform op).patch.node? x).isSome) :
    ∃ ns, s.patch.Minded x ns (s.perform op).patch := by
  obtain ⟨hfresh, _, hhands⟩ := hop
  have hnode : (s.patch.node? x).isSome := by
    obtain ⟨i, w, hw, rfl, _⟩ := hfeeds
    obtain ⟨n, hn⟩ := Graph.node?_of_isSome_port? (hs.source i w hw)
    rw [hn]
    rfl
  cases op with
  | declare kind =>
    obtain hsame | ⟨q, hq, hsame⟩ := s.accept_cases (s.patch.declare kind)
    · rw [perform, hsame]
      exact ⟨[], .refl _ x⟩
    · rw [perform, hsame]
      obtain ⟨ns, hjournal⟩ := journal_declare hq
      exact ⟨ns, .of_node? hjournal (by rw [(declare_cases hq).1]; rfl)⟩
  | insert kind id position =>
    obtain hsame | ⟨q, hq, hsame⟩ := s.accept_cases (s.patch.insert kind id position)
    · rw [perform, hsame]
      exact ⟨[], .refl _ x⟩
    · rw [perform, hsame]
      obtain ⟨n, rfl, _, rfl⟩ := insert_cases hs.keyed hq
      refine ⟨[], .of_node? (List.append_nil _).symm ?_⟩
      refine (Graph.node?_put _ _ _).trans (if_neg ?_)
      rintro rfl
      exact hfresh ((Graph.mem_ids_iff _ _).2 hnode)
  | edit id e =>
    exact ⟨[], minded_edit fun hid => hhands (.inr (hid ▸ hfeeds))⟩
  | remove id =>
    refine exists_minded_remove hp ?_
    rintro rfl
    rw [perform, node?_remove_self] at hx
    cases hx
  | connect w => exact exists_minded_connect hp w x
  | disconnect node port side =>
    obtain ⟨ns, hsteady⟩ := exists_steady_disconnect hp node port side
    exact ⟨ns, hsteady.minded x⟩
  | clear => cases hx
  | notify | restore | undo | redo => exact hhands.elim
  | setRule | removeRule | record | forget => exact ⟨[], .of_node? (List.append_nil _).symm rfl⟩

/-! ### How it came to be -/

/-- In the course of the operations the wire was made under its number, while its source port had
the type; and it still has, unless the node has heeded something since. -/
def Fed (s : Session) (ops : List Operation) (i : WireId) (w : Wire) (t : PortType) : Prop :=
  ∃ before after ns, ops = before ++ .connect w :: after ∧
    ((s.performAll before).patch.connect w).1 = some i ∧
    (s.performAll (before ++ [.connect w])).patch.typeOf? w.source w.sourcePort .output = some t ∧
    (s.performAll (before ++ [.connect w])).patch.Minded w.source ns (s.performAll ops).patch

/-- The source of the wire into the reroute was removed, and the wire went with it although somebody
had cancelled that; since then no wire has led into the reroute. -/
def Bereft (s : Session) (ops : List Operation) (r : String) : Prop :=
  ∃ before after i w, ops = before ++ .remove w.source :: after ∧
    (s.performAll before).patch.wireAt? r "in" .input = some (i, w) ∧
    (s.performAll before).patch.Spared r i w (s.performAll (before ++ [.remove w.source])).patch ∧
    ∀ mid rest, after = mid ++ rest →
      (s.performAll (before ++ .remove w.source :: mid)).patch.wireAt? r "in" .input = none

/-- Why the reroute has the type that it shows. -/
inductive Owes (s : Session) (ops : List Operation) (r : String) :
    PortType → Option (WireId × Wire) → Prop where
  | fed {i : WireId} {w : Wire} {t : PortType} : s.Fed ops i w t → Owes s ops r t (some (i, w))
  | free : Owes s ops r .any none
  | bereft {t : PortType} : s.Bereft ops r → Owes s ops r t none

/-- What is known of a reroute is known after one more operation. -/
theorem Owes.snoc (hs : (s.performAll ops).patch.Sound) (hp : (s.performAll ops).patch.Genuine)
    (hs' : (s.performAll (ops ++ [op])).patch.Sound) (hop : (s.performAll ops).Unmeddled op)
    (h : (s.performAll ops).patch.Shows r t o) (howes : s.Owes ops r t o)
    (h' : (s.performAll (ops ++ [op])).patch.Shows r t' o')
    (houtcome : (s.performAll ops).Outcome op r t o t' o') : s.Owes (ops ++ [op]) r t' o' := by
  rw [performAll_snoc] at hs' h'
  cases houtcome with
  | freed => exact .free
  | fed hconnect hmade hsource =>
    subst hconnect
    rw [← performAll_snoc] at hsource
    exact .fed ⟨ops, [], [], rfl, hmade, hsource, .refl _ _⟩
  | bereft hremove hwire hspared =>
    subst hremove hwire
    rw [← performAll_snoc] at hspared h'
    refine .bereft ⟨ops, [], _, _, rfl, h.wire, hspared, fun mid rest hmid => ?_⟩
    obtain rfl := (List.append_eq_nil_iff.1 hmid.symm).1
    exact h'.wire
  | same =>
    cases howes with
    | free => exact .free
    | @fed i w _ hfed =>
      obtain ⟨before, after, ns, rfl, hmade, hsource, hminded⟩ := hfed
      obtain ⟨hw, hends⟩ := Graph.of_wireAt? h.wire
      obtain ⟨htarget, hport⟩ := (Graph.endsAt_input _ _ _).1 hends
      obtain ⟨n, hn⟩ :=
        Graph.node?_of_isSome_port? (hs'.source i w (Graph.of_wireAt? h'.wire).1)
      obtain ⟨ms, hnext⟩ := exists_minded_perform hs hp hop
        ⟨i, w, hw, rfl, hport, htarget ▸ h.kind⟩ (by rw [hn]; rfl)
      refine .fed ⟨before, after ++ [op], ns ++ ms, ?_, hmade, hsource, ?_⟩
      · simp
      · rw [performAll_snoc s (before ++ .connect w :: after)]
        exact hminded.trans hnext
    | bereft hbereft =>
      obtain ⟨before, after, i, w, rfl, hwire, hspared, hnone⟩ := hbereft
      refine .bereft ⟨before, after ++ [op], i, w, by simp, hwire, hspared, fun mid rest hmid => ?_⟩
      -- Either the last operation is among those looked at, or it is not.
      rcases List.eq_nil_or_concat rest with rfl | ⟨rest, last, rfl⟩
      · rw [List.append_nil] at hmid
        subst hmid
        rw [← List.cons_append, ← List.append_assoc, performAll_snoc]
        exact h'.wire
      · rw [List.concat_eq_append, ← List.append_assoc] at hmid
        exact hnone mid rest (List.append_inj_left' hmid rfl)

/-- In a session in which nobody meddles with reroutes and hooks keep to the change of an event,
reroutes show what they owe to their wires. -/
theorem owes_of_allowedAll (flow : Bool) (conversions : Conversions) (capacity : Nat)
    (hops : AllowedAll Undisturbed (start flow conversions capacity) ops)
    (hr : ((start flow conversions capacity).performAll ops).patch.kindOf? r = some "reroute") :
    ∃ t o, ((start flow conversions capacity).performAll ops).patch.Shows r t o ∧
      (start flow conversions capacity).Owes ops r t o := by
  induction ops using List.reverseRecOn with
  | nil => cases hr
  | append_singleton ops op ih =>
    obtain ⟨hbefore, hop, hdeclares⟩ := AllowedAll.snoc_iff.1 hops
    have hreaches := Reaches.performAll (.start flow conversions capacity) hbefore
    have hs := (wired_of_reachable (hreaches.mono fun _ _ h => h.1.1)).sound
    have hk := kindsFrom_of_reaches (hreaches.mono fun _ _ h => ⟨h.1.1, h.1.2.1⟩)
    have hp := hk.genuine hs
    have hkeeps := (kindsFrom_of_reaches (hreaches.mono fun _ _ h => ⟨h.1.1, h.2⟩)).keepsChanges hs
      fun _ => id
    have hs' := (wired_of_reachable
      ((Reaches.performAll (.start flow conversions capacity) hops).mono fun _ _ h => h.1.1)).sound
    rw [performAll_snoc] at hr
    rcases kindOf?_perform hp hs hop.2.2 hr with hold | ⟨kind, position, rfl⟩
    · obtain ⟨t, o, hshows, howes⟩ := ih hbefore hold
      obtain ⟨t', o', hshows', houtcome⟩ := outcome_perform hs ⟨hp, hkeeps⟩ hop hshows hr
      rw [← performAll_snoc] at hshows'
      exact ⟨t', o', hshows', howes.snoc hs hp hs' hop hshows hshows' houtcome⟩
    · refine ⟨.any, none, ?_, .free⟩
      rw [performAll_snoc]
      exact shows_insert hs hk hop.1 hr

/-- In every session in which nobody meddles with reroutes, whatever hooks of other kinds do to the
node that is told of an event, and however they cancel it or take that back, as long as they do not
turn it into another: both ports of a reroute have one type. Where a wire leads into the reroute,
this is the type that its source had when the wire was made, and still has, unless the source has
heeded something that it was told since. Where none does, it is the type that takes anything. Left
open is the case of a wire that was dropped with its source after somebody had cancelled that it was
taken away. -/
theorem shows_of_allowedAll (flow : Bool) (conversions : Conversions) (capacity : Nat)
    (hops : AllowedAll Undisturbed (start flow conversions capacity) ops) {p : Patch}
    (hp : p = ((start flow conversions capacity).performAll ops).patch)
    (hr : p.kindOf? r = some "reroute") :
    ∃ t, p.typeOf? r "in" .input = some t ∧ p.typeOf? r "out" .output = some t ∧
      (∀ i w, p.wires.find? i = some w → w.endsAt r "in" .input = true →
        (start flow conversions capacity).Fed ops i w t) ∧
      (p.wireAt? r "in" .input = none →
        t = .any ∨ (start flow conversions capacity).Bereft ops r) := by
  subst hp
  obtain ⟨t, o, hshows, howes⟩ := owes_of_allowedAll flow conversions capacity hops hr
  have hsound := (wired_of_reachable
    ((Reaches.performAll (.start flow conversions capacity) hops).mono fun _ _ h => h.1.1)).sound
  refine ⟨t, hshows.input, hshows.output, fun i w hw hends => ?_, fun hnone => ?_⟩
  · obtain rfl := hshows.wire.symm.trans (hsound.wireAt?_eq_some_iff.2 ⟨hw, hends⟩)
    cases howes with
    | fed hfed => exact hfed
  · obtain rfl := hshows.wire.symm.trans hnone
    cases howes with
    | free => exact .inl rfl
    | bereft hbereft => exact .inr hbereft

/-- Two reroutes in a row are wired before a number feeds the first. -/
def chained : List Operation :=
  [.declare Builtin.number, .declare Builtin.reroute, .insert "number" "n" .origin,
    .insert "reroute" "a" .origin, .insert "reroute" "b" .origin,
    .connect ⟨"a", "out", "b", "in"⟩, .connect ⟨"n", "value", "a", "in"⟩]

theorem unmeddled_chained : AllowedAll Unmeddled (start true .base 10) chained :=
  ⟨⟨trivial, fun h => absurd h (by decide +kernel), trivial⟩, ⟨trivial, fun _ => rfl, trivial⟩,
    ⟨by decide +kernel, trivial, trivial⟩, ⟨by decide +kernel, trivial, trivial⟩,
    ⟨by decide +kernel, trivial, trivial⟩, ⟨trivial, trivial, trivial⟩,
    ⟨trivial, trivial, trivial⟩, trivial⟩

theorem undisturbed_chained : AllowedAll Undisturbed (start true .base 10) chained := by
  have hkinds : ∀ op ∈ chained, op.Declares Kind.KeepsChange := by
    simp only [chained, List.forall_mem_cons]
    refine ⟨fun hook hhook => ?_, fun hook hhook e n g => ?_, ?_⟩
    · cases hhook
    · obtain rfl := Option.some.inj hhook
      rfl
    · simp [Operation.Declares]
  exact unmeddled_chained.and hkinds

/-- The first reroute has the type of numbers, since that is what the number had when it was wired.
The second has the type that the first had when those two were wired. -/
theorem shows_chained :
    ((start true .base 10).performAll chained).patch.typeOf? "a" "out" .output = some .number ∧
      (start true .base 10).Fed chained 1 ⟨"n", "value", "a", "in"⟩ .number ∧
      ((start true .base 10).performAll chained).patch.typeOf? "b" "out" .output = some .any ∧
      (start true .base 10).Fed chained 0 ⟨"a", "out", "b", "in"⟩ .any := by
  obtain ⟨t, _, hfirst, hfed, _⟩ :=
    shows_of_allowedAll (r := "a") true .base 10 undisturbed_chained rfl (by decide +kernel)
  obtain ⟨u, _, hsecond, hfed', _⟩ :=
    shows_of_allowedAll (r := "b") true .base 10 undisturbed_chained rfl (by decide +kernel)
  have hnumber : ((start true .base 10).performAll chained).patch.typeOf? "a" "out" .output =
      some .number := by decide +kernel
  have hany : ((start true .base 10).performAll chained).patch.typeOf? "b" "out" .output =
      some .any := by decide +kernel
  obtain rfl := Option.some.inj (hfirst.symm.trans hnumber)
  obtain rfl := Option.some.inj (hsecond.symm.trans hany)
  exact ⟨hnumber, hfed 1 _ (by decide +kernel) (by decide +kernel), hany,
    hfed' 0 _ (by decide +kernel) (by decide +kernel)⟩

/-- A kind whose nodes turn every event into one about the removal of its wire. Their output is true.
-/
def forger : Kind where
  declaration :=
    { Declaration.plain "forger" "example" with
      outputs := [("out", .boolean "Out")] }
  behaviour :=
    { onUpdate := some fun e _ _ => ({ e with change := .removed 0 e.wire }, [])
      calculate := fun _ => .done (.singleton "out" (.bool true)) }

/-- A wire from a forger into a reroute. -/
def forged : List Operation :=
  [.declare forger, .declare Builtin.reroute, .insert "forger" "n" .origin,
    .insert "reroute" "r" .origin, .connect ⟨"n", "out", "r", "in"⟩]

theorem unmeddled_forged : AllowedAll Unmeddled (start true .base 10) forged :=
  ⟨⟨trivial, fun h => absurd h (by decide +kernel), trivial⟩, ⟨trivial, fun _ => rfl, trivial⟩,
    ⟨by decide +kernel, trivial, trivial⟩, ⟨by decide +kernel, trivial, trivial⟩,
    ⟨trivial, trivial, trivial⟩, trivial⟩

/-- So the second reroute is fed from a port of another type. And so is one that is wired to a
forger: the wire is made, but the reroute is told that it was removed. -/
theorem unlike_chained : (AllowedAll Unmeddled (start true .base 10) chained ∧
    ((start true .base 10).performAll chained).patch.kindOf? "b" = some "reroute" ∧
    ((start true .base 10).performAll chained).patch.wireAt? "b" "in" .input =
      some (0, ⟨"a", "out", "b", "in"⟩) ∧
    ((start true .base 10).performAll chained).patch.typeOf? "b" "in" .input ≠
      ((start true .base 10).performAll chained).patch.typeOf? "a" "out" .output) ∧
    AllowedAll Unmeddled (start true .base 10) forged ∧
    ((start true .base 10).performAll forged).patch.kindOf? "r" = some "reroute" ∧
    ((start true .base 10).performAll forged).patch.wireAt? "r" "in" .input =
      some (0, ⟨"n", "out", "r", "in"⟩) ∧
    ((start true .base 10).performAll forged).patch.typeOf? "r" "in" .input = some .any ∧
    ((start true .base 10).performAll forged).patch.typeOf? "n" "out" .output = some .boolean :=
  ⟨⟨unmeddled_chained, by decide +kernel, by decide +kernel, by decide +kernel⟩,
    unmeddled_forged, by decide +kernel, by decide +kernel, by decide +kernel, by decide +kernel⟩

end Session

end Patchbay
