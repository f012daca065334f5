import Patchbay.Proofs.Patch.Heeding
import Patchbay.Proofs.Patch.Removing

/-!
# What reroutes show

A reroute has one type at both its ports. It changes when a wire into its input is made or taken
away, and then both ports change together: it takes the type that the source has when it is told of
a new wire, and takes anything again when it is told that the wire is gone. This goes for hooks that
keep to what an event is about, so that the reroute hears of its own wire. Two things can come in
between. A source that cancels a removal keeps the wire, and the reroute as it is. And a wire that
was kept in this way can still be dropped with its source, of which nobody is told.

## Key results

- `Shows.announce_created` / `Shows.announce_removed`: what a reroute makes of a wire into its input
- `Shows.connect` / `Loosened`: what attempts to make a wire and removals of wires leave it with
- `Shows.remove`: the same for the removal of a node
-/

namespace Patchbay

namespace Graph

variable {g h : Graph} {node port : String} {side : Side} {i : WireId} {w : Wire}

/-- At an input port there is at most one wire. -/
theorem Sound.wireAt?_eq_some_iff (hg : g.Sound) : g.wireAt? node port .input = some (i, w) ↔
    g.wires.find? i = some w ∧ w.endsAt node port .input = true := by
  refine ⟨of_wireAt?, fun ⟨hw, hends⟩ => wireWith?_eq_some_iff.2 ⟨hw, hends, fun j v hv hv' => ?_⟩⟩
  rw [endsAt_input] at hends hv'
  have hsame := hg.single i j w v hw hv (hends.1.trans hv'.1.symm) (hends.2.trans hv'.2.symm)
  exact Nat.le_of_eq hsame

/-- The wire at a port depends on the wires there. -/
theorem wireAt?_congr (hw : ∀ i w, w.endsAt node port side = true →
    (h.wires.find? i = some w ↔ g.wires.find? i = some w)) :
    h.wireAt? node port side = g.wireAt? node port side := by
  refine Option.ext fun ⟨i, w⟩ => ?_
  simp only [wireAt?, wireWith?_eq_some_iff]
  constructor
  · rintro ⟨hi, hends, hleast⟩
    exact ⟨(hw i w hends).1 hi, hends, fun j v hv hv' => hleast j v ((hw j v hv').2 hv) hv'⟩
  · rintro ⟨hi, hends, hleast⟩
    exact ⟨(hw i w hends).2 hi, hends, fun j v hv hv' => hleast j v ((hw j v hv').1 hv) hv'⟩

end Graph

namespace Patch

open Patchbay.Graph

variable {p q : Patch} {id r : String} {t : PortType} {o o' : Option (WireId × Wire)} {i : WireId}
  {w : Wire} {c : Change}

/-- The reroute has the type at both its ports, and `o` is the wire that leads into it. -/
structure Shows (p : Patch) (r : String) (t : PortType) (o : Option (WireId × Wire)) : Prop where
  kind : p.kindOf? r = some "reroute"
  input : p.typeOf? r "in" .input = some t
  output : p.typeOf? r "out" .output = some t
  wire : p.wireAt? r "in" .input = o

/-- A reroute that is as before shows the same. -/
theorem Shows.congr (h : p.Shows r t o) (hnode : q.node? r = p.node? r)
    (hwire : q.wireAt? r "in" .input = o') : q.Shows r t o' where
  kind := (kindOf?_congr hnode).trans h.kind
  input := (typeOf?_congr hnode _ _).trans h.input
  output := (typeOf?_congr hnode _ _).trans h.output
  wire := hwire

theorem Shows.adopted {u : Option PortType} (h : p.Shows r t o) (ha : p.Adopted r u q) :
    q.Shows r (u.getD t) o := by
  have hwire : q.wireAt? r "in" .input = o := by
    rw [wireAt?, wireWith?, ha.wires]
    exact h.wire
  cases u with
  | none => exact h.congr (ha.node?_none r) hwire
  | some u =>
    obtain ⟨hout, hin⟩ := ha.typeOf?_self
    refine ⟨(ha.kindOf? r).trans h.kind, ?_, ?_, hwire⟩
    · rw [hin, h.input]
      rfl
    · rw [hout, h.output]
      rfl

/-! ### What a reroute is told -/

theorem Shows.tell (hp : p.Genuine) (h : p.Shows r t o) (x : String) (e : WireEvent) :
    (p.tell x e).2.Shows r (if x = r then (p.typeFor r e).getD t else t) o := by
  split
  next hx =>
    subst hx
    obtain ⟨q, htell, hadopted⟩ := tell_reroute hp h.kind e
    rw [htell]
    exact h.adopted hadopted
  next hx =>
    refine h.congr ((p.informed_tell x e).node? r fun d g hmem => hx ?_) ?_
    · cases (of_mem_hearing hmem).1
      rfl
    · rw [wireAt?, wireWith?, wires_tell]
      exact h.wire

/-- Telling the ends of a wire changes a reroute only when the target is told, and that is it. -/
theorem Shows.announce (hp : p.Genuine) (h : p.Shows r t o)
    (hloop : c.wire.source ≠ c.wire.target) : (p.announce c).2.Shows r
      (if c.wire.target = r then ((p.passedOn c).2.typeFor r (p.passedOn c).1).getD t else t) o := by
  have hsource : (p.passedOn c).2.Shows r t o := by
    have htell := h.tell hp c.wire.source (.ofChange c)
    by_cases hx : c.wire.source = r
    · -- The wire does not lead into its own source.
      have hnone : p.typeFor r (.ofChange c) = none := by
        refine typeFor_eq_none (Bool.and_eq_false_iff.2 (.inr ?_))
        refine Bool.eq_false_iff.2 fun hends => hloop ?_
        rw [hx]
        exact ((endsAt_input _ _ _).1 hends).1.symm
      rwa [if_pos hx, hnone] at htell
    · rwa [if_neg hx] at htell
  exact hsource.tell (hp.trimmed (p.trimmed_passedOn c)) _ _

/-- A reroute does not mind wires that do not lead into its input. -/
theorem Shows.announce_of_not_endsAt (hp : p.Genuine) (hkeeps : p.KeepsChangeAt c.wire.source)
    (h : p.Shows r t o) (hloop : c.wire.source ≠ c.wire.target)
    (hends : c.wire.endsAt r "in" .input = false) : (p.announce c).2.Shows r t o := by
  have htold := h.announce hp hloop
  have hnone : (p.passedOn c).2.typeFor r (p.passedOn c).1 = none := by
    refine typeFor_eq_none (Bool.and_eq_false_iff.2 (.inr ?_))
    rw [hkeeps.passedOn_eq]
    exact hends
  rwa [hnone, Option.getD_none, ite_self] at htold

/-- Nor does it mind wires that lead to other nodes, even if a hook makes something else of them. -/
theorem Shows.announce_of_target_ne (hp : p.Genuine) (h : p.Shows r t o)
    (hloop : c.wire.source ≠ c.wire.target) (hne : c.wire.target ≠ r) :
    (p.announce c).2.Shows r t o := by
  have htold := h.announce hp hloop
  rwa [if_neg hne] at htold

/-- A change to a wire into a reroute comes about unless the source cancels it. -/
theorem Genuine.vetoed_iff (hp : p.Genuine) (htarget : p.kindOf? c.wire.target = some "reroute") :
    p.Vetoed c ↔ (p.passedOn c).1.cancelled = true := by
  have htrim := p.trimmed_passedOn c
  -- The reroute is told last, and leaves the event alone.
  obtain ⟨q, htell, _⟩ := tell_reroute (hp.trimmed htrim) ((htrim.kindOf? _).trans htarget)
    (p.passedOn c).1
  rw [Vetoed, htell]

/-- A change that does not come about leaves reroutes as they are. -/
theorem Shows.announce_of_vetoed (hp : p.Genuine) (h : p.Shows r t o)
    (hloop : c.wire.source ≠ c.wire.target) (hveto : p.Vetoed c) :
    (p.announce c).2.Shows r t o := by
  have htold := h.announce hp hloop
  by_cases htarget : c.wire.target = r
  · have hcancelled := (hp.vetoed_iff (htarget ▸ h.kind)).1 hveto
    have hnone : (p.passedOn c).2.typeFor r (p.passedOn c).1 = none := by
      refine typeFor_eq_none ?_
      rw [hcancelled]
      rfl
    rwa [hnone, Option.getD_none, ite_self] at htold
  · rwa [if_neg htarget] at htold

/-- What a reroute is told of a wire into its input, where nobody has cancelled the change. -/
theorem Shows.typeFor_passedOn (hp : p.Genuine) (hkeeps : p.KeepsChangeAt c.wire.source)
    (h : p.Shows r t o) (hends : c.wire.endsAt r "in" .input = true) (hveto : ¬ p.Vetoed c) :
    c.wire.target = r ∧ (p.passedOn c).2.typeFor r (p.passedOn c).1 =
      (p.passedOn c).2.typeFor r (.ofChange c) := by
  have htarget := ((endsAt_input _ _ _).1 hends).1
  have hevent : (p.passedOn c).1 = .ofChange c := by
    rw [hp.vetoed_iff (htarget ▸ h.kind), Bool.not_eq_true] at hveto
    rw [hkeeps.passedOn_eq, hveto]
    rfl
  exact ⟨htarget, by rw [hevent]⟩

/-- A reroute takes anything again when the wire into its input is gone. -/
theorem Shows.announce_removed (hp : p.Genuine) (hkeeps : p.KeepsChangeAt w.source)
    (h : p.Shows r t o) (hloop : w.source ≠ w.target) (hends : w.endsAt r "in" .input = true)
    (hveto : ¬ p.Vetoed (.removed i w)) : (p.announce (.removed i w)).2.Shows r .any o := by
  have htold := h.announce (c := .removed i w) hp hloop
  obtain ⟨htarget, htype⟩ := h.typeFor_passedOn (c := .removed i w) hp hkeeps hends hveto
  have hport := ((endsAt_input _ _ _).1 hends).2
  have hany : (p.passedOn (.removed i w)).2.typeFor r (.ofChange (.removed i w)) = some .any := by
    rw [← htarget]
    exact (typeFor_target _ (.removed i w) hloop).trans (if_pos hport)
  rwa [if_pos htarget, htype, hany] at htold

/-- A reroute takes the type of the source when a wire into its input is made. -/
theorem Shows.announce_created (hp : p.Genuine) (hkeeps : p.KeepsChangeAt w.source)
    (h : p.Shows r t o) (hloop : w.source ≠ w.target) (hends : w.endsAt r "in" .input = true)
    {a b : String} (hveto : ¬ p.Vetoed (.created w a b))
    (hsource : (p.port? w.source w.sourcePort .output).isSome) :
    ∃ u, (p.announce (.created w a b)).2.Shows r u o ∧
      (p.announce (.created w a b)).2.typeOf? w.source w.sourcePort .output = some u := by
  have htold := h.announce (c := .created w a b) hp hloop
  obtain ⟨htarget, htype⟩ := h.typeFor_passedOn (c := .created w a b) hp hkeeps hends hveto
  have hport := ((endsAt_input _ _ _).1 hends).2
  -- The source may change its ports when it is told, which is before the reroute looks at it.
  have htrim := p.trimmed_passedOn (.created w a b)
  obtain ⟨s, hs⟩ := Option.isSome_iff_exists.1 (htrim.isSome_port? hsource)
  have hnew : (p.passedOn (.created w a b)).2.typeFor r (.ofChange (.created w a b)) =
      some s.type := by
    rw [← htarget]
    refine (typeFor_target _ (.created w a b) hloop).trans ((if_pos hport).trans ?_)
    exact congrArg (Option.map _) hs
  rw [if_pos htarget, htype, hnew] at htold
  refine ⟨s.type, htold, ?_⟩
  have hnode := (informed_tell (p.passedOn (.created w a b)).2 w.target
    (p.passedOn (.created w a b)).1).node? w.source fun e g hmem => hloop ?_
  · refine (typeOf?_congr (g := (p.passedOn (.created w a b)).2.toGraph) hnode _ _).trans ?_
    rw [typeOf?, hs, Option.map_some]
  · exact (Notice.told.inj (of_mem_hearing hmem).1).1

/-! ### Wires that are taken away -/

/-- Nodes of kind `reroute` are reroutes, and no hook makes an event be about something else. -/
structure Orderly (p : Patch) : Prop where
  genuine : p.Genuine
  keeps : p.KeepsChanges

theorem Orderly.trimmed (hp : p.Orderly) (h : p.Trimmed q) : q.Orderly :=
  ⟨hp.genuine.trimmed h, hp.keeps.trimmed h⟩

/-- A notice that the wire is gone, unless it is kept: somebody has cancelled that. -/
def Spared (p : Patch) (r : String) (i : WireId) (w : Wire) (q : Patch) : Prop :=
  ∃ ns g, q.journal = p.journal ++ ns ∧ .told r ⟨.removed i w, true⟩ g ∈ ns

theorem node?_detach (p : Patch) (i : WireId) (w : Wire) (x : String) :
    (p.detach i w).2.node? x = ((p.cut i).announce (.removed i w)).2.node? x := by
  rw [detach_eq_ite]
  dsimp only
  split <;> rfl

/-- A reroute keeps its type while a wire is kept, or another one is taken away. -/
theorem Shows.detach_of_not_endsAt (hs : p.Sound) (hp : p.Orderly) (h : p.Shows r t o)
    (hw : p.wires.find? i = some w) (hends : w.endsAt r "in" .input = false) :
    (p.detach i w).2.Shows r t o := by
  have hcut : (p.cut i).Shows r t _ := h.congr rfl rfl
  have horderly := hp.trimmed (p.trimmed_cut i)
  have htold := hcut.announce_of_not_endsAt (c := .removed i w) horderly.genuine
    (horderly.keeps _) (hs.loopless i w hw) hends
  refine htold.congr (node?_detach p i w r) (Eq.trans (wireAt?_congr fun j v hv => ?_) h.wire)
  have hj : j ≠ i ∨ p.wires.find? j ≠ some v := by
    by_cases hj : j = i
    · refine .inr fun hfind => ?_
      obtain rfl : v = w := Option.some.inj (hfind.symm.trans (hj ▸ hw))
      rw [hends] at hv
      cases hv
    · exact .inl hj
  constructor
  · exact fun hfind => (p.trimmed_detach hw).wires j v hfind
  · exact fun hfind => (find?_detach_of_ne (hj.resolve_right (not_not_intro hfind)) w).trans hfind

/-- A reroute whose wire is taken away is told so, and takes anything again; or it is told that the
wire is kept, and stays as it is. -/
theorem Shows.detach_of_endsAt (hs : p.Sound) (hp : p.Orderly) (h : p.Shows r t (some (i, w))) :
    (p.detach i w).2.Shows r .any none ∨
      (p.detach i w).2.Shows r t (some (i, w)) ∧ p.Spared r i w (p.detach i w).2 := by
  obtain ⟨hw, hends⟩ := of_wireAt? h.wire
  have hcut : (p.cut i).Shows r t _ := h.congr rfl rfl
  have horderly := hp.trimmed (p.trimmed_cut i)
  by_cases hveto : (p.cut i).Vetoed (.removed i w)
  · have htold := hcut.announce_of_vetoed (c := .removed i w) horderly.genuine
      (hs.loopless i w hw) hveto
    refine .inr ⟨htold.congr (node?_detach p i w r) ?_, (p.cut i).tidings (.removed i w),
      ((p.cut i).passedOn (.removed i w)).2.toGraph, (informed_detach hw).journal, ?_⟩
    · rw [wireAt?, wireWith?, wires_detach_of_vetoed hw hveto]
      exact h.wire
    · -- The source has cancelled, and the reroute is told of that.
      obtain rfl := ((endsAt_input _ _ _).1 hends).1
      have hcancelled := (horderly.genuine.vetoed_iff (c := .removed i w) hcut.kind).1 hveto
      have hevent : ((p.cut i).passedOn (.removed i w)).1 = ⟨.removed i w, true⟩ := by
        rw [(horderly.keeps _).passedOn_eq, hcancelled]
      have hhook : ((p.cut i).passedOn (.removed i w)).2.hook? w.target =
          some Builtin.rerouteHook := by
        rw [((p.cut i).trimmed_passedOn _).hook?]
        exact horderly.genuine.hook? hcut.kind
      refine List.mem_append_right _ ?_
      show _ ∈ ((p.cut i).passedOn (.removed i w)).2.hearing w.target _
      rw [hevent, hearing, hhook]
      exact List.mem_singleton_self _
  · left
    have htold := hcut.announce_removed horderly.genuine (horderly.keeps _) (hs.loopless i w hw)
      hends hveto
    rw [detach_of_not_vetoed hveto]
    refine htold.congr rfl ((wireAt?_eq_none_iff _ _ _ _).2 fun j v hv => ?_)
    -- There was no other wire.
    rw [wires_announce] at hv
    refine Bool.eq_false_iff.2 fun hends' => ?_
    replace hv : (p.wires.erase i).find? j = some v := hv
    rw [Table.find?_erase] at hv
    split at hv
    next => cases hv
    next hj =>
      have hother := h.wire.symm.trans (hs.wireAt?_eq_some_iff.2 ⟨hv, hends'⟩)
      exact hj (congrArg Prod.fst (Option.some.inj hother)).symm

/-- In `q` the reroute is as it was, or has lost its wire and takes anything; what was told before
is not forgotten. -/
structure Loosened (p : Patch) (r : String) (q : Patch) : Prop where
  journal : p.journal <+: q.journal
  shows : ∀ t o, p.Shows r t o → q.Shows r t o ∨ q.Shows r .any none

/-- In `q` the reroute has lost its wire, or has been told that it is kept. -/
def Asked (p : Patch) (r : String) (i : WireId) (w : Wire) (q : Patch) : Prop :=
  ∀ t, p.Shows r t (some (i, w)) →
    q.Shows r .any none ∨ q.Shows r t (some (i, w)) ∧ p.Spared r i w q

theorem Loosened.refl (p : Patch) (r : String) : p.Loosened r p := ⟨List.prefix_rfl, fun _ _ => .inl⟩

theorem Loosened.trans {s : Patch} (h₁ : p.Loosened r q) (h₂ : q.Loosened r s) :
    p.Loosened r s where
  journal := h₁.journal.trans h₂.journal
  shows := fun t o h => by
    rcases h₁.shows t o h with h | h
    · exact h₂.shows t o h
    · exact .inr ((h₂.shows .any none h).elim id id)

theorem Asked.loosened {s : Patch} (h₁ : p.Asked r i w q) (h₂ : q.Loosened r s) :
    p.Asked r i w s := by
  intro t h
  rcases h₁ t h with h | ⟨h, ns, g, hjournal, hmem⟩
  · exact .inl ((h₂.shows .any none h).elim id id)
  · refine (h₂.shows t _ h).symm.imp_right fun hshows => ⟨hshows, ?_⟩
    obtain ⟨ms, hms⟩ := h₂.journal
    refine ⟨ns ++ ms, g, ?_, List.mem_append_left _ hmem⟩
    rw [← hms, hjournal, List.append_assoc]

theorem Loosened.asked {s : Patch} (h₁ : p.Loosened r q) (h₂ : q.Loosened r s)
    (h₃ : q.Asked r i w s) : p.Asked r i w s := by
  intro t h
  rcases h₁.shows t _ h with h | h
  · refine (h₃ t h).imp_right fun ⟨hshows, ns, g, hjournal, hmem⟩ => ⟨hshows, ?_⟩
    obtain ⟨ms, hms⟩ := h₁.journal
    refine ⟨ms ++ ns, g, ?_, List.mem_append_right _ hmem⟩
    rw [hjournal, ← hms, List.append_assoc]
  · exact .inl ((h₂.shows .any none h).elim id id)

theorem loosened_detach (hs : p.Sound) (hp : p.Orderly) (hw : p.wires.find? i = some w)
    (r : String) : p.Loosened r (p.detach i w).2 where
  journal := ⟨_, (informed_detach hw).journal.symm⟩
  shows := fun t o h => by
    cases hends : w.endsAt r "in" .input with
    | false => exact .inl (h.detach_of_not_endsAt hs hp hw hends)
    | true =>
      obtain rfl : o = some (i, w) := h.wire.symm.trans (hs.wireAt?_eq_some_iff.2 ⟨hw, hends⟩)
      exact (h.detach_of_endsAt hs hp).symm.imp_left And.left

section

variable {α : Type} {f : Patch → α → Patch}

/-- Steps that loosen a reroute do so one after the other. -/
theorem loosened_foldl (htrim : ∀ p a, Trimmed p (f p a))
    (hf : ∀ p : Patch, p.Sound → p.Orderly → ∀ a, p.Loosened r (f p a)) (as : List α)
    (hs : p.Sound) (hp : p.Orderly) : p.Loosened r (as.foldl f p) := by
  induction as generalizing p with
  | nil => exact .refl p r
  | cons a as ih =>
    exact (hf p hs hp a).trans (ih (hs.trimmed (htrim p a).toTrimmed) (hp.trimmed (htrim p a)))

/-- If the reroute is asked in one of the steps, it is asked. -/
theorem asked_foldl (htrim : ∀ p a, Trimmed p (f p a))
    (hf : ∀ p : Patch, p.Sound → p.Orderly → ∀ a, p.Loosened r (f p a)) {a : α}
    (ha : ∀ p : Patch, p.Sound → p.Orderly → p.Asked r i w (f p a)) {as : List α} (hmem : a ∈ as)
    (hs : p.Sound) (hp : p.Orderly) : p.Asked r i w (as.foldl f p) := by
  induction as generalizing p with
  | nil => cases hmem
  | cons b as ih =>
    have hs' := hs.trimmed (htrim p b).toTrimmed
    have hp' := hp.trimmed (htrim p b)
    have hrest := loosened_foldl htrim hf as hs' hp'
    rcases List.mem_cons.1 hmem with rfl | hmem
    · exact (ha p hs hp).loosened hrest
    · exact (hf p hs hp b).asked hrest (ih hmem hs' hp')

end

/-- One step of `detachAll`: the wire under the number is taken away, if it is there. -/
def detachNext (p : Patch) (i : WireId) : Patch :=
  match p.wires.find? i with
  | some w => (p.detach i w).2
  | none => p

theorem trimmed_detachNext (p : Patch) (i : WireId) : p.Trimmed (p.detachNext i) := by
  unfold detachNext
  split
  next w hw => exact p.trimmed_detach hw
  next => exact .refl p

theorem loosened_detachNext (hs : p.Sound) (hp : p.Orderly) (i : WireId) (r : String) :
    p.Loosened r (p.detachNext i) := by
  unfold detachNext
  split
  next w hw => exact loosened_detach hs hp hw r
  next => exact .refl p r

theorem asked_detachNext (hs : p.Sound) (hp : p.Orderly) (r : String) (i : WireId) (w : Wire) :
    p.Asked r i w (p.detachNext i) := by
  intro t h
  rw [detachNext, (of_wireAt? h.wire).1]
  exact h.detach_of_endsAt hs hp

theorem loosened_detachAll (hs : p.Sound) (hp : p.Orderly) (is : List WireId) (r : String) :
    p.Loosened r (p.detachAll is) :=
  loosened_foldl trimmed_detachNext (fun _ hs hp j => loosened_detachNext hs hp j r) is hs hp

theorem asked_detachAll (hs : p.Sound) (hp : p.Orderly) {is : List WireId} (hi : i ∈ is)
    (r : String) (w : Wire) : p.Asked r i w (p.detachAll is) :=
  asked_foldl trimmed_detachNext (fun _ hs hp j => loosened_detachNext hs hp j r)
    (fun _ hs hp => asked_detachNext hs hp r i w) hi hs hp

theorem loosened_detachPorts (hs : p.Sound) (hp : p.Orderly) (node : String) (side : Side)
    (ports : List String) (r : String) : p.Loosened r (p.detachPorts node side ports) :=
  loosened_foldl (fun p _ => p.trimmed_detachAll _)
    (fun _ hs hp _ => loosened_detachAll hs hp _ r) ports hs hp

/-- The wire into a reroute has its turn when the ports of its source are gone through. -/
theorem asked_detachPorts (hs : p.Sound) (hp : p.Orderly) {ports : List String}
    (hport : w.sourcePort ∈ ports) (r : String) (i : WireId) :
    p.Asked r i w (p.detachPorts w.source .output ports) := by
  refine asked_foldl (fun p _ => p.trimmed_detachAll _)
    (fun _ hs hp _ => loosened_detachAll hs hp _ r) (fun p hs hp t h => ?_) hport hs hp
  have hmem : (i, w) ∈ p.wiresAt w.source w.sourcePort .output := by
    refine List.mem_filter.2 ⟨Table.mem_entries_iff.2 (of_wireAt? h.wire).1, ?_⟩
    exact Wire.endsAt_iff.2 ⟨rfl, rfl⟩
  exact asked_detachAll hs hp (List.mem_map_of_mem hmem) r w t h

theorem loosened_disconnect (hs : p.Sound) (hp : p.Orderly) (node port : String) (side : Side)
    (r : String) : p.Loosened r (p.disconnect node port side).2 := by
  unfold disconnect
  cases hfound : p.wireAt? node port side with
  | none => exact .refl p r
  | some e => exact loosened_detach hs hp (of_wireAt? hfound).1 r

theorem Freed.loosened {node port : String} (hs : p.Sound) (hp : p.Orderly)
    (h : p.Freed node port q) (r : String) : p.Loosened r q := by
  cases h with
  | already => exact .refl p r
  | detached i v hfound hfree =>
    have hloosened := loosened_detach hs hp (of_wireAt? hfound).1 r
    rwa [detach_of_not_vetoed hfree] at hloosened

/-! ### Wires that are made, and nodes that are removed -/

/-- A wire that leads elsewhere does not matter to a reroute. -/
theorem Shows.addWire (hs : p.Sound) (h : p.Shows r t o)
    (hends : w.endsAt r "in" .input = false) : (p.addWire w).Shows r t o := by
  refine h.congr rfl (Eq.trans (wireAt?_congr fun i v hv => ?_) h.wire)
  refine (iff_of_eq (congrArg (· = some v) (p.wires.find?_insert p.nextWire i w))).trans ?_
  split
  next hi =>
    -- Under the new number there was no wire, and there is none into the reroute now.
    constructor
    · intro hnew
      obtain rfl := Option.some.inj hnew
      rw [hends] at hv
      cases hv
    · intro hold
      exact absurd (hs.below i v hold) (hi ▸ Nat.lt_irrefl _)
  next => exact Iff.rfl

/-- A reroute whose wire is made takes the type that the source has then; another one stays as it
is, or loses its wire. -/
theorem Shows.connect (hs : p.Sound) (hp : p.Orderly) (h : p.Shows r t o) (w : Wire) :
    (p.connect w).2.Shows r t o ∨ (p.connect w).2.Shows r .any none ∨
      ∃ i u, (p.connect w).1 = some i ∧ (p.connect w).2.Shows r u (some (i, w)) ∧
        (p.connect w).2.typeOf? w.source w.sourcePort .output = some u := by
  have hattempt := p.attempt_connect w
  have hsound := sound_connect hs w
  have hfind := (find?_connect hs w · ·)
  generalize p.connect w = a at hattempt hsound hfind ⊢
  cases hattempt with
  | refused => exact .inl h
  | kept i v _ hfound =>
    refine (loosened_detach hs hp (of_wireAt? hfound).1 r).shows t o h |>.imp_right .inl
  | mismatched _ hfreed => exact ((hfreed.loosened hs hp r).shows t o h).imp_right .inl
  | vetoed hw hfreed _ hveto =>
    have hgenuine := hp.genuine.trimmed hfreed.trimmed
    refine ((hfreed.loosened hs hp r).shows t o h).imp (fun h => ?_) fun h => .inl ?_
    · exact h.announce_of_vetoed hgenuine hw.1 hveto
    · exact h.announce_of_vetoed hgenuine hw.1 hveto
  | @made q s b hw hfreed hjoins hveto =>
    have horderly := hp.trimmed hfreed.trimmed
    have hloosened := (hfreed.loosened hs hp r).shows t o h
    cases hends : w.endsAt r "in" .input with
    | true =>
      obtain ⟨u, o', hshown⟩ : ∃ u o', q.Shows r u o' := by
        rcases hloosened with h | h
        · exact ⟨t, o, h⟩
        · exact ⟨.any, none, h⟩
      obtain ⟨u, htold, hsource⟩ := hshown.announce_created horderly.genuine
        (horderly.keeps _) hw.1 hends hveto (by rw [hjoins.source]; rfl)
      have hwire := hsound.wireAt?_eq_some_iff.2 ⟨(hfind _ w).2 (.inl ⟨rfl, rfl⟩), hends⟩
      exact .inr (.inr ⟨_, u, rfl, htold.congr rfl hwire, hsource⟩)
    | false =>
      have htrim := hfreed.trimmed.trans (trimmed_announce q (.created w s.type.id b.type.id))
      have hadded : ∀ {t o}, q.Shows r t o →
          ((q.announce (.created w s.type.id b.type.id)).2.addWire w).Shows r t o := fun h =>
        (h.announce_of_not_endsAt (c := .created w s.type.id b.type.id) horderly.genuine
          (horderly.keeps _) hw.1 hends).addWire (hs.trimmed htrim.toTrimmed) hends
      exact hloosened.imp hadded fun h => .inl (hadded h)

/-- The patch without a node and the wires that touch it. -/
def withoutWired (p : Patch) (id : String) : Patch :=
  (p.dropWires id).withGraph ((p.dropWires id).toGraph.without id)

theorem Shows.withoutWired (h : p.Shows r t o) (hr : r ≠ id)
    (hwire : (p.withoutWired id).wireAt? r "in" .input = o') :
    (p.withoutWired id).Shows r t o' := by
  refine h.congr ?_ hwire
  exact ((node?_without _ id r).trans (if_neg hr)).trans (p.node?_dropWires id r)

/-- Among the wires into a reroute, those are dropped that come from the node that is removed. -/
theorem find?_withoutWired (p : Patch) (hr : r ≠ id) {w : Wire}
    (hends : w.endsAt r "in" .input = true) (i : WireId) :
    (p.withoutWired id).wires.find? i = some w ↔ p.wires.find? i = some w ∧ w.source ≠ id := by
  refine (p.find?_wires_dropWires id i w).trans (and_congr_right fun _ => ?_)
  rw [Wire.touches, ((endsAt_input _ _ _).1 hends).1]
  simp [hr]

/-- A reroute whose wire comes from another node stays as it is. -/
theorem Shows.withoutWired_of_ne (h : p.Shows r t o) (hr : r ≠ id)
    (ho : ∀ e ∈ o, e.2.source ≠ id) (hs : p.Sound) : (p.withoutWired id).Shows r t o := by
  refine h.withoutWired hr (Eq.trans (wireAt?_congr fun i w hends => ?_) h.wire)
  rw [p.find?_withoutWired hr hends]
  refine ⟨And.left, fun hw => ⟨hw, ho (i, w) ?_⟩⟩
  exact h.wire.symm.trans (hs.wireAt?_eq_some_iff.2 ⟨hw, hends⟩)

/-- A wire that was kept goes with its source, and the reroute is not told. -/
theorem Shows.withoutWired_source (h : p.Shows r t (some (i, w))) (hr : r ≠ w.source)
    (hs : p.Sound) : (p.withoutWired w.source).Shows r t none := by
  refine h.withoutWired hr ((wireAt?_eq_none_iff _ _ _ _).2 fun j v hv => ?_)
  refine Bool.eq_false_iff.2 fun hends => ?_
  obtain ⟨hv, hne⟩ := (p.find?_withoutWired hr hends j).1 hv
  have hsame := h.wire.symm.trans (hs.wireAt?_eq_some_iff.2 ⟨hv, hends⟩)
  exact hne (congrArg (·.2.source) (Option.some.inj hsame)).symm

theorem remove_eq {n : Node} (hn : p.node? id = some n) :
    (p.remove id).2 = ((p.detachPorts id .input (n.portNames .input)).detachPorts id .output
      (n.portNames .output)).withoutWired id := by
  rw [remove, hn]
  rfl

/-- When another node is removed, a reroute stays as it is, or is told that it loses its wire. But
if its wire comes from that node and somebody cancels that it is taken away, then the wire is dropped
all the same, and the reroute keeps its type. -/
theorem Shows.remove (hs : p.Sound) (hp : p.Orderly) (h : p.Shows r t o) (hr : r ≠ id) :
    (p.remove id).2.Shows r t o ∨ (p.remove id).2.Shows r .any none ∨
      ∃ i w, o = some (i, w) ∧ w.source = id ∧ (p.remove id).2.Shows r t none ∧
        p.Spared r i w (p.remove id).2 := by
  cases hn : p.node? id with
  | none =>
    rw [remove_of_node?_eq_none hn]
    exact .inl h
  | some n =>
    have htrim := p.trimmed_detachPorts id .input (n.portNames .input)
    have hfirst := loosened_detachPorts hs hp id .input (n.portNames .input) r
    rw [remove_eq hn]
    generalize p.detachPorts id .input (n.portNames .input) = p₁ at htrim hfirst ⊢
    have hs₁ := hs.trimmed htrim.toTrimmed
    have hp₁ := hp.trimmed htrim
    have hsecond := loosened_detachPorts hs₁ hp₁ id .output (n.portNames .output) r
    have hs₂ := hs₁.trimmed (p₁.trimmed_detachPorts id .output (n.portNames .output)).toTrimmed
    have hasked : ∀ i w, o = some (i, w) → w.source = id →
        p.Asked r i w (p₁.detachPorts id .output (n.portNames .output)) := by
      rintro i w rfl rfl
      refine hfirst.asked hsecond (asked_detachPorts hs₁ hp₁ ?_ r i)
      -- The node has the port that the wire comes from.
      have hport := hs.source i w (of_wireAt? h.wire).1
      rw [port?, hn] at hport
      exact Node.mem_portNames hport
    have hboth := hfirst.trans hsecond
    generalize p₁.detachPorts id .output (n.portNames .output) = q at hs₂ hasked hboth ⊢
    by_cases hfrom : ∃ i w, o = some (i, w) ∧ w.source = id
    · obtain ⟨i, w, rfl, rfl⟩ := hfrom
      rcases hasked i w rfl rfl t h with hgone | ⟨hkept, ns, g, hjournal, hmem⟩
      · exact .inr (.inl (hgone.withoutWired_of_ne hr (fun e he => by cases he) hs₂))
      · refine .inr (.inr ⟨i, w, rfl, rfl, hkept.withoutWired_source hr hs₂, ?_⟩)
        obtain ⟨_, ds, hds, _⟩ := q.dropWires_cases w.source
        refine ⟨ns ++ ds, g, ?_, List.mem_append_left _ hmem⟩
        exact hds.trans (by rw [hjournal, List.append_assoc])
    · rcases hboth.shows t o h with hsame | hgone
      · refine .inl (hsame.withoutWired_of_ne hr (fun e he hsource => hfrom ?_) hs₂)
        exact ⟨e.1, e.2, he, hsource⟩
      · exact .inr (.inl (hgone.withoutWired_of_ne hr (fun e he => by cases he) hs₂))

/-- A new node is of the kind that was asked for, and this kind is declared. -/
theorem kindOf?_insert (hs : p.Sound) {kind : String} {position : Position}
    (h : p.insert kind id position = .ok q) :
    ∃ d, p.kinds.find? kind = some d ∧ q.kindOf? id = some kind := by
  cases hd : p.kinds.find? kind with
  | none =>
    simp only [Patch.insert, hd] at h
    cases h
  | some d =>
    have hput : ∀ n : Node, n.id = id → n.kind = d.id →
        (p.toGraph.put n).kindOf? id = some kind := by
      rintro n rfl hn
      rw [Graph.kindOf?, node?_put, if_pos rfl, Option.map_some, hn, hs.keyed kind d hd]
    simp only [Patch.insert, hd] at h
    obtain rfl := Except.ok.inj h
    refine ⟨d, rfl, hput _ ?_ ?_⟩
    · split
      · exact Node.id_edit _ _
      · rfl
    · split
      · exact Node.kind_edit _ _
      · rfl

/-- A new reroute takes anything. -/
theorem shows_insert (hs : p.Sound) (hid : r ∉ p.ids)
    (hd : p.kinds.find? "reroute" = some Builtin.reroute.declaration)
    (hb : p.behaviour "reroute" = Builtin.reroute.behaviour) {position : Position}
    (h : p.insert "reroute" r position = .ok q) : q.Shows r .any none := by
  rw [insert_eq hd (by rw [hb]; rfl)] at h
  obtain rfl := Except.ok.inj h
  have hnode : (p.toGraph.put (.ofDeclaration Builtin.reroute.declaration r position)).node? r =
      some (.ofDeclaration Builtin.reroute.declaration r position) :=
    (node?_put _ _ _).trans (if_pos rfl)
  have hport : ∀ name side,
      (p.toGraph.put (.ofDeclaration Builtin.reroute.declaration r position)).typeOf? r name side =
        (Builtin.reroute.declaration.start name side).map (·.type) := by
    intro name side
    rw [typeOf?, port?, hnode]
    cases side <;> rfl
  refine ⟨kindOf?_of_node? hnode, (hport _ _).trans (by decide +kernel),
    (hport _ _).trans (by decide +kernel), ?_⟩
  refine (wireAt?_eq_none_iff _ _ _ _).2 fun i w hw => Bool.eq_false_iff.2 fun hends => ?_
  -- No wire leads to a node that was not there.
  replace hw : p.wires.find? i = some w := wires_put p.toGraph _ ▸ hw
  obtain ⟨n, hn⟩ := node?_of_isSome_port? (hs.target i w hw)
  rw [((endsAt_input _ _ _).1 hends).1, (node?_eq_none_iff _ _).2 hid] at hn
  cases hn

/-- The edit leaves the types of the ports that the node has as they are. -/
def KeepsTypes (p : Patch) (id : String) (e : NodeEdit) : Prop :=
  ∀ name side t, p.typeOf? id name side = some t → (p.edit id e).typeOf? id name side = some t

theorem Shows.edit (h : p.Shows r t o) {e : NodeEdit} (he : id = r → p.KeepsTypes id e) :
    (p.edit id e).Shows r t o := by
  by_cases hid : id = r
  · subst hid
    have hkind : (p.edit id e).kindOf? id = p.kindOf? id := (p.trimmed_edit id e).kindOf? id
    exact ⟨hkind.trans h.kind, he rfl _ _ _ h.input, he rfl _ _ _ h.output, h.wire⟩
  · exact h.congr ((p.node?_edit id e r).trans (if_neg (Ne.symm hid))) h.wire

/-! ### Nodes that feed a reroute -/

/-- From `p` to `q` the notices were given. The node has the same kind in both, and its ports keep
their types if it heeded none of the notices. -/
structure Minded (p : Patch) (x : String) (ns : List Notice) (q : Patch) : Prop where
  journal : q.journal = p.journal ++ ns
  kindOf? : q.kindOf? x = p.kindOf? x
  typeOf? : (∀ n ∈ ns, p.heeds x n = false) → ∀ name side t,
    p.typeOf? x name side = some t → q.typeOf? x name side = some t

theorem Minded.refl (p : Patch) (x : String) : p.Minded x [] p :=
  ⟨(List.append_nil _).symm, rfl, fun _ _ _ _ => id⟩

theorem Minded.trans {s : Patch} {x : String} {ns ms : List Notice} (h₁ : p.Minded x ns q)
    (h₂ : q.Minded x ms s) : p.Minded x (ns ++ ms) s where
  journal := by rw [h₂.journal, h₁.journal, List.append_assoc]
  kindOf? := h₂.kindOf?.trans h₁.kindOf?
  typeOf? := fun h name side t ht => by
    refine h₂.typeOf? (fun n hn => ?_) name side t (h₁.typeOf? (fun n hn => ?_) name side t ht)
    · rw [heeds_congr h₁.kindOf?]
      exact h n (List.mem_append_right _ hn)
    · exact h n (List.mem_append_left _ hn)

/-- A node that is the same has the same types, whatever was told. -/
theorem Minded.of_node? {x : String} {ns : List Notice} (hjournal : q.journal = p.journal ++ ns)
    (hnode : q.node? x = p.node? x) : p.Minded x ns q :=
  ⟨hjournal, kindOf?_congr hnode, fun _ _ _ _ ht => (typeOf?_congr hnode _ _).trans ht⟩

theorem Steady.minded {ns : List Notice} (h : p.Steady ns q) (x : String) : p.Minded x ns q :=
  ⟨h.journal, h.trimmed.kindOf? x, fun hns _ _ _ ht => (typeOf?_congr (h.node? x hns) _ _).trans ht⟩

theorem exists_minded_connect (hp : p.Genuine) (w : Wire) (x : String) :
    ∃ ns, p.Minded x ns (p.connect w).2 := by
  obtain ⟨ns, q, hsteady, hjournal, hnodes⟩ := exists_steady_connect hp w
  refine ⟨ns ++ [], (hsteady.minded x).trans (.of_node? ?_ ?_)⟩
  · rw [hjournal, List.append_nil]
  · rw [Graph.node?, hnodes]
    rfl

theorem exists_minded_remove (hp : p.Genuine) {x : String} (hx : x ≠ id) :
    ∃ ns, p.Minded x ns (p.remove id).2 := by
  cases hn : p.node? id with
  | none =>
    rw [remove_of_node?_eq_none hn]
    exact ⟨[], .refl p x⟩
  | some n =>
    rw [remove_eq hn]
    obtain ⟨ns, hfirst⟩ := exists_steady_detachPorts hp id .input (n.portNames .input)
    obtain ⟨ms, hsecond⟩ := exists_steady_detachPorts (hp.trimmed hfirst.trimmed) id .output
      (n.portNames .output)
    obtain ⟨_, ds, hds, _⟩ := dropWires_cases ((p.detachPorts id .input
      (n.portNames .input)).detachPorts id .output (n.portNames .output)) id
    refine ⟨_, ((hfirst.trans hsecond).minded x).trans (.of_node? hds ?_)⟩
    exact ((node?_without _ id x).trans (if_neg hx)).trans (node?_dropWires _ id x)

theorem minded_edit {e : NodeEdit} {x : String} (he : id = x → p.KeepsTypes id e) :
    p.Minded x [] (p.edit id e) := by
  by_cases hid : id = x
  · subst hid
    exact ⟨(List.append_nil _).symm, (p.trimmed_edit id e).kindOf? id, fun _ => he rfl⟩
  · exact .of_node? (List.append_nil _).symm ((p.node?_edit id e x).trans (if_neg (Ne.symm hid)))

end Patch

end Patchbay
