import Patchbay.Proofs.Patch.Sound
import Patchbay.Proofs.Session.Basic

/-!
# Every session has sound wiring

Whatever is done in a session, with hooks that do anything hooks can do, the wiring of its patch
stays sound, and the numbers of wires are given in ascending order. Numbers go on where the patch is
cleared or restored, since none of the operations lowers the next one (`follows_perform`).

## Key results

- `follows_perform`: an operation keeps sound wiring and does not lower the next number
- `wiring_of_reachable`: in every reachable session the wiring is sound, the numbers that were given
  ascend, and each node is listed once
-/

namespace Patchbay

namespace Patch

variable {p q : Patch}

/-- The patch `q` may come after `p`: its wiring is sound, and numbers went on. -/
structure Follows (p q : Patch) : Prop where
  sound : q.Sound
  nextWire : p.nextWire ≤ q.nextWire

theorem Follows.refl (hp : p.Sound) : p.Follows p := ⟨hp, Nat.le_refl _⟩

theorem Follows.of_trimmed (hp : p.Sound) (h : p.Trimmed q) : p.Follows q :=
  ⟨hp.trimmed h.toTrimmed, Nat.le_of_eq h.nextWire.symm⟩

/-- What `declare` comes to. -/
theorem declare_cases {k : Kind} (h : p.declare k = .ok q) :
    q.toGraph = p.toGraph.declare k.declaration ∧
      q.behaviour = fun id => if id = k.declaration.id then k.behaviour else p.behaviour id := by
  simp only [declare] at h
  split at h
  next => cases h
  next =>
    obtain rfl := Except.ok.inj h
    dsimp only
    split <;> exact ⟨rfl, rfl⟩

/-- A declaration may leave a notice behind. -/
theorem journal_declare {p q : Patch} {k : Kind} (h : p.declare k = .ok q) :
    ∃ ns, q.journal = p.journal ++ ns := by
  simp only [declare] at h
  split at h
  next => cases h
  next =>
    obtain rfl := Except.ok.inj h
    dsimp only
    split
    · exact ⟨_, rfl⟩
    · exact ⟨[], (List.append_nil _).symm⟩

/-- Declaring a kind touches neither nodes nor wires. -/
theorem follows_declare (hp : p.Sound) {k : Kind} (h : p.declare k = .ok q) : p.Follows q := by
  have hq := (declare_cases h).1
  have hkinds : ∀ id, (p.toGraph.declare k.declaration).kinds.find? id =
      if id = k.declaration.id then some k.declaration else p.kinds.find? id :=
    fun id => p.kinds.find?_insert k.declaration.id id k.declaration
  refine ⟨?_, Nat.le_of_eq (by rw [hq]; rfl)⟩
  rw [hq]
  constructor
  case keyed =>
    intro id d hd
    rw [hkinds] at hd
    split at hd
    next hid => rw [hid, ← Option.some.inj hd]
    next => exact hp.keyed id d hd
  case declared =>
    intro id n hn
    rw [hkinds]
    split
    next => rfl
    next => exact hp.declared id n hn
  case nodup => exact hp.nodup
  case loopless => exact hp.loopless
  case single => exact hp.single
  case source => exact hp.source
  case target => exact hp.target
  case below => exact hp.below

theorem follows_insert (hp : p.Sound) {kind id : String} {position : Position} (hid : id ∉ p.ids)
    (h : p.insert kind id position = .ok q) : p.Follows q := by
  obtain ⟨n, _, _, rfl⟩ := insert_cases hp.keyed h
  exact ⟨sound_insert hp hid h, Nat.le_of_eq (Graph.nextWire_put p.toGraph n).symm⟩

theorem follows_clear (hp : p.Sound) : p.Follows p.clear :=
  ⟨sound_clear hp, Nat.le_refl _⟩

end Patch

namespace Session

open Patch

variable {s : Session}

theorem follows_accept (hs : s.patch.Sound) {r : Except Error Patch}
    (h : ∀ q, r = .ok q → s.patch.Follows q) : s.patch.Follows (s.accept r).patch := by
  obtain hsame | ⟨q, hq, hsame⟩ := s.accept_cases r
  · exact hsame.symm ▸ .refl hs
  · exact hsame.symm ▸ h q hq

theorem follows_afterMove (hs : s.patch.Sound) {r : History × Except Error (Option Patch)}
    (h : ∀ q, r.2 = .ok (some q) → ∃ t, s.patch.restore t = .ok q) :
    s.patch.Follows (s.afterMove r).patch := by
  obtain hsame | hok := s.patch_afterMove r
  · exact hsame.symm ▸ .refl hs
  · obtain ⟨t, ht⟩ := h _ hok
    obtain ⟨hq, hn⟩ := sound_restore hs ht
    exact ⟨hq, hn⟩

/-- An operation keeps sound wiring, and does not lower the next number. -/
theorem follows_perform (hs : s.patch.Sound) {op : Operation} (hop : op.Fresh s.patch) :
    s.patch.Follows (s.perform op).patch := by
  cases op with
  | declare k => exact follows_accept hs fun q hq => follows_declare hs hq
  | setRule type target rule => exact ⟨⟨hs.nodup, hs.keyed, hs.declared, hs.loopless, hs.single,
      hs.source, hs.target, hs.below⟩, Nat.le_refl _⟩
  | removeRule type target => exact ⟨⟨hs.nodup, hs.keyed, hs.declared, hs.loopless, hs.single,
      hs.source, hs.target, hs.below⟩, Nat.le_refl _⟩
  | insert kind id position => exact follows_accept hs fun q hq => follows_insert hs hop hq
  | edit id e => exact .of_trimmed hs (s.patch.trimmed_edit id e)
  | remove id => exact ⟨sound_remove hs id, Nat.le_of_eq (s.patch.nextWire_remove id).symm⟩
  | connect w => exact ⟨sound_connect hs w, (nextWire_connect hs w).1⟩
  | disconnect node port side => exact .of_trimmed hs (s.patch.trimmed_disconnect node port side)
  | notify id event => exact .of_trimmed hs (s.patch.trimmed_tell id event)
  | clear => exact follows_clear hs
  | restore t =>
    refine follows_accept hs fun q hq => ?_
    obtain ⟨hq, hn⟩ := sound_restore hs hq
    exact ⟨hq, hn⟩
  | record => exact .refl hs
  | undo => exact follows_afterMove hs fun q hq => History.restore_of_undo hq
  | redo => exact follows_afterMove hs fun q hq => History.restore_of_redo hq
  | forget => exact .refl hs

/-- The wiring is sound, and the numbers that were given ascend and lie below the next one. -/
structure Wired (s : Session) : Prop where
  sound : s.patch.Sound
  ascending : s.given.Pairwise (· < ·)
  below : ∀ i ∈ s.given, i < s.patch.nextWire

/-- Only `connect` gives numbers; what it gives is the next one. -/
theorem given_perform (hs : s.patch.Sound) (op : Operation) :
    (s.perform op).given = s.given ∨
      (s.perform op).given = s.given ++ [s.patch.nextWire] ∧
        s.patch.nextWire < (s.perform op).patch.nextWire := by
  cases op with
  | connect w =>
    have hnext := (nextWire_connect hs w).2
    simp only [perform]
    -- A wire that is refused gets no number.
    cases hr : (s.patch.connect w).1 with
    | none => exact .inl (List.append_nil _)
    | some i =>
      obtain ⟨rfl, hlt⟩ := hnext i hr
      exact .inr ⟨rfl, hlt⟩
  | declare | insert | restore => exact .inl (given_accept s _)
  | undo | redo => exact .inl (given_afterMove s _)
  | _ => exact .inl rfl

theorem wired_start (flow : Bool) (conversions : Conversions) (capacity : Nat) :
    (start flow conversions capacity).Wired :=
  ⟨Graph.sound_empty flow conversions, .nil, fun _ h => by cases h⟩

theorem wired_perform (hs : s.Wired) {op : Operation} (hop : op.Fresh s.patch) :
    (s.perform op).Wired := by
  have hfollows := follows_perform hs.sound hop
  have hbelow : ∀ i ∈ s.given, i < (s.perform op).patch.nextWire :=
    fun i hi => Nat.lt_of_lt_of_le (hs.below i hi) hfollows.nextWire
  obtain hgiven | ⟨hgiven, hlt⟩ := given_perform hs.sound op
  · exact ⟨hfollows.sound, hgiven ▸ hs.ascending, hgiven ▸ hbelow⟩
  -- All numbers so far are below the new one.
  · refine ⟨hfollows.sound, ?_, ?_⟩
    · rw [hgiven, List.pairwise_append]
      refine ⟨hs.ascending, List.pairwise_singleton _ _, fun i hi j hj => ?_⟩
      rw [List.mem_singleton.1 hj]
      exact hs.below i hi
    · intro i hi
      rw [hgiven, List.mem_append, List.mem_singleton] at hi
      rcases hi with hi | rfl
      · exact hbelow i hi
      · exact hlt

theorem wired_of_reachable (h : s.Reachable) : s.Wired :=
  Reaches.invariant Wired wired_start (fun _ _ hs hop => wired_perform hs hop) h

/-- In every session, whatever its kinds do when they are told of something: no wire leads from a
node to itself, each input has at most one wire, both ports of each wire exist, each wire has a
number below the next one, the numbers that `connect` gave ascend, and each node is listed once. -/
theorem wiring_of_reachable (h : s.Reachable) :
    (∀ i w, s.patch.wires.find? i = some w → w.source ≠ w.target) ∧
      (∀ i j v w, s.patch.wires.find? i = some v → s.patch.wires.find? j = some w →
        v.target = w.target → v.targetPort = w.targetPort → i = j) ∧
      (∀ i w, s.patch.wires.find? i = some w →
        (s.patch.port? w.source w.sourcePort .output).isSome ∧
          (s.patch.port? w.target w.targetPort .input).isSome) ∧
      (∀ i w, s.patch.wires.find? i = some w → i < s.patch.nextWire) ∧
      s.given.Pairwise (· < ·) ∧ (∀ i ∈ s.given, i < s.patch.nextWire) ∧
      ∀ id, s.patch.ids.count id = if (s.patch.node? id).isSome then 1 else 0 := by
  have hwired := wired_of_reachable h
  have hsound := hwired.sound
  refine ⟨hsound.loopless, hsound.single,
    fun i w hw => ⟨hsound.source i w hw, hsound.target i w hw⟩, hsound.below, hwired.ascending,
    hwired.below, fun id => ?_⟩
  split
  next hid => exact (hsound.nodup.count).trans (if_pos ((Graph.mem_ids_iff _ id).2 hid))
  next hid => exact List.count_eq_zero.2 fun hmem => hid ((Graph.mem_ids_iff _ id).1 hmem)

/-- A kind whose nodes let no wire go. -/
def stubborn : Kind where
  declaration :=
    { Declaration.plain "stubborn" "example" with
      inputs := [("in", .any "In")]
      outputs := [("out", .any "Out")] }
  behaviour :=
    { onUpdate := some fun event _ _ =>
        match event.change with
        | .created _ _ _ => (event, [])
        | .removed _ _ => ({ event with cancelled := true }, []) }

/-- Two nodes of one id, two wires into one input, and a wire that leads nowhere. -/
def muddled : Snapshot where
  nodes := ["a", "b", "a"].map fun id => ⟨id, "stubborn", .origin, ∅, ∅, .null⟩
  wires := [⟨"a", "out", "b", "in"⟩, ⟨"a", "out", "b", "in"⟩, ⟨"b", "out", "c", "in"⟩]

/-- A wire is made and refuses to go, the patch is restored and cleared, and a wire is made again.
-/
def muddle : List Operation :=
  [.declare stubborn, .insert "stubborn" "a" .origin, .insert "stubborn" "b" .origin,
    .connect ⟨"a", "out", "b", "in"⟩, .connect ⟨"a", "out", "b", "in"⟩,
    .disconnect "b" "in" .input, .restore muddled, .clear, .insert "stubborn" "a" .origin,
    .insert "stubborn" "b" .origin, .connect ⟨"a", "out", "b", "in"⟩]

theorem reachable_muddle : ((start true .base 10).performAll muddle).Reachable :=
  Reaches.performAll (.start true .base 10) (by decide +kernel)

/-- The wire of the restored patch had the number 1, so the last wire has the number 2. -/
theorem wiring_muddle :
    ((start true .base 10).performAll muddle).patch.wires.entries =
        [(2, ⟨"a", "out", "b", "in"⟩)] ∧
      ((start true .base 10).performAll muddle).given = [0, 2] ∧
      ((start true .base 10).performAll muddle).given.Pairwise (· < ·) ∧
      ∀ i w, ((start true .base 10).performAll muddle).patch.wires.find? i = some w →
        w.source ≠ w.target := by
  have h := wiring_of_reachable reachable_muddle
  exact ⟨by decide +kernel, by decide +kernel, h.2.2.2.2.1, h.1⟩

end Session

end Patchbay
