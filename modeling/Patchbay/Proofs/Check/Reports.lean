import Patchbay.Proofs.Check.Faultless
import Patchbay.Proofs.Table

/-!
# The parts of a report

A report has four parts: kinds, wires, inputs and cycles (`Problem.part`). A problem of a wire
carries the label of that wire (`Problem.wire?`), a problem of an input says which one it is
(`Problem.input?`), so what is reported can be told apart by part, wire and input.

How often each problem is reported is counted for one wire here, and for the list of inputs.

## Key results

- `Surroundings.wire?_of_mem_wireProblems`: problems of wires carry their labels
- `Surroundings.count_selfLoop` / `count_unknownNode` / `count_unknownPort` /
  `count_incompatibleTypes`: what is reported of one wire, and how often
- `count_fanIn` / `fanIn_ascending`: each input is listed once, in order
- `Surroundings.filter_part_problems`: the parts of a report on wires
-/

namespace Patchbay

/-- The parts of a report. -/
inductive Part where
  | kinds
  | wires
  | inputs
  | cycles
  deriving DecidableEq

namespace Problem

/-- The part of a report that the problem belongs to. -/
def part : Problem → Part
  | unknownKind _ _ => .kinds
  | unknownNode _ _ | unknownPort _ _ _ | selfLoop _ _ | incompatibleTypes _ _ _ => .wires
  | fanInExceeded _ _ _ => .inputs
  | dataCycle _ => .cycles

/-- The label of the wire that the problem is about. -/
def wire? : Problem → Option String
  | unknownNode wire _ | unknownPort wire _ _ | selfLoop wire _ | incompatibleTypes wire _ _ =>
    some wire
  | _ => none

/-- The input that the problem is about, which several wires lead into. -/
def input? : Problem → Option (String × String)
  | fanInExceeded node port _ => some (node, port)
  | _ => none

theorem part_of_wire? {p : Problem} {label : String} (h : p.wire? = some label) :
    p.part = .wires := by
  cases p <;> first | rfl | cases h

end Problem

/-- Numbers differ in their labels. -/
theorem eq_of_label_eq (tag : String) {i j : Nat} (h : tag ++ toString i = tag ++ toString j) :
    i = j := by
  have hrepr : Nat.repr i = Nat.repr j := (String.append_right_inj tag).1 h
  have hdigits : Nat.toDigits 10 i = Nat.toDigits 10 j := by
    rw [← Nat.toList_repr, ← Nat.toList_repr, hrepr]
  have hback := congrArg (Nat.ofDigitChars 10 · 0) hdigits
  simpa only [Nat.ofDigitChars_ten_toDigits] using hback

/-- What all belongs to one part is all of this part, and nothing of another one. -/
theorem filter_part_of_forall {ps : List Problem} {a : Part} (h : ∀ p ∈ ps, p.part = a) (b : Part) :
    ps.filter (·.part = b) = if a = b then ps else [] := by
  split
  next hab => exact List.filter_eq_self.2 fun p hp => by simpa [← hab] using h p hp
  next hab => exact List.filter_eq_nil_iff.2 fun p hp => by simpa [h p hp] using hab

/-! ### Kinds -/

theorem part_of_mem_unknownKinds {g : Graph} {ns : List (String × String)} {p : Problem}
    (h : p ∈ unknownKinds g ns) : p.part = .kinds := by
  obtain ⟨n, _, hp⟩ := List.mem_filterMap.1 h
  split at hp
  · cases hp
  · rw [← Option.some.inj hp]
    rfl

/-- There is one report for each entry. -/
theorem count_unknownKinds (g : Graph) (ns : List (String × String)) (node kind : String) :
    (unknownKinds g ns).count (.unknownKind node kind) =
      if g.kinds.contains kind then 0 else ns.count (node, kind) := by
  induction ns with
  | nil => simp [unknownKinds]
  | cons n ns ih =>
    have hrest : unknownKinds g (n :: ns) =
        (if g.kinds.contains n.2 then [] else [.unknownKind n.1 n.2]) ++ unknownKinds g ns := by
      simp only [unknownKinds, List.filterMap_cons]
      cases g.kinds.contains n.2 <;> rfl
    rw [hrest, List.count_append, ih, List.count_cons]
    by_cases hn : n = (node, kind)
    · subst hn
      by_cases hkind : g.kinds.contains kind
      · simp [hkind]
      · simp [hkind, Nat.add_comm]
    · have hne : ¬(n.1 = node ∧ n.2 = kind) := fun h => hn (Prod.ext h.1 h.2)
      have hzero : (if g.kinds.contains n.2 then [] else [Problem.unknownKind n.1 n.2]).count
          (.unknownKind node kind) = 0 := by
        refine List.count_eq_zero.2 fun hmem => hne ?_
        split at hmem
        · cases hmem
        · simpa [eq_comm] using hmem
      simp [hzero, hn]

/-! ### Wires -/

namespace Surroundings

variable (s : Surroundings) {label : String} {w : Wire}

/-- What is wrong with the ends of a wire. -/
theorem eq_of_mem_unknownEnds {p : Problem} (h : p ∈ s.unknownEnds label w) :
    ∃ node, p = .unknownNode label node := by
  obtain ⟨node, _, hp⟩ := List.mem_filterMap.1 h
  split at hp
  · cases hp
  · exact ⟨node, (Option.some.inj hp).symm⟩

/-- What is wrong with the ports of a wire. -/
theorem eq_of_mem_portProblems {p : Problem} (h : p ∈ s.portProblems label w) :
    (∃ node port, p = .unknownPort label node port) ∨ ∃ a b, p = .incompatibleTypes label a b := by
  unfold portProblems at h
  split at h <;> grind

theorem wire?_of_mem_wireProblems {p : Problem} (h : p ∈ s.wireProblems label w) :
    p.wire? = some label := by
  simp only [wireProblems, List.mem_append] at h
  rcases h with (hloop | hend) | hport
  · split at hloop
    · rw [List.mem_singleton.1 hloop]
      rfl
    · cases hloop
  · obtain ⟨node, rfl⟩ := s.eq_of_mem_unknownEnds hend
    rfl
  · split at hport
    · obtain ⟨node, port, rfl⟩ | ⟨a, b, rfl⟩ := s.eq_of_mem_portProblems hport <;> rfl
    · cases hport

/-- A loop is reported once. -/
theorem count_selfLoop (label node : String) (w : Wire) :
    (s.wireProblems label w).count (.selfLoop label node) =
      if w.source = node ∧ w.target = node then 1 else 0 := by
  have hends : (s.unknownEnds label w).count (.selfLoop label node) = 0 := by
    refine List.count_eq_zero.2 fun h => ?_
    obtain ⟨_, h⟩ := s.eq_of_mem_unknownEnds h
    cases h
  have hports : (if (s.unknownEnds label w).isEmpty then s.portProblems label w else []).count
      (.selfLoop label node) = 0 := by
    refine List.count_eq_zero.2 fun h => ?_
    split at h
    · obtain ⟨_, _, h⟩ | ⟨_, _, h⟩ := s.eq_of_mem_portProblems h <;> cases h
    · cases h
  simp only [wireProblems, List.count_append, hends, hports, Nat.add_zero]
  by_cases hloop : w.source = w.target
  · by_cases hnode : w.source = node
    · simp [hnode, ← hloop]
    · simp [hloop, hloop ▸ hnode]
  · have hne : ¬(w.source = node ∧ w.target = node) := fun h => hloop (h.1.trans h.2.symm)
    simp [hloop, hne]

/-- Each end that is unknown is reported once. -/
theorem count_unknownNode (label node : String) (w : Wire) :
    (s.wireProblems label w).count (.unknownNode label node) =
      (if w.source = node ∧ node ∉ s.ids then 1 else 0) +
        if w.target = node ∧ node ∉ s.ids then 1 else 0 := by
  have hloop : (if w.source = w.target then [Problem.selfLoop label w.source] else []).count
      (.unknownNode label node) = 0 := by
    split <;> simp
  have hports : (if (s.unknownEnds label w).isEmpty then s.portProblems label w else []).count
      (.unknownNode label node) = 0 := by
    refine List.count_eq_zero.2 fun h => ?_
    split at h
    · obtain ⟨_, _, h⟩ | ⟨_, _, h⟩ := s.eq_of_mem_portProblems h <;> cases h
    · cases h
  have hend : ∀ end' : String, (if s.ids.contains end' then [] else
      [Problem.unknownNode label end']).count (.unknownNode label node) =
        if end' = node ∧ node ∉ s.ids then 1 else 0 := by
    intro end'
    by_cases hnode : end' = node
    · by_cases hid : node ∈ s.ids <;> simp [hnode, hid]
    · by_cases hid : end' ∈ s.ids <;> simp [hnode, hid]
  -- An end that leads back to its node counts twice.
  have hends : s.unknownEnds label w =
      (if s.ids.contains w.source then [] else [.unknownNode label w.source]) ++
        if s.ids.contains w.target then [] else [.unknownNode label w.target] := by
    simp only [unknownEnds, List.filterMap_cons, List.filterMap_nil]
    cases s.ids.contains w.source <;> cases s.ids.contains w.target <;> rfl
  simp only [wireProblems, List.count_append, hloop, hports, Nat.zero_add, Nat.add_zero]
  rw [hends, List.count_append, hend, hend]

/-- Ports are looked at where both ends are known. -/
theorem count_wireProblems_of_port {p : Problem} (hloop : ∀ node, p ≠ .selfLoop label node)
    (hend : ∀ node, p ≠ .unknownNode label node) :
    (s.wireProblems label w).count p =
      if w.source ∈ s.ids ∧ w.target ∈ s.ids then (s.portProblems label w).count p else 0 := by
  have hloops : (if w.source = w.target then [Problem.selfLoop label w.source] else []).count p =
      0 := by
    refine List.count_eq_zero.2 fun h => ?_
    split at h
    · exact hloop w.source (List.mem_singleton.1 h)
    · cases h
  have hends : (s.unknownEnds label w).count p = 0 := by
    refine List.count_eq_zero.2 fun h => ?_
    obtain ⟨node, h⟩ := s.eq_of_mem_unknownEnds h
    exact hend node h
  simp only [wireProblems, List.count_append, hloops, hends, Nat.zero_add, List.isEmpty_iff,
    s.unknownEnds_eq_nil_iff]
  split <;> rfl

/-- Between known nodes each port that is missing is reported once. -/
theorem count_unknownPort (label node port : String) (w : Wire) :
    (s.wireProblems label w).count (.unknownPort label node port) =
      if w.source ∈ s.ids ∧ w.target ∈ s.ids then
        (if w.source = node ∧ w.sourcePort = port ∧ s.portType? node port .output = none
          then 1 else 0) +
        if w.target = node ∧ w.targetPort = port ∧ s.portType? node port .input = none
          then 1 else 0
      else 0 := by
  rw [s.count_wireProblems_of_port (by simp) (by simp)]
  -- A port of another name, or one that is there, is not the one in question.
  have hend : ∀ (end' name : String) (side : Side),
      (if end' = node ∧ name = port ∧ s.portType? node port side = none then 1 else 0) =
        if s.portType? end' name side = none then
          [Problem.unknownPort label end' name].count (.unknownPort label node port) else 0 := by
    intro end' name side
    by_cases hsame : end' = node ∧ name = port
    · obtain ⟨rfl, rfl⟩ := hsame
      simp
    · have hne : ¬(end' = node ∧ name = port ∧ s.portType? node port side = none) :=
        fun h => hsame ⟨h.1, h.2.1⟩
      simp [hne, hsame]
  rw [hend, hend]
  congr 1
  unfold portProblems
  cases s.portType? w.source w.sourcePort .output with
  | none =>
    cases s.portType? w.target w.targetPort .input with
    | none => simp [List.count_cons, Nat.add_comm]
    | some b => simp
  | some a =>
    cases s.portType? w.target w.targetPort .input with
    | none => simp
    | some b => by_cases hfit : s.conversions.canConnect a b <;> simp [hfit]

/-- Between known nodes, types of ports that do not fit are reported once. -/
theorem count_incompatibleTypes (label a b : String) (w : Wire) :
    (s.wireProblems label w).count (.incompatibleTypes label a b) ≤ 1 ∧
      (.incompatibleTypes label a b ∈ s.wireProblems label w ↔
        (w.source ∈ s.ids ∧ w.target ∈ s.ids) ∧ ∃ ta tb,
          s.portType? w.source w.sourcePort .output = some ta ∧
          s.portType? w.target w.targetPort .input = some tb ∧
          s.conversions.canConnect ta tb = false ∧ ta.id = a ∧ tb.id = b) := by
  have hcount : (s.portProblems label w).count (.incompatibleTypes label a b) ≤ 1 ∧
      (.incompatibleTypes label a b ∈ s.portProblems label w ↔ ∃ ta tb,
        s.portType? w.source w.sourcePort .output = some ta ∧
        s.portType? w.target w.targetPort .input = some tb ∧
        s.conversions.canConnect ta tb = false ∧ ta.id = a ∧ tb.id = b) := by
    unfold portProblems
    cases s.portType? w.source w.sourcePort .output with
    | none => cases s.portType? w.target w.targetPort .input <;> simp
    | some ta =>
      cases s.portType? w.target w.targetPort .input with
      | none => simp
      | some tb =>
        by_cases hfit : s.conversions.canConnect ta tb
        · simp [hfit]
        · have hlength : ∀ p q : Problem, [p].count q ≤ 1 := fun p q => List.count_le_length
          simp [hfit, hlength, eq_comm (b := a), eq_comm (b := b)]
  have hports : (s.wireProblems label w).count (.incompatibleTypes label a b) = _ :=
    s.count_wireProblems_of_port (by simp) (by simp)
  rw [← List.count_pos_iff, hports]
  split
  next hends => simpa [hends] using hcount
  next hends => simp [hends]

end Surroundings

/-! ### Inputs -/

/-- The first input comes before the second one, by node and then by port. -/
def InputBefore (a b : String × String) : Prop :=
  compare a.1 b.1 = .lt ∨ a.1 = b.1 ∧ compare a.2 b.2 = .lt

theorem InputBefore.ne {a b : String × String} (h : InputBefore a b) : a ≠ b := by
  rintro rfl
  rcases h with h | ⟨_, h⟩ <;> simp at h

/-- Inputs are listed in ascending order. -/
theorem fanIn_ascending (ws : List Wire) :
    ((fanIn ws).filterMap Problem.input?).Pairwise InputBefore := by
  have hinput : ∀ {node port : String} {p : Problem},
      (if 1 < ws.countP (·.endsAt node port .input) then
        some (Problem.fanInExceeded node port (ws.countP (·.endsAt node port .input))) else none) =
        some p → ∀ a, p.input? = some a → a = (node, port) := by
    intro node port p hp a ha
    obtain ⟨_, hp⟩ := Option.ite_none_right_eq_some.1 hp
    rw [← Option.some.inj hp] at ha
    exact (Option.some.inj ha).symm
  rw [List.pairwise_filterMap, fanIn, List.pairwise_flatMap]
  constructor
  · -- Inputs of one node are in the order of their ports.
    intro node _
    rw [List.pairwise_filterMap]
    refine (Table.distinct_ascending _).imp fun {port port'} hlt p hp p' hp' a ha b hb => ?_
    rw [hinput hp a ha, hinput hp' b hb]
    exact .inr ⟨rfl, hlt⟩
  · refine (Table.distinct_ascending _).imp fun {node node'} hlt p hp p' hp' a ha b hb => ?_
    obtain ⟨port, _, hp⟩ := List.mem_filterMap.1 hp
    obtain ⟨port', _, hp'⟩ := List.mem_filterMap.1 hp'
    rw [hinput hp a ha, hinput hp' b hb]
    exact .inl hlt

/-- Each input that several wires lead into is listed once, with the number of these wires. -/
theorem count_fanIn (ws : List Wire) (node port : String) (count : Nat) :
    (fanIn ws).count (.fanInExceeded node port count) =
      if 1 < count ∧ ws.countP (·.endsAt node port .input) = count then 1 else 0 := by
  have hnodup : (fanIn ws).Nodup := by
    refine (List.pairwise_filterMap.1 (fanIn_ascending ws)).imp_of_mem fun {p q} hp _ hpq heq => ?_
    obtain ⟨node, port, _, rfl⟩ := (mem_fanIn_iff ws p).1 hp
    exact (hpq _ rfl _ (heq ▸ rfl)).ne rfl
  have hmem : .fanInExceeded node port count ∈ fanIn ws ↔
      1 < count ∧ ws.countP (·.endsAt node port .input) = count := by
    refine (mem_fanIn_iff ws _).trans ⟨?_, ?_⟩
    · rintro ⟨node', port', hcount, heq⟩
      obtain ⟨rfl, rfl, rfl⟩ := Problem.fanInExceeded.inj heq
      exact ⟨hcount, rfl⟩
    · rintro ⟨hcount, rfl⟩
      exact ⟨node, port, hcount, rfl⟩
  rw [hnodup.count]
  simp only [hmem]

theorem part_of_mem_fanIn {ws : List Wire} {p : Problem} (h : p ∈ fanIn ws) :
    p.part = .inputs := by
  obtain ⟨node, port, _, rfl⟩ := (mem_fanIn_iff ws p).1 h
  rfl

/-! ### The report -/

namespace Surroundings

variable (s : Surroundings)

/-- Of cycles there is one report at most. -/
def cycleProblems (ws : List Wire) : List Problem :=
  if (unsettledNodes s.ids ws).isEmpty then [] else [.dataCycle (unsettledNodes s.ids ws)]

/-- The parts of a report on wires. -/
theorem filter_part_problems (ws : List (String × Wire)) (a : Part) :
    (s.problems ws).filter (·.part = a) =
      match a with
      | .kinds => []
      | .wires => ws.flatMap fun e => s.wireProblems e.1 e.2
      | .inputs => fanIn (ws.map (·.2))
      | .cycles => s.cycleProblems (ws.map (·.2)) := by
  have hwires : ∀ p ∈ ws.flatMap fun e => s.wireProblems e.1 e.2, p.part = .wires := by
    intro p hp
    obtain ⟨e, _, he⟩ := List.mem_flatMap.1 hp
    exact Problem.part_of_wire? (s.wire?_of_mem_wireProblems he)
  have hinputs : ∀ p ∈ fanIn (ws.map (·.2)), p.part = .inputs := fun p => part_of_mem_fanIn
  have hcycles : ∀ p ∈ s.cycleProblems (ws.map (·.2)), p.part = .cycles := by
    intro p hp
    unfold cycleProblems at hp
    split at hp
    · cases hp
    · rw [List.mem_singleton.1 hp]
      rfl
  have hparts : s.problems ws = (ws.flatMap fun e => s.wireProblems e.1 e.2) ++
      fanIn (ws.map (·.2)) ++ s.cycleProblems (ws.map (·.2)) := rfl
  rw [hparts, List.filter_append, List.filter_append, filter_part_of_forall hwires,
    filter_part_of_forall hinputs, filter_part_of_forall hcycles]
  cases a <;> simp

/-- Where no two wires have one label, what is wrong with wires of other labels does not count. -/
theorem count_flatMap_wireProblems {ws : List (String × Wire)} (hlabels : (ws.map (·.1)).Nodup)
    {label : String} {w : Wire} (hw : (label, w) ∈ ws) {p : Problem} (hp : p.wire? = some label) :
    (ws.flatMap fun e => s.wireProblems e.1 e.2).count p = (s.wireProblems label w).count p := by
  have hother : ∀ e : String × Wire, e.1 ≠ label → p ∉ s.wireProblems e.1 e.2 :=
    fun e he h => he (Option.some.inj ((s.wire?_of_mem_wireProblems h).symm.trans hp))
  induction ws with
  | nil => cases hw
  | cons e ws ih =>
    obtain ⟨he, hws⟩ := List.nodup_cons.1 hlabels
    rw [List.flatMap_cons, List.count_append]
    rcases List.mem_cons.1 hw with rfl | hrest
    · have hzero : (ws.flatMap fun e => s.wireProblems e.1 e.2).count p = 0 := by
        refine List.count_eq_zero.2 fun h => ?_
        obtain ⟨d, hd, hpd⟩ := List.mem_flatMap.1 h
        exact hother d (fun hlabel => he (List.mem_map.2 ⟨d, hd, hlabel⟩)) hpd
      rw [hzero, Nat.add_zero]
    · have hzero : (s.wireProblems e.1 e.2).count p = 0 :=
        List.count_eq_zero.2
          (hother e fun hlabel => he (List.mem_map.2 ⟨(label, w), hrest, hlabel.symm⟩))
      rw [hzero, Nat.zero_add, ih hws hrest]

end Surroundings

end Patchbay
