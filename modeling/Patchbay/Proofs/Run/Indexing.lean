import Mathlib.Data.List.Induction
import Patchbay.Proofs.Run.Founding
import Patchbay.Proofs.Run.Spreading

/-!
# A round of a loop

A loop publishes its index before each round. As long as it is not calculated again, no step of the
round changes the index, and the outputs of its dependents, which were dropped when the index was
published, can only come back from calculations of this very round. So whatever is read in the
round from the loop, or from nodes that it feeds through nodes without control ports, comes from the
index of the round (`Engine.FromIndex`).

Calculations in a round may read from elsewhere too; what they read was kept at some moment of the
round.

## Key results

- `Indexed.step`: no step of a round brings other outputs in
- `inRound_of_founded`: what is kept and what is read throughout a round
-/

namespace Patchbay.Engine

open RunM

variable {e : Engine} {loop : String} {index : Value} {cache : Table String PortValues}
  {steps : List Step}

/-- At some moment during the steps these outputs of the node were kept. -/
def KeptDuring (e : Engine) (cache : Table String PortValues) (steps : List Step) (node : String)
    (out : PortValues) : Prop :=
  ∃ before, before <+: steps ∧ (before.foldl e.replayStep cache).find? node = some out

theorem KeptDuring.mono {node : String} {out : PortValues} (h : e.KeptDuring cache steps node out)
    (more : List Step) : e.KeptDuring cache (steps ++ more) node out := by
  obtain ⟨before, hprefix, hout⟩ := h
  exact ⟨before, hprefix.trans (List.prefix_append steps more), hout⟩

/-- The outputs come from an index of the loop, by calculations from outputs that were kept. -/
inductive FromIndex (e : Engine) (kept : String → PortValues → Prop) (loop : String)
    (index : Value) : String → PortValues → Prop where
  /-- The loop has the index itself. -/
  | own {out : PortValues} :
    kept loop out → out.find? "index" = some index → FromIndex e kept loop index loop out
  /-- A node that values from the loop reach was calculated from outputs of its sources: those that
  the loop reaches, and the loop, had outputs that come from the index. -/
  | calculated {id : String} {node : Node} {out : PortValues} (outputs : String → PortValues) :
    Relation.TransGen e.graph.Passes loop id → e.graph.node? id = some node →
    (∀ x ∈ e.graph.dataWires id, kept x.2.source (outputs x.2.source)) →
    (∀ x ∈ e.graph.dataWires id, Relation.ReflTransGen e.graph.Passes loop x.2.source →
      FromIndex e kept loop index x.2.source (outputs x.2.source)) →
    (e.script node (e.inputsFrom outputs node)).Yields out → FromIndex e kept loop index id out

theorem FromIndex.mono {kept kept' : String → PortValues → Prop}
    (hkept : ∀ node out, kept node out → kept' node out) {id : String} {out : PortValues}
    (h : e.FromIndex kept loop index id out) : e.FromIndex kept' loop index id out := by
  induction h with
  | own hout hindex => exact .own (hkept _ _ hout) hindex
  | calculated outputs hreached hn hsources _ hyields ih =>
    exact .calculated outputs hreached hn (fun x hx => hkept _ _ (hsources x hx)) ih hyields

/-! ### What is kept -/

/-- What is kept after the steps comes from the index, as far as the loop and its dependents go. -/
structure Indexed (e : Engine) (loop : String) (index : Value) (cache : Table String PortValues)
    (steps : List Step) : Prop where
  own : ∃ out, (steps.foldl e.replayStep cache).find? loop = some out ∧
    out.find? "index" = some index
  reached : ∀ x, Relation.TransGen e.graph.Passes loop x → ∀ out,
    (steps.foldl e.replayStep cache).find? x = some out →
      e.FromIndex (e.KeptDuring cache steps) loop index x out

/-- Outputs that are kept now come from the index. -/
theorem Indexed.fromIndex (h : e.Indexed loop index cache steps) {x : String} {out : PortValues}
    (hx : Relation.ReflTransGen e.graph.Passes loop x)
    (hout : (steps.foldl e.replayStep cache).find? x = some out) :
    e.FromIndex (e.KeptDuring cache steps) loop index x out := by
  rcases Relation.reflTransGen_iff_eq_or_transGen.1 hx with rfl | hx
  · obtain ⟨own, hown, hindex⟩ := h.own
    obtain rfl : own = out := Option.some.inj (hown.symm.trans hout)
    exact .own ⟨steps, List.prefix_rfl, hout⟩ hindex
  · exact h.reached x hx out hout

/-- A step leaves the loop alone, and gives a dependent, if any, outputs that come from the index.
-/
theorem Indexed.append (h : e.Indexed loop index cache steps) {step : Step}
    (hown : (e.replayStep (steps.foldl e.replayStep cache) step).find? loop =
      (steps.foldl e.replayStep cache).find? loop)
    (hreached : ∀ x, Relation.TransGen e.graph.Passes loop x → ∀ out,
      (e.replayStep (steps.foldl e.replayStep cache) step).find? x = some out →
        (steps.foldl e.replayStep cache).find? x = some out ∨
          e.FromIndex (e.KeptDuring cache steps) loop index x out) :
    e.Indexed loop index cache (steps ++ [step]) := by
  have hlast : (steps ++ [step]).foldl e.replayStep cache =
      e.replayStep (steps.foldl e.replayStep cache) step := by
    rw [List.foldl_append]
    rfl
  constructor
  · rw [hlast, hown]
    exact h.own
  · intro x hx out hout
    rw [hlast] at hout
    have hfrom : e.FromIndex (e.KeptDuring cache steps) loop index x out :=
      (hreached x hx out hout).elim (h.reached x hx out) id
    exact hfrom.mono fun _ _ hkept => hkept.mono [step]

theorem Indexed.unchanged (h : e.Indexed loop index cache steps) {step : Step}
    (hsame : e.replayStep (steps.foldl e.replayStep cache) step =
      steps.foldl e.replayStep cache) : e.Indexed loop index cache (steps ++ [step]) := by
  refine h.append (by rw [hsame]) fun x _ out hout => .inl ?_
  rwa [hsame] at hout

/-- As long as the loop is not calculated, no step brings outputs in that come from elsewhere. -/
theorem Indexed.step (h : e.Indexed loop index cache steps) (hflow : e.graph.usesFlow loop = true)
    {step : Step} (hfounded : e.Founded none cache steps step)
    (hidle : ∀ inputs, .calculated loop inputs ∉ steps) :
    e.Indexed loop index cache (steps ++ [step]) := by
  have hother : ∀ {node}, Underway none steps node → loop ≠ node := by
    rintro node (hown | ⟨inputs, hmem⟩) rfl
    · cases hown
    · exact hidle inputs hmem
  cases step with
  | published node outputs =>
    obtain ⟨hnode, hunderway⟩ := hfounded
    have hloop : loop ∉ e.graph.dependents node := fun hmem =>
      Bool.false_ne_true ((Graph.usesFlow_of_mem_dependents hmem).symm.trans hflow)
    refine h.append ?_ fun x hx out hout => .inl ?_
    · rw [find?_replayStep_published, if_neg hloop, if_neg (hother hunderway)]
    · have hne : x ≠ node := by
        rintro rfl
        exact Bool.false_ne_true ((Graph.usesFlow_of_passes hx).symm.trans hnode)
      rw [find?_replayStep_published, if_neg hne] at hout
      split at hout
      · cases hout
      · exact hout
  | event ev =>
    cases ev with
    | nodeEvaluated run node out =>
      obtain ⟨hunderway, hcalculated⟩ := hfounded
      have hfind : ∀ x, (e.replayStep (steps.foldl e.replayStep cache)
          (.event (.nodeEvaluated run node out))).find? x =
            if x = node then some out else (steps.foldl e.replayStep cache).find? x :=
        fun x => Table.find?_insert _ _ _ _
      refine h.append (by rw [hfind, if_neg (hother hunderway)]) fun x hx o hout => ?_
      rw [hfind] at hout
      split at hout
      next heq =>
        -- The node has just been calculated, from what is kept now.
        subst heq
        obtain rfl := Option.some.inj hout
        obtain ⟨n, outputs, hn, hsources, hyields⟩ := hcalculated (Graph.usesFlow_of_passes hx)
        exact .inr (.calculated outputs hx hn (fun y hy => ⟨steps, List.prefix_rfl, hsources y hy⟩)
          (fun y hy hreached => h.fromIndex hreached (hsources y hy)) hyields)
      next => exact .inl hout
    | runStarted | flowFired | runCompleted | runFailed => exact h.unchanged rfl
  | received | calculated | undelivered | printed | informed => exact h.unchanged rfl

/-- The index is kept for the loop, and none of its dependents has outputs. -/
structure Opens (e : Engine) (loop : String) (index : Value) (cache : Table String PortValues) :
    Prop where
  own : ∃ out, cache.find? loop = some out ∧ out.find? "index" = some index
  reached : ∀ x, Relation.TransGen e.graph.Passes loop x → cache.find? x = none

theorem indexed_of_founded (hflow : e.graph.usesFlow loop = true)
    (hopens : e.Opens loop index cache) (hfounded : Throughout (e.Founded none cache) steps)
    (hidle : ∀ inputs, .calculated loop inputs ∉ steps) : e.Indexed loop index cache steps := by
  induction steps using List.reverseRecOn with
  | nil =>
    refine ⟨hopens.own, fun x hx out hout => ?_⟩
    rw [List.foldl_nil, hopens.reached x hx] at hout
    cases hout
  | append_singleton before step ih =>
    obtain ⟨hbefore, hstep⟩ := hfounded.of_snoc
    have hidle' : ∀ inputs, .calculated loop inputs ∉ before :=
      fun inputs hmem => hidle inputs (List.mem_append_left _ hmem)
    exact (ih hbefore hidle').step hflow hstep hidle'

/-! ### What is read -/

/-- The steps belong to a round of the loop with the index, which starts with these outputs. -/
structure InRound (e : Engine) (loop : String) (index : Value) (cache : Table String PortValues)
    (steps : List Step) : Prop where
  /-- At each moment the loop has the index. -/
  own : ∀ before, before <+: steps →
    ((before.foldl e.replayStep cache).find? loop).bind (·.find? "index") = some index
  /-- Values are taken from what is kept. -/
  kept : ∀ before node wire value held after,
    steps = before ++ .received node wire value held :: after →
      held = before.foldl e.replayStep cache
  /-- What is taken from the index port is the index. -/
  direct : ∀ node wire value held, .received node wire value held ∈ steps →
    ∀ w, e.graph.wires.find? wire = some w → w.source = loop → w.sourcePort = "index" →
      value = index
  /-- What is taken from a dependent is one of its outputs, and those come from the index. -/
  indirect : ∀ before node wire value held after,
    steps = before ++ .received node wire value held :: after →
      ∀ w, e.graph.wires.find? wire = some w → Relation.TransGen e.graph.Passes loop w.source →
        ∃ out, e.FromIndex (e.KeptDuring cache before) loop index w.source out ∧
          held.find? w.source = some out ∧ value = (out.find? w.sourcePort).getD .null

/-- The steps between the states belong to a round of the loop with the index, and tell which outputs
are kept. -/
def RoundOf (e : Engine) (loop : String) (index : Value) (s s' : RunState) : Prop :=
  ∃ steps, s.Made steps s' ∧ s'.cache = steps.foldl e.replayStep s.cache ∧
    e.InRound loop index s.cache steps

/-- Steps during which the loop is not calculated belong to the round that they start in. -/
theorem inRound_of_founded (hflow : e.graph.usesFlow loop = true)
    (hopens : e.Opens loop index cache) (hfounded : Throughout (e.Founded none cache) steps)
    (hsourced : Throughout (e.Sourced cache) steps)
    (hidle : ∀ inputs, .calculated loop inputs ∉ steps) : e.InRound loop index cache steps := by
  have hindexed : ∀ before, before <+: steps → e.Indexed loop index cache before := by
    rintro before ⟨after, rfl⟩
    exact indexed_of_founded hflow hopens hfounded.of_append
      fun inputs hmem => hidle inputs (List.mem_append_left _ hmem)
  have hread : ∀ before node wire value held after,
      steps = before ++ .received node wire value held :: after →
        held = before.foldl e.replayStep cache ∧ e.Indexed loop index cache before ∧
          ∀ w, e.graph.wires.find? wire = some w → ∃ out, held.find? w.source = some out ∧
            value = (out.find? w.sourcePort).getD .null := by
    intro before node wire value held after heq
    obtain ⟨hheld, v, out, hv, hout, hvalue⟩ := hsourced before _ after heq
    refine ⟨hheld, hindexed before ⟨_, heq.symm⟩, fun w hw => ?_⟩
    obtain rfl : v = w := Option.some.inj ((Graph.mem_dataWires.1 hv).1.symm.trans hw)
    exact ⟨out, hout, hvalue⟩
  refine ⟨fun before hprefix => ?_, fun before node wire value held after heq =>
    (hread before node wire value held after heq).1, fun node wire value held hmem w hw hs hp => ?_,
    fun before node wire value held after heq w hw hreached => ?_⟩
  · obtain ⟨out, hout, hindex⟩ := (hindexed before hprefix).own
    rw [hout, Option.bind_some, hindex]
  · obtain ⟨before, after, heq⟩ := List.append_of_mem hmem
    obtain ⟨rfl, hbefore, hsource⟩ := hread before node wire value held after heq
    obtain ⟨out, hout, rfl⟩ := hsource w hw
    obtain ⟨own, hown, hindex⟩ := hbefore.own
    obtain rfl : own = out := Option.some.inj (hown.symm.trans (hs ▸ hout))
    rw [hp, hindex]
    rfl
  · obtain ⟨rfl, hbefore, hsource⟩ := hread before node wire value held after heq
    obtain ⟨out, hout, hvalue⟩ := hsource w hw
    exact ⟨out, hbefore.reached _ hreached out hout, hout, hvalue⟩

end Patchbay.Engine
