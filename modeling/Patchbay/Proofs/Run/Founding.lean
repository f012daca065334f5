import Patchbay.Proofs.Run.Provenance

/-!
# What outputs and firings rest on

Outputs are published, control outputs are fired and evaluations end only where the calculation of
the node has started before (`Engine.Founded`). And the evaluation of a node without control ports
ends with what is calculated from the outputs that its sources have at that very moment: they all
have some by then, and what was read from them was the same.

So as long as some node is not calculated, no step is one of its own.

## Key results

- `Founded.transfer`: what decides whether a step rests on what it has to
- `founds_runNode`: what the steps of an evaluation rest on
-/

namespace Patchbay.Engine

open RunM

variable {e : Engine} {own : Option String} {kept : Table String PortValues}
  {before xs : List Step} {step : Step}

/-- The calculation of the node has started in these steps, or before them. -/
def Underway (own : Option String) (before : List Step) (node : String) : Prop :=
  own = some node ∨ ∃ inputs, Step.calculated node inputs ∈ before

/-- What the step, made after the given ones, rests on. Outputs were kept as the table says before
all these steps, while the node `own` was being calculated. -/
def Founded (e : Engine) (own : Option String) (kept : Table String PortValues)
    (before : List Step) : Step → Prop
  | .published node _ => e.graph.usesFlow node = true ∧ Underway own before node
  | .event (.flowFired _ node _ _) => Underway own before node
  | .event (.nodeEvaluated _ node out) =>
    Underway own before node ∧ (e.graph.usesFlow node = false → ∃ n outputs,
      e.graph.node? node = some n ∧
      (∀ x ∈ e.graph.dataWires node,
        (before.foldl e.replayStep kept).find? x.2.source = some (outputs x.2.source)) ∧
      (e.script n (e.inputsFrom outputs n)).Yields out)
  | _ => True

/-- What a step rests on is which calculations have started before it, and what is kept then. -/
theorem Founded.transfer {own' : Option String} {kept' : Table String PortValues}
    {before' : List Step} (h : e.Founded own kept before step)
    (hunderway : ∀ node, Underway own before node → Underway own' before' node)
    (hkept : before'.foldl e.replayStep kept' = before.foldl e.replayStep kept) :
    e.Founded own' kept' before' step := by
  cases step with
  | published => exact ⟨h.1, hunderway _ h.2⟩
  | event ev =>
    cases ev with
    | flowFired => exact hunderway _ h
    | nodeEvaluated =>
      refine ⟨hunderway _ h.1, ?_⟩
      rw [hkept]
      exact h.2
    | runStarted | runCompleted | runFailed => trivial
  | received | calculated | undelivered | printed | informed => trivial

theorem Founded.prepend (h : e.Founded own (xs.foldl e.replayStep kept) before step) :
    e.Founded own kept (xs ++ before) step :=
  h.transfer (fun _ hnode => hnode.imp_right fun ⟨inputs, hmem⟩ =>
    ⟨inputs, List.mem_append_right _ hmem⟩) List.foldl_append

/-- A calculation that has started in these steps need not have started before. -/
theorem Founded.started {node : String} (h : e.Founded (some node) kept before step)
    {inputs : PortValues} (hmem : .calculated node inputs ∈ before) :
    e.Founded none kept before step := by
  refine h.transfer (fun n hn => .inr ?_) rfl
  rcases hn with hown | hstarted
  · obtain rfl := Option.some.inj hown
    exact ⟨inputs, hmem⟩
  · exact hstarted

theorem Founded.weaken (h : e.Founded none kept before step) (own : Option String) :
    e.Founded own kept before step :=
  h.transfer (fun _ hnode => .inr (hnode.resolve_left nofun)) rfl

/-- The steps between two states tell which outputs are kept, and rest on what they have to. -/
def Founds (e : Engine) (own : Option String) (s s' : RunState) : Prop :=
  ∃ steps, s.Made steps s' ∧ s'.cache = steps.foldl e.replayStep s.cache ∧
    Throughout (e.Founded own s.cache) steps

/-- One step, with what it does to the outputs. -/
theorem Founds.push (s : RunState) (step : Step) (h : e.Founded own s.cache [] step) :
    e.Founds own s ((s.push step).withCache (e.replayStep s.cache step)) :=
  ⟨[step], s.made_push step, rfl, throughout_singleton h⟩

instance : Telling (e.Founds own) where
  refl := fun _ => ⟨[], RunState.made_nil rfl, rfl, throughout_nil⟩
  trans := fun h₁ h₂ => by
    obtain ⟨xs, hxs, hcache, hx⟩ := h₁
    obtain ⟨ys, hys, hcache', hy⟩ := h₂
    refine ⟨xs ++ ys, hxs.append hys, ?_, hx.append fun before step after h => ?_⟩
    · rw [hcache', hcache, List.foldl_append]
    · have hstep := hy before step after h
      rw [hcache] at hstep
      exact hstep.prepend
  tell := fun s step h => by
    cases step with
    | undelivered | printed | informed => exact .push s _ trivial
    | received | calculated | published | event => cases h
  context := fun _ _ => ⟨[], RunState.made_nil rfl, rfl, throughout_nil⟩

theorem Founds.weaken {s s' : RunState} (h : e.Founds none s s') (own : Option String) :
    e.Founds own s s' := by
  obtain ⟨steps, hmade, hcache, hsteps⟩ := h
  refine ⟨steps, hmade, hcache, fun before step after heq => ?_⟩
  exact (hsteps before step after heq).weaken own

/-- Once its calculation has started, the node may go on. -/
theorem Founds.calculated {node : String} {inputs : PortValues} {s s' s'' : RunState}
    (h₁ : e.Founds none s s')
    (h₂ : e.Founds (some node) (s'.push (.calculated node inputs)) s'') : e.Founds none s s'' := by
  refine Composable.trans h₁ ?_
  obtain ⟨ys, hys, hcache, hy⟩ := h₂
  have hfirst : Throughout (e.Founded none s'.cache) [.calculated node inputs] :=
    throughout_singleton trivial
  refine ⟨.calculated node inputs :: ys, (s'.made_push _).append hys, hcache, hfirst.append ?_⟩
  intro before step after heq
  have hmem : .calculated node inputs ∈ [.calculated node inputs] ++ before :=
    List.mem_append_left _ (List.mem_singleton_self _)
  exact (hy before step after heq).prepend.started hmem

/-! ### Evaluations -/

theorem founds_assemble {pull : String → RunM Unit}
    (hpull : ∀ id, Moves (e.Founds own) (pull id)) (node : Node) :
    Moves (e.Founds own) (e.assemble pull node) := by
  refine moves_bind (moves_foldlM _ (fun inputs x _ => ?_) ∅) fun _ => moves_pure _
  exact moves_bind (hpull _) fun _ => moves_bind moves_read fun s =>
    moves_bind (moves_log fun s => Founds.push s _ trivial) fun _ => moves_pure _

/-- What the evaluation of a node comes to once its calculation has started. -/
theorem founds_evaluate (hg : e.graph.Sound) (hsettled : e.Settled) {past : List Step}
    {pull resume : String → RunM Unit} (hcalm : e.CalmPull past pull)
    (hpull : ∀ id, Moves (e.Founds none) (pull id))
    (hresume : ∀ id, Moves (e.Founds none) (resume id)) {node : Node}
    (hn : e.graph.node? node.id = some node) :
    Moves (e.Founds none) (e.evaluate pull resume node) := by
  intro s
  refine holds_bind (founds_assemble hpull node s) fun inputs s' hdone => ?_
  have hassembled := founds_assemble hpull node s
  rw [hdone] at hassembled
  obtain ⟨hin, hfound⟩ := inputsFrom_of_assemble hg hcalm hn hdone
  suffices h : e.Founds (some node.id) (s'.push (.calculated node.id inputs))
      ((e.interpret resume node.id (e.flows node) (e.script node inputs) >>= e.conclude node.id)
        (s'.push (.calculated node.id inputs))).2 from hassembled.calculated h
  cases hflow : e.graph.usesFlow node.id with
  | true =>
    have hpublish : ∀ outputs, Moves (e.Founds (some node.id)) (e.publish node.id outputs) :=
      fun outputs s => Founds.push s (.published node.id outputs) ⟨hflow, .inl rfl⟩
    refine moves_bind (moves_interpret (moves_fire_of_push (e.flows node) hpublish
      (fun s port target => Founds.push s _ (.inl rfl))
      fun id => (hresume id).mono fun s s' h => h.weaken _) _) (fun outputs s => ?_) _
    refine conclude_of_push (Founds.push s _ ⟨.inl rfl, fun hfree => ?_⟩)
    exact absurd (hfree.symm.trans hflow) Bool.false_ne_true
  | false =>
    rcases hsettled node.id node hn hflow inputs with ⟨out, hout⟩ | ⟨err, herr⟩
    · rw [hout]
      refine conclude_of_push (Founds.push _ _ ⟨.inl rfl, fun _ => ?_⟩)
      refine ⟨node, outputsIn s'.cache, hn, fun x hx => ?_, by rw [← hin, hout]; rfl⟩
      obtain ⟨o, ho⟩ := hfound x hx
      show s'.cache.find? x.2.source = _
      rw [outputsIn, ho]
      rfl
    · rw [herr]
      exact Composable.refl _

/-- What the steps of an evaluation rest on, whatever is evaluated. -/
theorem founds_runNode (hg : e.graph.Sound) (hsettled : e.Settled) (allowance : Nat) (id : String) :
    Moves (e.Founds none) (e.runNode allowance id) := by
  induction allowance generalizing id with
  | zero => exact moves_exhaust
  | succ k ih =>
    have hcalm : e.CalmPull [] (e.pull (e.runNode k)) :=
      calmPull_pull (fun id => (right_runNode hg hsettled [] k id).2) fun h => find?_of_runNode h
    cases hn : e.graph.node? id with
    | none =>
      simp only [runNode, hn]
      exact moves_fail _
    | some node =>
      obtain rfl : node.id = id := Graph.id_of_node? hn
      simp only [runNode, hn]
      split
      · exact moves_within node.id (founds_evaluate hg hsettled hcalm
          (fun id => moves_pull fun _ => ih id) (moves_walk ih k) hn) fun s s' h => h
      · exact moves_fail _

end Patchbay.Engine
