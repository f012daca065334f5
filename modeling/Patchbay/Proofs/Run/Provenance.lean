import Patchbay.Proofs.Run.Pulls
import Patchbay.Proofs.Run.Reads

/-!
# Where the values of a run come from

Every value that reaches a calculation over a wire was taken from outputs that were kept at that
moment, and outputs are kept only as the steps of the run so far say. So the steps account for all
values (`Engine.Sourced`), whatever an action does: whether outputs come from an evaluation that has
ended or were published before that, and whichever of them were dropped in between.

## Key results

- `logs_runNode`: what an evaluation does is told by its steps, and they account for what is read
- `exists_writes`: outputs that are kept in a run were written in it
-/

namespace Patchbay

/-- Over the wire the value was taken for the node; neither was another one since, nor was the node
calculated. -/
def Took (before : List Step) (node : String) (wire : WireId) (value : Value) : Prop :=
  ∃ first cache rest, before = first ++ .received node wire value cache :: rest ∧
    (∀ v c, .received node wire v c ∉ rest) ∧ ∀ inputs, .calculated node inputs ∉ rest

theorem Took.prepend {before : List Step} {node : String} {wire : WireId} {value : Value}
    (h : Took before node wire value) (xs : List Step) : Took (xs ++ before) node wire value := by
  obtain ⟨first, cache, rest, rfl, hrest⟩ := h
  exact ⟨xs ++ first, cache, rest, (List.append_assoc _ _ _).symm, hrest⟩

namespace Engine

open RunM

variable {e : Engine}

/-- The step, made after the given ones, uses only what is kept then. Outputs were kept as the table
says before all these steps. -/
def Sourced (e : Engine) (kept : Table String PortValues) (before : List Step) : Step → Prop
  /- A value is taken from outputs of the source of its wire, or null if they have no such one. -/
  | .received node wire value cache =>
    cache = before.foldl e.replayStep kept ∧ ∃ w out, (wire, w) ∈ e.graph.dataWires node ∧
      cache.find? w.source = some out ∧ value = (out.find? w.sourcePort).getD .null
  /- Over each wire the node gets what was taken for it. -/
  | .calculated node inputs =>
    ∀ n wire w, e.graph.node? node = some n → (wire, w) ∈ e.graph.dataWires node →
      ∃ value, Took before node wire value ∧
        inputs.find? w.targetPort = some (e.convert n w value)
  | _ => True

theorem Sourced.prepend {kept : Table String PortValues} {xs before : List Step} {step : Step}
    (h : e.Sourced (xs.foldl e.replayStep kept) before step) :
    e.Sourced kept (xs ++ before) step := by
  cases step with
  | received node wire value cache =>
    obtain ⟨hcache, hread⟩ := h
    exact ⟨by rw [hcache, List.foldl_append], hread⟩
  | calculated node inputs =>
    intro n wire w hn hw
    obtain ⟨value, htook, hvalue⟩ := h n wire w hn hw
    exact ⟨value, htook.prepend xs, hvalue⟩
  | published | event | undelivered | printed | informed => trivial

/-- The steps between two states tell which outputs are kept, and account for what was read. -/
def Logs (e : Engine) (s s' : RunState) : Prop :=
  ∃ steps, s.Made steps s' ∧ s'.cache = steps.foldl e.replayStep s.cache ∧
    Throughout (e.Sourced s.cache) steps

/-- One step, with what it does to the outputs. -/
theorem Logs.push (s : RunState) (step : Step) (h : e.Sourced s.cache [] step) :
    e.Logs s ((s.push step).withCache (e.replayStep s.cache step)) :=
  ⟨[step], s.made_push step, rfl, throughout_singleton h⟩

instance : Telling e.Logs where
  refl := fun _ => ⟨[], RunState.made_nil rfl, rfl, throughout_nil⟩
  trans := fun {s s' s''} h₁ h₂ => by
    obtain ⟨xs, hxs, hcache, hx⟩ := h₁
    obtain ⟨ys, hys, hcache', hy⟩ := h₂
    refine ⟨xs ++ ys, hxs.append hys, ?_, hx.append fun before step after h => ?_⟩
    · rw [hcache', hcache, List.foldl_append]
    · have hstep := hy before step after h
      rw [hcache] at hstep
      exact hstep.prepend
  tell := fun s step h => by
    cases step with
    | undelivered | printed | informed => exact .push s _ trivial
    | received | calculated | published | event => cases h
  context := fun _ _ => ⟨[], RunState.made_nil rfl, rfl, throughout_nil⟩

/-! ### Outputs that are kept -/

/-- As long as no step writes outputs of a node, it has none. -/
theorem find?_foldl_of_not_writes {steps : List Step} {x : String} {cache : Table String PortValues}
    (h : ∀ step ∈ steps, step.writes x = false) (hx : cache.find? x = none) :
    (steps.foldl e.replayStep cache).find? x = none := by
  induction steps generalizing cache with
  | nil => exact hx
  | cons step steps ih =>
    obtain ⟨hstep, hsteps⟩ := List.forall_mem_cons.1 h
    refine ih hsteps ?_
    cases step with
    | published node outputs =>
      have hne : x ≠ node := fun heq => of_decide_eq_false hstep heq.symm
      rw [find?_replayStep_published, if_neg hne, hx, ite_self]
    | event ev =>
      cases ev with
      | nodeEvaluated run node out =>
        have hne : x ≠ node := fun heq => of_decide_eq_false hstep heq.symm
        show (cache.insert node out).find? x = none
        rw [Table.find?_insert, if_neg hne, hx]
      | runStarted | flowFired | runCompleted | runFailed => exact hx
    | received | calculated | undelivered | printed | informed => exact hx

/-- Outputs that are kept in a run were written in it. -/
theorem exists_writes {steps : List Step} {x : String} {out : PortValues}
    (h : (e.replay steps).find? x = some out) : ∃ step ∈ steps, step.writes x = true := by
  refine Classical.byContradiction fun hnone => ?_
  have hnot : ∀ step ∈ steps, step.writes x = false := fun step hstep =>
    Bool.eq_false_iff.2 fun hx => hnone ⟨step, hstep, hx⟩
  rw [replay, find?_foldl_of_not_writes hnot (Table.find?_empty x)] at h
  cases h

/-! ### Evaluations -/

/-- Sources can be pulled, which evaluates nodes without control ports alone, is told by its steps,
and leaves the source with outputs. -/
structure LoggedPull (e : Engine) (pull : String → RunM Unit) : Prop where
  logs : ∀ id, Moves e.Logs (pull id)
  pulls : ∀ id, Moves (e.Pulls fun _ => false) (pull id)
  found : ∀ id s s', pull id s = (.done (), s') → ∃ out, s'.cache.find? id = some out

theorem logs_receive {pull : String → RunM Unit} (hpull : e.LoggedPull pull) {node : Node}
    {x : WireId × Wire} (hx : x ∈ e.graph.dataWires node.id) (inputs : PortValues) :
    Moves e.Logs (e.receive pull node inputs x) := by
  obtain ⟨i, w⟩ := x
  refine moves_bind_of_done (hpull.logs w.source) fun _ s s' hdone => ?_
  obtain ⟨out, hout⟩ := hpull.found w.source s s' hdone
  refine Logs.push s' (.received node.id i _ s'.cache) ⟨rfl, w, out, hx, hout, ?_⟩
  rw [RunState.output?, hout]
  rfl

theorem receive_done {pull : String → RunM Unit} {node : Node} {x : WireId × Wire}
    {inputs r : PortValues} {s s' : RunState}
    (h : e.receive pull node inputs x s = (.done r, s')) :
    ∃ s₁ value, pull x.2.source s = (.done (), s₁) ∧
      s' = s₁.push (.received node.id x.1 value s₁.cache) ∧
      r = inputs.insert x.2.targetPort (e.convert node x.2 value) := by
  obtain ⟨_, s₁, hpull, h⟩ := done_of_bind h
  obtain ⟨hr, hs'⟩ := Prod.mk.inj h
  exact ⟨s₁, _, hpull, hs'.symm, (Outcome.done.inj hr).symm⟩

/-- The steps while values are taken for a node over some wires, and what becomes of its inputs. -/
structure Takes (e : Engine) (node : Node) (xs : List (WireId × Wire)) (inputs r : PortValues)
    (steps : List Step) : Prop where
  /-- The steps of the node are those that take the values. -/
  own : ∀ step ∈ steps, step.concerns node.id = true →
    ∃ x ∈ xs, ∃ value cache, step = .received node.id x.1 value cache
  took : ∀ x ∈ xs, ∃ value, Took steps node.id x.1 value ∧
    r.find? x.2.targetPort = some (e.convert node x.2 value)
  other : ∀ name, (∀ x ∈ xs, x.2.targetPort ≠ name) → r.find? name = inputs.find? name

theorem takes_nil (node : Node) (inputs : PortValues) : e.Takes node [] inputs inputs [] :=
  ⟨List.forall_mem_nil _, List.forall_mem_nil _, fun _ _ => rfl⟩

/-- A value is taken before the others, after steps that do not belong to the node. -/
theorem Takes.cons {node : Node} {x : WireId × Wire} {xs : List (WireId × Wire)}
    {inputs r : PortValues} {ps steps : List Step} {value : Value}
    {cache : Table String PortValues}
    (h : e.Takes node xs (inputs.insert x.2.targetPort (e.convert node x.2 value)) r steps)
    (hps : ∀ step ∈ ps, step.concerns node.id = false)
    (hwires : ∀ y ∈ xs, x.1 ≠ y.1) (hports : ∀ y ∈ xs, x.2.targetPort ≠ y.2.targetPort) :
    e.Takes node (x :: xs) inputs r (ps ++ .received node.id x.1 value cache :: steps) where
  own := by
    intro step hstep hnode
    rcases List.mem_append.1 hstep with hstep | hstep
    · exact absurd ((hps step hstep).symm.trans hnode) Bool.false_ne_true
    · rcases List.mem_cons.1 hstep with rfl | hstep
      · exact ⟨x, List.mem_cons_self, value, cache, rfl⟩
      · obtain ⟨y, hy, hread⟩ := h.own step hstep hnode
        exact ⟨y, List.mem_cons_of_mem _ hy, hread⟩
  took := by
    intro y hy
    rcases List.mem_cons.1 hy with rfl | hy
    · refine ⟨value, ⟨ps, cache, steps, rfl, fun v c hmem => ?_, fun given hmem => ?_⟩, ?_⟩
      -- What the node takes later is taken over other wires.
      · obtain ⟨z, hz, v', c', heq⟩ := h.own _ hmem (decide_eq_true rfl)
        exact hwires z hz (Step.received.inj heq).2.1
      · obtain ⟨z, hz, v', c', heq⟩ := h.own _ hmem (decide_eq_true rfl)
        cases heq
      · rw [h.other _ fun z hz => (hports z hz).symm, Table.find?_insert, if_pos rfl]
    · obtain ⟨v, htook, hv⟩ := h.took y hy
      refine ⟨v, ?_, hv⟩
      rw [List.append_cons]
      exact htook.prepend _
  other := by
    intro name hname
    obtain ⟨hx, hxs⟩ := List.forall_mem_cons.1 hname
    rw [h.other name hxs, Table.find?_insert, if_neg hx.symm]

theorem takes_of_done {pull : String → RunM Unit} (hpull : e.LoggedPull pull) {node : Node}
    {xs : List (WireId × Wire)} (hwires : xs.Pairwise fun a b => a.1 ≠ b.1)
    (hports : xs.Pairwise fun a b => a.2.targetPort ≠ b.2.targetPort) {inputs r : PortValues}
    {s s' : RunState} (hbusy : node.id ∈ s.evaluating)
    (h : xs.foldlM (e.receive pull node) inputs s = (.done r, s')) :
    ∃ steps, s.Made steps s' ∧ e.Takes node xs inputs r steps := by
  induction xs generalizing inputs s with
  | nil =>
    obtain ⟨hr, rfl⟩ := Prod.mk.inj h
    obtain rfl := Outcome.done.inj hr
    exact ⟨[], RunState.made_nil rfl, takes_nil node inputs⟩
  | cons x xs ih =>
    rw [List.foldlM_cons] at h
    obtain ⟨inputs₁, _, hfirst, hrest⟩ := done_of_bind h
    obtain ⟨s₁, value, hpulled, rfl, rfl⟩ := receive_done hfirst
    obtain ⟨hwire, hwires⟩ := List.pairwise_cons.1 hwires
    obtain ⟨hport, hports⟩ := List.pairwise_cons.1 hports
    have hpulls := hpull.pulls x.2.source s
    rw [hpulled] at hpulls
    obtain ⟨ps, hps, hforeign⟩ := hpulls.exists_foreign hbusy
    have hbusy₁ : node.id ∈ (s₁.push (.received node.id x.1 value s₁.cache)).evaluating := by
      rw [RunState.evaluating_push, hpulls.evaluating]
      exact hbusy
    obtain ⟨steps, hmade, htakes⟩ := ih hwires hports hbusy₁ hrest
    have hmade₁ : s₁.Made (.received node.id x.1 value s₁.cache :: steps) s' :=
      (s₁.made_push _).append hmade
    exact ⟨_, hps.append hmade₁, htakes.cons hforeign hwire hport⟩

theorem logs_assemble {pull : String → RunM Unit} (hpull : e.LoggedPull pull) (node : Node) :
    Moves e.Logs (e.assemble pull node) :=
  moves_bind (moves_foldlM _ (fun inputs _ hx => logs_receive hpull hx inputs) ∅)
    fun _ => moves_pure _

/-- The calculation of a node starts from what was taken for it. -/
theorem logs_calculated (hg : e.graph.Sound) {pull : String → RunM Unit}
    (hpull : e.LoggedPull pull) {node : Node} (hn : e.graph.node? node.id = some node)
    {inputs : PortValues} {s s' : RunState} (hbusy : node.id ∈ s.evaluating)
    (h : e.assemble pull node s = (.done inputs, s')) :
    e.Logs s (s'.push (.calculated node.id inputs)) := by
  have hlogs := logs_assemble hpull node s
  rw [h] at hlogs
  obtain ⟨steps, hmade, hcache, hsourced⟩ := hlogs
  obtain ⟨r, s₁, hfold, hlast⟩ := done_of_bind h
  obtain ⟨hin, rfl⟩ := Prod.mk.inj hlast
  obtain ⟨steps', hmade', htakes⟩ := takes_of_done hpull (Graph.pairwise_keys_dataWires node.id)
    (hg.pairwise_dataWires node.id) hbusy hfold
  -- Both are the steps of the same part of the run.
  obtain rfl := hmade'.unique hmade
  refine ⟨steps' ++ [.calculated node.id inputs], hmade.append (s₁.made_push _), ?_,
    hsourced.append (throughout_singleton ?_)⟩
  · rw [List.foldl_append, ← hcache]
    rfl
  · rw [List.append_nil]
    intro n wire w hn' hw
    obtain rfl := Option.some.inj (hn.symm.trans hn')
    obtain ⟨value, htook, hvalue⟩ := htakes.took (wire, w) hw
    refine ⟨value, htook, ?_⟩
    -- What is taken over a wire comes before the value of the port itself.
    rw [← Outcome.done.inj hin, Table.find?_override, hvalue, Option.some_or]

theorem logs_evaluate (hg : e.graph.Sound) {pull resume : String → RunM Unit}
    (hpull : e.LoggedPull pull) (hresume : ∀ id, Moves e.Logs (resume id)) {node : Node}
    (hn : e.graph.node? node.id = some node) {s : RunState} (hbusy : node.id ∈ s.evaluating) :
    e.Logs s (e.evaluate pull resume node s).2 := by
  refine holds_bind (logs_assemble hpull node s) fun inputs s' hdone => ?_
  refine Composable.trans (logs_calculated hg hpull hn hbusy hdone) ?_
  have hpublish : ∀ outputs, Moves e.Logs (e.publish node.id outputs) := fun outputs s =>
    Logs.push s (.published node.id outputs) trivial
  refine moves_bind (moves_interpret (moves_fire_of_push (e.flows node) hpublish
    (fun s port target => Logs.push s _ trivial) hresume) _) (fun outputs s => ?_) _
  -- The outputs that an evaluation ends with are those of its event.
  exact conclude_of_push (Logs.push s _ trivial)

theorem loggedPull_of_logs (hrestrained : e.Restrained) {allowance : Nat}
    (h : ∀ id, Moves e.Logs (e.runNode allowance id)) :
    e.LoggedPull (e.pull (e.runNode allowance)) where
  logs := fun id => moves_pull fun _ => h id
  pulls := pulls_pull_runNode hrestrained _ allowance
  found := fun _ _ _ hdone => contains_of_pull (fun h => find?_of_runNode h) hdone

/-- What an evaluation does is told by its steps, and they account for what is read. -/
theorem logs_runNode (hg : e.graph.Sound) (hrestrained : e.Restrained) (allowance : Nat)
    (id : String) : Moves e.Logs (e.runNode allowance id) := by
  induction allowance generalizing id with
  | zero => exact moves_exhaust
  | succ k ih =>
    cases hn : e.graph.node? id with
    | none =>
      simp only [runNode, hn]
      exact moves_fail _
    | some node =>
      obtain rfl : node.id = id := Graph.id_of_node? hn
      simp only [runNode, hn]
      split
      · intro s
        exact logs_evaluate hg (loggedPull_of_logs hrestrained ih) (moves_walk ih k) hn
          (s := { s with evaluating := node.id :: s.evaluating }) List.mem_cons_self
      · exact moves_fail _

theorem loggedPull_runNode (hg : e.graph.Sound) (hrestrained : e.Restrained) (allowance : Nat) :
    e.LoggedPull (e.pull (e.runNode allowance)) :=
  loggedPull_of_logs hrestrained (logs_runNode hg hrestrained allowance)

/-- The steps of a run tell which outputs are kept, and account for what was read: at its start, no
outputs are kept. -/
theorem sourced_runFrom (hg : e.graph.Sound) (hrestrained : e.Restrained) (allowance : Nat)
    (start : String) (s : RunState) :
    ∃ steps, s.Made steps (e.runFrom allowance start s).2 ∧
      (e.runFrom allowance start s).2.cache = e.replay steps ∧
        Throughout (e.Sourced ∅) steps := by
  have hcontinue : Moves e.Logs (e.continueFrom allowance start) :=
    moves_walk (logs_runNode hg hrestrained allowance) allowance start
  have hstart : Moves e.Logs (e.emit fun run => .runStarted run start) :=
    moves_emit_of_push fun s => Logs.push s _ trivial
  unfold runFrom
  rw [change_bind]
  refine moves_bind (R := e.Logs) hstart (fun _ => moves_bind (moves_attempt hcontinue) fun r => ?_)
    { s with cache := ∅, evaluating := [], runs := s.runs + 1 }
  split
  · exact moves_emit_of_push fun s => Logs.push s _ trivial
  · exact moves_bind (moves_emit_of_push fun s => Logs.push s _ trivial) fun _ => moves_fail _

end Engine

end Patchbay
