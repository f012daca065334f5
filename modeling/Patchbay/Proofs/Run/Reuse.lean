import Patchbay.Proofs.Run.Unpulled

/-!
# How often a node is evaluated

A run evaluates a node without control ports only while that has no outputs. Afterwards it has some,
and they are used again, until a node that they come from publishes others. So each evaluation but
the first is paid for by outputs that were published since the one before.

The account of a node is whether outputs of it are kept. An evaluation that ends puts it from zero
to one, and nothing but outputs that are published takes it back to zero (`Spares`).

## Key results

- `usesFlow_of_flowTarget?`: control only comes to nodes with control ports
- `spares_runNode`: the account of a node, whatever is evaluated
- `evaluates_sparingly`: how often a run evaluates each node without control ports
-/

namespace Patchbay

namespace Step

/-- An evaluation of the node ends with the step. -/
def completes (node : String) : Step → Bool
  | event (.nodeEvaluated _ n _) => n = node
  | _ => false

/-- The step publishes outputs of a node from which values reach the given node, through nodes
without control ports. -/
def Renews (g : Graph) (node : String) : Step → Prop
  | published n _ => Relation.TransGen g.Passes n node
  | _ => False

/-- The search for dependents decides it. -/
instance (g : Graph) (node : String) : DecidablePred (Renews g node)
  | published _ _ => decidable_of_iff _ Graph.mem_dependents
  | received _ _ _ _ | calculated _ _ | event _ | undelivered _ | printed _ | informed _ =>
    isFalse id

end Step

/-! ### Nodes that control comes to -/

namespace Graph

variable {g : Graph}

/-- All nodes have the control ports of their kinds. -/
def Typical (g : Graph) : Prop :=
  ∀ node ∈ g.nodes, ∀ d ∈ g.kinds.find? node.kind,
    node.flowIn.isSome = d.flow.hasEntry ∧ node.flowOut.isSome = d.flow.hasExit

/-- A node that takes control has control ports. -/
theorem Typical.usesFlow (h : g.Typical) (hg : g.Sound) {id : String}
    (hport : (g.port? id flowInName .input).isSome) : g.usesFlow id = true := by
  obtain ⟨node, hn⟩ := node?_of_isSome_port? hport
  obtain ⟨d, hd⟩ := Option.isSome_iff_exists.1 (hg.declared id node hn)
  have hentry : d.flow.hasEntry = true := by
    rw [← (h node (List.mem_of_find?_eq_some hn) d hd).1]
    simpa [port?, hn, Node.port?] using hport
  have hmode : d.usesFlow = true := by
    unfold Declaration.usesFlow
    cases hflow : d.flow <;> simp_all [FlowMode.hasEntry, FlowMode.usesFlow]
  simpa [Graph.usesFlow, hn, hd] using hmode

theorem usesFlow_of_flowTarget? (h : g.Typical) (hg : g.Sound) {node port target : String}
    (ht : g.flowTarget? node port = some target) : g.usesFlow target = true := by
  obtain ⟨i, w, hw, hname, rfl⟩ := exists_wire_of_flowTarget? ht
  exact h.usesFlow hg (hname ▸ hg.target i w hw)

end Graph

namespace Engine

open RunM

variable {e : Engine} {m : String}

/-- A control output that is connected leads to a node with control ports. -/
theorem usesFlow_of_flows (ht : e.graph.Typical) (hg : e.graph.Sound) {node : Node}
    {port target : String} (h : (e.flows node).find? port = some target) :
    e.graph.usesFlow target = true :=
  Graph.usesFlow_of_flowTarget? ht hg (flowTarget?_of_flows h)

/-! ### The account of a node -/

/-- The account of a node: one if outputs of it are kept, and zero otherwise. -/
def held (m : String) (s : RunState) : Nat := (s.cache.contains m).toNat

/-- Between the states, the evaluations of a node that have ended are covered by its account and by
the outputs that were published. -/
def Spares (e : Engine) (m : String) (s s' : RunState) : Prop :=
  ∃ steps, s.Made steps s' ∧
    steps.countP (Step.completes m) + held m s ≤
      steps.countP (fun step => step.Renews e.graph m) + held m s'

/-- A step with which no evaluation of the node ends, and that takes no outputs from it. -/
theorem Spares.push {s : RunState} {step : Step} (cache : Table String PortValues)
    (hstep : step.completes m = false) (hcache : s.cache.contains m → cache.contains m) :
    e.Spares m s ((s.push step).withCache cache) := by
  refine ⟨[step], s.made_push step, ?_⟩
  rw [List.countP_singleton, hstep]
  refine Nat.add_le_add (Nat.zero_le _) ?_
  show (s.cache.contains m).toNat ≤ (cache.contains m).toNat
  cases hm : s.cache.contains m with
  | false => exact Nat.zero_le _
  | true => exact Nat.le_of_eq (congrArg Bool.toNat (hcache hm).symm)

instance : Quiet (e.Spares m) where
  refl := fun _ => ⟨[], RunState.made_nil rfl, Nat.le_refl _⟩
  trans := fun h₁ h₂ => by
    obtain ⟨xs, hxs, hx⟩ := h₁
    obtain ⟨ys, hys, hy⟩ := h₂
    refine ⟨xs ++ ys, hxs.append hys, ?_⟩
    rw [List.countP_append, List.countP_append]
    omega
  push := fun s step h => by
    refine Spares.push s.cache ?_ id
    cases step with
    | event ev => cases ev <;> first | rfl | cases h
    | received | calculated | published | undelivered | printed | informed => rfl
  context := fun _ _ => ⟨[], RunState.made_nil rfl, Nat.le_refl _⟩

/-- Outputs that are published pay for those that are dropped. -/
theorem spares_publish (e : Engine) (m node : String) (outputs : PortValues) :
    Moves (e.Spares m) (e.publish node outputs) := by
  intro s
  show e.Spares m s ((s.push (.published node outputs)).withCache
    (e.replayStep s.cache (.published node outputs)))
  by_cases hm : m ∈ e.graph.dependents node
  · have hrenews : (Step.published node outputs).Renews e.graph m := Graph.mem_dependents.1 hm
    refine ⟨[.published node outputs], s.made_push _, ?_⟩
    rw [List.countP_singleton, List.countP_singleton, if_pos (decide_eq_true hrenews)]
    have hheld : held m s ≤ 1 := Bool.toNat_le _
    exact Nat.le_trans (Nat.add_le_add (Nat.le_refl 0) hheld) (Nat.le_add_right 1 _)
  · refine Spares.push _ rfl fun hs => ?_
    rw [Table.contains, find?_replayStep_published, if_neg hm]
    split
    · rfl
    · exact hs

/-- An evaluation of the node itself ends with its account at one, so that it must not start from
there. -/
theorem spares_conclude {node : String} {out : PortValues} {s : RunState}
    (hnew : node = m → s.cache.find? m = none) : e.Spares m s (e.conclude node out s).2 := by
  refine conclude_of_push ?_
  by_cases hm : node = m
  · subst hm
    refine ⟨[.event (.nodeEvaluated s.runId node out)], s.made_push _, ?_⟩
    have hbefore : held node s = 0 := by rw [held, Table.contains, hnew rfl]; rfl
    have hafter : held node ((s.push (.event (.nodeEvaluated s.runId node out))).withCache
        (s.cache.insert node out)) = 1 := by
      show ((s.cache.insert node out).contains node).toNat = 1
      rw [Table.contains, Table.find?_insert, if_pos rfl]
      rfl
    rw [hbefore, hafter]
    simp [Step.completes]
  · refine Spares.push _ (decide_eq_false hm) fun hs => ?_
    rw [Table.contains, Table.find?_insert, if_neg (Ne.symm hm)]
    exact hs

/-! ### Evaluations -/

/-- The outputs of a node stay as they are. -/
def Leaves (x : String) (s s' : RunState) : Prop := s'.cache.find? x = s.cache.find? x

instance (x : String) : Telling (Leaves x) where
  refl := fun _ => rfl
  trans := fun h₁ h₂ => h₂.trans h₁
  tell := fun _ _ _ => rfl
  context := fun _ _ => rfl

/-- What the parts of an evaluation need: sources can be pulled, and control can go on to nodes with
control ports. -/
structure Sparing (e : Engine) (m : String) (pull resume : String → RunM Unit) : Prop where
  logged : e.LoggedPull pull
  pull : ∀ id, Moves (e.Spares m) (pull id)
  resume : ∀ id, e.graph.usesFlow id = true → Moves (e.Spares m) (resume id)

section Evaluate

variable {pull resume : String → RunM Unit}

theorem spares_assemble (h : e.Sparing m pull resume) (node : Node) :
    Moves (e.Spares m) (e.assemble pull node) := by
  refine moves_bind (moves_foldlM _ (fun inputs x _ => ?_) ∅) fun _ => moves_pure _
  exact moves_bind (h.pull _) fun _ => moves_bind moves_read fun _ =>
    moves_bind (moves_log fun s => Spares.push s.cache rfl id) fun _ => moves_pure _

/-- A node that is being evaluated gets no outputs while its inputs are assembled. -/
theorem leaves_assemble (h : e.Sparing m pull resume) (node : Node) {s : RunState}
    (hbusy : node.id ∈ s.evaluating) : Leaves node.id s (e.assemble pull node s).2 := by
  have hpull : ∀ id, Moves (e.Pulls (Step.receives node.id)) (pull id) := fun id =>
    (h.logged.pulls id).mono fun _ _ hp => hp.mono fun _ hstep => by cases hstep
  exact find?_of_pulls (pulls_assemble hpull s) (logs_assemble h.logged node s) (.inr hbusy)

/-- A calculation fires control outputs that lead to nodes with control ports, or fires nothing. -/
theorem spares_interpret (ht : e.graph.Typical) (hg : e.graph.Sound)
    (h : e.Sparing m pull resume) (node : Node) (script : Script PortValues) :
    Moves (e.Spares m) (e.interpret resume node.id (e.flows node) script) :=
  moves_interpret (moves_fire_to (e.spares_publish m node.id)
    (fun s _ _ => Spares.push s.cache rfl id)
    fun _ target hport => h.resume target (usesFlow_of_flows ht hg hport)) script

/-- The calculation of a node, and the end of its evaluation. -/
theorem spares_calculate (ht : e.graph.Typical) (hg : e.graph.Sound)
    (h : e.Sparing m pull resume) {node : Node} {script : Script PortValues}
    (hsilent : node.id = m → script.Silent) {s : RunState}
    (hnew : node.id = m → s.cache.find? m = none) :
    e.Spares m s ((e.interpret resume node.id (e.flows node) script >>= e.conclude node.id) s).2 := by
  have hscript := spares_interpret ht hg h node script s
  refine holds_bind hscript fun out s' hdone => ?_
  rw [hdone] at hscript
  refine Composable.trans hscript (spares_conclude fun heq => ?_)
  -- The calculation of the node itself fires nothing, so no outputs have changed.
  have hleft : Moves (Leaves m) (e.interpret resume node.id (e.flows node) script) :=
    moves_interpret_or script (.inl (hsilent heq))
  have hkept := hleft s
  rw [hdone] at hkept
  exact hkept.trans (hnew heq)

theorem spares_evaluate (ht : e.graph.Typical) (hg : e.graph.Sound)
    (h : e.Sparing m pull resume) {node : Node}
    (hsilent : node.id = m → ∀ inputs, (e.script node inputs).Silent) {s : RunState}
    (hbusy : node.id ∈ s.evaluating) (hnew : node.id = m → s.cache.find? m = none) :
    e.Spares m s (e.evaluate pull resume node s).2 := by
  have hassembled := spares_assemble h node s
  have hleft := leaves_assemble h node hbusy
  refine holds_bind hassembled fun inputs s' hinputs => ?_
  rw [hinputs] at hassembled hleft
  have hcalculated : e.Spares m s' (s'.push (.calculated node.id inputs)) := Quiet.push s' _ rfl
  refine Composable.trans (Composable.trans hassembled hcalculated) ?_
  exact spares_calculate ht hg h (fun heq => hsilent heq inputs) (fun heq =>
    (heq ▸ hleft : Leaves m s s').trans (hnew heq))

end Evaluate

/-- Control passes from a node to others, which all have control ports. -/
theorem spares_walk (ht : e.graph.Typical) (hg : e.graph.Sound) (hm : e.graph.usesFlow m = false)
    {step : String → RunM PortValues}
    (hstep : ∀ id s, (id = m → s.cache.find? m = none) → e.Spares m s (step id s).2)
    (allowance : Nat) {id : String} {s : RunState} (hnew : id = m → s.cache.find? m = none) :
    e.Spares m s (e.walk step allowance id s).2 := by
  induction allowance generalizing id s with
  | zero => exact Composable.refl s
  | succ n ih =>
    have hfirst := hstep id s hnew
    rw [← state_discard] at hfirst
    refine holds_bind hfirst fun _ s' hdone => ?_
    rw [hdone] at hfirst
    refine Composable.trans hfirst ?_
    cases hnext : e.graph.nextInFlow? id with
    | none => exact Composable.refl s'
    | some next =>
      refine ih fun heq => absurd ?_ Bool.false_ne_true
      rw [← hm, ← heq]
      exact Graph.usesFlow_of_flowTarget? ht hg hnext

/-- A pull evaluates a node only if that has no outputs. -/
theorem spares_pull {step : String → RunM PortValues}
    (hstep : ∀ id s, (id = m → s.cache.find? m = none) → e.Spares m s (step id s).2)
    (id : String) : Moves (e.Spares m) (e.pull step id) := by
  intro s
  simp only [pull, read_bind]
  split
  · exact Composable.refl s
  next hnone =>
    split
    · exact Composable.refl s
    · split
      · exact Composable.refl s
      · rw [state_discard]
        -- The node that is counted is only pulled here while its account is at zero.
        refine hstep id s fun heq => ?_
        subst heq
        simpa [Table.contains] using hnone

/-- Whatever is evaluated, the account of a node covers its evaluations, unless one of itself starts
while it has outputs. -/
theorem spares_runNode (ht : e.graph.Typical) (hg : e.graph.Sound) (hrestrained : e.Restrained)
    (hm : e.graph.usesFlow m = false) (allowance : Nat) {id : String} {s : RunState}
    (hnew : id = m → s.cache.find? m = none) : e.Spares m s (e.runNode allowance id s).2 := by
  induction allowance generalizing id s with
  | zero => exact Composable.refl s
  | succ k ih =>
    cases hn : e.graph.node? id with
    | none =>
      simp only [runNode, hn]
      exact Composable.refl s
    | some node =>
      obtain rfl : node.id = id := Graph.id_of_node? hn
      simp only [runNode, hn]
      split
      · have hsparing : e.Sparing m (e.pull (e.runNode k)) (e.walk (e.runNode k) k) := by
          refine ⟨loggedPull_runNode hg hrestrained k, spares_pull fun id s => ih, ?_⟩
          -- Control never goes on to the node itself, which has no control ports.
          refine fun id hflow s => spares_walk ht hg hm (fun id s => ih) k fun heq => ?_
          exact absurd (hm.symm.trans (heq ▸ hflow)) Bool.false_ne_true
        exact spares_evaluate ht hg hsparing (fun heq => hrestrained node.id node hn (heq ▸ hm))
          (s := { s with evaluating := node.id :: s.evaluating }) List.mem_cons_self hnew
      · exact Composable.refl s

/-! ### Runs -/

/-- At the start of a run no node has outputs, so that an account is of the steps of the run. -/
theorem spares_runFrom (ht : e.graph.Typical) (hg : e.graph.Sound) (hrestrained : e.Restrained)
    (hm : e.graph.usesFlow m = false) (allowance : Nat) (start : String) (s : RunState) :
    e.Spares m { s with cache := ∅, evaluating := [], runs := s.runs + 1 }
      (e.runFrom allowance start s).2 := by
  unfold runFrom
  rw [change_bind]
  have hstart : Moves (e.Spares m) (e.emit fun run => .runStarted run start) :=
    moves_emit fun _ => rfl
  refine holds_bind (hstart _) fun _ s₁ hstarted => ?_
  have hspares := hstart { s with cache := ∅, evaluating := [], runs := s.runs + 1 }
  have hcache := e.cache_emit (fun run => .runStarted run start)
    { s with cache := ∅, evaluating := [], runs := s.runs + 1 }
  rw [hstarted] at hspares hcache
  have hwalk : e.Spares m s₁ (e.continueFrom allowance start s₁).2 :=
    spares_walk ht hg hm (fun id s hid => spares_runNode ht hg hrestrained hm allowance hid)
      allowance fun _ => by rw [hcache]; exact Table.find?_empty m
  refine Composable.trans hspares ?_
  rw [← state_attempt] at hwalk
  refine holds_bind hwalk fun r s₂ hr => ?_
  rw [hr] at hwalk
  refine Composable.trans hwalk ?_
  split
  · exact moves_emit (R := e.Spares m) (fun _ => rfl) s₂
  · exact moves_bind (R := e.Spares m) (moves_emit fun _ => rfl) (fun _ => moves_fail _) s₂

/-- Outputs are used again. Take any session in whose patch nodes have the control ports of their
kinds, and those without control ports fire nothing. In any run over the patch, evaluations of a
node without control ports end once, and once more for each time that outputs are published by a
node from which values reach it through nodes without control ports. So where nothing is published
each of these nodes is evaluated at most once, however many nodes need its outputs. -/
theorem evaluates_sparingly {session : Session} (hreach : session.Reachable)
    {refusal : Option String} (he : Engine.ofPatch session.patch refusal = .ok e)
    (ht : e.graph.Typical) (hrestrained : e.Restrained) (allowance : Nat) (start : String)
    (s : RunState) :
    ∃ steps, s.Made steps (e.runFrom allowance start s).2 ∧
      ∀ m, e.graph.usesFlow m = false →
        steps.countP (Step.completes m) ≤ 1 + steps.countP (fun step => step.Renews e.graph m) ∧
          ((∀ node outputs, .published node outputs ∉ steps) →
            steps.countP (Step.completes m) ≤ 1) := by
  have hg := sound_of_ofPatch hreach he
  obtain ⟨steps, hmade, _⟩ := orderly_runFrom hg hrestrained allowance start s
  refine ⟨steps, hmade, fun m hm => ?_⟩
  obtain ⟨steps', hmade', hspares⟩ := spares_runFrom ht hg hrestrained hm allowance start s
  obtain rfl : steps' = steps := hmade'.unique hmade
  have hlast : held m (e.runFrom allowance start s).2 ≤ 1 := Bool.toNat_le _
  have hbound : steps'.countP (Step.completes m) ≤
      1 + steps'.countP (fun step => step.Renews e.graph m) := by
    omega
  refine ⟨hbound, fun hnone => ?_⟩
  have hzero : steps'.countP (fun step => step.Renews e.graph m) = 0 := by
    refine List.countP_eq_zero.2 fun step hstep hrenews => ?_
    cases step with
    | published node outputs => exact hnone node outputs hstep
    | received | calculated | event | undelivered | printed | informed =>
      exact of_decide_eq_true hrenews
  rwa [hzero] at hbound

/-- In the loop inside a loop, the reroute is needed in both rounds of the outer loop, and evaluated
in the first one only. -/
theorem evaluates_sparingly_nested :
    nestedSteps.countP (Step.completes "via") ≤
        1 + nestedSteps.countP (fun step => step.Renews nestedEngine.graph "via") ∧
      nestedSteps.countP (Step.completes "via") = 1 ∧
        nestedSteps.countP readsOut = 2 := by
  have hreach : nested.Reachable := reaches_nested.mono fun _ _ h => h.1
  have he : Engine.ofPatch nested.patch none = .ok nestedEngine := rfl
  have hrestrained : nestedEngine.Restrained :=
    ((builtIn_of_ofPatch reaches_nested he).settled (sound_of_ofPatch hreach he)).restrained
  have htypical : nestedEngine.graph.Typical := by
    unfold Graph.Typical
    decide +kernel
  obtain ⟨steps, hmade, hall⟩ := evaluates_sparingly hreach he htypical hrestrained 10 "outer"
    (.initial ∅)
  obtain rfl : nestedSteps = steps := hmade
  exact ⟨(hall "via" (by decide +kernel)).1, by decide +kernel, by decide +kernel⟩

end Engine

end Patchbay
