import Patchbay.Builtin.Catalogue
import Patchbay.Proofs.Run.Calls
import Patchbay.Proofs.Run.Replay
import Patchbay.Proofs.Session.Kinds

/-!
# What a run reads is right

During a run, values are read over wires at many moments, from outputs that were calculated earlier.
Unless a value comes from outputs that were left behind, it is what an evaluation of its source
afresh finds at the very moment it is read.

The invariant is that the steps so far are `Faithful`. Evaluations of nodes without control ports
keep it, and besides they keep all outputs that are there (`Calm`), so the inputs of a node that
were read one after the other belong to one moment.

## Key results

- `calm_evaluate`: an evaluation of a node without control ports
- `right_runNode`: the evaluation of any node
- `reads_afresh`: the values that a run over built-in kinds reads
-/

namespace Patchbay.Engine

open RunM

variable {e : Engine} {past : List Step}

/-- The steps after the given ones belong to the current run, and so far everything is right. -/
def InRun (e : Engine) (past : List Step) (s : RunState) : Prop :=
  ∃ steps, s.trace.toList = past ++ steps ∧ s.cache = e.replay steps ∧ e.Faithful steps

/-- In a run everything stays right. -/
def StaysRight (e : Engine) (past : List Step) (s s' : RunState) : Prop :=
  e.InRun past s → e.InRun past s'

/-- In a run everything stays right, and outputs that are there are kept, except for one node's. -/
structure Calm (e : Engine) (past : List Step) (except : Option String) (s s' : RunState) :
    Prop where
  right : e.StaysRight past s s'
  kept : ∀ x out, some x ≠ except → s.cache.find? x = some out → s'.cache.find? x = some out

theorem replayStep_of_quiet {step : Step} (h : step.quiet = true)
    (cache : Table String PortValues) : e.replayStep cache step = cache := by
  cases step with
  | received | published => cases h
  | event ev =>
    cases ev with
    | nodeEvaluated => cases h
    | _ => rfl
  | _ => rfl

/-- One more step is made in a run, with what it does to the outputs. -/
theorem InRun.push {s : RunState} (h : e.InRun past s) (step : Step)
    (hstep : ∀ steps, s.cache = e.replay steps → e.Faithful steps → e.Faithful (steps ++ [step])) :
    e.InRun past ((s.push step).withCache (e.replayStep s.cache step)) := by
  obtain ⟨steps, htrace, hcache, hright⟩ := h
  refine ⟨steps ++ [step], ?_, ?_, hstep steps hcache hright⟩
  · show (s.trace.push step).toList = _
    rw [Array.toList_push, htrace, List.append_assoc]
  · show e.replayStep s.cache step = _
    rw [replay_append_singleton, hcache]

instance : Quiet (e.StaysRight past) where
  refl := fun _ h => h
  trans := fun h₁ h₂ h => h₂ (h₁ h)
  push := fun s step hquiet h => by
    have hpush := h.push step fun steps _ hright =>
      hright.unchanged (replayStep_of_quiet hquiet _) fun node wire value cache heq => by
        rw [heq] at hquiet
        cases hquiet
    rwa [replayStep_of_quiet hquiet] at hpush
  context := fun _ _ h => h

instance (except : Option String) : Quiet (e.Calm past except) where
  refl := fun _ => ⟨fun h => h, fun _ _ _ h => h⟩
  trans := fun h₁ h₂ => ⟨fun h => h₂.right (h₁.right h),
    fun x out hx h => h₂.kept x out hx (h₁.kept x out hx h)⟩
  push := fun s step h => ⟨Quiet.push s step h, fun _ _ _ h => h⟩
  context := fun s c => ⟨Quiet.context (R := e.StaysRight past) s c, fun _ _ _ h => h⟩

theorem Calm.weaken {s s' : RunState} (h : e.Calm past none s s') (except : Option String) :
    e.Calm past except s s' :=
  ⟨h.right, fun x out _ => h.kept x out (Option.some_ne_none x)⟩

/-! ### Results of evaluations -/

/-- After an event the outputs are as before. -/
theorem cache_emit (e : Engine) (make : String → RunEvent) (s : RunState) :
    (e.emit make s).2.cache = s.cache := by
  cases hr : e.refusal <;> simp [emit, hr]

/-- A node that was evaluated has the outputs that the evaluation ended with. -/
theorem find?_of_evaluate {pull resume : String → RunM Unit} {node : Node} {out : PortValues}
    {s s' : RunState} (h : e.evaluate pull resume node s = (.done out, s')) :
    s'.cache.find? node.id = some out := by
  obtain ⟨inputs, s₁, _, h⟩ := done_of_bind h
  obtain ⟨_, s₂, _, h⟩ := done_of_bind h
  obtain ⟨outputs, s₃, _, h⟩ := done_of_bind h
  obtain ⟨_, s₄, hkeep, h⟩ := done_of_bind h
  obtain ⟨_, s₅, hemit, h⟩ := done_of_bind h
  obtain ⟨hout, rfl⟩ := Prod.mk.inj h
  obtain rfl := Outcome.done.inj hout
  have hs₅ : s₅.cache = s₄.cache := by
    rw [← e.cache_emit (fun run => .nodeEvaluated run node.id outputs) s₄, hemit]
  have hs₄ : s₃.cache.insert node.id outputs = s₄.cache := by
    rw [← (Prod.mk.inj hkeep).2]
  rw [hs₅, ← hs₄, Table.find?_insert, if_pos rfl]

theorem find?_of_runNode {allowance : Nat} {node : String} {out : PortValues} {s s' : RunState}
    (h : e.runNode allowance node s = (.done out, s')) : s'.cache.find? node = some out := by
  cases allowance with
  | zero => cases h
  | succ k =>
    cases hn : e.graph.node? node with
    | none =>
      rw [runNode, hn] at h
      cases h
    | some n =>
      simp only [runNode, hn] at h
      split at h
      · rw [within_apply] at h
        obtain ⟨hout, rfl⟩ := Prod.mk.inj h
        obtain rfl : n.id = node := Graph.id_of_node? hn
        -- What is done around an evaluation leaves the outputs as they are.
        have hfound := find?_of_evaluate (Prod.ext hout rfl)
        exact hfound
      · cases h

/-- A node that was pulled has outputs. -/
theorem contains_of_pull {step : String → RunM PortValues}
    (hstep : ∀ {node out s s'}, step node s = (.done out, s') → s'.cache.find? node = some out)
    {node : String} {s s' : RunState} (h : e.pull step node s = (.done (), s')) :
    ∃ out, s'.cache.find? node = some out := by
  simp only [pull, read_bind] at h
  split at h
  next hcontains =>
    obtain ⟨_, rfl⟩ := Prod.mk.inj h
    exact Option.isSome_iff_exists.1 hcontains
  next =>
    split at h
    · cases h
    · split at h
      · cases h
      -- The node was evaluated just now; the other cases are errors.
      · obtain ⟨out, s₁, hout, h⟩ := done_of_bind h
        obtain ⟨_, rfl⟩ := Prod.mk.inj h
        exact ⟨out, hstep hout⟩

/-! ### Assembling inputs -/

/-- Sources can be pulled calmly, and then have outputs. -/
structure CalmPull (e : Engine) (past : List Step) (pull : String → RunM Unit) : Prop where
  calm : ∀ id, Moves (e.Calm past none) (pull id)
  found : ∀ id s s', pull id s = (.done (), s') → ∃ out, s'.cache.find? id = some out

/-- What is read over a wire is right: the source was pulled, so its outputs are there. -/
theorem calm_receive {pull : String → RunM Unit} (hpull : e.CalmPull past pull) {node : Node}
    {x : WireId × Wire} (hx : x ∈ e.graph.dataWires node.id) (inputs : PortValues) :
    Moves (e.Calm past none) (e.receive pull node inputs x) := by
  obtain ⟨i, w⟩ := x
  refine moves_bind_of_done (hpull.calm w.source) fun _ s s' hdone => ?_
  obtain ⟨out, hout⟩ := hpull.found w.source s s' hdone
  have hraw : s'.output? w.source w.sourcePort = out.find? w.sourcePort := by
    simp [RunState.output?, hout]
  -- Reading changes no outputs, and what is read is kept from before.
  refine ⟨fun hrun => ?_, fun _ _ _ h => h⟩
  refine hrun.push (.received node.id i ((s'.output? w.source w.sourcePort).getD .null)
    s'.cache) fun steps hcache hright => hright.unchanged rfl fun node wire value cache heq => ?_
  cases heq
  refine ⟨hcache, fun v hv hflow hclean => ?_⟩
  obtain rfl : w = v := Option.some.inj ((Graph.mem_dataWires.1 hx).1.symm.trans hv)
  refine ⟨out, ?_, congrArg (·.getD .null) hraw⟩
  rw [hcache] at hout ⊢
  exact hright.kept w.source out hflow hout hclean

/-- The outputs that are kept of a node, if there are any. -/
def outputsIn (cache : Table String PortValues) (id : String) : PortValues :=
  (cache.find? id).getD ∅

/-- The inputs that were read one after the other are those of one moment, since outputs that are
there are kept. -/
theorem received_of_done {pull : String → RunM Unit} (hpull : e.CalmPull past pull) {node : Node}
    (xs : List (WireId × Wire)) (hxs : ∀ x ∈ xs, x ∈ e.graph.dataWires node.id)
    {inputs r : PortValues} {s s' : RunState}
    (h : xs.foldlM (e.receive pull node) inputs s = (.done r, s')) :
    r = e.received (outputsIn s'.cache) node xs inputs ∧
      ∀ x ∈ xs, ∃ out, s'.cache.find? x.2.source = some out := by
  induction xs generalizing inputs s with
  | nil =>
    obtain ⟨hr, rfl⟩ := Prod.mk.inj h
    exact ⟨(Outcome.done.inj hr).symm, List.forall_mem_nil _⟩
  | cons x xs ih =>
    rw [List.foldlM_cons] at h
    obtain ⟨inputs₁, s₁, hfirst, hrest⟩ := done_of_bind h
    have hxs' : ∀ y ∈ xs, y ∈ e.graph.dataWires node.id :=
      fun y hy => hxs y (List.mem_cons_of_mem _ hy)
    obtain ⟨hr, hfound⟩ := ih hxs' hrest
    -- The first source has outputs after it was pulled, and keeps them while the others are.
    have hcalm := moves_foldlM xs (fun b y hy => calm_receive hpull (hxs' y hy) b) inputs₁ s₁
    rw [hrest] at hcalm
    obtain ⟨_, s₂, hpulled, hread⟩ := done_of_bind hfirst
    obtain ⟨out, hout⟩ := hpull.found x.2.source s s₂ hpulled
    obtain ⟨hin, hs₁⟩ := Prod.mk.inj hread
    have hout₁ : s₁.cache.find? x.2.source = some out := hs₁ ▸ hout
    have hkept : s'.cache.find? x.2.source = some out :=
      hcalm.kept _ _ (Option.some_ne_none _) hout₁
    have hinputs₁ : inputs₁ =
        inputs.insert x.2.targetPort (e.brought (outputsIn s'.cache) node x.2) := by
      rw [← Outcome.done.inj hin, brought, outputsIn, hkept, RunState.output?, hout]
      rfl
    refine ⟨?_, fun y hy => ?_⟩
    · rw [hr, hinputs₁]
      rfl
    · rcases List.mem_cons.1 hy with rfl | hy
      · exact ⟨out, hkept⟩
      · exact hfound y hy

theorem calm_assemble {pull : String → RunM Unit} (hpull : e.CalmPull past pull) (node : Node) :
    Moves (e.Calm past none) (e.assemble pull node) :=
  moves_bind (moves_foldlM _ (fun b _ hx => calm_receive hpull hx b) ∅) fun _ => moves_pure _

theorem inputsFrom_of_assemble (hg : e.graph.Sound) {pull : String → RunM Unit}
    (hpull : e.CalmPull past pull) {node : Node} (hn : e.graph.node? node.id = some node)
    {inputs : PortValues} {s s' : RunState}
    (h : e.assemble pull node s = (.done inputs, s')) :
    inputs = e.inputsFrom (outputsIn s'.cache) node ∧
      ∀ x ∈ e.graph.dataWires node.id, ∃ out, s'.cache.find? x.2.source = some out := by
  obtain ⟨r, s₁, hfold, hpure⟩ := done_of_bind h
  obtain ⟨hin, rfl⟩ := Prod.mk.inj hpure
  obtain ⟨hr, hfound⟩ := received_of_done hpull _ (fun _ hx => hx) hfold
  refine ⟨?_, hfound⟩
  rw [← override_received hg hn, ← hr]
  exact (Outcome.done.inj hin).symm

/-! ### Ends of evaluations -/

/-- Outputs are published by a node with control ports. -/
theorem right_publish {node : String} (hflow : e.graph.usesFlow node = true)
    (outputs : PortValues) : Moves (e.StaysRight past) (e.publish node outputs) :=
  fun _ hrun => hrun.push (.published node outputs) fun _ _ hright =>
    hright.published hflow outputs

/-- The last part of an evaluation: outputs are kept, and the host is told. -/
def conclude (e : Engine) (node : String) (out : PortValues) : RunM PortValues := do
  change fun s => { s with cache := s.cache.insert node out }
  e.emit fun run => .nodeEvaluated run node out
  pure out

/-- Outputs are kept and the event is logged at once; only the host comes after that. -/
theorem conclude_ends (e : Engine) {node : String} {out : PortValues} {s : RunState}
    {P : RunState → Prop}
    (hpush : P ((s.push (.event (.nodeEvaluated s.runId node out))).withCache
      (s.cache.insert node out)))
    (htell : ∀ reason t, P t → P (t.push (.undelivered reason))) :
    ∃ s', e.conclude node out s = (.done out, s') ∧ P s' := by
  obtain ⟨s', hemit, hs'⟩ : ∃ s', e.emit (fun run => .nodeEvaluated run node out)
      (s.withCache (s.cache.insert node out)) = (.done (), s') ∧ P s' :=
    e.emit_ends hpush htell
  exact ⟨s', bind_done hemit, hs'⟩

theorem conclude_of_push {R : RunState → RunState → Prop} [hT : Telling R] {node : String}
    {out : PortValues} {s : RunState}
    (h : R s ((s.push (.event (.nodeEvaluated s.runId node out))).withCache
      (s.cache.insert node out))) : R s (e.conclude node out s).2 := by
  obtain ⟨s', hconclude, hs'⟩ := e.conclude_ends (P := R s) h
    fun reason t ht => hT.trans ht (hT.tell t (.undelivered reason) rfl)
  rw [hconclude]
  exact hs'

/-- An evaluation ends with outputs that are right, or with those of a node with control ports. -/
theorem calm_conclude {node : String} {out : PortValues} {s : RunState}
    (hnew : ∀ steps, s.cache = e.replay steps → e.Faithful steps →
      e.graph.usesFlow node = false → ¬ e.Tainted steps node →
      e.Afresh (e.replay steps) node out) :
    e.Calm past (some node) s (e.conclude node out s).2 := by
  refine conclude_of_push ⟨fun hrun => hrun.push (.event (.nodeEvaluated s.runId node out))
    fun steps hcache hright => hright.ended (hnew steps hcache hright), fun x o hx hfind => ?_⟩
  show (s.cache.insert node out).find? x = some o
  rw [Table.find?_insert, if_neg fun heq => hx (congrArg some heq), hfind]

/-- What the graph and the kinds have to be like: nodes without control ports calculate at once, and
come to a result or fail. -/
def Settled (e : Engine) : Prop :=
  ∀ id node, e.graph.node? id = some node → e.graph.usesFlow id = false → ∀ inputs,
    (∃ out, e.script node inputs = .done out) ∨ ∃ err, e.script node inputs = .fail err

/-- The evaluation of a node without control ports ends with what an evaluation afresh finds, unless
the outputs of a source are tainted. -/
theorem calm_evaluate (hg : e.graph.Sound) (hsettled : e.Settled) {pull : String → RunM Unit}
    (hpull : e.CalmPull past pull) (resume : String → RunM Unit) {node : Node}
    (hn : e.graph.node? node.id = some node) (hflow : e.graph.usesFlow node.id = false) :
    Moves (e.Calm past (some node.id)) (e.evaluate pull resume node) := by
  have hassemble := calm_assemble hpull node
  refine moves_bind_of_done (hassemble.mono fun s s' h => h.weaken _) fun inputs s s' hdone => ?_
  obtain ⟨hin, hfound⟩ := inputsFrom_of_assemble hg hpull hn hdone
  refine Composable.trans (Quiet.push s' (.calculated node.id inputs) rfl) ?_
  show e.Calm past (some node.id) _ ((e.interpret resume node.id (e.flows node)
    (e.script node inputs) >>= _) (s'.push (.calculated node.id inputs))).2
  rcases hsettled node.id node hn hflow inputs with ⟨out, hout⟩ | ⟨err, herr⟩
  · rw [hout]
    refine calm_conclude fun steps hcache hright _ hclean => ?_
    -- All sources have outputs at this moment; those without control ports are not tainted.
    rw [hin] at hout
    refine .calculated (outputsIn s'.cache) hflow hn (fun x hx => ?_) (by rw [hout]; rfl)
    obtain ⟨o, ho⟩ := hfound x hx
    have hsource : outputsIn s'.cache x.2.source = o := by rw [outputsIn, ho]; rfl
    replace ho : (e.replay steps).find? x.2.source = some o := hcache ▸ ho
    rw [hsource]
    cases hx' : e.graph.usesFlow x.2.source with
    | true => exact .held hx' ho
    | false =>
      exact hright.kept _ o hx' ho fun ht =>
        hclean (ht.passes ⟨Graph.feeds_of_mem_dataWires hx, hflow⟩)
  · rw [herr]
    exact Composable.refl _

/-- The evaluation of a node with control ports lets control go on in between. -/
theorem right_evaluate {pull resume : String → RunM Unit} (hpull : e.CalmPull past pull)
    (hresume : ∀ id, Moves (e.StaysRight past) (resume id)) {node : Node}
    (hflow : e.graph.usesFlow node.id = true) :
    Moves (e.StaysRight past) (e.evaluate pull resume node) := by
  have hassemble : Moves (e.StaysRight past) (e.assemble pull node) :=
    (calm_assemble hpull node).mono fun s s' h => h.right
  have hfire := moves_fire (e.flows node) (fun outputs => right_publish hflow outputs)
    hresume
  refine moves_bind hassemble fun inputs => moves_bind (moves_log_quiet rfl) fun _ =>
    moves_bind (moves_interpret hfire _) fun outputs s => ?_
  exact (calm_conclude fun _ _ _ hfree => absurd (hfree.symm.trans hflow) Bool.false_ne_true).right

/-! ### The evaluation of any node -/

/-- Pulling evaluates nodes without control ports that have no outputs, so it is calm. -/
theorem calmPull_pull {step : String → RunM PortValues}
    (hstep : ∀ id, e.graph.usesFlow id = false → Moves (e.Calm past (some id)) (step id))
    (hfound : ∀ {id out s s'}, step id s = (.done out, s') → s'.cache.find? id = some out) :
    e.CalmPull past (e.pull step) where
  calm := by
    intro id s
    simp only [pull, read_bind]
    split
    · exact Composable.refl s
    next hnew =>
      split
      · exact Composable.refl s
      next hflow =>
        split
        · exact Composable.refl s
        · rw [state_discard]
          have hcalm := hstep id (by simpa using hflow) s
          refine ⟨hcalm.right, fun x out _ hx => hcalm.kept x out ?_ hx⟩
          -- The node had no outputs that could have been lost.
          rintro ⟨⟩
          exact hnew (by rw [Table.contains, hx]; rfl)
  found := fun id s s' h => contains_of_pull hfound h

/-- Whatever is evaluated in a run, everything stays right; and the evaluation of a node without
control ports is calm. -/
theorem right_runNode (hg : e.graph.Sound) (hsettled : e.Settled) (past : List Step)
    (allowance : Nat) (id : String) :
    Moves (e.StaysRight past) (e.runNode allowance id) ∧
      (e.graph.usesFlow id = false → Moves (e.Calm past (some id)) (e.runNode allowance id)) := by
  induction allowance generalizing id with
  | zero => exact ⟨moves_exhaust, fun _ => moves_exhaust⟩
  | succ k ih =>
    -- Only nodes without control ports are pulled, so the second half is all that pulling needs.
    have hpull : e.CalmPull past (e.pull (e.runNode k)) :=
      calmPull_pull (fun id => (ih id).2) fun h => find?_of_runNode h
    have hwalk : ∀ id, Moves (e.StaysRight past) (e.walk (e.runNode k) k id) :=
      moves_walk (fun id => (ih id).1) k
    cases hn : e.graph.node? id with
    | none =>
      simp only [runNode, hn]
      exact ⟨moves_fail _, fun _ => moves_fail _⟩
    | some node =>
      obtain rfl : node.id = id := Graph.id_of_node? hn
      simp only [runNode, hn]
      split
      · have hcalm := fun hflow => moves_within node.id
          (calm_evaluate hg hsettled hpull (e.walk (e.runNode k) k) hn hflow)
          fun s s' h => ⟨h.right, h.kept⟩
        refine ⟨?_, hcalm⟩
        cases hflow : e.graph.usesFlow node.id with
        | false => exact (hcalm hflow).mono fun s s' h => h.right
        | true => exact moves_within node.id (right_evaluate hpull hwalk hflow) fun s s' h => h
      · exact ⟨moves_fail _, fun _ => moves_fail _⟩

/-- A run reads what is right. -/
theorem faithful_runFrom (hg : e.graph.Sound) (hsettled : e.Settled) (allowance : Nat)
    (start : String) (s : RunState) :
    e.InRun s.trace.toList (e.runFrom allowance start s).2 := by
  have hcontinue : Moves (e.StaysRight s.trace.toList) (e.continueFrom allowance start) :=
    moves_walk (fun id => (right_runNode hg hsettled _ allowance id).1) allowance start
  have hstart : Moves (e.StaysRight s.trace.toList) (e.emit fun run => .runStarted run start) :=
    moves_emit fun _ => rfl
  unfold runFrom
  rw [change_bind]
  refine moves_bind hstart (fun _ => moves_bind (moves_attempt hcontinue) fun r => ?_) _
    ⟨[], (List.append_nil _).symm, rfl, .nil⟩
  split
  · exact moves_emit fun _ => rfl
  · exact moves_bind (moves_emit fun _ => rfl) fun _ => moves_fail _

/-! ### Built-in kinds -/

/-- The built-in kinds without control ports calculate at once. -/
theorem builtin_settled {k : Kind} (hk : k ∈ Builtin.all) (hflow : k.declaration.usesFlow = false)
    (v : Evaluation) : (∃ out, k.behaviour.calculate v = .done out) ∨
      ∃ err, k.behaviour.calculate v = .fail err := by
  have harithmetic : ∀ id title op failure,
      (∃ out, (Builtin.arithmetic id title op failure).behaviour.calculate v = .done out) ∨
        ∃ err, (Builtin.arithmetic id title op failure).behaviour.calculate v = .fail err := by
    intro id title op failure
    simp only [Builtin.arithmetic]
    split
    · exact .inl ⟨_, rfl⟩
    · exact .inr ⟨_, rfl⟩
  simp only [Builtin.all, List.mem_cons, List.not_mem_nil, or_false] at hk
  -- A kind comes to a result, or is an operator on numbers, or has control ports.
  rcases hk with rfl | rfl | rfl | rfl | rfl | rfl | rfl | rfl | rfl | rfl | rfl | rfl | rfl | rfl
  all_goals first
    | exact .inl ⟨_, rfl⟩
    | exact harithmetic _ _ _ _
    | exact absurd hflow (by decide)

/-- All kinds are built in. -/
def BuiltIn (e : Engine) : Prop := ∀ id d, e.graph.kinds.find? id = some d →
  ∃ k ∈ Builtin.all, d = k.declaration ∧ e.behaviour id = k.behaviour

theorem BuiltIn.exists_kind (h : e.BuiltIn) (hg : e.graph.Sound) {id : String} {node : Node}
    (hn : e.graph.node? id = some node) :
    ∃ k ∈ Builtin.all, k.declaration.id = node.kind ∧
      e.graph.kinds.find? node.kind = some k.declaration ∧ e.behaviour node.kind = k.behaviour := by
  obtain ⟨d, hd⟩ := Option.isSome_iff_exists.1 (hg.declared id node hn)
  obtain ⟨k, hk, rfl, hbehaviour⟩ := h node.kind d hd
  exact ⟨k, hk, hg.keyed _ _ hd, hd, hbehaviour⟩

/-- Nodes of built-in kinds calculate at once where they have no control ports. -/
theorem BuiltIn.settled (h : e.BuiltIn) (hg : e.graph.Sound) : e.Settled := by
  intro id node hn hflow inputs
  obtain ⟨k, hk, _, hkind, hbehaviour⟩ := h.exists_kind hg hn
  have hfree : k.declaration.usesFlow = false := by simpa [Graph.usesFlow, hn, hkind] using hflow
  unfold script
  rw [hbehaviour]
  exact builtin_settled hk hfree _

theorem settled_of_builtin {p : Patch} (hp : p.Sound)
    (hkinds : ∀ id d, p.kinds.find? id = some d →
      ∃ k ∈ Builtin.all, d = k.declaration ∧ p.behaviour id = k.behaviour)
    (refusal : Option String) : (⟨p.toGraph, p.behaviour, refusal⟩ : Engine).Settled :=
  BuiltIn.settled hkinds hp

/-- Where all declared kinds are built in, so are those of an engine over the patch. -/
theorem builtIn_of_ofPatch {session : Session}
    (hreach : Session.Reaches (fun s op => op.Fresh s.patch ∧ op.Declares (· ∈ Builtin.all)) session)
    {refusal : Option String} (he : Engine.ofPatch session.patch refusal = .ok e) : e.BuiltIn := by
  unfold ofPatch at he
  split at he
  · obtain rfl := Except.ok.inj he
    exact Session.kindsFrom_of_reaches hreach
  · cases he

/-- No stale reads, as far as nothing is left behind. Take any session whose kinds are built in, and
the steps of any run over its patch. A value that is read over a wire, from a source without control
ports, is what an evaluation of the source afresh finds from the outputs that are kept at that
moment, unless the source is tainted: earlier in the run an evaluation of a node with control ports
has ended with outputs that replaced others, while outputs were kept, and have not been dropped
since, that came from those and that the source's outputs come from. -/
theorem reads_afresh {session : Session}
    (h : Session.Reaches (fun s op => op.Fresh s.patch ∧ op.Declares (· ∈ Builtin.all)) session)
    {refusal : Option String} (he : Engine.ofPatch session.patch refusal = .ok e)
    (allowance : Nat) (start : String) (s : RunState) :
    ∃ steps, (e.runFrom allowance start s).2.trace.toList = s.trace.toList ++ steps ∧
      ∀ before node wire value cache after,
        steps = before ++ .received node wire value cache :: after →
        cache = e.replay before ∧
          ∀ w, e.graph.wires.find? wire = some w → e.graph.usesFlow w.source = false →
            ¬ e.Tainted before w.source →
            ∃ out, e.Afresh cache w.source out ∧ value = (out.find? w.sourcePort).getD .null := by
  have hsound : session.patch.Sound :=
    (Session.wired_of_reachable (h.mono fun _ _ hop => hop.1)).sound
  unfold ofPatch at he
  split at he
  · obtain rfl := Except.ok.inj he
    obtain ⟨steps, htrace, _, hright⟩ := faithful_runFrom hsound
      (settled_of_builtin hsound (Session.kindsFrom_of_reaches h) refusal) allowance start s
    exact ⟨steps, htrace, hright.reads⟩
  · cases he

/-! ### A loop inside a loop

The inner loop is evaluated again in the second round of the outer one. Its body leads nowhere, so
it publishes nothing, and what was read from it in the first round stays. -/

def nestedOperations : List Operation :=
  [.declare Builtin.repeated, .declare Builtin.sequence, .declare Builtin.reroute,
    .declare Builtin.print, .insert "repeat" "outer" .origin, .insert "sequence" "both" .origin,
    .insert "repeat" "inner" .origin, .insert "reroute" "via" .origin,
    .insert "print" "out" .origin, .edit "outer" (.setValue "count" .input (.ofNat 2)),
    .connect ⟨"outer", "body", "both", "__flow_in"⟩,
    .connect ⟨"both", "first", "inner", "__flow_in"⟩,
    .connect ⟨"both", "second", "out", "__flow_in"⟩,
    .connect ⟨"outer", "index", "inner", "count"⟩, .connect ⟨"inner", "index", "via", "in"⟩,
    .connect ⟨"via", "out", "out", "value"⟩]

def nested : Session := (Session.start true .base 1).performAll nestedOperations

def nestedEngine : Engine := ⟨nested.patch.toGraph, nested.patch.behaviour, none⟩

theorem reaches_nested :
    Session.Reaches (fun s op => op.Fresh s.patch ∧ op.Declares (· ∈ Builtin.all)) nested := by
  have hfresh : Session.AllowedAll (fun s op => op.Fresh s.patch) (Session.start true .base 1)
      nestedOperations := by
    decide +kernel
  exact .performAll (.start true .base 1)
    (hfresh.and (by simp [nestedOperations, Operation.Declares, Builtin.all]))

/-- The steps of a run from the outer loop. -/
def nestedSteps : List Step := (nestedEngine.runFrom 10 "outer" (.initial ∅)).2.trace.toList

/-- One of two steps that read over the wire into the print node. -/
def readsOut : Step → Bool
  | .received _ 5 _ _ => true
  | _ => false

/-- Null is read over that wire, although the inner loop has an index. -/
def readsNull : Step → Bool
  | .received _ 5 .null cache =>
    match (cache.find? "inner").bind (·.find? "index") with
    | some (.number _) => true
    | _ => false
  | _ => false

theorem split_at {α : Type} {xs : List α} {i : Nat} {x : α} (h : xs[i]? = some x) :
    xs = xs.take i ++ x :: xs.drop (i + 1) := by
  obtain ⟨hlt, rfl⟩ := List.getElem?_eq_some_iff.1 h
  rw [List.getElem_cons_drop, List.take_append_drop]

/-- In the first round the value is read afresh. -/
theorem reads_afresh_nested : ∃ before node value cache after,
    nestedSteps = before ++ .received node 5 value cache :: after ∧
      ∃ out, nestedEngine.Afresh cache "via" out ∧ value = (out.find? "out").getD .null := by
  have hallowed : Session.AllowedAll (fun s op => op.Fresh s.patch ∧ op.Declares (· ∈ Builtin.all))
      (Session.start true .base 1) nestedOperations :=
    Session.AllowedAll.and (by decide +kernel)
      (by simp [nestedOperations, Operation.Declares, Builtin.all])
  have he : Engine.ofPatch nested.patch none = .ok nestedEngine := rfl
  obtain ⟨steps, hsteps, hreads⟩ := reads_afresh
    (Session.Reaches.performAll (.start true .base 1) hallowed) he 10 "outer" (.initial ∅)
  obtain rfl : nestedSteps = steps := hsteps
  have hread : nestedSteps[13]?.any readsOut = true := by decide +kernel
  -- Before, no evaluation of a node has replaced outputs.
  have hfirst : ∀ i, ∀ hi : i < (nestedSteps.take 13).length,
      replaces (nestedEngine.replay ((nestedSteps.take 13).take i)) (nestedSteps.take 13)[i] =
        false := by
    decide +kernel
  obtain ⟨step, hstep, hout⟩ := (Option.any_eq_true _ _).1 hread
  unfold readsOut at hout
  split at hout
  next node value cache =>
    have hsplit := split_at hstep
    obtain ⟨_, hfresh⟩ := hreads _ node 5 value cache _ hsplit
    refine ⟨_, node, value, cache, _, hsplit, hfresh ⟨"via", "out", "out", "value"⟩
      (by decide +kernel) (by decide +kernel) fun htaint => ?_⟩
    obtain ⟨i, hi, hreplaces⟩ := htaint.exists_replaces
    exact absurd ((hfirst i hi).symm.trans hreplaces) Bool.false_ne_true
  next => cases hout

/-- Afresh, the reroute hands on the index of the inner loop. -/
theorem afresh_via {cache : Table String PortValues} {o : PortValues} {n : Number}
    (ho : cache.find? "inner" = some o) (hindex : o.find? "index" = some (.number n)) :
    nestedEngine.Afresh cache "via" (.singleton "out" (.number n)) := by
  have hwires : nestedEngine.graph.dataWires "via" = [(4, ⟨"inner", "index", "via", "in"⟩)] := by
    decide +kernel
  have hkind : (nestedEngine.graph.node? "via").map (·.kind) = some "reroute" := by decide +kernel
  have hsource : (nestedEngine.graph.port? "inner" "index" .output).map (·.type) =
      some .number := by
    decide +kernel
  have htarget : ((nestedEngine.graph.node? "via").bind (·.inputs.find? "in")).map (·.type) =
      some .number := by
    decide +kernel
  obtain ⟨node, hnode, hkind⟩ := Option.map_eq_some_iff.1 hkind
  obtain ⟨source, hsource, hsourceType⟩ := Option.map_eq_some_iff.1 hsource
  rw [hnode, Option.bind_some] at htarget
  obtain ⟨port, hport, htargetType⟩ := Option.map_eq_some_iff.1 htarget
  have hid : node.id = "via" := Graph.id_of_node? hnode
  refine .calculated (fun _ => o) (by decide +kernel) hnode (fun x hx => ?_) ?_
  · rw [hwires, List.mem_singleton] at hx
    subst hx
    exact .held (by decide +kernel) ho
  · have hin : (nestedEngine.inputsFrom (fun _ => o) node).find? "in" = some (.number n) := by
      have hwire : (nestedEngine.graph.dataWires "via").find? (fun x => x.2.targetPort = "in") =
          some (4, ⟨"inner", "index", "via", "in"⟩) := by
        rw [hwires]
        rfl
      rw [find?_inputsFrom, hport, Option.map_some, inputValue, hid, hwire]
      simp only [hsource, hsourceType, htargetType, hindex]
      rfl
    unfold script
    rw [hkind]
    show Table.singleton "out" (Evaluation.value _ "in") = _
    rw [Evaluation.value]
    show Table.singleton "out"
      (((nestedEngine.inputsFrom (fun _ => o) node).find? "in").getD .null) = _
    rw [hin]
    rfl

/-- In the second round the value is stale: null is read, while afresh there is an index. -/
theorem stale_read_nested : ∃ before node value cache after,
    nestedSteps = before ++ .received node 5 value cache :: after ∧
      nestedEngine.graph.wires.find? 5 = some ⟨"via", "out", "out", "value"⟩ ∧
      nestedEngine.graph.usesFlow "via" = false ∧
      ∃ out, nestedEngine.Afresh cache "via" out ∧ value ≠ (out.find? "out").getD .null := by
  have hread : nestedSteps[26]?.any readsNull = true := by decide +kernel
  obtain ⟨step, hstep, hnull⟩ := (Option.any_eq_true _ _).1 hread
  unfold readsNull at hnull
  split at hnull
  next node cache =>
    split at hnull
    next n hn =>
      obtain ⟨o, ho, hindex⟩ := Option.bind_eq_some_iff.1 hn
      exact ⟨_, node, .null, cache, _, split_at hstep, by decide +kernel, by decide +kernel, _,
        afresh_via ho hindex, fun h => by cases h⟩
    next => cases hnull
  next => cases hnull

end Patchbay.Engine
