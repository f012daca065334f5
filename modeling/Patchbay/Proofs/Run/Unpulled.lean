import Patchbay.Proofs.Run.Handing
import Patchbay.Proofs.Run.Provenance
import Patchbay.Proofs.Run.Pulling

/-!
# Nodes with control ports are not pulled

In a run, a node with control ports is evaluated where control comes to it. Until then it has no
outputs, and whatever needs them fails: values are not made up, nor are they left over from an
earlier run.

A node that needs such outputs is not calculated. While its inputs are assembled, only nodes without
control ports are evaluated, so the outputs are still missing when it is their turn
(`runNode_unrun`).

## Key results

- `refused_runNode`: an evaluation for which outputs of a source with control ports are missing
- `orderly_runFrom`: where control and values come from, throughout a run
-/

namespace Patchbay

/-- The outcome of an action after which another one fails. -/
def Outcome.thenFail {α β : Type} (err : Error) : Outcome α → Outcome β
  | .done _ => .failed err
  | .failed first => .failed first
  | .exhausted => .exhausted

theorem Outcome.thenFail_ne_done {α β : Type} (err : Error) (o : Outcome α) (b : β) :
    o.thenFail err ≠ .done b := by
  cases o <;> nofun

theorem Outcome.exists_of_thenFail {α β : Type} (err : Error) {o : Outcome α} (h : o ≠ .exhausted) :
    ∃ err', (o.thenFail err : Outcome β) = .failed err' := by
  cases o with
  | done a => exact ⟨err, rfl⟩
  | failed first => exact ⟨first, rfl⟩
  | exhausted => exact absurd rfl h

namespace RunM

variable {α β : Type} {m : RunM α} {k : α → RunM β} {s : RunState} {err : Error}

theorem bind_thenFail (hk : ∀ a s', m s = (.done a, s') → k a s' = (.failed err, s')) :
    (m >>= k) s = ((m s).1.thenFail err, (m s).2) := by
  cases hr : m s with
  | mk r s' =>
    cases r with
    | done a => rw [bind_done hr, hk a s' hr]; rfl
    | failed e => rw [bind_failed hr]; rfl
    | exhausted => rw [bind_exhausted hr]; rfl

/-- After a failure nothing is done. -/
theorem bind_of_thenFail {γ : Type} {o : Outcome γ} {s' : RunState}
    (h : m s = (o.thenFail err, s')) : (m >>= k) s = (o.thenFail err, s') := by
  cases o with
  | done a => exact bind_failed h
  | failed e => exact bind_failed h
  | exhausted => exact bind_exhausted h

end RunM

namespace Engine

open RunM

variable {e : Engine}

/-! ### Outputs that are missing -/

/-- A pull leaves the outputs of nodes with control ports as they are, and those of nodes that are
being evaluated. -/
theorem find?_replayStep_of_pulled {busy : List String} {step : Step} {x : String}
    (h : e.pulled busy step = true) (hx : e.graph.usesFlow x = true ∨ x ∈ busy)
    (cache : Table String PortValues) :
    (e.replayStep cache step).find? x = cache.find? x := by
  have hnot := not_concerns_of_pulled h hx
  cases step with
  | event ev =>
    cases ev with
    | nodeEvaluated run node out =>
      have hne : x ≠ node := fun heq => of_decide_eq_false hnot heq.symm
      show (cache.insert node out).find? x = _
      rw [Table.find?_insert, if_neg hne]
    | runStarted | flowFired | runCompleted | runFailed => rfl
  | published => cases h
  | received | calculated | undelivered | printed | informed => rfl

theorem find?_foldl_of_pulled {busy : List String} {node : String} {steps : List Step} {x : String}
    (h : ∀ step ∈ steps, e.pulled busy step = true ∨ step.receives node = true)
    (hx : e.graph.usesFlow x = true ∨ x ∈ busy) (cache : Table String PortValues) :
    (steps.foldl e.replayStep cache).find? x = cache.find? x := by
  induction steps generalizing cache with
  | nil => rfl
  | cons step steps ih =>
    obtain ⟨hstep, hsteps⟩ := List.forall_mem_cons.1 h
    rw [List.foldl_cons, ih hsteps]
    rcases hstep with hstep | hstep
    · exact find?_replayStep_of_pulled hstep hx cache
    · cases step with
      | received => rfl
      | calculated | published | event | undelivered | printed | informed => cases hstep

/-- While inputs are assembled for a node, outputs of nodes with control ports neither come nor go,
nor do those of nodes that are being evaluated. -/
theorem find?_of_pulls {node : String} {s s' : RunState}
    (h : e.Pulls (Step.receives node) s s') (hlogs : e.Logs s s') {x : String}
    (hx : e.graph.usesFlow x = true ∨ x ∈ s.evaluating) : s'.cache.find? x = s.cache.find? x := by
  obtain ⟨steps, hmade, hall⟩ := h.steps
  obtain ⟨steps', hmade', hcache, _⟩ := hlogs
  obtain rfl := hmade'.unique hmade
  rw [hcache, find?_foldl_of_pulled hall hx]

/-- A node with control ports that has no outputs cannot be pulled. -/
theorem pull_unrun {step : String → RunM PortValues} {id : String} {s : RunState}
    (hflow : e.graph.usesFlow id = true) (hnone : s.cache.find? id = none) :
    e.pull step id s = (.failed (.notRun id), s) := by
  simp [pull, Table.contains, hnone, hflow]

/-- The inputs of a node are assembled up to the first source whose outputs are missing. -/
theorem assemble_unrun {step : String → RunM PortValues} {node : Node}
    {pre post : List (WireId × Wire)} {i : WireId} {w : Wire}
    (hwires : e.graph.dataWires node.id = pre ++ (i, w) :: post)
    (hflow : e.graph.usesFlow w.source = true) {s : RunState}
    (hnone : (pre.foldlM (e.receive (e.pull step) node) ∅ s).2.cache.find? w.source = none) :
    e.assemble (e.pull step) node s =
      ((pre.foldlM (e.receive (e.pull step) node) ∅ s).1.thenFail (.notRun w.source),
        (pre.foldlM (e.receive (e.pull step) node) ∅ s).2) := by
  rw [assemble, hwires, List.foldlM_append]
  refine bind_of_thenFail (bind_thenFail fun inputs s' hpre => ?_)
  rw [hpre] at hnone
  rw [List.foldlM_cons]
  exact bind_failed (bind_failed (pull_unrun hflow hnone))

/-- Where values could not be taken over all wires, there is a wire over which none was. -/
theorem exists_not_received {pull : String → RunM Unit} (hpull : e.LoggedPull pull) {node : Node}
    {xs : List (WireId × Wire)} (hxs : xs.Pairwise fun a b => a.1 ≠ b.1) {inputs : PortValues}
    {s : RunState} (hbusy : node.id ∈ s.evaluating)
    (h : ∀ r, (xs.foldlM (e.receive pull node) inputs s).1 ≠ .done r) :
    ∃ steps, s.Made steps (xs.foldlM (e.receive pull node) inputs s).2 ∧
      ∃ x ∈ xs, ∀ value cache, .received node.id x.1 value cache ∉ steps := by
  induction xs generalizing inputs s with
  | nil => exact absurd rfl (h inputs)
  | cons x xs ih =>
    obtain ⟨hx, hxs⟩ := List.pairwise_cons.1 hxs
    rw [List.foldlM_cons] at h ⊢
    have hpulls := hpull.pulls x.2.source s
    cases hp : pull x.2.source s with
    | mk o s₁ =>
      rw [hp] at hpulls
      obtain ⟨ps, hps, hforeign⟩ := hpulls.exists_foreign hbusy
      have hfree : ∀ i value cache, .received node.id i value cache ∉ ps :=
        fun i value cache hmem => absurd rfl (of_decide_eq_false (hforeign _ hmem))
      cases o with
      | done _ =>
        have hread : e.receive pull node inputs x s = (.done _, s₁.push (.received node.id x.1 _
          s₁.cache)) := bind_done hp
        rw [bind_done hread] at h ⊢
        obtain ⟨steps, hmade, y, hy, hnot⟩ := ih hxs
          (by rw [RunState.evaluating_push, hpulls.evaluating]; exact hbusy) h
        refine ⟨ps ++ ([_] ++ steps), hps.append ((s₁.made_push _).append hmade), y,
          List.mem_cons_of_mem _ hy, fun value cache hmem => ?_⟩
        rcases List.mem_append.1 hmem with hmem | hmem
        · exact hfree _ _ _ hmem
        · rcases List.mem_cons.1 hmem with heq | hmem
          · exact hx y hy (Step.received.inj heq).2.1.symm
          · exact hnot value cache hmem
      -- Without the source, nothing is taken over its wire.
      | failed err =>
        have hread : e.receive pull node inputs x s = (.failed err, s₁) := bind_failed hp
        rw [bind_failed hread]
        exact ⟨ps, hps, x, List.mem_cons_self, hfree x.1⟩
      | exhausted =>
        have hread : e.receive pull node inputs x s = (.exhausted, s₁) := bind_exhausted hp
        rw [bind_exhausted hread]
        exact ⟨ps, hps, x, List.mem_cons_self, hfree x.1⟩

/-! ### Evaluations that fail -/

/-- Values are taken for a node over the first wires, as its evaluation begins. -/
def taking (e : Engine) (allowance : Nat) (node : Node) (earlier : List (WireId × Wire))
    (s : RunState) : Outcome PortValues × RunState :=
  earlier.foldlM (e.receive (e.pull (e.runNode allowance)) node) ∅
    { s with evaluating := node.id :: s.evaluating }

section Taking

variable {node : Node} {earlier later : List (WireId × Wire)} {i : WireId} {w : Wire}

theorem pulls_taking (hrestrained : e.Restrained) (allowance : Nat) (node : Node)
    (earlier : List (WireId × Wire)) (s : RunState) :
    e.Pulls (Step.receives node.id) { s with evaluating := node.id :: s.evaluating }
      (e.taking allowance node earlier s).2 :=
  moves_foldlM _ (fun inputs y _ =>
    pulls_receive (pulls_pull_runNode hrestrained _ allowance) inputs y) ∅ _

/-- Taking the values leaves outputs of nodes with control ports as they are, and those of the node.
-/
theorem find?_taking (hg : e.graph.Sound) (hrestrained : e.Restrained) (allowance : Nat)
    (hearlier : ∀ x ∈ earlier, x ∈ e.graph.dataWires node.id) {s : RunState} {x : String}
    (hx : e.graph.usesFlow x = true ∨ x = node.id) :
    (e.taking allowance node earlier s).2.cache.find? x = s.cache.find? x := by
  have hpull := loggedPull_runNode hg hrestrained allowance
  have hlogs := moves_foldlM earlier
    (fun inputs y hy => logs_receive hpull (hearlier y hy) inputs) ∅
    { s with evaluating := node.id :: s.evaluating }
  exact find?_of_pulls (pulls_taking hrestrained allowance node earlier s) hlogs
    (hx.imp_right fun (hx : x = node.id) => hx ▸ List.mem_cons_self)

/-- Taking the values comes to an end. -/
theorem taking_ne_exhausted (hrestrained : e.Restrained) {allowance : Nat}
    (hn : e.graph.node? node.id = some node) (hallowance : e.graph.nodes.length ≤ allowance)
    (s : RunState) : (e.taking allowance node earlier s).1 ≠ .exhausted := by
  have hid : node.id ∈ e.graph.ids := (Graph.mem_ids_iff _ _).2 (by rw [hn]; rfl)
  have hidle : e.idle (node.id :: s.evaluating) < e.graph.nodes.length :=
    idle_lt_length hid List.mem_cons_self
  have hpull : ∀ x, Finishes (node.id :: s.evaluating) (e.pull (e.runNode allowance) x) :=
    finishes_pull fun x hx hnew =>
      finishes_runNode hrestrained hx hnew (Nat.lt_of_lt_of_le hidle hallowance)
  exact (finishes_foldlM earlier (finishes_receive hpull node) ∅ _ rfl).1

/-- Where a value was taken over each of the wires, nothing has failed. -/
theorem exists_taking (hg : e.graph.Sound) (hrestrained : e.Restrained) {allowance : Nat}
    (hwires : earlier.Pairwise fun a b => a.1 ≠ b.1) {s : RunState} {steps : List Step}
    (hmade : s.Made steps (e.taking allowance node earlier s).2)
    (hall : ∀ x ∈ earlier, ∃ value cache, .received node.id x.1 value cache ∈ steps) :
    ∃ inputs, (e.taking allowance node earlier s).1 = .done inputs := by
  refine Classical.byContradiction fun hnone => ?_
  have hpull := loggedPull_runNode hg hrestrained allowance
  obtain ⟨steps', hmade', x, hx, hnot⟩ := exists_not_received hpull hwires
    (s := { s with evaluating := node.id :: s.evaluating }) List.mem_cons_self
    fun r hr => hnone ⟨r, hr⟩
  obtain rfl := hmade'.unique hmade
  obtain ⟨value, cache, hmem⟩ := hall x hx
  exact hnot value cache hmem

/-- The evaluation of a node fails at a source whose outputs are missing, unless it has failed
before that. -/
theorem runNode_unrun (hg : e.graph.Sound) (hn : e.graph.node? node.id = some node)
    (hwires : e.graph.dataWires node.id = earlier ++ (i, w) :: later)
    (hflow : e.graph.usesFlow w.source = true) {allowance : Nat} {s : RunState}
    (hnone : (e.taking allowance node earlier s).2.cache.find? w.source = none) :
    e.runNode (allowance + 1) node.id s =
      ((e.taking allowance node earlier s).1.thenFail (.notRun w.source),
        { (e.taking allowance node earlier s).2 with
          evaluating := (e.taking allowance node earlier s).2.evaluating.tail }) := by
  have hkind : e.graph.kinds.contains node.kind = true := hg.declared node.id node hn
  rw [runNode, hn]
  simp only [hkind, if_true]
  rw [within_apply, evaluate, bind_of_thenFail (assemble_unrun hwires hflow hnone)]
  rfl

/-- The evaluation of a node fails for want of the outputs of a source, and these are its steps. -/
structure Refused (e : Engine) (allowance : Nat) (id : String) (earlier : List (WireId × Wire))
    (source : String) (s : RunState) (steps : List Step) : Prop where
  made : s.Made steps (e.runNode allowance id s).2
  notDone : ∀ out, (e.runNode allowance id s).1 ≠ .done out
  /-- The allowance is not used up, if it lets evaluations nest as deep as there are nodes. -/
  fails : e.graph.nodes.length < allowance → ∃ err, (e.runNode allowance id s).1 = .failed err
  /-- Unless taking a value over an earlier wire has failed, the error names the source. -/
  notRun : 0 < allowance → (∀ x ∈ earlier, ∃ value cache, .received id x.1 value cache ∈ steps) →
    (e.runNode allowance id s).1 = .failed (.notRun source)
  uncalculated : ∀ inputs, .calculated id inputs ∉ steps
  kept : (e.runNode allowance id s).2.cache.find? id = s.cache.find? id

/-- A node is not calculated while outputs of a source with control ports are missing. -/
theorem refused_runNode (hg : e.graph.Sound) (hrestrained : e.Restrained) (allowance : Nat)
    {id : String} (hwires : e.graph.dataWires id = earlier ++ (i, w) :: later)
    (hflow : e.graph.usesFlow w.source = true) {s : RunState}
    (hnone : s.cache.find? w.source = none) :
    ∃ steps, e.Refused allowance id earlier w.source s steps := by
  cases allowance with
  | zero => exact ⟨[], RunState.made_nil rfl, nofun, nofun, nofun, fun _ => List.not_mem_nil, rfl⟩
  | succ k =>
    have hw : (i, w) ∈ e.graph.dataWires id := by simp [hwires]
    obtain ⟨hwire, ht, _⟩ := Graph.mem_dataWires.1 hw
    obtain ⟨node, hn⟩ := Graph.node?_of_isSome_port? (hg.target i w hwire)
    rw [ht] at hn
    obtain rfl : node.id = id := Graph.id_of_node? hn
    have hearlier : ∀ x ∈ earlier, x ∈ e.graph.dataWires node.id :=
      fun x hx => hwires ▸ List.mem_append_left _ hx
    have hkeys : earlier.Pairwise fun a b => a.1 ≠ b.1 :=
      (List.pairwise_append.1 (hwires ▸ Graph.pairwise_keys_dataWires node.id)).1
    -- The outputs that are missing are still missing when it is the turn of their wire.
    have hrun := runNode_unrun hg hn hwires hflow
      ((find?_taking hg hrestrained k hearlier (s := s) (.inl hflow)).trans hnone)
    obtain ⟨steps, hmade, hall⟩ := (pulls_taking hrestrained k node earlier s).steps
    refine ⟨steps, ?_, ?_, ?_, ?_, fun inputs hmem => ?_, ?_⟩
    · rw [hrun]
      exact hmade
    · rw [hrun]
      exact fun out => Outcome.thenFail_ne_done _ _ out
    · rw [hrun]
      exact fun hlt => Outcome.exists_of_thenFail _
        (taking_ne_exhausted hrestrained hn (Nat.le_of_lt_succ hlt) s)
    · intro _ hreceived
      obtain ⟨inputs, hdone⟩ := exists_taking hg hrestrained hkeys hmade hreceived
      rw [hrun, hdone]
      rfl
    · -- The node is being evaluated, so that its calculation is none of a pull.
      rcases hall _ hmem with hpulled | hreceives
      · have hnot := not_concerns_of_pulled hpulled (.inr List.mem_cons_self)
        exact absurd rfl (of_decide_eq_false hnot)
      · cases hreceives
    · rw [hrun]
      exact find?_taking hg hrestrained k hearlier (.inr rfl)

end Taking

/-! ### Runs -/

/-- What the steps of a run show: nodes with control ports are evaluated where control comes to
them, and the values that calculations get over wires come from this run. -/
structure Orderly (e : Engine) (steps : List Step) : Prop where
  inTurn : ∀ before step after id, steps = before ++ step :: after → e.graph.usesFlow id = true →
    step.evaluates id = true → e.Handed before id
  /-- A value is taken from outputs that are kept at that moment, and were written in this run. -/
  taken : ∀ before id wire value cache after,
    steps = before ++ .received id wire value cache :: after →
      cache = e.replay before ∧ ∃ w out, (wire, w) ∈ e.graph.dataWires id ∧
        cache.find? w.source = some out ∧ value = (out.find? w.sourcePort).getD .null ∧
          ∃ step ∈ before, step.writes w.source = true
  /-- A calculation gets what was taken for it, from sources that all have written outputs. -/
  given : ∀ before id inputs after, steps = before ++ .calculated id inputs :: after →
    ∀ node wire w, e.graph.node? id = some node → (wire, w) ∈ e.graph.dataWires id →
      ∃ value, Took before id wire value ∧
        inputs.find? w.targetPort = some (e.convert node w value) ∧
          ∃ step ∈ before, step.writes w.source = true

theorem orderly_of_led {steps : List Step} (hled : e.Led steps)
    (hsourced : Throughout (e.Sourced ∅) steps) : e.Orderly steps := by
  have htaken : ∀ before id wire value cache after,
      steps = before ++ .received id wire value cache :: after →
        cache = e.replay before ∧ ∃ w out, (wire, w) ∈ e.graph.dataWires id ∧
          cache.find? w.source = some out ∧ value = (out.find? w.sourcePort).getD .null ∧
            ∃ step ∈ before, step.writes w.source = true := by
    intro before id wire value cache after hsteps
    obtain ⟨hcache, w, out, hw, hout, hvalue⟩ := hsourced before _ after hsteps
    exact ⟨hcache, w, out, hw, hout, hvalue, exists_writes (hcache ▸ hout)⟩
  refine ⟨fun before step after id hsteps => hled before step after hsteps id, htaken, ?_⟩
  intro before id inputs after hsteps node wire w hn hw
  obtain ⟨value, htook, hvalue⟩ := hsourced before _ after hsteps node wire w hn hw
  refine ⟨value, htook, hvalue, ?_⟩
  -- The source had written outputs when the value was taken.
  obtain ⟨first, cache, rest, rfl, _⟩ := htook
  obtain ⟨_, w', _, hw', _, _, step, hstep, hwrites⟩ := htaken first id wire value cache _
    (hsteps.trans (List.append_assoc _ _ _))
  obtain rfl : w' = w := Option.some.inj
    ((Graph.mem_dataWires.1 hw').1.symm.trans (Graph.mem_dataWires.1 hw).1)
  exact ⟨step, List.mem_append_left _ hstep, hwrites⟩

theorem orderly_runFrom (hg : e.graph.Sound) (hrestrained : e.Restrained) (allowance : Nat)
    (start : String) (s : RunState) :
    ∃ steps, s.Made steps (e.runFrom allowance start s).2 ∧
      (e.runFrom allowance start s).2.cache = e.replay steps ∧ e.Orderly steps := by
  obtain ⟨steps, hmade, hled⟩ := led_runFrom hrestrained allowance start s
  obtain ⟨steps', hmade', hcache, hsourced⟩ := sourced_runFrom hg hrestrained allowance start s
  obtain rfl := hmade'.unique hmade
  exact ⟨steps', hmade', hcache, orderly_of_led hled hsourced⟩

/-- Nodes with control ports are never pulled. Take any session, and any run over its patch, in
which nodes without control ports fire nothing. A node with control ports is evaluated only where
the run starts, where a control output was fired, or where control goes on to from a node whose
evaluation has ended. All values that a calculation gets over wires were taken from outputs that
were written in this run. And in a state that some steps of a run lead to, during which a node with
control ports has neither come to the end of an evaluation nor published outputs, the evaluation of
a node that it feeds fails, does not calculate that node, and leaves its outputs as they are. -/
theorem never_pulls_control {session : Session} (hreach : session.Reachable)
    {refusal : Option String} (he : Engine.ofPatch session.patch refusal = .ok e)
    (hrestrained : e.Restrained) (allowance : Nat) (start : String) (s : RunState) :
    (∃ steps, s.Made steps (e.runFrom allowance start s).2 ∧
      (e.runFrom allowance start s).2.cache = e.replay steps ∧ e.Orderly steps) ∧
      ∀ done t, t.cache = e.replay done → ∀ id earlier wire w later,
        e.graph.dataWires id = earlier ++ (wire, w) :: later → e.graph.usesFlow w.source = true →
          (∀ step ∈ done, step.writes w.source = false) →
            ∀ k, ∃ steps, e.Refused k id earlier w.source t steps := by
  have hg := sound_of_ofPatch hreach he
  refine ⟨orderly_runFrom hg hrestrained allowance start s, ?_⟩
  intro done t hcache id earlier wire w later hwires hflow hunwritten k
  refine refused_runNode hg hrestrained k hwires hflow ?_
  rw [hcache, replay, find?_foldl_of_not_writes hunwritten (Table.find?_empty w.source)]

/-- Calculations that come to a result or fail at once fire nothing. -/
theorem Settled.restrained (h : e.Settled) : e.Restrained := by
  intro id node hn hflow inputs
  rcases h id node hn hflow inputs with ⟨out, hout⟩ | ⟨err, herr⟩
  · rw [hout]
    trivial
  · rw [herr]
    trivial

/-- In the loop inside a loop, the inner loop takes its count from the outer one, and fails as long
as that has no index. -/
theorem never_pulls_control_nested :
    (∃ steps, (RunState.initial ∅).Made steps (nestedEngine.runFrom 10 "outer" (.initial ∅)).2 ∧
      (nestedEngine.runFrom 10 "outer" (.initial ∅)).2.cache = nestedEngine.replay steps ∧
      nestedEngine.Orderly steps) ∧
    (nestedEngine.runNode 10 "inner" (.initial ∅)).1 = .failed (.notRun "outer") := by
  have hallowed : Session.AllowedAll (fun s op => op.Fresh s.patch ∧ op.Declares (· ∈ Builtin.all))
      (Session.start true .base 1) nestedOperations :=
    Session.AllowedAll.and (by decide +kernel)
      (by simp [nestedOperations, Operation.Declares, Builtin.all])
  have hbuilt := Session.Reaches.performAll (.start true .base 1) hallowed
  have hreach : nested.Reachable := hbuilt.mono fun _ _ h => h.1
  have he : Engine.ofPatch nested.patch none = .ok nestedEngine := rfl
  have hrestrained : nestedEngine.Restrained :=
    (settled_of_builtin (sound_of_ofPatch hreach he) (Session.kindsFrom_of_reaches hbuilt)
      none).restrained
  obtain ⟨hrun, hrefused⟩ := never_pulls_control hreach he hrestrained 10 "outer" (.initial ∅)
  obtain ⟨steps, hsteps⟩ := hrefused [] (.initial ∅) rfl "inner" [] 3
    ⟨"outer", "index", "inner", "count"⟩ [] (by decide +kernel) (by decide +kernel)
    (List.forall_mem_nil _) 10
  exact ⟨hrun, hsteps.notRun (by decide) (List.forall_mem_nil _)⟩

end Engine

end Patchbay
