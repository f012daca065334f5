import Patchbay.Proofs.Run.Pulls

/-!
# Where control goes

Nodes with control ports are evaluated where control has come to them, and nowhere else. Which node
control has come to can be told from the steps of a run (`Engine.Handed`): at its start, when a
control output is fired, and when the evaluation of a node ends that control goes on from. Pulls
leave it where it is.

The proof follows the run. An action is entered with control at the node it evaluates (`At`), while
a node is calculated control is with that node (`With`), and when its evaluation has ended control
has come to the next one (`Next`).

## Key results

- `guides_runNode` / `guides_walk`: the evaluation of a node that control has come to
- `led_runFrom`: in a run, all nodes with control ports are evaluated in turn
-/

namespace Patchbay.Engine

open RunM

variable {e : Engine} {past : List Step}

/-- The step leaves control with the node that it has come to. Values are taken, nodes without
control ports are evaluated, or something is told; but the evaluation of the node itself does not
end. -/
def keepsWith (e : Engine) (node : String) : Step → Bool
  | .received _ _ _ _ => true
  | .calculated n _ => !e.graph.usesFlow n
  | .event (.nodeEvaluated _ n _) => !e.graph.usesFlow n && n ≠ node
  | step => step.tells

/-- By these steps control has come to the node. -/
inductive Handed (e : Engine) : List Step → String → Prop where
  /-- The run starts there. -/
  | start (before : List Step) (run node : String) :
    Handed e (before ++ [.event (.runStarted run node)]) node
  /-- A control output was fired that leads there. -/
  | fired (before : List Step) (run source port node : String) :
    Handed e (before ++ [.event (.flowFired run source port node)]) node
  /-- The evaluation of a node with control ports has ended, and control goes on from there. -/
  | next (before : List Step) (run : String) {prior node : String} (out : PortValues) :
    e.graph.usesFlow prior = true → e.graph.nextInFlow? prior = some node →
    Handed e (before ++ [.event (.nodeEvaluated run prior out)]) node
  /-- Control had come to a node without control ports, and goes on from there. -/
  | nextFree {before : List Step} (run : String) {prior node : String} (out : PortValues) :
    Handed e before prior → e.graph.nextInFlow? prior = some node →
    Handed e (before ++ [.event (.nodeEvaluated run prior out)]) node
  /-- Control had come to the node, and is there still. -/
  | kept {before : List Step} {node : String} {step : Step} :
    Handed e before node → e.keepsWith node step = true → Handed e (before ++ [step]) node

theorem keepsWith_of_tells {node : String} {step : Step} (h : step.tells = true) :
    e.keepsWith node step = true := by
  cases step with
  | undelivered | printed | informed => rfl
  | received | calculated | published | event => cases h

/-- A pull leaves control with a node that is being evaluated. -/
theorem keepsWith_of_pulled {busy : List String} {node : String} {step : Step}
    (h : e.pulled busy step = true) (hnode : node ∈ busy) : e.keepsWith node step = true := by
  cases step with
  | received => rfl
  | calculated n inputs =>
    simp only [pulled, Bool.and_eq_true] at h
    exact h.1
  | event ev =>
    cases ev with
    | nodeEvaluated run n out =>
      simp only [pulled, Bool.and_eq_true, Bool.not_eq_true', List.contains_eq_mem,
        decide_eq_false_iff_not] at h
      have hne : n ≠ node := fun heq => h.2 (heq ▸ hnode)
      simp [keepsWith, h.1, hne]
    | runStarted | flowFired | runCompleted | runFailed => cases h
  | published => cases h
  | undelivered | printed | informed => rfl

/-- A node with control ports is evaluated by the step only if control has come to it. -/
def InTurn (e : Engine) (before : List Step) (step : Step) : Prop :=
  ∀ node, e.graph.usesFlow node = true → step.evaluates node = true → e.Handed before node

/-- All nodes with control ports were evaluated in turn. -/
def Led (e : Engine) (steps : List Step) : Prop := Throughout e.InTurn steps

/-- Control has come to the node. -/
structure At (e : Engine) (node : String) (steps : List Step) : Prop where
  led : e.Led steps
  handed : e.Handed steps node

/-- Control is with the node while that is calculated. If the node has control ports, its
calculation may hand control on. -/
structure With (e : Engine) (node : String) (steps : List Step) : Prop where
  led : e.Led steps
  handed : e.graph.usesFlow node = true ∨ e.Handed steps node

/-- The evaluation of the node has ended, and control has come to the next one. -/
structure Next (e : Engine) (node : String) (steps : List Step) : Prop where
  led : e.Led steps
  handed : ∀ n, e.graph.nextInFlow? node = some n → e.Handed steps n

/-- Started after steps with `P`, the action ends with a result after steps with `Q`. However it
ends, all nodes with control ports were evaluated in turn. -/
def Guides (e : Engine) (past : List Step) (P : List Step → Prop) {α : Type} (m : RunM α)
    (Q : List Step → Prop) : Prop :=
  Leads (RunState.Since past P) m (RunState.Since past Q) (RunState.Since past e.Led)

theorem led_of_at {node : String} {s : RunState} (h : s.Since past (e.At node)) :
    s.Since past e.Led :=
  h.mono fun _ h => h.led

theorem led_of_with {node : String} {s : RunState} (h : s.Since past (e.With node)) :
    s.Since past e.Led :=
  h.mono fun _ h => h.led

theorem led_of_next {node : String} {s : RunState} (h : s.Since past (e.Next node)) :
    s.Since past e.Led :=
  h.mono fun _ h => h.led

section Steps

variable {node : String} {steps : List Step} {step : Step}

theorem Led.append (h : e.Led steps) (hstep : e.InTurn steps step) : e.Led (steps ++ [step]) :=
  Throughout.append h (throughout_singleton (by rwa [List.append_nil]))

/-- A step that evaluates nothing is in turn. -/
theorem Led.append_other (h : e.Led steps) (hstep : ∀ n, step.evaluates n = false) :
    e.Led (steps ++ [step]) :=
  h.append fun n _ hn => absurd ((hstep n).symm.trans hn) Bool.false_ne_true

theorem evaluates_of_tells (h : step.tells = true) (n : String) : step.evaluates n = false := by
  cases step with
  | undelivered | printed | informed => rfl
  | received | calculated | published | event => cases h

/-- While inputs are assembled for the node, control stays there. -/
theorem At.append (h : e.At node steps) {busy : List String} (hnode : node ∈ busy)
    {xs : List Step} (hxs : ∀ x ∈ xs, e.pulled busy x = true ∨ x.receives node = true) :
    e.At node (steps ++ xs) := by
  induction xs generalizing steps with
  | nil => rwa [List.append_nil]
  | cons x xs ih =>
    obtain ⟨hx, hxs⟩ := List.forall_mem_cons.1 hxs
    have hfirst : e.At node (steps ++ [x]) := by
      rcases hx with hx | hx
      · refine ⟨h.led.append fun n hflow hn => ?_, h.handed.kept (keepsWith_of_pulled hx hnode)⟩
        -- What is pulled has no control ports.
        have hnot := not_concerns_of_pulled hx (.inl hflow)
        exact absurd (hnot.symm.trans (Step.concerns_of_evaluates hn)) Bool.false_ne_true
      · cases x with
        | received =>
          refine ⟨h.led.append fun n _ hn => ?_, h.handed.kept rfl⟩
          obtain rfl := (of_decide_eq_true hx).symm.trans (of_decide_eq_true hn)
          exact h.handed
        | calculated | published | event | undelivered | printed | informed => cases hx
    rw [List.append_cons]
    exact ih hfirst hxs

theorem Led.tell (h : e.Led steps) (hstep : step.tells = true) : e.Led (steps ++ [step]) :=
  h.append_other (evaluates_of_tells hstep)

theorem At.tell (h : e.At node steps) (hstep : step.tells = true) : e.At node (steps ++ [step]) :=
  ⟨h.led.tell hstep, h.handed.kept (keepsWith_of_tells hstep)⟩

theorem With.tell (h : e.With node steps) (hstep : step.tells = true) :
    e.With node (steps ++ [step]) :=
  ⟨h.led.tell hstep, h.handed.imp_right fun h => h.kept (keepsWith_of_tells hstep)⟩

theorem Next.tell (h : e.Next node steps) (hstep : step.tells = true) :
    e.Next node (steps ++ [step]) :=
  ⟨h.led.tell hstep, fun n hn => (h.handed n hn).kept (keepsWith_of_tells hstep)⟩

end Steps

/-! ### Evaluations -/

/-- In a run all nodes with control ports keep being evaluated in turn. -/
def StaysWith (e : Engine) (past : List Step) (node : String) (s s' : RunState) : Prop :=
  s.Since past (e.With node) → s'.Since past (e.With node)

instance (node : String) : Telling (e.StaysWith past node) where
  refl := fun _ h => h
  trans := fun h₁ h₂ h => h₂ (h₁ h)
  tell := fun s step hstep h => h.made (s.made_push step) fun _ h => h.tell hstep
  context := fun _ _ h => h

/-- Sending an event is a step that leads from one condition to another, and maybe a second one that
only tells something. -/
theorem leads_emit {make : String → RunEvent} {P Q : List Step → Prop}
    (hpush : ∀ run steps, P steps → Q (steps ++ [.event (make run)]))
    (htell : ∀ steps step, step.tells = true → Q steps → Q (steps ++ [step]))
    {F : RunState → Prop} (hF : ∀ s, s.Since past Q → F s) :
    Leads (RunState.Since past P) (e.emit make) (RunState.Since past Q) F := by
  refine leads_of_state (fun s hs => ?_) hF
  have hsent : (s.push (.event (make s.runId))).Since past Q :=
    hs.made (s.made_push _) (hpush s.runId)
  obtain ⟨s', hemit, hs'⟩ := e.emit_ends (P := RunState.Since past Q) hsent
    fun reason t ht => ht.made (t.made_push _) fun steps => htell steps _ rfl
  rw [hemit]
  exact hs'

/-- Control goes on from a node with control ports where a control output is fired. -/
theorem staysWith_fire {resume : String → RunM Unit}
    (hresume : ∀ id, e.Guides past (e.At id) (resume id) e.Led) {node : String}
    (hflow : e.graph.usesFlow node = true) (flows : Table String String) (port : String)
    (outputs : Option PortValues) :
    Moves (e.StaysWith past node) (e.fire resume node flows port outputs) := by
  have hwith : ∀ s : RunState, s.Since past e.Led → s.Since past (e.With node) :=
    fun s hs => hs.mono fun _ h => ⟨h, .inl hflow⟩
  unfold fire
  split
  · exact moves_pure ()
  next target _ =>
    -- Control goes to the target, and comes back when the walk from there has ended.
    have hgo : e.Guides past (e.With node)
        (e.emit (fun run => .flowFired run node port target) >>= fun _ => resume target)
        e.Led := by
      refine leads_bind (leads_emit (fun run steps h => ?_) (fun _ _ hstep h => h.tell hstep)
        fun _ => led_of_at) fun _ => hresume target
      exact ⟨h.led.append_other fun _ => rfl, .fired steps run node port target⟩
    cases outputs with
    | none => exact fun s hs => hwith _ (hgo s hs).1
    | some o =>
      have hpublish : Moves (e.StaysWith past node) (e.publish node o) := fun s hs =>
        hs.made (s.made_push (.published node o)) fun _ h =>
          ⟨h.led.append_other fun _ => rfl, .inl hflow⟩
      exact moves_bind hpublish fun _ s hs => hwith _ (hgo s hs).1

theorem guides_within {node : String} {α : Type} {m : RunM α} {P Q : List Step → Prop}
    (h : Leads (fun s => node ∈ s.evaluating ∧ s.Since past P) m (RunState.Since past Q)
      (RunState.Since past e.Led)) : e.Guides past P (within node m) Q := by
  intro s hs
  obtain ⟨hend, hdone⟩ := h { s with evaluating := node :: s.evaluating } ⟨List.mem_cons_self, hs⟩
  refine ⟨hend, fun a s' hm => ?_⟩
  rw [within_apply] at hm
  obtain ⟨hout, rfl⟩ := Prod.mk.inj hm
  have hlast := hdone a _ (Prod.ext hout rfl)
  exact hlast

/-- The calculation of a node starts in turn. -/
theorem guides_calculated (id : String) (inputs : PortValues) :
    e.Guides past (e.At id) (log (.calculated id inputs)) (e.With id) := by
  refine leads_of_state (fun s hs => hs.made (s.made_push _) fun steps h => ⟨?_, ?_⟩)
    fun _ => led_of_with
  · refine h.led.append fun n _ hn => ?_
    obtain rfl := of_decide_eq_true hn
    exact h.handed
  · cases hflow : e.graph.usesFlow id with
    | true => exact .inl rfl
    | false => exact .inr (h.handed.kept (by simp [keepsWith, hflow]))

/-- The calculation of a node lets control go on only if the node has control ports. -/
theorem guides_interpret {resume : String → RunM Unit}
    (hresume : ∀ id, e.Guides past (e.At id) (resume id) e.Led) {id : String}
    {script : Script PortValues} (hsilent : e.graph.usesFlow id = false → script.Silent)
    (flows : Table String String) :
    e.Guides past (e.With id) (e.interpret resume id flows script) (e.With id) := by
  refine leads_of_state (fun s hs => ?_) fun _ => led_of_with
  refine moves_interpret_or (R := e.StaysWith past id) _ ?_ s hs
  cases hflow : e.graph.usesFlow id with
  | true => exact .inr (staysWith_fire hresume hflow flows)
  | false => exact .inl (hsilent hflow)

/-- A node that control has come to is evaluated. -/
theorem leads_evaluate {pull resume : String → RunM Unit} {node : Node}
    (hpull : ∀ id, Moves (e.Pulls (Step.receives node.id)) (pull id))
    (hresume : ∀ id, e.Guides past (e.At id) (resume id) e.Led)
    (hsilent : e.graph.usesFlow node.id = false → ∀ inputs, (e.script node inputs).Silent) :
    Leads (fun s => node.id ∈ s.evaluating ∧ s.Since past (e.At node.id))
      (e.evaluate pull resume node)
      (RunState.Since past (e.Next node.id)) (RunState.Since past e.Led) := by
  have hassemble : Leads (fun s => node.id ∈ s.evaluating ∧ s.Since past (e.At node.id))
      (e.assemble pull node) (RunState.Since past (e.At node.id)) (RunState.Since past e.Led) := by
    refine leads_of_state (fun s ⟨hbusy, hs⟩ => ?_) fun _ => led_of_at
    obtain ⟨xs, hmade, hxs⟩ := (pulls_assemble hpull s).steps
    exact hs.made hmade fun steps h => h.append hbusy hxs
  have hkeep : ∀ outputs, e.Guides past (e.With node.id)
      (change fun s => { s with cache := s.cache.insert node.id outputs }) (e.With node.id) :=
    fun outputs => leads_of_state (fun _ hs => hs) fun _ => led_of_with
  have hemit : ∀ outputs, e.Guides past (e.With node.id)
      (e.emit fun run => .nodeEvaluated run node.id outputs) (e.Next node.id) := by
    intro outputs
    refine leads_emit (fun run steps h => ⟨h.led.append_other fun _ => rfl, fun n hn => ?_⟩)
      (fun _ _ hstep h => h.tell hstep) fun _ => led_of_next
    exact h.handed.elim (fun hflow => .next steps run outputs hflow hn)
      fun h => .nextFree run outputs h hn
  exact leads_bind hassemble fun inputs => leads_bind (guides_calculated node.id inputs) fun _ =>
    leads_bind (guides_interpret hresume (fun hflow => hsilent hflow inputs) (e.flows node))
      fun outputs => leads_bind (hkeep outputs) fun _ => leads_bind (hemit outputs) fun _ =>
        leads_pure outputs fun _ => led_of_next

/-- Control passes from node to node. -/
theorem guides_walk {step : String → RunM PortValues}
    (hstep : ∀ id, e.Guides past (e.At id) (step id) (e.Next id)) (allowance : Nat) (id : String) :
    e.Guides past (e.At id) (e.walk step allowance id) e.Led := by
  induction allowance generalizing id with
  | zero => exact leads_exhaust fun _ => led_of_at
  | succ n ih =>
    refine leads_bind (leads_bind (hstep id) fun _ => leads_pure () fun _ => led_of_next)
      fun _ => ?_
    split
    next next hnext =>
      intro s hs
      exact ih next s (hs.mono fun _ h => ⟨h.led, h.handed next hnext⟩)
    next => exact leads_of_state (fun _ => led_of_next) fun _ hs => hs

/-- An evaluation that control has come to ends with control at the next node. -/
theorem guides_runNode (hrestrained : e.Restrained) (past : List Step) (allowance : Nat)
    (id : String) : e.Guides past (e.At id) (e.runNode allowance id) (e.Next id) := by
  induction allowance generalizing id with
  | zero => exact leads_exhaust fun _ => led_of_at
  | succ k ih =>
    cases hn : e.graph.node? id with
    | none =>
      simp only [runNode, hn]
      exact leads_fail _ fun _ => led_of_at
    | some node =>
      obtain rfl : node.id = id := Graph.id_of_node? hn
      simp only [runNode, hn]
      split
      -- What is pulled for the node needs no control, so the hypothesis is for walks alone.
      · exact guides_within <| leads_evaluate (pulls_pull_runNode hrestrained _ k)
          (guides_walk ih k) (hrestrained node.id node hn)
      · exact leads_fail _ fun _ => led_of_at

/-- In a run, all nodes with control ports are evaluated in turn. -/
theorem led_runFrom (hrestrained : e.Restrained) (allowance : Nat) (start : String) (s : RunState) :
    (e.runFrom allowance start s).2.Since s.trace.toList e.Led := by
  have hstart : e.Guides s.trace.toList (· = []) (e.emit fun run => .runStarted run start)
      (e.At start) := by
    refine leads_emit (fun run steps h => ?_) (fun _ _ hstep h => h.tell hstep) fun _ => led_of_at
    subst h
    exact ⟨Led.append_other throughout_nil fun _ => rfl, .start [] run start⟩
  have hcontinue :=
    guides_walk (guides_runNode hrestrained s.trace.toList allowance) allowance start
  have hreport : ∀ make : String → RunEvent, e.Guides s.trace.toList e.Led (e.emit make) e.Led :=
    fun make => leads_emit (fun _ _ h => h.append_other fun _ => rfl)
      (fun _ _ hstep h => h.tell hstep) fun _ hs => hs
  have hready : ({ s with cache := ∅, evaluating := [], runs := s.runs + 1 } : RunState).Since
      s.trace.toList (· = []) :=
    ⟨[], (List.append_nil _).symm, rfl⟩
  unfold runFrom
  rw [change_bind]
  refine (leads_bind (R := RunState.Since s.trace.toList e.Led) hstart
    (fun _ => leads_bind (leads_attempt hcontinue) fun r => ?_) _ hready).1
  split
  · exact hreport _
  · exact leads_bind (hreport _) fun _ => leads_fail _ fun _ hs => hs

end Patchbay.Engine
