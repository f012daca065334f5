import Patchbay.Proofs.Run.Action

/-!
# Calls of an engine

What holds for every part of a run, put together from its smallest actions. Most of them are quiet:
they neither change nor show the outputs of nodes. A relation that quiet actions keep to only has to
be looked at where outputs are published and where an evaluation ends.

Between the calls of a host no node is being evaluated, however the calls before have ended.

## Key results

- `moves_interpret` / `moves_walk`: scripts and the flow of control, given what they set off
- `Between.evaluating`: between calls no node is being evaluated
-/

namespace Patchbay

/-- The step neither changes nor shows outputs of a node. -/
def Step.quiet : Step → Bool
  | received _ _ _ _ => false
  | published _ _ => false
  | event (.nodeEvaluated _ _ _) => false
  | _ => true

/-- The step only tells the host something. -/
def Step.tells : Step → Bool
  | undelivered _ | printed _ | informed _ => true
  | _ => false

theorem Step.quiet_of_tells {step : Step} (h : step.tells = true) : step.quiet = true := by
  cases step with
  | undelivered | printed | informed => rfl
  | received | calculated | published | event => cases h

/-- A relation that steps which only tell something and changes of the context keep to. -/
class RunM.Telling (R : RunState → RunState → Prop) : Prop extends RunM.Composable R where
  tell : ∀ (s : RunState) (step : Step), step.tells = true → R s (s.push step)
  context : ∀ (s : RunState) (c : Context), R s { s with context := c }

/-- A relation that quiet steps and changes of the context keep to. -/
class RunM.Quiet (R : RunState → RunState → Prop) : Prop extends RunM.Composable R where
  push : ∀ (s : RunState) (step : Step), step.quiet = true → R s (s.push step)
  context : ∀ (s : RunState) (c : Context), R s { s with context := c }

instance (priority := low) (R : RunState → RunState → Prop) [hR : RunM.Quiet R] :
    RunM.Telling R where
  tell := fun s step h => hR.push s step (Step.quiet_of_tells h)
  context := hR.context

namespace Engine

open RunM

variable {e : Engine} {R : RunState → RunState → Prop} [hR : Quiet R]

theorem moves_log_quiet {step : Step} (h : step.quiet = true) : Moves R (log step) :=
  moves_log fun s => hR.push s step h

/-- Sending an event logs it, and then maybe that the host has not taken it. -/
theorem emit_ends (e : Engine) {make : String → RunEvent} {s : RunState} {P : RunState → Prop}
    (hpush : P (s.push (.event (make s.runId))))
    (htell : ∀ reason t, P t → P (t.push (.undelivered reason))) :
    ∃ s', e.emit make s = (.done (), s') ∧ P s' := by
  cases hr : e.refusal with
  | none => exact ⟨_, by simp only [emit, hr]; rfl, hpush⟩
  | some reason => exact ⟨_, by simp only [emit, hr]; rfl, htell reason _ hpush⟩

omit hR in
/-- Sending an event is a step, and maybe a second one that only tells something. -/
theorem moves_emit_of_push [hT : Telling R] {make : String → RunEvent}
    (h : ∀ s : RunState, R s (s.push (.event (make s.runId)))) : Moves R (e.emit make) := by
  intro s
  obtain ⟨s', hemit, hs'⟩ := e.emit_ends (P := R s) (h s)
    fun reason t ht => hT.trans ht (hT.tell t (.undelivered reason) rfl)
  rw [hemit]
  exact hs'

theorem moves_emit {make : String → RunEvent} (h : ∀ run, (Step.event (make run)).quiet = true) :
    Moves R (e.emit make) :=
  moves_emit_of_push fun s => hR.push s _ (h s.runId)

omit hR in
/-- Firing an output publishes outputs, tells the host, and lets control go on where the output
leads. -/
theorem moves_fire_to [Telling R] {flows : Table String String} {resume : String → RunM Unit}
    {node : String} (hpublish : ∀ outputs, Moves R (e.publish node outputs))
    (hfired : ∀ (s : RunState) port target,
      R s (s.push (.event (.flowFired s.runId node port target))))
    (hresume : ∀ port target, flows.find? port = some target → Moves R (resume target))
    (port : String) (outputs : Option PortValues) :
    Moves R (e.fire resume node flows port outputs) := by
  unfold fire
  split
  · exact moves_pure ()
  next target hport =>
    have hgo := hresume port target hport
    have hemit : Moves R (e.emit fun run => .flowFired run node port target) :=
      moves_emit_of_push fun s => hfired s port target
    cases outputs with
    | some o => exact moves_bind (hpublish o) fun _ => moves_bind hemit fun _ => hgo
    | none => exact moves_bind hemit fun _ => hgo

omit hR in
theorem moves_fire_of_push [Telling R] (flows : Table String String) {resume : String → RunM Unit}
    {node : String} (hpublish : ∀ outputs, Moves R (e.publish node outputs))
    (hfired : ∀ (s : RunState) port target,
      R s (s.push (.event (.flowFired s.runId node port target))))
    (hresume : ∀ id, Moves R (resume id)) (port : String) (outputs : Option PortValues) :
    Moves R (e.fire resume node flows port outputs) :=
  moves_fire_to hpublish hfired (fun _ target _ => hresume target) port outputs

theorem moves_fire (flows : Table String String) {resume : String → RunM Unit} {node : String}
    (hpublish : ∀ outputs, Moves R (e.publish node outputs)) (hresume : ∀ id, Moves R (resume id))
    (port : String) (outputs : Option PortValues) :
    Moves R (e.fire resume node flows port outputs) :=
  moves_fire_of_push flows hpublish (fun s _ _ => hR.push s _ rfl) hresume port outputs

/-- A line is printed if the context holds a log. -/
theorem interpret_print {α : Type} (e : Engine) (resume : String → RunM Unit) (node : String)
    (flows : Table String String) (line : String) (next : Script α) (s : RunState) :
    e.interpret resume node flows (.print line next) s =
      e.interpret resume node flows next
        (if s.context.hasPrintLog then s.push (.printed line) else s) := by
  simp only [interpret, read_bind]
  split <;> rfl

omit hR in
/-- A script does what its firings do, if it fires at all. -/
theorem moves_interpret_or [hT : Telling R] {α : Type} {resume : String → RunM Unit} {node : String}
    {flows : Table String String} (script : Script α)
    (hfire : script.Silent ∨ ∀ port outputs, Moves R (e.fire resume node flows port outputs)) :
    Moves R (e.interpret resume node flows script) := by
  induction script with
  | done a => exact moves_pure a
  | fail err => exact moves_fail err
  | fire port outputs next ih =>
    have hfire := hfire.resolve_left fun h => h
    exact moves_bind (moves_attempt (hfire port outputs)) fun r => ih r (.inr hfire)
  | consult key next ih =>
    exact moves_bind moves_read fun s => ih _ (hfire.imp_left fun h => h _)
  | store key entry next ih =>
    exact moves_bind (moves_change fun s => hT.context s _) fun _ => ih hfire
  | print line next ih =>
    intro s
    rw [interpret_print]
    split
    · exact hT.trans (hT.tell s (.printed line) rfl) (ih hfire _)
    · exact ih hfire s
  | inform line next ih =>
    exact moves_bind (moves_log fun s => hT.tell s _ rfl) fun _ => ih hfire

omit hR in
theorem moves_interpret [Telling R] {α : Type} {resume : String → RunM Unit} {node : String}
    {flows : Table String String}
    (hfire : ∀ port outputs, Moves R (e.fire resume node flows port outputs)) (script : Script α) :
    Moves R (e.interpret resume node flows script) :=
  moves_interpret_or script (.inr hfire)

omit hR in
/-- Control passes one node after the other. -/
theorem moves_walk [Composable R] {step : String → RunM PortValues}
    (hstep : ∀ id, Moves R (step id)) (allowance : Nat) (node : String) :
    Moves R (e.walk step allowance node) := by
  induction allowance generalizing node with
  | zero => exact moves_exhaust
  | succ n ih =>
    refine moves_bind (moves_discard (hstep node)) fun _ => ?_
    split
    · exact ih _
    · exact moves_pure ()

omit hR in
theorem moves_pull [Composable R] {step : String → RunM PortValues} {node : String}
    (hstep : e.graph.usesFlow node = false → Moves R (step node)) : Moves R (e.pull step node) := by
  refine moves_bind moves_read fun s => ?_
  split
  · exact moves_pure ()
  · split
    · exact moves_fail _
    next hflow =>
      split
      · exact moves_fail _
      · exact moves_discard (hstep (by simpa using hflow))

/-! ### Nodes that are being evaluated -/

/-- The same nodes are being evaluated. -/
def SameEvaluating (s s' : RunState) : Prop := s'.evaluating = s.evaluating

instance : Quiet SameEvaluating where
  refl := fun _ => rfl
  trans := fun h₁ h₂ => h₂.trans h₁
  push := fun _ _ _ => rfl
  context := fun _ _ => rfl

theorem evaluating_evaluate {pull resume : String → RunM Unit}
    (hpull : ∀ id, Moves SameEvaluating (pull id))
    (hresume : ∀ id, Moves SameEvaluating (resume id)) (node : Node) :
    Moves SameEvaluating (e.evaluate pull resume node) := by
  have hassemble : Moves SameEvaluating (e.assemble pull node) := by
    refine moves_bind (moves_foldlM _ (fun inputs x _ => ?_) ∅) fun _ => moves_pure _
    exact moves_bind (hpull _) fun _ => moves_bind moves_read fun s =>
      moves_bind (moves_log fun _ => rfl) fun _ => moves_pure _
  have hpublish : ∀ outputs, Moves SameEvaluating (e.publish node.id outputs) := fun outputs =>
    moves_bind (moves_log fun _ => rfl) fun _ => moves_change fun _ => rfl
  have hemit : ∀ outputs, Moves SameEvaluating
      (e.emit fun run => .nodeEvaluated run node.id outputs) :=
    fun outputs => moves_emit_of_push fun _ => rfl
  exact moves_bind hassemble fun inputs => moves_bind (moves_log_quiet rfl) fun _ =>
    moves_bind (moves_interpret (moves_fire _ hpublish hresume) _) fun outputs =>
      moves_bind (moves_change fun _ => rfl) fun _ =>
        moves_bind (hemit outputs) fun _ => moves_pure outputs

/-- However an evaluation ends, afterwards the same nodes are being evaluated as before. -/
theorem evaluating_runNode (e : Engine) (allowance : Nat) (node : String) :
    Moves SameEvaluating (e.runNode allowance node) := by
  induction allowance generalizing node with
  | zero => exact moves_exhaust
  | succ k ih =>
    rw [runNode]
    split
    · exact moves_fail _
    next n _ =>
      split
      · refine moves_within node (evaluating_evaluate (fun id => moves_pull fun _ => ih id)
          (moves_walk ih k) n) fun s s' h => ?_
        -- The node itself is the last one that was put in front.
        show s'.evaluating.tail = s.evaluating
        rw [show s'.evaluating = node :: s.evaluating from h]
        rfl
      · exact moves_fail _

theorem evaluating_continueFrom (e : Engine) (allowance : Nat) (node : String) :
    Moves SameEvaluating (e.continueFrom allowance node) :=
  moves_walk (e.evaluating_runNode allowance) allowance node

/-- The states of an engine between the calls of its host. -/
inductive Between (e : Engine) : RunState → Prop where
  | initial (c : Context) : Between e (.initial c)
  | runNode {s : RunState} (allowance : Nat) (node : String) :
    Between e s → Between e (e.runNode allowance node s).2
  | continueFrom {s : RunState} (allowance : Nat) (node : String) :
    Between e s → Between e (e.continueFrom allowance node s).2
  | runFrom {s : RunState} (allowance : Nat) (node : String) :
    Between e s → Between e (e.runFrom allowance node s).2
  | runKind {s : RunState} (allowance : Nat) (kind : String) (multiple : Bool) :
    Between e s → Between e (e.runKind allowance kind multiple s).2
  | clearCache {s : RunState} : Between e s → Between e (clearCache s).2
  | setContext {s : RunState} (c : Context) : Between e s → Between e (setContext c s).2

/-- A state in which no node is being evaluated is left for another such state. -/
def StaysIdle (s s' : RunState) : Prop := s.evaluating = [] → s'.evaluating = []

instance : Quiet StaysIdle where
  refl := fun _ h => h
  trans := fun h₁ h₂ h => h₂ (h₁ h)
  push := fun _ _ _ h => h
  context := fun _ _ h => h

theorem staysIdle_runFrom (e : Engine) (allowance : Nat) (node : String) :
    Moves StaysIdle (e.runFrom allowance node) := by
  have hcontinue : Moves StaysIdle (e.continueFrom allowance node) :=
    (e.evaluating_continueFrom allowance node).mono fun s s' h hs => h.trans hs
  have hstart : Moves StaysIdle (e.emit fun run => .runStarted run node) :=
    moves_emit fun _ => rfl
  refine moves_bind (moves_change fun _ _ => rfl) fun _ => moves_bind hstart fun _ =>
    moves_bind (moves_attempt hcontinue) fun r => ?_
  split
  · exact moves_emit fun _ => rfl
  · exact moves_bind (moves_emit fun _ => rfl) fun _ => moves_fail _

/-- Between calls no node is being evaluated. -/
theorem Between.evaluating {s : RunState} (h : e.Between s) : s.evaluating = [] := by
  induction h with
  | initial => rfl
  | runNode allowance node _ ih => exact (e.evaluating_runNode allowance node _).trans ih
  | continueFrom allowance node _ ih => exact (e.evaluating_continueFrom allowance node _).trans ih
  | runFrom allowance node _ ih => exact e.staysIdle_runFrom allowance node _ ih
  | runKind allowance kind multiple _ ih =>
    exact moves_forM _ (fun id _ => e.staysIdle_runFrom allowance id) _ ih
  | clearCache _ ih => exact ih
  | setContext c _ ih => exact ih

end Engine

end Patchbay
