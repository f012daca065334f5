import Patchbay.Proofs.Check.Circular
import Patchbay.Proofs.Run.Pulls

/-!
# Where errors come from

An action that fails has a part that failed. The lemmas here go from the whole to that part, and say
what is being evaluated when the part is started: the same nodes as at the start of the whole, and
in an evaluation also its own node.

Errors of calculations aside, the error that a node is needed which is being evaluated comes from a
pull. What is evaluated at that moment is either a chain of nodes without control ports, each of
which feeds the one before, or has a control port and came by the flow of control. So the error is
found only on a cycle of nodes without control ports.

## Key results

- `failed_of_evaluate` / `failed_of_walk`: the part of an evaluation or of a flow that has failed
- `onFreeCycle_of_failed`: where a node is needed that is being evaluated, there is a cycle
-/

namespace Patchbay

namespace Script

variable {α β : Type}

/-- The script fails with errors that it has heard of, or because its calculation reports a failure,
and not otherwise. It hears of errors by firing control outputs. -/
def Candid (heard : Error → Prop) : Script α → Prop
  | done _ => True
  | fail err => heard err ∨ ∃ node message, err = .calculation node message
  | fire _ _ next => ∀ r, (next r).Candid fun err => heard err ∨ r = .error err
  | consult _ next => ∀ r, (next r).Candid heard
  | store _ _ next => next.Candid heard
  | print _ next => next.Candid heard
  | inform _ next => next.Candid heard

theorem Candid.mono {heard heard' : Error → Prop} {script : Script α} (h : script.Candid heard)
    (hmono : ∀ err, heard err → heard' err) : script.Candid heard' := by
  induction script generalizing heard heard' with
  | done a => trivial
  | fail err => exact h.imp_left (hmono err)
  | fire port outputs next ih => exact fun r => ih r (h r) fun err => Or.imp_left (hmono err)
  | consult key next ih => exact fun r => ih r (h r) hmono
  | store key entry next ih => exact ih h hmono
  | print line next ih => exact ih h hmono
  | inform line next ih => exact ih h hmono

/-- Candid parts make a candid whole. -/
theorem candid_bind {heard : Error → Prop} {script : Script α} {k : α → Script β}
    (h : script.Candid heard) (hk : ∀ a, (k a).Candid heard) : (script.bind k).Candid heard := by
  induction script generalizing heard with
  | done a => exact hk a
  | fail err => exact h
  | fire port outputs next ih =>
    exact fun r => ih r (h r) fun a => (hk a).mono fun err => Or.inl
  | consult key next ih => exact fun r => ih r (h r) hk
  | store key entry next ih => exact ih h hk
  | print line next ih => exact ih h hk
  | inform line next ih => exact ih h hk

/-- A failure that is passed on was heard of. -/
theorem candid_proceed (heard : Error → Prop) (port : String) (outputs : Option PortValues) :
    (proceed port outputs).Candid heard := by
  intro r
  cases r with
  | ok _ => trivial
  | error err => exact .inl (.inr rfl)

end Script

namespace RunM

variable {α β γ : Type} {m : RunM α} {k : α → RunM β} {s : RunState} {err : Error}

theorem failed_of_bind (h : ((m >>= k) s).1 = .failed err) :
    (m s).1 = .failed err ∨ ∃ a s', m s = (.done a, s') ∧ (k a s').1 = .failed err := by
  cases hm : m s with
  | mk r s' =>
    cases r with
    | done a =>
      rw [bind_done hm] at h
      exact .inr ⟨a, s', rfl, h⟩
    | failed first =>
      rw [bind_failed hm] at h
      obtain rfl := Outcome.failed.inj h
      exact .inl rfl
    | exhausted =>
      rw [bind_exhausted hm] at h
      cases h

theorem failed_of_discard (h : ((discard m) s).1 = .failed err) : (m s).1 = .failed err := by
  rcases failed_of_bind h with h | ⟨a, s', _, h⟩
  · exact h
  · cases h

theorem ne_failed_of_attempt (m : RunM α) (s : RunState) (err : Error) :
    (attempt m s).1 ≠ .failed err := by
  unfold attempt
  cases m s with
  | mk r s' => cases r <;> nofun

theorem failed_of_attempt_done {first : Error} {s' : RunState}
    (h : attempt m s = (.done (.error first), s')) : (m s).1 = .failed first := by
  unfold attempt at h
  split at h
  next => cases h
  next e _ hm =>
    obtain rfl := Except.error.inj (Outcome.done.inj (Prod.mk.inj h).1)
    rw [hm]
  next => cases h

end RunM

namespace Engine

open RunM

variable {e : Engine} {s : RunState} {err : Error}

/-- The calculations fail with errors they have heard of, or report failures of their own. -/
def Candid (e : Engine) : Prop := ∀ id node, e.graph.node? id = some node →
  ∀ inputs, (e.script node inputs).Candid fun _ => False

/-! ### Parts of an evaluation -/

theorem ne_failed_of_emit (make : String → RunEvent) : (e.emit make s).1 ≠ .failed err := by
  cases hr : e.refusal <;> simp [emit, hr]

theorem failed_of_foldlM {R : RunState → RunState → Prop} [Composable R] {β γ : Type}
    {f : β → γ → RunM β} {xs : List γ} {b : β} (hf : ∀ b, ∀ x ∈ xs, Moves R (f b x))
    (h : (xs.foldlM f b s).1 = .failed err) :
    ∃ x ∈ xs, ∃ b' t, R s t ∧ (f b' x t).1 = .failed err := by
  induction xs generalizing b s with
  | nil => cases h
  | cons x xs ih =>
    rw [List.foldlM_cons] at h
    rcases failed_of_bind h with h | ⟨b', s', hx, h⟩
    · exact ⟨x, List.mem_cons_self, b, s, Composable.refl s, h⟩
    · obtain ⟨y, hy, b'', t, ht, h⟩ := ih (fun b y hy => hf b y (List.mem_cons_of_mem _ hy)) h
      have hfirst := hf b x List.mem_cons_self s
      rw [hx] at hfirst
      exact ⟨y, List.mem_cons_of_mem _ hy, b'', t, Composable.trans hfirst ht, h⟩

theorem evaluating_receive {pull : String → RunM Unit}
    (hpull : ∀ id, Moves SameEvaluating (pull id)) (node : Node) (inputs : PortValues) (x : WireId × Wire) :
    Moves SameEvaluating (e.receive pull node inputs x) :=
  moves_bind (hpull _) fun _ => moves_bind moves_read fun _ =>
    moves_bind (moves_log fun _ => rfl) fun _ => moves_pure _

/-- The inputs of a node are not there because a source could not be pulled. -/
theorem failed_of_assemble {R : RunState → RunState → Prop} [Composable R]
    {pull : String → RunM Unit} {node : Node}
    (hreceive : ∀ inputs, ∀ x ∈ e.graph.dataWires node.id, Moves R (e.receive pull node inputs x))
    (h : (e.assemble pull node s).1 = .failed err) :
    ∃ m, e.graph.Feeds m node.id ∧ ∃ t, R s t ∧ (pull m t).1 = .failed err := by
  rcases failed_of_bind h with h | ⟨_, _, _, h⟩
  · obtain ⟨x, hx, inputs, t, ht, h⟩ := failed_of_foldlM hreceive h
    rcases failed_of_bind h with h | ⟨_, _, _, h⟩
    · exact ⟨x.2.source, Graph.feeds_of_mem_dataWires hx, t, ht, h⟩
    · cases h
  · cases h

/-- A pull fails because the node has to be run first, or is being evaluated, or fails itself. -/
theorem failed_of_pull {step : String → RunM PortValues} {id : String}
    (h : (e.pull step id s).1 = .failed err) :
    err = .notRun id ∨ e.graph.usesFlow id = false ∧
      (err = .dataCycle id ∧ id ∈ s.evaluating ∨ (step id s).1 = .failed err) := by
  simp only [pull, read_bind] at h
  split at h
  · cases h
  · split at h
    · exact .inl (Outcome.failed.inj h).symm
    next hflow =>
      refine .inr ⟨by simpa using hflow, ?_⟩
      split at h
      next hbusy => exact .inl ⟨(Outcome.failed.inj h).symm, by simpa using hbusy⟩
      · exact .inr (failed_of_discard h)

/-- Control stops where the evaluation of a node fails that it has come to. -/
theorem failed_of_walk {step : String → RunM PortValues}
    (hstep : ∀ id, Moves SameEvaluating (step id)) {allowance : Nat} {node : String}
    (h : (e.walk step allowance node s).1 = .failed err) :
    ∃ id t, e.graph.Onward node id ∧ t.evaluating = s.evaluating ∧ (step id t).1 = .failed err := by
  induction allowance generalizing node s with
  | zero => cases h
  | succ n ih =>
    rcases failed_of_bind h with h | ⟨_, s', hdone, h⟩
    · exact ⟨node, s, .refl, rfl, failed_of_discard h⟩
    · cases hnext : e.graph.nextInFlow? node with
      | none =>
        simp only [hnext] at h
        cases h
      | some next =>
        simp only [hnext] at h
        obtain ⟨id, t, honward, ht, h⟩ := ih h
        have hsame := hstep node s
        rw [← state_discard, hdone] at hsame
        exact ⟨id, t, .head hnext honward, ht.trans hsame, h⟩

section Fire

variable {resume : String → RunM Unit} {node : String} {flows : Table String String}

/-- What goes wrong in firing an output goes wrong after it, where the output leads. -/
theorem failed_of_fire {port : String} {outputs : Option PortValues}
    (h : (e.fire resume node flows port outputs s).1 = .failed err) :
    ∃ target t, flows.find? port = some target ∧ t.evaluating = s.evaluating ∧
      (resume target t).1 = .failed err := by
  cases hport : flows.find? port with
  | none =>
    simp only [fire, hport] at h
    cases h
  | some target =>
    have hemit : ∀ t, t.evaluating = s.evaluating →
        ((e.emit (fun run => .flowFired run node port target) >>= fun _ => resume target) t).1 =
          .failed err → ∃ t, t.evaluating = s.evaluating ∧
            (resume target t).1 = .failed err := by
      intro t ht h
      rcases failed_of_bind h with h | ⟨_, t', hdone, h⟩
      · exact absurd h (ne_failed_of_emit _)
      · have hmoves : Moves SameEvaluating (e.emit fun run => .flowFired run node port target) :=
          moves_emit_of_push fun _ => rfl
        have hsame := hmoves t
        rw [hdone] at hsame
        exact ⟨t', hsame.trans ht, h⟩
    suffices ∃ t, t.evaluating = s.evaluating ∧ (resume target t).1 = .failed err by
      obtain ⟨t, ht, h⟩ := this
      exact ⟨target, t, rfl, ht, h⟩
    cases outputs with
    | none =>
      simp only [fire, hport] at h
      exact hemit s rfl h
    | some o =>
      simp only [fire, hport, publish, bind_assoc, log_bind, change_bind] at h
      apply hemit _ _ h
      rfl

theorem evaluating_fire (hresume : ∀ id, Moves SameEvaluating (resume id)) (port : String)
    (outputs : Option PortValues) :
    Moves SameEvaluating (e.fire resume node flows port outputs) :=
  moves_fire flows (fun _ => moves_bind (moves_log fun _ => rfl) fun _ => moves_change fun _ => rfl)
    hresume port outputs

/-- A candid script fails with what it has heard before, with a failure of its own, or with what it
hears when it fires an output. -/
theorem failed_of_interpret {α : Type} (hresume : ∀ id, Moves SameEvaluating (resume id))
    {heard : Error → Prop} {script : Script α} (hcandid : script.Candid heard)
    (h : (e.interpret resume node flows script s).1 = .failed err) :
    (heard err ∨ ∃ node message, err = .calculation node message) ∨
      ¬ script.Silent ∧ ∃ port target t, flows.find? port = some target ∧
        t.evaluating = s.evaluating ∧ (resume target t).1 = .failed err := by
  induction script generalizing heard s with
  | done a => cases h
  | fail first =>
    obtain rfl := Outcome.failed.inj h
    exact .inl hcandid
  | fire port outputs next ih =>
    rcases failed_of_bind h with h | ⟨r, s', hfire, h⟩
    · exact absurd h (ne_failed_of_attempt _ _ _)
    · have hsame : s'.evaluating = s.evaluating := by
        have hmoves : Moves SameEvaluating (e.fire resume node flows port outputs) :=
          evaluating_fire hresume port outputs
        have hsame := hmoves s
        rwa [← state_attempt, hfire] at hsame
      rcases ih r (hcandid r) h with ((hheard | hr) | hown) | ⟨_, other, target, t, hflow, ht, h⟩
      · exact .inl (.inl hheard)
      · subst hr
        exact .inr ⟨id, port, failed_of_fire (failed_of_attempt_done hfire)⟩
      · exact .inl (.inr hown)
      · exact .inr ⟨id, other, target, t, hflow, ht.trans hsame, h⟩
  | consult key next ih =>
    exact (ih _ (hcandid _) h).imp_right fun ⟨hloud, hfailed⟩ =>
      ⟨fun hsilent => hloud (hsilent _), hfailed⟩
  | store key entry next ih =>
    exact ih (s := { s with context := s.context.insert key entry }) hcandid h
  | print line next ih =>
    simp only [interpret, read_bind] at h
    split at h
    · exact ih (s := s.push (.printed line)) hcandid h
    · exact ih hcandid h
  | inform line next ih => exact ih (s := s.push (.informed line)) hcandid h

end Fire

/-- An evaluation fails because a source could not be pulled, or because the calculation reports a
failure, or with what was heard when an output was fired. -/
theorem failed_of_evaluate {pull resume : String → RunM Unit}
    (hpull : ∀ id, Moves SameEvaluating (pull id))
    (hresume : ∀ id, Moves SameEvaluating (resume id)) {node : Node}
    (hcandid : ∀ inputs, (e.script node inputs).Candid fun _ => False)
    (h : (e.evaluate pull resume node s).1 = .failed err) :
    (∃ node message, err = .calculation node message) ∨
      (∃ m, e.graph.Feeds m node.id ∧ ∃ t, t.evaluating = s.evaluating ∧
        (pull m t).1 = .failed err) ∨
      (∃ inputs, ¬ (e.script node inputs).Silent) ∧ ∃ port target t,
        (e.flows node).find? port = some target ∧ t.evaluating = s.evaluating ∧
          (resume target t).1 = .failed err := by
  rcases failed_of_bind h with h | ⟨inputs, s₁, hinputs, h⟩
  · exact .inr (.inl (failed_of_assemble (R := SameEvaluating)
      (fun inputs x _ => evaluating_receive hpull node inputs x) h))
  · have hassemble : Moves SameEvaluating (e.assemble pull node) :=
      moves_bind (moves_foldlM _ (fun b x _ => evaluating_receive hpull node b x) ∅)
        fun _ => moves_pure _
    have hsame := hassemble s
    rw [hinputs] at hsame
    simp only [log_bind] at h
    rcases failed_of_bind h with h | ⟨outputs, s₂, _, h⟩
    · rcases failed_of_interpret hresume (hcandid inputs) h with
        (hnone | hown) | ⟨hloud, port, target, t, hflow, ht, h⟩
      · exact hnone.elim
      · exact .inl hown
      · exact .inr (.inr ⟨⟨inputs, hloud⟩, port, target, t, hflow, ht.trans hsame, h⟩)
    · simp only [change_bind] at h
      rcases failed_of_bind h with h | ⟨_, _, _, h⟩
      · exact absurd h (ne_failed_of_emit _)
      · cases h

/-! ### Nodes that are needed while they are evaluated -/

/-- All nodes without control ports among those that are being evaluated get values from this one,
over nodes without control ports. -/
def Chained (e : Engine) (id : String) (s : RunState) : Prop :=
  ∀ x ∈ s.evaluating, e.graph.usesFlow x = false → Relation.TransGen e.graph.FreeFeeds id x

/-- While a node with a control port is evaluated, only such nodes are. -/
theorem Chained.usesFlow {id : String} {t : RunState} (h : e.Chained id s)
    (hflow : e.graph.usesFlow id = true) (ht : t.evaluating = id :: s.evaluating) :
    ∀ x ∈ t.evaluating, e.graph.usesFlow x = true := by
  intro x hx
  rw [ht] at hx
  rcases List.mem_cons.1 hx with rfl | hx
  · exact hflow
  · refine Bool.not_eq_false _ |>.mp fun hfree => ?_
    rw [Graph.usesFlow_of_transGen (h x hx hfree)] at hflow
    cases hflow

/-- A source without control ports is pulled. -/
theorem Chained.pull {id m : String} {t : RunState} (h : e.Chained id s)
    (ht : t.evaluating = id :: s.evaluating) (hfeeds : e.graph.Feeds m id)
    (hm : e.graph.usesFlow m = false) : e.Chained m t := by
  intro x hx hfree
  cases hflow : e.graph.usesFlow id with
  | true =>
    rw [h.usesFlow hflow ht x hx] at hfree
    cases hfree
  | false =>
    have hfirst : e.graph.FreeFeeds m id := ⟨hfeeds, hm, hflow⟩
    rw [ht] at hx
    rcases List.mem_cons.1 hx with rfl | hx
    · exact .single hfirst
    · exact .head hfirst (h x hx hfree)

/-- The error that a node is needed which is being evaluated names a node on a cycle of nodes
without control ports. -/
theorem onFreeCycle_of_failed (hrestrained : e.Restrained) (hcandid : e.Candid) {allowance : Nat}
    {id n : String} (hs : e.Chained id s)
    (h : (e.runNode allowance id s).1 = .failed (.dataCycle n)) : e.graph.OnFreeCycle n := by
  induction allowance generalizing id s with
  | zero => cases h
  | succ k ih =>
    cases hn : e.graph.node? id with
    | none =>
      simp only [runNode, hn] at h
      cases h
    | some node =>
      obtain rfl : node.id = id := Graph.id_of_node? hn
      have hstep := e.evaluating_runNode k
      simp only [runNode, hn] at h
      split at h
      · rw [within_apply] at h
        obtain ⟨_, _, herr⟩ | ⟨m, hfeeds, t, ht, h⟩ | ⟨⟨inputs, hloud⟩, _, target, t, _, ht, h⟩ :=
          failed_of_evaluate (fun id => moves_pull fun _ => hstep id) (moves_walk hstep k)
            (hcandid node.id node hn) h
        · cases herr
        -- The source is being evaluated, or the error comes from its evaluation.
        · rcases failed_of_pull h with herr | ⟨hm, ⟨herr, hbusy⟩ | h⟩
          · cases herr
          · obtain rfl := Error.dataCycle.inj herr
            exact hs.pull ht hfeeds hm n hbusy hm
          · exact ih (hs.pull ht hfeeds hm) h
        -- Only nodes with control ports fire, and then only such nodes are being evaluated.
        · have hflow : e.graph.usesFlow node.id = true :=
            Bool.not_eq_false _ |>.mp fun hfree => hloud (hrestrained node.id node hn hfree inputs)
          obtain ⟨next, t', _, ht', h⟩ := failed_of_walk hstep h
          refine ih (fun x hx hfree => ?_) h
          rw [ht'] at hx
          rw [hs.usesFlow hflow ht x hx] at hfree
          cases hfree
      · cases h

end Engine

end Patchbay
