import Patchbay.Proofs.Run.Calls
import Patchbay.Proofs.Run.Reference
import Patchbay.Proofs.Run.Trace

/-!
# What a pull does

A pull evaluates nodes without control ports only, and none that is being evaluated already. Its
steps show this: all of them belong to such nodes, or only tell the host something (`Pulls`). In
particular control does not move, and nothing is published.

Since evaluations that nest are of different nodes, a pull also comes to an end, as soon as the
allowance exceeds the number of nodes that are not being evaluated (`Finishes`).

## Key results

- `pulls_runNode` / `pulls_pull_runNode`: what is done when a node is evaluated that has no control
  ports, and when a node is pulled
- `finishes_runNode`: a large enough allowance is not used up
-/

namespace Patchbay

namespace Engine

open RunM

variable {e : Engine}

/-- Nodes without control ports fire nothing. -/
def Restrained (e : Engine) : Prop := ∀ id node, e.graph.node? id = some node →
  e.graph.usesFlow id = false → ∀ inputs, (e.script node inputs).Silent

/-- The step is that of a pull while the given nodes are being evaluated: it belongs to a node
without control ports that is not among them, or it only tells something. -/
def pulled (e : Engine) (busy : List String) : Step → Bool
  | .received n _ _ _ | .calculated n _ | .event (.nodeEvaluated _ n _) =>
    !e.graph.usesFlow n && !busy.contains n
  | step => step.tells

theorem pulled_of_tells {busy : List String} {step : Step} (h : step.tells = true) :
    e.pulled busy step = true := by
  cases step with
  | undelivered | printed | informed => rfl
  | received | calculated | published | event => cases h

/-- A step of a node that may be pulled. -/
theorem pulled_of_concerns {busy : List String} {node : String} {step : Step}
    (h : step.concerns node = true) (hflow : e.graph.usesFlow node = false) (hnew : node ∉ busy) :
    e.pulled busy step = true := by
  unfold Step.concerns at h
  split at h <;> first
    | obtain rfl := of_decide_eq_true h
      simp [pulled, hflow, hnew]
    | cases h

/-- While fewer nodes are being evaluated, more may be pulled. -/
theorem pulled_of_cons {busy : List String} {node : String} {step : Step}
    (h : e.pulled (node :: busy) step = true) : e.pulled busy step = true := by
  unfold pulled at h ⊢
  split at h
  case h_4 => exact h
  all_goals
    simp only [List.contains_cons, Bool.and_eq_true, Bool.not_eq_true', Bool.or_eq_false_iff] at h ⊢
    exact ⟨h.1, h.2.2⟩

/-- What is pulled is no step of a node that is being evaluated. -/
theorem not_concerns_of_pulled {busy : List String} {node : String} {step : Step}
    (h : e.pulled busy step = true) (hnode : e.graph.usesFlow node = true ∨ node ∈ busy) :
    step.concerns node = false := by
  unfold Step.concerns
  split <;> first
    | rename_i n
      refine decide_eq_false ?_
      rintro rfl
      simp only [pulled, Bool.and_eq_true, Bool.not_eq_true', List.contains_eq_mem,
        decide_eq_false_iff_not] at h
      exact hnode.elim (fun hflow => by simp [hflow] at h) h.2
    | rfl

/-- Between the states the same nodes are being evaluated, and all steps are those of a pull, apart
from some. -/
structure Pulls (e : Engine) (own : Step → Bool) (s s' : RunState) : Prop where
  evaluating : s'.evaluating = s.evaluating
  steps : ∃ steps, s.Made steps s' ∧
    ∀ step ∈ steps, e.pulled s.evaluating step = true ∨ own step = true

section Pulls

variable {own : Step → Bool}

/-- One step that is allowed. -/
theorem Pulls.push (s : RunState) {step : Step}
    (h : e.pulled s.evaluating step = true ∨ own step = true) : e.Pulls own s (s.push step) :=
  ⟨rfl, [step], s.made_push step, fun x hx => by rwa [List.mem_singleton.1 hx]⟩

instance : Telling (e.Pulls own) where
  refl := fun s => ⟨rfl, [], RunState.made_nil rfl, List.forall_mem_nil _⟩
  trans := fun h₁ h₂ => by
    obtain ⟨xs, hxs, hx⟩ := h₁.steps
    obtain ⟨ys, hys, hy⟩ := h₂.steps
    rw [h₁.evaluating] at hy
    exact ⟨h₂.evaluating.trans h₁.evaluating, xs ++ ys, hxs.append hys,
      List.forall_mem_append.2 ⟨hx, hy⟩⟩
  tell := fun s _ h => .push s (.inl (pulled_of_tells h))
  context := fun _ _ => ⟨rfl, [], RunState.made_nil rfl, List.forall_mem_nil _⟩

theorem Pulls.mono {own' : Step → Bool} {s s' : RunState} (h : e.Pulls own s s')
    (hown : ∀ step, own step = true → own' step = true) : e.Pulls own' s s' := by
  obtain ⟨steps, hmade, hall⟩ := h.steps
  exact ⟨h.evaluating, steps, hmade, fun step hstep => (hall step hstep).imp_right (hown step)⟩

/-- None of the steps belongs to a node that is being evaluated. -/
theorem Pulls.exists_foreign {s s' : RunState} (h : e.Pulls (fun _ => false) s s') {node : String}
    (hbusy : node ∈ s.evaluating) :
    ∃ steps, s.Made steps s' ∧ ∀ step ∈ steps, step.concerns node = false := by
  obtain ⟨steps, hmade, hall⟩ := h.steps
  refine ⟨steps, hmade, fun step hstep => ?_⟩
  exact not_concerns_of_pulled ((hall step hstep).resolve_right Bool.false_ne_true) (.inr hbusy)

/-- A pull evaluates a node, if at all, where that has no control ports and is not being evaluated.
-/
theorem pulls_pull {step : String → RunM PortValues}
    (hstep : ∀ id s, e.graph.usesFlow id = false → id ∉ s.evaluating →
      e.Pulls own s (step id s).2) (id : String) : Moves (e.Pulls own) (e.pull step id) := by
  intro s
  simp only [pull, read_bind]
  split
  · exact Composable.refl s
  · split
    · exact Composable.refl s
    next hflow =>
      split
      · exact Composable.refl s
      next hbusy =>
        rw [state_discard]
        exact hstep id s (by simpa using hflow) (by simpa using hbusy)

end Pulls

/-! ### The evaluation of a node without control ports -/

theorem pulls_receive {pull : String → RunM Unit} {node : Node}
    (hpull : ∀ id, Moves (e.Pulls (Step.receives node.id)) (pull id)) (inputs : PortValues)
    (x : WireId × Wire) : Moves (e.Pulls (Step.receives node.id)) (e.receive pull node inputs x) :=
  moves_bind (hpull _) fun _ => moves_bind moves_read fun _ =>
    moves_bind (moves_log fun s => .push s (.inr (decide_eq_true rfl))) fun _ => moves_pure _

/-- While the inputs of a node are assembled, values are taken for it. -/
theorem pulls_assemble {pull : String → RunM Unit} {node : Node}
    (hpull : ∀ id, Moves (e.Pulls (Step.receives node.id)) (pull id)) :
    Moves (e.Pulls (Step.receives node.id)) (e.assemble pull node) :=
  moves_bind (moves_foldlM _ (fun inputs x _ => pulls_receive hpull inputs x) ∅)
    fun _ => moves_pure _

theorem pulls_evaluate {pull resume : String → RunM Unit} {node : Node}
    (hpull : ∀ id, Moves (e.Pulls (Step.receives node.id)) (pull id))
    (hsilent : ∀ inputs, (e.script node inputs).Silent) :
    Moves (e.Pulls (Step.concerns node.id)) (e.evaluate pull resume node) := by
  have hassemble : Moves (e.Pulls (Step.concerns node.id)) (e.assemble pull node) :=
    (pulls_assemble hpull).mono fun s s' h => h.mono fun _ => Step.concerns_of_receives
  have hemit : ∀ outputs, Moves (e.Pulls (Step.concerns node.id))
      (e.emit fun run => .nodeEvaluated run node.id outputs) :=
    fun outputs => moves_emit_of_push fun s => .push s (.inr (decide_eq_true rfl))
  refine moves_bind hassemble fun inputs =>
    moves_bind (moves_log fun s => .push s (.inr (decide_eq_true rfl))) fun _ =>
      moves_bind (moves_interpret_or _ (.inl (hsilent inputs))) fun outputs =>
        moves_bind (moves_change fun s => ?_) fun _ =>
          moves_bind (hemit outputs) fun _ => moves_pure outputs
  exact ⟨rfl, [], RunState.made_nil rfl, List.forall_mem_nil _⟩

/-- The evaluation of a node without control ports is nothing but a pull. -/
theorem pulls_runNode (hrestrained : e.Restrained) (allowance : Nat) {id : String} {s : RunState}
    (hflow : e.graph.usesFlow id = false) (hnew : id ∉ s.evaluating) :
    e.Pulls (fun _ => false) s (e.runNode allowance id s).2 := by
  induction allowance generalizing id s with
  | zero => exact Composable.refl s
  | succ k ih =>
    cases hn : e.graph.node? id with
    | none =>
      simp only [runNode, hn]
      exact Composable.refl s
    | some node =>
      obtain rfl : node.id = id := Graph.id_of_node? hn
      simp only [runNode, hn]
      split
      · have hpull : ∀ id, Moves (e.Pulls (Step.receives node.id)) (e.pull (e.runNode k) id) :=
          pulls_pull fun id s hflow hnew => (ih hflow hnew).mono fun _ h => by cases h
        have heval : Moves (e.Pulls (Step.concerns node.id))
            (e.evaluate (e.pull (e.runNode k)) (e.walk (e.runNode k) k) node) :=
          pulls_evaluate hpull (hrestrained node.id node hn hflow)
        obtain ⟨hsame, steps, hmade, hsteps⟩ :=
          heval { s with evaluating := node.id :: s.evaluating }
        -- For whoever needs the node, the steps of its own are those of a pull too.
        refine ⟨congrArg List.tail hsame, steps, hmade, fun step hstep => .inl ?_⟩
        exact (hsteps step hstep).elim pulled_of_cons fun h => pulled_of_concerns h hflow hnew
      · exact Composable.refl s

/-- What is pulled for a node in a run. -/
theorem pulls_pull_runNode (hrestrained : e.Restrained) (own : Step → Bool) (allowance : Nat)
    (id : String) : Moves (e.Pulls own) (e.pull (e.runNode allowance) id) :=
  pulls_pull (fun _ _ hflow hnew =>
    (pulls_runNode hrestrained allowance hflow hnew).mono fun _ h => by cases h) id

/-! ### Pulls come to an end -/

section Finishes

variable {α β : Type} {busy : List String}

/-- Started while the given nodes are being evaluated, the action does not use up its allowance, and
the same nodes are being evaluated afterwards. -/
def Finishes (busy : List String) (m : RunM α) : Prop :=
  ∀ s, s.evaluating = busy → (m s).1 ≠ .exhausted ∧ (m s).2.evaluating = busy

theorem finishes_pure (a : α) : Finishes busy (pure a : RunM α) := fun _ hs => ⟨nofun, hs⟩

theorem finishes_fail (err : Error) : Finishes busy (fail err : RunM α) := fun _ hs => ⟨nofun, hs⟩

theorem finishes_read : Finishes busy read := fun _ hs => ⟨nofun, hs⟩

theorem finishes_change {f : RunState → RunState} (h : ∀ s, (f s).evaluating = s.evaluating) :
    Finishes busy (change f) := fun s hs => ⟨nofun, (h s).trans hs⟩

theorem finishes_log (step : Step) : Finishes busy (log step) := finishes_change fun _ => rfl

theorem finishes_bind {m : RunM α} {k : α → RunM β} (hm : Finishes busy m)
    (hk : ∀ a, Finishes busy (k a)) : Finishes busy (m >>= k) := by
  intro s hs
  obtain ⟨hend, hsame⟩ := hm s hs
  cases hr : m s with
  | mk r s' =>
    rw [hr] at hend hsame
    cases r with
    | done a =>
      rw [bind_done hr]
      exact hk a s' hsame
    | failed err =>
      rw [bind_failed hr]
      exact ⟨nofun, hsame⟩
    | exhausted => exact absurd rfl hend

theorem finishes_foldlM {γ : Type} {f : β → γ → RunM β} (xs : List γ)
    (hf : ∀ b x, Finishes busy (f b x)) (b : β) : Finishes busy (xs.foldlM f b) := by
  induction xs generalizing b with
  | nil => exact finishes_pure b
  | cons x xs ih =>
    rw [List.foldlM_cons]
    exact finishes_bind (hf b x) ih

theorem finishes_within {node : String} {m : RunM α} (hm : Finishes (node :: busy) m) :
    Finishes busy (within node m) := by
  rintro s rfl
  obtain ⟨hend, hsame⟩ := hm { s with evaluating := node :: s.evaluating } rfl
  exact ⟨hend, congrArg List.tail hsame⟩

theorem finishes_emit (make : String → RunEvent) : Finishes busy (e.emit make) := by
  refine finishes_bind finishes_read fun s => finishes_bind (finishes_log _) fun _ => ?_
  split
  · exact finishes_log _
  · exact finishes_pure ()

/-- A script that fires nothing comes to an end. -/
theorem finishes_interpret {resume : String → RunM Unit} {node : String}
    {flows : Table String String} {script : Script α} (hsilent : script.Silent) :
    Finishes busy (e.interpret resume node flows script) := by
  induction script with
  | done a => exact finishes_pure a
  | fail err => exact finishes_fail err
  | fire port outputs next _ => exact hsilent.elim
  | consult key next ih => exact finishes_bind finishes_read fun s => ih _ (hsilent _)
  | store key entry next ih =>
    exact finishes_bind (finishes_change fun _ => rfl) fun _ => ih hsilent
  | print line next ih =>
    refine finishes_bind finishes_read fun s => ?_
    split
    · exact finishes_bind (finishes_log _) fun _ => ih hsilent
    · exact ih hsilent
  | inform line next ih => exact finishes_bind (finishes_log _) fun _ => ih hsilent

theorem finishes_pull {step : String → RunM PortValues}
    (hstep : ∀ id, e.graph.usesFlow id = false → id ∉ busy → Finishes busy (step id))
    (id : String) : Finishes busy (e.pull step id) := by
  intro s hs
  simp only [pull, read_bind]
  split
  · exact finishes_pure () s hs
  · split
    · exact finishes_fail _ s hs
    next hflow =>
      split
      · exact finishes_fail _ s hs
      next hnew =>
        have hid := hstep id (by simpa using hflow) (by simpa [hs] using hnew)
        exact finishes_bind hid (fun _ => finishes_pure ()) s hs

theorem finishes_receive {pull : String → RunM Unit} (hpull : ∀ id, Finishes busy (pull id))
    (node : Node) (inputs : PortValues) (x : WireId × Wire) :
    Finishes busy (e.receive pull node inputs x) :=
  finishes_bind (hpull _) fun _ => finishes_bind finishes_read fun _ =>
    finishes_bind (finishes_log _) fun _ => finishes_pure _

/-- The number of nodes that are not being evaluated. -/
def idle (e : Engine) (busy : List String) : Nat := e.graph.ids.countP fun id => !busy.contains id

theorem idle_cons_lt {id : String} (hid : id ∈ e.graph.ids) (hnew : id ∉ busy) :
    e.idle (id :: busy) < e.idle busy :=
  Graph.countP_lt_countP hid (by simpa using hnew) (by simp) fun x hx => by
    simp only [List.contains_cons, Bool.not_eq_true', Bool.or_eq_false_iff] at hx ⊢
    exact hx.2

/-- While a node is being evaluated, not all nodes are idle. -/
theorem idle_lt_length {id : String} (hid : id ∈ e.graph.ids) (hbusy : id ∈ busy) :
    e.idle busy < e.graph.nodes.length := by
  have h : e.idle busy < e.graph.ids.countP fun _ => true :=
    Graph.countP_lt_countP hid rfl (by simpa using hbusy) fun _ _ => rfl
  simpa [Graph.ids] using h

/-- Nested evaluations are of different nodes, so a node without control ports is evaluated with any
allowance beyond the number of idle nodes. -/
theorem finishes_runNode (hrestrained : e.Restrained) {allowance : Nat} {id : String}
    (hflow : e.graph.usesFlow id = false) (hnew : id ∉ busy)
    (hallowance : e.idle busy < allowance) : Finishes busy (e.runNode allowance id) := by
  induction allowance generalizing id busy with
  | zero => exact absurd hallowance (Nat.not_lt_zero _)
  | succ k ih =>
    cases hn : e.graph.node? id with
    | none =>
      simp only [runNode, hn]
      exact finishes_fail _
    | some node =>
      obtain rfl : node.id = id := Graph.id_of_node? hn
      have hid : node.id ∈ e.graph.ids := (Graph.mem_ids_iff _ _).2 (by rw [hn]; rfl)
      -- While the node is evaluated, there is one less that is idle.
      have hless := idle_cons_lt hid hnew
      have hpull : ∀ x, Finishes (node.id :: busy) (e.pull (e.runNode k) x) :=
        finishes_pull fun x hx hxnew => ih hx hxnew (by omega)
      simp only [runNode, hn]
      split
      · have hassemble : Finishes (node.id :: busy) (e.assemble (e.pull (e.runNode k)) node) :=
          finishes_bind (finishes_foldlM _ (finishes_receive hpull node) ∅)
            fun _ => finishes_pure _
        exact finishes_within <| finishes_bind hassemble fun inputs =>
          finishes_bind (finishes_log _) fun _ =>
            finishes_bind (finishes_interpret (hrestrained node.id node hn hflow inputs))
              fun outputs => finishes_bind (finishes_change fun _ => rfl) fun _ =>
                finishes_bind (finishes_emit _) fun _ => finishes_pure outputs
      · exact finishes_fail _

end Finishes

end Engine

end Patchbay
