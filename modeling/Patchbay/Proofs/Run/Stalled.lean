import Patchbay.Proofs.Check.Circular
import Patchbay.Proofs.Run.Unpulled

/-!
# Circular nodes are never evaluated

A circular node gets values from a circular node. So as long as no circular node has outputs, none
gets any: before it is calculated, each of its sources has to be pulled, and one of them has no
outputs either. `Stalled` says this of a state, and all parts of a run keep to it.

## Key results

- `leads_runNode_stalled`: an evaluation leaves circular nodes without outputs, and ends with a
  result only if its node is not circular
- `Between.stalled`: between calls circular nodes have no outputs, and were never calculated
- `exists_failed_runNode`: the evaluation of a circular node fails
-/

namespace Patchbay

/-- With the step a node has outputs, or its calculation starts. -/
def Step.produces (node : String) : Step → Bool
  | calculated n _ => n = node
  | step => step.writes node

theorem Step.produces_of_tells {node : String} {step : Step} (h : step.tells = true) :
    step.produces node = false := by
  cases step with
  | undelivered | printed | informed => rfl
  | received | calculated | published | event => cases h

/-- What is shown of each element of a list in turn is shown of all of them. -/
theorem RunM.leads_foldlM {β γ : Type} {f : β → γ → RunM β} {P : RunState → Prop} {A : γ → Prop}
    {xs : List γ} (hf : ∀ b, ∀ x ∈ xs, Leads P (f b x) (fun s => P s ∧ A x) P) (b : β) :
    Leads P (xs.foldlM f b) (fun s => P s ∧ ∀ x ∈ xs, A x) P := by
  induction xs generalizing b with
  | nil =>
    intro s hs
    refine ⟨hs, fun a s' h => ⟨?_, List.forall_mem_nil _⟩⟩
    cases h
    exact hs
  | cons x xs ih =>
    rw [List.foldlM_cons]
    apply leads_bind (hf b x List.mem_cons_self)
    intro b' s ⟨hs, hx⟩
    obtain ⟨hend, hdone⟩ := ih (fun b y hy => hf b y (List.mem_cons_of_mem _ hy)) b' s hs
    refine ⟨hend, fun a s' h => ?_⟩
    obtain ⟨hkept, hall⟩ := hdone a s' h
    exact ⟨hkept, List.forall_mem_cons.2 ⟨hx, hall⟩⟩

namespace Engine

open RunM

variable {e : Engine} {past : List Step} {s : RunState}

/-- Circular nodes have no outputs, and none of the steps after the given ones calculates one or
gives it outputs. -/
structure Stalled (e : Engine) (past : List Step) (s : RunState) : Prop where
  cache : ∀ n, e.graph.Circular n → s.cache.find? n = none
  steps : s.Since past fun steps =>
    ∀ step ∈ steps, ∀ n, e.graph.Circular n → step.produces n = false

/-- What leads from one stalled state to another. -/
def StaysStalled (e : Engine) (past : List Step) (s s' : RunState) : Prop :=
  e.Stalled past s → e.Stalled past s'

theorem Stalled.push (h : e.Stalled past s) {step : Step}
    (hstep : ∀ n, e.graph.Circular n → step.produces n = false) : e.Stalled past (s.push step) := by
  refine ⟨h.cache, h.steps.made (s.made_push step) fun steps hsteps => ?_⟩
  exact List.forall_mem_append.2 ⟨hsteps, List.forall_mem_singleton.2 hstep⟩

instance : Telling (e.StaysStalled past) where
  refl := fun _ h => h
  trans := fun h₁ h₂ h => h₂ (h₁ h)
  tell := fun _ _ hstep h => h.push fun _ _ => Step.produces_of_tells hstep
  context := fun _ _ h => ⟨h.cache, h.steps⟩

/-! ### Parts of an evaluation -/

/-- A node that is pulled has outputs, or gets them. -/
theorem leads_pull_stalled {step : String → RunM PortValues} {id : String}
    (hstep : Leads (e.Stalled past) (step id)
      (fun s => e.Stalled past s ∧ ¬ e.graph.Circular id) (e.Stalled past)) :
    Leads (e.Stalled past) (e.pull step id)
      (fun s => e.Stalled past s ∧ ¬ e.graph.Circular id) (e.Stalled past) := by
  intro s hs
  simp only [pull, read_bind]
  by_cases hcache : s.cache.contains id = true
  · rw [if_pos hcache]
    refine ⟨hs, fun a s' h => ?_⟩
    cases h
    refine ⟨hs, fun hcircular => ?_⟩
    simp [Table.contains, hs.cache id hcircular] at hcache
  · rw [if_neg hcache]
    by_cases hflow : e.graph.usesFlow id = true
    · rw [if_pos hflow]
      exact leads_fail _ (fun _ h => h) s hs
    · rw [if_neg hflow]
      by_cases hbusy : s.evaluating.contains id = true
      · rw [if_pos hbusy]
        exact leads_fail _ (fun _ h => h) s hs
      · rw [if_neg hbusy]
        exact leads_bind hstep (fun _ => leads_pure () fun _ h => h.1) s hs

/-- Inputs are there only for nodes that are not circular. -/
theorem leads_assemble_stalled {pull : String → RunM Unit} {node : Node}
    (hpull : ∀ id, Leads (e.Stalled past) (pull id)
      (fun s => e.Stalled past s ∧ ¬ e.graph.Circular id) (e.Stalled past)) :
    Leads (e.Stalled past) (e.assemble pull node)
      (fun s => e.Stalled past s ∧ ¬ e.graph.Circular node.id) (e.Stalled past) := by
  have hreceive : ∀ inputs, ∀ x ∈ e.graph.dataWires node.id,
      Leads (e.Stalled past) (e.receive pull node inputs x)
        (fun s => e.Stalled past s ∧ ¬ e.graph.Circular x.2.source) (e.Stalled past) := by
    intro inputs x _
    apply leads_bind (hpull x.2.source)
    intro _ s ⟨hs, hsource⟩
    have hpushed : ∀ value cache, e.Stalled past (s.push (.received node.id x.1 value cache)) :=
      fun value cache => hs.push fun _ _ => rfl
    refine ⟨hpushed _ _, fun a s' h => ?_⟩
    cases h
    exact ⟨hpushed _ _, hsource⟩
  apply leads_bind (leads_foldlM hreceive ∅)
  intro received s ⟨hs, hsources⟩
  refine ⟨hs, fun a s' h => ?_⟩
  cases h
  refine ⟨hs, fun hcircular => ?_⟩
  -- One of the sources would be circular.
  obtain ⟨m, hm, hfeeds⟩ := hcircular.exists_feeds
  obtain ⟨i, w, hw, rfl⟩ := Graph.exists_dataWire_of_feeds hfeeds
  exact hsources (i, w) hw hm

theorem moves_publish_stalled {node : String} (hnode : ¬ e.graph.Circular node)
    (outputs : PortValues) : Moves (e.StaysStalled past) (e.publish node outputs) := by
  have hpush : Moves (e.StaysStalled past) (log (.published node outputs)) :=
    moves_log fun s hs => hs.push fun n hn => decide_eq_false fun heq => hnode (heq ▸ hn)
  refine moves_bind hpush fun _ => moves_change fun s hs => ⟨fun n hn => ?_, hs.steps⟩
  have hne : n ≠ node := fun heq => hnode (heq ▸ hn)
  refine (Table.find?_eraseAll id _ _ n).trans ?_
  rw [Table.find?_insert, if_neg hne, hs.cache n hn, ite_self]

/-- The evaluation of a node that is not circular gives outputs to that node. -/
theorem leads_evaluate_stalled {pull resume : String → RunM Unit} {node : Node}
    (hpull : ∀ id, Leads (e.Stalled past) (pull id)
      (fun s => e.Stalled past s ∧ ¬ e.graph.Circular id) (e.Stalled past))
    (hresume : ∀ id, Moves (e.StaysStalled past) (resume id)) :
    Leads (e.Stalled past) (e.evaluate pull resume node)
      (fun s => e.Stalled past s ∧ ¬ e.graph.Circular node.id) (e.Stalled past) := by
  apply leads_bind (leads_assemble_stalled hpull)
  intro inputs s ⟨hs, hnode⟩
  have hother : ∀ n, e.graph.Circular n → n ≠ node.id := fun n hn heq => hnode (heq ▸ hn)
  have hcalculated : Moves (e.StaysStalled past) (log (.calculated node.id inputs)) :=
    moves_log fun s hs => hs.push fun n hn => decide_eq_false (hother n hn).symm
  have hinterpret : Moves (e.StaysStalled past)
      (e.interpret resume node.id (e.flows node) (e.script node inputs)) :=
    moves_interpret (fun port outputs => moves_fire_of_push _ (moves_publish_stalled hnode)
      (fun s port target hs => hs.push fun _ _ => rfl) hresume port outputs) _
  have hchange : ∀ outputs, Moves (e.StaysStalled past)
      (change fun s => { s with cache := s.cache.insert node.id outputs }) := by
    refine fun outputs => moves_change fun s hs => ⟨fun n hn => ?_, hs.steps⟩
    rw [Table.find?_insert, if_neg (hother n hn)]
    exact hs.cache n hn
  have hemit : ∀ outputs, Moves (e.StaysStalled past)
      (e.emit fun run => .nodeEvaluated run node.id outputs) :=
    fun outputs => moves_emit_of_push fun s hs =>
      hs.push fun n hn => decide_eq_false (hother n hn).symm
  have hrest := moves_bind hcalculated fun _ => moves_bind hinterpret fun outputs =>
    moves_bind (hchange outputs) fun _ => moves_bind (hemit outputs) fun _ => moves_pure outputs
  refine ⟨hrest s hs, fun out s' h => ⟨?_, hnode⟩⟩
  have hstate : _ = s' := congrArg Prod.snd h
  rw [← hstate]
  exact hrest s hs

/-- However an evaluation ends, circular nodes are still without outputs; and it ends with a result
only if its node is not circular. -/
theorem leads_runNode_stalled (e : Engine) (past : List Step) (allowance : Nat) (id : String) :
    Leads (e.Stalled past) (e.runNode allowance id)
      (fun s => e.Stalled past s ∧ ¬ e.graph.Circular id) (e.Stalled past) := by
  induction allowance generalizing id with
  | zero => exact leads_exhaust fun _ h => h
  | succ k ih =>
    rw [runNode]
    split
    · exact leads_fail _ fun _ h => h
    next node hn =>
      obtain rfl : node.id = id := Graph.id_of_node? hn
      split
      · intro s hs
        have hstep : ∀ id, Moves (e.StaysStalled past) (e.runNode k id) :=
          fun id s hs => (ih id s hs).1
        have hevaluate : Leads (e.Stalled past)
            (e.evaluate (e.pull (e.runNode k)) (e.walk (e.runNode k) k) node)
            (fun s => e.Stalled past s ∧ ¬ e.graph.Circular node.id) (e.Stalled past) :=
          leads_evaluate_stalled (fun id => leads_pull_stalled (ih id)) (moves_walk hstep k)
        replace hevaluate := hevaluate { s with evaluating := node.id :: s.evaluating }
          ⟨hs.cache, hs.steps⟩
        rw [within_apply]
        refine ⟨⟨hevaluate.1.cache, hevaluate.1.steps⟩, fun out s' h => ?_⟩
        obtain ⟨hout, rfl⟩ := Prod.mk.inj h
        obtain ⟨hdone, hnode⟩ := hevaluate.2 out _ (Prod.ext hout rfl)
        exact ⟨⟨hdone.cache, hdone.steps⟩, hnode⟩
      · exact leads_fail _ fun _ h => h

theorem staysStalled_runNode (e : Engine) (past : List Step) (allowance : Nat) (id : String) :
    Moves (e.StaysStalled past) (e.runNode allowance id) :=
  fun s hs => (e.leads_runNode_stalled past allowance id s hs).1

theorem staysStalled_runFrom (e : Engine) (past : List Step) (allowance : Nat) (id : String) :
    Moves (e.StaysStalled past) (e.runFrom allowance id) := by
  have hcontinue : Moves (e.StaysStalled past) (e.continueFrom allowance id) :=
    moves_walk (e.staysStalled_runNode past allowance) allowance id
  refine moves_bind (moves_change fun s hs => ⟨fun _ _ => Table.find?_empty _, hs.steps⟩) fun _ =>
    moves_bind (moves_emit_of_push fun s hs => hs.push fun _ _ => rfl) fun _ =>
      moves_bind (moves_attempt hcontinue) fun r => ?_
  split
  · exact moves_emit_of_push fun s hs => hs.push fun _ _ => rfl
  · exact moves_bind (moves_emit_of_push fun s hs => hs.push fun _ _ => rfl) fun _ => moves_fail _

/-- Between calls circular nodes have no outputs, and never had. -/
theorem Between.stalled (h : e.Between s) : e.Stalled [] s := by
  induction h with
  | initial c => exact ⟨fun _ _ => Table.find?_empty _, [], rfl, List.forall_mem_nil _⟩
  | runNode allowance node _ ih => exact e.staysStalled_runNode [] allowance node _ ih
  | continueFrom allowance node _ ih =>
    exact moves_walk (e.staysStalled_runNode [] allowance) allowance node _ ih
  | runFrom allowance node _ ih => exact e.staysStalled_runFrom [] allowance node _ ih
  | runKind allowance kind multiple _ ih =>
    exact moves_forM _ (fun id _ => e.staysStalled_runFrom [] allowance id) _ ih
  | clearCache _ ih => exact ⟨fun _ _ => Table.find?_empty _, ih.steps⟩
  | setContext c _ ih => exact ⟨ih.cache, ih.steps⟩

/-! ### Evaluations of circular nodes -/

/-- Assembling the inputs of a node comes to an end, on a cycle or not. -/
theorem assemble_ne_exhausted (hrestrained : e.Restrained) {allowance : Nat} {node : Node}
    (hn : e.graph.node? node.id = some node) (hallowance : e.graph.nodes.length ≤ allowance)
    (s : RunState) :
    (e.assemble (e.pull (e.runNode allowance)) node
      { s with evaluating := node.id :: s.evaluating }).1 ≠ .exhausted := by
  have htaking : (e.taking allowance node (e.graph.dataWires node.id) s).1 ≠ .exhausted :=
    taking_ne_exhausted hrestrained hn hallowance s
  unfold assemble
  unfold taking at htaking
  cases hr : (e.graph.dataWires node.id).foldlM
      (e.receive (e.pull (e.runNode allowance)) node) ∅
      { s with evaluating := node.id :: s.evaluating } with
  | mk r s' =>
    rw [hr] at htaking
    cases r with
    | done a =>
      rw [bind_done hr]
      nofun
    | failed err =>
      rw [bind_failed hr]
      nofun
    | exhausted => exact absurd rfl htaking

/-- As long as circular nodes have no outputs, their evaluations do not end with a result. -/
theorem runNode_ne_done (hs : ∀ n, e.graph.Circular n → s.cache.find? n = none) {id : String}
    (hid : e.graph.Circular id) (allowance : Nat) (out : PortValues) :
    (e.runNode allowance id s).1 ≠ .done out := by
  intro h
  have hstalled : e.Stalled s.trace.toList s :=
    ⟨hs, [], (List.append_nil _).symm, List.forall_mem_nil _⟩
  exact ((e.leads_runNode_stalled _ allowance id s hstalled).2 out _ (Prod.ext h rfl)).2 hid

/-- As long as circular nodes have no outputs, their evaluations fail. The allowance is not used up,
if it lets evaluations nest as deep as there are nodes. -/
theorem exists_failed_runNode (hrestrained : e.Restrained)
    (hs : ∀ n, e.graph.Circular n → s.cache.find? n = none) {id : String}
    (hid : e.graph.Circular id) {allowance : Nat} (hallowance : e.graph.nodes.length < allowance) :
    ∃ err, (e.runNode allowance id s).1 = .failed err := by
  obtain ⟨k, rfl⟩ := Nat.exists_eq_add_one_of_ne_zero (Nat.ne_of_gt (Nat.zero_lt_of_lt hallowance))
  cases hn : e.graph.node? id with
  | none => exact ⟨_, by simp only [runNode, hn]; rfl⟩
  | some node =>
    obtain rfl : node.id = id := Graph.id_of_node? hn
    simp only [runNode, hn]
    split
    · let t : RunState := { s with evaluating := node.id :: s.evaluating }
      have hstalled : e.Stalled t.trace.toList t :=
        ⟨hs, [], (List.append_nil _).symm, List.forall_mem_nil _⟩
      have hassemble : Leads (e.Stalled t.trace.toList) (e.assemble (e.pull (e.runNode k)) node)
          (fun s => e.Stalled t.trace.toList s ∧ ¬ e.graph.Circular node.id)
          (e.Stalled t.trace.toList) :=
        leads_assemble_stalled fun id =>
          leads_pull_stalled (e.leads_runNode_stalled t.trace.toList k id)
      have hends := assemble_ne_exhausted hrestrained hn (Nat.le_of_lt_succ hallowance) s
      -- The inputs are never there, so that is where the evaluation fails.
      cases hr : e.assemble (e.pull (e.runNode k)) node t with
      | mk r s' =>
        cases r with
        | done inputs => exact absurd hid ((hassemble t hstalled).2 inputs s' hr).2
        | failed err =>
          refine ⟨err, ?_⟩
          rw [within_apply]
          exact congrArg Prod.fst (bind_failed hr)
        | exhausted => exact absurd (congrArg Prod.fst hr) hends
    · exact ⟨_, rfl⟩

end Engine

end Patchbay
