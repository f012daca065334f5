import Patchbay.Proofs.Run.Faults
import Patchbay.Proofs.Run.Stalled

/-!
# What assembling inputs fills in

While the inputs of a node are assembled, nodes without control ports are evaluated that have no
outputs yet, in whatever order the wires come. The outputs that are kept at the start settle what
comes of this. `Engine.Filled` says which outputs a node gets, if any, and `Engine.Grown` says that
some of the nodes that are wanted have got them.

So the inputs are there at the end exactly if all sources can be filled in, and then the outputs
that are kept are those of all nodes that are wanted. Neither depends on the order of the wires.

## Key results

- `Filled.unique`: a node is filled in with one outcome at most
- `gathered_assemble`: assembling inputs fills in what is wanted, and the host sees nothing of it
- `assemble_done_iff`: the inputs are there iff all sources can be filled in
-/

namespace Patchbay

/-- What the host sees of a run, apart from the outputs of nodes: what is printed, and where control
goes on. -/
inductive Sign where
  | printed (line : String)
  | fired (source port target : String)

/-- What the host sees of a step. -/
def Step.sign? : Step → Option Sign
  | printed line => some (.printed line)
  | event (.flowFired _ source port target) => some (.fired source port target)
  | _ => none

namespace RunState

/-- What the host has seen. -/
def signs (s : RunState) : List Sign := s.trace.toList.filterMap Step.sign?

theorem signs_push (s : RunState) (step : Step) :
    (s.push step).signs = s.signs ++ step.sign?.toList := by
  simp only [push, signs, Array.toList_push, List.filterMap_append]
  cases h : step.sign? <;> simp [h]

theorem signs_push_none (s : RunState) {step : Step} (h : step.sign? = none) :
    (s.push step).signs = s.signs := by
  rw [signs_push, h]
  exact List.append_nil _

end RunState

namespace Engine

open RunM

variable {e : Engine} {base : Table String PortValues} {goal : String}

/-! ### Filling in outputs -/

/-- What the outputs of a node are filled in with, where some outputs are kept already. -/
inductive Filled (e : Engine) (base : Table String PortValues) : String → PortValues → Prop where
  | kept {id : String} {out : PortValues} : base.find? id = some out → Filled e base id out
  /-- A node without control ports that has no outputs is calculated, after all its sources. -/
  | calculated {id : String} {node : Node} {out : PortValues} (outputs : String → PortValues) :
    base.find? id = none → e.graph.usesFlow id = false → e.graph.node? id = some node →
    (∀ m, e.graph.Feeds m id → Filled e base m (outputs m)) →
    (e.script node (e.inputsFrom outputs node)).Yields out → Filled e base id out

/-- To fill in the second node, values are taken from the first. -/
def Draws (e : Engine) (base : Table String PortValues) (m n : String) : Prop :=
  e.graph.Feeds m n ∧ base.find? n = none

/-- The node is needed for the inputs of the goal. -/
def Wanted (e : Engine) (base : Table String PortValues) (goal x : String) : Prop :=
  ∃ m, e.graph.Feeds m goal ∧ Relation.ReflTransGen (e.Draws base) x m

theorem Wanted.source {m : String} (h : e.graph.Feeds m goal) : e.Wanted base goal m := ⟨m, h, .refl⟩

theorem Wanted.draws {m n : String} (h : e.Wanted base goal n) (hm : e.Draws base m n) :
    e.Wanted base goal m :=
  let ⟨k, hk, hpath⟩ := h
  ⟨k, hk, .head hm hpath⟩

namespace Filled

/-- A node is filled in with one outcome at most. -/
theorem unique {id : String} {a b : PortValues} (ha : e.Filled base id a)
    (hb : e.Filled base id b) : a = b := by
  induction ha generalizing b with
  | kept hfind =>
    cases hb with
    | kept hfind' => exact Option.some.inj (hfind.symm.trans hfind')
    | calculated _ hnew => cases hfind.symm.trans hnew
  | @calculated id node a outputs hnew _ hnode _ hyields ih =>
    cases hb with
    | kept hfind => cases hnew.symm.trans hfind
    | @calculated _ node' b outputs' _ _ hnode' hsources hyields' =>
      obtain rfl : node = node' := Option.some.inj (hnode.symm.trans hnode')
      have hid : node.id = id := Graph.id_of_node? hnode
      have hin : e.inputsFrom outputs node = e.inputsFrom outputs' node :=
        inputsFrom_congr fun x hx =>
          let hfeeds := Graph.feeds_of_mem_dataWires (hid ▸ hx)
          ih _ hfeeds (hsources _ hfeeds)
      exact hyields.unique (hin ▸ hyields')

/-- A node that needs itself is never filled in. -/
theorem not_circular {id : String} {out : PortValues} (h : e.Filled base id out) :
    ¬ Relation.TransGen (e.Draws base) id id := by
  induction h with
  | kept hfind =>
    intro hcycle
    obtain ⟨_, _, _, hnew⟩ := Relation.TransGen.tail'_iff.1 hcycle
    cases hfind.symm.trans hnew
  | calculated outputs _ _ _ _ _ ih =>
    intro hcycle
    obtain ⟨m, hpath, hm⟩ := Relation.TransGen.tail'_iff.1 hcycle
    exact ih m hm.1 (.head' hm hpath)

end Filled

/-- The outputs that are kept are those from the start, and those of some nodes that are wanted, each
with all that it needs. -/
structure Grown (e : Engine) (base : Table String PortValues) (goal : String)
    (cache : Table String PortValues) : Prop where
  kept : ∀ x out, base.find? x = some out → cache.find? x = some out
  filled : ∀ x out, cache.find? x = some out → e.Filled base x out
  wanted : ∀ x out, cache.find? x = some out → base.find? x = none → e.Wanted base goal x
  closed : ∀ m x out, cache.find? x = some out → e.Draws base m x →
    ∃ o, cache.find? m = some o

namespace Grown

variable {cache : Table String PortValues}

theorem start (e : Engine) (base : Table String PortValues) (goal : String) :
    e.Grown base goal base where
  kept := fun _ _ h => h
  filled := fun _ _ h => .kept h
  wanted := fun _ _ h hnew => by cases h.symm.trans hnew
  closed := fun _ _ _ h hdraws => by cases h.symm.trans hdraws.2

theorem find?_base (h : e.Grown base goal cache) {x : String} (hx : cache.find? x = none) :
    base.find? x = none := by
  cases hb : base.find? x with
  | none => rfl
  | some out => cases hx.symm.trans (h.kept x out hb)

/-- All outputs that are kept of a source are those that it is filled in with. -/
theorem filled_outputsIn (h : e.Grown base goal cache) {m : String} {out : PortValues}
    (hm : cache.find? m = some out) : e.Filled base m (outputsIn cache m) := by
  rw [outputsIn, hm]
  exact h.filled m out hm

/-- A node is calculated that is wanted, after all its sources. -/
theorem insert (h : e.Grown base goal cache) {id : String} {node : Node} {out : PortValues}
    (hnew : base.find? id = none) (hflow : e.graph.usesFlow id = false)
    (hn : e.graph.node? id = some node) (hwanted : e.Wanted base goal id)
    (hsources : ∀ m, e.graph.Feeds m id → ∃ o, cache.find? m = some o)
    (hyields : (e.script node (e.inputsFrom (outputsIn cache) node)).Yields out) :
    e.Grown base goal (cache.insert id out) where
  kept := by
    intro x o hx
    have hne : x ≠ id := fun heq => by cases (heq ▸ hx).symm.trans hnew
    rw [Table.find?_insert, if_neg hne]
    exact h.kept x o hx
  filled := by
    intro x o hx
    rw [Table.find?_insert] at hx
    split at hx
    next heq =>
      subst heq
      obtain rfl := Option.some.inj hx
      refine .calculated (outputsIn cache) hnew hflow hn (fun m hm => ?_) hyields
      obtain ⟨o, ho⟩ := hsources m hm
      exact h.filled_outputsIn ho
    next => exact h.filled x o hx
  wanted := by
    intro x o hx hbase
    rw [Table.find?_insert] at hx
    split at hx
    next heq => exact heq ▸ hwanted
    next => exact h.wanted x o hx hbase
  closed := by
    intro m x o hx hdraws
    have hm : ∃ o, cache.find? m = some o := by
      rw [Table.find?_insert] at hx
      split at hx
      next heq => exact hsources m (heq ▸ hdraws.1)
      next => exact h.closed m x o hx hdraws
    rw [Table.find?_insert]
    split
    · exact ⟨out, rfl⟩
    · exact hm

/-- The inputs that come from what is kept are those that the node is filled in from. -/
theorem inputsFrom_eq (h : e.Grown base goal cache) {node : Node} {outputs : String → PortValues}
    (hkept : ∀ m, e.graph.Feeds m node.id → ∃ out, cache.find? m = some out)
    (hsources : ∀ m, e.graph.Feeds m node.id → e.Filled base m (outputs m)) :
    e.inputsFrom (outputsIn cache) node = e.inputsFrom outputs node :=
  inputsFrom_congr fun x hx => by
    have hfeeds := Graph.feeds_of_mem_dataWires hx
    obtain ⟨out, hout⟩ := hkept _ hfeeds
    exact (h.filled_outputsIn hout).unique (hsources _ hfeeds)

/-- Where the sources of the goal have outputs, so has everything that is wanted. -/
theorem exists_of_wanted (h : e.Grown base goal cache)
    (hsources : ∀ m, e.graph.Feeds m goal → ∃ out, cache.find? m = some out) {x : String}
    (hx : e.Wanted base goal x) : ∃ out, cache.find? x = some out := by
  obtain ⟨m, hm, hpath⟩ := hx
  -- The path is gone back from the source, since outputs come with all that they need.
  induction hpath using Relation.ReflTransGen.head_induction_on with
  | refl => exact hsources m hm
  | head hdraws _ ih =>
    obtain ⟨out, hout⟩ := ih
    exact h.closed _ _ out hout hdraws

end Grown

/-! ### Evaluations that fill in -/

/-- Between the states outputs were filled in, and the host saw nothing of it. -/
structure Gathered (e : Engine) (base : Table String PortValues) (goal : String)
    (s s' : RunState) : Prop where
  grown : e.Grown base goal s'.cache
  context : s'.context = s.context
  evaluating : s'.evaluating = s.evaluating
  signs : s'.signs = s.signs

/-- Outputs that are filled in stay so. -/
def Gathers (e : Engine) (base : Table String PortValues) (goal : String) (s s' : RunState) : Prop :=
  e.Grown base goal s.cache → e.Gathered base goal s s'

instance : Composable (e.Gathers base goal) where
  refl := fun _ h => ⟨h, rfl, rfl, rfl⟩
  trans := fun h₁ h₂ h =>
    have hfirst := h₁ h
    have hlast := h₂ hfirst.grown
    ⟨hlast.grown, hlast.context.trans hfirst.context, hlast.evaluating.trans hfirst.evaluating,
      hlast.signs.trans hfirst.signs⟩

/-- A step that the host does not see. -/
theorem Gathers.push (s : RunState) {step : Step} (h : step.sign? = none) :
    e.Gathers base goal s (s.push step) :=
  fun hs => ⟨hs, rfl, rfl, s.signs_push_none h⟩

theorem gathers_conclude {node : String} {out : PortValues} {s : RunState}
    (hgrown : e.Grown base goal s.cache → e.Grown base goal (s.cache.insert node out)) :
    e.Gathers base goal s (e.conclude node out s).2 := by
  intro hs
  have hsent : e.Gathered base goal s ((s.push (.event (.nodeEvaluated s.runId node out))).withCache
      (s.cache.insert node out)) :=
    ⟨hgrown hs, rfl, rfl, s.signs_push_none rfl⟩
  obtain ⟨s', hconclude, hs'⟩ := e.conclude_ends (P := e.Gathered base goal s) hsent
    fun reason t ht => ⟨ht.grown, ht.context, ht.evaluating, (t.signs_push_none rfl).trans ht.signs⟩
  rw [hconclude]
  exact hs'

/-- A source is pulled and its value taken. -/
theorem gathers_receive {pull : String → RunM Unit} {node : Node}
    (hpull : ∀ m, e.graph.Feeds m node.id → Moves (e.Gathers base goal) (pull m))
    (inputs : PortValues) {x : WireId × Wire} (hx : x ∈ e.graph.dataWires node.id) :
    Moves (e.Gathers base goal) (e.receive pull node inputs x) :=
  moves_bind (hpull _ (Graph.feeds_of_mem_dataWires hx)) fun _ => moves_bind moves_read fun _ =>
    moves_bind (moves_log fun s => Gathers.push s rfl) fun _ => moves_pure _

theorem gathers_assemble {pull : String → RunM Unit} {node : Node}
    (hpull : ∀ m, e.graph.Feeds m node.id → Moves (e.Gathers base goal) (pull m)) :
    Moves (e.Gathers base goal) (e.assemble pull node) :=
  moves_bind (moves_foldlM _ (fun inputs _ hx => gathers_receive hpull inputs hx) ∅)
    fun _ => moves_pure _

/-- Where the inputs of a node have been assembled, all its sources have outputs, and the inputs come
from those. -/
theorem sources_of_assemble (hg : e.graph.Sound) {past : List Step} {pull : String → RunM Unit}
    (hcalm : e.CalmPull past pull) {node : Node} (hn : e.graph.node? node.id = some node)
    {inputs : PortValues} {s s' : RunState} (h : e.assemble pull node s = (.done inputs, s')) :
    inputs = e.inputsFrom (outputsIn s'.cache) node ∧
      ∀ m, e.graph.Feeds m node.id → ∃ out, s'.cache.find? m = some out := by
  obtain ⟨hin, hfound⟩ := inputsFrom_of_assemble hg hcalm hn h
  refine ⟨hin, fun m hm => ?_⟩
  obtain ⟨i, w, hw, rfl⟩ := Graph.exists_dataWire_of_feeds hm
  exact hfound (i, w) hw

/-- A node is evaluated that is wanted and has no outputs. -/
theorem gathers_evaluate (hg : e.graph.Sound) (hsettled : e.Settled) {pull : String → RunM Unit}
    (hcalm : e.CalmPull [] pull) (resume : String → RunM Unit) {node : Node}
    (hn : e.graph.node? node.id = some node) (hflow : e.graph.usesFlow node.id = false)
    (hnew : base.find? node.id = none) (hwanted : e.Wanted base goal node.id)
    (hpull : ∀ m, e.graph.Feeds m node.id → Moves (e.Gathers base goal) (pull m)) :
    Moves (e.Gathers base goal) (e.evaluate pull resume node) := by
  refine moves_bind_of_done (gathers_assemble hpull) fun inputs s s' hdone => ?_
  obtain ⟨hin, hsources⟩ := sources_of_assemble hg hcalm hn hdone
  have hcalculated : e.Gathers base goal s' (s'.push (.calculated node.id inputs)) :=
    Gathers.push s' rfl
  refine Composable.trans hcalculated ?_
  show e.Gathers base goal _ ((e.interpret resume node.id (e.flows node)
    (e.script node inputs) >>= e.conclude node.id) (s'.push (.calculated node.id inputs))).2
  -- A node without control ports calculates at once. If that fails, nothing is filled in.
  rcases hsettled node.id node hn hflow inputs with ⟨out, hout⟩ | ⟨err, herr⟩
  · rw [hout]
    refine gathers_conclude fun hgrown => hgrown.insert hnew hflow hn hwanted hsources ?_
    show (e.script node (e.inputsFrom (outputsIn s'.cache) node)).Yields out
    rw [← hin, hout]
    rfl
  · rw [herr]
    exact Composable.refl _

/-- A node that is wanted is pulled. -/
theorem gathers_pull {step : String → RunM PortValues} {id : String}
    (hstep : e.graph.usesFlow id = false → base.find? id = none →
      Moves (e.Gathers base goal) (step id)) : Moves (e.Gathers base goal) (e.pull step id) := by
  intro s hs
  simp only [pull, read_bind]
  split
  · exact ⟨hs, rfl, rfl, rfl⟩
  next hnew =>
    split
    · exact ⟨hs, rfl, rfl, rfl⟩
    next hflow =>
      split
      · exact ⟨hs, rfl, rfl, rfl⟩
      · rw [state_discard]
        exact hstep (by simpa using hflow) (hs.find?_base (by simpa [Table.contains] using hnew))
          s hs

/-- In a run, sources can be pulled calmly. -/
theorem calmPull_runNode (hg : e.graph.Sound) (hsettled : e.Settled) (past : List Step)
    (allowance : Nat) : e.CalmPull past (e.pull (e.runNode allowance)) :=
  calmPull_pull (fun id => (right_runNode hg hsettled past allowance id).2)
    fun h => find?_of_runNode h

/-- A node is evaluated because the goal needs it. -/
theorem gathers_runNode (hg : e.graph.Sound) (hsettled : e.Settled) (allowance : Nat) {id : String}
    (hflow : e.graph.usesFlow id = false) (hnew : base.find? id = none)
    (hwanted : e.Wanted base goal id) : Moves (e.Gathers base goal) (e.runNode allowance id) := by
  induction allowance generalizing id with
  | zero => exact moves_exhaust
  | succ k ih =>
    cases hn : e.graph.node? id with
    | none =>
      simp only [runNode, hn]
      exact moves_fail _
    | some node =>
      obtain rfl : node.id = id := Graph.id_of_node? hn
      simp only [runNode, hn]
      split
      · have hpull : ∀ m, e.graph.Feeds m node.id →
            Moves (e.Gathers base goal) (e.pull (e.runNode k) m) :=
          fun m hm => gathers_pull fun hmflow hmnew =>
            ih hmflow hmnew (hwanted.draws ⟨hm, hnew⟩)
        refine moves_within node.id (gathers_evaluate hg hsettled
          (calmPull_runNode hg hsettled [] k) _ hn hflow hnew hwanted hpull) fun s s' h hs => ?_
        obtain ⟨hgrown, hcontext, hevaluating, hsigns⟩ := h hs
        exact ⟨hgrown, hcontext, congrArg List.tail hevaluating, hsigns⟩
      · exact moves_fail _

/-- What the goal needs is pulled. -/
theorem gathers_pull_runNode (hg : e.graph.Sound) (hsettled : e.Settled) (allowance : Nat)
    {id : String} (hwanted : e.Wanted base goal id) :
    Moves (e.Gathers base goal) (e.pull (e.runNode allowance) id) :=
  gathers_pull fun hflow hnew => gathers_runNode hg hsettled allowance hflow hnew hwanted

/-- While the inputs of a node are assembled, outputs are filled in that it wants. -/
theorem gathered_assemble (hg : e.graph.Sound) (hsettled : e.Settled) (allowance : Nat)
    (node : Node) (s : RunState) :
    e.Gathered s.cache node.id s (e.assemble (e.pull (e.runNode allowance)) node s).2 :=
  gathers_assemble (fun _ hm => gathers_pull_runNode hg hsettled allowance (.source hm)) s
    (.start e s.cache node.id)

/-! ### Which nodes can be filled in -/

/-- To fill in the node, none of those is needed that are being evaluated. -/
def Clear (e : Engine) (base : Table String PortValues) (busy : List String) (x : String) : Prop :=
  ∀ z ∈ busy, e.graph.usesFlow z = false → base.find? z = none →
    ¬ Relation.ReflTransGen (e.Draws base) z x

theorem clear_of_usesFlow {busy : List String} (h : ∀ z ∈ busy, e.graph.usesFlow z = true)
    (x : String) : e.Clear base busy x :=
  fun z hz hflow => absurd ((h z hz).symm.trans hflow) Bool.noConfusion

theorem Clear.draws {busy : List String} {m n : String} (h : e.Clear base busy n)
    (hm : e.Draws base m n) : e.Clear base busy m :=
  fun z hz hflow hnew hpath => h z hz hflow hnew (hpath.tail hm)

/-- A source that can be filled in does not need the node that it is a source of. -/
theorem Clear.cons {busy : List String} {m n : String} {out : PortValues}
    (h : e.Clear base busy m) (hm : e.graph.Feeds m n) (hfilled : e.Filled base m out) :
    e.Clear base (n :: busy) m := by
  intro z hz hflow hnew hpath
  rcases List.mem_cons.1 hz with rfl | hz
  · exact hfilled.not_circular (.head' ⟨hm, hnew⟩ hpath)
  · exact h z hz hflow hnew hpath

/-- A node that can be filled in can be pulled, if its evaluation does not fail. -/
theorem pull_ne_failed {step : String → RunM PortValues} {id : String} {out : PortValues}
    (hfilled : e.Filled base id out) {s : RunState} (hgrown : e.Grown base goal s.cache)
    (hclear : e.Clear base s.evaluating id) {err : Error}
    (hstep : base.find? id = none → (step id s).1 ≠ .failed err) :
    (e.pull step id s).1 ≠ .failed err := by
  simp only [pull, read_bind]
  split
  · exact fun h => by cases h
  next hcache =>
    have hnew := hgrown.find?_base (by simpa [Table.contains] using hcache)
    cases hfilled with
    | kept hfind => cases hfind.symm.trans hnew
    | calculated _ _ hflow =>
      rw [if_neg (by simp [hflow])]
      split
      next hbusy => exact absurd .refl (hclear id (by simpa using hbusy) hflow hnew)
      next => exact fun h => hstep hnew (failed_of_discard h)

/-- The inputs of a node are there unless a source cannot be filled in. -/
theorem assemble_ne_failed {pull : String → RunM Unit} {node : Node} {s : RunState}
    (hpull : ∀ m, e.graph.Feeds m node.id → Moves (e.Gathers base goal) (pull m))
    (hgrown : e.Grown base goal s.cache) {err : Error}
    (hsource : ∀ m (t : RunState), e.graph.Feeds m node.id → e.Grown base goal t.cache →
      t.evaluating = s.evaluating → (pull m t).1 ≠ .failed err) :
    (e.assemble pull node s).1 ≠ .failed err := by
  intro h
  obtain ⟨m, hm, t, ht, h⟩ :=
    failed_of_assemble (fun inputs _ hx => gathers_receive hpull inputs hx) h
  exact hsource m t hm (ht hgrown).grown (ht hgrown).evaluating h

/-- The evaluation of a wanted node that can be filled in does not fail. -/
theorem runNode_ne_failed (hg : e.graph.Sound) (hsettled : e.Settled) {id : String}
    {out : PortValues} (hfilled : e.Filled base id out) (hnew : base.find? id = none)
    (hwanted : e.Wanted base goal id) {s : RunState} (hgrown : e.Grown base goal s.cache)
    (hclear : e.Clear base s.evaluating id) (allowance : Nat) (err : Error) :
    (e.runNode allowance id s).1 ≠ .failed err := by
  -- The induction is on how the node is filled in, so that it gets to the sources, whatever the
  -- allowance is.
  induction hfilled generalizing allowance s err with
  | kept hfind => cases hfind.symm.trans hnew
  | @calculated id node out outputs _ hflow hn hsources hyields ih =>
    obtain rfl : node.id = id := Graph.id_of_node? hn
    cases allowance with
    | zero => nofun
    | succ k =>
      have hkind : e.graph.kinds.contains node.kind = true := hg.declared node.id node hn
      simp only [runNode, hn, hkind, if_true, within_apply]
      have hdraws : ∀ m, e.graph.Feeds m node.id → e.Draws base m node.id := fun m hm => ⟨hm, hnew⟩
      have hpull : ∀ m, e.graph.Feeds m node.id →
          Moves (e.Gathers base goal) (e.pull (e.runNode k) m) :=
        fun m hm => gathers_pull_runNode hg hsettled k (hwanted.draws (hdraws m hm))
      let t : RunState := { s with evaluating := node.id :: s.evaluating }
      cases hin : e.assemble (e.pull (e.runNode k)) node t with
      | mk r s₁ =>
        cases r with
        | done inputs =>
          -- The inputs are those that the node is filled in with, so it comes to a result.
          obtain ⟨hinputs, hkept⟩ :=
            sources_of_assemble hg (calmPull_runNode hg hsettled [] k) hn hin
          have hafter := gathers_assemble hpull t hgrown
          rw [hin] at hafter
          rw [← hafter.grown.inputsFrom_eq hkept hsources, ← hinputs] at hyields
          obtain ⟨s₂, hdone, _⟩ := evaluate_done (e.walk (e.runNode k) k) hin hyields
          exact fun h => by cases (congrArg Prod.fst hdone).symm.trans h
        | failed first =>
          refine absurd (congrArg Prod.fst hin) (assemble_ne_failed (s := t) hpull hgrown ?_)
          intro m u hm hu hevaluating
          have hfree : e.Clear base u.evaluating m :=
            hevaluating ▸ (hclear.draws (hdraws m hm)).cons hm (hsources m hm)
          exact pull_ne_failed (hsources m hm) hu hfree fun hmnew =>
            ih m hm hmnew (hwanted.draws (hdraws m hm)) hu hfree k first
        | exhausted =>
          exact fun h => by cases (congrArg Prod.fst (bind_exhausted hin)).symm.trans h

/-- The inputs of a node are there exactly if all its sources can be filled in, where apart from the
node itself only nodes with control ports are being evaluated. -/
theorem assemble_done_iff (hg : e.graph.Sound) (hsettled : e.Settled) {allowance : Nat}
    {node : Node} (hn : e.graph.node? node.id = some node) {s : RunState} {busy : List String}
    (hbusy : s.evaluating = node.id :: busy) (hflow : ∀ z ∈ busy, e.graph.usesFlow z = true)
    (hend : (e.assemble (e.pull (e.runNode allowance)) node s).1 ≠ .exhausted) :
    (∃ inputs, (e.assemble (e.pull (e.runNode allowance)) node s).1 = .done inputs) ↔
      ∀ m, e.graph.Feeds m node.id → ∃ out, e.Filled s.cache m out := by
  have hgathered := gathered_assemble hg hsettled allowance node s
  have hpull : ∀ m, e.graph.Feeds m node.id →
      Moves (e.Gathers s.cache node.id) (e.pull (e.runNode allowance) m) :=
    fun m hm => gathers_pull_runNode hg hsettled allowance (.source hm)
  constructor
  · rintro ⟨inputs, hdone⟩ m hm
    obtain ⟨_, hkept⟩ := sources_of_assemble hg (calmPull_runNode hg hsettled [] allowance) hn
      (Prod.ext hdone rfl)
    obtain ⟨out, hout⟩ := hkept m hm
    exact ⟨out, hgathered.grown.filled m out hout⟩
  · intro hfilled
    cases hr : (e.assemble (e.pull (e.runNode allowance)) node s).1 with
    | done inputs => exact ⟨inputs, rfl⟩
    | failed err =>
      refine absurd hr (assemble_ne_failed hpull (.start e s.cache node.id) ?_)
      intro m t hm ht hevaluating
      obtain ⟨out, hout⟩ := hfilled m hm
      have hclear : e.Clear s.cache t.evaluating m := by
        rw [hevaluating, hbusy]
        exact (clear_of_usesFlow hflow m).cons hm hout
      exact pull_ne_failed hout ht hclear fun hnew =>
        runNode_ne_failed hg hsettled hout hnew (.source hm) ht hclear allowance err
    | exhausted => exact absurd hr hend

end Engine

end Patchbay
