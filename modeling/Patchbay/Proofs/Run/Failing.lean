import Patchbay.Proofs.Run.Pulling

/-!
# Evaluations that have to fail

A calculation that looks at nothing but its inputs comes to outputs or fails, as they decide
(`Behaviour.FromInputs`). Where all that is upstream of a node calculates in this way, an evaluation
afresh comes to outputs or there are none, and a run does the same: it ends with these outputs, or
it fails.

Up to the failure the run goes as it would otherwise. The sources of a node are pulled in the order
of their wires; those that have outputs are evaluated (`pull_afresh`), and the first one that has
none makes the node fail (`assemble_failed_of_missing`). Where all have outputs, the calculation itself fails.

## Key results

- `runNode_failed`: a node that has no outputs afresh cannot be evaluated
- `runNode_determined`: a run of a node, started with no outputs at all
-/

namespace Patchbay

open Classical in
/-- Where not all elements of a list have a property, there is a first one that has not got it. -/
theorem exists_first_not {α : Type} {p : α → Prop} {xs : List α} (h : ¬ ∀ x ∈ xs, p x) :
    ∃ pre x post, xs = pre ++ x :: post ∧ (∀ y ∈ pre, p y) ∧ ¬ p x := by
  obtain ⟨x, hfirst⟩ : ∃ x, xs.find? (fun x => decide ¬ p x) = some x := by
    simpa [← Option.isSome_iff_exists, List.find?_isSome] using h
  obtain ⟨hx, pre, post, rfl, hpre⟩ := List.find?_eq_some_iff_append.1 hfirst
  exact ⟨pre, x, post, rfl, fun y hy => by simpa using hpre y hy, of_decide_eq_true hx⟩

namespace Script

variable {α : Type}

/-- The script ends with an error, whatever it finds in the context, and fires nothing. -/
def Fails : Script α → Prop
  | done _ => False
  | fail _ => True
  | fire _ _ _ => False
  | consult _ next => ∀ entry, (next entry).Fails
  | store _ _ next => next.Fails
  | print _ next => next.Fails
  | inform _ next => next.Fails

/-- How the script ends is settled: with the result, or with an error if there is none. -/
def Settles (script : Script α) : Option α → Prop
  | some a => script.Yields a
  | none => script.Fails

theorem Fails.not_yields {script : Script α} (h : script.Fails) (a : α) : ¬ script.Yields a := by
  intro ha
  induction script with
  | done b => exact h
  | fail e => exact ha
  | fire port outputs next _ => exact h
  | consult key next ih => exact ih none (h none) (ha none)
  | store key entry next ih => exact ih h ha
  | print line next ih => exact ih h ha
  | inform line next ih => exact ih h ha

theorem Settles.yields_iff {script : Script α} {result : Option α} (h : script.Settles result)
    (a : α) : script.Yields a ↔ result = some a := by
  cases result with
  | none => exact ⟨fun ha => absurd ha (Fails.not_yields h a), fun ha => by cases ha⟩
  | some b =>
    constructor
    · exact fun ha => congrArg some (Yields.unique h ha)
    · rintro ⟨⟩
      exact h

end Script

/-- Nodes look at nothing but their inputs when they calculate: those decide about the outputs, or
that there are none. -/
def Behaviour.FromInputs (b : Behaviour) : Prop :=
  ∃ f : PortValues → Option PortValues, ∀ v, (b.calculate v).Settles (f v.inputs)

theorem Behaviour.FromInputs.yields_iff {b : Behaviour} (h : b.FromInputs) {v v' : Evaluation}
    (hv : v.inputs = v'.inputs) (out : PortValues) :
    (b.calculate v).Yields out ↔ (b.calculate v').Yields out := by
  obtain ⟨f, hf⟩ := h
  rw [(hf v).yields_iff, (hf v').yields_iff, hv]

namespace Engine

variable {e : Engine} {ref : String → PortValues} {node : String} {s : RunState}

/-- All that is upstream of the node calculates from inputs alone. -/
def Determined (e : Engine) (node : String) : Prop :=
  ∀ m n, e.graph.Upstream m node → e.graph.node? m = some n → (e.behaviour n.kind).FromInputs

theorem Determined.source {m n : String} (h : e.Determined n) (hm : e.graph.Feeds m n) :
    e.Determined m :=
  fun k l hk hl => h k l (hk.tail hm) hl

/-- A node that is calculated afresh has sources that are. -/
theorem Pullable.exists_afresh (hp : e.Pullable node) {out : PortValues}
    (hout : e.Afresh ∅ node out) {m : String} (hm : e.graph.Upstream m node) :
    ∃ o, e.Afresh ∅ m o := by
  induction hm using Relation.ReflTransGen.head_induction_on with
  | refl => exact ⟨out, hout⟩
  | @head m n hmn hn ih =>
    obtain ⟨o, ho⟩ := ih
    cases ho with
    | held hflow => exact absurd ((hp.free n hn).symm.trans hflow) Bool.false_ne_true
    | calculated outputs _ _ hsources =>
      obtain ⟨i, w, hw, rfl⟩ := Graph.exists_dataWire_of_feeds hmn
      exact ⟨_, hsources _ hw⟩

/-! ### How an evaluation fails -/

theorem interpret_failed (resume : String → RunM Unit) (node : String) (flows : Table String String)
    {script : Script PortValues} (h : script.Fails) (s : RunState) :
    ∃ err s', e.interpret resume node flows script s = (.failed err, s') := by
  induction script generalizing s with
  | done a => exact h.elim
  | fail err => exact ⟨err, s, rfl⟩
  | fire port outputs next _ => exact h.elim
  | consult key next ih => exact ih _ (h _) s
  | store key entry next ih => exact ih h _
  | print line next ih =>
    rw [interpret_print]
    exact ih h _
  | inform line next ih => exact ih h _

/-- The sources before the wire are pulled, and then the source of the wire cannot be. -/
theorem assemble_failed {pull : String → RunM Unit} {node : Node} {x : WireId × Wire}
    {xs ys : List (WireId × Wire)} (hwires : e.graph.dataWires node.id = xs ++ x :: ys)
    {inputs : PortValues} {s₁ s₂ : RunState} {err : Error}
    (hxs : xs.foldlM (e.receive pull node) ∅ s = (.done inputs, s₁))
    (hpull : pull x.2.source s₁ = (.failed err, s₂)) :
    e.assemble pull node s = (.failed err, s₂) := by
  have hx : e.receive pull node inputs x s₁ = (.failed err, s₂) := RunM.bind_failed hpull
  have hall : (e.graph.dataWires node.id).foldlM (e.receive pull node) ∅ s = (.failed err, s₂) := by
    rw [hwires, List.foldlM_append, RunM.bind_done hxs, List.foldlM_cons, RunM.bind_failed hx]
  rw [assemble, RunM.bind_failed hall]

/-- If the inputs cannot be assembled, or the calculation fails for them, so does the evaluation. -/
theorem evaluate_failed {pull : String → RunM Unit} (resume : String → RunM Unit) {node : Node}
    (h : (∃ err s', e.assemble pull node s = (.failed err, s')) ∨
      ∃ inputs s', e.assemble pull node s = (.done inputs, s') ∧ (e.script node inputs).Fails) :
    ∃ err s', e.evaluate pull resume node s = (.failed err, s') := by
  obtain ⟨err, s', hs'⟩ | ⟨inputs, s₁, hs₁, hfails⟩ := h
  · exact ⟨err, s', RunM.bind_failed hs'⟩
  · obtain ⟨err, s₂, hs₂⟩ := e.interpret_failed resume node.id (e.flows node) hfails
      (s₁.push (.calculated node.id inputs))
    refine ⟨err, s₂, ?_⟩
    rw [evaluate, RunM.bind_done hs₁, RunM.log_bind]
    exact RunM.bind_failed hs₂

/-- A source fails that has no outputs and cannot be evaluated. -/
theorem pull_failed {step : String → RunM PortValues} (hflow : e.graph.usesFlow node = false)
    (hnew : s.cache.find? node = none) (hfree : node ∉ s.evaluating)
    (hstep : ∃ err s', step node s = (.failed err, s')) :
    ∃ err s', e.pull step node s = (.failed err, s') := by
  obtain ⟨err, s', hs'⟩ := hstep
  refine ⟨err, s', ?_⟩
  simp only [pull, RunM.read_bind, Table.contains, hnew, Option.isSome_none, Bool.false_eq_true,
    if_false, hflow, List.contains_eq_mem, hfree, decide_false]
  exact RunM.bind_failed hs'

/-- The evaluation of a node fails where the calculation does, or what is needed for it. -/
theorem runNode_failed_of_evaluate (hg : e.graph.Sound) (allowance : Nat) {n : Node}
    (hn : e.graph.node? n.id = some n)
    (h : ∃ err s', e.evaluate (e.pull (e.runNode allowance)) (e.walk (e.runNode allowance) allowance)
      n { s with evaluating := n.id :: s.evaluating } = (.failed err, s')) :
    ∃ err s', e.runNode (allowance + 1) n.id s = (.failed err, s') := by
  obtain ⟨err, s', hs'⟩ := h
  refine ⟨err, { s' with evaluating := s'.evaluating.tail }, ?_⟩
  rw [runNode, hn]
  simp only [show e.graph.kinds.contains n.kind = true from hg.declared n.id n hn, if_true]
  rw [RunM.within_apply, hs']

/-! ### Sources that have outputs, and those that have none -/

/-- In the state a node is being evaluated, and what is kept are outputs of evaluations afresh. -/
structure Fresh (e : Engine) (ref : String → PortValues) (node : String) (s : RunState) : Prop
    extends e.Ready ref node s where
  afresh : ∀ x out, s.cache.find? x = some out → e.Afresh ∅ x out

theorem Fresh.evaluated {s' : RunState} {order : List String} (h : e.Fresh ref node s)
    (heval : Evaluated e.graph ref order s s') (horder : ∀ y ∈ order, e.Afresh ∅ y (ref y)) :
    e.Fresh ref node s' where
  toReady := h.toReady.evaluated heval
  afresh := fun x out hx => by
    rw [heval.cache, find?_keep] at hx
    split at hx
    next hmem => exact Option.some.inj hx ▸ horder x hmem
    next => exact h.afresh x out hx

/-- A source that has outputs afresh is pulled, and then it has them. -/
theorem pull_afresh (hg : e.graph.Sound) {allowance : Nat} {source : String} (hp : e.Pullable node)
    (hfeeds : e.graph.Feeds source node)
    (href : ∀ m, (∃ out, e.Afresh ∅ m out) → e.Afresh ∅ m (ref m))
    (hsource : ∃ out, e.Afresh ∅ source out) (hallowance : e.graph.height source < allowance)
    (hready : e.Ready ref node s) :
    ∃ order s', e.pull (e.runNode allowance) source s = (.done (), s') ∧
      Evaluated e.graph ref order s s' ∧ (∀ y ∈ order, e.Afresh ∅ y (ref y)) ∧
      s'.cache.find? source = some (ref source) := by
  obtain ⟨out, hout⟩ := hsource
  have hup : ∀ m, e.graph.Upstream m source → e.Afresh ∅ m (ref m) :=
    fun m hm => href m ((hp.source hfeeds).exists_afresh hout hm)
  obtain ⟨order, s', hs', heval, horder, hkept⟩ :=
    pull_evaluated hfeeds (hp.free _ (Relation.ReflTransGen.single hfeeds)) hready fun hnew =>
      runNode_evaluated hg allowance (hp.source hfeeds) hup hallowance hready.right
        (fun y hy hyup => hready.free y hy (Relation.TransGen.tail' hyup hfeeds)) hnew
  exact ⟨order, s', hs', heval, fun y hy => hup y (horder y hy), hkept⟩

/-- Sources of a node are pulled one after the other, as long as they have outputs afresh. -/
theorem receiveAll_afresh (hg : e.graph.Sound) {allowance : Nat} {n : Node} (hp : e.Pullable n.id)
    (href : ∀ m, (∃ out, e.Afresh ∅ m out) → e.Afresh ∅ m (ref m))
    (hallowance : ∀ m, e.graph.Feeds m n.id → e.graph.height m < allowance)
    {xs : List (WireId × Wire)} (hxs : ∀ x ∈ xs, x ∈ e.graph.dataWires n.id)
    (hall : ∀ x ∈ xs, ∃ out, e.Afresh ∅ x.2.source out) (hs : e.Fresh ref n.id s) :
    ∃ s', xs.foldlM (e.receive (e.pull (e.runNode allowance)) n) ∅ s =
      (.done (e.received ref n xs ∅), s') ∧ e.Fresh ref n.id s' := by
  obtain ⟨order, s', hs', heval, horder, -⟩ := receiveAll_evaluated
    (P := fun y => e.Afresh ∅ y (ref y)) (e.pull (e.runNode allowance)) xs
    (fun x hx t ht => by
      have hfeeds := Graph.feeds_of_mem_dataWires (hxs x hx)
      exact pull_afresh hg hp hfeeds href (hall x hx) (hallowance _ hfeeds) ht)
    ∅ s hs.toReady
  exact ⟨s', hs', hs.evaluated heval horder⟩

/-- What the calculation says about the inputs decides whether the node has outputs afresh. -/
theorem fails_of_not_afresh {n : Node} (hn : e.graph.node? node = some n)
    (hflow : e.graph.usesFlow node = false) (hinputs : (e.behaviour n.kind).FromInputs)
    (hsources : ∀ x ∈ e.graph.dataWires node, e.Afresh ∅ x.2.source (ref x.2.source))
    (hnone : ∀ out, ¬ e.Afresh ∅ node out) : (e.script n (e.inputsFrom ref n)).Fails := by
  obtain ⟨f, hf⟩ := hinputs
  have hsettles : (e.script n (e.inputsFrom ref n)).Settles (f (e.inputsFrom ref n)) :=
    hf (e.evaluation n (e.inputsFrom ref n))
  cases hresult : f (e.inputsFrom ref n) with
  | none => rwa [hresult] at hsettles
  | some out =>
    rw [hresult] at hsettles
    exact absurd (.calculated ref hflow hn hsources hsettles) (hnone out)

/-- The first source without outputs has not been evaluated by then, and fails when it is pulled. -/
theorem assemble_failed_of_missing (hg : e.graph.Sound) {allowance : Nat} {n : Node}
    (hp : e.Pullable n.id) (href : ∀ m, (∃ out, e.Afresh ∅ m out) → e.Afresh ∅ m (ref m))
    (hallowance : ∀ m, e.graph.Feeds m n.id → e.graph.height m < allowance)
    (hmissing : ¬ ∀ x ∈ e.graph.dataWires n.id, ∃ out, e.Afresh ∅ x.2.source out)
    (hstep : ∀ m s, e.graph.Feeds m n.id → (∀ out, ¬ e.Afresh ∅ m out) → e.Fresh ref n.id s →
      ∃ err s', e.runNode allowance m s = (.failed err, s'))
    (hs : e.Fresh ref n.id s) :
    ∃ err s', e.assemble (e.pull (e.runNode allowance)) n s = (.failed err, s') := by
  obtain ⟨pre, x, post, hwires, hpre, hx⟩ := exists_first_not hmissing
  have hmem : ∀ y ∈ pre, y ∈ e.graph.dataWires n.id := fun y hy =>
    hwires ▸ List.mem_append_left _ hy
  have hfeeds : e.graph.Feeds x.2.source n.id := Graph.feeds_of_mem_dataWires
    (hwires ▸ List.mem_append_right _ List.mem_cons_self)
  obtain ⟨s₁, hs₁, hfresh⟩ := receiveAll_afresh hg hp href hallowance hmem hpre hs
  have hnone : ∀ out, ¬ e.Afresh ∅ x.2.source out := fun out hout => hx ⟨out, hout⟩
  obtain ⟨err, s₂, hs₂⟩ := pull_failed (hp.free _ (Relation.ReflTransGen.single hfeeds))
    (Option.eq_none_iff_forall_ne_some.2 fun out hout => hnone out (hfresh.afresh _ _ hout))
    (fun hbusy => hfresh.free _ hbusy (Relation.TransGen.single hfeeds))
    (hstep _ s₁ hfeeds hnone hfresh)
  exact ⟨err, s₂, assemble_failed hwires hs₁ hs₂⟩

/-- An allowance beyond the height of a node that has no outputs afresh is enough for its evaluation
to fail, if what is kept are outputs of evaluations afresh. -/
theorem runNode_failed (hg : e.graph.Sound) (allowance : Nat)
    (hnode : (e.graph.node? node).isSome) (hp : e.Pullable node) (hdet : e.Determined node)
    (href : ∀ m, (∃ out, e.Afresh ∅ m out) → e.Afresh ∅ m (ref m))
    (hnone : ∀ out, ¬ e.Afresh ∅ node out) (hallowance : e.graph.height node < allowance)
    (hkept : ∀ x out, s.cache.find? x = some out → e.Afresh ∅ x out)
    (hfree : ∀ x ∈ s.evaluating, ¬ e.graph.Upstream x node) :
    ∃ err s', e.runNode allowance node s = (.failed err, s') := by
  -- The sources are lower, so that an allowance that is one less is enough for them.
  induction allowance generalizing node s with
  | zero => exact absurd hallowance (Nat.not_lt_zero _)
  | succ k ih =>
    obtain ⟨n, hn⟩ := Option.isSome_iff_exists.1 hnode
    obtain rfl : n.id = node := Graph.id_of_node? hn
    have hfresh : e.Fresh ref n.id { s with evaluating := n.id :: s.evaluating } := by
      refine ⟨⟨fun x out hx => ?_, fun x hx habove => ?_⟩, hkept⟩
      · exact (hkept x out hx).unique (href x ⟨out, hkept x out hx⟩)
      · rcases List.mem_cons.1 hx with rfl | hx
        · exact hp.acyclic n.id .refl habove
        · exact hfree x hx habove.to_reflTransGen
    have hlow : ∀ m, e.graph.Feeds m n.id → e.graph.height m < k := fun m hm => by
      have hlower := Graph.height_lt_of_feeds hg hm
        (hp.acyclic m (Relation.ReflTransGen.single hm))
      omega
    refine runNode_failed_of_evaluate hg k hn (evaluate_failed _ ?_)
    by_cases hall : ∀ x ∈ e.graph.dataWires n.id, ∃ out, e.Afresh ∅ x.2.source out
    -- All inputs are there, so that it is the calculation that fails.
    · obtain ⟨s₁, hs₁, -⟩ := receiveAll_afresh hg hp href hlow (fun _ => id) hall hfresh
      refine .inr ⟨e.inputsFrom ref n, s₁, ?_, ?_⟩
      · rw [assemble, RunM.bind_done hs₁, RunM.pure_apply, override_received hg hn]
      · exact fails_of_not_afresh hn (hp.free n.id .refl) (hdet n.id n .refl hn)
          (fun x hx => href _ (hall x hx)) hnone
    · refine .inl (assemble_failed_of_missing hg hp href hlow hall (fun m t hm hmnone ht => ?_)
        hfresh)
      exact ih (Option.isSome_iff_exists.2 (hg.node?_of_feeds hm)) (hp.source hm) (hdet.source hm)
        hmnone (hlow m hm) ht.afresh fun y hy hup => ht.free y hy (Relation.TransGen.tail' hup hm)

/-- Where all that is upstream of a node calculates from inputs alone, a run of the node that is
started with no outputs at all finds the outputs of evaluations afresh, for the node and all that is
upstream of it, or it fails, where there are none. -/
theorem runNode_determined (hg : e.graph.Sound) (hnode : (e.graph.node? node).isSome)
    (hp : e.Pullable node) (hdet : e.Determined node) (hcache : s.cache = ∅)
    (hidle : s.evaluating = []) {allowance : Nat} (hallowance : e.graph.nodes.length ≤ allowance) :
    (∃ out s', e.runNode allowance node s = (.done out, s') ∧ e.Afresh ∅ node out ∧
      ∀ m, e.graph.Upstream m node → ∃ o, s'.cache.find? m = some o ∧ e.Afresh ∅ m o) ∨
    (∃ err s', e.runNode allowance node s = (.failed err, s')) ∧ ∀ out, ¬ e.Afresh ∅ node out := by
  have hexists : ∀ m, ∃ out, (∃ o, e.Afresh ∅ m o) → e.Afresh ∅ m out := by
    intro m
    by_cases hm : ∃ o, e.Afresh ∅ m o
    · exact hm.imp fun out hout _ => hout
    · exact ⟨∅, fun h => absurd h hm⟩
  -- Outputs of evaluations afresh, where there are any, serve as the reference for both cases.
  choose ref href using hexists
  have hlow : e.graph.height node < allowance :=
    Nat.lt_of_lt_of_le (Graph.height_lt_length ((Graph.mem_ids_iff _ _).2 hnode)
      (hp.acyclic node .refl)) hallowance
  by_cases hout : ∃ out, e.Afresh ∅ node out
  · left
    obtain ⟨out, hout⟩ := hout
    have hup : ∀ m, e.graph.Upstream m node → e.Afresh ∅ m (ref m) :=
      fun m hm => href m (hp.exists_afresh hout hm)
    obtain ⟨order, s', hs', heval, -⟩ := runNode_evaluated hg allowance hp hup hlow
      (s := s) (by simp [hcache]) (by simp [hidle]) (by simp [hcache])
    refine ⟨ref node, s', hs', hup node .refl, fun m hm => ⟨ref m, ?_, hup m hm⟩⟩
    have hmem : m ∈ order ++ [node] := mem_of_upstream (fun pre m post horder a ha =>
      ((horder ▸ heval.scheduled).sources ha).resolve_left (by simp [hcache, Table.contains])) hm
    rw [heval.cache, find?_keep, if_pos hmem]
  · refine .inr ⟨?_, fun out h => hout ⟨out, h⟩⟩
    exact runNode_failed hg allowance hnode hp hdet href (fun out h => hout ⟨out, h⟩) hlow
      (by simp [hcache]) (by simp [hidle])

end Engine

end Patchbay
