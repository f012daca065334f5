import Mathlib.Tactic.Choose
import Patchbay.Builtin.Catalogue
import Patchbay.Proofs.Run.Calls
import Patchbay.Proofs.Run.Reference
import Patchbay.Proofs.Session.Sound

/-!
# Pulled evaluation is evaluation afresh

A run keeps the outputs it has calculated, and pulls what it has not. For nodes without control
ports that do not feed themselves this comes to the same as evaluation afresh, with each node
calculated once, after all its sources.

The proof goes by the allowance, which has to exceed the height of the node. What an action did is
said by `Evaluated`: it lists the nodes that were evaluated, in their order. Such lists are put
together one after the other (`Evaluated.trans`), so each part of an evaluation needs one lemma.

## Key results

- `Evaluated.trans`: one action after the other
- `runNode_evaluated`: what the evaluation of one node does to a state whose outputs are right
- `runNode_eq_afresh`: started with no outputs at all, it finds the outputs of an evaluation afresh
-/

namespace Patchbay

/-- What a step shows of an evaluation: that it calculates, or that it has ended with outputs. -/
def Step.mark? : Step → Option (String × Option PortValues)
  | calculated node _ => some (node, none)
  | event (.nodeEvaluated _ node outputs) => some (node, some outputs)
  | _ => none

/-- The evaluations in the trace. -/
def RunState.marks (s : RunState) : List (String × Option PortValues) :=
  s.trace.toList.filterMap Step.mark?

namespace Graph

variable {g : Graph}

/-- The nodes of a list are not known before, and each comes after all its sources. -/
def Scheduled (g : Graph) (known : String → Prop) : List String → Prop
  | [] => True
  | m :: ms =>
    ¬ known m ∧ (∀ a, g.Feeds a m → known a) ∧ g.Scheduled (fun x => known x ∨ x = m) ms

theorem scheduled_append {known : String → Prop} {ms ns : List String} :
    g.Scheduled known (ms ++ ns) ↔
      g.Scheduled known ms ∧ g.Scheduled (fun x => known x ∨ x ∈ ms) ns := by
  induction ms generalizing known with
  | nil => simp [Scheduled]
  | cons m ms ih =>
    simp only [List.cons_append, Scheduled, ih, List.mem_cons, or_assoc, and_assoc]

/-- Nothing is scheduled twice. -/
theorem Scheduled.nodup {known : String → Prop} {ms : List String} (h : g.Scheduled known ms) :
    ms.Nodup ∧ ∀ m ∈ ms, ¬ known m := by
  induction ms generalizing known with
  | nil => exact ⟨List.nodup_nil, List.forall_mem_nil _⟩
  | cons m ms ih =>
    obtain ⟨hm, _, hms⟩ := h
    obtain ⟨hnodup, hnew⟩ := ih hms
    refine ⟨List.nodup_cons.2 ⟨fun hmem => hnew m hmem (.inr rfl), hnodup⟩, ?_⟩
    intro x hx
    rcases List.mem_cons.1 hx with rfl | hx
    · exact hm
    · exact fun hk => hnew x hx (.inl hk)

/-- The sources of a scheduled node are known, or are scheduled before it. -/
theorem Scheduled.sources {known : String → Prop} {pre post : List String} {m : String}
    (h : g.Scheduled known (pre ++ m :: post)) {a : String} (ha : g.Feeds a m) :
    known a ∨ a ∈ pre :=
  (scheduled_append.1 h).2.2.1 a ha

end Graph

/-- The outputs of the nodes of a list are kept. -/
def keep (ref : String → PortValues) (order : List String) (cache : Table String PortValues) :
    Table String PortValues :=
  order.foldl (fun c m => c.insert m (ref m)) cache

theorem find?_keep (ref : String → PortValues) (order : List String)
    (cache : Table String PortValues) (x : String) :
    (keep ref order cache).find? x = if x ∈ order then some (ref x) else cache.find? x := by
  unfold keep
  induction order generalizing cache with
  | nil => simp
  | cons m ms ih =>
    rw [List.foldl_cons, ih, Table.find?_insert]
    by_cases hx : x ∈ ms
    · simp [hx]
    · by_cases hm : x = m
      · simp [hm]
      · simp [hx, hm]

theorem contains_keep (ref : String → PortValues) (order : List String)
    (cache : Table String PortValues) (x : String) :
    (keep ref order cache).contains x ↔ cache.contains x ∨ x ∈ order := by
  unfold Table.contains
  rw [find?_keep]
  by_cases hx : x ∈ order <;> simp [hx]

/-- Between two states the nodes of a list were evaluated, one after the other, with outputs as
given by `ref`: they were not kept before, and each comes after all its sources. -/
structure Evaluated (g : Graph) (ref : String → PortValues) (order : List String)
    (s s' : RunState) : Prop where
  cache : s'.cache = keep ref order s.cache
  evaluating : s'.evaluating = s.evaluating
  /-- Nothing else is evaluated while a node is calculated. -/
  marks : s'.marks = s.marks ++ order.flatMap fun m => [(m, none), (m, some (ref m))]
  scheduled : g.Scheduled (fun x => s.cache.contains x) order

namespace Evaluated

variable {g : Graph} {ref : String → PortValues} {s s' s'' : RunState}

theorem refl (s : RunState) : Evaluated g ref [] s s :=
  ⟨rfl, rfl, (List.append_nil _).symm, trivial⟩

theorem trans {ms ns : List String} (h₁ : Evaluated g ref ms s s')
    (h₂ : Evaluated g ref ns s' s'') : Evaluated g ref (ms ++ ns) s s'' where
  cache := by rw [h₂.cache, h₁.cache, keep, keep, keep, List.foldl_append]
  evaluating := h₂.evaluating.trans h₁.evaluating
  marks := by rw [h₂.marks, h₁.marks, List.flatMap_append, List.append_assoc]
  scheduled := by
    refine Graph.scheduled_append.2 ⟨h₁.scheduled, ?_⟩
    have hknown : (fun x => s'.cache.contains x = true) =
        fun x => s.cache.contains x = true ∨ x ∈ ms := by
      funext x
      rw [h₁.cache, contains_keep]
    exact hknown ▸ h₂.scheduled

@[simp]
theorem marks_push (s : RunState) (step : Step) :
    (s.push step).marks = s.marks ++ step.mark?.toList := by
  simp only [RunState.push, RunState.marks, Array.toList_push, List.filterMap_append]
  cases h : step.mark? <;> simp [h]

/-- A step that is not part of an evaluation. -/
theorem log (s : RunState) (step : Step) (h : step.mark? = none) :
    Evaluated g ref [] s (s.push step) :=
  ⟨rfl, rfl, by rw [marks_push, h]; rfl, trivial⟩

end Evaluated

namespace Engine

variable {e : Engine} {ref : String → PortValues}

/-- A calculation that fires nothing leaves the outputs of all nodes as they are. -/
theorem interpret_evaluated (e : Engine) (ref : String → PortValues) (resume : String → RunM Unit)
    (node : String) (flows : Table String String) {script : Script PortValues} {out : PortValues}
    (h : script.Yields out) (s : RunState) :
    ∃ s', e.interpret resume node flows script s = (.done out, s') ∧
      Evaluated e.graph ref [] s s' := by
  induction script generalizing s with
  | done a =>
    obtain rfl : a = out := h
    exact ⟨s, rfl, .refl s⟩
  -- A script that is settled by its inputs neither fails nor fires.
  | fail err => exact h.elim
  | fire port outputs next _ => exact h.elim
  | consult key next ih => exact ih _ (h _) s
  | store key entry next ih =>
    obtain ⟨s', hs', heval⟩ := ih h { s with context := s.context.insert key entry }
    exact ⟨s', hs', ⟨heval.cache, heval.evaluating, heval.marks, heval.scheduled⟩⟩
  | print line next ih =>
    rw [interpret_print]
    split
    · obtain ⟨s', hs', heval⟩ := ih h (s.push (.printed line))
      exact ⟨s', hs', (Evaluated.log _ _ rfl).trans heval⟩
    · exact ih h s
  | inform line next ih =>
    obtain ⟨s', hs', heval⟩ := ih h (s.push (.informed line))
    exact ⟨s', hs', (Evaluated.log _ _ rfl).trans heval⟩

/-- An event changes nothing but the trace. -/
theorem emit_done (e : Engine) (make : String → RunEvent) (s : RunState) :
    ∃ s', e.emit make s = (.done (), s') ∧ s'.cache = s.cache ∧ s'.evaluating = s.evaluating ∧
      s'.marks = s.marks ++ (Step.event (make s.runId)).mark?.toList := by
  refine e.emit_ends ⟨rfl, rfl, Evaluated.marks_push s _⟩ ?_
  rintro reason t ⟨hcache, hevaluating, hmarks⟩
  refine ⟨hcache, hevaluating, ?_⟩
  rw [Evaluated.marks_push, hmarks]
  exact List.append_nil _

/-- Once the inputs of a node are there, its calculation is the only evaluation that follows. -/
theorem evaluate_done {pull : String → RunM Unit} (resume : String → RunM Unit) {node : Node}
    {inputs out : PortValues} {s s₁ : RunState} (hin : e.assemble pull node s = (.done inputs, s₁))
    (hyields : (e.script node inputs).Yields out) :
    ∃ s', e.evaluate pull resume node s = (.done out, s') ∧
      s'.cache = s₁.cache.insert node.id out ∧ s'.evaluating = s₁.evaluating ∧
      s'.marks = s₁.marks ++ [(node.id, none), (node.id, some out)] := by
  obtain ⟨s₂, hs₂, heval⟩ := e.interpret_evaluated (fun _ => out) resume node.id (e.flows node)
    hyields (s₁.push (.calculated node.id inputs))
  obtain ⟨s₃, hs₃, hcache, hevaluating, hmarks⟩ := e.emit_done
    (fun run => .nodeEvaluated run node.id out) (s₂.withCache (s₂.cache.insert node.id out))
  refine ⟨s₃, ?_, ?_, ?_, ?_⟩
  · rw [evaluate, RunM.bind_done hin]
    simp only [RunM.log_bind]
    refine (RunM.bind_done hs₂).trans ?_
    simp only [RunM.change_bind]
    exact RunM.bind_done hs₃
  · show s₃.cache = s₁.cache.insert node.id out
    rw [hcache, RunState.withCache, heval.cache]
    rfl
  · exact hevaluating.trans heval.evaluating
  -- The marks are those of the sources, then that of the calculation, then that of its end.
  · have hcalculated : s₂.marks = s₁.marks ++ [(node.id, none)] := by
      rw [heval.marks, Evaluated.marks_push]
      exact List.append_nil _
    have hsame : (s₂.withCache (s₂.cache.insert node.id out)).marks = s₂.marks := rfl
    rw [hmarks, hsame, hcalculated, List.append_assoc]
    rfl

/-- The state is one in which the sources of a node can be pulled: the outputs that are kept are
those of `ref`, and nothing upstream of the node is being evaluated. -/
structure Ready (e : Engine) (ref : String → PortValues) (node : String) (s : RunState) : Prop where
  right : ∀ x out, s.cache.find? x = some out → out = ref x
  free : ∀ x ∈ s.evaluating, ¬ e.graph.Above x node

theorem Ready.evaluated {node : String} {s s' : RunState} {order : List String}
    (h : e.Ready ref node s) (heval : Evaluated e.graph ref order s s') : e.Ready ref node s' where
  right := fun x out hx => by
    rw [heval.cache, find?_keep] at hx
    split at hx
    · exact (Option.some.inj hx).symm
    · exact h.right x out hx
  free := by
    rw [heval.evaluating]
    exact h.free

/-- A value is taken for a node: what is pulled before was evaluated, and the value is right. -/
theorem receive_evaluated {pull : String → RunM Unit} (node : Node) {x : WireId × Wire}
    {s s₁ : RunState} {order : List String} (hpull : pull x.2.source s = (.done (), s₁))
    (heval : Evaluated e.graph ref order s s₁)
    (hsource : s₁.cache.find? x.2.source = some (ref x.2.source)) (inputs : PortValues) :
    ∃ s', e.receive pull node inputs x s =
        (.done (inputs.insert x.2.targetPort (e.brought ref node x.2)), s') ∧
      Evaluated e.graph ref order s s' ∧ s'.cache = s₁.cache := by
  obtain ⟨i, w⟩ := x
  have hraw : s₁.output? w.source w.sourcePort = (ref w.source).find? w.sourcePort := by
    simp [RunState.output?, hsource]
  have hlog := heval.trans (Evaluated.log s₁
    (.received node.id i ((s₁.output? w.source w.sourcePort).getD .null) s₁.cache) rfl)
  rw [List.append_nil] at hlog
  refine ⟨_, ?_, hlog, rfl⟩
  rw [receive, RunM.bind_done hpull, brought, ← hraw]
  rfl

/-- The sources of a node are pulled one after the other. -/
theorem receiveAll_evaluated (pull : String → RunM Unit) {node : Node} {P : String → Prop}
    (xs : List (WireId × Wire))
    (hpull : ∀ x ∈ xs, ∀ s, e.Ready ref node.id s → ∃ order s', pull x.2.source s = (.done (), s') ∧
      Evaluated e.graph ref order s s' ∧ (∀ y ∈ order, P y) ∧
      s'.cache.find? x.2.source = some (ref x.2.source))
    (inputs : PortValues) (s : RunState) (hready : e.Ready ref node.id s) :
    ∃ order s', xs.foldlM (e.receive pull node) inputs s =
        (.done (e.received ref node xs inputs), s') ∧
      Evaluated e.graph ref order s s' ∧ (∀ y ∈ order, P y) ∧
      ∀ x ∈ xs, s'.cache.contains x.2.source := by
  induction xs generalizing inputs s with
  | nil => exact ⟨[], s, rfl, .refl s, List.forall_mem_nil _, List.forall_mem_nil _⟩
  | cons x xs ih =>
    obtain ⟨ms, s₁, hs₁, heval₁, habove₁, hsource⟩ := hpull x List.mem_cons_self s hready
    obtain ⟨s₂, hs₂, heval₂, hcache₂⟩ := receive_evaluated node hs₁ heval₁ hsource inputs
    obtain ⟨ns, s₃, hs₃, heval₃, habove₃, hknown⟩ :=
      ih (fun x hx => hpull x (List.mem_cons_of_mem _ hx)) _ s₂ (hready.evaluated heval₂)
    -- The first source stays there while the others are pulled.
    refine ⟨ms ++ ns, s₃, ?_, heval₂.trans heval₃, ?_, ?_⟩
    · rw [List.foldlM_cons, RunM.bind_done hs₂, hs₃]
      rfl
    · intro y hy
      exact (List.mem_append.1 hy).elim (habove₁ y) (habove₃ y)
    · intro y hy
      rcases List.mem_cons.1 hy with rfl | hy
      · rw [heval₃.cache, contains_keep, hcache₂, Table.contains, hsource]
        exact .inl rfl
      · exact hknown y hy

/-- A source is pulled by a step that evaluates it, or is there already. -/
theorem pull_evaluated {step : String → RunM PortValues} {node source : String}
    (hfeeds : e.graph.Feeds source node) (hflow : e.graph.usesFlow source = false) {s : RunState}
    (hready : e.Ready ref node s)
    (hstep : s.cache.find? source = none → ∃ order s', step source s = (.done (ref source), s') ∧
      Evaluated e.graph ref (order ++ [source]) s s' ∧ ∀ y ∈ order, e.graph.Above y source) :
    ∃ order s', e.pull step source s = (.done (), s') ∧ Evaluated e.graph ref order s s' ∧
      (∀ y ∈ order, e.graph.Upstream y source) ∧
      s'.cache.find? source = some (ref source) := by
  cases hsource : s.cache.find? source with
  | some out =>
    refine ⟨[], s, ?_, .refl s, List.forall_mem_nil _, ?_⟩
    · simp [pull, Table.contains, hsource]
    · rw [hsource, hready.right source out hsource]
  | none =>
    obtain ⟨order, s', hs', heval, habove⟩ := hstep hsource
    -- Nothing above the node is being evaluated, so that no cycle is reported.
    have hfree : source ∉ s.evaluating :=
      fun hmem => hready.free source hmem (Relation.TransGen.single hfeeds)
    refine ⟨order ++ [source], s', ?_, heval, ?_, ?_⟩
    · simp only [pull, RunM.read_bind, Table.contains, hsource, Option.isSome_none,
        Bool.false_eq_true, if_false, hflow, List.contains_eq_mem, hfree, decide_false]
      exact RunM.discard_done hs'
    · intro y hy
      rcases List.mem_append.1 hy with hy | hy
      · exact (habove y hy).to_reflTransGen
      · rw [List.mem_singleton.1 hy]
        exact .refl
    · rw [heval.cache, find?_keep, if_pos (List.mem_append_right _ (List.mem_singleton_self _))]

/-- The node can be evaluated by pulling: nothing upstream of it has control ports or feeds
itself. -/
structure Pullable (e : Engine) (node : String) : Prop where
  free : ∀ m, e.graph.Upstream m node → e.graph.usesFlow m = false
  acyclic : ∀ m, e.graph.Upstream m node → ¬ e.graph.Above m m

theorem Pullable.source {m n : String} (h : e.Pullable n) (hm : e.graph.Feeds m n) : e.Pullable m :=
  ⟨fun k hk => h.free k (hk.tail hm), fun k hk => h.acyclic k (hk.tail hm)⟩

/-- The outputs of the node come from those of its sources. -/
theorem Pullable.calculated {node : String} (hp : e.Pullable node)
    (href : ∀ m, e.graph.Upstream m node → e.Afresh ∅ m (ref m)) :
    ∃ n, e.graph.node? node = some n ∧ (e.script n (e.inputsFrom ref n)).Yields (ref node) := by
  cases href node .refl with
  | held hflow => exact absurd ((hp.free node .refl).symm.trans hflow) Bool.false_ne_true
  | @calculated _ n _ outputs _ hn hsources hyields =>
    have hsame : ∀ x ∈ e.graph.dataWires node, outputs x.2.source = ref x.2.source := fun x hx =>
      (hsources x hx).unique
        (href _ (Relation.ReflTransGen.single (Graph.feeds_of_mem_dataWires hx)))
    rw [← Graph.id_of_node? hn] at hsame
    exact ⟨n, hn, inputsFrom_congr hsame ▸ hyields⟩

/-- An allowance beyond the height of a node is enough to evaluate it with the outputs of an
evaluation afresh, if what is kept are such outputs. -/
theorem runNode_evaluated (hg : e.graph.Sound) (allowance : Nat) {node : String}
    (hp : e.Pullable node)
    (href : ∀ m, e.graph.Upstream m node → e.Afresh ∅ m (ref m))
    (hallowance : e.graph.height node < allowance) {s : RunState}
    (hright : ∀ x out, s.cache.find? x = some out → out = ref x)
    (hfree : ∀ x ∈ s.evaluating, ¬ e.graph.Upstream x node) (hnew : s.cache.find? node = none) :
    ∃ order s', e.runNode allowance node s = (.done (ref node), s') ∧
      Evaluated e.graph ref (order ++ [node]) s s' ∧ ∀ y ∈ order, e.graph.Above y node := by
  induction allowance generalizing node s with
  | zero => exact absurd hallowance (Nat.not_lt_zero _)
  | succ k ih =>
    obtain ⟨n, hn, hyields⟩ := hp.calculated href
    obtain rfl : n.id = node := Graph.id_of_node? hn
    -- While the node is evaluated, its sources can be pulled.
    have hready : e.Ready ref n.id { s with evaluating := n.id :: s.evaluating } := by
      refine ⟨hright, fun x hx habove => ?_⟩
      rcases List.mem_cons.1 hx with rfl | hx
      · exact hp.acyclic n.id .refl habove
      · exact hfree x hx habove.to_reflTransGen
    obtain ⟨order, s₁, hs₁, heval, habove, hknown⟩ := receiveAll_evaluated
      (P := fun y => e.graph.Above y n.id) (e.pull (e.runNode k)) (e.graph.dataWires n.id)
      (fun x hx t ht => by
        have hfeeds := Graph.feeds_of_mem_dataWires hx
        have hlow := Graph.height_lt_of_feeds hg hfeeds
          (hp.acyclic _ (Relation.ReflTransGen.single hfeeds))
        obtain ⟨order, t', hpull, heval, hup, hkept⟩ := pull_evaluated hfeeds
          (hp.free _ (Relation.ReflTransGen.single hfeeds)) ht
          fun hnew => ih (hp.source hfeeds) (fun m hm => href m (hm.tail hfeeds)) (by omega)
            ht.right (fun y hy hup => ht.free y hy (Relation.TransGen.tail' hup hfeeds)) hnew
        exact ⟨order, t', hpull, heval, fun y hy => Relation.TransGen.tail' (hup y hy) hfeeds,
          hkept⟩)
      ∅ _ hready
    have hin : e.assemble (e.pull (e.runNode k)) n { s with evaluating := n.id :: s.evaluating } =
        (.done (e.inputsFrom ref n), s₁) := by
      rw [assemble, RunM.bind_done hs₁, RunM.pure_apply, override_received hg hn]
    obtain ⟨s₂, hs₂, hcache, hevaluating, hmarks⟩ :=
      evaluate_done (e.walk (e.runNode k) k) hin hyields
    refine ⟨order, { s₂ with evaluating := s₂.evaluating.tail }, ?_, ⟨?_, ?_, ?_, ?_⟩, habove⟩
    · have hkind : e.graph.kinds.contains n.kind = true := hg.declared n.id n hn
      rw [runNode, hn]
      simp only [hkind, if_true]
      rw [RunM.within_apply, hs₂]
    · rw [hcache, heval.cache, keep, keep, List.foldl_append]
      rfl
    · show s₂.evaluating.tail = s.evaluating
      rw [hevaluating, heval.evaluating]
      rfl
    · show s₂.marks = _
      rw [hmarks, heval.marks, List.flatMap_append, List.append_assoc]
      rfl
    · refine Graph.scheduled_append.2 ⟨heval.scheduled, ?_, fun a ha => ?_, trivial⟩
      · rintro (hknown | hmem)
        · simp [Table.contains, hnew] at hknown
        · exact hp.acyclic n.id .refl (habove n.id hmem)
      · obtain ⟨i, w, hw, rfl⟩ := Graph.exists_dataWire_of_feeds ha
        have hcontains := hknown (i, w) hw
        rwa [heval.cache, contains_keep] at hcontains

/-- From what their sources come to, the node and all that is upstream of it can be calculated: each
calculation succeeds, has its outcome settled by its inputs, and fires nothing. -/
def Calculates (e : Engine) (node : String) : Prop :=
  ∀ m n outputs, e.graph.Upstream m node → e.graph.node? m = some n →
    (∀ x ∈ e.graph.dataWires m, e.Afresh ∅ x.2.source (outputs x.2.source)) →
    ∃ out, (e.script n (e.inputsFrom outputs n)).Yields out

/-- Where nothing feeds itself and all can be calculated, an evaluation afresh comes to an end. -/
theorem exists_afresh (hg : e.graph.Sound) {node : String} (hnode : (e.graph.node? node).isSome)
    (hp : e.Pullable node) (hcalc : e.Calculates node) : ∃ out, e.Afresh ∅ node out := by
  induction hk : e.graph.height node using Nat.strongRecOn generalizing node with
  | _ k ih =>
    have hsource : ∀ a, ∃ out, e.graph.Feeds a node → e.Afresh ∅ a out := by
      intro a
      by_cases ha : e.graph.Feeds a node
      · have hlow := Graph.height_lt_of_feeds hg ha
          (hp.acyclic a (Relation.ReflTransGen.single ha))
        obtain ⟨n, hn⟩ := hg.node?_of_feeds ha
        obtain ⟨out, hout⟩ := ih _ (hk ▸ hlow) (by rw [hn]; rfl) (hp.source ha)
          (fun m n outputs hm => hcalc m n outputs (hm.tail ha)) rfl
        exact ⟨out, fun _ => hout⟩
      · exact ⟨∅, fun h => absurd h ha⟩
    -- All sources at once; their heights are smaller, since nothing feeds itself.
    choose outputs houtputs using hsource
    obtain ⟨n, hn⟩ := Option.isSome_iff_exists.1 hnode
    have hsources : ∀ x ∈ e.graph.dataWires node, e.Afresh ∅ x.2.source (outputs x.2.source) :=
      fun x hx => houtputs _ (Graph.feeds_of_mem_dataWires hx)
    obtain ⟨out, hout⟩ := hcalc node n outputs .refl hn hsources
    exact ⟨out, .calculated outputs (hp.free node .refl) hn hsources hout⟩

/-- Everything upstream of such a node has outputs. -/
theorem exists_afresh_upstream (hg : e.graph.Sound) {node : String}
    (hnode : (e.graph.node? node).isSome) (hp : e.Pullable node) (hcalc : e.Calculates node)
    {m : String} (hm : e.graph.Upstream m node) : ∃ out, e.Afresh ∅ m out := by
  have hsome : (e.graph.node? m).isSome := by
    rcases Relation.ReflTransGen.cases_head hm with rfl | ⟨k, hk, _⟩
    · exact hnode
    · obtain ⟨n, hn⟩ := hg.node?_of_feeds hk
      rw [hn]
      rfl
  exact exists_afresh hg hsome
    ⟨fun k hk => hp.free k (hk.trans hm), fun k hk => hp.acyclic k (hk.trans hm)⟩
    fun k n outputs hk => hcalc k n outputs (hk.trans hm)

/-- A list that ends in a node, and in which all nodes come after their sources, has all that is
upstream of the node. -/
theorem mem_of_upstream {node : String} {order : List String}
    (hsource : ∀ pre m post, order ++ [node] = pre ++ m :: post →
      ∀ a, e.graph.Feeds a m → a ∈ pre)
    {m : String} (hm : e.graph.Upstream m node) : m ∈ order ++ [node] := by
  induction hm using Relation.ReflTransGen.head_induction_on with
  | refl => exact List.mem_append_right _ (List.mem_singleton_self _)
  | head ha _ ih =>
    obtain ⟨pre, post, horder⟩ := List.append_of_mem ih
    rw [horder]
    exact List.mem_append_left _ (hsource pre _ post horder _ ha)

/-- An engine that is made of a patch runs the graph of that patch. -/
theorem graph_of_ofPatch {p : Patch} {refusal : Option String}
    (he : Engine.ofPatch p refusal = .ok e) : e.graph = p.toGraph := by
  unfold ofPatch at he
  split at he
  · rw [← Except.ok.inj he]
  · cases he

/-- An engine that was made of the patch of a session has sound wiring. -/
theorem sound_of_ofPatch {session : Session} (hreach : session.Reachable) {refusal : Option String}
    (he : Engine.ofPatch session.patch refusal = .ok e) : e.graph.Sound :=
  graph_of_ofPatch he ▸ (Session.wired_of_reachable hreach).sound

/-- Started with no outputs kept, on a node such that nothing upstream of it has control ports or
feeds itself and all of it can be calculated, a run ends with the outputs of an evaluation afresh.
Afterwards the outputs of the node and of all nodes upstream are kept, and no others. Each of these
nodes was evaluated once, after all its sources had been. -/
theorem runNode_eq_afresh {session : Session} (hreach : session.Reachable) {refusal : Option String}
    (he : Engine.ofPatch session.patch refusal = .ok e) {s : RunState} (hs : e.Between s)
    (hcache : s.cache = ∅) {node : String} (hnode : (e.graph.node? node).isSome)
    (hp : e.Pullable node) (hcalc : e.Calculates node) {allowance : Nat}
    (hallowance : e.graph.nodes.length ≤ allowance) :
    ∃ out s' order, e.runNode allowance node s = (.done out, s') ∧ e.Afresh ∅ node out ∧
      (∀ m o, s'.cache.find? m = some o ↔ e.graph.Upstream m node ∧ e.Afresh ∅ m o) ∧
      s'.marks = s.marks ++ order.flatMap (fun m => [(m, none), (m, s'.cache.find? m)]) ∧
      order.Nodup ∧ (∀ m, m ∈ order ↔ e.graph.Upstream m node) ∧
      ∀ pre m post, order = pre ++ m :: post → ∀ a, e.graph.Feeds a m → a ∈ pre := by
  have hg := sound_of_ofPatch hreach he
  -- Everything upstream has outputs, which are taken for the outputs to be found.
  have hexists : ∀ m, ∃ out, e.graph.Upstream m node → e.Afresh ∅ m out := by
    intro m
    by_cases hm : e.graph.Upstream m node
    · obtain ⟨out, hout⟩ := exists_afresh_upstream hg hnode hp hcalc hm
      exact ⟨out, fun _ => hout⟩
    · exact ⟨∅, fun h => absurd h hm⟩
  choose ref href using hexists
  have hlow : e.graph.height node < allowance :=
    Nat.lt_of_lt_of_le (Graph.height_lt_length ((Graph.mem_ids_iff _ _).2 hnode)
      (hp.acyclic node .refl)) hallowance
  obtain ⟨order, s', hrun, heval, habove⟩ := runNode_evaluated hg allowance hp href hlow
    (s := s) (by simp [hcache]) (by simp [hs.evaluating]) (by simp [hcache])
  have hknown : ∀ x, s.cache.contains x = true → False := by simp [hcache, Table.contains]
  have hsource : ∀ pre m post, order ++ [node] = pre ++ m :: post →
      ∀ a, e.graph.Feeds a m → a ∈ pre := by
    intro pre m post horder a ha
    exact ((horder ▸ heval.scheduled).sources ha).resolve_left (hknown a)
  have hmem : ∀ m, m ∈ order ++ [node] ↔ e.graph.Upstream m node := by
    intro m
    constructor
    · intro hm
      rcases List.mem_append.1 hm with hm | hm
      · exact (habove m hm).to_reflTransGen
      · rw [List.mem_singleton.1 hm]
        exact .refl
    · exact mem_of_upstream hsource
  have hfind : ∀ m, s'.cache.find? m = if m ∈ order ++ [node] then some (ref m) else none := by
    intro m
    rw [heval.cache, find?_keep, hcache]
    rfl
  refine ⟨ref node, s', order ++ [node], hrun, href node .refl, fun m o => ?_, ?_,
    heval.scheduled.nodup.1, hmem, hsource⟩
  · rw [hfind, ← hmem m]
    split
    next hm =>
      have hout := href m ((hmem m).1 hm)
      exact ⟨fun ho => ⟨hm, Option.some.inj ho ▸ hout⟩, fun ho => congrArg some (hout.unique ho.2)⟩
    next hm => exact ⟨fun ho => (by cases ho), fun ho => absurd ho.1 hm⟩
  · rw [heval.marks]
    congr 1
    refine congrArg List.flatten (List.map_congr_left fun m hm => ?_)
    rw [hfind, if_pos hm]

/-! ### A text that is compared with itself -/

def comparison : Session :=
  (Session.start true .base 1).performAll
    [.declare Builtin.text, .declare Builtin.equals, .insert "text" "word" .origin,
      .insert "equals" "same" .origin, .connect ⟨"word", "value", "same", "a"⟩,
      .connect ⟨"word", "value", "same", "b"⟩]

def comparer : Engine := ⟨comparison.patch.toGraph, comparison.patch.behaviour, none⟩

theorem feeds_comparer {m n : String} (h : comparer.graph.Feeds m n) :
    m = "word" ∧ n = "same" := by
  have hwires : comparer.graph.wires.entries =
      [(0, ⟨"word", "value", "same", "a"⟩), (1, ⟨"word", "value", "same", "b"⟩)] := by
    decide +kernel
  obtain ⟨i, w, hw, _, rfl, rfl⟩ := h
  have hmem := Table.mem_entries_iff.2 hw
  rw [hwires] at hmem
  simp only [List.mem_cons, Prod.mk.injEq, List.not_mem_nil, or_false] at hmem
  rcases hmem with ⟨_, rfl⟩ | ⟨_, rfl⟩ <;> exact ⟨rfl, rfl⟩

theorem upstream_comparer {m : String} (h : comparer.graph.Upstream m "same") :
    m = "word" ∨ m = "same" := by
  rcases Relation.ReflTransGen.cases_head h with rfl | ⟨_, hm, _⟩
  · exact .inr rfl
  · exact .inl (feeds_comparer hm).1

theorem pullable_comparer : comparer.Pullable "same" where
  free := fun m hm => by
    rcases upstream_comparer hm with rfl | rfl <;> decide +kernel
  acyclic := fun m _ hcycle => by
    obtain ⟨_, hm, _⟩ := Relation.TransGen.head'_iff.1 hcycle
    obtain ⟨_, _, hn⟩ := Relation.TransGen.tail'_iff.1 hcycle
    exact absurd ((feeds_comparer hm).1.symm.trans (feeds_comparer hn).2) (by decide)

theorem calculates_comparer : comparer.Calculates "same" := by
  intro m n outputs hm hn _
  have hkinds : (comparer.graph.node? "word").map (·.kind) = some "text" ∧
      (comparer.graph.node? "same").map (·.kind) = some "equals" := by
    decide +kernel
  unfold script
  rcases upstream_comparer hm with rfl | rfl
  · have hkind : n.kind = "text" := by simpa [hn] using hkinds.1
    rw [hkind]
    exact ⟨_, rfl⟩
  · have hkind : n.kind = "equals" := by simpa [hn] using hkinds.2
    rw [hkind]
    exact ⟨_, rfl⟩

/-- The text is evaluated once, although it is needed twice. -/
theorem runNode_comparer :
    ∃ out s', comparer.runNode 2 "same" (.initial ∅) = (.done out, s') ∧
      comparer.Afresh ∅ "same" out ∧
      s'.marks.map (·.1) = ["word", "word", "same", "same"] := by
  have hreach : comparison.Reachable := Session.Reaches.performAll (.start true .base 1)
    (by decide +kernel)
  have he : Engine.ofPatch comparison.patch none = .ok comparer := rfl
  obtain ⟨out, s', _, hrun, hout, _⟩ := runNode_eq_afresh hreach he (.initial ∅) rfl
    (by decide +kernel) pullable_comparer calculates_comparer (Nat.le_refl 2)
  refine ⟨out, s', hrun, hout, ?_⟩
  have hmarks : (comparer.runNode 2 "same" (.initial ∅)).2.marks.map (·.1) =
      ["word", "word", "same", "same"] := by
    decide +kernel
  rwa [hrun] at hmarks

end Engine

end Patchbay
