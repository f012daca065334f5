import Patchbay.Proofs.Run.Cycling

/-!
# Nodes and kinds that are missing

A node that a run comes to by itself is always there, and so is its kind: sources are pulled over
wires, control goes on over wires, and in sound wiring both ends of every wire are there. So that a
node is missing is only ever said of the node that the host has passed, and that a kind is missing
is never said at all.

## Key results

- `isMissing_of_failed`: the evaluation of a node that is there does not fail for want of one
- `missing_as_passed`: which calls fail because a node is missing
-/

namespace Patchbay

/-- The error says that a node or its kind is missing. -/
def Error.isMissing : Error → Bool
  | kindNotFound _ | nodeNotFound _ => true
  | _ => false

/-- The error that an action ends with. -/
def Outcome.error? {α : Type} : Outcome α → Option Error
  | failed err => some err
  | _ => none

theorem Outcome.error?_eq_some_iff {α : Type} {o : Outcome α} {err : Error} :
    o.error? = some err ↔ o = .failed err := by
  cases o <;> simp [error?]

namespace Engine

open RunM

variable {e : Engine} {s : RunState} {err : Error}

/-- The evaluation of a node that is there comes to no node or kind that is missing. -/
theorem isMissing_of_failed (hg : e.graph.Sound) (hcandid : e.Candid) {allowance : Nat}
    {id : String} (hid : ∃ node, e.graph.node? id = some node)
    (h : (e.runNode allowance id s).1 = .failed err) : err.isMissing = false := by
  induction allowance generalizing id s with
  | zero => cases h
  | succ k ih =>
    obtain ⟨node, hn⟩ := hid
    obtain rfl : node.id = id := Graph.id_of_node? hn
    have hkind : e.graph.kinds.contains node.kind = true := hg.declared node.id node hn
    have hstep := e.evaluating_runNode k
    simp only [runNode, hn, hkind, if_true] at h
    rw [within_apply] at h
    obtain ⟨_, _, rfl⟩ | ⟨m, hfeeds, t, _, h⟩ | ⟨_, port, target, t, hflow, _, h⟩ :=
      failed_of_evaluate (fun id => moves_pull fun _ => hstep id) (moves_walk hstep k)
        (hcandid node.id node hn) h
    · rfl
    · -- A source that cannot be pulled is in the wrong order, or fails itself.
      rcases failed_of_pull h with rfl | ⟨_, ⟨rfl, _⟩ | h⟩
      · rfl
      · rfl
      · exact ih (hg.node?_of_feeds hfeeds) h
    · obtain ⟨next, t', honward, _, h⟩ := failed_of_walk hstep h
      have htarget := hg.node?_of_flowTarget? (flowTarget?_of_flows hflow)
      exact ih (hg.node?_of_onward honward htarget) h

/-! ### Calls -/

/-- A call by which the host has nodes evaluated. -/
inductive Call where
  | runNode (node : String)
  | continueFrom (node : String)
  | runFrom (node : String)
  | runKind (kind : String) (multiple : Bool)

namespace Call

/-- The node that the host passes. -/
def node? : Call → Option String
  | runNode node | continueFrom node | runFrom node => some node
  | runKind _ _ => none

/-- The error that a call ends with. -/
def error? (e : Engine) (allowance : Nat) (s : RunState) : Call → Option Error
  | runNode node => (e.runNode allowance node s).1.error?
  | continueFrom node => (e.continueFrom allowance node s).1.error?
  | runFrom node => (e.runFrom allowance node s).1.error?
  | runKind kind multiple => (e.runKind allowance kind multiple s).1.error?

end Call

/-- A run fails if the flow of control from its node does. -/
theorem failed_runFrom {allowance : Nat} {node : String}
    (h : ∀ t, (e.continueFrom allowance node t).1 = .failed err) (s : RunState) :
    (e.runFrom allowance node s).1 = .failed err := by
  unfold runFrom
  rw [change_bind]
  obtain ⟨s₁, hstart, _⟩ := e.emit_done (fun run => .runStarted run node)
    { s with cache := ∅, evaluating := [], runs := s.runs + 1 }
  rw [bind_done hstart]
  have hfailed : e.continueFrom allowance node s₁ =
      (.failed err, (e.continueFrom allowance node s₁).2) := Prod.ext (h s₁) rfl
  rw [bind_done (attempt_failed hfailed)]
  obtain ⟨s₂, hend, _⟩ := e.emit_done (fun run => .runFailed run err.message)
    (e.continueFrom allowance node s₁).2
  exact congrArg Prod.fst (bind_done hend)

/-- A node that is not there is missed at once, whichever call it is passed to. -/
theorem error?_of_missing {c : Call} {node : String} (hc : c.node? = some node)
    (hnode : e.graph.node? node = none) (k : Nat) (s : RunState) :
    c.error? e (k + 1) s = some (.nodeNotFound node) := by
  have hrun : ∀ t, e.runNode (k + 1) node t = (.failed (.nodeNotFound node), t) := by
    intro t
    simp only [runNode, hnode]
    rfl
  have hcontinue : ∀ t, (e.continueFrom (k + 1) node t).1 = .failed (.nodeNotFound node) := by
    intro t
    exact congrArg Prod.fst (bind_failed (bind_failed (hrun t)))
  cases c with
  | runNode id =>
    obtain rfl := Option.some.inj hc
    exact Outcome.error?_eq_some_iff.2 (congrArg Prod.fst (hrun s))
  | continueFrom id =>
    obtain rfl := Option.some.inj hc
    exact Outcome.error?_eq_some_iff.2 (hcontinue s)
  | runFrom id =>
    obtain rfl := Option.some.inj hc
    exact Outcome.error?_eq_some_iff.2 (failed_runFrom hcontinue s)
  | runKind kind multiple => cases hc

/-- Runs of a kind start at nodes that are there. -/
theorem exists_start_of_runKind {allowance : Nat} {kind : String} {multiple : Bool}
    (h : (e.runKind allowance kind multiple s).1 = .failed err) :
    ∃ node ∈ e.graph.ids, ∃ t, (e.runFrom allowance node t).1 = .failed err := by
  obtain ⟨node, hnode, hfailed⟩ := failed_of_forM h
  refine ⟨node, ?_, hfailed⟩
  have hstart : node ∈ (e.graph.nodes.filter (·.kind = kind)).map (·.id) := by
    cases multiple with
    | true => exact hnode
    | false => exact List.mem_of_mem_take hnode
  exact (List.filter_sublist.map _).subset hstart

/-- A call that fails does so with the error of a node that control has come to, from the node that
was passed, or from one that is there. -/
theorem exists_failed_of_error? {c : Call} {allowance : Nat}
    (h : c.error? e allowance s = some err) :
    ∃ start id t, (c.node? = some start ∨ start ∈ e.graph.ids) ∧ e.graph.Onward start id ∧
      (e.runNode allowance id t).1 = .failed err := by
  cases c with
  | runNode node => exact ⟨node, node, s, .inl rfl, .refl, Outcome.error?_eq_some_iff.1 h⟩
  | continueFrom node =>
    obtain ⟨id, t, honward, _, h⟩ :=
      failed_of_walk (e.evaluating_runNode allowance) (Outcome.error?_eq_some_iff.1 h)
    exact ⟨node, id, t, .inl rfl, honward, h⟩
  | runFrom node =>
    obtain ⟨id, t, honward, _, h⟩ := failed_of_runFrom (Outcome.error?_eq_some_iff.1 h)
    exact ⟨node, id, t, .inl rfl, honward, h⟩
  | runKind kind multiple =>
    obtain ⟨node, hnode, t, h⟩ := exists_start_of_runKind (Outcome.error?_eq_some_iff.1 h)
    obtain ⟨id, t, honward, _, h⟩ := failed_of_runFrom h
    exact ⟨node, id, t, .inr hnode, honward, h⟩

/-- If something is missing, it is the node that was passed. -/
theorem passed_of_isMissing (hg : e.graph.Sound) (hcandid : e.Candid) {c : Call} {allowance : Nat}
    (h : c.error? e allowance s = some err) (hmissing : err.isMissing = true) :
    0 < allowance ∧ ∃ n, c.node? = some n ∧ n ∉ e.graph.ids ∧ err = .nodeNotFound n := by
  obtain ⟨start, id, t, hstart, honward, hfailed⟩ := exists_failed_of_error? h
  have hnot : start ∉ e.graph.ids := fun hmem => by
    have hnode := Option.isSome_iff_exists.1 ((Graph.mem_ids_iff _ start).1 hmem)
    have hpresent := isMissing_of_failed hg hcandid (hg.node?_of_onward honward hnode) hfailed
    exact Bool.false_ne_true (hpresent.symm.trans hmissing)
  have hpassed := hstart.resolve_right hnot
  cases allowance with
  | zero => cases hfailed
  | succ k =>
    have hfound := error?_of_missing hpassed ((Graph.node?_eq_none_iff _ start).2 hnot) k s
    exact ⟨Nat.succ_pos k, start, hpassed, hnot, Option.some.inj (h.symm.trans hfound)⟩

/-- Take any session, any engine over its patch whose calculations report failures but make up no
other errors, and any call of its host, in whatever state the calls before have left the engine.
The call never fails because a kind is not found. It fails because a node is not found if the host
has passed that node and it is not in the patch, and only then. No node that is in the patch ever
fails like that when it is evaluated, and those that a run comes to by itself are in the patch: the
sources that are pulled, the nodes that control goes on to, and those that outputs are fired
into. -/
theorem missing_as_passed {session : Session} (hreach : session.Reachable)
    {refusal : Option String} (he : Engine.ofPatch session.patch refusal = .ok e)
    (hcandid : e.Candid) :
    (∀ (c : Call) (allowance : Nat) (t : RunState),
      (∀ kind, c.error? e allowance t ≠ some (.kindNotFound kind)) ∧
      ∀ n, c.error? e allowance t = some (.nodeNotFound n) ↔
        0 < allowance ∧ c.node? = some n ∧ n ∉ session.patch.ids) ∧
    (∀ id ∈ session.patch.ids, ∀ (allowance : Nat) (t : RunState) (err : Error),
      (e.runNode allowance id t).1 = .failed err → err.isMissing = false) ∧
    (∀ m n, e.graph.Feeds m n → m ∈ session.patch.ids) ∧
    (∀ m n, e.graph.nextInFlow? m = some n → n ∈ session.patch.ids) ∧
    ∀ node port target, (e.flows node).find? port = some target → target ∈ session.patch.ids := by
  have hg := sound_of_ofPatch hreach he
  have hpatch := graph_of_ofPatch he
  have hids : ∀ n, (∃ node, e.graph.node? n = some node) ↔ n ∈ session.patch.ids := fun n => by
    rw [hpatch, Graph.mem_ids_iff, Option.isSome_iff_exists]
  refine ⟨fun c allowance t => ⟨fun kind h => ?_, fun n => ⟨fun h => ?_, ?_⟩⟩,
    fun id hid allowance t err => isMissing_of_failed hg hcandid ((hids id).2 hid),
    fun m n h => (hids m).1 (hg.node?_of_feeds h),
    fun m n h => (hids n).1 (hg.node?_of_flowTarget? h),
    fun node port target h => (hids target).1 (hg.node?_of_flowTarget? (flowTarget?_of_flows h))⟩
  · obtain ⟨_, n, _, _, herr⟩ := passed_of_isMissing hg hcandid h rfl
    cases herr
  · obtain ⟨hallowance, m, hc, hm, herr⟩ := passed_of_isMissing hg hcandid h rfl
    obtain rfl := Error.nodeNotFound.inj herr
    exact ⟨hallowance, hc, hpatch ▸ hm⟩
  · rintro ⟨hallowance, hc, hn⟩
    obtain ⟨k, rfl⟩ := Nat.exists_eq_add_one_of_ne_zero (Nat.ne_of_gt hallowance)
    exact error?_of_missing hc ((Graph.node?_eq_none_iff _ n).2 (hpatch ▸ hn)) k t

/-- The first of the sums that feed each other is removed. -/
def tornOperations : List Operation := ringOperations ++ [.remove "a"]

def torn : Session := (Session.start true .base 1).performAll tornOperations

def tornEngine : Engine := ⟨torn.patch.toGraph, torn.patch.behaviour, none⟩

/-- The third sum needs the second one, which does not need the first one any more. The first one is
only missed where it is passed. -/
theorem missing_as_passed_torn :
    (tornEngine.runNode 10 "c" (.initial ∅)).1.error? = none ∧
      (Call.runFrom "a").error? tornEngine 10 (tornEngine.runNode 10 "c" (.initial ∅)).2 =
        some (.nodeNotFound "a") ∧
      (∀ kind, (Call.runFrom "c").error? tornEngine 10 (.initial ∅) ≠ some (.kindNotFound kind)) ∧
      (Call.runFrom "c").error? tornEngine 10 (.initial ∅) ≠ some (.nodeNotFound "a") := by
  have hallowed : Session.AllowedAll (fun s op => op.Fresh s.patch ∧ op.Declares (· ∈ Builtin.all))
      (Session.start true .base 1) tornOperations :=
    Session.AllowedAll.and (by decide +kernel)
      (by simp [tornOperations, ringOperations, Operation.Declares, Builtin.all])
  have hbuilt := Session.Reaches.performAll (.start true .base 1) hallowed
  have hreach : torn.Reachable := hbuilt.mono fun _ _ h => h.1
  have he : Engine.ofPatch torn.patch none = .ok tornEngine := rfl
  have hcandid := candid_of_builtin (sound_of_ofPatch hreach he)
    (Session.kindsFrom_of_reaches hbuilt) none
  have h := (missing_as_passed hreach he hcandid).1
  refine ⟨by decide +kernel, ?_, (h _ _ _).1, fun hfound => ?_⟩
  · exact ((h _ _ _).2 "a").2 ⟨by decide, rfl, by decide +kernel⟩
  · exact absurd (((h _ _ _).2 "a").1 hfound).2.1 (by decide)

end Engine

end Patchbay
