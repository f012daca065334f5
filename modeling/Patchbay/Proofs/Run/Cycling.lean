import Patchbay.Proofs.Run.Faults
import Patchbay.Proofs.Run.Stalled

/-!
# Runs over graphs with cycles

A run notices cycles on its way, by the nodes that are being evaluated; the check of a graph finds
them beforehand, by peeling. They agree: a run that stops because a node needs itself names a node
that is reported, and what is on a cycle, or gets values from one, is never evaluated.

## Key results

- `candid_of_builtin`: what the built-in kinds fail with
- `cycles_as_reported`: cycles in runs and cycles that are reported
-/

namespace Patchbay

/-! ### Built-in kinds -/

/-- The calculations of built-in kinds end with a result or report a failure, and on the way fire
outputs, passing failures on, and print. What holds of each of these, and of a whole if it holds of
the parts, holds of the calculations. -/
theorem builtin_calculate {P : ∀ {α : Type}, Script α → Prop}
    (hdone : ∀ out : PortValues, P (.done out))
    (hreport : ∀ node message, P (.fail (.calculation node message) : Script PortValues))
    (hprint : ∀ line out, P (.print line (.done out) : Script PortValues))
    (hinform : ∀ line out, P (.inform line (.done out) : Script PortValues))
    (hconsult : ∀ key (next : Option Entry → Script PortValues), (∀ r, P (next r)) →
      P (.consult key next))
    (hproceed : ∀ port outputs, P (Script.proceed port outputs))
    (hbind : ∀ (script : Script Unit) (next : Unit → Script PortValues), P script →
      (∀ a, P (next a)) → P (script.bind next))
    {k : Kind} (hk : k ∈ Builtin.all) (v : Evaluation) : P (k.behaviour.calculate v) := by
  have harithmetic : ∀ id title op failure,
      P ((Builtin.arithmetic id title op failure).behaviour.calculate v) := by
    intro id title op failure
    simp only [Builtin.arithmetic]
    split
    · exact hdone _
    · exact hreport _ _
  have hloop : ∀ count last index, P (Builtin.loop last index count) := by
    intro count
    induction count with
    | zero => exact fun _ _ => hdone _
    | succ count ih => exact fun _ _ => hbind _ _ (hproceed _ _) fun _ => ih _ _
  have hprints : P (Builtin.print.behaviour.calculate v) := by
    refine hconsult _ _ fun entry => ?_
    split
    · exact hprint _ _
    · exact hinform _ _
  simp only [Builtin.all, List.mem_cons, List.not_mem_nil, or_false] at hk
  -- A kind comes to a result, is an operator on numbers, fires outputs, or prints.
  rcases hk with rfl | rfl | rfl | rfl | rfl | rfl | rfl | rfl | rfl | rfl | rfl | rfl | rfl | rfl
  all_goals first
    | exact hdone _
    | exact harithmetic _ _ _ _
    | exact hprints
    | exact hloop _ _ _
    | exact hbind _ _ (hproceed _ _) fun _ => hdone _
    | exact hbind _ _ (hproceed _ _) fun _ => hbind _ _ (hproceed _ _) fun _ => hdone _

theorem builtin_candid {k : Kind} (hk : k ∈ Builtin.all) (v : Evaluation) (heard : Error → Prop) :
    (k.behaviour.calculate v).Candid heard := by
  refine builtin_calculate (P := fun s => s.Candid heard) ?_ ?_ ?_ ?_ ?_ ?_ ?_ hk v
  · exact fun _ => trivial
  · exact fun node message => .inr ⟨node, message, rfl⟩
  · exact fun _ _ => trivial
  · exact fun _ _ => trivial
  · exact fun _ _ h => h
  · exact Script.candid_proceed heard
  · exact fun _ _ => Script.candid_bind

namespace Engine

open RunM

variable {e : Engine} {s : RunState}

/-- Calculations of built-in kinds report failures of their own, or pass on what they have heard. -/
theorem candid_of_builtin {p : Patch} (hp : p.Sound)
    (hkinds : ∀ id d, p.kinds.find? id = some d →
      ∃ k ∈ Builtin.all, d = k.declaration ∧ p.behaviour id = k.behaviour)
    (refusal : Option String) : (⟨p.toGraph, p.behaviour, refusal⟩ : Engine).Candid := by
  intro id node hn inputs
  obtain ⟨d, hd⟩ := Option.isSome_iff_exists.1 (hp.declared id node hn)
  obtain ⟨k, hk, _, hbehaviour⟩ := hkinds node.kind d hd
  simp only [script, hbehaviour]
  exact builtin_candid hk _ _

/-! ### Calls that fail -/

/-- A call of the host fails with an error. -/
inductive Fails (e : Engine) (s : RunState) (err : Error) : Prop where
  | runNode (allowance : Nat) (node : String) :
    (e.runNode allowance node s).1 = .failed err → Fails e s err
  | continueFrom (allowance : Nat) (node : String) :
    (e.continueFrom allowance node s).1 = .failed err → Fails e s err
  | runFrom (allowance : Nat) (node : String) :
    (e.runFrom allowance node s).1 = .failed err → Fails e s err
  | runKind (allowance : Nat) (kind : String) (multiple : Bool) :
    (e.runKind allowance kind multiple s).1 = .failed err → Fails e s err

/-- A run fails because a node that control came to fails. -/
theorem failed_of_runFrom {allowance : Nat} {node : String} {err : Error}
    (h : (e.runFrom allowance node s).1 = .failed err) :
    ∃ id t, e.graph.Onward node id ∧ t.evaluating = [] ∧
      (e.runNode allowance id t).1 = .failed err := by
  unfold runFrom at h
  rw [change_bind] at h
  rcases failed_of_bind h with h | ⟨_, s₁, hstart, h⟩
  · exact absurd h (ne_failed_of_emit _)
  · have hmoves : Moves SameEvaluating (e.emit fun run => .runStarted run node) :=
      moves_emit_of_push fun _ => rfl
    have hsame := hmoves { s with cache := ∅, evaluating := [], runs := s.runs + 1 }
    rw [hstart] at hsame
    rcases failed_of_bind h with h | ⟨r, s₂, hrun, h⟩
    · exact absurd h (ne_failed_of_attempt _ _ _)
    · cases r with
      | ok _ => exact absurd h (ne_failed_of_emit _)
      | error first =>
        -- The error of the run is the one that the host is told of before.
        rcases failed_of_bind h with h | ⟨_, _, _, h⟩
        · exact absurd h (ne_failed_of_emit _)
        · obtain rfl := Outcome.failed.inj h
          obtain ⟨id, t, honward, ht, h⟩ :=
            failed_of_walk (e.evaluating_runNode allowance) (failed_of_attempt_done hrun)
          exact ⟨id, t, honward, ht.trans hsame, h⟩

theorem failed_of_forM {γ : Type} {f : γ → RunM Unit} {xs : List γ} {err : Error}
    (h : (xs.forM f s).1 = .failed err) : ∃ x ∈ xs, ∃ t, (f x t).1 = .failed err := by
  induction xs generalizing s with
  | nil => cases h
  | cons x xs ih =>
    rcases failed_of_bind h with h | ⟨_, s', _, h⟩
    · exact ⟨x, List.mem_cons_self, s, h⟩
    · obtain ⟨y, hy, t, h⟩ := ih h
      exact ⟨y, List.mem_cons_of_mem _ hy, t, h⟩

/-- Whatever call fails, it is the evaluation of a node, started while no other is evaluated. -/
theorem Fails.exists_runNode (hs : s.evaluating = []) {err : Error} (h : e.Fails s err) :
    ∃ allowance id t, t.evaluating = [] ∧ (e.runNode allowance id t).1 = .failed err := by
  cases h with
  | runNode allowance node h => exact ⟨allowance, node, s, hs, h⟩
  | continueFrom allowance node h =>
    obtain ⟨id, t, _, ht, h⟩ := failed_of_walk (e.evaluating_runNode allowance) h
    exact ⟨allowance, id, t, ht.trans hs, h⟩
  | runFrom allowance node h =>
    obtain ⟨id, t, _, h⟩ := failed_of_runFrom h
    exact ⟨allowance, id, t, h⟩
  | runKind allowance kind multiple h =>
    obtain ⟨node, _, t, h⟩ := failed_of_forM h
    obtain ⟨id, t, _, h⟩ := failed_of_runFrom h
    exact ⟨allowance, id, t, h⟩

/-- Cycles that a run comes upon are those that are reported. Take any session, any engine over its
patch in which nodes without control ports fire nothing and calculations report failures but make up
no other errors, and any calls of its host, failed ones among them.

Between the calls no node is being evaluated. If a call fails because a node is needed that is being
evaluated, the error names a node on a cycle of value wires between nodes without control ports, and
that node is reported. No node on a cycle, nor any that gets values from one, has ever been
calculated or has ever had outputs. As long as this is so, in the middle of a run or not, the
evaluation of such a node does not end with a result; it fails. And pulling comes to an end, on
whatever graph: a node without control ports is evaluated, and the inputs of any node are assembled,
within as many nested evaluations as there are nodes. -/
theorem cycles_as_reported {session : Session} (hreach : session.Reachable)
    {refusal : Option String} (he : Engine.ofPatch session.patch refusal = .ok e)
    (hrestrained : e.Restrained) (hcandid : e.Candid) (hs : e.Between s) :
    s.evaluating = [] ∧
    (∀ n, e.Fails s (.dataCycle n) → e.graph.OnFreeCycle n ∧
      ∃ nodes, .dataCycle nodes ∈ session.patch.problems ∧ n ∈ nodes) ∧
    (∀ n, e.graph.OnFreeCycle n → e.graph.Circular n) ∧
    (∀ n, e.graph.Circular n →
      s.cache.find? n = none ∧ ∀ step ∈ s.trace.toList, step.produces n = false) ∧
    (∀ t : RunState, (∀ n, e.graph.Circular n → t.cache.find? n = none) →
      ∀ n, e.graph.Circular n → ∀ allowance,
        (∀ out, (e.runNode allowance n t).1 ≠ .done out) ∧
          (e.graph.nodes.length < allowance →
            ∃ err, (e.runNode allowance n t).1 = .failed err)) ∧
    ∀ (t : RunState) (allowance : Nat), e.graph.nodes.length < allowance →
      (∀ n, e.graph.usesFlow n = false → n ∉ t.evaluating →
        (e.runNode allowance n t).1 ≠ .exhausted) ∧
      ∀ node, e.graph.node? node.id = some node →
        (e.assemble (e.pull (e.runNode allowance)) node
          { t with evaluating := node.id :: t.evaluating }).1 ≠ .exhausted := by
  have hg := sound_of_ofPatch hreach he
  have hpatch := graph_of_ofPatch he
  refine ⟨hs.evaluating, fun n hfails => ?_, fun n hn => hn.circular, fun n hn => ?_, ?_, ?_⟩
  · obtain ⟨allowance, id, t, ht, hfailed⟩ := hfails.exists_runNode hs.evaluating
    have hchained : e.Chained id t := by
      intro x hx
      rw [ht] at hx
      cases hx
    have hcycle := onFreeCycle_of_failed hrestrained hcandid hchained hfailed
    exact ⟨hcycle, hpatch ▸ hg.reported_of_circular hcycle.circular⟩
  · obtain ⟨steps, htrace, hsteps⟩ := hs.stalled.steps
    rw [List.nil_append] at htrace
    exact ⟨hs.stalled.cache n hn, fun step hstep => hsteps step (htrace ▸ hstep) n hn⟩
  · intro t ht n hn allowance
    exact ⟨runNode_ne_done ht hn allowance, exists_failed_runNode hrestrained ht hn⟩
  · intro t allowance hallowance
    refine ⟨fun n hflow hnew => ?_, fun node hn => ?_⟩
    · have hidle : e.idle t.evaluating ≤ e.graph.nodes.length := by
        have hle := List.countP_le_length (p := fun id => !t.evaluating.contains id)
          (l := e.graph.ids)
        simpa [idle, Graph.ids] using hle
      exact (finishes_runNode hrestrained hflow hnew (Nat.lt_of_le_of_lt hidle hallowance) t rfl).1
    · exact assemble_ne_exhausted hrestrained hn (Nat.le_of_lt hallowance) t

/-- Two sums feed each other, and one of them feeds a third. -/
def ringOperations : List Operation :=
  [.declare Builtin.add, .insert "add" "a" .origin, .insert "add" "b" .origin,
    .insert "add" "c" .origin, .connect ⟨"a", "result", "b", "a"⟩,
    .connect ⟨"b", "result", "a", "a"⟩, .connect ⟨"b", "result", "c", "a"⟩]

def ring : Session := (Session.start true .base 1).performAll ringOperations

def ringEngine : Engine := ⟨ring.patch.toGraph, ring.patch.behaviour, none⟩

/-- The third sum needs the second one, that needs the first one, and that the second one. -/
theorem cycles_as_reported_ring :
    ringEngine.Between (ringEngine.runFrom 10 "c" (.initial ∅)).2 ∧
    (ringEngine.runNode 10 "c" (ringEngine.runFrom 10 "c" (.initial ∅)).2).1 =
      .failed (.dataCycle "b") ∧
    ringEngine.graph.OnFreeCycle "b" ∧
    (∃ nodes, .dataCycle nodes ∈ ring.patch.problems ∧ "b" ∈ nodes) ∧
    (ringEngine.runFrom 10 "c" (.initial ∅)).2.cache.find? "b" = none := by
  have hallowed : Session.AllowedAll (fun s op => op.Fresh s.patch ∧ op.Declares (· ∈ Builtin.all))
      (Session.start true .base 1) ringOperations :=
    Session.AllowedAll.and (by decide +kernel)
      (by simp [ringOperations, Operation.Declares, Builtin.all])
  have hbuilt := Session.Reaches.performAll (.start true .base 1) hallowed
  have hreach : ring.Reachable := hbuilt.mono fun _ _ h => h.1
  have he : Engine.ofPatch ring.patch none = .ok ringEngine := rfl
  have hsound := sound_of_ofPatch hreach he
  have hkinds := Session.kindsFrom_of_reaches hbuilt
  have hbetween : ringEngine.Between (ringEngine.runFrom 10 "c" (.initial ∅)).2 :=
    .runFrom 10 "c" (.initial ∅)
  have hfailed : (ringEngine.runNode 10 "c" (ringEngine.runFrom 10 "c" (.initial ∅)).2).1 =
      .failed (.dataCycle "b") := failed_of_discard (by decide +kernel)
  have hrestrained := (settled_of_builtin hsound hkinds none).restrained
  have hcandid := candid_of_builtin hsound hkinds none
  obtain ⟨_, hnamed, hcircular, hnone, _⟩ :=
    cycles_as_reported hreach he hrestrained hcandid hbetween
  obtain ⟨hcycle, hreported⟩ := hnamed "b" (.runNode 10 "c" hfailed)
  exact ⟨hbetween, hfailed, hcycle, hreported, (hnone "b" (hcircular "b" hcycle)).1⟩

end Engine

end Patchbay
