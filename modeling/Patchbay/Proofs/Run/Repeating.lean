import Patchbay.Proofs.Run.Firing
import Patchbay.Proofs.Run.Indexing
import Patchbay.Proofs.Run.Unpulled

/-!
# Loops

The evaluation of a loop comes to one continuation after the other from where its body leads
(`Engine.round`), each of which starts with the next index published. What is done in a round is
arbitrary: control may reach other loops, and values may be read that come from an earlier round, as
long as they do not come from the loop, and that is not calculated again.

## Key results

- `interpret_loop`: a round, and then the others
- `interpret_rounds`: the rounds that come to an end
- `roundOf_round`: in a round only its own index is seen
- `repeats_of_count`: the evaluation of a loop
-/

namespace Patchbay

open RunM

/-- The step tells that the output of the node was fired. -/
def Step.fires (node port : String) : Step → Bool
  | event (.flowFired _ n p _) => n = node && p = port
  | _ => false

/-- The calculation of the node does not start between the states. -/
def RunState.Uncalculated (s : RunState) (node : String) (s' : RunState) : Prop :=
  ∀ steps, s.Made steps s' → ∀ inputs, .calculated node inputs ∉ steps

theorem RunState.uncalculated_of_drop {s s' : RunState} {node : String}
    (h : ∀ step ∈ s'.trace.toList.drop s.trace.toList.length, step.evaluates node = false) :
    s.Uncalculated node s' := by
  intro steps hmade inputs hmem
  rw [hmade, List.drop_left] at h
  exact of_decide_eq_false (h _ hmem) rfl

/-- The output of the node is fired so many times between the states. -/
def RunState.Fires (s : RunState) (node port : String) (count : Nat) (s' : RunState) : Prop :=
  ∃ steps, s.Made steps s' ∧ steps.countP (Step.fires node port) = count

theorem RunState.Fires.trans {s s' s'' : RunState} {node port : String} {m n : Nat}
    (h₁ : s.Fires node port m s') (h₂ : s'.Fires node port n s'') :
    s.Fires node port (m + n) s'' := by
  obtain ⟨xs, hxs, rfl⟩ := h₁
  obtain ⟨ys, hys, rfl⟩ := h₂
  exact ⟨xs ++ ys, hxs.append hys, List.countP_append⟩

theorem RunState.fires_zero {s s' : RunState} {steps : List Step} {node port : String}
    (hmade : s.Made steps s') (h : ∀ step ∈ steps, step.fires node port = false) :
    s.Fires node port 0 s' :=
  ⟨steps, hmade, List.countP_eq_zero.2 fun step hstep => Bool.eq_false_iff.1 (h step hstep)⟩

theorem RunState.Fires.push {s s' : RunState} {node port : String} {n : Nat}
    (h : s.Fires node port n s') {step : Step} (hstep : step.fires node port = false) :
    s.Fires node port n (s'.push step) :=
  h.trans (RunState.fires_zero (s'.made_push step) fun x hx => by rwa [List.mem_singleton.1 hx])

namespace Engine

variable {e : Engine} {id target : String}

/-! ### How often the body is fired -/

/-- Where the calculation of a node does not start, none of its outputs is fired. -/
theorem fires_of_founds {s s' : RunState} (h : e.Founds none s s') (hidle : s.Uncalculated id s')
    (port : String) : s.Fires id port 0 s' := by
  obtain ⟨steps, hmade, _, hfounded⟩ := h
  refine RunState.fires_zero hmade fun step hstep => Bool.eq_false_iff.2 fun hfires => ?_
  obtain ⟨before, after, hsteps⟩ := List.append_of_mem hstep
  have hstep := hfounded before step after hsteps
  unfold Step.fires at hfires
  split at hfires
  next m p _ _ =>
    obtain ⟨rfl, _⟩ : m = id ∧ p = port := by simpa using hfires
    obtain ⟨inputs, hmem⟩ := Or.resolve_left hstep nofun
    exact hidle steps hmade inputs (hsteps ▸ List.mem_append_left _ hmem)
  next => cases hfires

theorem fires_launched (e : Engine) (id port target : String) (outputs : Option PortValues)
    (s : RunState) : s.Fires id port 1 (e.launched id port target outputs s) := by
  refine ⟨_, e.made_launched id port target outputs s, ?_⟩
  unfold launchSteps
  cases outputs <;> cases e.refusal <;> simp [Step.fires]

theorem fires_of_pulls {node : Node} {s s' : RunState}
    (h : e.Pulls (Step.receives node.id) s s') (port : String) : s.Fires id port 0 s' := by
  obtain ⟨steps, hmade, hall⟩ := h.steps
  refine RunState.fires_zero hmade fun step hstep => ?_
  unfold Step.fires
  split
  · rcases hall _ hstep with h | h <;> cases h
  · rfl

/-! ### The rounds -/

/-- The index that a loop ends with after so many rounds. -/
def lastIndex : Nat → Value
  | 0 => .null
  | count + 1 => .ofNat count

section Rounds

variable (e : Engine) (allowance : Nat) (id target : String) (s : RunState)

/-- The state in which the body has been fired with an index. -/
def opened (index : Nat) (s : RunState) : RunState :=
  e.launched id "body" target (some (Builtin.loopOutputs (.ofNat index))) s

/-- The state after so many rounds. -/
def afterRounds : Nat → RunState
  | 0 => s
  | index + 1 =>
    (e.continueFrom allowance target (e.opened id target index (afterRounds index))).2

/-- The state that the round with the index starts from. -/
def roundStart (index : Nat) : RunState :=
  e.opened id target index (e.afterRounds allowance id target s index)

/-- How the round with the index ends. -/
def round (index : Nat) : Outcome Unit × RunState :=
  e.continueFrom allowance target (e.roundStart allowance id target s index)

/-- All rounds before the one with the index come to an end. -/
def ComesTo (index : Nat) : Prop :=
  ∀ i < index, (e.round allowance id target s i).1 = .done ()

end Rounds

/-- A loop with rounds to go fires its body, and if what follows there succeeds, goes on with the
other rounds. -/
theorem interpret_loop {resume : String → RunM Unit} {flows : Table String String}
    (hbody : flows.find? "body" = some target) (last : Value) (index count : Nat) (s : RunState) :
    e.interpret resume id flows (Builtin.loop last index (count + 1)) s =
      (resume target >>= fun _ => e.interpret resume id flows
        (Builtin.loop (.ofNat index) (index + 1) count)) (e.opened id target index s) := by
  have hfire := fire_eq_launched (e := e) resume id hbody
    (some (Builtin.loopOutputs (.ofNat index))) s
  show (attempt (e.fire resume id flows "body" (some (Builtin.loopOutputs (.ofNat index)))) >>=
    fun r => e.interpret resume id flows _) s = _
  cases hr : resume target (e.opened id target index s) with
  | mk outcome t =>
    cases outcome with
    | done =>
      rw [bind_done (attempt_done (hfire.trans hr)), bind_done hr]
      rfl
    | failed err =>
      rw [bind_done (attempt_failed (hfire.trans hr)), bind_failed hr]
      rfl
    | exhausted => rw [bind_exhausted (attempt_exhausted (hfire.trans hr)), bind_exhausted hr]

variable {allowance : Nat} {s : RunState} {flows : Table String String} {n : Nat}

/-- The rounds that come to an end are made one after the other. -/
theorem interpret_rounds (hbody : flows.find? "body" = some target)
    (hcomes : e.ComesTo allowance id target s n) (count : Nat) :
    e.interpret (e.continueFrom allowance) id flows (Builtin.loop .null 0 (n + count)) s =
      e.interpret (e.continueFrom allowance) id flows (Builtin.loop (lastIndex n) n count)
        (e.afterRounds allowance id target s n) := by
  induction n generalizing count with
  | zero => rw [Nat.zero_add, lastIndex, afterRounds]
  | succ n ih =>
    have hbefore : e.ComesTo allowance id target s n :=
      fun i hi => hcomes i (Nat.lt_succ_of_lt hi)
    have hround : e.round allowance id target s n =
        (.done (), e.afterRounds allowance id target s (n + 1)) :=
      Prod.ext (hcomes n (Nat.lt_succ_self n)) rfl
    rw [Nat.add_right_comm, Nat.add_assoc, ih hbefore, interpret_loop hbody]
    exact bind_done hround

/-- A loop of which all rounds come to an end has the last index. -/
theorem interpret_loop_done (hbody : flows.find? "body" = some target)
    (hcomes : e.ComesTo allowance id target s n) :
    e.interpret (e.continueFrom allowance) id flows (Builtin.loop .null 0 n) s =
      (.done (Builtin.loopOutputs (lastIndex n)), e.afterRounds allowance id target s n) :=
  interpret_rounds hbody hcomes 0

/-- A loop fails where a round does. -/
theorem interpret_loop_failed (hbody : flows.find? "body" = some target) {count : Nat}
    (hn : n < count) (hcomes : e.ComesTo allowance id target s n) {err : Error} {t : RunState}
    (hfailed : e.round allowance id target s n = (.failed err, t)) :
    e.interpret (e.continueFrom allowance) id flows (Builtin.loop .null 0 count) s =
      (.failed err, t) := by
  obtain ⟨more, rfl⟩ := Nat.exists_eq_add_of_lt hn
  rw [Nat.add_assoc, interpret_rounds hbody hcomes, interpret_loop hbody]
  exact bind_failed hfailed

/-- In each round that is made the body is fired once, and nowhere else. -/
theorem fires_afterRounds (hg : e.graph.Sound) (hsettled : e.Settled)
    (hidle : ∀ i < n, (e.roundStart allowance id target s i).Uncalculated id
      (e.round allowance id target s i).2) :
    s.Fires id "body" n (e.afterRounds allowance id target s n) := by
  induction n with
  | zero => exact ⟨[], RunState.made_nil rfl, rfl⟩
  | succ n ih =>
    have hbefore := ih fun i hi => hidle i (Nat.lt_succ_of_lt hi)
    have hround : e.Founds none (e.roundStart allowance id target s n)
        (e.round allowance id target s n).2 :=
      moves_walk (founds_runNode hg hsettled allowance) allowance target _
    exact (hbefore.trans (e.fires_launched ..)).trans
      (fires_of_founds hround (hidle n (Nat.lt_succ_self n)) "body")

/-! ### What is seen in a round -/

/-- When the body is fired, the index is there, and what depended on the last one is not. -/
theorem opens_opened (hflow : e.graph.usesFlow id = true) (target : String) (index : Nat)
    (s : RunState) : e.Opens id (.ofNat index) (e.opened id target index s).cache := by
  have hlaunch := launch_launched (e := e) hflow "body" target
    (some (Builtin.loopOutputs (.ofNat index))) s
  obtain ⟨out, hout, hports⟩ := hlaunch.own _ rfl
  refine ⟨⟨out, hout, ?_⟩, hlaunch.dropped _ rfl⟩
  rw [hports]
  rfl

/-- In a round only its own index is seen. -/
theorem roundOf_round (hg : e.graph.Sound) (hsettled : e.Settled)
    (hflow : e.graph.usesFlow id = true) {index : Nat}
    (hidle : (e.roundStart allowance id target s index).Uncalculated id
      (e.round allowance id target s index).2) :
    e.RoundOf id (.ofNat index) (e.roundStart allowance id target s index)
      (e.round allowance id target s index).2 := by
  obtain ⟨steps, hmade, hcache, hfounded⟩ :=
    moves_walk (founds_runNode hg hsettled allowance) allowance target
      (e.roundStart allowance id target s index)
  obtain ⟨steps', hmade', _, hsourced⟩ :=
    moves_walk (logs_runNode hg hsettled.restrained allowance) allowance target
      (e.roundStart allowance id target s index)
  obtain rfl := hmade'.unique hmade
  exact ⟨steps', hmade, hcache, inRound_of_founded hflow (opens_opened hflow target index _)
    hfounded hsourced (hidle steps' hmade)⟩

/-! ### The evaluation of a loop -/

/-- Nodes of the kind are loops, and have control ports. -/
theorem BuiltIn.script_repeat (hbuilt : e.BuiltIn) (hg : e.graph.Sound) {node : Node}
    (hn : e.graph.node? node.id = some node) (hkind : node.kind = "repeat") :
    e.graph.usesFlow node.id = true ∧ ∀ inputs, e.script node inputs =
      Builtin.loop .null 0 (Builtin.repetitions ((e.evaluation node inputs).number "count")) := by
  obtain ⟨k, hk, hid, hdeclared, hbehaviour⟩ := hbuilt.exists_kind hg hn
  rw [hkind] at hid
  obtain rfl : k = Builtin.repeated := by
    simp only [Builtin.all, List.mem_cons, List.not_mem_nil, or_false] at hk
    rcases hk with rfl | rfl | rfl | rfl | rfl | rfl | rfl | rfl | rfl | rfl | rfl | rfl | rfl | rfl
    all_goals first
      | rfl
      | exact absurd hid (by decide)
  refine ⟨?_, fun inputs => ?_⟩
  · simp only [Graph.usesFlow, hn, hdeclared]
    decide
  · rw [script, hbehaviour]
    rfl

/-- Once the inputs of a node are assembled, its evaluation comes to its script. -/
theorem runNode_of_assemble (hg : e.graph.Sound) {node : Node}
    (hn : e.graph.node? node.id = some node) {s s₁ t : RunState} {inputs : PortValues}
    (hinputs : e.assemble (e.pull (e.runNode allowance)) node
      { s with evaluating := node.id :: s.evaluating } = (.done inputs, s₁))
    {r : Outcome PortValues} (hscript : (e.interpret (e.continueFrom allowance) node.id
      (e.flows node) (e.script node inputs) >>= e.conclude node.id)
        (s₁.push (.calculated node.id inputs)) = (r, t)) :
    e.runNode (allowance + 1) node.id s = (r, { t with evaluating := t.evaluating.tail }) := by
  have hkind : e.graph.kinds.contains node.kind = true := hg.declared node.id node hn
  have hevaluate : e.evaluate (e.pull (e.runNode allowance)) (e.continueFrom allowance) node
      { s with evaluating := node.id :: s.evaluating } = (r, t) :=
    (bind_done hinputs).trans hscript
  simp only [runNode, hn, hkind, if_true]
  show within node.id (e.evaluate (e.pull (e.runNode allowance)) (e.continueFrom allowance) node) s
    = _
  rw [within_apply, hevaluate]

/-- What is fired while a loop is evaluated is fired in its rounds. -/
theorem fires_evaluation (hg : e.graph.Sound) (hsettled : e.Settled) {node : Node}
    {s₁ : RunState} {inputs : PortValues}
    (hinputs : e.assemble (e.pull (e.runNode allowance)) node
      { s with evaluating := node.id :: s.evaluating } = (.done inputs, s₁))
    (hidle : ∀ i < n,
      (e.roundStart allowance node.id target (s₁.push (.calculated node.id inputs)) i).Uncalculated
        node.id (e.round allowance node.id target (s₁.push (.calculated node.id inputs)) i).2) :
    s.Fires node.id "body" n
      (e.afterRounds allowance node.id target (s₁.push (.calculated node.id inputs)) n) := by
  have hassembled := pulls_assemble (pulls_pull_runNode hsettled.restrained
    (Step.receives node.id) allowance) { s with evaluating := node.id :: s.evaluating }
  rw [hinputs] at hassembled
  have hbegun : s.Fires node.id "body" 0 (s₁.push (.calculated node.id inputs)) :=
    (fires_of_pulls hassembled "body").push rfl
  have hrounds := hbegun.trans (fires_afterRounds hg hsettled hidle)
  rwa [Nat.zero_add] at hrounds

/-- At the end of an evaluation the outputs are kept, and nothing is fired. -/
theorem conclude_fires {t : RunState} {port : String} (out : PortValues)
    (h : s.Fires id port n t) : ∃ u, e.conclude id out t = (.done out, u) ∧
      u.cache.find? id = some out ∧ s.Fires id port n u :=
  e.conclude_ends (P := fun u => u.cache.find? id = some out ∧ s.Fires id port n u)
    ⟨(Table.find?_insert _ _ _ _).trans (if_pos rfl), h.push rfl⟩
    fun _ _ hu => ⟨hu.1, hu.2.push rfl⟩

/-- The evaluation of a loop with so many rounds to go, in the state `s`; its calculation starts in
the state `t`. -/
structure Repeats (e : Engine) (allowance : Nat) (loop target : String) (count : Nat)
    (s t : RunState) : Prop where
  /-- Throughout a continuation that is reached the loop has the index of that, and all that is read
  from its index port, or from nodes without control ports that values from the loop reach through
  such nodes, comes from it. -/
  seen : ∀ index < count, e.ComesTo allowance loop target t index →
    e.RoundOf loop (.ofNat index) (e.roundStart allowance loop target t index)
      (e.round allowance loop target t index).2
  /-- If all continuations succeed, the body was fired once for each, and the last index is kept. -/
  done : e.ComesTo allowance loop target t count → ∃ s',
    e.runNode (allowance + 1) loop s = (.done (Builtin.loopOutputs (lastIndex count)), s') ∧
    s'.cache.find? loop = some (Builtin.loopOutputs (lastIndex count)) ∧
    s.Fires loop "body" count s'
  /-- If a continuation fails, the error is passed on, and what is kept is what it has left. -/
  failed : ∀ index < count, e.ComesTo allowance loop target t index → ∀ err u,
    e.round allowance loop target t index = (.failed err, u) → ∃ s',
      e.runNode (allowance + 1) loop s = (.failed err, s') ∧ s'.cache = u.cache ∧
      s.Fires loop "body" (index + 1) s'

/-- What the evaluation of a loop does. Take any session whose kinds are built in, a loop whose body
carries control and is wired into `__flow_in` (`find?_flows_eq_some_iff`), and any state in which
its inputs are assembled; and let none of the continuations that are reached calculate the loop
again. Then there are as many rounds as the count says, each of which sees its own index alone,
unless one of them fails. -/
theorem repeats_of_count {session : Session}
    (h : Session.Reaches (fun s op => op.Fresh s.patch ∧ op.Declares (· ∈ Builtin.all)) session)
    {refusal : Option String} (he : Engine.ofPatch session.patch refusal = .ok e) {node : Node}
    (hn : e.graph.node? node.id = some node) (hkind : node.kind = "repeat")
    (hbody : (e.flows node).find? "body" = some target) {s₁ t : RunState} {inputs : PortValues}
    (hinputs : e.assemble (e.pull (e.runNode allowance)) node
      { s with evaluating := node.id :: s.evaluating } = (.done inputs, s₁))
    (ht : t = s₁.push (.calculated node.id inputs)) {count : Nat}
    (hcount : count = Builtin.repetitions ((e.evaluation node inputs).number "count"))
    (hidle : ∀ index < count, e.ComesTo allowance node.id target t index →
      (e.roundStart allowance node.id target t index).Uncalculated node.id
        (e.round allowance node.id target t index).2) :
    e.Repeats allowance node.id target count s t := by
  subst ht hcount
  have hreach : session.Reachable := h.mono fun _ _ hop => hop.1
  have hg := sound_of_ofPatch hreach he
  have hbuilt := builtIn_of_ofPatch h he
  have hsettled := hbuilt.settled hg
  obtain ⟨hflow, hscript⟩ := hbuilt.script_repeat hg hn hkind
  constructor
  case seen =>
    intro index hlt hcomes
    exact roundOf_round hg hsettled hflow (hidle index hlt hcomes)
  case done =>
    intro hcomes
    have hfires := fires_evaluation hg hsettled hinputs fun i hi =>
      hidle i hi fun j hj => hcomes j (Nat.lt_trans hj hi)
    have hrounds := interpret_loop_done hbody hcomes
    rw [← hscript] at hrounds
    obtain ⟨u, hconclude, hkept, hfires⟩ := conclude_fires (Builtin.loopOutputs (lastIndex _)) hfires
    have hscript := (bind_done hrounds).trans hconclude
    exact ⟨_, runNode_of_assemble hg hn hinputs hscript, hkept, hfires⟩
  case failed =>
    intro index hlt hcomes err u hfailed
    have hfires := fires_evaluation (n := index + 1) hg hsettled hinputs fun i hi =>
      hidle i (Nat.lt_of_lt_of_le hi hlt) fun j hj =>
        hcomes j (Nat.lt_of_lt_of_le hj (Nat.le_of_lt_succ hi))
    have hrounds := interpret_loop_failed hbody hlt hcomes hfailed
    rw [← hscript] at hrounds
    have hend : e.afterRounds allowance node.id target (s₁.push (.calculated node.id inputs))
        (index + 1) = u :=
      congrArg Prod.snd hfailed
    exact ⟨_, runNode_of_assemble hg hn hinputs (bind_failed hrounds), rfl, hend ▸ hfires⟩

/-! ### A loop that is read through a sum

The index of the loop is added to a number, and the body leads to a print node that reads the sum.
-/

def talliedOperations : List Operation :=
  [.declare Builtin.repeated, .declare Builtin.add, .declare Builtin.print,
    .insert "repeat" "loop" .origin, .insert "add" "sum" .origin, .insert "print" "out" .origin,
    .edit "loop" (.setValue "count" .input (.ofNat 2)), .connect ⟨"loop", "index", "sum", "a"⟩,
    .connect ⟨"sum", "result", "out", "value"⟩, .connect ⟨"loop", "body", "out", "__flow_in"⟩]

def tallied : Session := (Session.start true .base 1).performAll talliedOperations

def talliedEngine : Engine := ⟨tallied.patch.toGraph, tallied.patch.behaviour, none⟩

/-- How the inputs of the loop are assembled. -/
def talliedInputs (node : Node) : Outcome PortValues × RunState :=
  talliedEngine.assemble (talliedEngine.pull (talliedEngine.runNode 9)) node
    { RunState.initial ∅ with evaluating := [node.id] }

/-- The calculation of the loop starts with two rounds to go, both of which come to an end and do
not evaluate the loop. -/
def talliedRounds (node : Node) : Bool :=
  match talliedInputs node with
  | (.done inputs, s₁) =>
    let t := s₁.push (.calculated node.id inputs)
    Builtin.repetitions ((talliedEngine.evaluation node inputs).number "count") = 2 &&
      (List.range 2).all fun index =>
        (talliedEngine.round 9 node.id "out" t index).1 = .done () &&
          ((talliedEngine.round 9 node.id "out" t index).2.trace.toList.drop
            (talliedEngine.roundStart 9 node.id "out" t index).trace.toList.length).all
              fun step => !step.evaluates node.id
  | _ => false

theorem reaches_tallied :
    Session.Reaches (fun s op => op.Fresh s.patch ∧ op.Declares (· ∈ Builtin.all)) tallied := by
  have hfresh : Session.AllowedAll (fun s op => op.Fresh s.patch) (Session.start true .base 1)
      talliedOperations := by
    decide +kernel
  exact .performAll (.start true .base 1)
    (hfresh.and (by simp [talliedOperations, Operation.Declares, Builtin.all]))

/-- Evaluated afresh, the loop makes its two rounds and ends with the index one. -/
theorem repeats_tallied : ∃ t s', talliedEngine.Repeats 9 "loop" "out" 2 (.initial ∅) t ∧
    talliedEngine.runNode 10 "loop" (.initial ∅) =
      (.done (Builtin.loopOutputs (.ofNat 1)), s') ∧
    s'.cache.find? "loop" = some (Builtin.loopOutputs (.ofNat 1)) ∧
    (RunState.initial ∅).Fires "loop" "body" 2 s' := by
  have hsome : (talliedEngine.graph.node? "loop").isSome = true := by decide +kernel
  obtain ⟨node, hn⟩ := Option.isSome_iff_exists.1 hsome
  have hchecked : (talliedEngine.graph.node? "loop").all (fun n => n.kind = "repeat" &&
      (talliedEngine.flows n).find? "body" = some "out" && talliedRounds n) = true := by
    decide +kernel
  have hid : node.id = "loop" := Graph.id_of_node? hn
  rw [hn] at hchecked
  simp only [Option.all_some, Bool.and_eq_true, decide_eq_true_eq] at hchecked
  obtain ⟨⟨hkind, hbody⟩, hrounds⟩ := hchecked
  unfold talliedRounds at hrounds
  split at hrounds
  next inputs s₁ hinputs =>
    simp only [Bool.and_eq_true, Bool.not_eq_true', decide_eq_true_eq, List.all_eq_true] at hrounds
    obtain ⟨hcount, hall⟩ := hrounds
    have he : Engine.ofPatch tallied.patch none = .ok talliedEngine := rfl
    have hrepeats := repeats_of_count reaches_tallied he
      (hid ▸ hn) hkind hbody hinputs rfl hcount.symm fun index hlt _ => ?_
    · obtain ⟨s', hdone⟩ := hrepeats.done fun index hlt => (hall index (List.mem_range.2 hlt)).1
      rw [hid] at hrepeats hdone
      exact ⟨_, s', hrepeats, hdone⟩
    · exact RunState.uncalculated_of_drop (hall index (List.mem_range.2 hlt)).2
  next => cases hrounds

end Engine

end Patchbay
