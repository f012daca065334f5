import Patchbay.Proofs.Run.Cycling

/-!
# How the events of a run nest

A host can tell from the events of a run where it is. Between the first and the last event, which
are about the run as a whole, the events nest like the evaluations they report: whatever a node needs
comes before its calculation, whatever its calculation fires comes after that, and the end of its
evaluation comes last. A run that fails stops short at the evaluation that fails first.

`Engine.Nests` says this as a grammar over the parts of a run, one rule for each way in which a part
can go. A word of the grammar consists of the calculations that start, the outputs that are
published, and the events. Which sources are pulled depends on the outputs that are kept, and these
can be found again from the word (`Engine.replayStep`). The result of a part is none if the word is
complete, and otherwise the error that it stops short with.

Calculations may do anything, as long as they fail with what follows an output that they fire
(`Script.Propagates`). Otherwise a run could go on after a failure.

## Key results

- `Nests.inner`: between the first and the last event of a run all events are about nodes
- `tells_runNode` / `tells_walk`: whatever is evaluated, what it shows nests
- `BuiltIn.prompt`: the built-in kinds pass failures on
- `events_nest`: the events of a run
-/

namespace Patchbay

namespace Script

variable {α β : Type}

/-- The script ends with the error, and fires nothing before. -/
def FailsWith (err : Error) : Script α → Prop
  | done _ => False
  | fail e => e = err
  | fire _ _ _ => False
  | consult _ next => ∀ r, (next r).FailsWith err
  | store _ _ next => next.FailsWith err
  | print _ next => next.FailsWith err
  | inform _ next => next.FailsWith err

/-- Whenever what follows an output that was fired has failed, the script fails with that error. -/
def Propagates : Script α → Prop
  | done _ | fail _ => True
  | fire _ _ next => (∀ err, (next (.error err)).FailsWith err) ∧ (next (.ok ())).Propagates
  | consult _ next => ∀ r, (next r).Propagates
  | store _ _ next => next.Propagates
  | print _ next => next.Propagates
  | inform _ next => next.Propagates

/-- Whenever what follows an output that was fired has failed, the script fails with that error at
once. -/
def Prompt : Script α → Prop
  | done _ | fail _ => True
  | fire _ _ next => (∀ err, next (.error err) = fail err) ∧ (next (.ok ())).Prompt
  | consult _ next => ∀ r, (next r).Prompt
  | store _ _ next => next.Prompt
  | print _ next => next.Prompt
  | inform _ next => next.Prompt

theorem Prompt.propagates {script : Script α} (h : script.Prompt) : script.Propagates := by
  induction script with
  | done a => trivial
  | fail e => trivial
  | fire port outputs next ih =>
    refine ⟨fun err => ?_, ih _ h.2⟩
    rw [h.1 err]
    rfl
  | consult key next ih => exact fun r => ih r (h r)
  | store key entry next ih => exact ih h
  | print line next ih => exact ih h
  | inform line next ih => exact ih h

/-- A whole is prompt if its parts are. -/
theorem prompt_bind {script : Script α} {k : α → Script β} (h : script.Prompt)
    (hk : ∀ a, (k a).Prompt) : (script.bind k).Prompt := by
  induction script with
  | done a => exact hk a
  | fail e => trivial
  | fire port outputs next ih =>
    refine ⟨fun err => ?_, ih _ h.2⟩
    show (next (.error err)).bind k = fail err
    rw [h.1 err]
    rfl
  | consult key next ih => exact fun r => ih r (h r)
  | store key entry next ih => exact ih h
  | print line next ih => exact ih h
  | inform line next ih => exact ih h

theorem prompt_proceed (port : String) (outputs : Option PortValues) :
    (proceed port outputs).Prompt :=
  ⟨fun _ => rfl, trivial⟩

end Script

/-! ### Words -/

namespace Step

/-- The step is one of those that words consist of. -/
def outlines : Step → Bool
  | calculated _ _ | published _ _ | event _ => true
  | _ => false

/-- The step belongs to a word of the run, and no event is about the run as a whole. -/
def inner (run : String) : Step → Bool
  | calculated _ _ | published _ _ => true
  | event (.nodeEvaluated r _ _) | event (.flowFired r _ _ _) => r = run
  | _ => false

/-- The steps with which control goes on from an output. -/
def firing (run node port target : String) (outputs : Option PortValues) : List Step :=
  (outputs.map (published node)).toList ++ [event (.flowFired run node port target)]

end Step

/-- The state that a new run starts in. -/
def RunState.fresh (s : RunState) : RunState :=
  { s with cache := ∅, evaluating := [], runs := s.runs + 1 }

/-- The last event of a run with the given result. -/
def RunEvent.closing (run : String) : Option Error → RunEvent
  | none => .runCompleted run
  | some err => .runFailed run err.message

namespace Outcome

variable {α : Type}

/-- The result of a part that ends in this way, unless its allowance is used up. -/
def result? : Outcome α → Option (Option Error)
  | done _ => some none
  | failed err => some (some err)
  | exhausted => none

/-- How an action without a value ends that has a result. -/
def ofResult : Option Error → Outcome Unit
  | none => done ()
  | some err => failed err

end Outcome

namespace Engine

/-- A part of a run. -/
inductive Part where
  /-- Control comes to the node, and passes on from there. -/
  | walk (node : String)
  | evaluation (node : String)
  /-- The sources of the wires are pulled, one after the other. -/
  | sources (wires : List (WireId × Wire))
  | pull (node : String)
  /-- The calculation of the node is at the given script. -/
  | calculation (node : Node) (script : Script PortValues)

/-- The words of a part, with their results. At the start of the part outputs are kept as the table
says, and the nodes of the list are being evaluated. -/
inductive Nests (e : Engine) (run : String) :
    Part → Table String PortValues → List String → List Step → Option Error → Prop where
  | next {node next cache busy word rest result} :
    Nests e run (.evaluation node) cache busy word none → e.graph.nextInFlow? node = some next →
    Nests e run (.walk next) (word.foldl e.replayStep cache) busy rest result →
    Nests e run (.walk node) cache busy (word ++ rest) result
  | last {node cache busy word} :
    Nests e run (.evaluation node) cache busy word none → e.graph.nextInFlow? node = none →
    Nests e run (.walk node) cache busy word none
  | stopped {node cache busy word err} :
    Nests e run (.evaluation node) cache busy word (some err) →
    Nests e run (.walk node) cache busy word (some err)
  | absent {id cache busy} : e.graph.node? id = none →
    Nests e run (.evaluation id) cache busy [] (some (.nodeNotFound id))
  | undeclared {id node cache busy} : e.graph.node? id = some node →
    e.graph.kinds.contains node.kind = false →
    Nests e run (.evaluation id) cache busy [] (some (.kindNotFound node.kind))
  /-- A source cannot be pulled, so that the calculation does not start. -/
  | starved {id node cache busy word err} : e.graph.node? id = some node →
    e.graph.kinds.contains node.kind = true →
    Nests e run (.sources (e.graph.dataWires id)) cache (id :: busy) word (some err) →
    Nests e run (.evaluation id) cache busy word (some err)
  | calculated {id node cache busy word rest result} (inputs : PortValues) :
    e.graph.node? id = some node → e.graph.kinds.contains node.kind = true →
    Nests e run (.sources (e.graph.dataWires id)) cache (id :: busy) word none →
    Nests e run (.calculation node (e.script node inputs)) (word.foldl e.replayStep cache)
      (id :: busy) rest result →
    Nests e run (.evaluation id) cache busy (word ++ .calculated id inputs :: rest) result
  | none {cache busy} : Nests e run (.sources []) cache busy [] none
  | source {x xs cache busy word rest result} :
    Nests e run (.pull x.2.source) cache busy word none →
    Nests e run (.sources xs) (word.foldl e.replayStep cache) busy rest result →
    Nests e run (.sources (x :: xs)) cache busy (word ++ rest) result
  | missed {x xs cache busy word err} :
    Nests e run (.pull x.2.source) cache busy word (some err) →
    Nests e run (.sources (x :: xs)) cache busy word (some err)
  | kept {id cache busy} : cache.contains id = true →
    Nests e run (.pull id) cache busy [] none
  | notRun {id cache busy} : cache.contains id = false → e.graph.usesFlow id = true →
    Nests e run (.pull id) cache busy [] (some (.notRun id))
  | dataCycle {id cache busy} : cache.contains id = false → e.graph.usesFlow id = false →
    id ∈ busy → Nests e run (.pull id) cache busy [] (some (.dataCycle id))
  /-- Only a node without control ports is evaluated because it is pulled. -/
  | pulled {id cache busy word result} : cache.contains id = false →
    e.graph.usesFlow id = false → id ∉ busy →
    Nests e run (.evaluation id) cache busy word result →
    Nests e run (.pull id) cache busy word result
  | done {node out cache busy} :
    Nests e run (.calculation node (.done out)) cache busy
      [.event (.nodeEvaluated run node.id out)] none
  | fail {node err cache busy} :
    Nests e run (.calculation node (.fail err)) cache busy [] (some err)
  /-- Nothing happens where the output is not connected. -/
  | unconnected {node port outputs next cache busy word result} :
    (e.flows node).find? port = none →
    Nests e run (.calculation node (next (.ok ()))) cache busy word result →
    Nests e run (.calculation node (.fire port outputs next)) cache busy word result
  | fired {node port target outputs next cache busy word rest result} :
    (e.flows node).find? port = some target →
    Nests e run (.walk target)
      ((Step.firing run node.id port target outputs).foldl e.replayStep cache) busy word none →
    Nests e run (.calculation node (next (.ok ())))
      ((Step.firing run node.id port target outputs ++ word).foldl e.replayStep cache) busy rest
      result →
    Nests e run (.calculation node (.fire port outputs next)) cache busy
      (Step.firing run node.id port target outputs ++ word ++ rest) result
  /-- The calculation fails with what follows the output. -/
  | failed {node port target outputs next cache busy word err} :
    (e.flows node).find? port = some target →
    Nests e run (.walk target)
      ((Step.firing run node.id port target outputs).foldl e.replayStep cache) busy word
      (some err) →
    Nests e run (.calculation node (.fire port outputs next)) cache busy
      (Step.firing run node.id port target outputs ++ word) (some err)
  | consult {node key next cache busy word result} (entry : Option Entry) :
    Nests e run (.calculation node (next entry)) cache busy word result →
    Nests e run (.calculation node (.consult key next)) cache busy word result
  | store {node key entry next cache busy word result} :
    Nests e run (.calculation node next) cache busy word result →
    Nests e run (.calculation node (.store key entry next)) cache busy word result
  | print {node line next cache busy word result} :
    Nests e run (.calculation node next) cache busy word result →
    Nests e run (.calculation node (.print line next)) cache busy word result
  | inform {node line next cache busy word result} :
    Nests e run (.calculation node next) cache busy word result →
    Nests e run (.calculation node (.inform line next)) cache busy word result

open RunM

variable {e : Engine}

/-- The steps of a word are about nodes, and its events carry the id of the run. -/
theorem Nests.inner {run : String} {part : Part} {cache : Table String PortValues}
    {busy : List String} {word : List Step} {result : Option Error}
    (h : e.Nests run part cache busy word result) : ∀ step ∈ word, step.inner run = true := by
  have hfiring : ∀ node port target outputs, ∀ step ∈ Step.firing run node port target outputs,
      step.inner run = true := by
    intro node port target outputs step hstep
    cases outputs <;> simp [Step.firing] at hstep
    · subst hstep
      exact decide_eq_true rfl
    · rcases hstep with rfl | rfl
      · rfl
      · exact decide_eq_true rfl
  induction h with
  | absent | undeclared | none | kept | notRun | dataCycle | fail => exact List.forall_mem_nil _
  | done => exact List.forall_mem_singleton.2 (decide_eq_true rfl)
  | next _ _ _ ih ih' | source _ _ ih ih' => exact List.forall_mem_append.2 ⟨ih, ih'⟩
  | calculated _ _ _ _ _ ih ih' =>
    exact List.forall_mem_append.2 ⟨ih, List.forall_mem_cons.2 ⟨rfl, ih'⟩⟩
  | fired _ _ _ ih ih' =>
    exact List.forall_mem_append.2 ⟨List.forall_mem_append.2 ⟨hfiring _ _ _ _, ih⟩, ih'⟩
  | failed _ _ ih => exact List.forall_mem_append.2 ⟨hfiring _ _ _ _, ih⟩
  | last _ _ ih | stopped _ ih | starved _ _ _ ih | missed _ ih | pulled _ _ _ _ ih
  | unconnected _ _ ih | consult _ _ ih | store _ ih | print _ ih | inform _ ih => exact ih

/-! ### States that a word leads between -/

/-- The steps between the states come to the word, apart from those that words leave out. -/
structure Outlined (e : Engine) (word : List Step) (s s' : RunState) : Prop where
  steps : ∃ steps, s.Made steps s' ∧ steps.filter Step.outlines = word
  cache : s'.cache = word.foldl e.replayStep s.cache
  evaluating : s'.evaluating = s.evaluating
  runs : s'.runs = s.runs

namespace Outlined

variable {s s' s'' : RunState} {word rest : List Step} {step : Step}

theorem refl (s : RunState) : e.Outlined [] s s :=
  ⟨⟨[], RunState.made_nil rfl, rfl⟩, rfl, rfl, rfl⟩

theorem trans (h : e.Outlined word s s') (h' : e.Outlined rest s' s'') :
    e.Outlined (word ++ rest) s s'' := by
  obtain ⟨xs, hxs, hx⟩ := h.steps
  obtain ⟨ys, hys, hy⟩ := h'.steps
  refine ⟨⟨xs ++ ys, hxs.append hys, by rw [List.filter_append, hx, hy]⟩, ?_,
    h'.evaluating.trans h.evaluating, h'.runs.trans h.runs⟩
  rw [h'.cache, h.cache, List.foldl_append]

/-- A step of a word, with what it does to the outputs. -/
theorem push (s : RunState) (step : Step) (h : step.outlines = true) :
    e.Outlined [step] s ((s.push step).withCache (e.replayStep s.cache step)) :=
  ⟨⟨[step], s.made_push step, by simp [h]⟩, rfl, rfl, rfl⟩

/-- A step that words leave out. -/
theorem skip (s : RunState) (h : step.outlines = false) : e.Outlined [] s (s.push step) :=
  ⟨⟨[step], s.made_push step, by simp [h]⟩, rfl, rfl, rfl⟩

theorem context (s : RunState) (c : Context) : e.Outlined [] s { s with context := c } :=
  ⟨⟨[], RunState.made_nil rfl, rfl⟩, rfl, rfl, rfl⟩

theorem runId (h : e.Outlined word s s') : s'.runId = s.runId := by
  rw [RunState.runId, h.runs]
  rfl

end Outlined

/-- Sending an event is a step of a word, and maybe another one that words leave out. -/
theorem emit_outlined (make : String → RunEvent) (s : RunState)
    (hcache : e.replayStep s.cache (.event (make s.runId)) = s.cache) :
    ∃ s', e.emit make s = (.done (), s') ∧ e.Outlined [.event (make s.runId)] s s' := by
  have hsent := Outlined.push (e := e) s (.event (make s.runId)) rfl
  rw [hcache] at hsent
  exact e.emit_ends hsent fun _ t hword => hword.trans (Outlined.skip t rfl)

theorem conclude_outlined (node : String) (out : PortValues) (s : RunState) :
    ∃ s', e.conclude node out s = (.done out, s') ∧
      e.Outlined [.event (.nodeEvaluated s.runId node out)] s s' :=
  e.conclude_ends (.push s (.event (.nodeEvaluated s.runId node out)) rfl)
    fun _ t hword => hword.trans (Outlined.skip t rfl)

/-- Firing an output that is connected comes to a walk, after the steps of the firing. -/
theorem fire_outlined (resume : String → RunM Unit) (node : String) {flows : Table String String}
    {port target : String} (htarget : flows.find? port = some target)
    (outputs : Option PortValues) (s : RunState) :
    ∃ s', e.fire resume node flows port outputs s = resume target s' ∧
      e.Outlined (Step.firing s.runId node port target outputs) s s' := by
  unfold fire
  rw [htarget]
  cases outputs with
  | none =>
    obtain ⟨s', hemit, hs'⟩ := emit_outlined (e := e)
      (fun run => .flowFired run node port target) s rfl
    exact ⟨s', bind_done hemit, hs'⟩
  | some o =>
    have hpublished := Outlined.push (e := e) s (.published node o) rfl
    obtain ⟨s', hemit, hs'⟩ := emit_outlined (e := e)
      (fun run => .flowFired run node port target)
      ((s.push (.published node o)).withCache (e.replayStep s.cache (.published node o))) rfl
    exact ⟨s', bind_done hemit, hpublished.trans hs'⟩

/-! ### Parts of a run -/

/-- What the action shows is a word of the part, with the result that the action has. -/
def Tells (e : Engine) (part : Part) {α : Type} (m : RunM α) : Prop :=
  ∀ s result, (m s).1.result? = some result →
    ∃ word, e.Nests s.runId part s.cache s.evaluating word result ∧ e.Outlined word s (m s).2

section Bind

variable {α β : Type} {m : RunM α} {k : α → RunM β} {s : RunState} {result : Option Error}

/-- Where the whole has a result, either both parts have one, or the first one fails. -/
theorem cases_of_bind (h : ((m >>= k) s).1.result? = some result) :
    (∃ a s', m s = (.done a, s') ∧ (m >>= k) s = k a s' ∧ (k a s').1.result? = some result) ∨
      ∃ err s', m s = (.failed err, s') ∧ (m >>= k) s = (.failed err, s') ∧ result = some err := by
  cases hm : m s with
  | mk r s' =>
    cases r with
    | done a =>
      rw [bind_done hm] at h
      exact .inl ⟨a, s', rfl, bind_done hm, h⟩
    | failed err =>
      rw [bind_failed hm] at h
      exact .inr ⟨err, s', rfl, bind_failed hm, (Option.some.inj h).symm⟩
    | exhausted =>
      rw [bind_exhausted hm] at h
      cases h

theorem Tells.of_done {part : Part} (hm : e.Tells part m) {a : α} {s' : RunState}
    (h : m s = (.done a, s')) :
    ∃ word, e.Nests s.runId part s.cache s.evaluating word none ∧ e.Outlined word s s' := by
  have htells := hm s none
  rw [h] at htells
  exact htells rfl

theorem Tells.of_failed {part : Part} (hm : e.Tells part m) {err : Error} {s' : RunState}
    (h : m s = (.failed err, s')) :
    ∃ word, e.Nests s.runId part s.cache s.evaluating word (some err) ∧ e.Outlined word s s' := by
  have htells := hm s (some err)
  rw [h] at htells
  exact htells rfl

/-- What is done after a part does not matter if it shows nothing and always succeeds. -/
theorem Tells.bind {part : Part} (hm : e.Tells part m)
    (hk : ∀ a s, ∃ b s', k a s = (.done b, s') ∧ e.Outlined [] s s') : e.Tells part (m >>= k) := by
  intro s result h
  rcases cases_of_bind h with ⟨a, s₁, hfirst, hrun, h⟩ | ⟨err, s₁, hfirst, hrun, rfl⟩
  · obtain ⟨b, s₂, hlast, hquiet⟩ := hk a s₁
    rw [hrun]
    rw [hlast] at h ⊢
    obtain rfl := Option.some.inj h
    obtain ⟨word, hnests, hword⟩ := hm.of_done hfirst
    have hall := hword.trans hquiet
    rw [List.append_nil] at hall
    exact ⟨word, hnests, hall⟩
  · rw [hrun]
    exact hm.of_failed hfirst

theorem Tells.discard {part : Part} (hm : e.Tells part m) : e.Tells part (discard m) :=
  hm.bind fun _ s => ⟨(), s, rfl, .refl s⟩

/-- The grammar only depends on what an outline tells of the state. -/
theorem Outlined.nests {part : Part} {word rest : List Step} {s' : RunState}
    (h : e.Outlined word s s')
    (hrest : e.Nests s'.runId part s'.cache s'.evaluating rest result) :
    e.Nests s.runId part (word.foldl e.replayStep s.cache) s.evaluating rest result := by
  rwa [h.runId, h.cache, h.evaluating] at hrest

end Bind

theorem tells_pull {step : String → RunM PortValues}
    (hstep : ∀ id, e.Tells (.evaluation id) (step id)) (id : String) :
    e.Tells (.pull id) (e.pull step id) := by
  intro s result
  simp only [pull, read_bind]
  split
  next hkept =>
    intro h
    obtain rfl := Option.some.inj h
    exact ⟨[], .kept hkept, .refl s⟩
  next hnew =>
    have hnew : s.cache.contains id = false := by simpa using hnew
    split
    next hflow =>
      intro h
      obtain rfl := Option.some.inj h
      exact ⟨[], .notRun hnew hflow, .refl s⟩
    next hflow =>
      have hflow : e.graph.usesFlow id = false := by simpa using hflow
      split
      next hbusy =>
        intro h
        obtain rfl := Option.some.inj h
        exact ⟨[], .dataCycle hnew hflow (by simpa using hbusy), .refl s⟩
      next hbusy =>
        intro h
        obtain ⟨word, hnests, hword⟩ := (hstep id).discard s result h
        exact ⟨word, .pulled hnew hflow (by simpa using hbusy) hnests, hword⟩

theorem tells_receive {pull : String → RunM Unit} (hpull : ∀ id, e.Tells (.pull id) (pull id))
    (node : Node) (inputs : PortValues) (x : WireId × Wire) :
    e.Tells (.pull x.2.source) (e.receive pull node inputs x) :=
  (hpull x.2.source).bind fun _ s =>
    ⟨_, s.push (.received node.id x.1 _ s.cache), rfl, .skip s rfl⟩

theorem tells_sources {pull : String → RunM Unit} (hpull : ∀ id, e.Tells (.pull id) (pull id))
    (node : Node) (xs : List (WireId × Wire)) (inputs : PortValues) :
    e.Tells (.sources xs) (xs.foldlM (e.receive pull node) inputs) := by
  induction xs generalizing inputs with
  | nil =>
    intro s result h
    obtain rfl := Option.some.inj h
    exact ⟨[], .none, .refl s⟩
  | cons x xs ih =>
    intro s result h
    rw [List.foldlM_cons] at h ⊢
    have hx := tells_receive hpull node inputs x
    rcases cases_of_bind h with ⟨inputs', s', hfirst, hrun, h⟩ | ⟨err, s', hfirst, hrun, rfl⟩
    · obtain ⟨word, hnests, hword⟩ := hx.of_done hfirst
      obtain ⟨rest, hrest, hlast⟩ := ih inputs' s' result h
      rw [hrun]
      exact ⟨word ++ rest, .source hnests (hword.nests hrest), hword.trans hlast⟩
    · obtain ⟨word, hnests, hword⟩ := hx.of_failed hfirst
      rw [hrun]
      exact ⟨word, .missed hnests, hword⟩

theorem tells_walk {step : String → RunM PortValues}
    (hstep : ∀ id, e.Tells (.evaluation id) (step id)) (allowance : Nat) (id : String) :
    e.Tells (.walk id) (e.walk step allowance id) := by
  induction allowance generalizing id with
  | zero =>
    intro s result h
    cases h
  | succ n ih =>
    intro s result h
    unfold walk at h ⊢
    have hfirst := (hstep id).discard
    rcases cases_of_bind h with ⟨_, s', hdone, hrun, h⟩ | ⟨err, s', hfailed, hrun, rfl⟩
    · obtain ⟨word, hnests, hword⟩ := hfirst.of_done hdone
      rw [hrun]
      cases hnext : e.graph.nextInFlow? id with
      | none =>
        simp only [hnext] at h ⊢
        obtain rfl := Option.some.inj h
        exact ⟨word, .last hnests hnext, hword⟩
      | some next =>
        simp only [hnext] at h ⊢
        obtain ⟨rest, hrest, hlast⟩ := ih next s' result h
        exact ⟨word ++ rest, .next hnests hnext (hword.nests hrest), hword.trans hlast⟩
    · obtain ⟨word, hnests, hword⟩ := hfirst.of_failed hfailed
      rw [hrun]
      exact ⟨word, .stopped hnests, hword⟩

/-- A script that fails anyway only tells something before. -/
theorem interpret_failsWith {α : Type} (resume : String → RunM Unit) (node : String)
    (flows : Table String String) {err : Error} {script : Script α} (h : script.FailsWith err)
    (s : RunState) :
    ∃ s', e.interpret resume node flows script s = (.failed err, s') ∧ e.Outlined [] s s' := by
  induction script generalizing s with
  | done a => exact h.elim
  | fail err' =>
    obtain rfl : err' = err := h
    exact ⟨s, rfl, .refl s⟩
  | fire port outputs next _ => exact h.elim
  | consult key next ih => exact ih _ (h _) s
  | store key entry next ih =>
    obtain ⟨s', hs', hquiet⟩ := ih h { s with context := s.context.insert key entry }
    exact ⟨s', hs', (Outlined.context s _).trans hquiet⟩
  | print line next ih =>
    rw [interpret_print]
    split
    · obtain ⟨s', hs', hquiet⟩ := ih h (s.push (.printed line))
      exact ⟨s', hs', (Outlined.skip s rfl).trans hquiet⟩
    · exact ih h s
  | inform line next ih =>
    obtain ⟨s', hs', hquiet⟩ := ih h (s.push (.informed line))
    exact ⟨s', hs', (Outlined.skip s rfl).trans hquiet⟩

section Calculation

variable {resume : String → RunM Unit} {node : Node}

/-- What follows an output comes after the steps of the firing, and then the rest of the calculation.
If it fails, the calculation fails with it, and shows nothing more. -/
theorem tells_fire (hresume : ∀ id, e.Tells (.walk id) (resume id)) {port : String}
    {outputs : Option PortValues} {next : Except Error Unit → Script PortValues}
    (hfails : ∀ err, (next (.error err)).FailsWith err)
    (hnext : e.Tells (.calculation node (next (.ok ())))
      (e.interpret resume node.id (e.flows node) (next (.ok ())) >>= e.conclude node.id)) :
    e.Tells (.calculation node (.fire port outputs next))
      (e.interpret resume node.id (e.flows node) (.fire port outputs next) >>=
        e.conclude node.id) := by
  intro s result h
  have hheard : ∀ r s', attempt (e.fire resume node.id (e.flows node) port outputs) s =
      (.done r, s') →
      (e.interpret resume node.id (e.flows node) (.fire port outputs next) >>=
        e.conclude node.id) s =
      (e.interpret resume node.id (e.flows node) (next r) >>= e.conclude node.id) s' :=
    fun r s' hr => bind_of_eq (bind_done hr)
  cases hport : (e.flows node).find? port with
  | none =>
    have hfire : e.fire resume node.id (e.flows node) port outputs s = (.done (), s) := by
      simp only [fire, hport, pure_apply]
    rw [hheard _ _ (attempt_done hfire)] at h ⊢
    obtain ⟨word, hnests, hword⟩ := hnext s result h
    exact ⟨word, .unconnected hport hnests, hword⟩
  | some target =>
    obtain ⟨s₁, hfire, hfired⟩ := fire_outlined (e := e) resume node.id hport outputs s
    cases hwalk : resume target s₁ with
    | mk outcome s₂ =>
      rw [hwalk] at hfire
      cases outcome with
      | done _ =>
        rw [hheard _ _ (attempt_done hfire)] at h ⊢
        obtain ⟨word, hnests, hword⟩ := (hresume target).of_done hwalk
        have hbefore := hfired.trans hword
        obtain ⟨rest, hrest, hlast⟩ := hnext s₂ result h
        exact ⟨_, .fired hport (hfired.nests hnests) (hbefore.nests hrest), hbefore.trans hlast⟩
      | failed err =>
        rw [hheard _ _ (attempt_failed hfire)] at h ⊢
        -- The script is told of the error, and has nothing left to do but to fail with it.
        obtain ⟨s₃, hfailed, hquiet⟩ := interpret_failsWith (e := e) resume node.id (e.flows node)
          (hfails err) s₂
        rw [bind_failed hfailed] at h ⊢
        obtain rfl := Option.some.inj h
        obtain ⟨word, hnests, hword⟩ := (hresume target).of_failed hwalk
        have hall := (hfired.trans hword).trans hquiet
        rw [List.append_nil] at hall
        exact ⟨_, .failed hport (hfired.nests hnests), hall⟩
      | exhausted =>
        rw [interpret, bind_assoc, bind_exhausted (attempt_exhausted hfire)] at h
        cases h

/-- A calculation, up to the end of the evaluation. -/
theorem tells_calculation (hresume : ∀ id, e.Tells (.walk id) (resume id))
    {script : Script PortValues} (hpropagates : script.Propagates) :
    e.Tells (.calculation node script)
      (e.interpret resume node.id (e.flows node) script >>= e.conclude node.id) := by
  induction script with
  | done out =>
    intro s result h
    obtain ⟨s', hs', hword⟩ := conclude_outlined (e := e) node.id out s
    replace hs' : (e.interpret resume node.id (e.flows node) (.done out) >>= e.conclude node.id) s =
        (.done out, s') := hs'
    rw [hs'] at h ⊢
    obtain rfl := Option.some.inj h
    exact ⟨_, .done, hword⟩
  | fail err =>
    intro s result h
    obtain rfl := Option.some.inj h
    exact ⟨[], .fail, .refl s⟩
  | fire port outputs next ih => exact tells_fire hresume hpropagates.1 (ih _ hpropagates.2)
  | consult key next ih =>
    intro s result h
    obtain ⟨word, hnests, hword⟩ := ih _ (hpropagates (s.context.find? key)) s result h
    exact ⟨word, .consult _ hnests, hword⟩
  | store key entry next ih =>
    intro s result h
    obtain ⟨word, hnests, hword⟩ := ih hpropagates
      { s with context := s.context.insert key entry } result h
    exact ⟨word, .store hnests, (Outlined.context s _).trans hword⟩
  | print line next ih =>
    intro s result h
    rw [bind_of_eq (e.interpret_print resume node.id (e.flows node) line next s)] at h ⊢
    split at h
    next hlog =>
      rw [if_pos hlog]
      obtain ⟨word, hnests, hword⟩ := ih hpropagates _ result h
      exact ⟨word, .print hnests, (Outlined.skip s rfl).trans hword⟩
    next hlog =>
      rw [if_neg hlog]
      obtain ⟨word, hnests, hword⟩ := ih hpropagates s result h
      exact ⟨word, .print hnests, hword⟩
  | inform line next ih =>
    intro s result h
    obtain ⟨word, hnests, hword⟩ := ih hpropagates (s.push (.informed line)) result h
    exact ⟨word, .inform hnests, (Outlined.skip s rfl).trans hword⟩

end Calculation

/-- All calculations pass failures on. -/
def Propagates (e : Engine) : Prop := ∀ id node, e.graph.node? id = some node →
  ∀ inputs, (e.script node inputs).Propagates

/-- What the evaluation of a node that is there shows, from the sources to its end. -/
theorem nests_evaluate {pull resume : String → RunM Unit}
    (hpull : ∀ id, e.Tells (.pull id) (pull id)) (hresume : ∀ id, e.Tells (.walk id) (resume id))
    {node : Node} (hn : e.graph.node? node.id = some node)
    (hkind : e.graph.kinds.contains node.kind = true)
    (hpropagates : ∀ inputs, (e.script node inputs).Propagates) {s : RunState}
    {result : Option Error} {busy : List String} (hbusy : s.evaluating = node.id :: busy)
    (h : (e.evaluate pull resume node s).1.result? = some result) :
    ∃ word, e.Nests s.runId (.evaluation node.id) s.cache busy word result ∧
      e.Outlined word s (e.evaluate pull resume node s).2 := by
  have hassemble : e.Tells (.sources (e.graph.dataWires node.id)) (e.assemble pull node) :=
    (tells_sources hpull node _ ∅).bind fun _ s => ⟨_, s, rfl, .refl s⟩
  unfold evaluate at h ⊢
  rcases cases_of_bind h with ⟨inputs, s₁, hinputs, hrun, h⟩ | ⟨err, s₁, hfailed, hrun, rfl⟩
  · obtain ⟨word, hnests, hword⟩ := hassemble.of_done hinputs
    have hstarted := hword.trans (Outlined.push s₁ (.calculated node.id inputs) rfl)
    obtain ⟨rest, hrest, hlast⟩ := tells_calculation hresume (hpropagates inputs)
      (s₁.push (.calculated node.id inputs)) result h
    have hafter := hstarted.nests hrest
    rw [hbusy] at hnests hafter
    rw [hrun]
    refine ⟨word ++ .calculated node.id inputs :: rest, .calculated inputs hn hkind hnests ?_, ?_⟩
    · rwa [List.foldl_append] at hafter
    · rw [List.append_cons]
      exact hstarted.trans hlast
  · obtain ⟨word, hnests, hword⟩ := hassemble.of_failed hfailed
    rw [hbusy] at hnests
    rw [hrun]
    exact ⟨word, .starved hn hkind hnests, hword⟩

theorem tells_runNode (hpropagates : e.Propagates) (allowance : Nat) (id : String) :
    e.Tells (.evaluation id) (e.runNode allowance id) := by
  induction allowance generalizing id with
  | zero =>
    intro s result h
    cases h
  | succ k ih =>
    intro s result h
    cases hn : e.graph.node? id with
    | none =>
      simp only [runNode, hn] at h ⊢
      obtain rfl := Option.some.inj h
      exact ⟨[], .absent hn, .refl s⟩
    | some node =>
      obtain rfl : node.id = id := Graph.id_of_node? hn
      simp only [runNode, hn] at h ⊢
      split at h
      next hkind =>
        rw [if_pos hkind]
        obtain ⟨word, hnests, hword⟩ := nests_evaluate (tells_pull ih) (tells_walk ih k) hn hkind
          (hpropagates node.id node hn) (s := { s with evaluating := node.id :: s.evaluating })
          rfl h
        exact ⟨word, hnests, hword.steps, hword.cache, congrArg List.tail hword.evaluating,
          hword.runs⟩
      next hkind =>
        rw [if_neg hkind]
        obtain rfl := Option.some.inj h
        exact ⟨[], .undeclared hn (by simpa using hkind), .refl s⟩

/-! ### Runs -/

/-- A run that has started ends with the result of the walk from there, after the host is told. -/
theorem runFrom_closes {allowance : Nat} {start : String} {s s₁ s₂ s₃ : RunState}
    {outcome : Outcome Unit} {result : Option Error}
    (hstart : e.emit (fun run => .runStarted run start) s.fresh = (.done (), s₁))
    (hwalk : e.continueFrom allowance start s₁ = (outcome, s₂))
    (hresult : outcome.result? = some result)
    (hclose : e.emit (fun run => .closing run result) s₂ = (.done (), s₃)) :
    e.runFrom allowance start s = (.ofResult result, s₃) := by
  unfold runFrom
  rw [change_bind]
  refine (bind_done hstart).trans ?_
  cases outcome with
  | done _ =>
    obtain rfl := Option.some.inj hresult
    rw [bind_done (attempt_done hwalk)]
    exact hclose
  | failed err =>
    obtain rfl := Option.some.inj hresult
    rw [bind_done (attempt_failed hwalk)]
    exact bind_done hclose
  | exhausted => cases hresult

/-- What a run shows that comes to an end: its start, the word of the walk from there, and the
result. -/
theorem runFrom_outlined (hpropagates : e.Propagates) {allowance : Nat} {start : String}
    {s : RunState} (hend : (e.runFrom allowance start s).1 ≠ .exhausted) :
    ∃ result word, (e.runFrom allowance start s).1 = .ofResult result ∧
      e.Nests s.fresh.runId (.walk start) ∅ [] word result ∧
      e.Outlined (.event (.runStarted s.fresh.runId start) :: word ++
        [.event (.closing s.fresh.runId result)]) s.fresh (e.runFrom allowance start s).2 := by
  obtain ⟨s₁, hstart, hstarted⟩ :=
    emit_outlined (e := e) (fun run => .runStarted run start) s.fresh rfl
  cases hwalk : e.continueFrom allowance start s₁ with
  | mk outcome s₂ =>
    cases hresult : outcome.result? with
    | none =>
      -- A run has no result only if its allowance is used up.
      cases outcome with
      | done _ | failed _ => cases hresult
      | exhausted =>
        have hrun : e.runFrom allowance start s = (.exhausted, s₂) :=
          (bind_done hstart).trans (bind_exhausted (attempt_exhausted hwalk))
        exact absurd (congrArg Prod.fst hrun) hend
    | some result =>
      have htells : e.Tells (.walk start) (e.continueFrom allowance start) :=
        tells_walk (tells_runNode hpropagates allowance) allowance start
      obtain ⟨word, hnests, hword⟩ := htells s₁ result (by rw [hwalk]; exact hresult)
      rw [hwalk] at hword
      have hbefore := hstarted.trans hword
      obtain ⟨s₃, hclose, hclosed⟩ := emit_outlined (e := e)
        (fun run => .closing run result) s₂ (by cases result <;> rfl)
      rw [hbefore.runId] at hclosed
      rw [runFrom_closes hstart hwalk hresult hclose]
      exact ⟨result, word, rfl, hstarted.nests hnests, hbefore.trans hclosed⟩

theorem run_closing (run : String) (result : Option Error) :
    (RunEvent.closing run result).run = run := by
  cases result <;> rfl

theorem run_of_inner {run : String} {ev : RunEvent} (h : (Step.event ev).inner run = true) :
    ev.run = run := by
  cases ev with
  | nodeEvaluated | flowFired => exact of_decide_eq_true h
  | runStarted | runCompleted | runFailed => cases h

/-- The events of a run. Take any graph and kinds whose calculations pass failures on, and any run
that comes to an end. Its first event says that it has started, and its last one that it is completed
or that it has failed, whichever is its result; in between there are only events about nodes, and all
events carry the id of the run. What the run shows in between is a word of the walk from its start
node, complete if the run is completed. Otherwise the word stops short at the evaluation that fails
first, and the error of that evaluation is the error of the run and the one that the host is told. -/
theorem events_nest (hpropagates : e.Propagates) (allowance : Nat) (start : String) (s : RunState)
    (hend : (e.runFrom allowance start s).1 ≠ .exhausted) :
    ∃ result steps word, (e.runFrom allowance start s).1 = .ofResult result ∧
      s.Made steps (e.runFrom allowance start s).2 ∧
      e.Nests s.fresh.runId (.walk start) ∅ [] word result ∧
      steps.filter Step.outlines = .event (.runStarted s.fresh.runId start) :: word ++
        [.event (.closing s.fresh.runId result)] ∧
      (∀ step ∈ word, step.inner s.fresh.runId = true) ∧
      ∀ ev, .event ev ∈ steps → ev.run = s.fresh.runId := by
  obtain ⟨result, word, hresult, hnests, houtline⟩ := runFrom_outlined hpropagates hend
  obtain ⟨steps, hmade, hsteps⟩ := houtline.steps
  refine ⟨result, steps, word, hresult, hmade, hnests, hsteps, hnests.inner, fun ev hev => ?_⟩
  have hmem : Step.event ev ∈ steps.filter Step.outlines := List.mem_filter.2 ⟨hev, rfl⟩
  rw [hsteps] at hmem
  rcases List.mem_append.1 hmem with hmem | hlast
  · rcases List.mem_cons.1 hmem with hfirst | hmem
    · obtain rfl := Step.event.inj hfirst
      rfl
    · exact run_of_inner (hnests.inner _ hmem)
  · obtain rfl := Step.event.inj (List.mem_singleton.1 hlast)
    exact run_closing _ result

/-! ### Built-in kinds -/

/-- The calculations of the built-in kinds pass failures on, with nothing in between. -/
theorem builtin_prompt {k : Kind} (hk : k ∈ Builtin.all) (v : Evaluation) :
    (k.behaviour.calculate v).Prompt := by
  refine builtin_calculate (P := fun s => s.Prompt) ?_ ?_ ?_ ?_ ?_ ?_ ?_ hk v
  · exact fun _ => trivial
  · exact fun _ _ => trivial
  · exact fun _ _ => trivial
  · exact fun _ _ => trivial
  · exact fun _ _ h => h
  · exact Script.prompt_proceed
  · exact fun _ _ => Script.prompt_bind

/-- Nodes of built-in kinds pass failures on. -/
theorem BuiltIn.prompt (h : e.BuiltIn) (hg : e.graph.Sound) :
    ∀ id node, e.graph.node? id = some node → ∀ inputs, (e.script node inputs).Prompt := by
  intro id node hn inputs
  obtain ⟨k, hk, _, _, hbehaviour⟩ := h.exists_kind hg hn
  unfold script
  rw [hbehaviour]
  exact builtin_prompt hk _

/-- The loop inside a loop is a run that comes to an end. -/
theorem events_nest_nested :
    ∃ result steps word,
      (nestedEngine.runFrom 10 "outer" (.initial ∅)).1 = .ofResult result ∧
      (RunState.initial ∅).Made steps (nestedEngine.runFrom 10 "outer" (.initial ∅)).2 ∧
      nestedEngine.Nests "run-1" (.walk "outer") ∅ [] word result ∧
      steps.filter Step.outlines = .event (.runStarted "run-1" "outer") :: word ++
        [.event (.closing "run-1" result)] := by
  have he : Engine.ofPatch nested.patch none = .ok nestedEngine := rfl
  have hg := sound_of_ofPatch (reaches_nested.mono fun _ _ h => h.1) he
  have hpropagates : nestedEngine.Propagates := fun id node hn inputs =>
    ((builtIn_of_ofPatch reaches_nested he).prompt hg id node hn inputs).propagates
  have hend : (nestedEngine.runFrom 10 "outer" (.initial ∅)).1 ≠ .exhausted := by decide +kernel
  obtain ⟨result, steps, word, hresult, hmade, hnests, hsteps, _⟩ :=
    events_nest hpropagates 10 "outer" (.initial ∅) hend
  have hrun : (RunState.fresh (.initial ∅)).runId = "run-1" := by decide +kernel
  rw [hrun] at hnests hsteps
  exact ⟨result, steps, word, hresult, hmade, hnests, hsteps⟩

end Engine

end Patchbay
