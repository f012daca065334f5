import Mathlib.Logic.Function.Iterate
import Patchbay.Builtin.Catalogue
import Patchbay.Proofs.Run.Replay
import Patchbay.Proofs.Run.Trace
import Patchbay.Proofs.Session.Basic

/-!
# What firing an output does

A calculation that fires a control output first makes outputs known, if it gives some, and then
control goes on where the output leads. What the run keeps at that moment is known exactly: the
outputs of the node are overridden, those of its dependents are dropped, and all others are as
before. An output that leads nowhere does nothing.

The dependents are searched for, in graphs that may have circles. Each round of the search
(`Graph.goOn`) takes one node from the queue, and there are no more rounds than wires, and one.

## Key results

- `exists_goOn_eq_dependents`: the search for dependents comes to an end
- `find?_flows_eq_some_iff`: which control outputs of a node lead on, and where
- `fire_eq_launched`: firing an output comes to a continuation from a known state
- `fire_effect`: what firing an output does
-/

namespace Patchbay

namespace Graph

/-- One round of the search for dependents: what the first node of the queue feeds is visited. -/
def goOn (g : Graph) (s : List String × List String) : List String × List String :=
  match s.2 with
  | [] => s
  | node :: queue => (g.fed node).foldl g.visit (s.1, queue)

/-- Every round leaves fewer unseen ends and nodes in the queue. -/
theorem exists_goOn_eq_spread (g : Graph) (seen queue : List String) :
    ∃ n, n ≤ g.unseen seen + queue.length ∧
      g.goOn^[n] (seen, queue) = (g.spread seen queue, []) := by
  induction seen, queue using spread.induct g with
  | case1 seen => exact ⟨0, Nat.zero_le _, by rw [spread]; rfl⟩
  | case2 seen node queue s ih =>
    obtain ⟨n, hn, hend⟩ := ih
    have hless : g.unseen s.1 + s.2.length ≤ g.unseen seen + queue.length :=
      g.unseen_visitAll (seen, queue) fun m hm => exists_of_mem_fed hm
    refine ⟨n + 1, ?_, ?_⟩
    · rw [List.length_cons]
      omega
    · rw [Function.iterate_succ_apply, spread]
      exact hend

/-- The search for dependents ends, with an empty queue. -/
theorem exists_goOn_eq_dependents (g : Graph) (node : String) :
    ∃ n, n ≤ g.wires.size + 1 ∧ g.goOn^[n] ([], [node]) = (g.dependents node, []) := by
  obtain ⟨n, hn, hend⟩ := g.exists_goOn_eq_spread [] [node]
  have hall : g.unseen [] ≤ g.wires.size := List.countP_le_length
  refine ⟨n, ?_, hend⟩
  rw [List.length_singleton] at hn
  omega

end Graph

namespace Engine

open RunM

variable {e : Engine} {node : Node} {port target : String}

/-! ### Where control outputs lead -/

/-- Control outputs that are connected, with the nodes they lead to, are listed in order. -/
theorem ascending_flows (e : Engine) (node : Node) :
    Entries.Ascending (node.outputs.entries.filterMap fun p =>
      if p.2.isFlow then (e.graph.flowTarget? node.id p.1).map (p.1, ·) else none) := by
  refine List.Pairwise.filterMap _ (fun a b hab a' ha b' hb => ?_) node.outputs.ascending
  have hkey : ∀ {p : String × Port} {q : String × String},
      (if p.2.isFlow then (e.graph.flowTarget? node.id p.1).map (p.1, ·) else none) = some q →
      q.1 = p.1 := by
    intro p q hq
    split at hq
    · obtain ⟨_, _, rfl⟩ := Option.map_eq_some_iff.1 hq
      rfl
    · cases hq
  rw [hkey ha, hkey hb]
  exact hab

/-- A control output leads on iff it is an ordinary output that carries control and is connected.
-/
theorem find?_flows_eq_some_iff :
    (e.flows node).find? port = some target ↔ ∃ p, node.outputs.find? port = some p ∧
      p.isFlow = true ∧ e.graph.flowTarget? node.id port = some target := by
  have hflows : e.flows node = ⟨_, e.ascending_flows node⟩ := Table.ofList_entries ⟨_, _⟩
  rw [hflows, Table.find?, Entries.find?_eq_some_iff (e.ascending_flows node), List.mem_filterMap]
  constructor
  · rintro ⟨⟨name, p⟩, hp, hleads⟩
    split at hleads
    next hflow =>
      obtain ⟨next, hnext, heq⟩ := Option.map_eq_some_iff.1 hleads
      obtain ⟨rfl, rfl⟩ := Prod.mk.inj heq
      exact ⟨p, Table.mem_entries_iff.1 hp, hflow, hnext⟩
    next => cases hleads
  · rintro ⟨p, hp, hflow, hleads⟩
    exact ⟨(port, p), Table.mem_entries_iff.2 hp, by simp [hflow, hleads]⟩

/-- A port leads to the target of its first wire that carries control. -/
theorem flowTarget?_of_least {g : Graph} {id : String} {i : WireId} {w : Wire}
    (hw : g.wires.find? i = some w) (hends : w.endsAt id port .output = true)
    (hflow : w.isFlow = true) (hleast : ∀ j v, g.wires.find? j = some v →
      v.endsAt id port .output = true → v.isFlow = true → i ≤ j) :
    g.flowTarget? id port = some w.target := by
  have hfound : g.wireWith? (fun w => w.endsAt id port .output && w.isFlow) = some (i, w) := by
    refine Graph.wireWith?_eq_some_iff.2 ⟨hw, by rw [hends, hflow]; rfl, fun j v hv hboth => ?_⟩
    obtain ⟨hj, hjflow⟩ := Bool.and_eq_true_iff.1 hboth
    exact hleast j v hv hj hjflow
  rw [Graph.flowTarget?, hfound]
  rfl

/-- A port without such a wire leads nowhere. -/
theorem flowTarget?_eq_none {g : Graph} {id : String}
    (h : ∀ i w, g.wires.find? i = some w → w.endsAt id port .output = true → w.isFlow = false) :
    g.flowTarget? id port = none := by
  rw [Graph.flowTarget?, Option.map_eq_none_iff, Graph.wireWith?, List.find?_eq_none]
  rintro ⟨i, w⟩ hw hboth
  obtain ⟨hends, hflow⟩ := Bool.and_eq_true_iff.1 hboth
  cases (h i w (Table.mem_entries_iff.1 hw) hends).symm.trans hflow

/-! ### The state in which control goes on -/

/-- The state that an event leaves behind. -/
def told (e : Engine) (make : String → RunEvent) (s : RunState) : RunState :=
  match e.refusal with
  | some reason => (s.push (.event (make s.runId))).push (.undelivered reason)
  | none => s.push (.event (make s.runId))

theorem emit_eq_told (e : Engine) (make : String → RunEvent) (s : RunState) :
    e.emit make s = (.done (), e.told make s) := by
  unfold told
  cases hr : e.refusal <;> simp [emit, hr]

/-- The state that published outputs leave behind. -/
def shown (e : Engine) (node : String) (outputs : Option PortValues) (s : RunState) : RunState :=
  match outputs with
  | some o => (s.push (.published node o)).withCache (e.replayStep s.cache (.published node o))
  | none => s

/-- The state in which control goes on behind a port. -/
def launched (e : Engine) (node port target : String) (outputs : Option PortValues)
    (s : RunState) : RunState :=
  e.told (fun run => .flowFired run node port target) (e.shown node outputs s)

/-- Firing a port that leads on comes to what is done from there. -/
theorem fire_eq_launched (resume : String → RunM Unit) (id : String)
    {flows : Table String String} (htarget : flows.find? port = some target)
    (outputs : Option PortValues) (s : RunState) :
    e.fire resume id flows port outputs s =
      resume target (e.launched id port target outputs s) := by
  unfold fire
  rw [htarget]
  cases outputs with
  | none => exact bind_done (e.emit_eq_told _ s)
  | some o => exact bind_done (e.emit_eq_told _ (e.shown id (some o) s))

/-- Firing a port that leads nowhere does nothing. -/
theorem fire_of_find?_eq_none (resume : String → RunM Unit) (id : String)
    {flows : Table String String} (hnone : flows.find? port = none) (outputs : Option PortValues)
    (s : RunState) : e.fire resume id flows port outputs s = (.done (), s) := by
  unfold fire
  rw [hnone]
  rfl

/-- The steps that are made when a port fires. -/
def launchSteps (e : Engine) (run node port target : String) (outputs : Option PortValues) :
    List Step :=
  (outputs.map (Step.published node)).toList ++
    .event (.flowFired run node port target) :: (e.refusal.map Step.undelivered).toList

theorem made_launched (e : Engine) (id port target : String) (outputs : Option PortValues)
    (s : RunState) :
    s.Made (e.launchSteps s.runId id port target outputs)
      (e.launched id port target outputs s) := by
  have htold : ∀ t : RunState, t.Made
      (.event (.flowFired t.runId id port target) :: (e.refusal.map Step.undelivered).toList)
      (e.told (fun run => .flowFired run id port target) t) := by
    intro t
    unfold told
    cases e.refusal with
    | none => exact t.made_push _
    | some reason => exact (t.made_push _).append (RunState.made_push _ _)
  cases outputs with
  | none => exact htold s
  | some o => exact (s.made_push (.published id o)).append (htold (e.shown id (some o) s))

@[simp]
theorem cache_told (e : Engine) (make : String → RunEvent) (s : RunState) :
    (e.told make s).cache = s.cache := by
  unfold told
  split <;> rfl

@[simp]
theorem cache_launched (e : Engine) (id port target : String) (outputs : Option PortValues)
    (s : RunState) :
    (e.launched id port target outputs s).cache = (e.shown id outputs s).cache :=
  e.cache_told _ _

/-- Control goes on in the state `t` after the node `id` has fired the port in the state `s`. -/
structure Launch (e : Engine) (id port target : String) (outputs : Option PortValues)
    (s t : RunState) : Prop where
  /-- Outputs are published if they are given, and the host is told. -/
  steps : s.Made (e.launchSteps s.runId id port target outputs) t
  context : t.context = s.context
  evaluating : t.evaluating = s.evaluating
  runs : t.runs = s.runs
  same : outputs = none → t.cache = s.cache
  /-- The outputs of the node are overridden key by key. -/
  own : ∀ o, outputs = some o → ∃ r, t.cache.find? id = some r ∧
    ∀ k, r.find? k = (o.find? k).or (((s.cache.find? id).getD ∅).find? k)
  /-- Nodes without control ports lose their outputs if values reach them from the node, through
  such nodes only. -/
  dropped : ∀ o, outputs = some o → ∀ x, Relation.TransGen e.graph.Passes id x →
    t.cache.find? x = none
  kept : ∀ o, outputs = some o → ∀ x, x ≠ id → ¬ Relation.TransGen e.graph.Passes id x →
    t.cache.find? x = s.cache.find? x

theorem launch_launched {id : String} (hflow : e.graph.usesFlow id = true) (port target : String)
    (outputs : Option PortValues) (s : RunState) :
    e.Launch id port target outputs s (e.launched id port target outputs s) := by
  -- The node has control ports itself, so its own outputs are not dropped.
  have hself : id ∉ e.graph.dependents id := fun hmem =>
    Bool.false_ne_true ((Graph.usesFlow_of_mem_dependents hmem).symm.trans hflow)
  have hfind : ∀ o, outputs = some o → ∀ x,
      (e.launched id port target outputs s).cache.find? x =
        if x ∈ e.graph.dependents id then none
        else if x = id then some (((s.cache.find? id).getD ∅).override o)
        else s.cache.find? x := by
    rintro o rfl x
    rw [cache_launched]
    exact find?_replayStep_published s.cache id o x
  constructor
  case steps => exact e.made_launched id port target outputs s
  case context => unfold launched told shown; cases e.refusal <;> cases outputs <;> rfl
  case evaluating => unfold launched told shown; cases e.refusal <;> cases outputs <;> rfl
  case runs => unfold launched told shown; cases e.refusal <;> cases outputs <;> rfl
  case same =>
    rintro rfl
    exact e.cache_launched id port target none s
  case own =>
    intro o ho
    refine ⟨_, (hfind o ho id).trans ?_, fun k => Table.find?_override _ o k⟩
    rw [if_neg hself, if_pos rfl]
  case dropped =>
    intro o ho x hx
    rw [hfind o ho, if_pos (Graph.mem_dependents.2 hx)]
  case kept =>
    intro o ho x hne hx
    rw [hfind o ho, if_neg fun hmem => hx (Graph.mem_dependents.1 hmem), if_neg hne]

/-- What firing an output does, in any graph and any state. Let a node with control ports fire one
of its outputs that carries control. If a wire leads from there into `__flow_in`, control goes on at
the target of the first such wire, whatever other wires there are, from a state that is known
exactly (`Launch`). If there is none, or the port is not an ordinary output that carries control,
nothing happens. The search for dependents, on which this rests, ends in every graph. -/
theorem fire_effect (e : Engine) {id : String} (hn : e.graph.node? id = some node)
    (hflow : e.graph.usesFlow id = true) (port : String) (outputs : Option PortValues)
    (s : RunState) :
    (∀ p, node.outputs.find? port = some p → p.isFlow = true →
      ∀ i w, e.graph.wires.find? i = some w → w.endsAt id port .output = true →
        w.isFlow = true → (∀ j v, e.graph.wires.find? j = some v →
          v.endsAt id port .output = true → v.isFlow = true → i ≤ j) →
        ∃ t, (∀ resume, e.fire resume id (e.flows node) port outputs s = resume w.target t) ∧
          e.Launch id port w.target outputs s t) ∧
    ((∀ p, node.outputs.find? port = some p → p.isFlow = true →
        ∀ i w, e.graph.wires.find? i = some w → w.endsAt id port .output = true →
          w.isFlow = false) →
      ∀ resume, e.fire resume id (e.flows node) port outputs s = (.done (), s)) ∧
    ∀ (g : Graph) (start : String), ∃ n, n ≤ g.wires.size + 1 ∧
      g.goOn^[n] ([], [start]) = (g.dependents start, []) := by
  obtain rfl : node.id = id := Graph.id_of_node? hn
  refine ⟨fun p hp hpflow i w hw hends hwflow hleast => ?_, fun hnone resume => ?_,
    fun g start => g.exists_goOn_eq_dependents start⟩
  · have htarget : (e.flows node).find? port = some w.target :=
      find?_flows_eq_some_iff.2 ⟨p, hp, hpflow, flowTarget?_of_least hw hends hwflow hleast⟩
    exact ⟨_, fun resume => fire_eq_launched resume node.id htarget outputs s,
      launch_launched hflow port w.target outputs s⟩
  · refine fire_of_find?_eq_none resume node.id ?_ outputs s
    refine Option.eq_none_iff_forall_ne_some.2 fun target htarget => ?_
    obtain ⟨p, hp, hpflow, hleads⟩ := find?_flows_eq_some_iff.1 htarget
    rw [flowTarget?_eq_none (hnone p hp hpflow)] at hleads
    cases hleads

/-! ### A circle behind a loop

The index of a loop is added to a sum that feeds itself through a reroute. The print node that the
body of the loop leads to reads from the circle. -/

def circledOperations : List Operation :=
  [.declare Builtin.repeated, .declare Builtin.reroute, .declare Builtin.add,
    .declare Builtin.print, .insert "repeat" "loop" .origin, .insert "add" "sum" .origin,
    .insert "reroute" "back" .origin, .insert "print" "out" .origin,
    .connect ⟨"loop", "index", "sum", "a"⟩, .connect ⟨"sum", "result", "back", "in"⟩,
    .connect ⟨"back", "out", "sum", "b"⟩, .connect ⟨"back", "out", "out", "value"⟩,
    .connect ⟨"loop", "body", "out", "__flow_in"⟩]

def circled : Patch := ((Session.start true .base 1).performAll circledOperations).patch

def circledEngine : Engine := ⟨circled.toGraph, circled.behaviour, none⟩

/-- All nodes have outputs. -/
def circledState : RunState :=
  (RunState.initial ∅).withCache (Table.ofList
    [("loop", Builtin.loopOutputs .null), ("sum", ∅), ("back", ∅), ("out", ∅)])

/-- When the body is fired, control goes on at the print node; by then the loop has its new index,
the nodes on the circle have no outputs any more, and the print node has those it had. -/
theorem fire_effect_circled : ∃ t,
    (∀ node, circledEngine.graph.node? "loop" = some node → ∀ resume,
      circledEngine.fire resume "loop" (circledEngine.flows node) "body"
        (some (Builtin.loopOutputs (.ofNat 0))) circledState = resume "out" t) ∧
      (t.cache.find? "loop").bind (·.find? "index") = some (.ofNat 0) ∧
      t.cache.find? "sum" = none ∧ t.cache.find? "back" = none ∧
      t.cache.find? "out" = some ∅ := by
  have hsome : (circledEngine.graph.node? "loop").isSome = true := by decide +kernel
  obtain ⟨node, hn⟩ := Option.isSome_iff_exists.1 hsome
  have hport : (node.outputs.find? "body").any (·.isFlow) = true := by
    have hports : (circledEngine.graph.node? "loop").all
        (fun n => (n.outputs.find? "body").any (·.isFlow)) = true := by decide +kernel
    rw [hn] at hports
    exact hports
  obtain ⟨p, hp, hpflow⟩ := (Option.any_eq_true _ _).1 hport
  have hwires : circledEngine.graph.wires.entries.all (fun x =>
      decide (x.2.endsAt "loop" "body" .output = true → x.1 = 4)) = true := by decide +kernel
  obtain ⟨t, hresume, hlaunch⟩ := (fire_effect circledEngine hn (by decide +kernel) "body"
    (some (Builtin.loopOutputs (.ofNat 0))) circledState).1 p hp hpflow 4
      ⟨"loop", "body", "out", "__flow_in"⟩ (by decide +kernel) (by decide) (by decide)
      fun j v hv hends _ => by
        have hj := List.all_eq_true.1 hwires (j, v) (Table.mem_entries_iff.2 hv)
        exact Nat.le_of_eq (of_decide_eq_true hj hends).symm
  obtain ⟨r, hr, hindex⟩ := hlaunch.own _ rfl
  refine ⟨t, fun node' hn' resume => ?_, ?_, ?_, ?_, ?_⟩
  · obtain rfl : node = node' := Option.some.inj (hn.symm.trans hn')
    exact hresume resume
  · rw [hr, Option.bind_some, hindex]
    rfl
  · exact hlaunch.dropped _ rfl _ (Graph.mem_dependents.1 (by decide +kernel))
  · exact hlaunch.dropped _ rfl _ (Graph.mem_dependents.1 (by decide +kernel))
  · refine (hlaunch.kept _ rfl "out" (by decide) fun hpasses => ?_).trans rfl
    exact absurd (Graph.mem_dependents.2 hpasses) (by decide +kernel)

end Engine

end Patchbay
