import Patchbay.Proofs.Run.Likeness
import Patchbay.Proofs.Run.Nesting

/-!
# The order of wires does not matter

Two runs are followed side by side, over graphs that are alike up to the order of their wires. Where
control moves, they make the same moves. Where values are pulled, they go different ways, but what
they have filled in at the end is the same, or both have failed.

A run that fails may leave other outputs behind than its counterpart, and with another error. So
from then on only what the host has seen is compared. The second run may have to nest deeper than
the first one, though by no more than the number of nodes.

## Key results

- `tracks_assemble`: the inputs of a node, pulled in different orders
- `tracks_runNode`: the evaluation of a node
- `order_of_wires`: runs over patches that were wired in different orders
-/

namespace Patchbay.Engine

open RunM

variable {e e' : Engine} {past past' : List Sign} {busy : List String}

/-! ### Two runs side by side -/

/-- Since some moment the host has seen the same of both runs. -/
def SameSigns (past past' : List Sign) (s s' : RunState) : Prop :=
  ∃ signs, s.signs = past ++ signs ∧ s'.signs = past' ++ signs

theorem SameSigns.append {s s' t t' : RunState} (h : SameSigns past past' s s') {xs : List Sign}
    (ht : t.signs = s.signs ++ xs) (ht' : t'.signs = s'.signs ++ xs) :
    SameSigns past past' t t' := by
  obtain ⟨signs, hs, hs'⟩ := h
  exact ⟨signs ++ xs, by rw [ht, hs, List.append_assoc], by rw [ht', hs', List.append_assoc]⟩

/-- The host sees nothing more of either run. -/
theorem SameSigns.of_eq {s s' t t' : RunState} (h : SameSigns past past' s s')
    (ht : t.signs = s.signs) (ht' : t'.signs = s'.signs) : SameSigns past past' t t' := by
  unfold SameSigns
  rw [ht, ht']
  exact h

/-- The two runs are at the same point. -/
structure Abreast (past past' : List Sign) (busy : List String) (s s' : RunState) : Prop where
  context : s.context = s'.context
  cache : s.cache = s'.cache
  evaluating : s.evaluating = busy
  evaluating' : s'.evaluating = busy
  signs : SameSigns past past' s s'

/-- How two actions end: with the same result at the same point, or both with an error. Nothing is
said of the second one if the first one has used up its allowance. -/
inductive Ends (past past' : List Sign) (busy : List String) {α : Type} :
    Outcome α × RunState → Outcome α × RunState → Prop where
  | done {a : α} {s s' : RunState} :
    Abreast past past' busy s s' → Ends past past' busy (.done a, s) (.done a, s')
  | failed {err err' : Error} {s s' : RunState} :
    SameSigns past past' s s' → Ends past past' busy (.failed err, s) (.failed err', s')
  | exhausted {s : RunState} {r : Outcome α × RunState} : Ends past past' busy (.exhausted, s) r

/-- From the same point, the two actions end together. -/
def Tracks (past past' : List Sign) (busy : List String) {α : Type} (m m' : RunM α) : Prop :=
  ∀ s s', Abreast past past' busy s s' → Ends past past' busy (m s) (m' s')

section Combinators

variable {α β : Type} {m m' : RunM α} {k k' : α → RunM β}

theorem tracks_pure (a : α) : Tracks past past' busy (pure a) (pure a) := fun _ _ h => .done h

theorem tracks_fail (err err' : Error) : Tracks past past' busy (fail err : RunM α) (fail err') :=
  fun _ _ h => .failed h.signs

theorem tracks_exhaust (m' : RunM α) : Tracks past past' busy exhaust m' := fun _ _ _ => .exhausted

theorem tracks_change {f f' : RunState → RunState}
    (h : ∀ s s', Abreast past past' busy s s' → Abreast past past' busy (f s) (f' s')) :
    Tracks past past' busy (change f) (change f') :=
  fun s s' hs => .done (h s s' hs)

theorem tracks_bind (hm : Tracks past past' busy m m')
    (hk : ∀ a, Tracks past past' busy (k a) (k' a)) :
    Tracks past past' busy (m >>= k) (m' >>= k') := by
  intro s s' hs
  have hends := hm s s' hs
  generalize hr : m s = r at hends
  generalize hr' : m' s' = r' at hends
  cases hends with
  | done h =>
    rw [bind_done hr, bind_done hr']
    exact hk _ _ _ h
  | failed h =>
    rw [bind_failed hr, bind_failed hr']
    exact .failed h
  | exhausted =>
    rw [bind_exhausted hr]
    exact .exhausted

theorem tracks_discard (hm : Tracks past past' busy m m') :
    Tracks past past' busy (discard m) (discard m') :=
  tracks_bind hm fun _ => tracks_pure ()

theorem tracks_within {node : String} (hm : Tracks past past' (node :: busy) m m') :
    Tracks past past' busy (within node m) (within node m') := by
  intro s s' hs
  have hends := hm { s with evaluating := node :: s.evaluating }
    { s' with evaluating := node :: s'.evaluating }
    ⟨hs.context, hs.cache, congrArg _ hs.evaluating, congrArg _ hs.evaluating', hs.signs⟩
  rw [within_apply, within_apply]
  generalize m _ = r at hends
  generalize m' _ = r' at hends
  cases hends with
  | done h =>
    exact .done ⟨h.context, h.cache, congrArg List.tail h.evaluating,
      congrArg List.tail h.evaluating', h.signs⟩
  | failed h => exact .failed h
  | exhausted => exact .exhausted

/-- Two steps that look the same to the host. -/
theorem Abreast.push {s s' : RunState} (h : Abreast past past' busy s s') {step step' : Step}
    (hsign : step.sign? = step'.sign?) : Abreast past past' busy (s.push step) (s'.push step') :=
  ⟨h.context, h.cache, h.evaluating, h.evaluating',
    h.signs.append (s.signs_push step) (hsign ▸ s'.signs_push step')⟩

theorem tracks_log {step step' : Step} (hsign : step.sign? = step'.sign?) :
    Tracks past past' busy (log step) (log step') :=
  fun _ _ hs => .done (hs.push hsign)

/-- Whether the host takes an event does not show in the state, but for the trace. -/
theorem emit_signs (e : Engine) (make : String → RunEvent) (s : RunState) :
    ∃ t, e.emit make s = (.done (), t) ∧ t.context = s.context ∧ t.cache = s.cache ∧
      t.evaluating = s.evaluating ∧
      t.signs = s.signs ++ (Step.event (make s.runId)).sign?.toList := by
  refine e.emit_ends ⟨rfl, rfl, rfl, s.signs_push _⟩ ?_
  rintro reason t ⟨hcontext, hcache, hevaluating, hsigns⟩
  exact ⟨hcontext, hcache, hevaluating, (t.signs_push_none rfl).trans hsigns⟩

theorem tracks_emit {make make' : String → RunEvent}
    (hsign : ∀ run run', (Step.event (make run)).sign? = (Step.event (make' run')).sign?) :
    Tracks past past' busy (e.emit make) (e'.emit make') := by
  intro s s' hs
  obtain ⟨t, hemit, hcontext, hcache, hevaluating, hsigns⟩ := e.emit_signs make s
  obtain ⟨t', hemit', hcontext', hcache', hevaluating', hsigns'⟩ := e'.emit_signs make' s'
  rw [hsign s.runId s'.runId] at hsigns
  rw [hemit, hemit']
  exact .done ⟨hcontext.trans (hs.context.trans hcontext'.symm),
    hcache.trans (hs.cache.trans hcache'.symm), hevaluating.trans hs.evaluating,
    hevaluating'.trans hs.evaluating', hs.signs.append hsigns hsigns'⟩

end Combinators

/-- Two engines that only differ in the order of their wires, over kinds that calculate at once where
they have no control ports, and that pass failures on. -/
structure Twins (e e' : Engine) : Prop where
  mirrors : e.Mirrors e'
  sound : e.graph.Sound
  sound' : e'.graph.Sound
  settled : e.Settled
  settled' : e'.Settled
  prompt : ∀ id node, e.graph.node? id = some node → ∀ inputs, (e.script node inputs).Prompt

/-! ### Pulling -/

section Assemble

variable {m n : Node} {k k' : Nat} {s s' : RunState}

/-- With an allowance for all nodes, assembling the inputs of one comes to an end. -/
theorem Twins.assemble_ne_exhausted (h : Twins e e') (hk : e'.graph.nodes.length ≤ k')
    (hn : e'.graph.node? n.id = some n) (hbusy : s.evaluating = n.id :: busy) :
    (e'.assemble (e'.pull (e'.runNode k')) n s).1 ≠ .exhausted := by
  have hstate : s = { s with evaluating := n.id :: s.evaluating.tail } := by
    rw [hbusy, List.tail_cons, ← hbusy]
  rw [hstate]
  exact Engine.assemble_ne_exhausted h.settled'.restrained hn hk
    { s with evaluating := s.evaluating.tail }

/-- The inputs of a node are there in both runs or in neither. -/
theorem assemble_done_iff_of_twins (h : Twins e e') (hs : Abreast past past' (m.id :: busy) s s')
    (hk : e'.graph.nodes.length ≤ k') (hm : e.graph.node? m.id = some m)
    (hn : e'.graph.node? n.id = some n) (hid : m.id = n.id)
    (hbusy : ∀ z ∈ busy, e.graph.usesFlow z = true)
    (hend : (e.assemble (e.pull (e.runNode k)) m s).1 ≠ .exhausted) :
    (∃ inputs, (e.assemble (e.pull (e.runNode k)) m s).1 = .done inputs) ↔
      ∃ inputs, (e'.assemble (e'.pull (e'.runNode k')) n s').1 = .done inputs := by
  have hbusy' : s'.evaluating = n.id :: busy := hid ▸ hs.evaluating'
  rw [assemble_done_iff h.sound h.settled hm hs.evaluating hbusy hend,
    assemble_done_iff h.sound' h.settled' hn hbusy'
      (fun z hz => h.mirrors.usesFlow z ▸ hbusy z hz) (h.assemble_ne_exhausted hk hn hbusy'),
    ← hs.cache, ← hid]
  exact ⟨fun hall x hx => (hall x ((h.mirrors.feeds x _).2 hx)).imp fun _ => h.mirrors.filled,
    fun hall x hx => (hall x ((h.mirrors.feeds x _).1 hx)).imp fun _ => h.mirrors.symm.filled⟩

/-- Sources are pulled in different orders, to the same end. -/
theorem tracks_assemble (h : Twins e e') (hk : e'.graph.nodes.length ≤ k')
    (hm : e.graph.node? m.id = some m) (hn : e'.graph.node? n.id = some n)
    (hid : m.id = n.id) (hmn : e.Likens e' m n)
    (hbusy : ∀ z ∈ busy, e.graph.usesFlow z = true) :
    Tracks past past' (m.id :: busy) (e.assemble (e.pull (e.runNode k)) m)
      (e'.assemble (e'.pull (e'.runNode k')) n) := by
  intro s s' hs
  have hgathered := gathered_assemble h.sound h.settled k m s
  have hgathered' := gathered_assemble h.sound' h.settled' k' n s'
  have hend' := h.assemble_ne_exhausted hk hn (hid ▸ hs.evaluating')
  have hboth := assemble_done_iff_of_twins (k := k) h hs hk hm hn hid hbusy
  cases hr : e.assemble (e.pull (e.runNode k)) m s with
  | mk r t =>
    cases hr' : e'.assemble (e'.pull (e'.runNode k')) n s' with
    | mk r' t' =>
      rw [hr] at hgathered hboth
      rw [hr'] at hgathered' hend' hboth
      rw [← hs.cache, ← hid] at hgathered'
      have hsigns : SameSigns past past' t t' :=
        hs.signs.of_eq hgathered.signs hgathered'.signs
      cases r with
      | exhausted => exact .exhausted
      | done inputs =>
        obtain ⟨inputs', hdone⟩ := (hboth nofun).1 ⟨inputs, rfl⟩
        obtain rfl : r' = .done inputs' := hdone
        -- Both runs have got the outputs of all sources, from which the others follow.
        obtain ⟨hin, hsources⟩ :=
          sources_of_assemble h.sound (calmPull_runNode h.sound h.settled [] k) hm hr
        obtain ⟨hin', hsources'⟩ :=
          sources_of_assemble h.sound' (calmPull_runNode h.sound' h.settled' [] k') hn hr'
        have hcache : t.cache = t'.cache :=
          h.mirrors.grown_unique hgathered.grown hgathered'.grown hsources (hid ▸ hsources')
        rw [hin, hin', hmn.inputs, hcache]
        exact .done ⟨hgathered.context.trans (hs.context.trans hgathered'.context.symm), hcache,
          hgathered.evaluating.trans hs.evaluating, hgathered'.evaluating.trans hs.evaluating',
          hsigns⟩
      | failed err =>
        cases r' with
        | done inputs' =>
          obtain ⟨inputs, hdone⟩ := (hboth nofun).2 ⟨inputs', rfl⟩
          cases hdone
        | failed err' => exact .failed hsigns
        | exhausted => exact absurd rfl hend'

end Assemble

/-! ### Calculations -/

/-- The same outputs are dropped, in whatever order they are found. -/
theorem tracks_publish (h : e.Mirrors e') (node : String) (outputs : PortValues) :
    Tracks past past' busy (e.publish node outputs) (e'.publish node outputs) := by
  refine tracks_bind (tracks_log rfl) fun _ => tracks_change fun s s' hs =>
    ⟨hs.context, ?_, hs.evaluating, hs.evaluating', hs.signs⟩
  show e.replayStep s.cache (.published node outputs) =
    e'.replayStep s'.cache (.published node outputs)
  -- The tables are compared entry by entry, as the searches come across the nodes in other orders.
  refine Table.ext_find? fun x => ?_
  simp only [find?_replayStep_published, h.dependents, hs.cache]

section Calculation

variable {resume resume' : String → RunM Unit}

theorem tracks_fire (h : e.Mirrors e')
    (hresume : ∀ id, Tracks past past' busy (resume id) (resume' id)) (node : String)
    (flows : Table String String) (port : String) (outputs : Option PortValues) :
    Tracks past past' busy (e.fire resume node flows port outputs)
      (e'.fire resume' node flows port outputs) := by
  unfold fire
  split
  · exact tracks_pure ()
  next target _ =>
    have hgo : Tracks past past' busy
        (e.emit (fun run => .flowFired run node port target) >>= fun _ => resume target)
        (e'.emit (fun run => .flowFired run node port target) >>= fun _ => resume' target) :=
      tracks_bind (tracks_emit fun _ _ => rfl) fun _ => hresume target
    cases outputs with
    | some o => exact tracks_bind (tracks_publish h node o) fun _ => hgo
    | none => exact hgo

/-- A script hears of the same results. If what it has fired fails, it fails too. -/
theorem tracks_interpret {node : String} {flows : Table String String} {script : Script PortValues}
    (hprompt : script.Prompt)
    (hfire : script.Silent ∨ ∀ port outputs, Tracks past past' busy
      (e.fire resume node flows port outputs) (e'.fire resume' node flows port outputs)) :
    Tracks past past' busy (e.interpret resume node flows script)
      (e'.interpret resume' node flows script) := by
  induction script with
  | done a => exact tracks_pure a
  | fail err => exact tracks_fail err err
  | fire port outputs next ih =>
    have hfire := hfire.resolve_left fun h => h
    intro s s' hs
    have hends := hfire port outputs s s' hs
    generalize hr : e.fire resume node flows port outputs s = r at hends
    generalize hr' : e'.fire resume' node flows port outputs s' = r' at hends
    rw [interpret, interpret]
    cases hends with
    | done h =>
      rw [bind_done (attempt_done hr), bind_done (attempt_done hr')]
      exact ih _ hprompt.2 (.inr hfire) _ _ h
    | failed h =>
      -- The errors may differ, but neither script does anything with its own.
      rw [bind_done (attempt_failed hr), bind_done (attempt_failed hr'), hprompt.1, hprompt.1]
      exact .failed h
    | exhausted =>
      rw [bind_exhausted (attempt_exhausted hr)]
      exact .exhausted
  | consult key next ih =>
    intro s s' hs
    simp only [interpret, read_bind, hs.context]
    exact ih _ (hprompt _) (hfire.imp_left fun h => h _) s s' hs
  | store key entry next ih =>
    exact tracks_bind (tracks_change fun s s' hs => ⟨by rw [hs.context], hs.cache, hs.evaluating,
      hs.evaluating', hs.signs⟩) fun _ => ih hprompt hfire
  | print line next ih =>
    intro s s' hs
    rw [interpret_print, interpret_print, hs.context]
    split
    · exact ih hprompt hfire _ _ (hs.push rfl)
    · exact ih hprompt hfire s s' hs
  | inform line next ih =>
    exact tracks_bind (tracks_log rfl) fun _ => ih hprompt hfire

end Calculation

/-! ### Evaluations -/

theorem tracks_evaluate {pull pull' resume resume' : String → RunM Unit} {m n : Node}
    (hid : m.id = n.id) (hmn : e.Likens e' m n)
    (hassemble : Tracks past past' busy (e.assemble pull m) (e'.assemble pull' n))
    (hprompt : ∀ inputs, (e.script m inputs).Prompt)
    (hfire : (∀ inputs, (e.script m inputs).Silent) ∨ ∀ port outputs, Tracks past past' busy
      (e.fire resume m.id (e.flows m) port outputs)
      (e'.fire resume' m.id (e.flows m) port outputs)) :
    Tracks past past' busy (e.evaluate pull resume m) (e'.evaluate pull' resume' n) := by
  refine tracks_bind hassemble fun inputs => tracks_bind (tracks_log rfl) fun _ => ?_
  have hinterpret : Tracks past past' busy (e.interpret resume m.id (e.flows m) (e.script m inputs))
      (e'.interpret resume' n.id (e'.flows n) (e'.script n inputs)) := by
    rw [← hid, ← hmn.flows, ← hmn.script]
    exact tracks_interpret (hprompt inputs) (hfire.imp_left fun h => h inputs)
  refine tracks_bind hinterpret fun outputs => tracks_bind (tracks_change fun s s' hs => ?_)
    fun _ => tracks_bind (tracks_emit fun _ _ => rfl) fun _ => tracks_pure outputs
  exact ⟨hs.context, by rw [hs.cache, hid], hs.evaluating, hs.evaluating', hs.signs⟩

/-- Control passes the same nodes one after the other. -/
theorem tracks_walk (h : e.Mirrors e') {step step' : String → RunM PortValues}
    (hstep : ∀ id, Tracks past past' busy (step id) (step' id)) {k k' : Nat} (hk : k ≤ k')
    (id : String) : Tracks past past' busy (e.walk step k id) (e'.walk step' k' id) := by
  induction k generalizing k' id with
  | zero => exact tracks_exhaust _
  | succ k ih =>
    obtain ⟨k', rfl⟩ : ∃ l, k' = l + 1 := ⟨k' - 1, by omega⟩
    refine tracks_bind (tracks_discard (hstep id)) fun _ => ?_
    rw [← h.next]
    split
    · exact ih (Nat.le_of_succ_le_succ hk) _
    · exact tracks_pure ()

/-- The evaluation of a node, where only nodes with control ports are being evaluated. The second
one can nest as much deeper as there are nodes. -/
theorem tracks_runNode (h : Twins e e') {k k' : Nat} (hk : k + e'.graph.nodes.length ≤ k')
    (hbusy : ∀ z ∈ busy, e.graph.usesFlow z = true) (id : String) :
    Tracks past past' busy (e.runNode k id) (e'.runNode k' id) := by
  -- The first run may be at the end of its allowance. The second one must still have enough then to
  -- pull any source.
  induction k generalizing k' busy id with
  | zero => exact tracks_exhaust _
  | succ k ih =>
    obtain ⟨k', rfl⟩ : ∃ l, k' = l + 1 := ⟨k' - 1, by omega⟩
    rcases h.mirrors.nodes id with ⟨hm, hn⟩ | ⟨m, n, hm, hn, hmn⟩
    · simp only [runNode, hm, hn]
      exact tracks_fail _ _
    · have hkind : e.graph.kinds.contains m.kind = true := h.sound.declared id m hm
      have hkind' : e'.graph.kinds.contains n.kind = true := h.sound'.declared id n hn
      obtain rfl : m.id = id := Graph.id_of_node? hm
      have hid : m.id = n.id := (Graph.id_of_node? hn).symm
      simp only [runNode, hm, hn, hkind, hkind', if_true]
      refine tracks_within (tracks_evaluate hid hmn
        (tracks_assemble h (by omega) hm (hid ▸ hn) hid hmn hbusy) (h.prompt m.id m hm) ?_)
      -- A node without control ports fires nothing, so control only goes on from the others.
      cases hflow : e.graph.usesFlow m.id with
      | false => exact .inl (h.settled.restrained m.id m hm hflow)
      | true =>
        have hbusy' : ∀ z ∈ m.id :: busy, e.graph.usesFlow z = true :=
          List.forall_mem_cons.2 ⟨hflow, hbusy⟩
        exact .inr (tracks_fire h.mirrors
          (tracks_walk h.mirrors (ih (by omega) hbusy') (by omega)) m.id (e.flows m))

/-! ### Runs -/

/-- Two runs that start with the same context end together. -/
theorem tracks_runFrom (h : Twins e e') {k k' : Nat} (hk : k + e'.graph.nodes.length ≤ k')
    (start : String) {s s' : RunState} (hcontext : s.context = s'.context) :
    Ends s.signs s'.signs [] (e.runFrom k start s) (e'.runFrom k' start s') := by
  have hbegin : Abreast s.signs s'.signs []
      { s with cache := ∅, evaluating := [], runs := s.runs + 1 }
      { s' with cache := ∅, evaluating := [], runs := s'.runs + 1 } :=
    ⟨hcontext, rfl, rfl, rfl, [], (List.append_nil _).symm, (List.append_nil _).symm⟩
  have hcontinue : Tracks s.signs s'.signs [] (e.continueFrom k start)
      (e'.continueFrom k' start) :=
    tracks_walk h.mirrors (tracks_runNode h hk (List.forall_mem_nil _)) (by omega) start
  have hstart : Tracks s.signs s'.signs [] (e.emit fun run => .runStarted run start)
      (e'.emit fun run => .runStarted run start) :=
    tracks_emit fun _ _ => rfl
  have hclose : Tracks s.signs s'.signs [] (e.emit fun run => .runCompleted run)
      (e'.emit fun run => .runCompleted run) :=
    tracks_emit fun _ _ => rfl
  unfold runFrom
  rw [change_bind, change_bind]
  refine tracks_bind hstart (fun _ t t' ht => ?_) _ _ hbegin
  have hends := hcontinue t t' ht
  generalize hr : e.continueFrom k start t = r at hends
  generalize hr' : e'.continueFrom k' start t' = r' at hends
  cases hends with
  | done hu =>
    rw [bind_done (attempt_done hr), bind_done (attempt_done hr')]
    exact hclose _ _ hu
  | @failed err err' u u' hsigns =>
    rw [bind_done (attempt_failed hr), bind_done (attempt_failed hr')]
    obtain ⟨v, hemit, _, _, _, hv⟩ := e.emit_signs (fun run => .runFailed run err.message) u
    obtain ⟨v', hemit', _, _, _, hv'⟩ := e'.emit_signs (fun run => .runFailed run err'.message) u'
    dsimp only
    rw [bind_done hemit, bind_done hemit']
    exact .failed (hsigns.append hv hv')
  | exhausted =>
    rw [bind_exhausted (attempt_exhausted hr)]
    exact .exhausted

/-- Engines over patches that were wired in different orders. -/
theorem twins_of_ofPatch {session session' : Session}
    (hreach : Session.Reaches (fun s op => op.Fresh s.patch ∧ op.Declares (· ∈ Builtin.all)) session)
    (hreach' : Session.Reaches (fun s op => op.Fresh s.patch ∧ op.Declares (· ∈ Builtin.all))
      session')
    {refusal refusal' : Option String} (he : Engine.ofPatch session.patch refusal = .ok e)
    (he' : Engine.ofPatch session'.patch refusal' = .ok e') (halike : e.graph.Alike e'.graph)
    (honce : e.graph.FlowsOnce) : Twins e e' := by
  have hg := sound_of_ofPatch (hreach.mono fun _ _ h => h.1) he
  have hg' := sound_of_ofPatch (hreach'.mono fun _ _ h => h.1) he'
  have hbuilt := builtIn_of_ofPatch hreach he
  have hbuilt' := builtIn_of_ofPatch hreach' he'
  exact ⟨mirrors_of_alike hbuilt hbuilt' hg hg' halike honce, hg, hg', hbuilt.settled hg,
    hbuilt'.settled hg', hbuilt.prompt hg⟩

/-- The order of wires does not matter. Take any two sessions whose kinds are built in, and engines
over their patches, such that the graphs are alike: they have the same wires, numbered in whatever
order, and between the same nodes, with the same types and values of ports. Let control go only one
way from each control output. If a run over the first patch comes to an end, so does the run from the
same node over the second one, with as much more allowance as there are nodes. Started with equal
contexts, both succeed or both fail; the host sees the same lines printed and the same control
outputs fired, in the same sequence; and if the runs succeed, the same outputs are kept. -/
theorem order_of_wires {session session' : Session}
    (hreach : Session.Reaches (fun s op => op.Fresh s.patch ∧ op.Declares (· ∈ Builtin.all)) session)
    (hreach' : Session.Reaches (fun s op => op.Fresh s.patch ∧ op.Declares (· ∈ Builtin.all))
      session')
    {refusal refusal' : Option String} (he : Engine.ofPatch session.patch refusal = .ok e)
    (he' : Engine.ofPatch session'.patch refusal' = .ok e') (halike : e.graph.Alike e'.graph)
    (honce : e.graph.FlowsOnce) {s s' : RunState} (hcontext : s.context = s'.context)
    {allowance : Nat} {start : String} (hend : (e.runFrom allowance start s).1 ≠ .exhausted)
    {allowance' : Nat} (hallowance : allowance + e'.graph.nodes.length ≤ allowance') :
    ∃ signs, (e.runFrom allowance start s).2.signs = s.signs ++ signs ∧
      (e'.runFrom allowance' start s').2.signs = s'.signs ++ signs ∧
      ((e.runFrom allowance start s).1 = .done () ∧
          (e'.runFrom allowance' start s').1 = .done () ∧
          (e.runFrom allowance start s).2.cache = (e'.runFrom allowance' start s').2.cache ∨
        ∃ err err', (e.runFrom allowance start s).1 = .failed err ∧
          (e'.runFrom allowance' start s').1 = .failed err') := by
  have hends := tracks_runFrom (twins_of_ofPatch hreach hreach' he he' halike honce) hallowance start
    hcontext
  generalize e.runFrom allowance start s = r at hends hend ⊢
  generalize e'.runFrom allowance' start s' = r' at hends ⊢
  cases hends with
  | done h =>
    obtain ⟨signs, hs, hs'⟩ := h.signs
    exact ⟨signs, hs, hs', .inl ⟨rfl, rfl, h.cache⟩⟩
  | failed h =>
    obtain ⟨signs, hs, hs'⟩ := h
    exact ⟨signs, hs, hs', .inr ⟨_, _, rfl, rfl⟩⟩
  | exhausted => exact absurd rfl hend

/-! ### Two texts that are compared

Whether they are the same is printed. Once the wires are made from the start to the end, and once
from the end to the start, so that the texts are pulled in either order. -/

def pathWires : List Wire :=
  [⟨"start", "__flow_out", "out", "__flow_in"⟩, ⟨"left", "value", "same", "a"⟩,
    ⟨"right", "value", "same", "b"⟩, ⟨"same", "result", "out", "value"⟩]

def pathOperations (wires : List Wire) : List Operation :=
  [.declare Builtin.onStart, .declare Builtin.text, .declare Builtin.equals,
    .declare Builtin.print, .insert "on-start" "start" .origin, .insert "text" "left" .origin,
    .insert "text" "right" .origin, .insert "equals" "same" .origin,
    .insert "print" "out" .origin] ++ wires.map .connect

def path (wires : List Wire) : Session :=
  (Session.start true .base 1).performAll (pathOperations wires)

def pathEngine (wires : List Wire) : Engine :=
  ⟨(path wires).patch.toGraph, (path wires).patch.behaviour, none⟩

/-- The run from the start, over the patch that is wired in the given order. -/
def pathRun (wires : List Wire) (allowance : Nat) : Outcome Unit × RunState :=
  (pathEngine wires).runFrom allowance "start" (.initial .printing)

/-- The texts are pulled in different orders; the host sees the same, and the same is kept. -/
theorem order_of_wires_reversed :
    ((pathRun pathWires 3).2.marks.map (·.1)).take 6 =
        ["start", "start", "left", "left", "right", "right"] ∧
      ((pathRun pathWires.reverse 8).2.marks.map (·.1)).take 6 =
        ["start", "start", "right", "right", "left", "left"] ∧
      (pathRun pathWires 3).2.signs = (pathRun pathWires.reverse 8).2.signs ∧
      (pathRun pathWires 3).2.cache = (pathRun pathWires.reverse 8).2.cache := by
  have hdeclares : ∀ wires, ∀ op ∈ pathOperations wires, op.Declares (· ∈ Builtin.all) := by
    simp [pathOperations, Operation.Declares, Builtin.all]
  have hreach : ∀ wires, Session.AllowedAll (fun s op => op.Fresh s.patch)
      (Session.start true .base 1) (pathOperations wires) →
      Session.Reaches (fun s op => op.Fresh s.patch ∧ op.Declares (· ∈ Builtin.all)) (path wires) :=
    fun wires hfresh => .performAll (.start true .base 1) (hfresh.and (hdeclares wires))
  have he : Engine.ofPatch (path pathWires).patch none = .ok (pathEngine pathWires) := rfl
  have he' : Engine.ofPatch (path pathWires.reverse).patch none =
      .ok (pathEngine pathWires.reverse) := rfl
  have halike : (pathEngine pathWires).graph.Alike (pathEngine pathWires.reverse).graph :=
    Graph.alike_of_perm rfl rfl (by decide +kernel)
  have honce : (pathEngine pathWires).graph.FlowsOnce := by
    unfold Graph.FlowsOnce
    decide +kernel
  have hcontext : (RunState.initial .printing).context = (RunState.initial .printing).context := rfl
  have hdone : (pathRun pathWires 3).1 = .done () := by decide +kernel
  have hend : (pathRun pathWires 3).1 ≠ .exhausted := fun h => by cases hdone.symm.trans h
  have hallowance : 3 + (pathEngine pathWires.reverse).graph.nodes.length ≤ 8 := by decide +kernel
  obtain ⟨signs, hs, hs', hends⟩ := order_of_wires (hreach pathWires (by decide +kernel))
    (hreach pathWires.reverse (by decide +kernel)) he he' halike honce hcontext hend hallowance
  refine ⟨by decide +kernel, by decide +kernel, hs.trans hs'.symm, ?_⟩
  unfold pathRun at hdone ⊢
  rcases hends with ⟨_, _, hcache⟩ | ⟨err, _, hfailed, _⟩
  · exact hcache
  · cases hdone.symm.trans hfailed

end Patchbay.Engine
