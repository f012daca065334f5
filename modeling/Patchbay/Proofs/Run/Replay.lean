import Patchbay.Proofs.Run.Reference
import Patchbay.Proofs.Run.Spreading

/-!
# What the steps of a run say about the outputs it keeps

The outputs that a run keeps can be found again from its steps (`Engine.replay`). They are meant to
be such that the outputs of a node without control ports are those of an evaluation afresh:
publishing outputs drops what was calculated from earlier ones.

An evaluation that ends drops nothing. Where its outputs replace others that were published before,
what was calculated from those is left behind (`Engine.LeavesBehind`), until the node publishes
outputs again, and what is calculated from that in the meantime is no better. `Engine.Tainted` says
of a node that its outputs may have come about in this way. All other outputs are right
(`Engine.Faithful`).

## Key results

- `Afresh.transfer`: which outputs an evaluation afresh depends on
- `Tainted.append_singleton`: outputs that are kept stay tainted
- `Faithful.append`: what one step has to meet to keep the outputs right
- `Faithful.published` / `Faithful.ended`: publishing outputs, and ending with outputs, meet it
-/

namespace Patchbay.Engine

variable {e : Engine}

/-! ### Outputs that an evaluation afresh depends on -/

/-- Where two tables agree on the nodes with control ports that matter, so do evaluations afresh.
The nodes that matter are given by a property that passes on to sources. -/
theorem Afresh.transfer {held held' : Table String PortValues} (matters : String → Prop)
    (hsources : ∀ a x, e.graph.usesFlow x = false → matters x → e.graph.Feeds a x → matters a)
    (hheld : ∀ x out, matters x → e.graph.usesFlow x = true → held.find? x = some out →
      held'.find? x = some out)
    {id : String} {out : PortValues} (h : e.Afresh held id out) (hid : matters id) :
    e.Afresh held' id out := by
  induction h with
  | held hflow hfind => exact .held hflow (hheld _ _ hid hflow hfind)
  | calculated outputs hflow hnode _ hyields ih =>
    refine .calculated outputs hflow hnode (fun x hx => ih x hx ?_) hyields
    exact hsources _ _ hflow hid (Graph.feeds_of_mem_dataWires hx)

/-- An evaluation afresh depends on the outputs of nodes with control ports alone. -/
theorem Afresh.mono {held held' : Table String PortValues}
    (hheld : ∀ x out, e.graph.usesFlow x = true → held.find? x = some out →
      held'.find? x = some out)
    {id : String} {out : PortValues} (h : e.Afresh held id out) : e.Afresh held' id out :=
  h.transfer (fun _ => True) (fun _ _ _ _ _ => trivial) (fun x out _ => hheld x out) trivial

/-- Whatever becomes of the outputs of a node, evaluations of nodes other than its dependents stay
as they are. -/
theorem Afresh.of_not_dependent {held held' : Table String PortValues} (node : String)
    (hheld : ∀ x, e.graph.usesFlow x = true → x ≠ node → held'.find? x = held.find? x)
    {id : String} {out : PortValues} (h : e.Afresh held id out) (hid : id ≠ node)
    (hdependent : id ∉ e.graph.dependents node) : e.Afresh held' id out := by
  refine h.transfer (fun x => (e.graph.usesFlow x = true → x ≠ node) ∧
    x ∉ e.graph.dependents node) ?_ ?_ ⟨fun _ => hid, hdependent⟩
  · intro a x hflow hx ha
    refine ⟨fun _ heq => hx.2 (Graph.dependents_of_feeds (heq ▸ ha) hflow), fun hmem => hx.2 ?_⟩
    exact Graph.dependents_of_dependents hmem ha hflow
  · intro x out hx hflow hfind
    rw [hheld x hflow (hx.1 hflow), hfind]

/-! ### Replaying the steps of a run -/

/-- The outputs that are kept after a step. -/
def replayStep (e : Engine) (cache : Table String PortValues) : Step → Table String PortValues
  | .published node outputs =>
    (e.graph.dependents node).foldl (fun c n => c.erase n)
      (cache.insert node (((cache.find? node).getD ∅).override outputs))
  | .event (.nodeEvaluated _ node outputs) => cache.insert node outputs
  | _ => cache

/-- The outputs that are kept after the steps of a run so far. -/
def replay (e : Engine) (steps : List Step) : Table String PortValues := steps.foldl e.replayStep ∅

theorem replay_append_singleton (steps : List Step) (step : Step) :
    e.replay (steps ++ [step]) = e.replayStep (e.replay steps) step := by
  simp [replay]

/-- An evaluation of a node that has outputs already ends with the step. -/
def replaces (cache : Table String PortValues) : Step → Bool
  | .event (.nodeEvaluated _ node _) => cache.contains node
  | _ => false

/-- The outputs that are kept after a node has published some. -/
theorem find?_replayStep_published (cache : Table String PortValues) (node : String)
    (outputs : PortValues) (x : String) :
    (e.replayStep cache (.published node outputs)).find? x =
      if x ∈ e.graph.dependents node then none
      else if x = node then some (((cache.find? node).getD ∅).override outputs)
      else cache.find? x := by
  simp only [replayStep]
  rw [Table.find?_eraseAll fun n : String => n, List.map_id', Table.find?_insert]

/-- After these steps, an evaluation of the node `m` that ends with `out` leaves the outputs of `x`
behind: it replaces other outputs of `m`, and those of `x` are kept although they depend on `m`. -/
structure LeavesBehind (e : Engine) (steps : List Step) (m : String) (out : PortValues)
    (x : String) : Prop where
  control : e.graph.usesFlow m = true
  replaced : ∃ old, (e.replay steps).find? m = some old ∧ old ≠ out
  dependent : x ∈ e.graph.dependents m
  kept : (e.replay steps).contains x = true

/-- During these steps the outputs of `x` are dropped, since a node that they depend on publishes
some. -/
def Drops (e : Engine) (steps : List Step) (x : String) : Prop :=
  ∃ node outputs, Step.published node outputs ∈ steps ∧ x ∈ e.graph.dependents node

/-- During these steps some outputs were left behind, and not dropped since, that those of `x` may
come from. -/
def Tainted (e : Engine) (steps : List Step) (x : String) : Prop :=
  ∃ before run m out after y, steps = before ++ .event (.nodeEvaluated run m out) :: after ∧
    e.LeavesBehind before m out y ∧ ¬ e.Drops after y ∧ Relation.ReflTransGen e.graph.Passes y x

/-- No outputs are tainted unless some have been replaced. -/
theorem Tainted.exists_replaces {steps : List Step} {x : String} (h : e.Tainted steps x) :
    ∃ i, ∃ hi : i < steps.length, replaces (e.replay (steps.take i)) steps[i] = true := by
  obtain ⟨before, run, m, out, after, y, rfl, hbehind, _⟩ := h
  obtain ⟨old, hold, _⟩ := hbehind.replaced
  refine ⟨before.length, by simp, ?_⟩
  rw [List.take_left, List.getElem_append_right (Nat.le_refl _)]
  simp [replaces, Table.contains, hold]

/-- Tainted outputs that a step keeps stay tainted. -/
theorem Tainted.append_singleton {steps : List Step} {x : String} (h : e.Tainted steps x)
    {step : Step} {out : PortValues}
    (hkept : (e.replayStep (e.replay steps) step).find? x = some out) :
    e.Tainted (steps ++ [step]) x := by
  obtain ⟨before, run, m, o, after, y, hsteps, hbehind, hdrops, hpath⟩ := h
  refine ⟨before, run, m, o, after ++ [step], y, by simp [hsteps], hbehind, ?_, hpath⟩
  rintro ⟨node, outputs, hmem, hdependent⟩
  rcases List.mem_append.1 hmem with hmem | hmem
  · exact hdrops ⟨node, outputs, hmem, hdependent⟩
  · -- A step that drops what was left behind would have dropped what came from it too.
    obtain rfl := List.mem_singleton.1 hmem
    have hx : x ∈ e.graph.dependents node :=
      Graph.mem_dependents.2 ((Graph.mem_dependents.1 hdependent).trans_left hpath)
    rw [find?_replayStep_published, if_pos hx] at hkept
    cases hkept

/-- What is calculated from tainted outputs is tainted. -/
theorem Tainted.passes {steps : List Step} {x y : String} (h : e.Tainted steps x)
    (hxy : e.graph.Passes x y) : e.Tainted steps y := by
  obtain ⟨before, run, m, out, after, z, hsteps, hbehind, hdrops, hpath⟩ := h
  exact ⟨before, run, m, out, after, z, hsteps, hbehind, hdrops, hpath.tail hxy⟩

/-- A value that was read over a wire after these steps is right: if the source has no control ports
and is not tainted, the value is what an evaluation of the source afresh finds, from the outputs
that are kept then. -/
def ReadsAfresh (e : Engine) (steps : List Step) (wire : WireId) (value : Value)
    (cache : Table String PortValues) : Prop :=
  cache = e.replay steps ∧
    ∀ w, e.graph.wires.find? wire = some w → e.graph.usesFlow w.source = false →
      ¬ e.Tainted steps w.source →
      ∃ out, e.Afresh cache w.source out ∧ value = (out.find? w.sourcePort).getD .null

/-- The steps of a run so far read what is right, and so will the next ones: unless they are
tainted, the outputs that are kept of nodes without control ports are those of an evaluation afresh.
-/
structure Faithful (e : Engine) (steps : List Step) : Prop where
  kept : ∀ x out, e.graph.usesFlow x = false → (e.replay steps).find? x = some out →
    ¬ e.Tainted steps x → e.Afresh (e.replay steps) x out
  reads : ∀ before node wire value cache after,
    steps = before ++ .received node wire value cache :: after →
      e.ReadsAfresh before wire value cache

namespace Faithful

variable {steps : List Step}

theorem nil : e.Faithful [] where
  kept := fun _ _ _ h => by cases h
  reads := fun before _ _ _ _ _ h => by
    cases before <;> cases h

/-- A step leaves everything right if the outputs that are kept after it are right, and the value is
right if one is read. -/
theorem append (h : e.Faithful steps) {step : Step}
    (hkept : ∀ x out, e.graph.usesFlow x = false →
      (e.replayStep (e.replay steps) step).find? x = some out → ¬ e.Tainted (steps ++ [step]) x →
      e.Afresh (e.replayStep (e.replay steps) step) x out)
    (hread : ∀ node wire value cache, step = .received node wire value cache →
      e.ReadsAfresh steps wire value cache) : e.Faithful (steps ++ [step]) where
  kept := by
    rw [replay_append_singleton]
    exact hkept
  reads := by
    intro before node wire value cache after hsteps
    rcases List.eq_nil_or_concat after with rfl | ⟨after, last, rfl⟩
    · obtain ⟨rfl, hlast⟩ := List.append_inj' hsteps rfl
      exact hread node wire value cache (List.singleton_inj.1 hlast)
    · rw [List.concat_eq_append, ← List.cons_append, ← List.append_assoc] at hsteps
      exact h.reads before node wire value cache after (List.append_inj' hsteps rfl).1

/-- A step that changes no outputs leaves everything right if it reads what is right. -/
theorem unchanged (h : e.Faithful steps) {step : Step}
    (hsame : e.replayStep (e.replay steps) step = e.replay steps)
    (hread : ∀ node wire value cache, step = .received node wire value cache →
      e.ReadsAfresh steps wire value cache) : e.Faithful (steps ++ [step]) := by
  refine h.append (fun x out hflow hx hclean => ?_) hread
  have hold : ¬ e.Tainted steps x := fun ht => hclean (ht.append_singleton hx)
  rw [hsame] at hx ⊢
  exact h.kept x out hflow hx hold

/-- Publishing outputs drops all outputs that could be wrong afterwards. -/
theorem published (h : e.Faithful steps) {node : String} (hnode : e.graph.usesFlow node = true)
    (outputs : PortValues) : e.Faithful (steps ++ [.published node outputs]) := by
  refine h.append (fun x out hflow hx hclean => ?_) fun _ _ _ _ h => by cases h
  have hold : ¬ e.Tainted steps x := fun ht => hclean (ht.append_singleton hx)
  -- The node itself has control ports, its dependents have none.
  have hne : ∀ {y}, e.graph.usesFlow y = false → y ≠ node := by
    rintro y hy rfl
    exact absurd (hy.symm.trans hnode) Bool.false_ne_true
  rw [find?_replayStep_published, if_neg (hne hflow)] at hx
  split at hx
  next => cases hx
  next hdependent =>
    refine (h.kept x out hflow hx hold).of_not_dependent node (fun y hy hyn => ?_) (hne hflow)
      hdependent
    have hy' : y ∉ e.graph.dependents node :=
      fun hmem => absurd ((Graph.usesFlow_of_mem_dependents hmem).symm.trans hy) Bool.false_ne_true
    rw [find?_replayStep_published, if_neg hy', if_neg hyn]

/-- An evaluation that ends with outputs leaves behind all outputs that are wrong afterwards. -/
theorem ended (h : e.Faithful steps) {run node : String} {out : PortValues}
    (hnew : e.graph.usesFlow node = false → ¬ e.Tainted steps node →
      e.Afresh (e.replay steps) node out) :
    e.Faithful (steps ++ [.event (.nodeEvaluated run node out)]) := by
  refine h.append (fun x o hflow hx hclean => ?_) fun _ _ _ _ h => by cases h
  have hold : ¬ e.Tainted steps x := fun ht => hclean (ht.append_singleton hx)
  show e.Afresh ((e.replay steps).insert node out) x o
  replace hx : ((e.replay steps).insert node out).find? x = some o := hx
  rw [Table.find?_insert] at hx
  cases hnode : e.graph.usesFlow node with
  | false =>
    -- No outputs of nodes with control ports have changed.
    have hsame : ∀ y o, e.graph.usesFlow y = true → (e.replay steps).find? y = some o →
        ((e.replay steps).insert node out).find? y = some o := by
      intro y o hy hfind
      have hne : y ≠ node := by
        rintro rfl
        exact absurd (hnode.symm.trans hy) Bool.false_ne_true
      rw [Table.find?_insert, if_neg hne, hfind]
    split at hx
    next heq =>
      subst heq
      obtain rfl := Option.some.inj hx
      exact (hnew hflow hold).mono hsame
    next => exact (h.kept x o hflow hx hold).mono hsame
  | true =>
    -- The outputs in question are not those that have changed.
    have hne : x ≠ node := by
      rintro rfl
      exact absurd (hflow.symm.trans hnode) Bool.false_ne_true
    rw [if_neg hne] at hx
    have hfresh := h.kept x o hflow hx hold
    by_cases hreplaced : ∃ old, (e.replay steps).find? node = some old ∧ old ≠ out
    · -- Outputs that depend on the node are left behind, all others are right.
      refine hfresh.of_not_dependent node (fun y _ hy => ?_) hne fun hdependent => ?_
      · rw [Table.find?_insert, if_neg hy]
      · have hbehind : e.LeavesBehind steps node out x :=
          ⟨hnode, hreplaced, hdependent, by rw [Table.contains, hx]; rfl⟩
        have hdrops : ¬ e.Drops [] x := fun h => by
          obtain ⟨_, _, hmem, _⟩ := h
          cases hmem
        exact hclean ⟨steps, run, node, out, [], x, rfl, hbehind, hdrops, .refl⟩
    · refine hfresh.mono fun y o' _ hfind => ?_
      rw [Table.find?_insert]
      split
      next heq =>
        subst heq
        exact congrArg some (Classical.not_not.1 fun hdiff => hreplaced ⟨o', hfind, Ne.symm hdiff⟩)
      next => exact hfind

end Faithful

end Patchbay.Engine
