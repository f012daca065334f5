import Patchbay.Proofs.Run.Action

/-!
# Steps between two states

Steps are only ever appended to the trace of a run. What is said of a run is said of the steps that
were made since some moment: which steps there are, and what holds of each of them in view of those
before it.

## Key results

- `Throughout.append`: what holds throughout some steps, and throughout the next ones
- `Step.concerns_of_receives` / `Step.concerns_of_evaluates`: which steps belong to an evaluation
-/

namespace Patchbay

/-- The steps that were made between two states. -/
def RunState.Made (s : RunState) (steps : List Step) (s' : RunState) : Prop :=
  s'.trace.toList = s.trace.toList ++ steps

theorem RunState.Made.append {s s' s'' : RunState} {xs ys : List Step} (h₁ : s.Made xs s')
    (h₂ : s'.Made ys s'') : s.Made (xs ++ ys) s'' := by
  unfold Made at h₁ h₂ ⊢
  rw [h₂, h₁, List.append_assoc]

theorem RunState.Made.unique {s s' : RunState} {xs ys : List Step} (h₁ : s.Made xs s')
    (h₂ : s.Made ys s') : xs = ys :=
  List.append_cancel_left (h₁.symm.trans h₂)

/-- As long as the trace is the same, no steps were made. -/
theorem RunState.made_nil {s s' : RunState} (h : s'.trace = s.trace) : s.Made [] s' := by
  unfold Made
  rw [h, List.append_nil]

theorem RunState.made_push (s : RunState) (step : Step) : s.Made [step] (s.push step) :=
  Array.toList_push

/-- The steps after the given ones have a property. -/
def RunState.Since (past : List Step) (P : List Step → Prop) (s : RunState) : Prop :=
  ∃ steps, s.trace.toList = past ++ steps ∧ P steps

/-- More steps are made. -/
theorem RunState.Since.made {past xs : List Step} {P Q : List Step → Prop} {s s' : RunState}
    (h : s.Since past P) (hmade : s.Made xs s') (hPQ : ∀ steps, P steps → Q (steps ++ xs)) :
    s'.Since past Q := by
  obtain ⟨steps, htrace, hP⟩ := h
  refine ⟨steps ++ xs, ?_, hPQ steps hP⟩
  rw [hmade, htrace, List.append_assoc]

theorem RunState.Since.mono {past : List Step} {P Q : List Step → Prop} {s : RunState}
    (h : s.Since past P) (hPQ : ∀ steps, P steps → Q steps) : s.Since past Q := by
  obtain ⟨steps, htrace, hP⟩ := h
  exact ⟨steps, htrace, hPQ steps hP⟩

/-- Each of the steps is as it has to be after those before it. -/
def Throughout (P : List Step → Step → Prop) (steps : List Step) : Prop :=
  ∀ before step after, steps = before ++ step :: after → P before step

section Throughout

variable {P : List Step → Step → Prop} {xs ys : List Step}

theorem throughout_nil : Throughout P [] := fun before _ _ h => by
  cases before <;> cases h

theorem Throughout.append (hxs : Throughout P xs)
    (hys : Throughout (fun before => P (xs ++ before)) ys) : Throughout P (xs ++ ys) := by
  intro before step after h
  -- The step is one of the first or one of the last steps.
  obtain ⟨as, rfl, htail⟩ | ⟨cs, rfl, htail⟩ := List.append_eq_append_iff.1 h
  · exact hys as step after htail
  · cases cs with
    | nil =>
      have hfirst : P (before ++ [] ++ []) step := hys [] step after htail.symm
      rwa [List.append_nil, List.append_nil] at hfirst
    | cons x cs =>
      obtain ⟨rfl, _⟩ := List.cons.inj htail
      exact hxs before step cs rfl

/-- What holds throughout some steps holds throughout the first of them. -/
theorem Throughout.of_append (h : Throughout P (xs ++ ys)) : Throughout P xs := by
  intro before step after heq
  refine h before step (after ++ ys) ?_
  rw [heq, List.append_assoc, List.cons_append]

theorem Throughout.of_snoc {step : Step} (h : Throughout P (xs ++ [step])) :
    Throughout P xs ∧ P xs step :=
  ⟨h.of_append, h xs step [] rfl⟩

theorem throughout_singleton {step : Step} (h : P [] step) : Throughout P [step] := by
  intro before x after hx
  cases before with
  | nil =>
    obtain ⟨rfl, _⟩ := List.cons.inj hx
    exact h
  | cons y ys => exact absurd (List.cons.inj hx).2.symm (by simp)

end Throughout

namespace Step

/-- The step takes a value for the node. -/
def receives (node : String) : Step → Bool
  | received n _ _ _ => n = node
  | _ => false

/-- The step takes a value for the node or starts its calculation. -/
def evaluates (node : String) : Step → Bool
  | received n _ _ _ | calculated n _ => n = node
  | _ => false

/-- The step belongs to an evaluation of the node that publishes nothing. -/
def concerns (node : String) : Step → Bool
  | received n _ _ _ | calculated n _ | event (.nodeEvaluated _ n _) => n = node
  | _ => false

theorem concerns_of_receives {node : String} {step : Step} (h : step.receives node = true) :
    step.concerns node = true := by
  cases step with
  | received => exact h
  | calculated | published | event | undelivered | printed | informed => cases h

theorem concerns_of_evaluates {node : String} {step : Step} (h : step.evaluates node = true) :
    step.concerns node = true := by
  cases step with
  | received | calculated => exact h
  | published | event | undelivered | printed | informed => cases h

/-- With the step the node has outputs: it publishes some, or its evaluation ends. -/
def writes (node : String) : Step → Bool
  | published n _ | event (.nodeEvaluated _ n _) => n = node
  | _ => false

end Step

end Patchbay
