import Patchbay.Run.Engine

/-!
# Laws of actions

How the actions on the state of a run compose. An action is taken apart from the front: once it is
known how the first part ends, `bind_done`, `bind_failed` and `bind_exhausted` say how the whole
goes on. The basic actions are given by their values.

## Key results

- `RunM.bind_done`: a part that ends with a result hands it and the state on
- `RunM.done_of_bind`: where the whole ends with a result, both parts do
- `RunM.Moves`: however an action ends, it moves the state along a relation; actions that do are put
  together to actions that do
- `RunM.Leads`: an action leads from one condition to another
-/

namespace Patchbay

/-- The state with one more step in its trace. -/
def RunState.push (s : RunState) (step : Step) : RunState := { s with trace := s.trace.push step }

@[simp]
theorem RunState.cache_push (s : RunState) (step : Step) : (s.push step).cache = s.cache := rfl

@[simp]
theorem RunState.evaluating_push (s : RunState) (step : Step) :
    (s.push step).evaluating = s.evaluating := rfl

@[simp]
theorem RunState.runId_push (s : RunState) (step : Step) : (s.push step).runId = s.runId := rfl

/-- The state with other outputs kept. -/
def RunState.withCache (s : RunState) (cache : Table String PortValues) : RunState :=
  { s with cache }

namespace RunM

variable {α β : Type}

@[simp]
theorem pure_apply (a : α) (s : RunState) : (pure a : RunM α) s = (.done a, s) := rfl

@[simp]
theorem read_apply (s : RunState) : read s = (.done s, s) := rfl

@[simp]
theorem change_apply (f : RunState → RunState) (s : RunState) : change f s = (.done (), f s) := rfl

@[simp]
theorem log_apply (step : Step) (s : RunState) : log step s = (.done (), s.push step) := rfl

@[simp]
theorem fail_apply (e : Error) (s : RunState) : (fail e : RunM α) s = (.failed e, s) := rfl

@[simp]
theorem exhaust_apply (s : RunState) : (exhaust : RunM α) s = (.exhausted, s) := rfl

theorem within_apply (node : String) (m : RunM α) (s : RunState) :
    within node m s =
      ((m { s with evaluating := node :: s.evaluating }).1,
        { (m { s with evaluating := node :: s.evaluating }).2 with
          evaluating := (m { s with evaluating := node :: s.evaluating }).2.evaluating.tail }) :=
  rfl

theorem state_attempt (m : RunM α) (s : RunState) : (attempt m s).2 = (m s).2 := by
  unfold attempt
  cases m s with
  | mk r s' => cases r <;> rfl

section Bind

variable {m : RunM α} {k : α → RunM β} {s s' : RunState}

theorem bind_done {a : α} (h : m s = (.done a, s')) : (m >>= k) s = k a s' := by
  simp only [Bind.bind, h]

theorem bind_failed {e : Error} (h : m s = (.failed e, s')) : (m >>= k) s = (.failed e, s') := by
  simp only [Bind.bind, h]

theorem bind_exhausted (h : m s = (.exhausted, s')) : (m >>= k) s = (.exhausted, s') := by
  simp only [Bind.bind, h]

@[simp]
theorem read_bind (k : RunState → RunM β) (s : RunState) : (read >>= k) s = k s s := rfl

@[simp]
theorem change_bind (f : RunState → RunState) (k : Unit → RunM β) (s : RunState) :
    (change f >>= k) s = k () (f s) := rfl

@[simp]
theorem log_bind (step : Step) (k : Unit → RunM β) (s : RunState) :
    (log step >>= k) s = k () (s.push step) := rfl

/-- A first part can be replaced by one that does the same from another state. -/
theorem bind_of_eq {m' : RunM α} (h : m s = m' s') : (m >>= k) s = (m' >>= k) s' := by
  simp only [Bind.bind, h]

theorem discard_done {a : α} (h : m s = (.done a, s')) : (discard m) s = (.done (), s') :=
  bind_done h

/-- Where the whole ends with a result, so do its parts. -/
theorem done_of_bind {b : β} (h : (m >>= k) s = (.done b, s')) :
    ∃ a s₁, m s = (.done a, s₁) ∧ k a s₁ = (.done b, s') := by
  cases hm : m s with
  | mk r s₁ =>
    cases r with
    | done a => exact ⟨a, s₁, rfl, (bind_done hm).symm.trans h⟩
    | failed e => cases (bind_failed hm).symm.trans h
    | exhausted => cases (bind_exhausted hm).symm.trans h

/-- What holds of the state that the first part ends in, and that the second one does after it. -/
theorem holds_bind {P : RunState → Prop} (hm : P (m s).2)
    (hk : ∀ a s', m s = (.done a, s') → P (k a s').2) : P ((m >>= k) s).2 := by
  cases hr : m s with
  | mk r s' =>
    rw [hr] at hm
    cases r with
    | done a =>
      rw [bind_done hr]
      exact hk a s' hr
    | failed e =>
      rw [bind_failed hr]
      exact hm
    | exhausted =>
      rw [bind_exhausted hr]
      exact hm

theorem attempt_done {a : α} (h : m s = (.done a, s')) :
    attempt m s = (.done (.ok a), s') := by
  simp only [attempt, h]

theorem attempt_failed {e : Error} (h : m s = (.failed e, s')) :
    attempt m s = (.done (.error e), s') := by
  simp only [attempt, h]

theorem attempt_exhausted (h : m s = (.exhausted, s')) : attempt m s = (.exhausted, s') := by
  simp only [attempt, h]

theorem state_discard (m : RunM α) (s : RunState) : ((discard m) s).2 = (m s).2 :=
  holds_bind (P := fun s' => s' = (m s).2) rfl fun _ _ hm => (congrArg Prod.snd hm).symm

end Bind

instance : LawfulMonad RunM := LawfulMonad.mk' RunM
  (fun m => by
    funext s
    show (m >>= pure) s = m s
    cases hr : m s with
    | mk r s' =>
      cases r with
      | done a => exact bind_done hr
      | failed err => exact bind_failed hr
      | exhausted => exact bind_exhausted hr)
  (fun _ _ => rfl)
  (fun m k l => by
    funext s
    cases hr : m s with
    | mk r s' =>
      cases r with
      | done a => simp only [Bind.bind, hr]
      | failed err => simp only [Bind.bind, hr]
      | exhausted => simp only [Bind.bind, hr])

/-! ### Moving along a relation -/

/-- However the action ends, it leads from a state to one that is related to it. -/
def Moves (R : RunState → RunState → Prop) (m : RunM α) : Prop := ∀ s, R s (m s).2

/-- States can be led along the relation any number of times. -/
class Composable (R : RunState → RunState → Prop) : Prop where
  refl : ∀ s, R s s
  trans : ∀ {s s' s''}, R s s' → R s' s'' → R s s''

section Moves

variable {R : RunState → RunState → Prop} {m : RunM α} {k : α → RunM β}

theorem Moves.mono {R' : RunState → RunState → Prop} (hm : Moves R m)
    (h : ∀ s s', R s s' → R' s s') : Moves R' m :=
  fun s => h _ _ (hm s)

theorem moves_change {f : RunState → RunState} (h : ∀ s, R s (f s)) : Moves R (change f) := h

theorem moves_log {step : Step} (h : ∀ s, R s (s.push step)) : Moves R (log step) := h

theorem moves_within (node : String) (hm : Moves R m)
    (h : ∀ s s', R { s with evaluating := node :: s.evaluating } s' →
      R s { s' with evaluating := s'.evaluating.tail }) : Moves R (within node m) :=
  fun s => h s _ (hm _)

theorem moves_attempt (hm : Moves R m) : Moves R (attempt m) := by
  intro s
  rw [state_attempt]
  exact hm s

variable [hR : Composable R]

theorem moves_pure (a : α) : Moves R (pure a : RunM α) := fun s => hR.refl s

theorem moves_fail (e : Error) : Moves R (fail e : RunM α) := fun s => hR.refl s

theorem moves_exhaust : Moves R (exhaust : RunM α) := fun s => hR.refl s

theorem moves_read : Moves R read := fun s => hR.refl s

/-- The second part only has to be considered for results of the first. -/
theorem moves_bind_of_done (hm : Moves R m)
    (hk : ∀ a s s', m s = (.done a, s') → R s' (k a s').2) : Moves R (m >>= k) := by
  refine fun s => holds_bind (hm s) fun a s' hr => ?_
  have h := hm s
  rw [hr] at h
  exact hR.trans h (hk a s s' hr)

theorem moves_bind (hm : Moves R m) (hk : ∀ a, Moves R (k a)) : Moves R (m >>= k) :=
  moves_bind_of_done hm fun a _ s' _ => hk a s'

theorem moves_discard (hm : Moves R m) : Moves R (discard m) :=
  moves_bind hm fun _ => moves_pure ()

theorem moves_foldlM {γ : Type} {f : β → γ → RunM β} (xs : List γ)
    (hf : ∀ b, ∀ x ∈ xs, Moves R (f b x)) (b : β) : Moves R (xs.foldlM f b) := by
  induction xs generalizing b with
  | nil => exact moves_pure b
  | cons x xs ih =>
    rw [List.foldlM_cons]
    exact moves_bind (hf b x List.mem_cons_self)
      fun b => ih (fun b x hx => hf b x (List.mem_cons_of_mem _ hx)) b

theorem moves_forM {γ : Type} {f : γ → RunM Unit} (xs : List γ) (hf : ∀ x ∈ xs, Moves R (f x)) :
    Moves R (xs.forM f) := by
  induction xs with
  | nil => exact moves_pure ()
  | cons x xs ih =>
    exact moves_bind (hf x List.mem_cons_self)
      fun _ => ih fun x hx => hf x (List.mem_cons_of_mem _ hx)

end Moves

/-! ### From a condition to another -/

/-- Started where `P` holds, the action ends with a result where `Q` holds, or ends otherwise. In
all cases `F` holds at the end. -/
def Leads (P : RunState → Prop) (m : RunM α) (Q F : RunState → Prop) : Prop :=
  ∀ s, P s → F (m s).2 ∧ ∀ a s', m s = (.done a, s') → Q s'

section Leads

variable {P Q R F : RunState → Prop} {m : RunM α} {k : α → RunM β}

/-- What holds at the end in all cases holds at the end with a result. -/
theorem leads_of_state (h : ∀ s, P s → Q (m s).2) (hF : ∀ s, Q s → F s) : Leads P m Q F :=
  fun s hs => ⟨hF _ (h s hs), fun _ _ hm => by simpa [hm] using h s hs⟩

theorem leads_pure (a : α) (hF : ∀ s, P s → F s) : Leads P (pure a : RunM α) P F :=
  leads_of_state (fun _ hs => hs) hF

theorem leads_fail (e : Error) (hF : ∀ s, P s → F s) : Leads P (fail e : RunM α) Q F :=
  fun s hs => ⟨hF s hs, fun _ _ h => by cases h⟩

theorem leads_exhaust (hF : ∀ s, P s → F s) : Leads P (exhaust : RunM α) Q F :=
  fun s hs => ⟨hF s hs, fun _ _ h => by cases h⟩

theorem leads_bind (hm : Leads P m Q F) (hk : ∀ a, Leads Q (k a) R F) : Leads P (m >>= k) R F := by
  intro s hs
  obtain ⟨hend, hdone⟩ := hm s hs
  cases hr : m s with
  | mk r s' =>
    rw [hr] at hend
    cases r with
    | done a =>
      rw [bind_done hr]
      exact hk a s' (hdone a s' hr)
    | failed err =>
      rw [bind_failed hr]
      exact ⟨hend, nofun⟩
    | exhausted =>
      rw [bind_exhausted hr]
      exact ⟨hend, nofun⟩

theorem leads_attempt (hm : Leads P m F F) : Leads P (attempt m) F F :=
  leads_of_state (fun s hs => by rw [state_attempt]; exact (hm s hs).1) fun _ hs => hs

end Leads

end RunM

end Patchbay
