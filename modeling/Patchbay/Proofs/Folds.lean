/-!
# Folds that may fail

Lemmas about `List.foldlM` in `Except`: what every step keeps, the whole fold keeps
(`foldlM_keeps`), and where every step succeeds, the whole fold does (`exists_foldlM`).
-/

namespace Patchbay

variable {ε α β : Type}

/-- What every successful step keeps, a successful fold keeps. -/
theorem foldlM_keeps {f : β → α → Except ε β} (inv : β → Prop) {as : List α}
    {b b' : β} (h : as.foldlM f b = .ok b') (hb : inv b)
    (hstep : ∀ b a b', a ∈ as → inv b → f b a = .ok b' → inv b') : inv b' := by
  induction as generalizing b with
  | nil =>
    obtain rfl := Except.ok.inj h
    exact hb
  | cons a as ih =>
    rw [List.foldlM_cons] at h
    cases hone : f b a with
    | error e =>
      rw [hone] at h
      cases h
    | ok b₁ =>
      rw [hone] at h
      exact ih h (hstep b a b₁ List.mem_cons_self hb hone)
        fun b a b' ha => hstep b a b' (List.mem_cons_of_mem _ ha)

/-- Where every step succeeds and keeps what it needs, the fold succeeds and keeps it. -/
theorem exists_foldlM {f : β → α → Except ε β} (inv : β → Prop) {as : List α} {b : β} (hb : inv b)
    (hstep : ∀ b a, a ∈ as → inv b → ∃ b', f b a = .ok b' ∧ inv b') :
    ∃ b', as.foldlM f b = .ok b' ∧ inv b' := by
  induction as generalizing b with
  | nil => exact ⟨b, rfl, hb⟩
  | cons a as ih =>
    obtain ⟨b₁, hone, hb₁⟩ := hstep b a List.mem_cons_self hb
    rw [List.foldlM_cons, hone]
    exact ih hb₁ fun b a ha => hstep b a (List.mem_cons_of_mem _ ha)

end Patchbay
