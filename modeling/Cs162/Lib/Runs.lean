import Mathlib.Data.List.Basic

/-!
# Runs of a step function

A run takes one action after another, and stops at the first for which `step` gives no state. If
under an invariant one step is good exactly when it meets a condition, then the steps of a run are
all good exactly when they all meet it (`forall_stepsOf_iff`).
-/

namespace CLib

variable {S A : Type*} (step : S → A → Option S)

/-- The steps of a run, each with the state before it. -/
def stepsOf : S → List A → List (S × A)
  | _, [] => []
  | s, a :: as => (s, a) :: match step s a with
    | none => []
    | some s' => stepsOf s' as

variable {step} {Inv : S → Prop} {Good Cond : S × A → Prop}

theorem forall_stepsOf_cons {s : S} {a : A} {as : List A} :
    (∀ x ∈ stepsOf step s (a :: as), Good x) ↔
      Good (s, a) ∧ ∀ s', step s a = some s' → ∀ x ∈ stepsOf step s' as, Good x := by
  rw [stepsOf, List.forall_mem_cons]
  cases step s a <;> simp

theorem forall_stepsOf_iff (hiff : ∀ s a, Inv s → (Good (s, a) ↔ Cond (s, a)))
    (hstep : ∀ s a s', Inv s → Cond (s, a) → step s a = some s' → Inv s') :
    ∀ (as : List A) {s : S}, Inv s →
      ((∀ x ∈ stepsOf step s as, Good x) ↔ ∀ x ∈ stepsOf step s as, Cond x) := by
  intro as
  induction as with
  | nil => simp [stepsOf]
  | cons a as ih =>
    intro s hs
    rw [forall_stepsOf_cons, forall_stepsOf_cons, hiff s a hs]
    refine and_congr_right fun hcond => forall_congr' fun s' => ?_
    exact imp_congr_right fun heq => ih (hstep s a s' hs hcond heq)

end CLib
