import Mathlib.Data.List.Basic
import Mathlib.Logic.Relation

/-! Runs of a transition system given by an executable step function: the states that steps meeting a
    side condition reach, the rule that carries an invariant along a run, and running a list of actions. -/

namespace Krio.Lib

variable {σ α : Type*} {step : σ → α → Option σ} {ok ok' : σ → α → Prop} {s t u : σ}

/-- `Steps step ok s t`: a run of `step` leads from `s` to `t`, and every step of it meets `ok` in the
    state it starts from. -/
inductive Steps (step : σ → α → Option σ) (ok : σ → α → Prop) (s : σ) : σ → Prop
  | refl : Steps step ok s s
  | tail {t u : σ} {a : α} : Steps step ok s t → ok t a → step t a = some u → Steps step ok s u

namespace Steps

theorem trans (h₁ : Steps step ok s t) (h₂ : Steps step ok t u) : Steps step ok s u := by
  induction h₂ with
  | refl => exact h₁
  | tail _ ha hs ih => exact ih.tail ha hs

theorem single {a : α} (ha : ok s a) (hs : step s a = some t) : Steps step ok s t := refl.tail ha hs

theorem head {a : α} (ha : ok s a) (hs : step s a = some t) (h : Steps step ok t u) : Steps step ok s u :=
  (single ha hs).trans h

/-- A run that meets a condition meets a weaker one. -/
theorem mono (hok : ∀ s a, ok s a → ok' s a) (h : Steps step ok s t) : Steps step ok' s t := by
  induction h with
  | refl => exact refl
  | tail _ ha hs ih => exact ih.tail (hok _ _ ha) hs

/-- The invariant rule: what holds at first and is kept by every step that meets `ok` holds along the
    whole run. -/
theorem keeps {P : σ → Prop} (hstep : ∀ s a t, P s → ok s a → step s a = some t → P t) (hs : P s)
    (h : Steps step ok s t) : P t := by
  induction h with
  | refl => exact hs
  | tail _ ha hstep' ih => exact hstep _ _ _ ih ha hstep'

/-- The invariant rule for a run whose states are already known to meet `Q`. -/
theorem keeps_with {P Q : σ → Prop} (hQ : ∀ t, Steps step ok s t → Q t)
    (hstep : ∀ s a t, Q s → P s → ok s a → step s a = some t → P t) (hs : P s) (h : Steps step ok s t) : P t := by
  induction h with
  | refl => exact hs
  | tail h' ha hstep' ih => exact hstep _ _ _ (hQ _ h') ih ha hstep'

end Steps

/-- `Via step ok s as t`: the actions `as` lead from `s` to `t`, and each meets `ok` where it is taken. -/
inductive Via (step : σ → α → Option σ) (ok : σ → α → Prop) : σ → List α → σ → Prop
  | nil {s : σ} : Via step ok s [] s
  | cons {s t u : σ} {a : α} {as : List α} : ok s a → step s a = some t → Via step ok t as u → Via step ok s (a :: as) u

namespace Via

theorem steps {as : List α} (h : Via step ok s as t) : Steps step ok s t := by
  induction h with
  | nil => exact .refl
  | cons ha hs _ ih => exact .head ha hs ih

/-- The actions of a run determine where it ends. -/
theorem unique {as : List α} (h : Via step ok s as t) (h' : Via step ok' s as u) : t = u := by
  induction h with
  | nil =>
    cases h'
    rfl
  | cons _ hs _ ih =>
    cases h' with
    | cons _ hs' h' =>
      obtain rfl := Option.some.inj (hs.symm.trans hs')
      exact ih h'

end Via

/-- Run a list of actions from `s`, checking `ok` before each. -/
def runActions (step : σ → α → Option σ) (ok : σ → α → Prop) [∀ s a, Decidable (ok s a)] (s : σ) : List α → Option σ
  | [] => some s
  | a :: as => if ok s a then (step s a).bind (runActions step ok · as) else none

section
variable [∀ s a, Decidable (ok s a)]

theorem via_of_runActions {as : List α} (h : runActions step ok s as = some t) : Via step ok s as t := by
  induction as generalizing s with
  | nil =>
    cases h
    exact .nil
  | cons a as ih =>
    simp only [runActions] at h
    split at h
    · rename_i hok
      obtain ⟨u, hu, h⟩ := Option.bind_eq_some_iff.mp h
      exact .cons hok hu (ih h)
    · cases h

theorem exists_via_of_runActions {q : σ → Bool} {as : List α} (h : (runActions step ok s as).any q = true) :
    ∃ t, Via step ok s as t ∧ q t = true := by
  obtain ⟨t, ht, hq⟩ := (Option.any_eq_true _ _).mp h
  exact ⟨t, via_of_runActions ht, hq⟩

/-- A list of actions that runs to a state passing the test `q` shows that such a state is reached. -/
theorem exists_of_runActions {q : σ → Bool} {as : List α} (h : (runActions step ok s as).any q = true) :
    ∃ t, Steps step ok s t ∧ q t = true := by
  obtain ⟨t, ht, hq⟩ := exists_via_of_runActions h
  exact ⟨t, ht.steps, hq⟩

end

end Krio.Lib
