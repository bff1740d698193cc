import Mathlib.Data.Fintype.Card
import Mathlib.Data.Fintype.Basic

/-! Counting the members of a finite type that satisfy a test, while one member at a time changes. -/

namespace Krio.Lib

variable {ι : Type*} [Fintype ι] {f g : ι → Bool} {a : ι}

/-- The number of members that satisfy `f`. -/
def count (f : ι → Bool) : ℕ := (Finset.univ.filter fun i => f i = true).card

theorem count_congr (h : ∀ i, g i = f i) : count g = count f := by
  simp only [count, h]

/-- One more member satisfies the test. -/
theorem count_insert (hne : ∀ i, i ≠ a → g i = f i) (hf : f a = false) (hg : g a = true) : count g = count f + 1 := by
  classical
  have : (Finset.univ.filter fun i => g i = true) = insert a (Finset.univ.filter fun i => f i = true) := by
    ext i
    by_cases hi : i = a
    · simp [hi, hg]
    · simp [hi, hne i hi]
  rw [count, this, Finset.card_insert_of_notMem (by simp [hf]), count]

/-- One member less satisfies the test. -/
theorem count_erase (hne : ∀ i, i ≠ a → g i = f i) (hf : f a = true) (hg : g a = false) : count g + 1 = count f :=
  (count_insert (fun i hi => (hne i hi).symm) hg hf).symm

theorem count_le_card (f : ι → Bool) : count f ≤ Fintype.card ι := Finset.card_le_univ _

/-- When only `a` may fail the test, all the others satisfy it. -/
theorem all_of_count (hf : f a = false) (hn : Fintype.card ι ≤ count f + 1) {i : ι} (hi : i ≠ a) : f i = true := by
  classical
  by_contra hfi
  have hsub : insert i (insert a (Finset.univ.filter fun i => f i = true)) ⊆ Finset.univ := Finset.subset_univ _
  have := Finset.card_le_card hsub
  rw [Finset.card_insert_of_notMem (by simp [hi, hfi]), Finset.card_insert_of_notMem (by simp [hf]),
    Finset.card_univ] at this
  simp only [count] at hn
  omega

theorem eq_false_of_count_eq_zero (h : count f = 0) (i : ι) : f i = false := by
  have := Finset.card_eq_zero.mp h
  by_contra hfi
  exact Finset.notMem_empty i (this ▸ by simpa using hfi)

theorem count_eq_zero (h : ∀ i, f i = false) : count f = 0 := by
  simp [count, h]

/-- When all the others satisfy the test, only `a` may be missing. -/
theorem card_le_of_all (h : ∀ i, i ≠ a → f i = true) : Fintype.card ι ≤ count f + 1 := by
  classical
  have hsub : Finset.univ ⊆ insert a (Finset.univ.filter fun i => f i = true) := by
    intro i _
    by_cases hi : i = a
    · simp [hi]
    · simp [h i hi]
  exact (Finset.card_le_card hsub).trans (Finset.card_insert_le _ _)

end Krio.Lib
