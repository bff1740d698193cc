import Mathlib.Logic.Basic

/-! A lock over threads: it is held while somebody is inside the section it guards, and at most one thread is. -/

namespace Krio.Lib

variable {ι : Type*} {locked : Bool} {inside inside' : ι → Prop} {i : ι}

structure Mutex (locked : Bool) (inside : ι → Prop) : Prop where
  free : locked = false → ∀ i, ¬inside i
  alone : ∀ i j, inside i → inside j → i = j

namespace Mutex

/-- Nobody gets in. -/
theorem stay (h : Mutex locked inside) (hj : ∀ j, inside' j → inside j) : Mutex locked inside' :=
  ⟨fun hl j hj' => h.free hl j (hj j hj'), fun j k hj' hk => h.alone j k (hj j hj') (hj k hk)⟩

/-- `i` gets in through a free lock. -/
theorem acquire (h : Mutex false inside) (hj : ∀ j, j ≠ i → inside' j → inside j) : Mutex true inside' := by
  have only : ∀ j, inside' j → j = i := fun j hj' => by_contra fun hne => h.free rfl j (hj j hne hj')
  exact ⟨by rintro ⟨⟩, fun j k hj' hk => (only j hj').trans (only k hk).symm⟩

/-- `i`, which is inside, gets out. -/
theorem release (h : Mutex locked inside) (hi : inside i) (hi' : ¬inside' i) (hj : ∀ j, j ≠ i → inside' j → inside j) :
    Mutex false inside' := by
  have nobody : ∀ j, ¬inside' j := by
    intro j hj'
    have hne : j ≠ i := by
      rintro rfl
      exact hi' hj'
    exact hne (h.alone j i (hj j hne hj') hi)
  exact ⟨fun _ => nobody, fun j _ hj' => absurd hj' (nobody j)⟩

end Mutex

end Krio.Lib
