import Mathlib.Data.BitVec
import Mathlib.Tactic.Ring

/-! Indices of a ring buffer in machine words. Indices wrap at the word's width, the buffer's size is a
power of two that divides it, and distances are taken as signed differences. -/

namespace Krio.Lib

variable {w k : ℕ}

/-- Masking a word is taking it modulo the size. -/
theorem toNat_and_mask (hk : k ≤ w) (x : BitVec w) : (x &&& BitVec.ofNat w (2 ^ k - 1)).toNat = x.toNat % 2 ^ k := by
  have hle : 2 ^ k ≤ 2 ^ w := Nat.pow_le_pow_right (by decide) hk
  have hpos : 0 < 2 ^ k := Nat.two_pow_pos k
  rw [BitVec.toNat_and, BitVec.toNat_ofNat, Nat.mod_eq_of_lt (by omega), Nat.and_two_pow_sub_one_eq_mod]

/-- The slot that lies `i` after the one of `x`. -/
theorem toNat_add_mod (hk : k ≤ w) (x : BitVec w) (i : ℕ) :
    (x + BitVec.ofNat w i).toNat % 2 ^ k = (x.toNat + i) % 2 ^ k := by
  have hd : 2 ^ k ∣ 2 ^ w := Nat.pow_dvd_pow 2 hk
  rw [BitVec.toNat_add, BitVec.toNat_ofNat, Nat.mod_mod_of_dvd _ hd, Nat.add_mod, Nat.mod_mod_of_dvd _ hd, ← Nat.add_mod]

/-- Two indices less than the size apart have different slots. -/
theorem slot_ne (hk : k ≤ w) (x : BitVec w) {i j : ℕ} (hij : i < j) (hj : j < i + 2 ^ k) :
    (x + BitVec.ofNat w i).toNat % 2 ^ k ≠ (x + BitVec.ofNat w j).toNat % 2 ^ k := by
  rw [toNat_add_mod hk, toNat_add_mod hk]
  intro h
  have := (Nat.modEq_iff_dvd' (by omega)).mp (show x.toNat + i ≡ x.toNat + j [MOD 2 ^ k] from h)
  have := Nat.le_of_dvd (by omega) this
  omega

/-- A small distance, as a signed word. -/
theorem toInt_ofNat_of_lt {n : ℕ} (h : n < 2 ^ (w - 1)) : (BitVec.ofNat w n).toInt = n := by
  cases w with
  | zero =>
    have : n = 0 := by simpa using h
    simp [this]
  | succ w =>
    rw [BitVec.toInt_eq_toNat_of_lt] <;> rw [BitVec.toNat_ofNat, Nat.mod_eq_of_lt] <;>
      simp only [Nat.add_sub_cancel] at h <;> omega

/-- The distance from an index to the one before it. -/
theorem toInt_neg_one (hw : 0 < w) : (-1 : BitVec w).toInt = -1 := by
  rw [show (-1 : BitVec w) = BitVec.allOnes w from BitVec.neg_one_eq_allOnes, BitVec.toInt_allOnes, if_pos hw]

theorem add_one_ne (hw : 0 < w) (x : BitVec w) : x + 1 ≠ x := by
  intro h
  have h₁ : (1 : BitVec w) = 0 := by grind
  have h₂ := congrArg BitVec.toNat h₁
  rw [show (1 : BitVec w) = BitVec.ofNat w 1 from rfl, BitVec.toNat_ofNat, Nat.mod_eq_of_lt (Nat.one_lt_two_pow (by omega))] at h₂
  simp at h₂

theorem sub_one_ne (hw : 0 < w) (x : BitVec w) : x - 1 ≠ x := by
  intro h
  exact add_one_ne hw x (by grind)

/-- Words that are less than a full turn apart are equal only if they are not apart. -/
theorem ofNat_eq_zero_iff {n : ℕ} (h : n < 2 ^ w) : BitVec.ofNat w n = 0 ↔ n = 0 := by
  rw [← BitVec.toNat_inj, BitVec.toNat_ofNat, Nat.mod_eq_of_lt h]
  rfl

end Krio.Lib
