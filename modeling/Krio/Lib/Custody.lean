import Mathlib.Data.List.Perm.Basic
import Mathlib.Data.List.Nodup

/-! Custody of items that move between places. Every item that is out is in exactly one place, once; an item
enters in one place, moves from place to place, and leaves for good. -/

namespace Krio.Lib

variable {π α : Type*} {hold hold' : π → List α} {out out' : α → Prop} {p q : π} {x : α} {l : List α}

/-- `hold p` are the items in place `p`; the items that are out are in exactly one place. -/
structure Custody (hold : π → List α) (out : α → Prop) : Prop where
  nodup : ∀ p, (hold p).Nodup
  unique : ∀ x p q, x ∈ hold p → x ∈ hold q → p = q
  out_iff : ∀ x, out x ↔ ∃ p, x ∈ hold p

/-- A step of the places, and of which items are out. -/
inductive Custody.Step (hold hold' : π → List α) (out out' : α → Prop) : Prop
  | same : (∀ r, (hold' r).Perm (hold r)) → (∀ y, out' y ↔ out y) → Step hold hold' out out'
  | move {p q : π} {x : α} : p ≠ q → (hold p).Perm (x :: hold' p) → (hold' q).Perm (x :: hold q) →
      (∀ r, r ≠ p → r ≠ q → (hold' r).Perm (hold r)) → (∀ y, out' y ↔ out y) → Step hold hold' out out'
  | enter {q : π} {x : α} : ¬out x → (hold' q).Perm (x :: hold q) → (∀ r, r ≠ q → (hold' r).Perm (hold r)) →
      (∀ y, out' y ↔ y = x ∨ out y) → Step hold hold' out out'
  | leave {p : π} {x : α} : (hold p).Perm (x :: hold' p) → (∀ r, r ≠ p → (hold' r).Perm (hold r)) →
      (∀ y, out' y ↔ out y ∧ y ≠ x) → Step hold hold' out out'

namespace Custody

theorem exists_unique (h : Custody hold out) (hx : out x) : ∃! p, x ∈ hold p := by
  obtain ⟨p, hp⟩ := (h.out_iff x).mp hx
  exact ⟨p, hp, fun q hq => h.unique x q p hq hp⟩

theorem not_mem (h : Custody hold out) (hx : ¬out x) (p : π) : x ∉ hold p :=
  fun hp => hx ((h.out_iff x).mpr ⟨p, hp⟩)

theorem same (h : Custody hold out) (hr : ∀ r, (hold' r).Perm (hold r)) (hout : ∀ y, out' y ↔ out y) :
    Custody hold' out' := by
  refine ⟨fun r => (hr r).nodup_iff.mpr (h.nodup r), fun y r r' hy hy' => ?_, fun y => ?_⟩
  · exact h.unique y r r' ((hr r).mem_iff.mp hy) ((hr r').mem_iff.mp hy')
  · simp only [(hr _).mem_iff]
    exact (hout y).trans (h.out_iff y)

theorem enter (h : Custody hold out) (hx : ¬out x) (hq : (hold' q).Perm (x :: hold q))
    (hr : ∀ r, r ≠ q → (hold' r).Perm (hold r)) (hout : ∀ y, out' y ↔ y = x ∨ out y) : Custody hold' out' := by
  classical
  -- Only `q` gets anything, and only `x`.
  have hmem : ∀ y r, y ∈ hold' r ↔ y ∈ hold r ∨ y = x ∧ r = q := by
    intro y r
    obtain rfl | hrq := eq_or_ne r q
    · rw [hq.mem_iff, List.mem_cons]
      simp [or_comm]
    · rw [(hr r hrq).mem_iff]
      simp [hrq]
  refine ⟨fun r => ?_, fun y r r' hy hy' => ?_, fun y => ?_⟩
  · obtain rfl | hrq := eq_or_ne r q
    · exact hq.nodup_iff.mpr (List.nodup_cons.mpr ⟨h.not_mem hx r, h.nodup r⟩)
    · exact (hr r hrq).nodup_iff.mpr (h.nodup r)
  · rw [hmem] at hy hy'
    rcases hy with hy | ⟨rfl, rfl⟩ <;> rcases hy' with hy' | ⟨hyx, rfl⟩
    · exact h.unique y r r' hy hy'
    · exact absurd hy (hyx ▸ h.not_mem hx r)
    · exact absurd hy' (h.not_mem hx r')
    · rfl
  · simp only [hmem, exists_or, hout, h.out_iff y]
    simp [or_comm]

theorem leave (h : Custody hold out) (hp : (hold p).Perm (x :: hold' p)) (hr : ∀ r, r ≠ p → (hold' r).Perm (hold r))
    (hout : ∀ y, out' y ↔ out y ∧ y ≠ x) : Custody hold' out' := by
  have hnodup : (x :: hold' p).Nodup := hp.nodup_iff.mp (h.nodup p)
  have hx : x ∈ hold p := hp.mem_iff.mpr (by simp)
  have hmem : ∀ y r, y ∈ hold' r ↔ y ∈ hold r ∧ y ≠ x := by
    intro y r
    obtain rfl | hrp := eq_or_ne r p
    · rw [hp.mem_iff, List.mem_cons]
      have : y ∈ hold' r → y ≠ x := by
        rintro hy rfl
        exact (List.nodup_cons.mp hnodup).1 hy
      tauto
    · rw [(hr r hrp).mem_iff]
      have : y ∈ hold r → y ≠ x := by
        rintro hy rfl
        exact hrp (h.unique y r p hy hx)
      tauto
  refine ⟨fun r => ?_, fun y r r' hy hy' => ?_, fun y => ?_⟩
  · obtain rfl | hrp := eq_or_ne r p
    · exact (List.nodup_cons.mp hnodup).2
    · exact (hr r hrp).nodup_iff.mpr (h.nodup r)
  · exact h.unique y r r' ((hmem y r).mp hy).1 ((hmem y r').mp hy').1
  · simp only [hmem, hout, h.out_iff y, exists_and_right]

/-- A move is a departure followed by an arrival. -/
theorem move (h : Custody hold out) (hpq : p ≠ q) (hp : (hold p).Perm (x :: hold' p))
    (hq : (hold' q).Perm (x :: hold q)) (hr : ∀ r, r ≠ p → r ≠ q → (hold' r).Perm (hold r))
    (hout : ∀ y, out' y ↔ out y) : Custody hold' out' := by
  classical
  have hx : out x := (h.out_iff x).mpr ⟨p, hp.mem_iff.mpr (by simp)⟩
  have hgone : Custody (Function.update hold p (hold' p)) fun y => out y ∧ y ≠ x := by
    refine h.leave (by rwa [Function.update_self]) (fun r hrp => by rw [Function.update_of_ne hrp]) fun _ => Iff.rfl
  refine hgone.enter (x := x) (q := q) (by simp) (by rwa [Function.update_of_ne hpq.symm]) (fun r hrq => ?_) fun y => ?_
  · obtain rfl | hrp := eq_or_ne r p
    · rw [Function.update_self]
    · rw [Function.update_of_ne hrp]
      exact hr r hrp hrq
  · rw [hout]
    by_cases hyx : y = x <;> simp [hyx, hx]

/-- Custody is kept by every step. -/
theorem step (h : Custody hold out) (hs : Step hold hold' out out') : Custody hold' out' := by
  cases hs with
  | same hr hout => exact h.same hr hout
  | move hpq hp hq hr hout => exact h.move hpq hp hq hr hout
  | enter hx hq hr hout => exact h.enter hx hq hr hout
  | leave hp hr hout => exact h.leave hp hr hout

end Custody

end Krio.Lib
