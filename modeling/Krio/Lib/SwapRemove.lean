import Mathlib.Algebra.Order.Ring.Nat
import Mathlib.Data.List.Rotate
import Mathlib.Tactic.Common

/-! Removal from a vector by swapping: the last element takes the place of the one removed. What is left when a pass
marks elements and removes them from the last to the first, and when that keeps their order. -/

namespace Krio.Lib

variable {α β : Type*}

/-- The index of the last element that passes. -/
def rposition (q : α → Bool) (xs : List α) : Option ℕ :=
  (xs.reverse.findIdx? q).map fun j => xs.length - 1 - j

/-- Remove the `i`-th element; the last one takes its place. -/
def swapRemove (xs : List α) (i : ℕ) : List α :=
  match xs.getLast? with
  | some last => (xs.set i last).dropLast
  | none => xs

/-- The last element moves to the front. -/
def lastFirst (xs : List α) : List α :=
  match xs.getLast? with
  | some last => last :: xs.dropLast
  | none => []

/-- The indices of the elements that pass, counted from `i`. -/
def positionsFrom (q : α → Bool) : ℕ → List α → List ℕ
  | _, [] => []
  | i, x :: xs => if q x then i :: positionsFrom q (i + 1) xs else positionsFrom q (i + 1) xs

/-- The elements that do not pass, as they lie once the others are removed. -/
def settle (q : α → Bool) : List α → List α
  | [] => []
  | x :: xs => if q x then lastFirst (settle q xs) else x :: settle q xs

/-- How many of the elements that pass have exactly `m` behind them that do not. -/
def passing (q : α → Bool) (m : ℕ) : List α → ℕ
  | [] => 0
  | x :: xs => (if q x ∧ (xs.filter (!q ·)).length = m then 1 else 0) + passing q m xs

theorem lastFirst_concat (xs : List α) (x : α) : lastFirst (xs ++ [x]) = x :: xs := by
  simp [lastFirst]

theorem lastFirst_perm (xs : List α) : (lastFirst xs).Perm xs := by
  obtain rfl | ⟨ys, y, rfl⟩ := xs.eq_nil_or_concat
  · rfl
  · rw [List.concat_eq_append, lastFirst_concat]
    exact (List.perm_append_singleton y ys).symm

/-- To move the last element to the front undoes a rotation. -/
theorem lastFirst_eq_iff {xs ys : List α} : lastFirst xs = ys ↔ xs = ys.rotate 1 := by
  obtain rfl | ⟨zs, z, rfl⟩ := xs.eq_nil_or_concat
  · cases ys with
    | nil => simp [lastFirst]
    | cons y ys => simp [lastFirst]
  · rw [List.concat_eq_append, lastFirst_concat]
    cases ys with
    | nil => simp
    | cons y ys =>
      rw [List.rotate_cons_succ, List.rotate_zero]
      constructor
      · intro h
        obtain ⟨rfl, rfl⟩ := List.cons.inj h
        rfl
      · intro h
        obtain ⟨rfl, hz⟩ := List.append_inj' h rfl
        rw [List.singleton_inj.mp hz]

theorem swapRemove_append_cons (xs ys : List α) (x : α) : swapRemove (xs ++ x :: ys) xs.length = xs ++ lastFirst ys := by
  obtain rfl | ⟨zs, z, rfl⟩ := ys.eq_nil_or_concat
  · simp [swapRemove, lastFirst]
  · rw [List.concat_eq_append, lastFirst_concat, ← List.cons_append, ← List.append_assoc]
    simp only [swapRemove, List.getLast?_concat]
    rw [List.set_append_left _ _ (by simp), List.dropLast_concat, List.set_append_right _ _ le_rfl, Nat.sub_self, List.set_cons_zero]

theorem swapRemove_map (f : α → β) (xs : List α) (i : ℕ) : swapRemove (xs.map f) i = (swapRemove xs i).map f := by
  simp only [swapRemove, List.getLast?_map]
  cases xs.getLast? with
  | none => rfl
  | some last =>
    show ((xs.map f).set i (f last)).dropLast = ((xs.set i last).dropLast).map f
    rw [← List.map_set, List.map_dropLast]

theorem rposition_eq_some {q : α → Bool} {xs : List α} {i : ℕ} (h : rposition q xs = some i) :
    ∃ ys x zs, xs = ys ++ x :: zs ∧ ys.length = i ∧ q x = true ∧ ∀ z ∈ zs, q z = false := by
  obtain ⟨j, hj, rfl⟩ := Option.map_eq_some_iff.mp h
  obtain ⟨hlt, hq, hbefore⟩ := List.findIdx?_eq_some_iff_getElem.mp hj
  rw [List.length_reverse] at hlt
  have hi : xs.length - 1 - j < xs.length := by omega
  refine ⟨xs.take (xs.length - 1 - j), xs[xs.length - 1 - j], xs.drop (xs.length - 1 - j + 1), ?_, ?_, ?_, ?_⟩
  · rw [List.getElem_cons_drop, List.take_append_drop]
  · rw [List.length_take]
    omega
  · rwa [List.getElem_reverse] at hq
  · intro z hz
    obtain ⟨k, hk, rfl⟩ := List.mem_iff_getElem.mp hz
    rw [List.length_drop] at hk
    have hkj : xs.length - 1 - (xs.length - 1 - j + 1 + k) < j := by omega
    have hfalse := hbefore _ hkj
    rw [List.getElem_reverse] at hfalse
    rw [List.getElem_drop]
    have hindex : xs.length - 1 - (xs.length - 1 - (xs.length - 1 - j + 1 + k)) = xs.length - 1 - j + 1 + k := by omega
    simpa only [hindex, Bool.not_eq_true] using hfalse

theorem rposition_append_cons {q : α → Bool} {x : α} {zs : List α} (ys : List α) (hx : q x = true) (hzs : ∀ z ∈ zs, q z = false) :
    rposition q (ys ++ x :: zs) = some ys.length := by
  have hnone : zs.reverse.findIdx? q = none :=
    List.findIdx?_eq_none_iff.mpr fun z hz => hzs z (List.mem_reverse.mp hz)
  rw [rposition, List.reverse_append, List.reverse_cons, List.append_assoc, List.findIdx?_append, hnone, Option.none_or,
    List.singleton_append, List.findIdx?_cons, if_pos hx, Option.map_some, Option.map_some, List.length_append,
    List.length_cons, List.length_reverse]
  congr 1
  omega

theorem rposition_eq_none {q : α → Bool} {xs : List α} (h : rposition q xs = none) : ∀ x ∈ xs, q x = false := by
  intro x hx
  rw [rposition, Option.map_eq_none_iff, List.findIdx?_eq_none_iff] at h
  exact h x (List.mem_reverse.mpr hx)

/-- The marked elements, removed from the last to the first. -/
theorem foldr_swapRemove (q : α → Bool) (xs ys : List α) :
    (positionsFrom q ys.length xs).foldr (fun i xs => swapRemove xs i) (ys ++ xs) = ys ++ settle q xs := by
  induction xs generalizing ys with
  | nil => rfl
  | cons x xs ih =>
    have hrest := ih (ys ++ [x])
    rw [List.length_append, List.length_singleton, List.append_assoc, List.singleton_append] at hrest
    rw [positionsFrom, settle]
    split
    · rw [List.foldr_cons, hrest, List.append_assoc, List.singleton_append, swapRemove_append_cons]
    · rw [hrest, List.append_assoc, List.singleton_append]

theorem settle_perm (q : α → Bool) (xs : List α) : (settle q xs).Perm (xs.filter (!q ·)) := by
  induction xs with
  | nil => rfl
  | cons x xs ih =>
    rw [settle]
    cases hx : q x with
    | true =>
      rw [if_pos rfl, List.filter_cons_of_neg (by simp [hx])]
      exact (lastFirst_perm _).trans ih
    | false =>
      rw [if_neg Bool.false_ne_true, List.filter_cons_of_pos (by simp [hx])]
      exact ih.cons x

theorem passing_eq_zero {q : α → Bool} {xs : List α} {m : ℕ} (h : (xs.filter (!q ·)).length < m) : passing q m xs = 0 := by
  induction xs with
  | nil => rfl
  | cons x xs ih =>
    have hle : (xs.filter (!q ·)).length ≤ ((x :: xs).filter (!q ·)).length :=
      ((List.sublist_cons_self x xs).filter _).length_le
    rw [passing, ih (by omega), if_neg (by omega)]

/-- A list without repeats is its own rotation only by a multiple of its length. -/
theorem cons_eq_rotate_iff {x : α} {xs ys : List α} (hnodup : (x :: ys).Nodup) (a : ℕ) :
    x :: xs = (x :: ys).rotate a ↔ (ys.length + 1) ∣ a ∧ xs = ys := by
  have hpos : 0 < (x :: ys).length := Nat.succ_pos _
  constructor
  · intro h
    have hlen : (x :: xs).length = (x :: ys).length := by rw [h, List.length_rotate]
    have hbound : (0 + a) % (x :: ys).length < (x :: ys).length := Nat.mod_lt _ hpos
    have hhead : (x :: ys)[(0 + a) % (x :: ys).length] = (x :: ys)[0] := by
      rw [← List.getElem_rotate (x :: ys) a 0 (by rw [List.length_rotate]; exact hpos)]
      simp only [← h, List.getElem_cons_zero]
    have hmod := (hnodup.getElem_inj_iff).mp hhead
    rw [Nat.zero_add, List.length_cons] at hmod
    refine ⟨Nat.dvd_of_mod_eq_zero hmod, ?_⟩
    rw [← List.rotate_mod, List.length_cons, hmod, List.rotate_zero] at h
    exact (List.cons.inj h).2
  · rintro ⟨hdvd, rfl⟩
    rw [← List.rotate_mod, List.length_cons, Nat.mod_eq_zero_of_dvd hdvd, List.rotate_zero]

/-- What is left lies rotated by `a` exactly if `a` makes up for the removals. -/
theorem settle_eq_rotate_iff {q : α → Bool} {xs : List α} (hnodup : (xs.filter (!q ·)).Nodup) (a : ℕ) :
    settle q xs = (xs.filter (!q ·)).rotate a ↔
      ∀ m, 0 < m → m ∣ (if (xs.filter (!q ·)).length = m then a else 0) + passing q m xs := by
  induction xs generalizing a with
  | nil =>
    refine iff_of_true (List.rotate_nil a).symm fun m hm => ?_
    have hne : ¬(List.filter (!q ·) []).length = m := hm.ne
    rw [if_neg hne]
    exact Nat.dvd_zero m
  | cons x xs ih =>
    rw [settle]
    cases hx : q x with
    | true =>
      have hfilter : (x :: xs).filter (!q ·) = xs.filter (!q ·) := List.filter_cons_of_neg (by simp [hx])
      rw [hfilter] at hnodup ⊢
      rw [if_pos rfl, lastFirst_eq_iff, List.rotate_rotate, ih hnodup (a + 1)]
      refine forall₂_congr fun m _ => ?_
      rw [passing, hx]
      by_cases hm : (xs.filter (!q ·)).length = m
      · simp only [hm, if_true, true_and, Nat.add_assoc]
      · simp only [hm, if_false, and_false, Nat.zero_add]
    | false =>
      have hfilter : (x :: xs).filter (!q ·) = x :: xs.filter (!q ·) := List.filter_cons_of_pos (by simp [hx])
      have hpassing : ∀ m, passing q m (x :: xs) = passing q m xs := fun m => by
        simp [passing, hx]
      rw [hfilter] at hnodup ⊢
      have hrest := ih (List.nodup_cons.mp hnodup).2 0
      rw [List.rotate_zero] at hrest
      rw [if_neg Bool.false_ne_true, cons_eq_rotate_iff hnodup, hrest, List.length_cons]
      constructor
      · rintro ⟨hdvd, hall⟩ m hm
        have h := hall m hm
        rw [ite_self, Nat.zero_add] at h
        rw [hpassing]
        split
        · rename_i heq
          exact (Nat.dvd_add_right (heq ▸ hdvd)).mpr h
        · rwa [Nat.zero_add]
      · intro hall
        have hlast := hall _ (Nat.succ_pos (xs.filter (!q ·)).length)
        rw [if_pos rfl, hpassing, passing_eq_zero (Nat.lt_succ_self _), Nat.add_zero] at hlast
        refine ⟨hlast, fun m hm => ?_⟩
        rw [ite_self, Nat.zero_add]
        by_cases heq : (xs.filter (!q ·)).length + 1 = m
        · rw [passing_eq_zero (by omega)]
          exact Nat.dvd_zero m
        · have h := hall m hm
          rwa [if_neg heq, hpassing, Nat.zero_add] at h

/-- What is left keeps its order exactly if, for every `m`, `m` divides the number of those removed that had `m`
    staying behind them. -/
theorem settle_eq_iff {q : α → Bool} {xs : List α} (hnodup : (xs.filter (!q ·)).Nodup) :
    settle q xs = xs.filter (!q ·) ↔ ∀ m, 0 < m → m ∣ passing q m xs := by
  have h := settle_eq_rotate_iff hnodup 0
  simpa only [List.rotate_zero, ite_self, Nat.zero_add] using h

end Krio.Lib
