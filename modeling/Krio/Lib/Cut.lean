import Mathlib.Data.List.Nodup
import Mathlib.Data.List.Basic

/-! A list cut into consecutive pieces, each held by a place of its own: every piece but the last ends with
    the element at a cut. Cutting the last piece once more, and what the pieces say about the list. -/

namespace Krio.Lib

variable {P α : Type*} {content content' : P → List α} {xs : List α} {off i : ℕ} {cuts : List ℕ} {p q : P} {ps : List P}

/-- The places `p :: ps` hold consecutive pieces of `xs` from index `off` on, and all of `xs` from there;
    the `j`-th of them ends with the element at the `j`-th cut. -/
def Cut (content : P → List α) (xs : List α) : ℕ → List ℕ → P → List P → Prop
  | off, [], p, [] => content p = xs.drop off
  | off, i :: cuts, p, q :: ps =>
    off ≤ i ∧ i < xs.length ∧ content p = (xs.drop off).take (i + 1 - off) ∧ Cut content xs (i + 1) cuts q ps
  | _, _, _, _ => False

/-- Where the last piece starts. -/
def lastOff : ℕ → List ℕ → ℕ
  | off, [] => off
  | _, i :: cuts => lastOff (i + 1) cuts

@[simp] theorem lastOff_nil : lastOff off [] = off := rfl

@[simp] theorem lastOff_cons : lastOff off (i :: cuts) = lastOff (i + 1) cuts := rfl

@[simp] theorem lastOff_snoc : lastOff off (cuts ++ [i]) = i + 1 := by
  induction cuts generalizing off with
  | nil => rfl
  | cons k cuts ih => exact ih

namespace Cut

theorem length_eq (h : Cut content xs off cuts p ps) : ps.length = cuts.length := by
  induction cuts generalizing off p ps with
  | nil => cases ps with
    | nil => rfl
    | cons q ps => exact h.elim
  | cons i cuts ih => cases ps with
    | nil => exact h.elim
    | cons q ps => simp [ih h.2.2.2]

/-- The last piece is what is left of the list. -/
theorem content_last (h : Cut content xs off cuts p ps) : content (ps.getLastD p) = xs.drop (lastOff off cuts) := by
  induction cuts generalizing off p ps with
  | nil => cases ps with
    | nil => exact h
    | cons q ps => exact h.elim
  | cons i cuts ih => cases ps with
    | nil => exact h.elim
    | cons q ps =>
      rw [List.getLastD_cons, lastOff_cons]
      exact ih h.2.2.2

/-- The pieces, one after the other, are the list. -/
theorem flatMap_eq (h : Cut content xs off cuts p ps) : (p :: ps).flatMap content = xs.drop off := by
  induction cuts generalizing off p ps with
  | nil => cases ps with
    | nil => simpa [Cut] using h
    | cons q ps => exact h.elim
  | cons i cuts ih => cases ps with
    | nil => exact h.elim
    | cons q ps =>
      obtain ⟨hoff, -, hp, hrest⟩ := h
      rw [List.flatMap_cons, ih hrest, hp]
      have hdrop : xs.drop (i + 1) = (xs.drop off).drop (i + 1 - off) := by
        rw [List.drop_drop]
        congr 1
        omega
      rw [hdrop, List.take_append_drop]

theorem le_of_mem (h : Cut content xs off cuts p ps) (hi : i ∈ cuts) : off ≤ i := by
  induction cuts generalizing off p ps with
  | nil => simp at hi
  | cons k cuts ih => cases ps with
    | nil => exact h.elim
    | cons q ps =>
      obtain ⟨hoff, -, -, hrest⟩ := h
      rcases List.mem_cons.mp hi with rfl | hi
      · exact hoff
      · have hk := ih hrest hi
        omega

/-- The first `j + 1` pieces end with the element at the `j`-th cut. -/
theorem take_flatMap (h : Cut content xs off cuts p ps) {j : ℕ} (hj : cuts[j]? = some i) :
    ((p :: ps).take (j + 1)).flatMap content = (xs.drop off).take (i + 1 - off) := by
  induction cuts generalizing off p ps j with
  | nil => simp at hj
  | cons k cuts ih => cases ps with
    | nil => exact h.elim
    | cons q ps =>
      obtain ⟨hoff, hk, hp, hrest⟩ := h
      cases j with
      | zero =>
        obtain rfl : k = i := by simpa using hj
        simpa using hp
      | succ j =>
        have hj' : cuts[j]? = some i := by simpa using hj
        have hcut := hrest.le_of_mem (List.mem_of_getElem? hj')
        rw [List.take_succ_cons, List.flatMap_cons, ih hrest hj', hp]
        have hdrop : xs.drop (k + 1) = (xs.drop off).drop (k + 1 - off) := by
          rw [List.drop_drop]
          congr 1
          omega
        rw [hdrop, ← List.take_add]
        congr 1
        omega

/-- The `j`-th piece is not empty, and its last element is the one at the `j`-th cut. -/
theorem getLast?_eq (h : Cut content xs off cuts p ps) {j : ℕ} (hj : cuts[j]? = some i) :
    ∃ q, (p :: ps)[j]? = some q ∧ (content q).getLast? = xs[i]? := by
  induction cuts generalizing off p ps j with
  | nil => simp at hj
  | cons k cuts ih => cases ps with
    | nil => exact h.elim
    | cons q ps =>
      obtain ⟨hoff, hk, hp, hrest⟩ := h
      cases j with
      | zero =>
        obtain rfl : k = i := by simpa using hj
        refine ⟨p, rfl, ?_⟩
        have hlen : (content p).length = k + 1 - off := by
          rw [hp, List.length_take, List.length_drop]
          omega
        have hk' : off + (k + 1 - off - 1) = k := by omega
        rw [List.getLast?_eq_getElem?, hlen, hp, List.getElem?_take_of_lt (by omega), List.getElem?_drop, hk']
      | succ j => exact ih hrest (by simpa using hj)

/-- The first piece begins the list, and is empty only when the list is. -/
theorem head (h : Cut content xs off cuts p ps) : content p <+: xs.drop off ∧ (content p).head? = xs[off]? := by
  cases cuts with
  | nil => cases ps with
    | nil =>
      have hp : content p = xs.drop off := h
      rw [hp]
      exact ⟨List.prefix_rfl, List.head?_drop⟩
    | cons q ps => exact h.elim
  | cons i cuts => cases ps with
    | nil => exact h.elim
    | cons q ps =>
      obtain ⟨hoff, -, hp, -⟩ := h
      rw [hp]
      refine ⟨List.take_prefix _ _, ?_⟩
      rw [List.head?_take, if_neg (by omega), List.head?_drop]

/-- The piece at the `j`-th cut ends with the element there, and the next piece begins after it. -/
theorem around (h : Cut content xs off cuts p ps) {j : ℕ} (hj : cuts[j]? = some i) :
    ∃ q r, (p :: ps)[j]? = some q ∧ ps[j]? = some r ∧ content q ≠ [] ∧ content q <:+ xs.take (i + 1) ∧
      content r <+: xs.drop (i + 1) ∧ (content r).head? = xs[i + 1]? := by
  induction cuts generalizing off p ps j with
  | nil => simp at hj
  | cons k cuts ih => cases ps with
    | nil => exact h.elim
    | cons q ps =>
      obtain ⟨hoff, hk, hp, hrest⟩ := h
      cases j with
      | zero =>
        obtain rfl : k = i := by simpa using hj
        have hlen : (content p).length = k + 1 - off := by
          rw [hp, List.length_take, List.length_drop]
          omega
        refine ⟨p, q, rfl, rfl, List.ne_nil_of_length_pos (by omega), ?_, hrest.head⟩
        rw [hp, ← List.drop_take]
        exact List.drop_suffix _ _
      | succ j => exact ih hrest (by simpa using hj)

/-- Cut the last piece at `i`: what follows moves to a new place `t`. -/
theorem snoc (h : Cut content xs off cuts p ps) (hnd : (p :: ps).Nodup) (hi : lastOff off cuts ≤ i) (hlen : i < xs.length)
    {t : P} (hlast : content' (ps.getLastD p) = (content (ps.getLastD p)).take (i + 1 - lastOff off cuts))
    (ht : content' t = (content (ps.getLastD p)).drop (i + 1 - lastOff off cuts))
    (hother : ∀ q ∈ p :: ps, q ≠ ps.getLastD p → content' q = content q) :
    Cut content' xs off (cuts ++ [i]) p (ps ++ [t]) := by
  induction cuts generalizing off p ps with
  | nil => cases ps with
    | nil =>
      have hp : content p = xs.drop off := h
      simp only [List.getLastD_nil, lastOff_nil] at hlast ht hi
      refine ⟨hi, hlen, by rw [hlast, hp], ?_⟩
      show content' t = xs.drop (i + 1)
      rw [ht, hp, List.drop_drop]
      congr 1
      omega
    | cons q ps => exact h.elim
  | cons k cuts ih => cases ps with
    | nil => exact h.elim
    | cons q ps =>
      obtain ⟨hoff, hk, hp, hrest⟩ := h
      obtain ⟨hnp, hnd'⟩ := List.nodup_cons.mp hnd
      rw [List.getLastD_cons] at hlast ht hother
      have hne : p ≠ ps.getLastD q := by
        rintro rfl
        exact hnp List.getLastD_mem_cons
      refine ⟨hoff, hk, by rw [hother p List.mem_cons_self hne, hp], ?_⟩
      exact ih hrest hnd' hi hlast ht fun r hr => hother r (List.mem_cons_of_mem _ hr)

/-- Changing places that hold no piece changes nothing. -/
theorem congr (h : Cut content xs off cuts p ps) (heq : ∀ q ∈ p :: ps, content' q = content q) :
    Cut content' xs off cuts p ps := by
  induction cuts generalizing off p ps with
  | nil => cases ps with
    | nil => exact (heq p List.mem_cons_self).trans h
    | cons q ps => exact h.elim
  | cons k cuts ih => cases ps with
    | nil => exact h.elim
    | cons q ps =>
      obtain ⟨hoff, hk, hp, hrest⟩ := h
      exact ⟨hoff, hk, (heq p List.mem_cons_self).trans hp, ih hrest fun r hr => heq r (List.mem_cons_of_mem _ hr)⟩

end Cut
/-- A list read off index by index. -/
theorem filterMap_getElem?_range {α : Type*} (l : List α) : (List.range l.length).filterMap (fun i => l[i]?) = l := by
  induction l with
  | nil => rfl
  | cons x l ih =>
    rw [List.length_cons, List.range_succ_eq_map, List.filterMap_cons]
    simpa [List.filterMap_map, Function.comp_def] using ih

end Krio.Lib
