import Mathlib.Data.List.Nodup
import Mathlib.Data.List.Perm.Subperm
import Mathlib.Logic.Relation
import Mathlib.Tactic.Common

/-! A worklist that collects what is reachable: a list of the members seen so far and a stack of those whose
successors are still to be looked at. -/

namespace Krio.Lib

variable {α : Type*} [DecidableEq α]

/-- The successors not seen yet join the members and the stack, one after the other. -/
def pushNew (succs seen stack : List α) : List α × List α :=
  succs.foldl (fun (seen, stack) s => if s ∈ seen then (seen, stack) else (seen ++ [s], s :: stack)) (seen, stack)

/-- Take members off the stack until it is empty, at most `rounds` times. -/
def collect (succs : α → List α) : ℕ → List α → List α → List α
  | 0, seen, _ => seen
  | _ + 1, seen, [] => seen
  | rounds + 1, seen, a :: stack =>
    let (seen, stack) := pushNew (succs a) seen stack
    collect succs rounds seen stack

theorem pushNew_cons (s : α) (succs seen stack : List α) :
    pushNew (s :: succs) seen stack =
      if s ∈ seen then pushNew succs seen stack else pushNew succs (seen ++ [s]) (s :: stack) := by
  simp only [pushNew, List.foldl_cons]
  split <;> rfl

/-- What `pushNew` adds is new, and the same to both lists. -/
theorem pushNew_spec (succs seen stack : List α) (hnodup : seen.Nodup) :
    ∃ new, (pushNew succs seen stack).1 = seen ++ new ∧ (pushNew succs seen stack).2 = new.reverse ++ stack ∧
      (seen ++ new).Nodup ∧ (∀ s ∈ new, s ∈ succs) ∧ ∀ s ∈ succs, s ∈ seen ++ new := by
  induction succs generalizing seen stack with
  | nil => exact ⟨[], by simp [pushNew], by simp [pushNew], by simpa using hnodup, by simp, by simp⟩
  | cons s succs ih =>
    rw [pushNew_cons]
    by_cases hs : s ∈ seen
    · rw [if_pos hs]
      obtain ⟨new, h1, h2, h3, h4, h5⟩ := ih seen stack hnodup
      refine ⟨new, h1, h2, h3, fun x hx => List.mem_cons_of_mem _ (h4 x hx), fun x hx => ?_⟩
      rcases List.mem_cons.mp hx with rfl | hx
      · exact List.mem_append_left _ hs
      · exact h5 x hx
    · rw [if_neg hs]
      have hn : (seen ++ [s]).Nodup := by
        refine List.nodup_append.mpr ⟨hnodup, List.nodup_singleton _, ?_⟩
        intro a ha b hb hab
        rw [List.mem_singleton.mp hb] at hab
        exact hs (hab ▸ ha)
      obtain ⟨new, h1, h2, h3, h4, h5⟩ := ih (seen ++ [s]) (s :: stack) hn
      refine ⟨s :: new, by simpa using h1, by simpa using h2, by simpa using h3, fun x hx => ?_, fun x hx => ?_⟩
      · rcases List.mem_cons.mp hx with rfl | hx
        · exact List.mem_cons_self
        · exact List.mem_cons_of_mem _ (h4 x hx)
      · rcases List.mem_cons.mp hx with rfl | hx
        · simp
        · simpa using h5 x hx

/-- With enough rounds the worklist ends with every member's successors in the list. -/
theorem collect_closed {succs : α → List α} {pool : List α} (hpool : ∀ a ∈ pool, ∀ s ∈ succs a, s ∈ pool) (rounds : ℕ)
    (seen stack : List α) (hnodup : seen.Nodup) (hseen : ∀ a ∈ seen, a ∈ pool) (hstack : ∀ a ∈ stack, a ∈ seen)
    (hclosed : ∀ a ∈ seen, a ∉ stack → ∀ s ∈ succs a, s ∈ seen)
    (hrounds : stack.length + pool.length ≤ rounds + seen.length) :
    let out := collect succs rounds seen stack
    out.Nodup ∧ (∀ a ∈ seen, a ∈ out) ∧ ∀ a ∈ out, ∀ s ∈ succs a, s ∈ out := by
  induction rounds generalizing seen stack with
  | zero =>
    have hle := (List.subperm_of_subset hnodup hseen).length_le
    have hnil : stack = [] := List.length_eq_zero_iff.mp (by omega)
    exact ⟨hnodup, fun _ ha => ha, fun a ha => hclosed a ha (by simp [hnil])⟩
  | succ rounds ih =>
    cases stack with
    | nil => exact ⟨hnodup, fun _ ha => ha, fun a ha => hclosed a ha (by simp)⟩
    | cons a stack =>
      obtain ⟨new, h1, h2, h3, h4, h5⟩ := pushNew_spec (succs a) seen stack hnodup
      have ha : a ∈ seen := hstack a List.mem_cons_self
      have hout : collect succs (rounds + 1) seen (a :: stack) = collect succs rounds (seen ++ new) (new.reverse ++ stack) := by
        simp only [collect, h1, h2]
      rw [hout]
      have hrec := ih (seen ++ new) (new.reverse ++ stack) h3 ?_ ?_ ?_ ?_
      · exact ⟨hrec.1, fun x hx => hrec.2.1 x (List.mem_append_left _ hx), hrec.2.2⟩
      · intro x hx
        rcases List.mem_append.mp hx with hx | hx
        · exact hseen x hx
        · exact hpool a (hseen a ha) x (h4 x hx)
      · intro x hx
        rcases List.mem_append.mp hx with hx | hx
        · exact List.mem_append_right _ (List.mem_reverse.mp hx)
        · exact List.mem_append_left _ (hstack x (List.mem_cons_of_mem _ hx))
      · intro x hx hns s hs
        have hnew : x ∉ new := fun h => hns (List.mem_append_left _ (List.mem_reverse.mpr h))
        have hold : x ∈ seen := (List.mem_append.mp hx).resolve_right hnew
        by_cases hxa : x = a
        · exact h5 s (hxa ▸ hs)
        · refine List.mem_append_left _ (hclosed x hold ?_ s hs)
          intro hm
          rcases List.mem_cons.mp hm with h | h
          · exact hxa h
          · exact hns (List.mem_append_right _ h)
      · simp only [List.length_append, List.length_reverse, List.length_cons] at hrounds ⊢
        omega

/-- What a worklist collects is reachable. -/
theorem collect_sound {succs : α → List α} {P : α → Prop} (hP : ∀ a, P a → ∀ s ∈ succs a, P s) (rounds : ℕ)
    (seen stack : List α) (hnodup : seen.Nodup) (hseen : ∀ a ∈ seen, P a) (hstack : ∀ a ∈ stack, a ∈ seen) :
    ∀ a ∈ collect succs rounds seen stack, P a := by
  induction rounds generalizing seen stack with
  | zero => exact hseen
  | succ rounds ih =>
    cases stack with
    | nil => exact hseen
    | cons a stack =>
      obtain ⟨new, h1, h2, h3, h4, h5⟩ := pushNew_spec (succs a) seen stack hnodup
      have hout : collect succs (rounds + 1) seen (a :: stack) = collect succs rounds (seen ++ new) (new.reverse ++ stack) := by
        simp only [collect, h1, h2]
      rw [hout]
      refine ih _ _ h3 ?_ ?_
      · intro x hx
        rcases List.mem_append.mp hx with hx | hx
        · exact hseen x hx
        · exact hP a (hseen a (hstack a List.mem_cons_self)) x (h4 x hx)
      · intro x hx
        rcases List.mem_append.mp hx with hx | hx
        · exact List.mem_append_right _ (List.mem_reverse.mp hx)
        · exact List.mem_append_left _ (hstack x (List.mem_cons_of_mem _ hx))

/-- From one member, a worklist with as many rounds as the pool has members collects exactly what is reachable. -/
theorem mem_collect_iff {succs : α → List α} (pool : List α) (hpool : ∀ a ∈ pool, ∀ s ∈ succs a, s ∈ pool) {a : α}
    (ha : a ∈ pool) {rounds : ℕ} (hrounds : pool.length ≤ rounds) (b : α) :
    b ∈ collect succs rounds [a] [a] ↔ Relation.ReflTransGen (fun x y => y ∈ succs x) a b := by
  constructor
  · refine collect_sound (P := fun b => Relation.ReflTransGen (fun x y => y ∈ succs x) a b) ?_ rounds [a] [a]
      (List.nodup_singleton a) ?_ (fun x hx => hx) b
    · intro x hx s hs
      exact hx.tail hs
    · intro x hx
      rw [List.mem_singleton.mp hx]
  · intro h
    obtain ⟨-, hin, hcl⟩ := collect_closed hpool rounds [a] [a] (List.nodup_singleton a)
      (fun x hx => List.mem_singleton.mp hx ▸ ha) (fun x hx => hx) (fun x hx hns => absurd hx hns)
      (by simp only [List.length_singleton]; omega)
    induction h with
    | refl => exact hin a (List.mem_singleton.mpr rfl)
    | tail _ hs ih => exact hcl _ ih _ hs

/-- One round of the loop; none when the stack is empty. -/
def round (succs : α → List α) : List α × List α → Option (List α × List α)
  | (_, []) => none
  | (seen, a :: stack) => some (pushNew (succs a) seen stack)

/-- With enough rounds the stack is empty at the end. -/
theorem collect_ends {succs : α → List α} {pool : List α} (hpool : ∀ a ∈ pool, ∀ s ∈ succs a, s ∈ pool) (rounds : ℕ)
    (seen stack : List α) (hnodup : seen.Nodup) (hseen : ∀ a ∈ seen, a ∈ pool) (hstack : ∀ a ∈ stack, a ∈ seen)
    (hrounds : stack.length + pool.length ≤ rounds + seen.length) :
    Relation.ReflTransGen (fun σ τ => round succs σ = some τ) (seen, stack) (collect succs rounds seen stack, []) := by
  induction rounds generalizing seen stack with
  | zero =>
    have hle := (List.subperm_of_subset hnodup hseen).length_le
    obtain rfl : stack = [] := List.length_eq_zero_iff.mp (by omega)
    exact .refl
  | succ rounds ih =>
    cases stack with
    | nil => exact .refl
    | cons a stack =>
      obtain ⟨new, h1, h2, h3, h4, -⟩ := pushNew_spec (succs a) seen stack hnodup
      have hout : collect succs (rounds + 1) seen (a :: stack) = collect succs rounds (seen ++ new) (new.reverse ++ stack) := by
        simp only [collect, h1, h2]
      have hround : round succs (seen, a :: stack) = some (seen ++ new, new.reverse ++ stack) := by
        rw [round, ← h1, ← h2]
      rw [hout]
      refine .head hround (ih _ _ h3 ?_ ?_ ?_)
      · intro x hx
        rcases List.mem_append.mp hx with hx | hx
        · exact hseen x hx
        · exact hpool a (hseen a (hstack a List.mem_cons_self)) x (h4 x hx)
      · intro x hx
        rcases List.mem_append.mp hx with hx | hx
        · exact List.mem_append_right _ (List.mem_reverse.mp hx)
        · exact List.mem_append_left _ (hstack x (List.mem_cons_of_mem _ hx))
      · simp only [List.length_append, List.length_reverse, List.length_cons] at hrounds ⊢
        omega

theorem collect_nodup {succs : α → List α} (rounds : ℕ) (seen stack : List α) (hnodup : seen.Nodup) :
    (collect succs rounds seen stack).Nodup := by
  induction rounds generalizing seen stack with
  | zero => exact hnodup
  | succ rounds ih =>
    cases stack with
    | nil => exact hnodup
    | cons a stack =>
      obtain ⟨new, h1, h2, h3, -, -⟩ := pushNew_spec (succs a) seen stack hnodup
      have hout : collect succs (rounds + 1) seen (a :: stack) = collect succs rounds (seen ++ new) (new.reverse ++ stack) := by
        simp only [collect, h1, h2]
      rw [hout]
      exact ih _ _ h3

end Krio.Lib
