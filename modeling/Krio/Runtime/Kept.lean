import Mathlib.Data.List.Nodup
import Mathlib.Tactic.Common
import Krio.Runtime.Tick

/-! Every tick steps each live task once, and keeps those that did not complete. -/

namespace Krio.Runtime
open Lib

variable {T W C D : Type}

/-- The loop steps the live tasks, and a task that stays is live. -/
structure Fits (visit : Visit T W) (live : T → Bool) : Prop where
  stepped : ∀ task w, (visit task w).1.isSome = live task
  stays : ∀ task w, leaves (visit task w).1 = false → live (visit task w).2.1 = true

/-- `RoundRobin` takes every task for live. -/
def RoundRobin.live : T → Bool := fun _ => true

/-- `TimeSliceScheduler` asks the fiber. -/
def TimeSlice.live (slot : Slot C D) : Bool := !slot.data.done

theorem RoundRobin.fits (step : Step T W) : Fits (RoundRobin.visit step) RoundRobin.live := ⟨fun _ _ => rfl, fun _ _ _ => rfl⟩

theorem TimeSlice.fits (deadline : W → D) (resume : Resume C D W) : Fits (TimeSlice.visit deadline resume) TimeSlice.live where
  stepped slot w := by
    cases hdone : slot.data.done with
    | true => rw [TimeSlice.visit_done w hdone, TimeSlice.live, hdone, Option.isSome_none, Bool.not_true]
    | false =>
      rw [TimeSlice.live, hdone, Bool.not_false]
      have hresume : resume { slot with deadlineMs := some (deadline w) } w = (_, _) := Prod.mk.eta.symm
      rcases TimeSlice.visit_live hdone hresume with ⟨-, h⟩ | ⟨-, h⟩ <;> rw [h] <;> rfl
  stays slot w hstays := by
    cases hdone : slot.data.done with
    | true =>
      rw [TimeSlice.visit_done w hdone] at hstays
      cases hstays
    | false =>
      have hresume : resume { slot with deadlineMs := some (deadline w) } w = (_, _) := Prod.mk.eta.symm
      rcases TimeSlice.visit_live hdone hresume with ⟨hnot, h⟩ | ⟨-, h⟩
      · rw [h, TimeSlice.live, hnot, Bool.not_false]
      · rw [h] at hstays
        cases hstays

variable {visit : Visit T W} {live : T → Bool}

/-- What a tick does from `s`, with these steps. -/
structure Turned (visit : Visit T W) (live : T → Bool) (s : Scheduler T W) (steps : List (ℕ × Suspension)) : Prop where
  made : (s.tick visit).2.log = s.log ++ steps
  /-- each live task held is stepped once, in the order held -/
  order : steps.map (·.1) = (s.tasks.filter (live ·.task)).map (·.id)
  /-- the tasks that stay are those that were stepped and did not complete, as their steps left them -/
  kept : ((s.tick visit).2.tasks.map (·.id)).Perm ((steps.filter (·.2 ≠ .completed)).map (·.1))
  states : (s.tick visit).2.tasks.Perm (((s.turn visit).filter (!leaves ·.2)).map (·.1))
  returned : (s.tick visit).1 = true ↔ (s.tick visit).2.tasks ≠ []

/-- The scheduler after so many ticks. -/
def Scheduler.after (visit : Visit T W) (s : Scheduler T W) (n : ℕ) : Scheduler T W := (fun s => (s.tick visit).2)^[n] s

theorem stepsOf_order (hfits : Fits visit live) (xs : List (Boxed T)) (w : W) :
    (stepsOf (visits visit xs w).1).map (·.1) = (xs.filter (live ·.task)).map (·.id) := by
  induction xs generalizing w with
  | nil => rfl
  | cons x xs ih =>
    have hstepped := hfits.stepped x.task w
    have hrest := ih (visit x.task w).2.2
    simp only [visits, stepsOf, List.filterMap_cons] at hrest ⊢
    cases hs : (visit x.task w).1 with
    | none =>
      rw [hs, Option.isSome_none] at hstepped
      rw [List.filter_cons_of_neg (by rw [← hstepped]; exact Bool.false_ne_true)]
      exact hrest
    | some s =>
      rw [hs, Option.isSome_some] at hstepped
      rw [List.filter_cons_of_pos (by rw [← hstepped]), List.map_cons, ← hrest]
      rfl

/-- Those that stay are those whose steps did not complete. -/
theorem stepsOf_kept (vs : List (Boxed T × Option Suspension)) :
    (vs.filter (!leaves ·.2)).map (·.1.id) = ((stepsOf vs).filter (·.2 ≠ .completed)).map (·.1) := by
  induction vs with
  | nil => rfl
  | cons v vs ih =>
    obtain ⟨x, s⟩ := v
    cases s with
    | none => exact ih
    | some s =>
      cases s with
      | completed => exact ih
      | yielded => exact congrArg (x.id :: ·) ih
      | pending => exact congrArg (x.id :: ·) ih

theorem turned (hfits : Fits visit live) (s : Scheduler T W) : Turned visit live s (stepsOf (s.turn visit)) where
  made := s.tick_log visit
  order := stepsOf_order hfits s.tasks s.world
  kept := by
    rw [← stepsOf_kept]
    have hkept := (s.tick_kept visit).map (·.id)
    rwa [List.map_map] at hkept
  states := s.tick_kept visit
  returned := by
    rw [s.tick_returns visit]
    simp

/-- In a tick whose tasks are distinct, one that completes has no other step. -/
theorem completes_once {steps pre post : List (ℕ × Suspension)} {id : ℕ} (hids : (steps.map (·.1)).Nodup)
    (h : steps = pre ++ (id, .completed) :: post) :
    id ∉ post.map (·.1) ∧ id ∉ (steps.filter (·.2 ≠ .completed)).map (·.1) := by
  refine ⟨?_, fun hid => ?_⟩
  · rw [h, List.map_append, List.map_cons] at hids
    exact (List.nodup_cons.mp (List.nodup_append.mp hids).2.1).1
  · obtain ⟨e, he, heq⟩ := List.mem_map.mp hid
    obtain ⟨he, hne⟩ := List.mem_filter.mp he
    have hin : (id, .completed) ∈ steps := h ▸ List.mem_append_right _ List.mem_cons_self
    rw [List.inj_on_of_nodup_map hids he hin heq] at hne
    simp at hne

/-- What every step keeps of the numbers. -/
structure Numbered (s : Scheduler T W) : Prop where
  distinct : (s.tasks.map (·.id)).Nodup
  held : ∀ x ∈ s.tasks, x.id < s.spawned
  logged : ∀ e ∈ s.log, e.1 < s.spawned
  dropped : ∀ pre id post, s.log = pre ++ (id, .completed) :: post → id ∉ post.map (·.1) ∧ id ∉ s.tasks.map (·.id)

namespace Numbered
variable {s : Scheduler T W}

theorem tick (hfits : Fits visit live) (h : Numbered s) : Numbered (s.tick visit).2 := by
  have ht := turned hfits s
  have hids : ((stepsOf (s.turn visit)).map (·.1)).Nodup := by
    rw [ht.order]
    exact h.distinct.sublist (List.filter_sublist.map _)
  have hheld : ∀ id ∈ (stepsOf (s.turn visit)).map (·.1), id ∈ s.tasks.map (·.id) := by
    rw [ht.order]
    exact fun id hid => (List.filter_sublist.map _).subset hid
  have hkept : ∀ id ∈ (s.tick visit).2.tasks.map (·.id),
      id ∈ ((stepsOf (s.turn visit)).filter (·.2 ≠ .completed)).map (·.1) := fun id hid => ht.kept.mem_iff.mp hid
  have hstays : ∀ id ∈ (s.tick visit).2.tasks.map (·.id), id ∈ s.tasks.map (·.id) := fun id hid =>
    hheld id ((List.filter_sublist.map _).subset (hkept id hid))
  have hlt : ∀ id ∈ s.tasks.map (·.id), id < s.spawned := by
    intro id hid
    obtain ⟨x, hx, rfl⟩ := List.mem_map.mp hid
    exact h.held x hx
  refine ⟨?_, fun x hx => ?_, fun e he => ?_, fun pre id post heq => ?_⟩
  · exact ht.kept.nodup_iff.mpr (hids.sublist (List.filter_sublist.map _))
  · rw [s.tick_spawned visit]
    exact hlt _ (hstays _ (List.mem_map_of_mem hx))
  · rw [s.tick_spawned visit]
    rw [ht.made] at he
    rcases List.mem_append.mp he with he | he
    · exact h.logged e he
    · exact hlt _ (hheld _ (List.mem_map_of_mem he))
  · rw [ht.made] at heq
    rcases List.append_eq_append_iff.mp heq with ⟨as, rfl, hsteps⟩ | ⟨as, hlog, hpost⟩
    · obtain ⟨h1, h2⟩ := completes_once hids hsteps
      exact ⟨h1, fun hid => h2 (hkept id hid)⟩
    · cases as with
      | nil =>
        have hsteps : _ = [] ++ (id, .completed) :: post := hpost.symm
        obtain ⟨h1, h2⟩ := completes_once hids hsteps
        exact ⟨h1, fun hid => h2 (hkept id hid)⟩
      | cons a as =>
        obtain ⟨rfl, rfl⟩ := List.cons.inj hpost
        obtain ⟨h1, h2⟩ := h.dropped pre id as hlog
        refine ⟨fun hid => ?_, fun hid => h2 (hstays id hid)⟩
        obtain ⟨e, he, rfl⟩ := List.mem_map.mp hid
        rcases List.mem_append.mp he with he | he
        · exact h1 (List.mem_map_of_mem he)
        · exact h2 (hheld _ (List.mem_map_of_mem he))

theorem spawn (h : Numbered s) (task : T) : Numbered (s.spawn task) := by
  have hnew : s.spawned ∉ s.tasks.map (·.id) := fun hmem => by
    obtain ⟨x, hx, heq⟩ := List.mem_map.mp hmem
    exact (h.held x hx).ne heq
  refine ⟨?_, fun x hx => ?_, fun e he => (h.logged e he).trans (Nat.lt_succ_self _), fun pre id post heq => ?_⟩
  · rw [Scheduler.spawn, List.map_append]
    refine List.nodup_append.mpr ⟨h.distinct, List.nodup_singleton _, fun a ha b hb hab => hnew ?_⟩
    rwa [hab, List.mem_singleton.mp hb] at ha
  · rcases List.mem_append.mp hx with hx | hx
    · exact (h.held x hx).trans (Nat.lt_succ_self _)
    · rw [List.mem_singleton.mp hx]
      exact Nat.lt_succ_self _
  · have hlog : s.log = pre ++ (id, .completed) :: post := heq
    obtain ⟨h1, h2⟩ := h.dropped pre id post hlog
    refine ⟨h1, fun hmem => ?_⟩
    rw [Scheduler.spawn, List.map_append] at hmem
    rcases List.mem_append.mp hmem with hmem | hmem
    · exact h2 hmem
    · have hlt := h.logged (id, .completed) (hlog ▸ List.mem_append_right _ List.mem_cons_self)
      exact hlt.ne (List.mem_singleton.mp hmem)

theorem step (hfits : Fits visit live) (h : Numbered s) (o : Op T W) : Numbered (s.step visit o) := by
  cases o with
  | spawn task => exact h.spawn task
  | tick => exact h.tick hfits
  | outside world => exact ⟨h.distinct, h.held, h.logged, h.dropped⟩

theorem run (hfits : Fits visit live) (h : Numbered s) (ops : List (Op T W)) : Numbered (s.run visit ops) := by
  induction ops using List.reverseRecOn with
  | nil => exact h
  | append_singleton ops o ih =>
    rw [s.run_concat visit]
    exact ih.step hfits o

theorem new (w : W) : Numbered (Scheduler.new w : Scheduler T W) :=
  ⟨List.nodup_nil, fun _ hx => absurd hx List.not_mem_nil, fun _ he => absurd he List.not_mem_nil,
    fun pre id post heq => by cases pre <;> cases heq⟩

end Numbered

/-! ## Running to completion -/

namespace Scheduler
variable (visit) (s : Scheduler T W)

theorem after_succ (n : ℕ) : s.after visit (n + 1) = (s.tick visit).2.after visit n := rfl

/-- A scheduler without tasks stays as it is. -/
theorem tick_nil (h : s.tasks = []) : s.tick visit = (false, s) := by
  rw [tick, if_pos (by rw [h]; rfl)]

end Scheduler

end Krio.Runtime
