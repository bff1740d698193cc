import Krio.Lib.Turns
import Krio.Runtime.Kept

/-! Whether the tasks take turns. A tick that removes tasks may change the order of those that stay, and then one of
them is stepped twice before another. -/

namespace Krio.Runtime
open Lib

variable {T W C D : Type} {visit : Visit T W} {live : T → Bool}

/-- The live tasks, in the order held. -/
def Scheduler.held (live : T → Bool) (s : Scheduler T W) : List ℕ := (s.tasks.filter (live ·.task)).map (·.id)

/-- The steps that a run makes. -/
def Scheduler.trace (visit : Visit T W) (s : Scheduler T W) (ops : List (Op T W)) : List (ℕ × Suspension) :=
  (s.run visit ops).log.drop s.log.length

/-- For every `m`, the tasks that leave in the next tick while exactly `m` staying ones are held behind them are a
    multiple of `m`. -/
def Balanced (visit : Visit T W) (s : Scheduler T W) : Prop := ∀ m, 0 < m → m ∣ passing (leaves ·.2) m (s.turn visit)

/-- The steps of a run, tick by tick. -/
def roundsOf (visit : Visit T W) : Scheduler T W → List (Op T W) → List (List (ℕ × Suspension))
  | _, [] => []
  | s, .tick :: ops => stepsOf (s.turn visit) :: roundsOf visit (s.tick visit).2 ops
  | s, o :: ops => roundsOf visit (s.step visit o) ops

/-- No task is spawned. -/
def NoSpawn (ops : List (Op T W)) : Prop := ∀ task, .spawn task ∉ ops

theorem trace_eq (s : Scheduler T W) (ops : List (Op T W)) : s.trace visit ops = (roundsOf visit s ops).flatten := by
  suffices h : (s.run visit ops).log = s.log ++ (roundsOf visit s ops).flatten by
    rw [Scheduler.trace, h, List.drop_left]
  induction ops generalizing s with
  | nil => simp [Scheduler.run, roundsOf]
  | cons o ops ih =>
    cases o with
    | tick =>
      have hrest := ih (s.tick visit).2
      rw [s.tick_log visit, List.append_assoc] at hrest
      exact hrest
    | spawn task => exact ih (s.spawn task)
    | outside world => exact ih { s with world }

theorem roundsOf_eq_nil (visit : Visit T W) (s : Scheduler T W) (ops : List (Op T W)) :
    roundsOf visit s ops = [] ↔ .tick ∉ ops := by
  induction ops generalizing s with
  | nil => exact iff_of_true rfl List.not_mem_nil
  | cons o ops ih =>
    cases o with
    | tick => exact iff_of_false (List.cons_ne_nil _ _) (not_not_intro List.mem_cons_self)
    | spawn task =>
      show roundsOf visit (s.spawn task) ops = [] ↔ _
      rw [ih, List.mem_cons, not_or]
      exact ⟨fun h => ⟨by simp, h⟩, fun h => h.2⟩
    | outside world =>
      show roundsOf visit { s with world } ops = [] ↔ _
      rw [ih, List.mem_cons, not_or]
      exact ⟨fun h => ⟨by simp, h⟩, fun h => h.2⟩

/-- After a tick every task held is live. -/
theorem tick_held (hfits : Fits visit live) (s : Scheduler T W) :
    (s.tick visit).2.held live = (s.tick visit).2.tasks.map (·.id) := by
  have hlive : ∀ xs w, ∀ v ∈ (visits visit xs w).1, leaves v.2 = false → live v.1.task = true := by
    intro xs
    induction xs with
    | nil => exact fun w v hv => absurd hv List.not_mem_nil
    | cons x xs ih =>
      intro w v hv hleaves
      rcases List.mem_cons.mp hv with rfl | hv
      · exact hfits.stays x.task w hleaves
      · exact ih _ v hv hleaves
  rw [Scheduler.held, List.filter_eq_self.mpr]
  intro x hx
  obtain ⟨v, hv, rfl⟩ := List.mem_map.mp ((s.tick_kept visit).mem_iff.mp hx)
  obtain ⟨hv, hstays⟩ := List.mem_filter.mp hv
  exact hlive _ _ v hv (by simpa using hstays)

theorem stayers_stepsOf (vs : List (Boxed T × Option Suspension)) :
    stayers (· = .completed) (stepsOf vs) = (vs.filter (!leaves ·.2)).map (·.1.id) := by
  rw [stepsOf_kept, stayers]
  simp

/-- The ticks are rounds of the live tasks. -/
theorem rounds (hfits : Fits visit live) (s : Scheduler T W) {ops : List (Op T W)} (hops : NoSpawn ops) :
    Rounds (· = .completed) (s.held live) (roundsOf visit s ops) := by
  induction ops generalizing s with
  | nil => exact .nil
  | cons o ops ih =>
    have hrest : NoSpawn ops := fun task hmem => hops task (List.mem_cons_of_mem _ hmem)
    cases o with
    | spawn task => exact absurd List.mem_cons_self (hops task)
    | outside world => exact ih { s with world } hrest
    | tick =>
      refine .cons (stepsOf_order hfits s.tasks s.world) ?_ (ih (s.tick visit).2 hrest)
      rw [tick_held hfits s, stayers_stepsOf]
      have hkept := (s.tick_kept visit).map (·.id)
      rwa [List.map_map] at hkept

theorem eq_of_map_eq {α β : Type} {f : α → β} {l l' : List α} (hnodup : (l.map f).Nodup) (hperm : l'.Perm l)
    (h : l'.map f = l.map f) : l' = l := by
  refine List.ext_getElem hperm.length_eq fun i hi hi' => ?_
  have hb : i < (l.map f).length := by rwa [List.length_map]
  have hb' : i < (l'.map f).length := by rwa [List.length_map]
  have heq : (l'.map f)[i] = (l.map f)[i] := by simp only [h]
  rw [List.getElem_map, List.getElem_map] at heq
  exact List.inj_on_of_nodup_map hnodup (hperm.mem_iff.mp (List.getElem_mem hi)) (List.getElem_mem hi') heq

/-- A tick keeps the order of those that stay exactly if it is balanced. -/
theorem balanced_iff (hfits : Fits visit live) {s : Scheduler T W} (h : Numbered s) :
    (s.tick visit).2.held live = stayers (· = .completed) (stepsOf (s.turn visit)) ↔ Balanced visit s := by
  have hids : (((s.turn visit).filter (!leaves ·.2)).map (·.1.id)).Nodup := by
    have hturn := h.distinct
    rw [← s.turn_ids visit] at hturn
    exact hturn.sublist (List.filter_sublist.map _)
  rw [tick_held hfits, stayers_stepsOf, s.tick_tasks visit, List.map_map, Balanced,
    ← settle_eq_iff (q := fun v : Boxed T × Option Suspension => leaves v.2) hids.of_map]
  exact ⟨fun heq => eq_of_map_eq (f := (·.1.id)) hids (settle_perm _ _) heq, fun heq => congrArg (List.map (·.1.id)) heq⟩

theorem inOrder_iff (hfits : Fits visit live) {s : Scheduler T W} (h : Numbered s) {ops : List (Op T W)} (hops : NoSpawn ops) :
    InOrder (· = .completed) (roundsOf visit s ops) ↔
      ∀ pre post, ops = pre ++ .tick :: post → .tick ∈ post → Balanced visit (s.run visit pre) := by
  induction ops generalizing s with
  | nil =>
    refine iff_of_true List.isChain_nil fun pre post heq => ?_
    cases pre <;> cases heq
  | cons o ops ih =>
    have hrest : NoSpawn ops := fun task hmem => hops task (List.mem_cons_of_mem _ hmem)
    have hlater := ih (h.step hfits o) hrest
    -- the ticks behind the first call
    have hsplit : (∀ pre post, o :: ops = pre ++ .tick :: post → .tick ∈ post → Balanced visit (s.run visit pre)) ↔
        (o = .tick → .tick ∈ ops → Balanced visit s) ∧
          ∀ pre post, ops = pre ++ .tick :: post → .tick ∈ post → Balanced visit ((s.step visit o).run visit pre) := by
      constructor
      · intro hall
        refine ⟨fun ho hmem => hall [] ops (by rw [ho]; rfl) hmem, fun pre post heq hmem => ?_⟩
        exact hall (o :: pre) post (by rw [heq]; rfl) hmem
      · rintro ⟨hfirst, hall⟩ pre post heq hmem
        cases pre with
        | nil =>
          obtain ⟨rfl, rfl⟩ := List.cons.inj heq
          exact hfirst rfl hmem
        | cons o' pre =>
          obtain ⟨rfl, rfl⟩ := List.cons.inj heq
          exact hall pre post rfl hmem
    rw [hsplit, ← hlater]
    cases o with
    | spawn task => exact absurd List.mem_cons_self (hops task)
    | outside world => exact ⟨fun hin => ⟨fun heq => absurd heq (by simp), hin⟩, fun hin => hin.2⟩
    | tick =>
      have hrounds := rounds hfits (s.tick visit).2 hrest
      have hbalanced := balanced_iff hfits h
      show InOrder _ (stepsOf (s.turn visit) :: roundsOf visit (s.tick visit).2 ops) ↔
        _ ∧ InOrder _ (roundsOf visit (s.tick visit).2 ops)
      cases hnext : roundsOf visit (s.tick visit).2 ops with
      | nil =>
        have hnone := (roundsOf_eq_nil visit _ ops).mp hnext
        exact iff_of_true (List.isChain_singleton _) ⟨fun _ hmem => absurd hmem hnone, List.isChain_nil⟩
      | cons next rest =>
        have hsome : .tick ∈ ops := by
          by_contra hnone
          rw [(roundsOf_eq_nil visit _ ops).mpr hnone] at hnext
          cases hnext
        rw [hnext] at hrounds
        cases hrounds with
        | cons hheld _ _ =>
          rw [← hbalanced, ← hheld, InOrder, List.isChain_cons_cons]
          exact and_congr_left' ⟨fun heq _ _ => heq, fun heq => heq rfl hsome⟩

/-- The tasks keep their turns exactly if every tick but the last is balanced. -/
theorem Fits.keepsTurns_iff (hfits : Fits visit live) (w : W) (before : List (Op T W)) {after : List (Op T W)}
    (hafter : NoSpawn after) :
    KeepsTurns (· = .completed) (((Scheduler.new w).run visit before).held live)
        (((Scheduler.new w).run visit before).trace visit after) ↔
      ∀ pre post, after = pre ++ .tick :: post → .tick ∈ post →
        Balanced visit (((Scheduler.new w).run visit before).run visit pre) := by
  have h := (Numbered.new (T := T) w).run hfits before
  rw [trace_eq, ← inOrder_iff hfits h hafter]
  exact (rounds hfits _ hafter).keepsTurns_iff (h.distinct.sublist (List.filter_sublist.map _))

/-- Under both schedulers, while no task is spawned: between two steps of a task every other live one has one step,
    exactly if each tick that another follows is balanced. -/
theorem keeps_turns_iff {T W C D : Type} :
    (∀ (step : Step T W) (w : W) (before after : List (Op T W)), NoSpawn after →
      (KeepsTurns (· = .completed) (((Scheduler.new w).run (RoundRobin.visit step) before).held RoundRobin.live)
          (((Scheduler.new w).run (RoundRobin.visit step) before).trace (RoundRobin.visit step) after) ↔
        ∀ pre post, after = pre ++ .tick :: post → .tick ∈ post →
          Balanced (RoundRobin.visit step) (((Scheduler.new w).run (RoundRobin.visit step) before).run (RoundRobin.visit step) pre))) ∧
    ∀ (deadline : W → D) (resume : Resume C D W) (w : W) (before after : List (Op (Slot C D) W)), NoSpawn after →
      (KeepsTurns (· = .completed) (((Scheduler.new w).run (TimeSlice.visit deadline resume) before).held TimeSlice.live)
          (((Scheduler.new w).run (TimeSlice.visit deadline resume) before).trace (TimeSlice.visit deadline resume) after) ↔
        ∀ pre post, after = pre ++ .tick :: post → .tick ∈ post →
          Balanced (TimeSlice.visit deadline resume)
            (((Scheduler.new w).run (TimeSlice.visit deadline resume) before).run (TimeSlice.visit deadline resume) pre)) :=
  ⟨fun step w before _ hafter => (RoundRobin.fits step).keepsTurns_iff w before hafter,
    fun deadline resume w before _ hafter => (TimeSlice.fits deadline resume).keepsTurns_iff w before hafter⟩

/-! ## Three tasks, of which the first completes at once -/

/-- A task that completes in its `n`-th step. -/
def countdown : Step ℕ Unit := fun n w => (if n ≤ 1 then .completed else .yielded, n - 1, w)

/-- The same as a fiber. -/
def countdownFiber : Resume ℕ Unit Unit := fun slot w =>
  ({ slot with data := { slot.data with done := decide (slot.code ≤ 1) }, code := slot.code - 1 }, w)

def freshFiber (n : ℕ) : Slot ℕ Unit := ⟨.new 0, none, n⟩

/-- The third task is stepped twice before the second is stepped again. -/
theorem stepped_twice_in_a_row :
    ¬KeepsTurns (· = .completed)
      (((Scheduler.new ()).run (RoundRobin.visit countdown) [.spawn 1, .spawn 3, .spawn 3]).held RoundRobin.live)
      (((Scheduler.new ()).run (RoundRobin.visit countdown) [.spawn 1, .spawn 3, .spawn 3]).trace
        (RoundRobin.visit countdown) [.tick, .tick]) ∧
    ¬KeepsTurns (· = .completed)
      (((Scheduler.new ()).run (TimeSlice.visit (fun _ => ()) countdownFiber)
        [.spawn (freshFiber 1), .spawn (freshFiber 3), .spawn (freshFiber 3)]).held TimeSlice.live)
      (((Scheduler.new ()).run (TimeSlice.visit (fun _ => ()) countdownFiber)
        [.spawn (freshFiber 1), .spawn (freshFiber 3), .spawn (freshFiber 3)]).trace
        (TimeSlice.visit (fun _ => ()) countdownFiber) [.tick, .tick]) := by
  have hkey : ¬KeepsTurns (· = Suspension.completed) [0, 1, 2]
      [(0, .completed), (1, .yielded), (2, .yielded), (2, .yielded), (1, .yielded)] := fun h => by
    obtain ⟨e, he, hid, hgone⟩ := h.no_repeat [(0, .completed), (1, .yielded)] 2 .yielded .yielded [(1, .yielded)] rfl 1
      (by decide) (by decide)
    rcases List.mem_cons.mp he with rfl | he
    · exact absurd hid (by decide)
    · rw [List.mem_singleton.mp he] at hgone
      exact absurd hgone (by decide)
  exact ⟨hkey, hkey⟩

/-- Both ways for these tasks. -/
theorem keeps_turns_iff_countdown :
    (KeepsTurns (· = .completed)
        (((Scheduler.new ()).run (RoundRobin.visit countdown) [.spawn 1, .spawn 3, .spawn 3]).held RoundRobin.live)
        (((Scheduler.new ()).run (RoundRobin.visit countdown) [.spawn 1, .spawn 3, .spawn 3]).trace
          (RoundRobin.visit countdown) [.tick, .tick]) ↔
      ∀ pre post, [.tick, .tick] = pre ++ .tick :: post → .tick ∈ post → Balanced (RoundRobin.visit countdown)
        (((Scheduler.new ()).run (RoundRobin.visit countdown) [.spawn 1, .spawn 3, .spawn 3]).run
          (RoundRobin.visit countdown) pre)) ∧
    (KeepsTurns (· = .completed)
        (((Scheduler.new ()).run (TimeSlice.visit (fun _ => ()) countdownFiber) [.spawn (freshFiber 1)]).held TimeSlice.live)
        (((Scheduler.new ()).run (TimeSlice.visit (fun _ => ()) countdownFiber) [.spawn (freshFiber 1)]).trace
          (TimeSlice.visit (fun _ => ()) countdownFiber) [.tick]) ↔
      ∀ pre post, [.tick] = pre ++ .tick :: post → .tick ∈ post → Balanced (TimeSlice.visit (fun _ => ()) countdownFiber)
        (((Scheduler.new ()).run (TimeSlice.visit (fun _ => ()) countdownFiber) [.spawn (freshFiber 1)]).run
          (TimeSlice.visit (fun _ => ()) countdownFiber) pre)) :=
  ⟨keeps_turns_iff (C := Unit) (D := Unit).1 countdown () [.spawn 1, .spawn 3, .spawn 3] [.tick, .tick] (by simp [NoSpawn]),
    keeps_turns_iff (T := Unit).2 (fun _ => ()) countdownFiber () [.spawn (freshFiber 1)] [.tick] (by simp [NoSpawn])⟩

end Krio.Runtime
