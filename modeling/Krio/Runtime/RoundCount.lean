import Krio.Runtime.Order

/-! What `run_to_completion` returns. A tick says whether tasks are left behind it, so the loop does not count the round
in which the last one completes. -/

namespace Krio.Runtime
open Lib

variable {T W C D : Type} {visit : Visit T W} {live : T → Bool} {s : Scheduler T W} {k : ℕ → ℕ}

/-- In the ticks to come, the `k id`-th step of task `id` completes it, and no earlier one does. -/
def Needs (visit : Visit T W) (s : Scheduler T W) (k : ℕ → ℕ) : Prop :=
  ∀ n pre id a post, s.trace visit (List.replicate n .tick) = pre ++ (id, a) :: post →
    (a = .completed ↔ (pre.map (·.1)).count id + 1 = k id)

/-- The largest number that one of the tasks needs. -/
def Scheduler.most (s : Scheduler T W) (k : ℕ → ℕ) : ℕ := (s.tasks.map (k ·.id)).foldr max 0

/-- In how many of the next ticks a task is stepped. -/
def Scheduler.busy (visit : Visit T W) (s : Scheduler T W) (ticks : ℕ) : ℕ :=
  (roundsOf visit s (List.replicate ticks .tick)).countP (!·.isEmpty)

theorem foldr_max_le_iff {l : List ℕ} {b : ℕ} : l.foldr max 0 ≤ b ↔ ∀ a ∈ l, a ≤ b := by
  induction l with
  | nil => simp
  | cons a l ih => rw [List.foldr_cons, max_le_iff, ih, List.forall_mem_cons]

theorem most_le_iff {b : ℕ} : s.most k ≤ b ↔ ∀ id ∈ s.tasks.map (·.id), k id ≤ b := by
  rw [Scheduler.most, foldr_max_le_iff, List.forall_mem_map, List.forall_mem_map]

theorem most_eq_zero_iff (hpos : ∀ id ∈ s.tasks.map (·.id), 1 ≤ k id) : s.most k = 0 ↔ s.tasks = [] := by
  rw [← Nat.le_zero, most_le_iff]
  constructor
  · intro h
    refine List.eq_nil_iff_forall_not_mem.mpr fun x hx => ?_
    have hle := h x.id (List.mem_map_of_mem hx)
    have hone := hpos x.id (List.mem_map_of_mem hx)
    omega
  · intro h id hid
    rw [h] at hid
    cases hid

theorem trace_tick (visit : Visit T W) (s : Scheduler T W) (n : ℕ) :
    s.trace visit (List.replicate (n + 1) .tick) =
      stepsOf (s.turn visit) ++ (s.tick visit).2.trace visit (List.replicate n .tick) := by
  rw [trace_eq, trace_eq, List.replicate_succ, roundsOf, List.flatten_cons]

theorem noSpawn_ticks (n : ℕ) : NoSpawn (List.replicate n .tick : List (Op T W)) := fun task hmem => by
  cases List.eq_of_mem_replicate hmem

theorem le_most {id : ℕ} (h : id ∈ s.tasks.map (·.id)) : k id ≤ s.most k := most_le_iff.mp le_rfl id h

section
variable (hfits : Fits visit live) (h : Numbered s) (hlive : ∀ x ∈ s.tasks, live x.task = true) (hneeds : Needs visit s k)
include hfits hlive

/-- All tasks are stepped, each once. -/
theorem steps_ids : (stepsOf (s.turn visit)).map (·.1) = s.tasks.map (·.id) := by
  rw [(turned hfits s).order, List.filter_eq_self.mpr hlive]

include h hneeds

/-- The tasks that need one step complete. -/
theorem completes_iff {id : ℕ} {a : Suspension} (hin : (id, a) ∈ stepsOf (s.turn visit)) : a = .completed ↔ k id = 1 := by
  obtain ⟨pre, post, hsplit⟩ := List.append_of_mem hin
  have htrace : s.trace visit (List.replicate 1 .tick) = pre ++ (id, a) :: post := by
    rw [trace_tick, hsplit, trace_eq]
    exact List.append_nil _
  have hids := h.distinct
  rw [← steps_ids hfits hlive, hsplit, List.map_append, List.map_cons] at hids
  have hnot : id ∉ pre.map (·.1) := fun hmem => (List.nodup_append.mp hids).2.2 id hmem id List.mem_cons_self rfl
  have hiff := hneeds 1 pre id a post htrace
  rw [List.count_eq_zero_of_not_mem hnot, Nat.zero_add] at hiff
  exact hiff.trans eq_comm

/-- The others stay, and need one step less. -/
theorem mem_tick_iff {id : ℕ} : id ∈ (s.tick visit).2.tasks.map (·.id) ↔ id ∈ s.tasks.map (·.id) ∧ k id ≠ 1 := by
  rw [(turned hfits s).kept.mem_iff, List.mem_map, ← steps_ids hfits hlive, List.mem_map]
  constructor
  · rintro ⟨⟨id', a⟩, he, rfl⟩
    obtain ⟨he, hne⟩ := List.mem_filter.mp he
    refine ⟨⟨_, he, rfl⟩, fun hone => ?_⟩
    exact of_decide_eq_true hne ((completes_iff hfits h hlive hneeds he).mpr hone)
  · rintro ⟨⟨⟨id', a⟩, he, rfl⟩, hne⟩
    refine ⟨(id', a), List.mem_filter.mpr ⟨he, decide_eq_true fun ha => hne ?_⟩, rfl⟩
    exact (completes_iff hfits h hlive hneeds he).mp ha

theorem needs_tick : Needs visit (s.tick visit).2 (k · - 1) := by
  intro n pre id a post htrace
  have hiff := hneeds (n + 1) (stepsOf (s.turn visit) ++ pre) id a post (by rw [trace_tick, htrace, List.append_assoc])
  have hin : id ∈ (s.tick visit).2.held live := by
    refine Rounds.subset (rounds hfits _ (noSpawn_ticks n)) (id, a) ?_
    rw [← trace_eq, htrace]
    exact List.mem_append_right _ List.mem_cons_self
  rw [tick_held hfits, mem_tick_iff hfits h hlive hneeds] at hin
  have hids := h.distinct
  rw [← steps_ids hfits hlive] at hids hin
  rw [List.map_append, List.count_append, List.count_eq_one_of_mem hids hin.1] at hiff
  rw [hiff]
  show 1 + (pre.map (·.1)).count id + 1 = k id ↔ (pre.map (·.1)).count id + 1 = k id - 1
  omega

theorem most_tick : (s.tick visit).2.most (k · - 1) = s.most k - 1 := by
  have hmem : ∀ id, id ∈ (s.tick visit).2.tasks.map (·.id) ↔ id ∈ s.tasks.map (·.id) ∧ k id ≠ 1 :=
    fun _ => mem_tick_iff hfits h hlive hneeds
  refine le_antisymm (most_le_iff.mpr fun id hid => ?_) (Nat.sub_le_of_le_add (most_le_iff.mpr fun id hid => ?_))
  · have hle := le_most (k := k) ((hmem id).mp hid).1
    exact Nat.sub_le_sub_right hle 1
  · by_cases hone : k id = 1
    · omega
    · have hle := le_most (k := (k · - 1)) ((hmem id).mpr ⟨hid, hone⟩)
      omega

end

/-- The loop runs as many ticks as the longest task needs, and counts all but the last. -/
theorem runs_most (hfits : Fits visit live) (h : Numbered s) (hlive : ∀ x ∈ s.tasks, live x.task = true)
    (hpos : ∀ id ∈ s.tasks.map (·.id), 1 ≤ k id) (hneeds : Needs visit s k) (rounds : ℕ) :
    ∃ ticks s', s.runToCompletion visit ticks rounds = some (rounds + (s.most k - 1), s') ∧ s'.tasks = [] ∧
      s.busy visit (s.most k - 1 + 1) = s.most k := by
  induction hmost : s.most k generalizing s k rounds with
  | zero =>
    have hnil := (most_eq_zero_iff hpos).mp hmost
    have htick := s.tick_nil visit hnil
    refine ⟨1, s, by rw [Scheduler.runToCompletion, htick]; rfl, hnil, ?_⟩
    have hturn : s.turn visit = [] := by
      rw [Scheduler.turn, hnil]
      rfl
    simp [Scheduler.busy, roundsOf, hturn, stepsOf]
  | succ m ih =>
    have hne : s.tasks ≠ [] := fun hnil => by
      rw [(most_eq_zero_iff hpos).mpr hnil] at hmost
      cases hmost
    have hm : (s.tick visit).2.most (k · - 1) = m := by rw [most_tick hfits h hlive hneeds, hmost, Nat.add_sub_cancel]
    have hmem : ∀ id, id ∈ (s.tick visit).2.tasks.map (·.id) ↔ id ∈ s.tasks.map (·.id) ∧ k id ≠ 1 :=
      fun _ => mem_tick_iff hfits h hlive hneeds
    have hpos' : ∀ id ∈ (s.tick visit).2.tasks.map (·.id), 1 ≤ k id - 1 := fun id hid => by
      obtain ⟨hid, hone⟩ := (hmem id).mp hid
      have hle := hpos id hid
      omega
    have hlive' : ∀ x ∈ (s.tick visit).2.tasks, live x.task = true := by
      have hheld := tick_held hfits s
      intro x hx
      have hin : x.id ∈ (s.tick visit).2.held live := hheld ▸ List.mem_map_of_mem hx
      obtain ⟨y, hy, heq⟩ := List.mem_map.mp hin
      obtain ⟨hy, hylive⟩ := List.mem_filter.mp hy
      rwa [List.inj_on_of_nodup_map (h.tick hfits).distinct hx hy heq.symm]
    obtain ⟨ticks, s', hrun, hnil, hbusy⟩ := ih (h.tick hfits) hlive' hpos' (needs_tick hfits h hlive hneeds) (rounds + 1) hm
    have hsteps : (stepsOf (s.turn visit)).isEmpty = false := by
      have hids := steps_ids hfits hlive
      cases hs : stepsOf (s.turn visit) with
      | nil =>
        rw [hs] at hids
        exact absurd (List.map_eq_nil_iff.mp hids.symm) hne
      | cons e es => rfl
    have hcount : ∀ n, s.busy visit (n + 1) = (s.tick visit).2.busy visit n + 1 := fun n => by
      rw [Scheduler.busy, List.replicate_succ, roundsOf, List.countP_cons_of_pos (by rw [hsteps]; rfl)]
      rfl
    have hreturns := s.tick_returns visit
    rw [Nat.add_sub_cancel]
    cases m with
    | zero =>
      have hend : (s.tick visit).2.tasks = [] := (most_eq_zero_iff hpos').mp hm
      rw [hend] at hreturns
      refine ⟨1, (s.tick visit).2, ?_, hend, ?_⟩
      · rw [Scheduler.runToCompletion, ← Prod.mk.eta (p := s.tick visit), hreturns]
        rfl
      · rw [hcount]
        rfl
    | succ m =>
      have hmore : (s.tick visit).2.tasks.isEmpty = false := by
        cases hs : (s.tick visit).2.tasks with
        | nil =>
          rw [(most_eq_zero_iff hpos').mpr hs] at hm
          cases hm
        | cons x xs => rfl
      rw [hmore] at hreturns
      refine ⟨ticks + 1, s', ?_, hnil, ?_⟩
      · rw [Scheduler.runToCompletion, ← Prod.mk.eta (p := s.tick visit), hreturns]
        rw [Nat.add_sub_cancel, Nat.add_right_comm] at hrun
        exact hrun
      · rw [Nat.add_sub_cancel] at hbusy
        rw [hcount, hbusy]

/-- `run_to_completion` of a `TimeSliceScheduler` whose fibers need `k` resumes returns, and what it returns is one less
    than the number of rounds in which fibers were resumed; so it is that number only if there are no fibers. -/
theorem round_count_iff (deadline : W → D) (resume : Resume C D W) {s : Scheduler (Slot C D) W} {k : ℕ → ℕ}
    (hs : ∃ w ops, s = (Scheduler.new w).run (TimeSlice.visit deadline resume) ops)
    (hlive : ∀ x ∈ s.tasks, x.task.data.done = false) (hpos : ∀ x ∈ s.tasks, 1 ≤ k x.id)
    (hneeds : Needs (TimeSlice.visit deadline resume) s k) :
    ∃ ticks rounds s', s.runToCompletion (TimeSlice.visit deadline resume) ticks 0 = some (rounds, s') ∧ s'.tasks = [] ∧
      s.busy (TimeSlice.visit deadline resume) (rounds + 1) = s.most k ∧ rounds = s.most k - 1 ∧
      (rounds = s.most k ↔ s.tasks = []) := by
  obtain ⟨w, ops, rfl⟩ := hs
  have hfits := TimeSlice.fits deadline resume
  have h := (Numbered.new (T := Slot C D) w).run hfits ops
  have hpos' : ∀ id ∈ ((Scheduler.new w).run (TimeSlice.visit deadline resume) ops).tasks.map (·.id), 1 ≤ k id :=
    List.forall_mem_map.mpr hpos
  obtain ⟨ticks, s', hrun, hnil, hbusy⟩ := runs_most hfits h (fun x hx => by rw [TimeSlice.live, hlive x hx]; rfl) hpos' hneeds 0
  rw [Nat.zero_add] at hrun
  refine ⟨ticks, _, s', hrun, hnil, hbusy, rfl, ?_⟩
  rw [← most_eq_zero_iff hpos']
  omega

theorem trace_nil (visit : Visit T W) (h : s.tasks = []) (n : ℕ) : s.trace visit (List.replicate n .tick) = [] := by
  induction n with
  | zero =>
    rw [trace_eq]
    rfl
  | succ n ih =>
    have hturn : s.turn visit = [] := by
      rw [Scheduler.turn, h]
      rfl
    rw [trace_tick, hturn, s.tick_nil visit h, ih]
    rfl

theorem trace_prefix (visit : Visit T W) (s : Scheduler T W) (m n : ℕ) :
    s.trace visit (List.replicate n .tick) <+: s.trace visit (List.replicate (n + m) .tick) := by
  induction n generalizing s with
  | zero =>
    rw [trace_eq]
    exact List.nil_prefix
  | succ n ih =>
    rw [Nat.add_right_comm, trace_tick, trace_tick]
    exact (List.prefix_append_right_inj _).mpr (ih _)

/-- Ticks behind the one that leaves no task step none. -/
theorem trace_of_finished {n : ℕ} (h : (s.run visit (List.replicate n .tick)).tasks = []) (m : ℕ) :
    s.trace visit (List.replicate (n + m) .tick) = s.trace visit (List.replicate n .tick) := by
  induction n generalizing s with
  | zero => rw [Nat.zero_add, trace_nil visit (s := s) h, trace_eq, List.replicate_zero, roundsOf, List.flatten_nil]
  | succ n ih =>
    have hrest := ih (s := (s.tick visit).2) h
    rw [Nat.add_right_comm, trace_tick, trace_tick, hrest]

/-- To see what the tasks need, look at the ticks until none is left. -/
theorem needs_of_finished {n : ℕ} (h : (s.run visit (List.replicate n .tick)).tasks = [])
    (hlast : ∀ i ∈ List.range (s.trace visit (List.replicate n .tick)).length,
      ∀ e ∈ (s.trace visit (List.replicate n .tick))[i]?,
        (e.2 = .completed ↔ (((s.trace visit (List.replicate n .tick)).take i).map (·.1)).count e.1 + 1 = k e.1)) :
    Needs visit s k := by
  intro m pre id a post htrace
  have hprefix := trace_prefix visit s n m
  rw [Nat.add_comm m, trace_of_finished h, htrace] at hprefix
  obtain ⟨rest, hall⟩ := hprefix
  rw [List.append_assoc, List.cons_append] at hall
  have htake : (s.trace visit (List.replicate n .tick)).take pre.length = pre := by rw [← hall, List.take_left]
  have hget : (s.trace visit (List.replicate n .tick))[pre.length]? = some (id, a) := by
    rw [← hall, List.getElem?_append_right le_rfl, Nat.sub_self, List.getElem?_cons_zero]
  have hlt : pre.length < (s.trace visit (List.replicate n .tick)).length := (List.getElem?_eq_some_iff.mp hget).1
  have hiff := hlast pre.length (List.mem_range.mpr hlt) (id, a) hget
  rwa [htake] at hiff

/-- A scheduler of one fiber, which finishes in its first resume. -/
def oneFiber : Scheduler (Slot ℕ Unit) Unit :=
  (Scheduler.new ()).run (TimeSlice.visit (fun _ => ()) countdownFiber) [.spawn (freshFiber 1)]

/-- One round takes place, and the count is zero. -/
theorem last_round_not_counted :
    Needs (TimeSlice.visit (fun _ => ()) countdownFiber) oneFiber (fun _ => 1) ∧ oneFiber.most (fun _ => 1) = 1 ∧
      (∃ s', oneFiber.runToCompletion (TimeSlice.visit (fun _ => ()) countdownFiber) 1 0 = some (0, s')) ∧
      oneFiber.busy (TimeSlice.visit (fun _ => ()) countdownFiber) 1 = 1 := by
  have hneeds : Needs (TimeSlice.visit (fun _ => ()) countdownFiber) oneFiber (fun _ => 1) :=
    needs_of_finished (n := 1) rfl (by decide +kernel)
  exact ⟨hneeds, rfl, ⟨_, rfl⟩, rfl⟩

/-- Three fibers, which finish in different rounds. -/
def threeFibers : Scheduler (Slot ℕ Unit) Unit :=
  (Scheduler.new ()).run (TimeSlice.visit (fun _ => ()) countdownFiber)
    [.spawn (freshFiber 1), .spawn (freshFiber 3), .spawn (freshFiber 2)]

/-- How many resumes each of them needs. -/
def threeNeeds (id : ℕ) : ℕ := [1, 3, 2].getD id 1

/-- Three rounds take place, and the count is two. -/
theorem round_count_iff_threeFibers :
    ∃ ticks rounds s', threeFibers.runToCompletion (TimeSlice.visit (fun _ => ()) countdownFiber) ticks 0 = some (rounds, s') ∧
      s'.tasks = [] ∧ threeFibers.busy (TimeSlice.visit (fun _ => ()) countdownFiber) (rounds + 1) = 3 ∧ rounds = 2 ∧
      (rounds = 3 ↔ threeFibers.tasks = []) :=
  round_count_iff (fun _ => ()) countdownFiber ⟨(), _, rfl⟩ (by decide +kernel) (by decide +kernel)
    (needs_of_finished (n := 3) rfl (by decide +kernel) : Needs _ threeFibers threeNeeds)

end Krio.Runtime
