import Mathlib.Logic.Function.Iterate
import Krio.Core
import Krio.Fibers.Data
import Krio.Lib.SwapRemove

/-! The schedulers that run on one thread: `RoundRobin` of `krio-runtime` and `TimeSliceScheduler` of `krio-preempt`.

What a task does when it is stepped is its own: a function of the task and of the world outside the scheduler. Both
schedulers go over their tasks in the same way and differ in what they do with each. -/

namespace Krio.Runtime
open Lib

/-- A task in its box. The number tells one box from another, and is no part of the program. -/
structure Boxed (T : Type) where
  id : ℕ
  task : T

/-- What the loop does with one task: what its step returned (`none` when it was not stepped), the task and the
    world. -/
abbrev Visit (T W : Type) := T → W → Option Suspension × T × W

/-- The vector of tasks, the world outside, and two things that the program does not keep: how many tasks were spawned,
    and which steps were made, each with what it returned. -/
structure Scheduler (T W : Type) where
  tasks : List (Boxed T)
  world : W
  spawned : ℕ
  log : List (ℕ × Suspension)

variable {T W : Type}

/-- The loop removes the tasks that complete and those that it finds finished. -/
def leaves : Option Suspension → Bool
  | some .completed => true
  | none => true
  | some _ => false

/-- The loop over `iter_mut().enumerate()` from index `i` on: the tasks, `to_remove`, the world and the steps. -/
def visitAll (visit : Visit T W) : ℕ → List (Boxed T) → W → List (Boxed T) × List ℕ × W × List (ℕ × Suspension)
  | _, [], w => ([], [], w, [])
  | i, x :: xs, w =>
    let (s, task, w) := visit x.task w
    let (xs, toRemove, w, log) := visitAll visit (i + 1) xs w
    (⟨x.id, task⟩ :: xs, if leaves s then i :: toRemove else toRemove, w, (s.map (x.id, ·)).toList ++ log)

namespace Scheduler

def new (world : W) : Scheduler T W := ⟨[], world, 0, []⟩

def spawn (s : Scheduler T W) (task : T) : Scheduler T W :=
  { s with tasks := s.tasks ++ [⟨s.spawned, task⟩], spawned := s.spawned + 1 }

def taskCount (s : Scheduler T W) : ℕ := s.tasks.length

def tick (visit : Visit T W) (s : Scheduler T W) : Bool × Scheduler T W :=
  if s.tasks.isEmpty then (false, s)
  else
    let (tasks, toRemove, world, log) := visitAll visit 0 s.tasks s.world
    let tasks := toRemove.reverse.foldl swapRemove tasks
    (!tasks.isEmpty, ⟨tasks, world, s.spawned, s.log ++ log⟩)

/-- The loop of `run_to_completion`, cut off after the given number of ticks (`none`): how many of them returned true. -/
def runToCompletion (visit : Visit T W) : ℕ → ℕ → Scheduler T W → Option (ℕ × Scheduler T W)
  | 0, _, _ => none
  | ticks + 1, rounds, s =>
    match s.tick visit with
    | (true, s) => runToCompletion visit ticks (rounds + 1) s
    | (false, s) => some (rounds, s)

end Scheduler

/-- `Task::step` is the caller's. -/
abbrev Step (T W : Type) := T → W → Suspension × T × W

def RoundRobin.visit (step : Step T W) : Visit T W := fun task w =>
  let (s, task, w) := step task w
  (some s, task, w)

/-- A scheduled fiber: what it carries between its resumes, its deadline, and its suspended code. -/
structure Slot (C D : Type) where
  data : Fibers.Data
  deadlineMs : Option D
  code : C

variable {C D : Type}

/-- What the fiber does from one resume to its next switch back is its own. -/
abbrev Resume (C D W : Type) := Slot C D → W → Slot C D × W

/-- `Task::step` of a fiber. -/
def Slot.step (resume : Resume C D W) (slot : Slot C D) (w : W) : Suspension × Slot C D × W :=
  let (slot, w) := resume slot w
  match slot.data.step with
  | .yielded => (.yielded, slot, w)
  | .done => (.completed, slot, w)
  | .errored => (.completed, slot, w)

/-- `deadline` reads the clock and adds the slice. -/
def TimeSlice.visit (deadline : W → D) (resume : Resume C D W) : Visit (Slot C D) W := fun slot w =>
  if slot.data.done then (none, slot, w)
  else
    let slot := { slot with deadlineMs := some (deadline w) }
    match slot.step resume w with
    | (.completed, slot, w) => (some .completed, slot, w)
    | (s, slot, w) => (some s, { slot with deadlineMs := none }, w)

/-- A fiber that is not done yields in its turn, or is done after it. -/
theorem TimeSlice.visit_live {deadline : W → D} {resume : Resume C D W} {slot slot' : Slot C D} {w w' : W}
    (h : slot.data.done = false) (hresume : resume { slot with deadlineMs := some (deadline w) } w = (slot', w')) :
    slot'.data.done = false ∧ visit deadline resume slot w = (some .yielded, { slot' with deadlineMs := none }, w') ∨
      slot'.data.done = true ∧ visit deadline resume slot w = (some .completed, slot', w') := by
  have hvisit : visit deadline resume slot w = match slot'.data.step with
      | .yielded => (some .yielded, { slot' with deadlineMs := none }, w')
      | .done => (some .completed, slot', w')
      | .errored => (some .completed, slot', w') := by
    simp only [visit, h, Bool.false_eq_true, if_false, Slot.step, hresume]
    cases slot'.data.step <;> rfl
  rw [hvisit, Fibers.Data.step]
  cases slot'.data.done with
  | false => exact .inl ⟨rfl, rfl⟩
  | true =>
    refine .inr ⟨rfl, ?_⟩
    cases slot'.data.errored <;> rfl

theorem TimeSlice.visit_done {deadline : W → D} {resume : Resume C D W} {slot : Slot C D} (w : W) (h : slot.data.done = true) :
    visit deadline resume slot w = (none, slot, w) := by
  rw [visit, if_pos h]

/-- What the owner of a scheduler does: spawn a task, let the scheduler tick, or change the world between two
    calls. -/
inductive Op (T W : Type)
  | spawn (task : T)
  | tick
  | outside (world : W)

namespace Scheduler

def step (visit : Visit T W) (s : Scheduler T W) : Op T W → Scheduler T W
  | .spawn task => s.spawn task
  | .tick => (s.tick visit).2
  | .outside world => { s with world }

def run (visit : Visit T W) (s : Scheduler T W) (ops : List (Op T W)) : Scheduler T W := ops.foldl (step visit) s

end Scheduler

/-! ## What a tick does -/

/-- The tasks as their visits leave them, one after the other, each with what the visit returned. -/
def visits (visit : Visit T W) : List (Boxed T) → W → List (Boxed T × Option Suspension) × W
  | [], w => ([], w)
  | x :: xs, w =>
    let (s, task, w) := visit x.task w
    let (vs, w) := visits visit xs w
    ((⟨x.id, task⟩, s) :: vs, w)

/-- The steps that the visits made. -/
def stepsOf (vs : List (Boxed T × Option Suspension)) : List (ℕ × Suspension) :=
  vs.filterMap fun v => v.2.map (v.1.id, ·)

variable {visit : Visit T W}

theorem visitAll_eq (visit : Visit T W) (i : ℕ) (xs : List (Boxed T)) (w : W) :
    visitAll visit i xs w = ((visits visit xs w).1.map (·.1), positionsFrom (leaves ·.2) i (visits visit xs w).1,
      (visits visit xs w).2, stepsOf (visits visit xs w).1) := by
  induction xs generalizing i w with
  | nil => rfl
  | cons x xs ih =>
    simp only [visitAll, visits, ih, positionsFrom, stepsOf, List.map_cons, List.filterMap_cons]
    cases (visit x.task w).1 with
    | none => rfl
    | some s => rfl

theorem visits_ids (visit : Visit T W) (xs : List (Boxed T)) (w : W) :
    (visits visit xs w).1.map (·.1.id) = xs.map (·.id) := by
  induction xs generalizing w with
  | nil => rfl
  | cons x xs ih => simp only [visits, List.map_cons, ih]

/-- The visits of the tick that comes next. -/
def Scheduler.turn (visit : Visit T W) (s : Scheduler T W) : List (Boxed T × Option Suspension) :=
  (visits visit s.tasks s.world).1

namespace Scheduler
variable (visit : Visit T W) (s : Scheduler T W)

/-- A tick visits every task once, and settles those that stay. -/
theorem tick_eq : s.tick visit = (!(settle (leaves ·.2) (s.turn visit)).isEmpty,
    ⟨(settle (leaves ·.2) (s.turn visit)).map (·.1), (visits visit s.tasks s.world).2, s.spawned,
      s.log ++ stepsOf (s.turn visit)⟩) := by
  rw [tick, turn]
  split
  · rename_i hempty
    obtain ⟨tasks, world, spawned, log⟩ := s
    obtain rfl : tasks = [] := List.isEmpty_iff.mp hempty
    simp [visits, settle, stepsOf]
  · have hmap : ∀ (is : List ℕ) (vs : List (Boxed T × Option Suspension)),
        is.foldr (fun i xs => swapRemove xs i) (vs.map (·.1)) = (is.foldr (fun i xs => swapRemove xs i) vs).map (·.1) := by
      intro is vs
      induction is with
      | nil => rfl
      | cons i is ih => rw [List.foldr_cons, List.foldr_cons, ih, swapRemove_map]
    have hsettle := foldr_swapRemove (fun v : Boxed T × Option Suspension => leaves v.2) (visits visit s.tasks s.world).1 []
    simp only [visitAll_eq, List.foldl_reverse, hmap]
    rw [List.length_nil, List.nil_append, List.nil_append] at hsettle
    rw [hsettle, List.isEmpty_map]

theorem turn_ids : (s.turn visit).map (·.1.id) = s.tasks.map (·.id) := visits_ids visit s.tasks s.world

theorem tick_log : (s.tick visit).2.log = s.log ++ stepsOf (s.turn visit) := by rw [tick_eq]

theorem tick_spawned : (s.tick visit).2.spawned = s.spawned := by rw [tick_eq]

theorem tick_tasks : (s.tick visit).2.tasks = (settle (leaves ·.2) (s.turn visit)).map (·.1) := by rw [tick_eq]

/-- Exactly the tasks that do not leave stay. -/
theorem tick_kept : (s.tick visit).2.tasks.Perm (((s.turn visit).filter (!leaves ·.2)).map (·.1)) := by
  rw [tick_tasks]
  exact (settle_perm _ _).map _

theorem tick_returns : (s.tick visit).1 = !(s.tick visit).2.tasks.isEmpty := by
  rw [tick_eq, List.isEmpty_map]

theorem run_concat (ops : List (Op T W)) (o : Op T W) : s.run visit (ops ++ [o]) = (s.run visit ops).step visit o :=
  List.foldl_concat _ _ _ _

end Scheduler

end Krio.Runtime
