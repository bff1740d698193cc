import Mathlib.Data.List.AList
import Mathlib.Data.Finset.Basic
import Krio.Core
import Krio.Lib.Threads

/-! Waiting tasks and early wakes: `krio-parallel/src/parked.rs`.

Both maps are only touched under the spin lock `locked`, so what happens to them inside one critical
section is one step; `count` is read without the lock, so its store is a step of its own. -/

namespace Krio.Parallel
open Lib

structure Parked (α : Type) where
  locked : Bool
  tasks : AList fun _ : TaskId => α
  earlyWakes : Finset TaskId
  count : ℕ

namespace Parked
variable {α : Type}

/-- `Parked::new`. -/
def new : Parked α := ⟨false, ∅, ∅, 0⟩

/-- The tasks in the map. -/
def waiting (p : Parked α) : List α := p.tasks.entries.map fun e => e.2

def unlock (p : Parked α) : Parked α := { p with locked := false }

/-- `self.count.store(tasks.len())`. -/
def storeCount (p : Parked α) : Parked α := { p with count := p.tasks.entries.length }

/-- Control points of `park`; `raced` is whether a wake for the task had already arrived. -/
inductive ParkPc
  | lock
  | body
  | count
  | unlock (raced : Bool)
  deriving DecidableEq

/-- A step of `park(id, task)`; it returns whether the task is handed back. -/
def park (id : TaskId) (task : α) (p : Parked α) : ParkPc → Parked α × Out ParkPc Bool
  | .lock => if p.locked then (p, .next .lock) else ({ p with locked := true }, .next .body)
  | .body =>
    if id ∈ p.earlyWakes then ({ p with earlyWakes := p.earlyWakes.erase id }, .next (.unlock true))
    else ({ p with tasks := p.tasks.insert id task }, .next .count)
  | .count => (p.storeCount, .next (.unlock false))
  | .unlock raced => (p.unlock, .ret raced)

/-- Control points of `wake`; `task` is what it took from the map. -/
inductive WakePc (α : Type)
  | lock
  | body
  | count (task : α)
  | unlock (task : Option α)
  deriving DecidableEq

/-- A step of `wake(id)`. -/
def wake (id : TaskId) (p : Parked α) : WakePc α → Parked α × Out (WakePc α) (Option α)
  | .lock => if p.locked then (p, .next .lock) else ({ p with locked := true }, .next .body)
  | .body =>
    match p.tasks.lookup id with
    | none => ({ p with earlyWakes := insert id p.earlyWakes }, .next (.unlock none))
    | some task => ({ p with tasks := p.tasks.erase id }, .next (.count task))
  | .count task => (p.storeCount, .next (.unlock (some task)))
  | .unlock task => (p.unlock, .ret task)

/-! ### The tasks in the map -/

theorem waiting_insert {p q : Parked α} {id : TaskId} {task : α} (h : q.tasks = p.tasks.insert id task) (hid : id ∉ p.tasks) :
    q.waiting = task :: p.waiting := by
  rw [waiting, h, AList.entries_insert_of_notMem hid]
  rfl

theorem waiting_erase {p q : Parked α} {id : TaskId} {task : α} (hid : p.tasks.lookup id = some task)
    (h : q.tasks = p.tasks.erase id) : p.waiting.Perm (task :: q.waiting) := by
  have hmem : id ∈ p.tasks.entries.keys := AList.mem_keys.mp (AList.lookup_isSome.mp (by simp [hid]))
  obtain ⟨task', l₁, l₂, hl₁, hl, he⟩ := List.exists_of_kerase hmem
  have htask : task' = task := by
    have : p.tasks.entries.dlookup id = some task' := by
      rw [hl, List.dlookup_append, List.dlookup_eq_none.mpr hl₁, List.dlookup_cons_eq]
      rfl
    exact Option.some.inj (this.symm.trans hid)
  subst htask
  rw [waiting, waiting, h, hl]
  show (List.map _ (l₁ ++ ⟨id, task'⟩ :: l₂)).Perm (task' :: List.map _ (p.tasks.entries.kerase id))
  rw [he]
  simp

end Parked

end Krio.Parallel
