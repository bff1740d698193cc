import Mathlib.Data.List.Basic

/-! What a fiber carries from one switch to the next: its flags and its four mailboxes, and what the host and the
fiber's own code read and write of them. -/

namespace Krio.Fibers

/-- A `Box<dyn Any>`. -/
structure AnyBox where
  type : ℕ
  value : ℕ
  deriving DecidableEq, Repr

def AnyBox.downcast (type : ℕ) (b : AnyBox) : Option ℕ := if b.type = type then some b.value else none

inductive FiberState
  | new
  | suspended
  | done
  | errored
  deriving DecidableEq, Repr

/-- Result of a single `resume` call. -/
inductive FiberStep
  | yielded
  | done
  | errored
  deriving DecidableEq, Repr

/-- What a resume call passes in: `resume`, `resume_with` and `resume_with_u64`. -/
inductive Input
  | none
  | any (v : AnyBox)
  | u64 (n : BitVec 64)
  deriving DecidableEq, Repr

/-- The fields of a `Fiber` that are no stack pointers. -/
structure Data where
  done : Bool
  errored : Bool
  started : Bool
  errorPayload : Option AnyBox
  cancelled : Bool
  inputSlot : Option AnyBox
  outputSlot : Option AnyBox
  inputU64 : Option (BitVec 64)
  outputU64 : Option (BitVec 64)
  id : BitVec 64
  deriving DecidableEq, Repr

/-- What the code of a host or of a fiber gets back from a call. -/
inductive Seen
  | panicked
  | unit
  | step (r : FiberStep)
  | state (x : FiberState)
  | bool (b : Bool)
  | id (n : Option (BitVec 64))
  | value (v : Option ℕ)
  | any (v : Option AnyBox)
  | u64 (n : Option (BitVec 64))
  /-- `yield_value` and `take_input`, with the type that the code expects. -/
  | input (type : ℕ) (v : Option ℕ)
  | inputU64 (n : Option (BitVec 64))
  | taken (type : ℕ) (v : Option ℕ)
  | takenU64 (n : Option (BitVec 64))
  deriving DecidableEq, Repr

/-- The functions of `Fiber` that do not switch. -/
inductive Access
  | state
  | isDone
  | id
  | cancel
  | isCancelled
  | takeError
  | takeYieldValue (type : ℕ)
  | takeYieldAny
  | takeYieldU64
  | hasYieldValue
  deriving DecidableEq, Repr

/-- The free functions that read the running fiber. -/
inductive Ask
  | takeInput (type : ℕ)
  | takeInputU64
  | currentFiberId
  | isCancelled
  deriving DecidableEq, Repr

namespace Data

def new (id : BitVec 64) : Data where
  done := false
  errored := false
  started := false
  errorPayload := none
  cancelled := false
  inputSlot := none
  outputSlot := none
  inputU64 := none
  outputU64 := none
  id := id

def state (d : Data) : FiberState :=
  match d.started, d.done, d.errored with
  | false, _, _ => .new
  | true, false, _ => .suspended
  | true, true, false => .done
  | true, true, true => .errored

/-- The end of `resume`. -/
def step (d : Data) : FiberStep :=
  match d.done, d.errored with
  | false, _ => .yielded
  | true, false => .done
  | true, true => .errored

/-- What `resume_with` and `resume_with_u64` do before they resume. -/
def fill (d : Data) : Input → Data
  | .none => d
  | .any v => { d with inputSlot := some v }
  | .u64 n => { d with inputU64 := some n }

def takeYieldValue (type : ℕ) (d : Data) : Seen × Data :=
  match d.outputSlot with
  | none => (.value none, d)
  -- A value of another type goes back into the slot.
  | some b => match b.downcast type with
    | some v => (.value (some v), { d with outputSlot := none })
    | none => (.value none, d)

def access (d : Data) : Access → Seen × Data
  | .state => (.state d.state, d)
  | .isDone => (.bool d.done, d)
  | .id => (.id (some d.id), d)
  | .cancel => (.unit, { d with cancelled := true })
  | .isCancelled => (.bool d.cancelled, d)
  | .takeError => (.any d.errorPayload, { d with errorPayload := none })
  | .takeYieldValue type => d.takeYieldValue type
  | .takeYieldAny => (.any d.outputSlot, { d with outputSlot := none })
  | .takeYieldU64 => (.u64 d.outputU64, { d with outputU64 := none })
  | .hasYieldValue => (.bool d.outputSlot.isSome, d)

def answer (d : Data) : Ask → Seen × Data
  | .takeInput type => (.taken type (d.inputSlot.bind (·.downcast type)), { d with inputSlot := none })
  | .takeInputU64 => (.takenU64 d.inputU64, { d with inputU64 := none })
  | .currentFiberId => (.id (some d.id), d)
  | .isCancelled => (.bool d.cancelled, d)

end Data

/-- What they return outside of any fiber. -/
def Ask.outside : Ask → Seen
  | .takeInput _ => .panicked
  | .takeInputU64 => .panicked
  | .currentFiberId => .id none
  | .isCancelled => .bool false

/-- What a fiber is in while it is suspended in `yield_now`, and who called that: with `fiber_ptr`, of type `ρ`. -/
inductive Yield (ρ : Type)
  | now
  | value (type : ℕ) (fiber : ρ)
  | u64 (fiber : ρ)
  deriving DecidableEq, Repr

end Krio.Fibers
