import Krio.Fibers.Machine

/-! What fibers are for, without addresses, stack pointers and hooks: coroutines that resume one another, the running
one on top of a stack, and what their code and the host's gets to see. -/

namespace Krio.Fibers

/-- What a coroutine does when it is resumed. -/
inductive Wait
  | start
  | yield (k : Yield Unit)
  deriving DecidableEq

/-- `wait` is `none` while the coroutine is active, and once it is done. -/
structure Coroutine where
  data : Data
  wait : Option Wait

inductive Phase
  | code
  /-- The coroutine on top has been resumed, and its code goes on. -/
  | entered (w : Wait)
  /-- The coroutine on top has given control back, and the code of its caller goes on. -/
  | left
  | stuck
  deriving DecidableEq

@[ext] structure Coroutines where
  get : Fid → Option Coroutine
  made : ℕ
  nextFiberId : BitVec 64
  stack : List Fid
  phase : Phase
  seen : List (Option Fid × Seen)

namespace Coroutines

def init : Coroutines where
  get _ := none
  made := 0
  nextFiberId := 1
  stack := []
  phase := .code
  seen := []

def free (A : Coroutines) (f : Fid) : Prop := A.get f ≠ none ∧ f ∉ A.stack

instance (A : Coroutines) (f : Fid) : Decidable (A.free f) :=
  decidable_of_iff ((A.get f).isSome = true ∧ f ∉ A.stack) (by rw [free, Option.isSome_iff_ne_none])

def saw (A : Coroutines) (x : Seen) : Coroutines := { A with seen := (A.stack.head?, x) :: A.seen }

def set (A : Coroutines) (f : Fid) (x : Coroutine) : Coroutines := { A with get := Function.update A.get f (some x) }

def new (A : Coroutines) : Coroutines :=
  { A with
    get := Function.update A.get A.made (some ⟨.new A.nextFiberId, some .start⟩)
    made := A.made + 1
    nextFiberId := A.nextFiberId + 1 }

def drop (A : Coroutines) (f : Fid) : Coroutines := { A with get := Function.update A.get f none }

def resume (A : Coroutines) (f : Fid) (input : Input) : Option Coroutines :=
  (A.get f).bind fun x =>
    let d := x.data.fill input
    if d.done then some ((A.set f ⟨d, x.wait⟩).saw .panicked)
    else x.wait.map fun w =>
      { A.set f ⟨{ d with started := true }, none⟩ with stack := f :: A.stack, phase := .entered w }

def access (A : Coroutines) (f : Fid) (q : Access) : Option Coroutines :=
  (A.get f).map fun x => (A.set f ⟨(x.data.access q).2, x.wait⟩).saw (x.data.access q).1

/-- The coroutine on top, if there is one. -/
def top (A : Coroutines) : Option (Fid × Coroutine) := A.stack.head?.bind fun f => (A.get f).map fun x => (f, x)

def ask (A : Coroutines) (q : Ask) : Coroutines :=
  match A.top with
  | none => A.saw q.outside
  | some (f, x) => (A.set f ⟨(x.data.answer q).2, x.wait⟩).saw (x.data.answer q).1

/-- The coroutine on top gives control back. -/
def leave (A : Coroutines) (d : Data → Data) (w : Option Wait) : Coroutines :=
  match A.top with
  | none => A.saw .panicked
  | some (f, x) => { A.set f ⟨d x.data, w⟩ with phase := .left }

def enter (A : Coroutines) (w : Wait) : Coroutines :=
  match A.top with
  | none => { A with phase := .stuck }
  | some (f, x) => match w with
    | .start => { A with phase := .code }
    | .yield .now => { A.saw .unit with phase := .code }
    | .yield (.value type _) =>
      { (A.set f ⟨{ x.data with inputSlot := none }, x.wait⟩).saw
          (.input type (x.data.inputSlot.bind (·.downcast type))) with phase := .code }
    | .yield (.u64 _) =>
      { (A.set f ⟨{ x.data with inputU64 := none }, x.wait⟩).saw (.inputU64 x.data.inputU64) with phase := .code }

def back (A : Coroutines) : Coroutines :=
  match A.top with
  | none => { A with phase := .stuck }
  | some (_, x) =>
    { A with stack := A.stack.tail, phase := .code, seen := (A.stack.tail.head?, .step x.data.step) :: A.seen }

/-- What the running code calls; moving a coroutine is no call. -/
def call (A : Coroutines) : Op → Option Coroutines
  | .new _ => some A.new
  | .drop f => if A.free f then some (A.drop f) else none
  | .resume f input => if A.free f then A.resume f input else none
  | .access f q => if A.free f then A.access f q else none
  | .ask q => some (A.ask q)
  | .yieldNow => some (A.leave id (some (.yield .now)))
  | .yieldValue v type => some (A.leave (fun d => { d with outputSlot := some v }) (some (.yield (.value type ()))))
  | .yieldU64 n => some (A.leave (fun d => { d with outputU64 := some n }) (some (.yield (.u64 ()))))
  | .finish => if A.stack = [] then none else some (A.leave (fun d => { d with done := true }) none)
  | .panic p =>
    if A.stack = [] then none
    else some (A.leave (fun d => { d with errored := true, errorPayload := some p, done := true }) none)
  | .move _ _ | .go => none

def step (A : Coroutines) (o : Op) : Option Coroutines :=
  match A.phase with
  | .code => A.call o
  | .entered w => if o = .go then some (A.enter w) else none
  | .left => if o = .go then some A.back else none
  | .stuck => none

end Coroutines

end Krio.Fibers
