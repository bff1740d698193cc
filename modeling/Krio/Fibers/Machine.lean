import Krio.Fibers.Data
import Krio.Lib.Runs
import Mathlib.Logic.Function.Basic

/-! Fibers and the switches between them. A `Fiber` is a value that lies at an address and can be moved; the
trampoline state behind it is pinned to the heap, and points back into the fiber from one `resume` to the next. The
code of the host and of the fibers is arbitrary: a step is any call that the running code may make, or what follows
a switch until user code runs again. -/

namespace Krio.Fibers

/-- A fiber, and its trampoline state: the n-th one made. -/
abbrev Fid := ℕ
abbrev Addr := ℕ
/-- A saved stack pointer. Each switch saves a new one. -/
abbrev Sp := ℕ

structure Fiber where
  fiberSp : Option Sp
  callerSp : Option Sp
  data : Data

/-- Pointers into the fiber are its address. `closure` says whether the closure is still there. -/
structure TrampolineState where
  closure : Bool
  doneFlag : Option Addr
  erroredFlag : Option Addr
  errorPayloadSlot : Option Addr
  callerSpSlot : Option Addr
  fiberSpSlot : Option Addr

/-- `ACTIVE_TRAMPOLINE` and `ACTIVE_FIBER`. -/
structure Hooks where
  trampoline : Option Fid
  fiber : Option Addr
  deriving DecidableEq, Repr

/-- A ghost: a call of `resume`, who made it, and the hooks it found. -/
structure Call where
  id : ℕ
  caller : Option Fid
  fiber : Fid
  input : Input
  hooks : Hooks
  deriving DecidableEq, Repr

/-- Where a stack is when it switches away. -/
inductive Pc
  /-- Nowhere yet: the trampoline comes next. -/
  | run
  | resume (self : Addr) (prevActive : Option Fid) (prevFiber : Option Addr) (call : Call)
  | yieldNow (k : Yield Addr)
  /-- In the loop at the end of `fiber_run`. -/
  | finished
  deriving DecidableEq

/-- A saved context: whose stack it is, the host's being `none`. -/
structure Ctx where
  stack : Option Fid
  pc : Pc
  deriving DecidableEq

inductive Ctl
  | code (on : Option Fid)
  /-- Just switched to. -/
  | at (c : Ctx)
  /-- A pointer was used that points to no fiber, or to no saved context. -/
  | ub
  deriving DecidableEq

inductive Event
  | called (c : Call)
  | returned (c : Call) (r : FiberStep) (hooks : Hooks)
  | saw (on : Option Fid) (x : Seen)
  deriving DecidableEq

/-- `mem` says which fiber lies at an address, and `home` where a fiber lies; `trace` is a ghost, latest first. -/
structure State where
  mem : Addr → Option Fid
  home : Fid → Option Addr
  fibers : Fid → Fiber
  boxes : Fid → TrampolineState
  created : ℕ
  nextFiberId : BitVec 64
  ctxs : Sp → Option Ctx
  nextSp : Sp
  hooks : Hooks
  ctl : Ctl
  calls : ℕ
  trace : List Event

/-- The calls of `resume` that have not returned, latest first. -/
def activeCalls : List Event → List Call
  | [] => []
  | .called c :: t => c :: activeCalls t
  | .returned c _ _ :: t => (activeCalls t).filter (·.id ≠ c.id)
  | .saw _ _ :: t => activeCalls t

/-- The latest call that resumed `f`. -/
def lastCall (f : Fid) : List Event → Option Call
  | [] => none
  | .called c :: t => if c.fiber = f then some c else lastCall f t
  | _ :: t => lastCall f t

inductive Op
  /-- `Fiber::new`, with the result at address `a`. -/
  | new (a : Addr)
  | move (f : Fid) (a : Addr)
  | drop (f : Fid)
  | resume (f : Fid) (input : Input)
  | access (f : Fid) (q : Access)
  | ask (q : Ask)
  | yieldNow
  | yieldValue (v : AnyBox) (type : ℕ)
  | yieldU64 (n : BitVec 64)
  /-- The closure returns. -/
  | finish
  | panic (p : AnyBox)
  /-- What follows a switch. -/
  | go
  deriving DecidableEq

namespace State

def init : State where
  mem _ := none
  home _ := none
  fibers _ := ⟨none, none, .new 0⟩
  boxes _ := ⟨false, none, none, none, none, none⟩
  created := 0
  nextFiberId := 1
  ctxs _ := none
  nextSp := 0
  hooks := ⟨none, none⟩
  ctl := .code none
  calls := 0
  trace := []

def active (s : State) : List Call := activeCalls s.trace

/-- A fiber that can be borrowed: it has not been dropped, and no `resume` on it, which borrows it mutably, is active. -/
def free (s : State) (f : Fid) : Prop := s.home f ≠ none ∧ ∀ c ∈ s.active, c.fiber ≠ f

instance (s : State) (f : Fid) : Decidable (s.free f) := inferInstanceAs (Decidable (_ ∧ _))

def crash (s : State) : State := { s with ctl := .ub }

def saw (s : State) (on : Option Fid) (x : Seen) : State := { s with trace := .saw on x :: s.trace }

def setFiber (s : State) (f : Fid) (x : Fiber) : State := { s with fibers := Function.update s.fibers f x }

def setData (s : State) (f : Fid) (d : Data) : State := s.setFiber f { s.fibers f with data := d }

/-- Save a context under a new stack pointer. -/
def save (s : State) (c : Ctx) : State :=
  { s with ctxs := Function.update s.ctxs s.nextSp (some c), nextSp := s.nextSp + 1 }

/-- Continue a saved context. -/
def load (s : State) (sp : Option Sp) : State :=
  match sp with
  | none => s.crash
  | some sp => match s.ctxs sp with
    | none => s.crash
    | some c => { s with ctxs := Function.update s.ctxs sp none, ctl := .at c }

/-- `krio_fiber_switch`, into the fiber: `resume` saves to `caller_sp` and loads from `fiber_sp`. -/
def switchIn (s : State) (caller fiber : Addr) (c : Ctx) : State :=
  match s.mem caller, s.mem fiber with
  | some f, some g =>
    ((s.setFiber f { s.fibers f with callerSp := some s.nextSp }).save c).load (s.fibers g).fiberSp
  | _, _ => s.crash

/-- `krio_fiber_switch`, out of the fiber: `yield_now` and `fiber_run` save to `fiber_sp` and load from `caller_sp`. -/
def switchOut (s : State) (b : TrampolineState) (c : Ctx) : State :=
  match b.fiberSpSlot.bind s.mem, b.callerSpSlot.bind s.mem with
  | some f, some g =>
    ((s.setFiber f { s.fibers f with fiberSp := some s.nextSp }).save c).load (s.fibers g).callerSp
  | _, _ => s.crash

/-- `Fiber::new`, and the frame that `prepare_initial_stack` lays out. -/
def new (s : State) (a : Addr) : State :=
  { s with
    mem := Function.update s.mem a (some s.created)
    home := Function.update s.home s.created (some a)
    fibers := Function.update s.fibers s.created ⟨some s.nextSp, none, .new s.nextFiberId⟩
    boxes := Function.update s.boxes s.created ⟨true, none, none, none, none, none⟩
    created := s.created + 1
    nextFiberId := s.nextFiberId + 1
    ctxs := Function.update s.ctxs s.nextSp (some ⟨some s.created, .run⟩)
    nextSp := s.nextSp + 1 }

def move (s : State) (f : Fid) (a b : Addr) : State :=
  { s with mem := Function.update (Function.update s.mem a none) b (some f), home := Function.update s.home f (some b) }

def drop (s : State) (f : Fid) (a : Addr) : State :=
  { s with mem := Function.update s.mem a none, home := Function.update s.home f none }

/-- `Fiber::resume` on the fiber `f` at `a`, after `resume_with` or `resume_with_u64` has put its input there. -/
def resume (s : State) (on : Option Fid) (f : Fid) (a : Addr) (input : Input) : State :=
  let s := s.setData f ((s.fibers f).data.fill input)
  if (s.fibers f).data.done then s.saw on .panicked
  else
    let c : Call := ⟨s.calls, on, f, input, s.hooks⟩
    { s.setData f { (s.fibers f).data with started := true } with
      boxes := Function.update s.boxes f ⟨(s.boxes f).closure, some a, some a, some a, some a, some a⟩
      hooks := ⟨some f, some a⟩
      calls := s.calls + 1
      trace := .called c :: s.trace }.switchIn a a ⟨on, .resume a s.hooks.trampoline s.hooks.fiber c⟩

def yieldNow (s : State) (on : Option Fid) (k : Yield Addr) : State :=
  match s.hooks.trampoline with
  | none => s.saw on .panicked
  | some b => s.switchOut (s.boxes b) ⟨on, .yieldNow k⟩

/-- Call `k` on what `ACTIVE_FIBER` points to. -/
def withFiber (s : State) (p : Addr) (k : Fid → State) : State :=
  match s.mem p with
  | none => s.crash
  | some f => k f

def yieldValue (s : State) (on : Option Fid) (v : AnyBox) (type : ℕ) : State :=
  match s.hooks.fiber with
  | none => s.saw on .panicked
  | some p => s.withFiber p fun f =>
    (s.setData f { (s.fibers f).data with outputSlot := some v }).yieldNow on (.value type p)

def yieldU64 (s : State) (on : Option Fid) (n : BitVec 64) : State :=
  match s.hooks.fiber with
  | none => s.saw on .panicked
  | some p => s.withFiber p fun f =>
    (s.setData f { (s.fibers f).data with outputU64 := some n }).yieldNow on (.u64 p)

/-- `take_input`, `take_input_u64`, `current_fiber_id` and `is_cancelled`. -/
def ask (s : State) (on : Option Fid) (q : Ask) : State :=
  match s.hooks.fiber with
  | none => s.saw on q.outside
  | some p => s.withFiber p fun f => (s.setData f ((s.fibers f).data.answer q).2).saw on ((s.fibers f).data.answer q).1

/-- The end of `fiber_run` on the stack of `f`. -/
def exit (s : State) (f : Fid) : State :=
  match (s.boxes f).doneFlag.bind s.mem with
  | none => s.crash
  | some g => (s.setData g { (s.fibers g).data with done := true }).switchOut (s.boxes f) ⟨some f, .finished⟩

/-- The closure panicked, and `fiber_run` caught it. -/
def caught (s : State) (f : Fid) (p : AnyBox) : State :=
  match (s.boxes f).erroredFlag.bind s.mem, (s.boxes f).errorPayloadSlot.bind s.mem with
  | some g, some g' =>
    let s := s.setData g { (s.fibers g).data with errored := true }
    (s.setData g' { (s.fibers g').data with errorPayload := some p }).exit f
  | _, _ => s.crash

/-- What follows a switch to a context. -/
def land (s : State) (c : Ctx) : State :=
  match c.pc with
  | .run =>
    match c.stack with
    | none => s.crash
    | some f =>
      if (s.boxes f).closure then
        { s with boxes := Function.update s.boxes f { s.boxes f with closure := false }, ctl := .code c.stack }
      else s.exit f
  | .resume self prevActive prevFiber call =>
    let s := { s with hooks := ⟨prevActive, prevFiber⟩ }
    s.withFiber self fun f =>
      { s with ctl := .code c.stack, trace := .returned call (s.fibers f).data.step s.hooks :: s.trace }
  | .yieldNow .now => { s.saw c.stack .unit with ctl := .code c.stack }
  | .yieldNow (.value type p) => s.withFiber p fun f =>
    { (s.setData f { (s.fibers f).data with inputSlot := none }).saw c.stack
      (.input type ((s.fibers f).data.inputSlot.bind (·.downcast type))) with ctl := .code c.stack }
  | .yieldNow (.u64 p) => s.withFiber p fun f =>
    { (s.setData f { (s.fibers f).data with inputU64 := none }).saw c.stack (.inputU64 (s.fibers f).data.inputU64) with
      ctl := .code c.stack }
  | .finished =>
    match c.stack with
    | none => s.crash
    | some f => s.switchOut (s.boxes f) c

end State

open State

/-- A step; the calls that need a borrow are made when there can be one. -/
def step (s : State) (o : Op) : Option State :=
  match s.ctl, o with
  | .code _, .new a => if s.mem a = none then some (s.new a) else none
  | .code _, .move f b =>
    if s.free f ∧ s.mem b = none then (s.home f).map fun a => s.move f a b else none
  | .code _, .drop f => if s.free f then (s.home f).map fun a => s.drop f a else none
  | .code on, .resume f input => if s.free f then (s.home f).map fun a => s.resume on f a input else none
  | .code on, .access f q =>
    if s.free f then
      some ((s.setData f ((s.fibers f).data.access q).2).saw on ((s.fibers f).data.access q).1)
    else none
  | .code on, .ask q => some (s.ask on q)
  | .code on, .yieldNow => some (s.yieldNow on .now)
  | .code on, .yieldValue v type => some (s.yieldValue on v type)
  | .code on, .yieldU64 n => some (s.yieldU64 on n)
  | .code (some f), .finish => some (s.exit f)
  | .code (some f), .panic p => some (s.caught f p)
  | .at c, .go => some (s.land c)
  | _, _ => none

/-- What runs whose steps meet `ok` reach. -/
abbrev Reachable (ok : State → Op → Prop) (s : State) : Prop := Lib.Steps step ok State.init s

end Krio.Fibers
