import Mathlib.Algebra.Group.Nat.Defs
import Krio.Lib.Threads

/-! The bounded Chase–Lev deque of `krio-parallel/src/deque.rs`.

`push`, `pop` and `steal` are given by their control points, one for each atomic access and one for each
slot access. Indices are words of the width `w` of `isize` and wrap; fences do nothing when accesses are
indivisible and sequentially consistent. A slot is a `MaybeUninit`: `none` until something is written to
it. `wins` is a ghost: how often `top` was moved. -/

namespace Krio.Parallel
open Lib

structure Deque (w : ℕ) (α : Type) where
  top : BitVec w
  bottom : BitVec w
  buf : List (Option α)
  wins : ℕ

namespace Deque
variable {w : ℕ} {α : Type}

/-- `usize::next_power_of_two`. -/
def nextPowerOfTwo (n : ℕ) : ℕ := if n ≤ 1 then 1 else 2 ^ ((n - 1).log2 + 1)

/-- The capacity that `with_capacity(cap)` allocates. -/
def capacityFor (cap : ℕ) : ℕ := max (nextPowerOfTwo cap) 2

/-- `with_capacity`, with both counters at `start`; the source starts them at zero. -/
def withCapacity (start : BitVec w) (cap : ℕ) : Deque w α where
  top := start
  bottom := start
  buf := List.replicate (capacityFor cap) none
  wins := 0

def capacity (d : Deque w α) : ℕ := d.buf.length

/-- `capacity - 1`. -/
def mask (d : Deque w α) : BitVec w := BitVec.ofNat w (d.capacity - 1)

/-- `(i & self.mask) as usize`. -/
def slot (d : Deque w α) (i : BitVec w) : ℕ := (i &&& d.mask).toNat

/-- `assume_init_read` of a slot: its bits, `none` when it was never written. -/
def read (d : Deque w α) (i : BitVec w) : Option α := d.buf[d.slot i]?.join

/-- `MaybeUninit::write` to a slot. -/
def write (d : Deque w α) (i : BitVec w) (v : α) : Deque w α := { d with buf := d.buf.set (d.slot i) (some v) }

/-- `b.wrapping_sub(t).max(0) as usize`. -/
def lenOf (b t : BitVec w) : ℕ := (max (b - t).toInt 0).toNat

/-- The compare-exchange of `top` from `t` to `t + 1`: whether it succeeded, and the deque after it. -/
def casTop (d : Deque w α) (t : BitVec w) : Deque w α × Bool :=
  if d.top = t then ({ d with top := t + 1, wins := d.wins + 1 }, true) else (d, false)

/-- Control points of `push`. -/
inductive PushPc (w : ℕ)
  | loadBottom
  | loadTop (b : BitVec w)
  | write (b : BitVec w)
  | publish (b : BitVec w)
  deriving DecidableEq

/-- A step of `push(value)`; it returns whether the value was taken. -/
def push (value : α) (d : Deque w α) : PushPc w → Deque w α × Out (PushPc w) Bool
  | .loadBottom => (d, .next (.loadTop d.bottom))
  | .loadTop b => if (b - d.top).toInt ≥ d.capacity then (d, .ret false) else (d, .next (.write b))
  | .write b => (d.write b value, .next (.publish b))
  | .publish b => ({ d with bottom := b + 1 }, .ret true)

/-- Control points of `pop`; `b` is the index it claims. -/
inductive PopPc (w : ℕ)
  | loadBottom
  | claim (b : BitVec w)
  | loadTop (b : BitVec w)
  | restore (b : BitVec w)
  | race (b t : BitVec w)
  | settle (b : BitVec w) (won : Bool)
  | take (b : BitVec w)
  deriving DecidableEq

/-- A step of `pop`; a value it returns is the bits of a slot. -/
def pop (d : Deque w α) : PopPc w → Deque w α × Out (PopPc w) (Option (Option α))
  | .loadBottom => (d, .next (.claim (d.bottom - 1)))
  | .claim b => ({ d with bottom := b }, .next (.loadTop b))
  | .loadTop b =>
    if (b - d.top).toInt < 0 then (d, .next (.restore b))
    else if (b - d.top).toInt = 0 then (d, .next (.race b d.top))
    else (d, .next (.take b))
  | .restore b => ({ d with bottom := b + 1 }, .ret none)
  | .race b t => ((d.casTop t).1, .next (.settle b (d.casTop t).2))
  | .settle b won => ({ d with bottom := b + 1 }, if won then .next (.take b) else .ret none)
  | .take b => (d, .ret (some (d.read b)))

/-- Control points of `steal`; `seen` is a ghost, `wins` when `top` was loaded. -/
inductive StealPc (w : ℕ) (α : Type)
  | loadTop
  | loadBottom (t : BitVec w) (seen : ℕ)
  | read (t : BitVec w) (seen : ℕ)
  | claim (t : BitVec w) (seen : ℕ) (value : Option α)
  deriving DecidableEq

/-- A step of `steal`. The value is read before the index is claimed and forgotten when the claim fails. -/
def steal (d : Deque w α) : StealPc w α → Deque w α × Out (StealPc w α) (Option (Option α))
  | .loadTop => (d, .next (.loadBottom d.top d.wins))
  | .loadBottom t seen => if (d.bottom - t).toInt ≤ 0 then (d, .ret none) else (d, .next (.read t seen))
  | .read t seen => (d, .next (.claim t seen (d.read t)))
  | .claim t _ value => ((d.casTop t).1, .ret (if (d.casTop t).2 then some value else none))

end Deque

end Krio.Parallel
