import Krio.Stackless.Coroutines

/-! The schedulers that the executors lay out. -/

namespace Krio.Stackless

/-- Where a pass over the coroutines is, and whether anything but a shut guard came up in it. -/
structure Pass where
  turn : ℕ
  moved : Bool
  deriving DecidableEq, Repr

/-- Round robin over `count` coroutines: each that is not finished has a turn in every pass. With `reports`, a pass in
    which each turn found its guard shut is the last one. A coroutine that is finished counts as one that moves. -/
def roundRobin (count : ℕ) (reports : Bool) : Scheduler where
  State := Pass
  start := ⟨0, false⟩
  choose status s :=
    if s.turn < count then
      if status s.turn = .finished then .goOn ⟨s.turn + 1, true⟩ else .turn s.turn
    else if ∀ k < count, status k = .finished then .leave
    else if reports && !s.moved then .report
    else .goOn ⟨0, false⟩
  passed s := { s with moved := true }
  ended s _ outcome := ⟨s.turn + 1, s.moved || outcome != .blocked⟩

/-! ## Priorities -/

/-- A look of a scan at the coroutine `who`: member `index` of its band, in the first or the second half of the band's
    scan. -/
structure Look where
  band : ℕ
  index : ℕ
  who : ℕ
  second : Bool
  deriving DecidableEq, Repr

/-- Where `last` ran last of the band, the first half is for the members behind it, and the second for the others. -/
def Look.due (look : Look) (last : Option ℕ) : Bool := look.second == last.any (look.index ≤ ·)

/-- The looks of one half of the scan of a band. -/
def halfLooks (b : ℕ) (band : List ℕ) (second : Bool) : List Look := band.mapIdx fun index who => ⟨b, index, who, second⟩

/-- The looks of a scan of the bands, the first of which is number `b`. -/
def looksFrom (b : ℕ) : List (List ℕ) → List Look
  | [] => []
  | band :: bands => halfLooks b band false ++ halfLooks b band true ++ looksFrom (b + 1) bands

/-- What is left of a scan, who ran last of each band, and whether the scan has passed a guard. -/
structure Scanned where
  rest : List Look
  last : ℕ → Option ℕ
  moved : Bool

/-- The scheduler of a region with priorities: it scans the bands, and whenever a coroutine runs it starts over from the
    most urgent one. -/
def prioritised (bands : List (List ℕ)) (count : ℕ) (reports : Bool) : Scheduler where
  State := Scanned
  start := ⟨looksFrom 0 bands, fun _ => none, false⟩
  choose status s :=
    match s.rest with
    | look :: rest =>
      if look.due (s.last look.band) && status look.who != .finished then .turn look.who else .goOn { s with rest }
    | [] =>
      if ∀ k < count, status k = .finished then .leave
      else if reports && !s.moved then .report
      else .goOn { s with rest := looksFrom 0 bands, moved := false }
  passed s := { s with moved := true }
  ended s _ outcome :=
    match s.rest, outcome with
    | _ :: rest, .blocked => { s with rest }
    | look :: _, _ => ⟨looksFrom 0 bands, Function.update s.last look.band (some look.index), false⟩
    | [], _ => s

end Krio.Stackless
