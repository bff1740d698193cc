import Krio.Stackless.Exec

/-! What a region means before the transform: its coroutines take turns.

One step runs one statement or one terminator. From `region_begin` on, a scheduler says whose turn it is; a turn lasts
until the coroutine yields, has sent, finds a guard shut or ends. Once the scheduler leaves the region, control goes on
after `region_end`. -/

namespace Krio.Stackless

variable {U : Type}

/-- How far a coroutine has come. -/
inductive Status
  | fresh
  | suspended (p : Pos)
  | finished
  deriving DecidableEq, Repr

/-! ## Schedulers -/

/-- How a turn ends. -/
inductive Outcome
  | finished
  | ran
  | blocked
  deriving DecidableEq, Repr

/-- What a scheduler does next: it gives a turn to a coroutine, looks further, leaves the region or reports a deadlock. -/
inductive Choice (S : Type)
  | turn (k : ℕ)
  | goOn (s : S)
  | leave
  | report
  deriving DecidableEq, Repr

/-- A scheduler learns how far each coroutine has come, that a guard was passed, and how each turn ended. -/
structure Scheduler where
  State : Type
  start : State
  choose : (ℕ → Status) → State → Choice State
  passed : State → State
  ended : State → ℕ → Outcome → State

/-! ## Source programs -/

/-- What the source program does next; `k` is the number of a coroutine. -/
inductive Mode
  | plain (p : Pos)
  | choose
  | run (k : ℕ) (p : Pos)
  | receive (k : ℕ) (p : Pos)
  | suspend (k : ℕ) (p : Pos) (outcome : Outcome)
  | finish (k : ℕ)
  | stopped (place : At)
  deriving DecidableEq, Repr

structure Source (host : Host U) (S : Type) where
  mode : Mode
  sched : S
  status : ℕ → Status
  store : Store host

/-- The mode after a terminator that leads to `place`. -/
def Mode.ofAt (goOn : Pos → Mode) : At → Mode
  | .block bb => goOn (bb, 0)
  | place => .stopped place

/-- The position after `p` in its block. -/
def after (p : Pos) : Pos := (p.1, p.2 + 1)

namespace Source
variable {host : Host U} {S : Type}

/-- Run the statement at `p`, or the terminator when `p` is past the last one. -/
def advance (cfg : Body U) (goOn : Pos → Mode) (p : Pos) (c : Source host S) : Source host S :=
  match (cfg.stmts p.1)[p.2]? with
  | some s => { c with mode := goOn (after p), store := s.exec c.store }
  | none => { c with mode := .ofAt goOn (leads c.store.locals (cfg.term p.1)) }

/-- Coroutine `k` looks at the guard at `p`. -/
def look (cfg : Body U) (k : ℕ) (p : Pos) (c : Source host S) : Option (Source host S) :=
  match (cfg.stmts p.1)[p.2]? with
  | some (.host u) =>
    let (ready, store) := c.store.look u
    some { c with mode := if ready then .receive k p else .suspend k p .blocked, store }
  | _ => none

/-- Coroutine `k` runs on at `p`. -/
def run (hooks : Hooks U) (cfg : Body U) (k : ℕ) (coroutine : Coroutine) (p : Pos) (c : Source host S) :
    Option (Source host S) :=
  if p = coroutine.last then some { c with mode := .finish k }
  else
    match hooks.classifyMarker cfg p.1 p.2 with
    | some .yield => some { c with mode := .suspend k (after p) .ran }
    | some .producingSend => some { advance cfg (.run k) p c with mode := .suspend k (after p) .ran }
    | some .guardedRecv => look cfg k p c
    | _ => some (advance cfg (.run k) p c)

/-- Coroutine `k` is given a turn. -/
def turn (r : Region) (k : ℕ) (c : Source host S) : Option (Source host S) :=
  match r.coroutines[k]?, c.status k with
  | some coroutine, .fresh => some { c with mode := .run k (after coroutine.begin) }
  | some _, .suspended p => some { c with mode := .run k p }
  | _, _ => none

variable {sched : Scheduler}

/-- Do what the scheduler says. -/
def schedule (hooks : Hooks U) (r : Region) (c : Source host sched.State) : Option (Source host sched.State) :=
  match sched.choose c.status c.sched with
  | .turn k => turn r k c
  | .goOn s => some { c with sched := s }
  | .leave => some { c with mode := .plain (after r.regionEnd) }
  | .report => hooks.deadlock.map fun u => { c with mode := .stopped .dead, store := (Stmt.host u).exec c.store }

variable (sched) in
def step (hooks : Hooks U) (cfg : Body U) (r : Region) (c : Source host sched.State) : Option (Source host sched.State) :=
  match c.mode with
  | .plain p =>
    if p = r.regionBegin then some { c with mode := .choose, sched := sched.start, status := fun _ => .fresh }
    else some (advance cfg .plain p c)
  | .choose => schedule hooks r c
  | .run k p => (r.coroutines[k]?).bind fun coroutine => run hooks cfg k coroutine p c
  | .receive k p =>
    match (cfg.stmts p.1)[p.2]? with
    | some (.host u) =>
      some { c with mode := .run k (after p), sched := sched.passed c.sched, store := c.store.run u (.received u) }
    | _ => none
  | .suspend k p outcome =>
    some { c with mode := .choose, sched := sched.ended c.sched k outcome, status := Function.update c.status k (.suspended p) }
  | .finish k =>
    some { c with mode := .choose, sched := sched.ended c.sched k .finished, status := Function.update c.status k .finished }
  | .stopped _ => none

variable (sched) in
/-- The function is called in the store `σ`. -/
def start (bb : ℕ) (σ : Store host) : Source host sched.State := ⟨.plain (bb, 0), sched.start, fun _ => .fresh, σ⟩

end Source

end Krio.Stackless
