import Mathlib.Data.List.Basic
import Krio.Stackless.Transform

/-! What a body means: blocks of statements over a store of locals and a host state.

A bool local holds 0 or 1. The host gives its own statements a meaning; the outcome of a peek is read off the
host state, so any sequence of outcomes can be given. -/

namespace Krio.Stackless

variable {U : Type}

/-- The values of the locals. -/
abbrev Locals := ℕ → ℤ

/-- The meaning of the host's statements: running one, and whether the receive `u` is ready. -/
structure Host (U : Type) where
  State : Type
  exec : U → Locals → State → Locals × State
  ready : U → Locals → State → Bool × State

/-- What a run leaves in its log, the latest first. -/
inductive Event (U : Type)
  | enter (bb : ℕ)
  | ran (u : U)
  | received (u : U)
  | set (l : ℕ) (value : ℤ)
  deriving DecidableEq, Repr

/-- The store of a run, with its log. -/
structure Store (host : Host U) where
  locals : Locals
  state : host.State
  log : List (Event U)

/-- Where a run is: about to enter a block, returned, or past a terminator that is none. -/
inductive At
  | block (bb : ℕ)
  | returned
  | dead
  deriving DecidableEq, Repr

/-- The target of a switch on the value `v`. -/
def switchTarget (v : ℤ) (otherwise : ℕ) : List (ℤ × ℕ) → ℕ
  | [] => otherwise
  | (w, bb) :: rest => if v = w then bb else switchTarget v otherwise rest

/-- Where a terminator leads. -/
def leads (locals : Locals) : Term → At
  | .unreachable => .dead
  | .goto bb => .block bb
  | .branch cond t f => .block (if locals cond ≠ 0 then t else f)
  | .switch discr targets otherwise => .block (switchTarget (locals discr) otherwise targets)
  | .ret => .returned

namespace Store
variable {host : Host U}

/-- Write a local, and say so in the log. -/
def assign (σ : Store host) (l : ℕ) (v : ℤ) : Store host :=
  { σ with locals := Function.update σ.locals l v, log := .set l v :: σ.log }

/-- Run a host statement; `e` is its entry in the log. -/
def run (σ : Store host) (u : U) (e : Event U) : Store host :=
  let (locals, state) := host.exec u σ.locals σ.state
  ⟨locals, state, e :: σ.log⟩

/-- Look whether the receive `u` is ready. -/
def look (σ : Store host) (u : U) : Bool × Store host :=
  let (ready, state) := host.ready u σ.locals σ.state
  (ready, { σ with state })

def note (σ : Store host) (e : Event U) : Store host := { σ with log := e :: σ.log }

end Store

def ofBool (b : Bool) : ℤ := if b then 1 else 0

section
variable {host : Host U}

def Stmt.exec (σ : Store host) : Stmt U → Store host
  | .host u => σ.run u (.ran u)
  | .assignI64 l value => σ.assign l value
  | .assignBool l value => σ.assign l (ofBool value)
  | .eqCheckI64 dest lhs rhs => { σ with locals := Function.update σ.locals dest (ofBool (σ.locals lhs = rhs)) }
  | .peek u dest =>
    let (ready, σ) := σ.look u
    { σ with locals := Function.update σ.locals dest (ofBool ready) }
  | .recv u => σ.run u (.received u)
  | .nop => σ

def execAll (σ : Store host) (stmts : List (Stmt U)) : Store host := stmts.foldl Stmt.exec σ

/-- A run between two blocks. -/
structure Conf (host : Host U) where
  place : At
  store : Store host

/-- Run the block `bb`. -/
def runBlock (cfg : Body U) (bb : ℕ) (σ : Store host) : Conf host :=
  let σ := execAll (σ.note (.enter bb)) (cfg.stmts bb)
  ⟨leads σ.locals (cfg.term bb), σ⟩

theorem runBlock_of {cfg : Body U} {bb : ℕ} {l : List (Stmt U)} {t : Term} (h : cfg.block bb = ⟨l, t⟩) (σ : Store host) :
    runBlock cfg bb σ = ⟨leads (execAll (σ.note (.enter bb)) l).locals t, execAll (σ.note (.enter bb)) l⟩ := by
  simp only [runBlock, Cfg.stmts, Cfg.term, h]

/-- One step runs one block. -/
def step (cfg : Body U) (c : Conf host) : Option (Conf host) :=
  match c.place with
  | .block bb => some (runBlock cfg bb c.store)
  | _ => none

end

end Krio.Stackless
