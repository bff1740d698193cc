import Mathlib.Data.List.Sort
import Krio.Cfg
import Krio.Lib.Worklist

/-! The state-machine transform of `krio-stackless/src/lib.rs` up to the executor: region discovery, the
suspension points of a coroutine, and the machines.

A host statement is opaque (`U`); what the hooks say of it depends on the statement alone. A method of
`CoroCfg` behaves as its documentation says, and an index that the source panics on leaves the body as it is. -/

namespace Krio.Stackless

/-- A statement: the host's own, those the transform emits, and the two halves of a guarded receive. -/
inductive Stmt (U : Type)
  | host (u : U)
  | assignI64 (l : ℕ) (value : ℤ)
  | assignBool (l : ℕ) (value : Bool)
  | eqCheckI64 (dest lhs : ℕ) (rhs : ℤ)
  | peek (u : U) (dest : ℕ)
  | recv (u : U)
  | nop
  deriving DecidableEq, Repr

/-- `CoroHooks`, and the report of `CoroCfg::emit_deadlock` when the host has one. -/
structure Hooks (U : Type) where
  marker : U → Option Marker
  priority : U → Option UInt32
  deadlock : Option U

/-- Statement coordinates. -/
abbrev Pos := ℕ × ℕ

structure Coroutine where
  begin : Pos
  last : Pos
  priority : Option UInt32
  deriving DecidableEq, Repr

structure Region where
  regionBegin : Pos
  regionEnd : Pos
  coroutines : List Coroutine
  deriving DecidableEq, Repr

structure Machine where
  stateLocal : ℕ
  pollResultLocal : ℕ
  progressLocal : ℕ
  dispatchBb : ℕ
  exitBb : ℕ
  deriving DecidableEq, Repr

inductive SuspKind
  | yield
  | guardedRecv
  | producingSend
  deriving DecidableEq, Repr

/-- One entry of `find_suspension_points`. -/
structure Point where
  bb : ℕ
  stmt : ℕ
  kind : SuspKind
  deriving DecidableEq, Repr

def doneState : ℤ := 9999

/-- A machine's poll result: it completed. -/
def pollReady : ℤ := 0

/-- It ran and suspended. -/
def pollPending : ℤ := 1

/-- It found its guarded operation not ready. -/
def pollBlocked : ℤ := 2

variable {U : Type}

/-- The body that the transform works on. -/
abbrev Body (U : Type) := Cfg (Stmt U)

namespace Hooks

def classify (hooks : Hooks U) : Stmt U → Option Marker
  | .host u => hooks.marker u
  | _ => none

def classifyMarker (hooks : Hooks U) (cfg : Body U) (bb idx : ℕ) : Option Marker :=
  ((cfg.stmts bb)[idx]?).bind hooks.classify

def coroutinePriority (hooks : Hooks U) (cfg : Body U) (bb idx : ℕ) : Option UInt32 :=
  match (cfg.stmts bb)[idx]? with
  | some (.host u) => hooks.priority u
  | _ => none

/-- The hook's surgery at `(bb, idx)`: the peek takes the place of the receive, which moves to the head of
    `resumeBb`. -/
def emitGuardedRecvPeek (cfg : Body U) (bb idx resumeBb : ℕ) : ℕ × Body U :=
  let (isReady, cfg) := cfg.newBoolLocal
  match (cfg.stmts bb)[idx]? with
  | some (.host u) => (isReady, (cfg.replace bb idx (.peek u isReady)).prepend resumeBb (.recv u))
  | _ => (isReady, cfg)

end Hooks

/-! ## Region discovery -/

/-- The variables of the scan: one slot for the open region and one for the open coroutine. -/
structure Scan where
  regions : List Region
  currentRegion : Option Pos
  currentCoroutines : List Coroutine
  currentCoroBegin : Option Pos
  currentPriority : Option UInt32

def Scan.start : Scan := ⟨[], none, [], none, none⟩

/-- What the scan does at a marker; `priority` is the one of the statement there. -/
def Scan.step (σ : Scan) (pos : Pos) (priority : Option UInt32) : Marker → Scan
  | .regionBegin => { σ with currentRegion := some pos, currentCoroutines := [] }
  | .regionEnd =>
    match σ.currentRegion with
    | some begin =>
      { σ with
        regions := σ.regions ++ [⟨begin, pos, σ.currentCoroutines⟩]
        currentRegion := none
        currentCoroutines := [] }
    | none => σ
  | .coroutineBegin => { σ with currentCoroBegin := some pos, currentPriority := priority }
  | .coroutineEnd =>
    match σ.currentCoroBegin with
    | some begin =>
      { σ with
        currentCoroutines := σ.currentCoroutines ++ [⟨begin, pos, σ.currentPriority⟩]
        currentCoroBegin := none
        currentPriority := none }
    | none => σ
  | _ => σ

/-- The statement coordinates of a body, block by block in the order of `block_ids`. -/
def positions (cfg : Body U) : List Pos :=
  cfg.ids.flatMap fun bb => (List.range (cfg.statementCount bb)).map (bb, ·)

/-- The body of the scan's loop. -/
def Scan.visit (hooks : Hooks U) (cfg : Body U) (σ : Scan) (pos : Pos) : Scan :=
  match hooks.classifyMarker cfg pos.1 pos.2 with
  | some m => σ.step pos (hooks.coroutinePriority cfg pos.1 pos.2) m
  | none => σ

def findRegions (hooks : Hooks U) (cfg : Body U) : List Region :=
  ((positions cfg).foldl (Scan.visit hooks cfg) .start).regions

/-! ## Suspension points -/

/-- The blocks reachable from `begin` without passing `last`, in the order the stack finds them. Every block is
    pushed at most once, so as many rounds as the body has blocks are enough. -/
def bodyBlocks (cfg : Body U) (begin last : ℕ) : List ℕ :=
  Lib.collect (fun bb => if bb = last then [] else cfg.successors bb) cfg.next [begin] [begin]

def SuspKind.ofMarker : Marker → Option SuspKind
  | .yield => some .yield
  | .guardedRecv => some .guardedRecv
  | .producingSend => some .producingSend
  | _ => none

/-- The suspension points of one block of the body. -/
def pointsOf (hooks : Hooks U) (cfg : Body U) (coroutine : Coroutine) (bb : ℕ) : List Point :=
  let first := if bb = coroutine.begin.1 then coroutine.begin.2 + 1 else 0
  let last := if bb = coroutine.last.1 then coroutine.last.2 else cfg.statementCount bb
  (List.range' first (last - first)).filterMap fun idx =>
    ((hooks.classifyMarker cfg bb idx).bind SuspKind.ofMarker).map fun kind => ⟨bb, idx, kind⟩

def findSuspensionPoints (hooks : Hooks U) (cfg : Body U) (coroutine : Coroutine) : List Point :=
  let body := bodyBlocks cfg coroutine.begin.1 coroutine.last.1
  (body.insertionSort (· ≤ ·)).flatMap (pointsOf hooks cfg coroutine)

/-! ## The machines -/

/-- `done_bb`: poll = Ready, state = DONE, goto exit. -/
def emitDone (cfg : Body U) (stateLocal pollResultLocal exitBb : ℕ) : ℕ × Body U :=
  let (doneBb, cfg) := cfg.newBlock
  (doneBb, ((cfg.emit doneBb (.assignI64 pollResultLocal pollReady)).emit doneBb
    (.assignI64 stateLocal doneState)).setGoto doneBb exitBb)

/-- A block that suspends the coroutine in `stateId` with the given poll result. -/
def emitSuspend (cfg : Body U) (stateLocal pollResultLocal exitBb : ℕ) (stateId pollResult : ℤ) : ℕ × Body U :=
  let (bb, cfg) := cfg.newBlock
  (bb, ((cfg.emit bb (.assignI64 stateLocal stateId)).emit bb (.assignI64 pollResultLocal pollResult)).setGoto bb exitBb)

def emitNoSuspensionMachine (cfg : Body U) (coroutine : Coroutine) (stateLocal pollResultLocal dispatchBb exitBb : ℕ) :
    Body U :=
  let (doneBb, cfg) := emitDone cfg stateLocal pollResultLocal exitBb
  let (checkDone, cfg) := cfg.newBoolLocal
  let cfg := cfg.emit dispatchBb (.eqCheckI64 checkDone stateLocal doneState)
  let cfg := cfg.setBranch dispatchBb checkDone exitBb coroutine.begin.1
  cfg.setGoto coroutine.last.1 doneBb

/-- The guard at the head of `guardBb`: the peek, the block that resumes and the block that is blocked. -/
def emitGuard (cfg : Body U) (stateLocal pollResultLocal progressLocal exitBb : ℕ) (stateId : ℤ) (guardBb : ℕ) :
    Body U :=
  let (resumeBb, cfg) := cfg.splitAfter guardBb 0
  let (isReady, cfg) := Hooks.emitGuardedRecvPeek cfg guardBb 0 resumeBb
  let cfg := cfg.prepend resumeBb (.assignI64 progressLocal 1)
  let (blockedBb, cfg) := emitSuspend cfg stateLocal pollResultLocal exitBb stateId pollBlocked
  cfg.setBranch guardBb isReady resumeBb blockedBb

/-- The rewriting of a guarded receive, once its yield block is there: the entry is the guard's block. -/
def emitGuardedRecv (cfg : Body U) (stateLocal pollResultLocal progressLocal exitBb : ℕ) (stateId : ℤ) (bb stmt : ℕ) :
    ℕ × Body U :=
  if stmt = 0 then (bb, emitGuard cfg stateLocal pollResultLocal progressLocal exitBb stateId bb)
  else
    let (guardBb, cfg) := cfg.splitAfter bb (stmt - 1)
    let cfg := cfg.setGoto bb guardBb
    (guardBb, emitGuard cfg stateLocal pollResultLocal progressLocal exitBb stateId guardBb)

/-- One round of the suspension loop: the entry of the state and the body. -/
def emitSuspension (cfg : Body U) (stateLocal pollResultLocal progressLocal exitBb : ℕ) (stateId : ℤ) (p : Point) :
    ℕ × Body U :=
  let (yieldBb, cfg) := emitSuspend cfg stateLocal pollResultLocal exitBb stateId pollPending
  match p.kind with
  | .guardedRecv => emitGuardedRecv cfg stateLocal pollResultLocal progressLocal exitBb stateId p.bb p.stmt
  | .producingSend =>
    let (resumeBb, cfg) := cfg.splitAfter p.bb p.stmt
    (resumeBb, cfg.setGoto p.bb yieldBb)
  | .yield =>
    let (resumeBb, cfg) := cfg.splitAfter p.bb p.stmt
    (resumeBb, (cfg.replace p.bb p.stmt .nop).setGoto p.bb yieldBb)

/-- The suspension loop from the point numbered `suspIdx` on: the entries of the states after it. -/
def emitSuspensions (stateLocal pollResultLocal progressLocal exitBb : ℕ) :
    ℕ → List Point → Body U → List ℕ × Body U
  | _, [], cfg => ([], cfg)
  | suspIdx, p :: ps, cfg =>
    let (entry, cfg) := emitSuspension cfg stateLocal pollResultLocal progressLocal exitBb (suspIdx + 1) p
    let (entries, cfg) := emitSuspensions stateLocal pollResultLocal progressLocal exitBb (suspIdx + 1) ps cfg
    (entry :: entries, cfg)

/-- The arms of the dispatch switch: state `i` goes to the `i`-th entry. -/
def stateTargets (entries : List ℕ) : List (ℤ × ℕ) :=
  entries.mapIdx fun i bb => ((i : ℤ), bb)

def emitMultiStateMachine (cfg : Body U) (coroutine : Coroutine) (suspensions : List Point)
    (stateLocal pollResultLocal progressLocal dispatchBb exitBb : ℕ) : Body U :=
  let (entries, cfg) := emitSuspensions stateLocal pollResultLocal progressLocal exitBb 0 suspensions cfg
  let (doneBb, cfg) := emitDone cfg stateLocal pollResultLocal exitBb
  let cfg := cfg.setGoto coroutine.last.1 doneBb
  cfg.setSwitch dispatchBb stateLocal (stateTargets (coroutine.begin.1 :: entries)) exitBb

def buildStateMachine (cfg : Body U) (coroutine : Coroutine) (suspensions : List Point) (progressLocal : ℕ) :
    Machine × Body U :=
  let (stateLocal, cfg) := cfg.newStateLocal
  let (pollResultLocal, cfg) := cfg.newStateLocal
  let (dispatchBb, cfg) := cfg.newBlock
  let (exitBb, cfg) := cfg.newBlock
  (⟨stateLocal, pollResultLocal, progressLocal, dispatchBb, exitBb⟩,
    if suspensions = [] then
      emitNoSuspensionMachine cfg coroutine stateLocal pollResultLocal dispatchBb exitBb
    else emitMultiStateMachine cfg coroutine suspensions stateLocal pollResultLocal progressLocal dispatchBb exitBb)

/-- The loop of `transform_region` over the coroutines and their points. -/
def buildMachines (progressLocal : ℕ) : List (Coroutine × List Point) → Body U → List Machine × Body U
  | [], cfg => ([], cfg)
  | (coroutine, suspensions) :: rest, cfg =>
    let (machine, cfg) := buildStateMachine cfg coroutine suspensions progressLocal
    let (machines, cfg) := buildMachines progressLocal rest cfg
    (machine :: machines, cfg)

/-- The points of every coroutine, taken before the first rewrite. -/
def snapshot (hooks : Hooks U) (cfg : Body U) (region : Region) : List (Coroutine × List Point) :=
  region.coroutines.map fun c => (c, findSuspensionPoints hooks cfg c)

/-- The trait `Executor`; `E` is the state of the executor. -/
abbrev Executor (U E : Type) := E → Body U → Region → List Machine → E × Body U

def transformRegion {E : Type} (hooks : Hooks U) (finalizeRegion : Executor U E) (executor : E) (cfg : Body U)
    (region : Region) : E × Body U :=
  let suspensions := snapshot hooks cfg region
  let (progressLocal, cfg) := cfg.newStateLocal
  let (machines, cfg) := buildMachines progressLocal suspensions cfg
  finalizeRegion executor cfg region machines

/-- The region that the next round of `run_with` transforms. -/
def nextRegion (hooks : Hooks U) (cfg : Body U) : Option Region :=
  (findRegions hooks cfg).find? fun r => !r.coroutines.isEmpty

/-- The loop of `run_with`, cut off after the given number of rounds (`none`). -/
def runWith {E : Type} (hooks : Hooks U) (finalizeRegion : Executor U E) : ℕ → E → Body U → Option (E × Body U)
  | 0, _, _ => none
  | rounds + 1, executor, cfg =>
    match nextRegion hooks cfg with
    | some region =>
      let (executor, cfg) := transformRegion hooks finalizeRegion executor cfg region
      runWith hooks finalizeRegion rounds executor cfg
    | none => some (executor, cfg)

end Krio.Stackless
