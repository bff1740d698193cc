import Mathlib.Algebra.Ring.Nat
import Krio.Parallel.Deque
import Krio.Parallel.Safepoint
import Krio.Parallel.Parked

/-! The cluster of `krio-parallel/src/lib.rs`: its shared memory, the control states of the threads that
call into it, and what the next indivisible step of a thread does.

A control state is the innermost function of the cluster that the thread is in, together with what it
returns to. A thread `agent i` drives agent `i`; a thread `ext k` drives none. What the code leaves open
is a `Choice`: which operation host or task code calls, what a task's step returns, whether a deadline has
passed, and spurious returns of `Park::park`. -/

namespace Krio.Parallel
open Lib

/-- Who takes part in a cluster, the width of `usize` and the deque capacity asked for. An allocation is
    at most `isize::MAX` bytes and a job takes more than one, so a capacity stays below `2 ^ (w - 2)`. -/
structure Config where
  agentCount : ℕ
  agents_pos : 0 < agentCount
  agents_u32 : agentCount < 2 ^ 32
  w : ℕ
  dequeCapacity : ℕ
  capacity_le : Deque.capacityFor dequeCapacity ≤ 2 ^ (w - 2)

/-- `Cluster::new`, on a machine of 64 bits. -/
def Config.new (agentCount : ℕ) (pos : 0 < agentCount) (u32 : agentCount < 2 ^ 32) : Config :=
  ⟨agentCount, pos, u32, 64, 256, by decide +kernel⟩

/-- The clusters of two and of three agents, for runs on fixed inputs. -/
abbrev Config.two : Config := .new 2 (by decide) (by decide)

abbrev Config.three : Config := .new 3 (by decide) (by decide)

instance (cfg : Config) : NeZero cfg.agentCount := ⟨Nat.pos_iff_ne_zero.mp cfg.agents_pos⟩

/-- A task and the identity that a host tracks it by; `task` names the box, the n-th one spawned. -/
structure Job where
  id : TaskId
  task : ℕ
  deriving DecidableEq, Repr

/-- The values of a parking slot: `RUNNING`, `PARKED` and `NOTIFIED`. -/
inductive ParkState
  | running
  | parked
  | notified
  deriving DecidableEq, Repr

/-- `AgentRole`: what an agent is permitted to do when it runs out of work. -/
inductive AgentRole
  | main
  | worker
  deriving DecidableEq, Repr

/-- A thread: the one that drives agent `i`, or one that drives no agent. -/
inductive Tid (cfg : Config)
  | agent (i : Fin cfg.agentCount)
  | ext (k : ℕ)
  deriving DecidableEq

/-- What happened so far, newest first: the observer's events, and what the invariants speak about. -/
inductive Event (cfg : Config)
  | spawned (j : Job)
  | migrate (j : Job) (victim thief : Fin cfg.agentCount)
  | stepBegin (j : Job) (i : Fin cfg.agentCount)
  | stepEnd (j : Job) (i : Fin cfg.agentCount)
  | completed (j : Job)
  | woke (id : TaskId)
  deriving DecidableEq

/-- The memory that the threads share. `spawned` and `log` are ghosts. -/
structure Mem (cfg : Config) where
  deques : Fin cfg.agentCount → Deque cfg.w Job
  slots : Fin cfg.agentCount → ParkState
  injector : List Job
  parked : Parked Job
  safepoint : Safepoint
  stopping : Bool
  rotor : ℕ
  nextId : TaskId
  spawned : ℕ
  log : List (Event cfg)

variable {cfg : Config}

namespace Mem

/-- `Cluster::with_capacity`. -/
def new (cfg : Config) : Mem cfg where
  deques _ := Deque.withCapacity 0 cfg.dequeCapacity
  slots _ := .running
  injector := []
  parked := Parked.new
  safepoint := Safepoint.new
  stopping := false
  rotor := 0
  nextId := 1
  spawned := 0
  log := []

def setSlot (m : Mem cfg) (i : Fin cfg.agentCount) (x : ParkState) : Mem cfg :=
  { m with slots := Function.update m.slots i x }

def setDeque (m : Mem cfg) (i : Fin cfg.agentCount) (d : Deque cfg.w Job) : Mem cfg :=
  { m with deques := Function.update m.deques i d }

def record (m : Mem cfg) (e : Event cfg) : Mem cfg := { m with log := e :: m.log }

/-- `agents.len().saturating_sub(1) as u32`. -/
def others (_ : Mem cfg) : BitVec 32 := BitVec.ofNat 32 (cfg.agentCount - 1)

/-- `mint_id`, for a new task. -/
def mint (m : Mem cfg) : Job := ⟨m.nextId, m.spawned⟩

def minted (m : Mem cfg) : Mem cfg :=
  { m with nextId := (m.nextId + 1) % 2 ^ 64, spawned := m.spawned + 1, log := .spawned m.mint :: m.log }

end Mem

/-- A pass of `drive_once`: its role, whether `run` made it, and how many tasks it has stepped. -/
structure Pass where
  role : AgentRole
  inRun : Bool
  ran : ℕ
  deriving DecidableEq

/-- The code that calls an operation of the cluster: the host's, or the step of a task. -/
inductive Site
  | host
  | task (p : Pass) (j : Job)
  deriving DecidableEq

/-- What `enter` returns to: `run`'s loop, the loop of `drive_once`, or a poll of host or task code. -/
inductive EnterK
  | run
  | pass (p : Pass)
  | site (k : Site)
  deriving DecidableEq

/-- What `release` returns to. -/
inductive ReleaseK
  | stopTheWorld (k : Site)
  | resumeWorld (k : Site)
  | shutdown (k : Site)
  deriving DecidableEq

/-- What a push returns to: `deposit` in `drive_once`, after a yielding step or a raced park, or
    `spawn_on` for the deque of `agent`. -/
inductive PushK (cfg : Config)
  | deposit (p : Pass) (yielded : Bool)
  | spawnOn (k : Site) (agent : Fin cfg.agentCount)
  deriving DecidableEq

/-- What a push to the injector returns to: a deposit that spilled, or `spawn` and `wake`. -/
inductive InjectK (cfg : Config)
  | spill (k : PushK cfg)
  | site (k : Site)
  deriving DecidableEq

/-- What `notify_one` returns to: `drive_once` after a yielding step, or `spawn`, `spawn_on` and `wake`. -/
inductive NotifyK
  | surplus (p : Pass)
  | site (k : Site)
  deriving DecidableEq

/-- What `has_work` returns to. -/
inductive HasWorkK
  | run
  | site (k : Site)
  deriving DecidableEq

/-- Control points of `run` outside the functions it calls. -/
inductive RunPc
  | top
  | publish
  | consume
  | recheck
  | unpublish
  | leaving
  | park
  | asleep
  | woken
  | check
  deriving DecidableEq

/-- Control points of `drive_once` outside the functions it calls, those of `next_job` among them. -/
inductive DrivePc (cfg : Config)
  | start
  | injector
  | rotor
  | victim (start k : ℕ)
  | found (j : Job) (migrated : Option (Fin cfg.agentCount))
  | surplusBottom
  | surplusTop (b : BitVec cfg.w)
  | stopping
  | requested
  | inPass
  | deadline
  deriving DecidableEq

inductive HasWorkPc (cfg : Config)
  | injector
  | bottom (k : ℕ)
  | top (k : ℕ) (b : BitVec cfg.w)
  deriving DecidableEq

inductive NotifyPc
  | scan (i : ℕ)
  | unpark (i : ℕ)
  deriving DecidableEq

/-- Control points of `stop_the_world`; at `inF` the closure is executing. -/
inductive StopPc
  | request (pc : Safepoint.RequestPc)
  | unparkAll (i : ℕ)
  | awaitAll (pc : Safepoint.AwaitPc)
  | inF
  deriving DecidableEq

inductive RequestSafepointPc
  | request (pc : Safepoint.RequestPc)
  | unparkAll (i : ℕ)
  deriving DecidableEq

inductive ShutdownPc
  | store
  | notify (i : ℕ)
  | unpark (i : ℕ)
  deriving DecidableEq

/-- The control state of a thread. -/
inductive Ctl (cfg : Config)
  | host
  | task (p : Pass) (j : Job)
  | run (pc : RunPc)
  | drive (p : Pass) (pc : DrivePc cfg)
  | pop (p : Pass) (pc : Deque.PopPc cfg.w)
  | steal (p : Pass) (start k : ℕ) (pc : Deque.StealPc cfg.w Job)
  | push (k : PushK cfg) (j : Job) (pc : Deque.PushPc cfg.w)
  | inject (k : InjectK cfg) (j : Job)
  | park (p : Pass) (j : Job) (pc : Parked.ParkPc)
  | notify (k : NotifyK) (pc : NotifyPc)
  | hasWork (k : HasWorkK) (pc : HasWorkPc cfg)
  | enter (k : EnterK) (pc : Safepoint.EnterPc)
  | release (k : ReleaseK) (pc : Safepoint.ReleasePc)
  | spawn (k : Site)
  | spawnOn (k : Site) (agent : Fin cfg.agentCount)
  | wake (k : Site) (id : TaskId) (pc : Parked.WakePc Job)
  | stopTheWorld (k : Site) (pc : StopPc)
  | requestSafepoint (k : Site) (pc : RequestSafepointPc)
  | worldIsStopped (k : Site)
  | shutdown (k : Site) (pc : ShutdownPc)
  | poll (k : Site)
  /-- Undefined behaviour: a slot was read that nothing had been written to. -/
  | ub
  deriving DecidableEq

/-- The operations that host and task code call. -/
inductive Call (cfg : Config)
  | run
  | driveOnce (role : AgentRole)
  | spawn
  | spawnOn (agent : Fin cfg.agentCount)
  | wake (id : TaskId)
  | hasWork
  | stopTheWorld
  | requestSafepoint
  | worldIsStopped
  | resumeWorld
  | shutdown
  /-- `if safepoint_requested() { enter_safepoint() }` -/
  | poll
  deriving DecidableEq

inductive Choice (cfg : Config)
  | go
  | call (c : Call cfg)
  /-- The task's step returns. -/
  | ret (s : Suspension)
  /-- The clock is past the deadline, or not yet. -/
  | clock (late : Bool)
  /-- `Park::park` returns although nobody signalled. -/
  | spurious
  deriving DecidableEq

/-- The addresses that threads park on. -/
inductive Addr (cfg : Config)
  | slot (i : Fin cfg.agentCount)
  | word (x : Safepoint.Word)
  deriving DecidableEq

namespace Site

def resume : Site → Ctl cfg
  | .host => .host
  | .task p j => .task p j

end Site

namespace Pass

/-- `drive_once` returns `Idle` or `Ran(ran)`. -/
def finish (p : Pass) : Ctl cfg :=
  if p.inRun then if p.ran = 0 then .run .publish else .run .top else .host

/-- `drive_once` returns `ShuttingDown`, and so does `run`. -/
def shuttingDown (_ : Pass) : Ctl cfg := .host

/-- The head of `drive_once`'s loop: look for the next job. -/
def next (p : Pass) : Ctl cfg := .pop p .loadBottom

def stepped (p : Pass) : Pass := { p with ran := p.ran + 1 }

end Pass

def EnterK.resume : EnterK → Ctl cfg
  | .run => .run .top
  | .pass p => .drive p .inPass
  | .site k => k.resume

def ReleaseK.resume : ReleaseK → Ctl cfg
  | .stopTheWorld k => k.resume
  | .resumeWorld k => k.resume
  | .shutdown k => .shutdown k (.notify 0)

def PushK.resume : PushK cfg → Ctl cfg
  | .deposit p true => .drive p .surplusBottom
  | .deposit p false => .drive p .stopping
  | .spawnOn k _ => .notify (.site k) (.scan 0)

def InjectK.resume : InjectK cfg → Ctl cfg
  | .spill k => k.resume
  | .site k => .notify (.site k) (.scan 0)

def NotifyK.resume : NotifyK → Ctl cfg
  | .surplus p => .drive p .stopping
  | .site k => k.resume

def HasWorkK.resume (found : Bool) : HasWorkK → Ctl cfg
  | .run => if found then .run .unpublish else .run .park
  | .site k => k.resume

/-- What a step of one thread comes to: the memory, the thread's control state and the signal it sends. -/
abbrev Result (cfg : Config) := Option (Mem cfg × Ctl cfg × Option (Addr cfg))

/-- A step that sends no signal. -/
def quiet (m : Mem cfg) (c : Ctl cfg) : Result cfg := some (m, c, none)

/-- A step that signals address `a`. -/
def signals (m : Mem cfg) (c : Ctl cfg) (a : Addr cfg) : Result cfg := some (m, c, some a)

/-- The control state at which an operation starts. -/
def Call.start (k : Site) : Call cfg → Ctl cfg
  | .run => .run .top
  | .driveOnce role => .drive ⟨role, false, 0⟩ .start
  | .spawn => .spawn k
  | .spawnOn a => .spawnOn k a
  | .wake id => .wake k id .lock
  | .hasWork => .hasWork (.site k) .injector
  | .stopTheWorld => .stopTheWorld k (.request .load)
  | .requestSafepoint => .requestSafepoint k (.request .load)
  | .worldIsStopped => .worldIsStopped k
  | .resumeWorld => .release (.resumeWorld k) .load
  | .shutdown => .shutdown k .store
  | .poll => .poll k

/-- A pass is not made inside another, and a thread that drives no agent calls nothing that needs one. -/
def Call.allowed (t : Tid cfg) (k : Site) : Call cfg → Bool
  | .run | .driveOnce _ => match t, k with
    | .agent _, .host => true
    | _, _ => false
  | .stopTheWorld | .poll => match t with
    | .agent _ => true
    | .ext _ => false
  | _ => true

/-- `run` on the thread of agent `i`. -/
def execRun (i : Fin cfg.agentCount) (m : Mem cfg) : RunPc → Choice cfg → Result cfg
  | .top, .go =>
    if m.safepoint.requested then quiet m (.enter .run .load) else quiet m (.drive ⟨.worker, true, 0⟩ .start)
  | .publish, .go =>
    if m.slots i = .running then quiet (m.setSlot i .parked) (.run .recheck) else quiet m (.run .consume)
  | .consume, .go => quiet (m.setSlot i .running) (.run .top)
  | .recheck, .go => if m.stopping then quiet m (.run .unpublish) else quiet m (.hasWork .run .injector)
  | .unpublish, .go => quiet (m.setSlot i .running) (.run .leaving)
  | .leaving, .go => if m.stopping then quiet m .host else quiet m (.run .top)
  | .park, .go => if m.slots i = .parked then quiet m (.run .asleep) else quiet m (.run .woken)
  | .asleep, .spurious => quiet m (.run .woken)
  | .woken, .go => quiet (m.setSlot i .running) (.run .check)
  | .check, .go => if m.stopping then quiet m .host else quiet m (.run .top)
  | _, _ => none

/-- The agent that `next_job` tries at position `k` of its scan: `(start + k) % n`. -/
def victimAt (cfg : Config) (start k : ℕ) : Fin cfg.agentCount :=
  ⟨(start + k) % 2 ^ cfg.w % cfg.agentCount, Nat.mod_lt _ cfg.agents_pos⟩

/-- `drive_once` on the thread of agent `i`. -/
def execDrive (i : Fin cfg.agentCount) (m : Mem cfg) (p : Pass) : DrivePc cfg → Choice cfg → Result cfg
  | .start, .go => if m.stopping then quiet m p.shuttingDown else quiet m p.next
  | .injector, .go =>
    match m.injector with
    | j :: rest => quiet { m with injector := rest } (.drive p (.found j none))
    | [] => if 1 < cfg.agentCount then quiet m (.drive p .rotor) else quiet m p.finish
  | .rotor, .go => quiet { m with rotor := (m.rotor + 1) % 2 ^ 32 } (.drive p (.victim m.rotor 0))
  | .victim start k, .go =>
    if k < cfg.agentCount then
      if victimAt cfg start k = i then quiet m (.drive p (.victim start (k + 1)))
      else quiet m (.steal p start k .loadTop)
    else quiet m p.finish
  | .found j migrated, .go =>
    match migrated with
    | none => quiet (m.record (.stepBegin j i)) (.task p j)
    | some v => quiet ((m.record (.migrate j v i)).record (.stepBegin j i)) (.task p j)
  | .surplusBottom, .go => quiet m (.drive p (.surplusTop (m.deques i).bottom))
  | .surplusTop b, .go =>
    if 1 < Deque.lenOf b (m.deques i).top then quiet m (.notify (.surplus p) (.scan 0)) else quiet m (.drive p .stopping)
  | .stopping, .go => if m.stopping then quiet m p.shuttingDown else quiet m (.drive p .requested)
  | .requested, .go =>
    if m.safepoint.requested then
      if p.role = .worker then quiet m (.drive p .inPass) else quiet m p.finish
    else quiet m (.drive p .deadline)
  | .inPass, .go =>
    if m.safepoint.requested then quiet m (.enter (.pass p) .load) else quiet m (.drive p .deadline)
  -- Only a main agent's pass has a deadline.
  | .deadline, .go => if p.role = .worker then quiet m p.next else none
  | .deadline, .clock late => if p.role = .worker then none else if late then quiet m p.finish else quiet m p.next
  | _, _ => none

/-- What `drive_once` does with a task whose step returned. -/
def suspend (i : Fin cfg.agentCount) (m : Mem cfg) (p : Pass) (j : Job) : Suspension → Result cfg
  | .completed => quiet ((m.record (.stepEnd j i)).record (.completed j)) (.drive p .stopping)
  | .pending => quiet (m.record (.stepEnd j i)) (.park p j .lock)
  | .yielded => quiet (m.record (.stepEnd j i)) (.push (.deposit p true) j .loadBottom)

/-- The deque that a push goes to: the agent's own, or the one that `spawn_on` names. -/
def PushK.target (i : Fin cfg.agentCount) : PushK cfg → Fin cfg.agentCount
  | .deposit _ _ => i
  | .spawnOn _ a => a

def execPop (i : Fin cfg.agentCount) (m : Mem cfg) (p : Pass) (pc : Deque.PopPc cfg.w) : Result cfg :=
  match (m.deques i).pop pc with
  | (d, .next pc') => quiet (m.setDeque i d) (.pop p pc')
  | (d, .ret none) => quiet (m.setDeque i d) (.drive p .injector)
  | (d, .ret (some (some j))) => quiet (m.setDeque i d) (.drive p (.found j none))
  | (d, .ret (some none)) => quiet (m.setDeque i d) .ub

/-- `next_job` steals from `v`, the victim at position `k` of its scan. -/
def execSteal (v : Fin cfg.agentCount) (m : Mem cfg) (p : Pass) (start k : ℕ) (pc : Deque.StealPc cfg.w Job) :
    Result cfg :=
  match (m.deques v).steal pc with
  | (d, .next pc') => quiet (m.setDeque v d) (.steal p start k pc')
  | (d, .ret none) => quiet (m.setDeque v d) (.drive p (.victim start (k + 1)))
  | (d, .ret (some (some j))) => quiet (m.setDeque v d) (.drive p (.found j (some v)))
  | (d, .ret (some none)) => quiet (m.setDeque v d) .ub

/-- A push to the deque of agent `a`: `deposit`. -/
def execPush (a : Fin cfg.agentCount) (m : Mem cfg) (k : PushK cfg) (j : Job) (pc : Deque.PushPc cfg.w) :
    Result cfg :=
  match (m.deques a).push j pc with
  | (d, .next pc') => quiet (m.setDeque a d) (.push k j pc')
  | (d, .ret true) => quiet (m.setDeque a d) k.resume
  | (d, .ret false) => quiet (m.setDeque a d) (.inject (.spill k) j)

def execPark (m : Mem cfg) (p : Pass) (j : Job) (pc : Parked.ParkPc) : Result cfg :=
  match m.parked.park j.id j pc with
  | (q, .next pc') => quiet { m with parked := q } (.park p j pc')
  | (q, .ret true) => quiet { m with parked := q } (.push (.deposit p false) j .loadBottom)
  | (q, .ret false) => quiet { m with parked := q } (.drive p .stopping)

/-- `notify_one`: move one agent out of `PARKED` and wake it. -/
def execNotify (m : Mem cfg) (k : NotifyK) : NotifyPc → Result cfg
  | .scan i =>
    if h : i < cfg.agentCount then
      if m.slots ⟨i, h⟩ = .parked then quiet (m.setSlot ⟨i, h⟩ .notified) (.notify k (.unpark i))
      else quiet m (.notify k (.scan (i + 1)))
    else quiet m k.resume
  | .unpark i => if h : i < cfg.agentCount then signals m k.resume (.slot ⟨i, h⟩) else none

def execHasWork (m : Mem cfg) (k : HasWorkK) : HasWorkPc cfg → Result cfg
  | .injector => if m.injector = [] then quiet m (.hasWork k (.bottom 0)) else quiet m (k.resume true)
  | .bottom a =>
    if h : a < cfg.agentCount then quiet m (.hasWork k (.top a (m.deques ⟨a, h⟩).bottom)) else quiet m (k.resume false)
  | .top a b =>
    if h : a < cfg.agentCount then
      if Deque.lenOf b (m.deques ⟨a, h⟩).top = 0 then quiet m (.hasWork k (.bottom (a + 1))) else quiet m (k.resume true)
    else none

def execEnter (m : Mem cfg) (k : EnterK) (pc : Safepoint.EnterPc) : Result cfg :=
  match m.safepoint.enter pc with
  | none => none
  | some (sp, .next pc', x) => some ({ m with safepoint := sp }, .enter k pc', x.map .word)
  | some (sp, .ret _, x) => some ({ m with safepoint := sp }, k.resume, x.map .word)

def execRelease (m : Mem cfg) (k : ReleaseK) (pc : Safepoint.ReleasePc) : Result cfg :=
  match m.safepoint.release m.stopping pc with
  | none => none
  | some (sp, .next pc', x) => some ({ m with safepoint := sp }, .release k pc', x.map .word)
  | some (sp, .ret _, x) => some ({ m with safepoint := sp }, k.resume, x.map .word)

def execWake (m : Mem cfg) (k : Site) (id : TaskId) (pc : Parked.WakePc Job) : Result cfg :=
  -- The wake takes effect in the body of the critical section.
  let m' := if pc = .body then m.record (.woke id) else m
  match m.parked.wake id pc with
  | (q, .next pc') => quiet { m' with parked := q } (.wake k id pc')
  | (q, .ret (some j)) => quiet { m' with parked := q } (.inject (.site k) j)
  | (q, .ret none) => quiet { m' with parked := q } k.resume

def execStop (m : Mem cfg) (k : Site) : StopPc → Result cfg
  | .request pc =>
    match m.safepoint.request pc with
    | (sp, .next pc') => quiet { m with safepoint := sp } (.stopTheWorld k (.request pc'))
    | (sp, .ret true) => quiet { m with safepoint := sp } (.stopTheWorld k (.unparkAll 0))
    | (sp, .ret false) => quiet { m with safepoint := sp } k.resume
  | .unparkAll i =>
    if h : i < cfg.agentCount then signals m (.stopTheWorld k (.unparkAll (i + 1))) (.slot ⟨i, h⟩)
    else quiet m (.stopTheWorld k (.awaitAll .load))
  | .awaitAll pc =>
    match m.safepoint.awaitAll m.others m.stopping pc with
    | none => none
    | some (.next pc') => quiet m (.stopTheWorld k (.awaitAll pc'))
    | some (.ret true) => quiet m (.stopTheWorld k .inF)
    | some (.ret false) => quiet m (.release (.stopTheWorld k) .load)
  | .inF => quiet m (.release (.stopTheWorld k) .load)

def execRequestSafepoint (m : Mem cfg) (k : Site) : RequestSafepointPc → Result cfg
  | .request pc =>
    match m.safepoint.request pc with
    | (sp, .next pc') => quiet { m with safepoint := sp } (.requestSafepoint k (.request pc'))
    | (sp, .ret true) => quiet { m with safepoint := sp } (.requestSafepoint k (.unparkAll 0))
    | (sp, .ret false) => quiet { m with safepoint := sp } k.resume
  | .unparkAll i =>
    if h : i < cfg.agentCount then signals m (.requestSafepoint k (.unparkAll (i + 1))) (.slot ⟨i, h⟩)
    else quiet m k.resume

def execShutdown (m : Mem cfg) (k : Site) : ShutdownPc → Result cfg
  | .store => quiet { m with stopping := true } (.release (.shutdown k) .load)
  | .notify i =>
    if h : i < cfg.agentCount then quiet (m.setSlot ⟨i, h⟩ .notified) (.shutdown k (.unpark i)) else quiet m k.resume
  | .unpark i => if h : i < cfg.agentCount then signals m (.shutdown k (.notify (i + 1))) (.slot ⟨i, h⟩) else none

/-- What host or task code does next: call an operation. -/
def execCall (t : Tid cfg) (m : Mem cfg) (k : Site) (c : Call cfg) : Result cfg :=
  if c.allowed t k then quiet m (c.start k) else none

/-- A thread asleep in the safepoint returns from `Park::park` although nobody signalled. -/
def spuriousWake : Ctl cfg → Option (Ctl cfg)
  | .enter k (.asleep s) => some (.enter k (.again s))
  | .release k (.asleep _) => some (.release k .drain)
  | .stopTheWorld k (.awaitAll (.asleep _)) => some (.stopTheWorld k (.awaitAll .load))
  | _ => none

/-- The steps of the operations that any thread may be in. -/
def execOp (m : Mem cfg) : Ctl cfg → Choice cfg → Result cfg
  | .inject k j, .go => quiet { m with injector := m.injector ++ [j] } k.resume
  | .notify k pc, .go => execNotify m k pc
  | .hasWork k pc, .go => execHasWork m k pc
  | .enter k pc, .go => execEnter m k pc
  | .release k pc, .go => execRelease m k pc
  | .spawn k, .go => quiet m.minted (.inject (.site k) m.mint)
  | .spawnOn k a, .go => quiet m.minted (.push (.spawnOn k a) m.mint .loadBottom)
  | .wake k id pc, .go => execWake m k id pc
  | .stopTheWorld k pc, .go => execStop m k pc
  | .requestSafepoint k pc, .go => execRequestSafepoint m k pc
  | .worldIsStopped k, .go => quiet m k.resume
  | .shutdown k pc, .go => execShutdown m k pc
  | .poll k, .go => if m.safepoint.requested then quiet m (.enter (.site k) .load) else quiet m k.resume
  | c, .spurious => (spuriousWake c).bind (quiet m)
  | _, _ => none

/-- The next indivisible step of a thread. -/
def exec : Tid cfg → Mem cfg → Ctl cfg → Choice cfg → Result cfg
  | t, m, .host, .call c => execCall t m .host c
  | t, m, .task p j, .call c => execCall t m (.task p j) c
  | .agent i, m, .task p j, .ret s => suspend i m p.stepped j s
  | .agent i, m, .run pc, ch => execRun i m pc ch
  | .agent i, m, .drive p pc, ch => execDrive i m p pc ch
  | .agent i, m, .pop p pc, .go => execPop i m p pc
  | .agent _, m, .steal p start k pc, .go => execSteal (victimAt cfg start k) m p start k pc
  | .agent i, m, .push k j pc, .go => execPush (k.target i) m k j pc
  | .ext _, m, .push (.spawnOn k a) j pc, .go => execPush a m (.spawnOn k a) j pc
  | .agent _, m, .park p j pc, .go => execPark m p j pc
  | _, m, c, ch => execOp m c ch

/-- A thread asleep on `a` returns from `Park::park`. -/
def awaken (t : Tid cfg) (a : Addr cfg) : Ctl cfg → Ctl cfg
  | .run .asleep => if ∃ i, t = .agent i ∧ a = .slot i then .run .woken else .run .asleep
  | .enter k (.asleep s) => if a = .word .state then .enter k (.again s) else .enter k (.asleep s)
  | .release k (.asleep n) => if a = .word .stopped then .release k .drain else .release k (.asleep n)
  | .stopTheWorld k (.awaitAll (.asleep n)) =>
    if a = .word .stopped then .stopTheWorld k (.awaitAll .load) else .stopTheWorld k (.awaitAll (.asleep n))
  | c => c

/-- The cluster as a program of its threads. -/
def cluster (cfg : Config) : Program (Tid cfg) (Mem cfg) (Ctl cfg) (Choice cfg) (Addr cfg) where
  exec := exec
  wake := awaken

abbrev State (cfg : Config) := Threads (Tid cfg) (Mem cfg) (Ctl cfg)

/-- A thread and what it chooses. -/
abbrev Act (cfg : Config) := Tid cfg × Choice cfg

/-- A new cluster, before any thread has called into it. -/
def State.init (cfg : Config) : State cfg := ⟨Mem.new cfg, fun _ => .host⟩

/-- Runs of a cluster whose steps meet `ok`. -/
abbrev Run (ok : State cfg → Act cfg → Prop) (s s' : State cfg) : Prop := Steps (cluster cfg).step ok s s'

/-- The states a new cluster reaches by steps that meet `ok`. -/
abbrev Reachable (ok : State cfg → Act cfg → Prop) (s : State cfg) : Prop := Run ok (State.init cfg) s

/-- A thread takes `n` steps that leave nothing open. -/
def Tid.go (t : Tid cfg) (n : ℕ) : List (Act cfg) := List.replicate n (t, .go)

def Tid.calls (t : Tid cfg) (o : Call cfg) : Act cfg := (t, .call o)

/-- What a run of a list of actions reaches. -/
theorem reachable_of_actions (ok : State cfg → Act cfg → Prop) [∀ s a, Decidable (ok s a)] (as : List (Act cfg))
    (q : State cfg → Bool) (h : (runActions (cluster cfg).step ok (State.init cfg) as).any q = true) :
    ∃ s, Reachable ok s ∧ q s = true := exists_of_runActions h

/-- What a run of two lists of actions reaches, the second under another condition. -/
theorem run_of_actions (ok₀ ok : State cfg → Act cfg → Prop) [∀ s a, Decidable (ok₀ s a)] [∀ s a, Decidable (ok s a)]
    (as₀ as : List (Act cfg)) (q₀ q : State cfg → Prop) [DecidablePred q₀] [DecidablePred q]
    (h : (runActions (cluster cfg).step ok₀ (State.init cfg) as₀).any (fun s₀ =>
      decide (q₀ s₀) && (runActions (cluster cfg).step ok s₀ as).any fun s => decide (q s)) = true) :
    ∃ s₀ s, Reachable ok₀ s₀ ∧ q₀ s₀ ∧ Run ok s₀ s ∧ q s := by
  obtain ⟨s₀, h₀, hq⟩ := exists_of_runActions h
  obtain ⟨hq₀, hq⟩ := Bool.and_eq_true_iff.mp hq
  obtain ⟨s, hs, hq⟩ := exists_of_runActions hq
  exact ⟨s₀, s, h₀, of_decide_eq_true hq₀, hs, of_decide_eq_true hq⟩

end Krio.Parallel
