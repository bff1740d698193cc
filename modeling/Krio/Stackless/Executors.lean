import Mathlib.Algebra.Group.Nat.Defs
import Mathlib.Data.List.Sort
import Krio.Stackless.Transform

/-! The executors of `krio-stackless/src/executor.rs`. -/

namespace Krio.Stackless

variable {U : Type}

/-- `emit_deadlock`: the host's report, which does not return, or nothing (`none`). -/
def emitDeadlock (hooks : Hooks U) (cfg : Body U) (bb : ℕ) : Option (Body U) :=
  hooks.deadlock.map fun u => (cfg.emit bb (.host u)).setTerm bb .unreachable

/-- The end of a scan that ran nothing: the report, or another scan from `top`. -/
def emitStuck (hooks : Hooks U) (cfg : Body U) (stuckBb top : ℕ) : Body U :=
  (emitDeadlock hooks cfg stuckBb).getD (cfg.setGoto stuckBb top)

/-- `region_exit`: the block reached once every coroutine is done. -/
def regionExit (cfg : Body U) (region : Region) : ℕ × Body U :=
  let (regionExitBb, cfg) := cfg.newBlock
  let regionEndBb := region.regionEnd.1
  let (postRegionBb, cfg) := cfg.splitAfter regionEndBb (cfg.statementCount regionEndBb - 1)
  (regionExitBb, cfg.setGoto regionExitBb postRegionBb)

/-- The markers of the region become no-ops. -/
def eraseMarkers (cfg : Body U) (region : Region) : Body U :=
  let cfg := region.coroutines.foldl
    (fun cfg c => (cfg.replace c.begin.1 c.begin.2 .nop).replace c.last.1 c.last.2 .nop) cfg
  (cfg.replace region.regionBegin.1 region.regionBegin.2 .nop).replace region.regionEnd.1 region.regionEnd.2 .nop

/-- If coroutine 0 starts in the block of `region_begin`, its dispatch leads to `newEntry`. -/
def retargetFirst (cfg : Body U) (region : Region) (machines : List Machine) (newEntry : ℕ) : Body U :=
  match machines, region.coroutines with
  | machine :: _, coroutine :: _ =>
    if coroutine.begin.1 = region.regionBegin.1 then cfg.redirectTargets machine.dispatchBb coroutine.begin.1 newEntry
    else cfg
  | _, _ => cfg

/-- `finish_region`: erase the markers, lift the first body, initialise the states and enter the executor. -/
def finishRegion (cfg : Body U) (region : Region) (machines : List Machine) (entryBb : ℕ) : Body U :=
  let cfg := eraseMarkers cfg region
  let (newEntry, cfg) := cfg.splitAfter region.regionBegin.1 region.regionBegin.2
  let cfg := retargetFirst cfg region machines newEntry
  let cfg := machines.foldl (fun cfg m => cfg.emit region.regionBegin.1 (.assignI64 m.stateLocal 0)) cfg
  cfg.setGoto region.regionBegin.1 entryBb

/-! ## Round robin -/

/-- One round of the loop over the machines of `build_cooperative_loop`, entered at `checkBb`: what it
    returns is `next_bb`. -/
def emitTurn (cfg : Body U) (allDoneLocal progress checkBb : ℕ) (machine : Machine) : ℕ × Body U :=
  let (isDone, cfg) := cfg.newBoolLocal
  let cfg := cfg.emit checkBb (.eqCheckI64 isDone machine.stateLocal doneState)
  let (afterPollBb, cfg) := cfg.newBlock
  let cfg := cfg.setBranch checkBb isDone afterPollBb machine.dispatchBb
  let cfg := cfg.setGoto machine.exitBb afterPollBb
  let (isReady, cfg) := cfg.newBoolLocal
  let cfg := cfg.emit afterPollBb (.eqCheckI64 isReady machine.pollResultLocal 0)
  let (markDoneBb, cfg) := cfg.newBlock
  let (markPendingBb, cfg) := cfg.newBlock
  let (nextBb, cfg) := cfg.newBlock
  let cfg := cfg.setBranch afterPollBb isReady markDoneBb markPendingBb
  let cfg := cfg.emit markDoneBb (.assignI64 machine.stateLocal doneState)
  let cfg := cfg.setGoto markDoneBb nextBb
  let cfg := cfg.emit markDoneBb (.assignI64 progress 1)
  let cfg := cfg.emit markPendingBb (.assignBool allDoneLocal false)
  let (blocked, cfg) := cfg.newBoolLocal
  let cfg := cfg.emit markPendingBb (.eqCheckI64 blocked machine.pollResultLocal pollBlocked)
  let (ranBb, cfg) := cfg.newBlock
  let cfg := cfg.setBranch markPendingBb blocked nextBb ranBb
  let cfg := cfg.emit ranBb (.assignI64 progress 1)
  (nextBb, cfg.setGoto ranBb nextBb)

/-- The rounds after the first: each opens a check block of its own. What it returns is the last
    `current_bb`. -/
def emitTurns (allDoneLocal progress : ℕ) : ℕ → List Machine → Body U → ℕ × Body U
  | currentBb, [], cfg => (currentBb, cfg)
  | currentBb, machine :: machines, cfg =>
    let (checkBb, cfg) := cfg.newBlock
    let cfg := cfg.setGoto currentBb checkBb
    let (currentBb, cfg) := emitTurn cfg allDoneLocal progress checkBb machine
    emitTurns allDoneLocal progress currentBb machines cfg

/-- The blocks of a loop that statements about its runs name; a pass ends at `currentBb`. -/
structure Loop where
  loopBb : ℕ
  regionExitBb : ℕ
  currentBb : ℕ
  stuckBb : ℕ
  deriving DecidableEq, Repr

def buildCooperativeLoop (hooks : Hooks U) (cfg : Body U) (region : Region) (machines : List Machine) : Loop × Body U :=
  let (loopBb, cfg) := cfg.newBlock
  let (regionExitBb, cfg) := regionExit cfg region
  let (allDoneLocal, cfg) := cfg.newMutBoolLocal
  let progress := (machines.head?.map (·.progressLocal)).getD 0
  let cfg := cfg.emit loopBb (.assignBool allDoneLocal true)
  let cfg := cfg.emit loopBb (.assignI64 progress 0)
  let (currentBb, cfg) :=
    match machines with
    | [] => (loopBb, cfg)
    | machine :: machines =>
      let (currentBb, cfg) := emitTurn cfg allDoneLocal progress loopBb machine
      emitTurns allDoneLocal progress currentBb machines cfg
  let (notDoneBb, cfg) := cfg.newBlock
  let cfg := cfg.setBranch currentBb allDoneLocal regionExitBb notDoneBb
  let (stuckBb, cfg) := cfg.newBlock
  let (progressed, cfg) := cfg.newBoolLocal
  let cfg := cfg.emit notDoneBb (.eqCheckI64 progressed progress 1)
  let cfg := cfg.setBranch notDoneBb progressed loopBb stuckBb
  let cfg := emitStuck hooks cfg stuckBb loopBb
  (⟨loopBb, regionExitBb, currentBb, stuckBb⟩, finishRegion cfg region machines loopBb)

/-! ## Strict priority -/

/-- The key of `order.sort_by_key`. -/
def priorityKey (region : Region) (i : ℕ) : ℕ :=
  (((region.coroutines[i]?).bind (·.priority)).getD (UInt32.ofNat (2 ^ 32 - 1))).toNat

/-- The order of the keys `(priority, i)`. -/
def beforeOrEq (region : Region) (i j : ℕ) : Prop :=
  priorityKey region i < priorityKey region j ∨ priorityKey region i = priorityKey region j ∧ i ≤ j

instance (region : Region) : DecidableRel (beforeOrEq region) := fun _ _ => inferInstanceAs (Decidable (_ ∨ _))

def priorityOf (region : Region) (i : ℕ) : Option UInt32 := (region.coroutines[i]?).bind (·.priority)

/-- Where `i` goes: into the last band if that has its priority, else into a new one. -/
def joinBand (region : Region) (bands : List (List ℕ)) (i : ℕ) : List (List ℕ) :=
  match bands.getLast? with
  | some (first :: rest) =>
    if priorityOf region first = priorityOf region i then bands.dropLast ++ [(first :: rest) ++ [i]]
    else bands ++ [[i]]
  | _ => bands ++ [[i]]

def bandsOf (region : Region) (count : ℕ) : List (List ℕ) :=
  ((List.range count).insertionSort (beforeOrEq region)).foldl (joinBand region) []

/-- As many fresh blocks as `count`. -/
def newBlocks (count : ℕ) (cfg : Body U) : List ℕ × Body U :=
  match count with
  | 0 => ([], cfg)
  | count + 1 =>
    let (bb, cfg) := cfg.newBlock
    let (bbs, cfg) := newBlocks count cfg
    (bb :: bbs, cfg)

def newStateLocals (count : ℕ) (cfg : Body U) : List ℕ × Body U :=
  match count with
  | 0 => ([], cfg)
  | count + 1 =>
    let (l, cfg) := cfg.newStateLocal
    let (ls, cfg) := newStateLocals count cfg
    (l :: ls, cfg)

/-- Fresh blocks for every member of every band. -/
def newSites : List (List ℕ) → Body U → List (List ℕ) × Body U
  | [], cfg => ([], cfg)
  | band :: bands, cfg =>
    let (bbs, cfg) := newBlocks band.length cfg
    let (sites, cfg) := newSites bands cfg
    (bbs :: sites, cfg)

/-- The poll block of one half of a scan. -/
def emitPoll (cfg : Body U) (pollBb sweepLocal : ℕ) (sweep : ℤ) (next : ℕ) (machine : Machine) : Body U :=
  let cfg := cfg.emit pollBb (.assignI64 sweepLocal sweep)
  let (done, cfg) := cfg.newBoolLocal
  let cfg := cfg.emit pollBb (.eqCheckI64 done machine.stateLocal doneState)
  cfg.setBranch pollBb done next machine.dispatchBb

/-- The blocks of one member of a band: its scan sites and where each half goes on. -/
structure ScanSite where
  first : ℕ
  second : ℕ
  nextFirst : ℕ
  nextSecond : ℕ
  deriving DecidableEq, Repr

/-- The body of the loop over the members: member `k` of a band of `n`. -/
def emitMember (cfg : Body U) (topBb lastLocal sweepLocal : ℕ) (n k : ℕ) (site : ScanSite) (machine : Machine) :
    Body U :=
  let later : List ℤ := (List.range' k (n - k)).map (↑)
  let (pollFirst, cfg) := cfg.newBlock
  let (pollSecond, cfg) := cfg.newBlock
  let cfg := cfg.setSwitch site.first lastLocal (later.map fun v => (v, site.nextFirst)) pollFirst
  let cfg := cfg.setSwitch site.second lastLocal (later.map fun v => (v, pollSecond)) site.nextSecond
  let cfg := emitPoll cfg pollFirst sweepLocal 0 site.nextFirst machine
  let cfg := emitPoll cfg pollSecond sweepLocal 1 site.nextSecond machine
  let (after, cfg) := cfg.newBlock
  let cfg := cfg.setGoto machine.exitBb after
  let (blocked, cfg) := cfg.newBoolLocal
  let cfg := cfg.emit after (.eqCheckI64 blocked machine.pollResultLocal pollBlocked)
  let (ran, cfg) := cfg.newBlock
  let (passOn, cfg) := cfg.newBlock
  let cfg := cfg.setBranch after blocked passOn ran
  let cfg := cfg.emit ran (.assignI64 lastLocal k)
  let cfg := cfg.setGoto ran topBb
  cfg.setSwitch passOn sweepLocal [(0, site.nextFirst)] site.nextSecond

/-- The scan sites of a band of which `firsts` and `seconds` are the blocks: the first half goes on to the
    second, the second to `nextBand`. -/
def scanSites (firsts seconds : List ℕ) (secondHead nextBand : ℕ) : List ScanSite :=
  match firsts, seconds with
  | first :: firsts, second :: seconds =>
    ⟨first, second, firsts.headD secondHead, seconds.headD nextBand⟩ :: scanSites firsts seconds secondHead nextBand
  | _, _ => []

/-- The members of a band from number `k` on. -/
def emitMembers (topBb lastLocal sweepLocal : ℕ) (n : ℕ) : ℕ → List (ScanSite × Machine) → Body U → Body U
  | _, [], cfg => cfg
  | k, (site, machine) :: members, cfg =>
    emitMembers topBb lastLocal sweepLocal n (k + 1) members
      (emitMember cfg topBb lastLocal sweepLocal n k site machine)

/-- What the scan of a band needs: its members, its two locals and its blocks. -/
structure Band where
  members : List Machine
  last : ℕ
  sweep : ℕ
  firsts : List ℕ
  seconds : List ℕ

def emitBand (cfg : Body U) (topBb nextBand : ℕ) (band : Band) : Body U :=
  emitMembers topBb band.last band.sweep band.members.length 0
    ((scanSites band.firsts band.seconds (band.seconds.headD nextBand) nextBand).zip band.members) cfg

def emitBands (topBb checkDoneBb : ℕ) : List Band → Body U → Body U
  | [], cfg => cfg
  | band :: bands, cfg =>
    emitBands topBb checkDoneBb bands
      (emitBand cfg topBb ((bands.head?.bind (·.firsts.head?)).getD checkDoneBb) band)

/-- The chain that checks every machine for completion. -/
def emitChecks (noProgressBb : ℕ) : ℕ → List Machine → Body U → ℕ × Body U
  | checkBb, [], cfg => (checkBb, cfg)
  | checkBb, machine :: machines, cfg =>
    let (done, cfg) := cfg.newBoolLocal
    let cfg := cfg.emit checkBb (.eqCheckI64 done machine.stateLocal doneState)
    let (next, cfg) := cfg.newBlock
    let cfg := cfg.setBranch checkBb done next noProgressBb
    emitChecks noProgressBb next machines cfg

/-- The bands with their locals and blocks. -/
def layBands (machines : List Machine) :
    List (List ℕ) → List ℕ → List ℕ → List (List ℕ) → List (List ℕ) → List Band
  | band :: bands, last :: lasts, sweep :: sweeps, fs :: firsts, ss :: seconds =>
    ⟨band.filterMap (machines[·]?), last, sweep, fs, ss⟩ :: layBands machines bands lasts sweeps firsts seconds
  | _, _, _, _, _ => []

def buildPriorityLoop (hooks : Hooks U) (cfg : Body U) (region : Region) (machines : List Machine) : Loop × Body U :=
  let (regionExitBb, cfg) := regionExit cfg region
  let bands := bandsOf region machines.length
  let (initBb, cfg) := cfg.newBlock
  let (topBb, cfg) := cfg.newBlock
  let (checkDoneBb, cfg) := cfg.newBlock
  let (lasts, cfg) := newStateLocals bands.length cfg
  let (sweeps, cfg) := newStateLocals bands.length cfg
  let cfg := lasts.foldl (fun cfg l => cfg.emit initBb (.assignI64 l (-1))) cfg
  let cfg := cfg.setGoto initBb topBb
  let progress := (machines.head?.map (·.progressLocal)).getD 0
  let cfg := cfg.emit topBb (.assignI64 progress 0)
  let (firsts, cfg) := newSites bands cfg
  let (seconds, cfg) := newSites bands cfg
  let cfg := cfg.setGoto topBb ((firsts.head?.bind (·.head?)).getD checkDoneBb)
  let cfg := emitBands topBb checkDoneBb (layBands machines bands lasts sweeps firsts seconds) cfg
  let (stuckBb, cfg) := cfg.newBlock
  let (noProgressBb, cfg) := cfg.newBlock
  let (progressed, cfg) := cfg.newBoolLocal
  let cfg := cfg.emit noProgressBb (.eqCheckI64 progressed progress 1)
  let cfg := cfg.setBranch noProgressBb progressed topBb stuckBb
  let cfg := emitStuck hooks cfg stuckBb topBb
  let (checkBb, cfg) := emitChecks noProgressBb checkDoneBb machines cfg
  let cfg := cfg.setGoto checkBb regionExitBb
  (⟨topBb, regionExitBb, checkDoneBb, stuckBb⟩, finishRegion cfg region machines initBb)

/-- `CooperativeExecutor`. Its state lists the loops it laid out, for statements about runs. -/
def cooperative (hooks : Hooks U) : Executor U (List Loop) := fun loops cfg region machines =>
  let (loop, cfg) :=
    if region.coroutines.any (·.priority.isSome) then buildPriorityLoop hooks cfg region machines
    else buildCooperativeLoop hooks cfg region machines
  (loops ++ [loop], cfg)

/-! ## One-shot polling -/

structure RegionExits where
  done : ℕ
  pending : ℕ
  deriving DecidableEq, Repr

/-- One round of the loop over the machines of `build_oneshot_poll`. -/
def emitPollOnce (cfg : Body U) (allDoneLocal checkBb : ℕ) (machine : Machine) : ℕ × Body U :=
  let (isDone, cfg) := cfg.newBoolLocal
  let cfg := cfg.emit checkBb (.eqCheckI64 isDone machine.stateLocal doneState)
  let (afterPollBb, cfg) := cfg.newBlock
  let cfg := cfg.setBranch checkBb isDone afterPollBb machine.dispatchBb
  let cfg := cfg.setGoto machine.exitBb afterPollBb
  let (isReady, cfg) := cfg.newBoolLocal
  let cfg := cfg.emit afterPollBb (.eqCheckI64 isReady machine.pollResultLocal 0)
  let (markDoneBb, cfg) := cfg.newBlock
  let (markPendingBb, cfg) := cfg.newBlock
  let (nextBb, cfg) := cfg.newBlock
  let cfg := cfg.setBranch afterPollBb isReady markDoneBb markPendingBb
  let cfg := cfg.emit markDoneBb (.assignI64 machine.stateLocal doneState)
  let cfg := cfg.setGoto markDoneBb nextBb
  let cfg := cfg.emit markPendingBb (.assignBool allDoneLocal false)
  (nextBb, cfg.setGoto markPendingBb nextBb)

def emitPollsOnce (allDoneLocal : ℕ) : ℕ → List Machine → Body U → ℕ × Body U
  | currentBb, [], cfg => (currentBb, cfg)
  | currentBb, machine :: machines, cfg =>
    let (checkBb, cfg) := cfg.newBlock
    let cfg := cfg.setGoto currentBb checkBb
    let (currentBb, cfg) := emitPollOnce cfg allDoneLocal checkBb machine
    emitPollsOnce allDoneLocal currentBb machines cfg

/-- `build_oneshot_poll`. The source repeats `finish_region` here line by line. -/
def buildOneshotPoll (cfg : Body U) (region : Region) (machines : List Machine) : RegionExits × Body U :=
  let (pollTopBb, cfg) := cfg.newBlock
  let (regionDoneBb, cfg) := cfg.newBlock
  let (regionPendingBb, cfg) := cfg.newBlock
  let regionEndBb := region.regionEnd.1
  let (postRegionBb, cfg) := cfg.splitAfter regionEndBb (cfg.statementCount regionEndBb - 1)
  let cfg := cfg.setGoto regionDoneBb postRegionBb
  let (allDoneLocal, cfg) := cfg.newMutBoolLocal
  let cfg := cfg.emit pollTopBb (.assignBool allDoneLocal true)
  let (currentBb, cfg) :=
    match machines with
    | [] => (pollTopBb, cfg)
    | machine :: machines =>
      let (currentBb, cfg) := emitPollOnce cfg allDoneLocal pollTopBb machine
      emitPollsOnce allDoneLocal currentBb machines cfg
  let cfg := cfg.setBranch currentBb allDoneLocal regionDoneBb regionPendingBb
  (⟨regionDoneBb, regionPendingBb⟩, finishRegion cfg region machines pollTopBb)

/-- `WakerExecutor`, with the exits it has recorded. -/
def waker : Executor U (List RegionExits) := fun regions cfg region machines =>
  let (exits, cfg) := buildOneshotPoll cfg region machines
  (regions ++ [exits], cfg)

end Krio.Stackless
