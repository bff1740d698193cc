import Krio.Lib.Custody
import Krio.Parallel.DequeInv
import Krio.Parallel.Inversion

/-! Where the jobs of a cluster are: the deques, the injector, the map of waiting tasks, and the hands of
the threads. A thread has in its hands the task whose step it is in, also while that step is inside an
operation of the cluster, and every job that it is carrying from one container to the next. -/

namespace Krio.Parallel
open Lib

def Site.jobs : Site → List Job
  | .host => []
  | .task _ j => [j]

def EnterK.jobs : EnterK → List Job
  | .site k => k.jobs
  | .run | .pass _ => []

def ReleaseK.jobs : ReleaseK → List Job
  | .stopTheWorld k | .resumeWorld k | .shutdown k => k.jobs

def NotifyK.jobs : NotifyK → List Job
  | .surplus _ => []
  | .site k => k.jobs

def HasWorkK.jobs : HasWorkK → List Job
  | .run => []
  | .site k => k.jobs

section
variable {cfg : Config}

def PushK.jobs : PushK cfg → List Job
  | .deposit _ _ => []
  | .spawnOn k _ => k.jobs

def InjectK.jobs : InjectK cfg → List Job
  | .spill k => k.jobs
  | .site k => k.jobs

namespace Ctl

/-- The jobs that a thread carries. -/
def jobs : Ctl cfg → List Job
  | .host | .run _ | .pop _ _ | .steal _ _ _ _ | .ub => []
  | .task _ j => [j]
  | .drive _ (.found j _) => [j]
  | .drive _ _ => []
  | .push k j _ => j :: k.jobs
  | .inject k j => j :: k.jobs
  | .park _ j .lock | .park _ j .body | .park _ j (.unlock true) => [j]
  | .park _ _ _ => []
  | .notify k _ => k.jobs
  | .hasWork k _ => k.jobs
  | .enter k _ => k.jobs
  | .release k _ => k.jobs
  | .wake k _ (.count j) | .wake k _ (.unlock (some j)) => j :: k.jobs
  | .wake k _ _ => k.jobs
  | .spawn k | .spawnOn k _ | .stopTheWorld k _ | .requestSafepoint k _ | .worldIsStopped k | .shutdown k _
  | .poll k => k.jobs

/-- The host or task code that a thread is in, or in an operation called from. -/
def site : Ctl cfg → Site
  | .task p j => .task p j
  | .push (.spawnOn k _) _ _ | .inject (.spill (.spawnOn k _)) _ | .inject (.site k) _ | .notify (.site k) _
  | .hasWork (.site k) _ | .enter (.site k) _ | .release (.stopTheWorld k) _ | .release (.resumeWorld k) _
  | .release (.shutdown k) _ | .wake k _ _ | .spawn k | .spawnOn k _ | .stopTheWorld k _ | .requestSafepoint k _
  | .worldIsStopped k | .shutdown k _ | .poll k => k
  | _ => .host

/-- Where a thread is with its own deque. -/
def owner : Ctl cfg → OwnerPc cfg.w Job
  | .push _ j pc => .push j pc
  | .pop _ pc => .pop pc
  | _ => .idle

/-- Where a thread is in a `steal` from agent `a`. -/
def thief (a : Fin cfg.agentCount) : Ctl cfg → Option (Deque.StealPc cfg.w Job)
  | .steal _ start k pc => if victimAt cfg start k = a then some pc else none
  | _ => none

/-- About to mint the identity of a new task. -/
def mints : Ctl cfg → Bool
  | .spawn _ | .spawnOn _ _ => true
  | _ => false

/-- Not in the middle of an operation on a deque. -/
def resting (c : Ctl cfg) : Prop := c.owner.resting = true ∧ ∀ a pc, c.thief a = some pc → pc = .loadTop

/-- A push to the deque of an agent that `spawn_on` names goes to the thread's own agent. -/
def onTarget (t : Tid cfg) : Ctl cfg → Prop
  | .spawnOn _ a | .push (.spawnOn _ a) _ _ | .inject (.spill (.spawnOn _ a)) _ => t = .agent a
  | _ => True

end Ctl

/-- The places that a job can be in. -/
inductive Place (cfg : Config)
  | deque (a : Fin cfg.agentCount)
  | injector
  | parked
  | hands (t : Tid cfg)
  deriving DecidableEq

namespace State

def owner (s : State cfg) (a : Fin cfg.agentCount) : OwnerPc cfg.w Job := (s.ctl (.agent a)).owner

def thief (s : State cfg) (a i : Fin cfg.agentCount) : Option (Deque.StealPc cfg.w Job) := (s.ctl (.agent i)).thief a

/-- The jobs in the deque of agent `a`. -/
def live (s : State cfg) (a : Fin cfg.agentCount) : List Job := (s.mem.deques a).live (s.owner a)

/-- The jobs in the hands of a thread: the ones it carries, and the one it has taken out of its deque. -/
def hands (s : State cfg) : Tid cfg → List Job
  | .agent i => (s.mem.deques i).hand (s.owner i) ++ (s.ctl (.agent i)).jobs
  | .ext k => (s.ctl (.ext k)).jobs

/-- The jobs in each place. -/
def hold (s : State cfg) : Place cfg → List Job
  | .deque a => s.live a
  | .injector => s.mem.injector
  | .parked => s.mem.parked.waiting
  | .hands t => s.hands t

end State

/-- A job that was spawned and has not completed. -/
def Mem.out (m : Mem cfg) (j : Job) : Prop := .spawned j ∈ m.log ∧ .completed j ∉ m.log

/-- What the callers of a cluster promise and its users never reach: `spawn_on` is only called by the thread
    that drives the agent, a call of `steal` does not overlap a full turn of the index space, and there are
    fewer than `2 ^ 64` spawns. -/
structure Sane (s : State cfg) (a : Act cfg) : Prop where
  owner : ∀ x, a.2 = .call (.spawnOn x) → a.1 = .agent x
  inTime : ∀ v pc, (s.ctl a.1).thief v = some pc → (s.mem.deques v).inTime pc = true
  spawns : (s.ctl a.1).mints = true → s.mem.spawned + 1 < 2 ^ 64

instance : ∀ (s : State cfg) (a : Act cfg), Decidable (Sane s a) := fun s a =>
  decidable_of_iff ((∀ x, a.2 = .call (.spawnOn x) → a.1 = .agent x) ∧
      (∀ v, ((s.ctl a.1).thief v).all (s.mem.deques v).inTime = true) ∧ ((s.ctl a.1).mints = true → s.mem.spawned + 1 < 2 ^ 64))
    ⟨fun ⟨h₁, h₂, h₃⟩ => ⟨h₁, fun v pc hv => (Option.all_eq_true _ _).mp (h₂ v) pc hv, h₃⟩,
      fun ⟨h₁, h₂, h₃⟩ => ⟨h₁, fun v => (Option.all_eq_true _ _).mpr (h₂ v), h₃⟩⟩

/-! ### Where jobs go -/

/-- Neither a spawn nor a completion. -/
structure SameLedger (m m' : Mem cfg) : Prop where
  spawned : m'.spawned = m.spawned
  nextId : m'.nextId = m.nextId
  born : ∀ j, .spawned j ∈ m'.log ↔ .spawned j ∈ m.log
  done : ∀ j, .completed j ∈ m'.log ↔ .completed j ∈ m.log

/-- What a step outside the deques does with jobs. -/
inductive Handover (m : Mem cfg) (c : Ctl cfg) (m' : Mem cfg) (c' : Ctl cfg) : Prop
  | keep : c'.jobs = c.jobs → m'.injector = m.injector → m'.parked.tasks = m.parked.tasks → SameLedger m m' →
      Handover m c m' c'
  | take {j : Job} : c.jobs = [] → c'.jobs = [j] → m.injector = j :: m'.injector → m'.parked.tasks = m.parked.tasks →
      SameLedger m m' → Handover m c m' c'
  | put {k : InjectK cfg} {j : Job} : c = .inject k j → c' = k.resume → m'.injector = m.injector ++ [j] →
      m'.parked.tasks = m.parked.tasks → SameLedger m m' → Handover m c m' c'
  | park {p : Pass} {j : Job} : c = .park p j .body → c'.jobs = [] → m'.injector = m.injector →
      m'.parked.tasks = m.parked.tasks.insert j.id j → SameLedger m m' → Handover m c m' c'
  | wake {id : TaskId} {j : Job} : c'.jobs = j :: c.jobs → m'.injector = m.injector →
      m.parked.tasks.lookup id = some j → m'.parked.tasks = m.parked.tasks.erase id → SameLedger m m' →
      Handover m c m' c'
  | spawn : c.mints = true → c'.jobs = m.mint :: c.jobs → m' = m.minted → Handover m c m' c'
  | complete {j : Job} {i : Fin cfg.agentCount} : c.jobs = [j] → c'.jobs = [] →
      m' = (m.record (.stepEnd j i)).record (.completed j) → Handover m c m' c'

variable {t : Tid cfg} {m m' : Mem cfg} {c c' : Ctl cfg} {ch : Choice cfg} {w : Option (Addr cfg)}

theorem SameLedger.of_log (hs : m'.spawned = m.spawned) (hn : m'.nextId = m.nextId) (hl : m'.log = m.log) :
    SameLedger m m' := ⟨hs, hn, fun _ => by rw [hl], fun _ => by rw [hl]⟩

@[simp] theorem jobs_siteResume (k : Site) : (k.resume : Ctl cfg).jobs = k.jobs := by cases k <;> rfl
@[simp] theorem jobs_enterResume (k : EnterK) : (k.resume : Ctl cfg).jobs = k.jobs := by
  rcases k with _ | _ | (_ | _) <;> rfl
@[simp] theorem jobs_releaseResume (k : ReleaseK) : (k.resume : Ctl cfg).jobs = k.jobs := by
  rcases k with (_ | _) | (_ | _) | (_ | _) <;> rfl
@[simp] theorem jobs_pushResume (k : PushK cfg) : k.resume.jobs = k.jobs := by rcases k with ⟨_, _ | _⟩ | _ <;> rfl
@[simp] theorem jobs_injectResume (k : InjectK cfg) : k.resume.jobs = k.jobs := by
  rcases k with (⟨_, _ | _⟩ | _) | _ <;> rfl
@[simp] theorem jobs_notifyResume (k : NotifyK) : (k.resume : Ctl cfg).jobs = k.jobs := by
  rcases k with _ | (_ | _) <;> rfl
@[simp] theorem jobs_hasWorkResume (k : HasWorkK) (b : Bool) : (k.resume b : Ctl cfg).jobs = k.jobs := by
  rcases k with _ | (_ | _) <;> cases b <;> rfl
@[simp] theorem jobs_finish (p : Pass) : (p.finish : Ctl cfg).jobs = [] := by
  unfold Pass.finish
  split
  · split <;> rfl
  · rfl

/-- A thread inside a step has the stepped job in its hands. -/
theorem site_jobs_subset (c : Ctl cfg) : c.site.jobs ⊆ c.jobs := by
  cases c with
  | push k j pc => cases k <;> simp [Ctl.site, Ctl.jobs, PushK.jobs, Site.jobs]
  | inject k j => rcases k with (_ | _) | _ <;> simp [Ctl.site, Ctl.jobs, InjectK.jobs, PushK.jobs, Site.jobs]
  | notify k pc => cases k <;> simp [Ctl.site, Ctl.jobs, NotifyK.jobs, Site.jobs]
  | hasWork k pc => cases k <;> simp [Ctl.site, Ctl.jobs, HasWorkK.jobs, Site.jobs]
  | enter k pc => cases k <;> simp [Ctl.site, Ctl.jobs, EnterK.jobs, Site.jobs]
  | release k pc => cases k <;> simp [Ctl.site, Ctl.jobs, ReleaseK.jobs]
  | wake k id pc => rcases pc with _ | _ | _ | (_ | _) <;> simp [Ctl.site, Ctl.jobs]
  | _ => simp [Ctl.site, Ctl.jobs, Site.jobs]

/-- Control states with no operation on a deque in them. -/
theorem resting_of_idle (ho : c.owner = .idle) (ht : ∀ a, c.thief a = none) : c.resting :=
  ⟨by rw [ho]; rfl, fun a pc h => by rw [ht a] at h; cases h⟩

@[simp] theorem resting_siteResume (k : Site) : (k.resume : Ctl cfg).resting := by
  cases k <;> exact ⟨rfl, by rintro _ _ ⟨⟩⟩
@[simp] theorem resting_enterResume (k : EnterK) : (k.resume : Ctl cfg).resting := by
  rcases k with _ | _ | (_ | _) <;> exact ⟨rfl, by rintro _ _ ⟨⟩⟩
@[simp] theorem resting_releaseResume (k : ReleaseK) : (k.resume : Ctl cfg).resting := by
  rcases k with (_ | _) | (_ | _) | (_ | _) <;> exact ⟨rfl, by rintro _ _ ⟨⟩⟩
@[simp] theorem resting_pushResume (k : PushK cfg) : k.resume.resting := by
  rcases k with ⟨_, _ | _⟩ | _ <;> exact ⟨rfl, by rintro _ _ ⟨⟩⟩
theorem thief_pushResume (k : PushK cfg) (v : Fin cfg.agentCount) : k.resume.thief v = none := by
  rcases k with ⟨_, _ | _⟩ | _ <;> rfl
@[simp] theorem resting_injectResume (k : InjectK cfg) : k.resume.resting := by
  rcases k with (⟨_, _ | _⟩ | _) | _ <;> exact ⟨rfl, by rintro _ _ ⟨⟩⟩
@[simp] theorem resting_notifyResume (k : NotifyK) : (k.resume : Ctl cfg).resting := by
  rcases k with _ | (_ | _) <;> exact ⟨rfl, by rintro _ _ ⟨⟩⟩
@[simp] theorem resting_hasWorkResume (k : HasWorkK) (b : Bool) : (k.resume b : Ctl cfg).resting := by
  rcases k with _ | (_ | _) <;> cases b <;> exact ⟨rfl, by rintro _ _ ⟨⟩⟩
@[simp] theorem resting_finish (p : Pass) : (p.finish : Ctl cfg).resting := by
  unfold Pass.finish
  (repeat' split) <;> exact ⟨rfl, by rintro _ _ ⟨⟩⟩

theorem jobs_start (k : Site) (o : Call cfg) (ho : o.allowed t k = true) : (o.start k).jobs = k.jobs := by
  cases o <;> cases k <;> first | rfl | (cases t <;> cases ho)

theorem resting_start (k : Site) (o : Call cfg) : (o.start k).resting := by
  cases o <;> exact ⟨rfl, by rintro _ _ ⟨⟩⟩

/-- What a step outside the deques does: it leaves them alone, and hands at most one job over. -/
theorem ExecCase.handover (h : ExecCase t m c ch (m', c', w)) (ho : c.owner = .idle) (ht : ∀ a, c.thief a = none) :
    m'.deques = m.deques ∧ c'.resting ∧ Handover m c m' c' := by
  have keep : ∀ {x : Mem cfg} {d : Ctl cfg}, x.deques = m.deques → d.resting → d.jobs = c.jobs →
      x.injector = m.injector → x.parked.tasks = m.parked.tasks → SameLedger m x →
      x.deques = m.deques ∧ d.resting ∧ Handover m c x d := fun h₁ h₂ h₃ h₄ h₅ h₆ => ⟨h₁, h₂, .keep h₃ h₄ h₅ h₆⟩
  have idle : ∀ {d : Ctl cfg}, d.owner = .idle → (∀ a, d.thief a = none) → d.resting := resting_of_idle
  cases h with
  | @callHost o r h =>
    obtain ⟨ho, rfl, rfl, -⟩ := execCall_inv h
    exact keep rfl (resting_start _ o) (jobs_start _ o ho) rfl rfl (.of_log rfl rfl rfl)
  | @callTask p j o r h =>
    obtain ⟨ho, rfl, rfl, -⟩ := execCall_inv h
    exact keep rfl (resting_start _ o) (jobs_start _ o ho) rfl rfl (.of_log rfl rfl rfl)
  | @suspend i p j s r _ h =>
    unfold Parallel.suspend at h
    split at h <;> cases h
    · exact ⟨rfl, idle rfl fun _ => rfl, .complete rfl rfl rfl⟩
    · exact keep rfl (idle rfl fun _ => rfl) rfl rfl rfl (by constructor <;> simp [Mem.record])
    · exact keep rfl ⟨rfl, by rintro _ _ ⟨⟩⟩ rfl rfl rfl (by constructor <;> simp [Mem.record])
  | run _ h =>
    unfold execRun at h
    (repeat' split at h) <;> cases h <;> exact keep rfl (idle rfl fun _ => rfl) rfl rfl rfl (.of_log rfl rfl rfl)
  | @drive i p pc o r _ h =>
    cases pc with
    | injector =>
      cases ch <;> simp only [execDrive, reduceCtorEq] at h
      (repeat' split at h) <;> cases h
      · rename_i hinj
        exact ⟨rfl, idle rfl fun _ => rfl, .take rfl rfl hinj rfl (.of_log rfl rfl rfl)⟩
      · exact keep rfl (idle rfl fun _ => rfl) rfl rfl rfl (.of_log rfl rfl rfl)
      · exact keep rfl (resting_finish p) (jobs_finish p) rfl rfl (.of_log rfl rfl rfl)
    | found j migrated =>
      cases ch <;> simp only [execDrive, reduceCtorEq] at h
      split at h <;> cases h <;>
        exact keep rfl (idle rfl fun _ => rfl) rfl rfl rfl (by constructor <;> simp [Mem.record])
    | victim start k =>
      cases ch <;> simp only [execDrive, reduceCtorEq] at h
      (repeat' split at h) <;> cases h
      · exact keep rfl (idle rfl fun _ => rfl) rfl rfl rfl (.of_log rfl rfl rfl)
      · refine keep rfl ⟨rfl, fun a pc h => ?_⟩ rfl rfl rfl (.of_log rfl rfl rfl)
        simp only [Ctl.thief] at h
        split at h <;> cases h
        rfl
      · exact keep rfl (resting_finish p) (jobs_finish p) rfl rfl (.of_log rfl rfl rfl)
    | _ =>
      cases ch <;> simp only [execDrive, reduceCtorEq] at h
      all_goals (repeat' split at h) <;> cases h <;>
        first | exact keep rfl (idle rfl fun _ => rfl) rfl rfl rfl (.of_log rfl rfl rfl)
              | exact keep rfl ⟨rfl, by rintro _ _ ⟨⟩⟩ rfl rfl rfl (.of_log rfl rfl rfl)
              | exact keep rfl (resting_finish p) (jobs_finish p) rfl rfl (.of_log rfl rfl rfl)
  | pop _ h => cases ho
  | @steal i p start k pc r _ _ => exact absurd (ht (victimAt cfg start k)) (by simp [Ctl.thief])
  | push _ _ h => cases ho
  | @park i p j pc r _ h =>
    cases pc with
    | lock =>
      simp only [execPark, Parked.park] at h
      split at h <;> rename_i hp <;> split at hp <;> cases hp <;> cases h <;>
        exact keep rfl (idle rfl fun _ => rfl) rfl rfl rfl (.of_log rfl rfl rfl)
    | body =>
      simp only [execPark, Parked.park] at h
      split at h <;> rename_i hp <;> split at hp <;> cases hp <;> cases h
      · exact keep rfl (idle rfl fun _ => rfl) rfl rfl rfl (.of_log rfl rfl rfl)
      · exact ⟨rfl, idle rfl fun _ => rfl, .park rfl rfl rfl rfl (.of_log rfl rfl rfl)⟩
    | count =>
      cases h
      exact keep rfl (idle rfl fun _ => rfl) rfl rfl rfl (.of_log rfl rfl rfl)
    | unlock raced =>
      cases raced <;> cases h
      · exact keep rfl (idle rfl fun _ => rfl) rfl rfl rfl (.of_log rfl rfl rfl)
      · exact keep rfl ⟨rfl, by rintro _ _ ⟨⟩⟩ rfl rfl rfl (.of_log rfl rfl rfl)
  | @inject k j =>
    exact ⟨rfl, resting_injectResume k, .put rfl rfl rfl rfl (.of_log rfl rfl rfl)⟩
  | @notify k pc r h =>
    unfold execNotify at h
    (repeat' split at h) <;> cases h <;>
      first | exact keep rfl (idle rfl fun _ => rfl) rfl rfl rfl (.of_log rfl rfl rfl)
            | exact keep rfl (resting_notifyResume k) (jobs_notifyResume k) rfl rfl (.of_log rfl rfl rfl)
  | @hasWork k pc r h =>
    unfold execHasWork at h
    (repeat' split at h) <;> cases h <;>
      first | exact keep rfl (idle rfl fun _ => rfl) rfl rfl rfl (.of_log rfl rfl rfl)
            | exact keep rfl (resting_hasWorkResume k _) (jobs_hasWorkResume k _) rfl rfl (.of_log rfl rfl rfl)
  | @enter k pc r h =>
    unfold execEnter at h
    split at h <;> cases h <;>
      first | exact keep rfl (idle rfl fun _ => rfl) rfl rfl rfl (.of_log rfl rfl rfl)
            | exact keep rfl (resting_enterResume k) (jobs_enterResume k) rfl rfl (.of_log rfl rfl rfl)
  | @release k pc r h =>
    unfold execRelease at h
    split at h <;> cases h <;>
      first | exact keep rfl (idle rfl fun _ => rfl) rfl rfl rfl (.of_log rfl rfl rfl)
            | exact keep rfl (resting_releaseResume k) (jobs_releaseResume k) rfl rfl (.of_log rfl rfl rfl)
  | @spawn k => exact ⟨rfl, idle rfl fun _ => rfl, .spawn rfl rfl rfl⟩
  | @spawnOn k a => exact ⟨rfl, ⟨rfl, by rintro _ _ ⟨⟩⟩, .spawn rfl rfl rfl⟩
  | @wake k id pc r h =>
    cases pc with
    | lock =>
      simp only [execWake, Parked.wake] at h
      split at h <;> rename_i hp <;> split at hp <;> cases hp <;> cases h <;>
        exact keep rfl (idle rfl fun _ => rfl) rfl rfl rfl (.of_log rfl rfl rfl)
    | body =>
      simp only [execWake, Parked.wake] at h
      split at h <;> rename_i hp <;> split at hp <;> cases hp <;> cases h
      · exact keep rfl (idle rfl fun _ => rfl) rfl rfl rfl (by constructor <;> simp [Mem.record])
      · rename_i j hj
        exact ⟨rfl, idle rfl fun _ => rfl, .wake rfl rfl hj rfl (by constructor <;> simp [Mem.record])⟩
    | count j =>
      cases h
      exact keep rfl (idle rfl fun _ => rfl) rfl rfl rfl (.of_log rfl rfl rfl)
    | unlock j =>
      cases j <;> cases h
      · exact keep rfl (resting_siteResume k) (jobs_siteResume k) rfl rfl (.of_log rfl rfl rfl)
      · exact keep rfl (idle rfl fun _ => rfl) rfl rfl rfl (.of_log rfl rfl rfl)
  | @stopTheWorld k pc r h =>
    cases pc <;> simp only [execStop] at h <;> (repeat' split at h) <;> cases h <;>
      first | exact keep rfl (idle rfl fun _ => rfl) rfl rfl rfl (.of_log rfl rfl rfl)
            | exact keep rfl (resting_siteResume k) (jobs_siteResume k) rfl rfl (.of_log rfl rfl rfl)
  | @requestSafepoint k pc r h =>
    cases pc <;> simp only [execRequestSafepoint] at h <;> split at h <;> cases h <;>
      first | exact keep rfl (idle rfl fun _ => rfl) rfl rfl rfl (.of_log rfl rfl rfl)
            | exact keep rfl (resting_siteResume k) (jobs_siteResume k) rfl rfl (.of_log rfl rfl rfl)
  | @worldIsStopped k => exact keep rfl (resting_siteResume k) (jobs_siteResume k) rfl rfl (.of_log rfl rfl rfl)
  | @shutdown k pc r h =>
    unfold execShutdown at h
    (repeat' split at h) <;> cases h <;>
      first | exact keep rfl (idle rfl fun _ => rfl) rfl rfl rfl (.of_log rfl rfl rfl)
            | exact keep rfl (resting_siteResume k) (jobs_siteResume k) rfl rfl (.of_log rfl rfl rfl)
  | @poll k =>
    split
    · exact keep rfl (idle rfl fun _ => rfl) rfl rfl rfl (.of_log rfl rfl rfl)
    · exact keep rfl (resting_siteResume k) (jobs_siteResume k) rfl rfl (.of_log rfl rfl rfl)
  | spurious h =>
    unfold spuriousWake at h
    split at h <;> cases h <;> exact keep rfl (idle rfl fun _ => rfl) rfl rfl rfl (.of_log rfl rfl rfl)

/-! ### Signals move no jobs -/

theorem awaken_jobs (t : Tid cfg) (a : Addr cfg) (c : Ctl cfg) : (awaken t a c).jobs = c.jobs := by
  unfold awaken
  split <;> (try split) <;> rfl

theorem awaken_owner (t : Tid cfg) (a : Addr cfg) (c : Ctl cfg) : (awaken t a c).owner = c.owner := by
  unfold awaken
  split <;> (try split) <;> rfl

theorem awaken_thief (t : Tid cfg) (a : Addr cfg) (c : Ctl cfg) : (fun v => (awaken t a c).thief v) = fun v => c.thief v := by
  unfold awaken
  split <;> (try split) <;> rfl

theorem awaken_resting {a : Addr cfg} (h : c.resting) : (awaken t a c).resting := by
  have hthief := awaken_thief t a c
  exact ⟨by rw [awaken_owner]; exact h.1, fun v pc hv => h.2 v pc ((congrFun hthief v).symm.trans hv)⟩

/-! ### Targets of `spawn_on` -/

theorem awaken_onTarget {a : Addr cfg} (h : c.onTarget t) : (awaken t a c).onTarget t := by
  unfold awaken
  split <;> (try split) <;> exact h

@[simp] theorem onTarget_siteResume (k : Site) : (k.resume : Ctl cfg).onTarget t := by cases k <;> trivial
@[simp] theorem onTarget_pushResume (k : PushK cfg) : k.resume.onTarget t := by rcases k with ⟨_, _ | _⟩ | _ <;> trivial
@[simp] theorem onTarget_finish (p : Pass) : (p.finish : Ctl cfg).onTarget t := by
  unfold Pass.finish
  (repeat' split) <;> trivial

theorem ExecCase.onTarget (h : ExecCase t m c ch (m', c', w)) (ha : ∀ x, ch = .call (.spawnOn x) → t = .agent x)
    (hc : c.onTarget t) : c'.onTarget t := by
  cases h with
  | @callHost o r h =>
    obtain ⟨-, rfl, rfl, -⟩ := execCall_inv h
    cases o <;> first | trivial | exact ha _ rfl
  | @callTask p j o r h =>
    obtain ⟨-, rfl, rfl, -⟩ := execCall_inv h
    cases o <;> first | trivial | exact ha _ rfl
  | suspend _ h =>
    unfold Parallel.suspend at h
    split at h <;> cases h <;> trivial
  | run _ h =>
    unfold execRun at h
    (repeat' split at h) <;> cases h <;> trivial
  | @drive i p pc _ _ _ h =>
    unfold execDrive at h
    (repeat' split at h) <;> cases h <;> first | trivial | exact onTarget_finish p
  | pop _ h =>
    unfold execPop at h
    split at h <;> cases h <;> trivial
  | steal _ h =>
    unfold execSteal at h
    split at h <;> cases h <;> trivial
  | @push a k j pc r _ _ h =>
    unfold execPush at h
    split at h <;> cases h
    · cases k <;> exact hc
    · exact onTarget_pushResume k
    · cases k <;> exact hc
  | park _ h =>
    unfold execPark at h
    split at h <;> cases h <;> trivial
  | @inject k j => rcases k with (⟨_, _ | _⟩ | _) | _ <;> trivial
  | @notify k pc r h =>
    unfold execNotify at h
    (repeat' split at h) <;> cases h <;> rcases k with _ | (_ | _) <;> trivial
  | @hasWork k pc r h =>
    unfold execHasWork at h
    (repeat' split at h) <;> cases h <;> rcases k with _ | (_ | _) <;> trivial
  | @enter k pc r h =>
    unfold execEnter at h
    split at h <;> cases h <;> rcases k with _ | _ | (_ | _) <;> trivial
  | @release k pc r h =>
    unfold execRelease at h
    split at h <;> cases h <;> rcases k with (_ | _) | (_ | _) | (_ | _) <;> trivial
  | spawn => trivial
  | spawnOn => exact hc
  | @wake k id pc r h =>
    simp only [execWake] at h
    split at h <;> cases h <;> first | trivial | exact onTarget_siteResume k
  | @stopTheWorld k pc r h =>
    cases pc <;> simp only [execStop] at h <;> (repeat' split at h) <;> cases h <;>
      first | trivial | exact onTarget_siteResume k
  | @requestSafepoint k pc r h =>
    cases pc <;> simp only [execRequestSafepoint] at h <;> split at h <;> cases h <;>
      first | trivial | exact onTarget_siteResume k
  | @worldIsStopped k => exact onTarget_siteResume k
  | @shutdown k pc r h =>
    unfold execShutdown at h
    (repeat' split at h) <;> cases h <;> first | trivial | exact onTarget_siteResume k
  | @poll k =>
    split
    · trivial
    · exact onTarget_siteResume k
  | spurious h =>
    unfold spuriousWake at h
    split at h <;> cases h <;> trivial

end

end Krio.Parallel
