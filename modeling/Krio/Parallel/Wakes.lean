import Krio.Lib.Mutex
import Krio.Parallel.Jobs

/-! No wake is lost. Both maps of `Parked` are only touched by the thread that holds its lock, and a wake
that finds no task is kept for the task's next park: a task in the map has not been woken since its last
step began. -/

namespace Krio.Parallel
open Lib

variable {cfg : Config}

/-- Whether a wake of `j` took effect since the last time its step began; events stand newest first. -/
def woken (j : Job) : List (Event cfg) → Bool
  | [] => false
  | .woke id :: es => if id = j.id then true else woken j es
  | .stepBegin j' _ :: es => if j' = j then false else woken j es
  | _ :: es => woken j es

/-- Control points inside the critical section of `Parked`. -/
inductive Critical
  | body
  | count
  | unlock
  deriving DecidableEq

namespace Ctl

def critical : Ctl cfg → Option Critical
  | .park _ _ .body | .wake _ _ .body => some .body
  | .park _ _ .count | .wake _ _ (.count _) => some .count
  | .park _ _ (.unlock _) | .wake _ _ (.unlock _) => some .unlock
  | _ => none

/-- The job that a thread is in the step of, or that it is about to park. -/
def begun : Ctl cfg → List Job
  | .park _ j .lock | .park _ j .body => [j]
  | c => c.site.jobs

/-- Outside the critical section and not on the way into it, inside the step of `l`. -/
def plain (c : Ctl cfg) (l : List Job) : Prop := c.critical = none ∧ c.begun = l

end Ctl

section
variable {t : Tid cfg} {m m' : Mem cfg} {c c' : Ctl cfg} {ch : Choice cfg} {w : Option (Addr cfg)}

/-- What a step does with `Parked`, and with the wakes that the tasks have heard of. -/
inductive Waking (m : Mem cfg) (c : Ctl cfg) (m' : Mem cfg) (c' : Ctl cfg) : Prop
  | aside : m'.parked = m.parked → (∀ j, woken j m'.log = woken j m.log) → c.critical = none → c'.critical = none →
      c'.begun ⊆ c.begun → Waking m c m' c'
  | begin {j : Job} : m'.parked = m.parked → (∀ j', woken j' m'.log = if j = j' then false else woken j' m.log) →
      c.critical = none → c'.critical = none → c'.begun = [j] → Waking m c m' c'
  | lock : m.parked.locked = false → m'.parked = { m.parked with locked := true } → m'.log = m.log →
      c.critical = none → c'.critical = some .body → c'.begun = c.begun → Waking m c m' c'
  | park {j : Job} : c.begun = [j] → j.id ∉ m.parked.earlyWakes →
      m'.parked = { m.parked with tasks := m.parked.tasks.insert j.id j } → m'.log = m.log →
      c.critical = some .body → c'.critical = some .count → c'.begun = [] → Waking m c m' c'
  | race {j : Job} : c.begun = [j] → m'.parked = { m.parked with earlyWakes := m.parked.earlyWakes.erase j.id } →
      m'.log = m.log → c.critical = some .body → c'.critical = some .unlock → c'.begun = [] → Waking m c m' c'
  | early {id : TaskId} : m.parked.tasks.lookup id = none →
      m'.parked = { m.parked with earlyWakes := insert id m.parked.earlyWakes } → m'.log = .woke id :: m.log →
      c.critical = some .body → c'.critical = some .unlock → c'.begun = c.begun → Waking m c m' c'
  | wake {id : TaskId} {j : Job} : m.parked.tasks.lookup id = some j →
      m'.parked = { m.parked with tasks := m.parked.tasks.erase id } → m'.log = .woke id :: m.log →
      c.critical = some .body → c'.critical = some .count → c'.begun = c.begun → Waking m c m' c'
  | count : m'.parked = m.parked.storeCount → m'.log = m.log → c.critical = some .count →
      c'.critical = some .unlock → c'.begun = c.begun → Waking m c m' c'
  | unlock : m'.parked = m.parked.unlock → m'.log = m.log → c.critical = some .unlock → c'.critical = none →
      c'.begun = c.begun → Waking m c m' c'

theorem plain_siteResume (k : Site) : (k.resume : Ctl cfg).plain k.jobs := by cases k <;> exact ⟨rfl, rfl⟩
theorem plain_enterResume (k : EnterK) : (k.resume : Ctl cfg).plain k.jobs := by
  rcases k with _ | _ | (_ | _) <;> exact ⟨rfl, rfl⟩
theorem plain_releaseResume (k : ReleaseK) : (k.resume : Ctl cfg).plain k.jobs := by
  rcases k with (_ | _) | (_ | _) | (_ | _) <;> exact ⟨rfl, rfl⟩
theorem plain_pushResume (k : PushK cfg) : k.resume.plain k.jobs := by rcases k with ⟨_, _ | _⟩ | _ <;> exact ⟨rfl, rfl⟩
theorem plain_injectResume (k : InjectK cfg) : k.resume.plain k.jobs := by
  rcases k with (⟨_, _ | _⟩ | _) | _ <;> exact ⟨rfl, rfl⟩
theorem plain_notifyResume (k : NotifyK) : (k.resume : Ctl cfg).plain k.jobs := by
  rcases k with _ | (_ | _) <;> exact ⟨rfl, rfl⟩
theorem plain_hasWorkResume (k : HasWorkK) (b : Bool) : (k.resume b : Ctl cfg).plain k.jobs := by
  rcases k with _ | (_ | _) <;> cases b <;> exact ⟨rfl, rfl⟩
theorem plain_finish (p : Pass) : (p.finish : Ctl cfg).plain [] := by
  unfold Pass.finish
  (repeat' split) <;> exact ⟨rfl, rfl⟩
theorem plain_start (k : Site) (o : Call cfg) (ho : o.allowed t k = true) : (o.start k).plain k.jobs := by
  cases o <;> cases k <;> first | exact ⟨rfl, rfl⟩ | (cases t <;> cases ho)

theorem plain_push (k : PushK cfg) (j : Job) (pc : Deque.PushPc cfg.w) : (Ctl.push k j pc).plain k.jobs := by
  cases k <;> exact ⟨rfl, rfl⟩
theorem plain_inject (k : InjectK cfg) (j : Job) : (Ctl.inject k j).plain k.jobs := by
  rcases k with (_ | _) | _ <;> exact ⟨rfl, rfl⟩
theorem plain_notify (k : NotifyK) (pc : NotifyPc) : (Ctl.notify k pc : Ctl cfg).plain k.jobs := by
  cases k <;> exact ⟨rfl, rfl⟩
theorem plain_hasWork (k : HasWorkK) (pc : HasWorkPc cfg) : (Ctl.hasWork k pc).plain k.jobs := by
  cases k <;> exact ⟨rfl, rfl⟩
theorem plain_enter (k : EnterK) (pc : Safepoint.EnterPc) : (Ctl.enter k pc : Ctl cfg).plain k.jobs := by
  cases k <;> exact ⟨rfl, rfl⟩
theorem plain_release (k : ReleaseK) (pc : Safepoint.ReleasePc) : (Ctl.release k pc : Ctl cfg).plain k.jobs := by
  cases k <;> exact ⟨rfl, rfl⟩

/-- A thread inside a step, or about to park a job, has that job in its hands. -/
theorem begun_subset (c : Ctl cfg) : c.begun ⊆ c.jobs := by
  unfold Ctl.begun
  split
  · exact List.Subset.refl _
  · exact List.Subset.refl _
  · exact site_jobs_subset c

theorem awaken_critical (t : Tid cfg) (a : Addr cfg) (c : Ctl cfg) : (awaken t a c).critical = c.critical := by
  unfold awaken
  split <;> (try split) <;> rfl

theorem awaken_begun (t : Tid cfg) (a : Addr cfg) (c : Ctl cfg) : (awaken t a c).begun = c.begun := by
  unfold awaken
  split <;> (try split) <;>
    first | rfl | exact (plain_enter _ _).2.trans (plain_enter _ _).2.symm
          | exact (plain_release _ _).2.trans (plain_release _ _).2.symm

theorem ExecCase.waking (h : ExecCase t m c ch (m', c', w)) : Waking m c m' c' := by
  -- A step outside `Parked` from the step of `l` back into it.
  have aside : ∀ {x : Mem cfg} {d : Ctl cfg} {l : List Job}, x.parked = m.parked → x.log = m.log → c.plain l →
      d.plain l → Waking m c x d := fun h₁ h₂ h₃ h₄ =>
    .aside h₁ (fun _ => by rw [h₂]) h₃.1 h₄.1 (by rw [h₃.2, h₄.2]; exact List.Subset.refl _)
  have here : ∀ {d : Ctl cfg}, d.critical = none → d.plain d.begun := fun h => ⟨h, rfl⟩
  cases h with
  | @callHost o r h =>
    obtain ⟨ho, rfl, rfl, -⟩ := execCall_inv h
    exact aside rfl rfl ⟨rfl, rfl⟩ (plain_start _ o ho)
  | @callTask p j o r h =>
    obtain ⟨ho, rfl, rfl, -⟩ := execCall_inv h
    exact aside rfl rfl ⟨rfl, rfl⟩ (plain_start _ o ho)
  | suspend _ h =>
    unfold Parallel.suspend at h
    split at h <;> cases h <;> exact .aside rfl (fun _ => rfl) rfl rfl (by simp [Ctl.begun, Ctl.site, Site.jobs])
  | run _ h =>
    unfold execRun at h
    (repeat' split at h) <;> cases h <;> exact aside rfl rfl (here rfl) ⟨rfl, rfl⟩
  | @drive i p pc o r _ h =>
    unfold execDrive at h
    split at h
    case h_5 j mig =>
      split at h <;> cases h <;> exact .begin rfl (fun _ => rfl) rfl rfl rfl
    all_goals (repeat' split at h) <;> cases h <;>
      first | exact aside rfl rfl (here rfl) ⟨rfl, rfl⟩ | exact aside rfl rfl (here rfl) (plain_finish p)
  | pop _ h =>
    unfold execPop at h
    split at h <;> cases h <;> exact aside rfl rfl (here rfl) ⟨rfl, rfl⟩
  | steal _ h =>
    unfold execSteal at h
    split at h <;> cases h <;> exact aside rfl rfl (here rfl) ⟨rfl, rfl⟩
  | @push a k j pc r _ _ h =>
    unfold execPush at h
    split at h <;> cases h
    · exact aside rfl rfl (plain_push k j _) (plain_push k j _)
    · exact aside rfl rfl (plain_push k j _) (plain_pushResume k)
    · exact aside rfl rfl (plain_push k j _) (plain_inject (.spill k) j)
  | @park i p j pc r _ h =>
    cases pc with
    | lock =>
      simp only [execPark, Parked.park] at h
      split at h <;> rename_i hp <;> split at hp <;> cases hp <;> cases h
      · exact aside rfl rfl (here rfl) ⟨rfl, rfl⟩
      · exact .lock (by simpa using ‹¬m.parked.locked = true›) rfl rfl rfl rfl rfl
    | body =>
      simp only [execPark, Parked.park] at h
      split at h <;> rename_i hp <;> split at hp <;> cases hp <;> cases h
      · exact .race rfl rfl rfl rfl rfl rfl
      · exact .park rfl ‹_› rfl rfl rfl rfl rfl
    | count =>
      cases h
      exact .count rfl rfl rfl rfl rfl
    | unlock raced => cases raced <;> cases h <;> exact .unlock rfl rfl rfl rfl rfl
  | @inject k j => exact aside rfl rfl (plain_inject k j) (plain_injectResume k)
  | @notify k pc r h =>
    unfold execNotify at h
    (repeat' split at h) <;> cases h <;>
      first | exact aside rfl rfl (plain_notify k _) (plain_notify k _)
            | exact aside rfl rfl (plain_notify k _) (plain_notifyResume k)
  | @hasWork k pc r h =>
    unfold execHasWork at h
    (repeat' split at h) <;> cases h <;>
      first | exact aside rfl rfl (plain_hasWork k _) (plain_hasWork k _)
            | exact aside rfl rfl (plain_hasWork k _) (plain_hasWorkResume k _)
  | @enter k pc r h =>
    unfold execEnter at h
    split at h <;> cases h <;>
      first | exact aside rfl rfl (plain_enter k _) (plain_enter k _)
            | exact aside rfl rfl (plain_enter k _) (plain_enterResume k)
  | @release k pc r h =>
    unfold execRelease at h
    split at h <;> cases h <;>
      first | exact aside rfl rfl (plain_release k _) (plain_release k _)
            | exact aside rfl rfl (plain_release k _) (plain_releaseResume k)
  | spawn | spawnOn => exact .aside rfl (fun _ => rfl) rfl rfl (List.Subset.refl _)
  | @wake k id pc r h =>
    cases pc with
    | lock =>
      simp only [execWake, Parked.wake] at h
      split at h <;> rename_i hp <;> split at hp <;> cases hp <;> cases h
      · exact aside rfl rfl (here rfl) ⟨rfl, rfl⟩
      · exact .lock (by simpa using ‹¬m.parked.locked = true›) rfl rfl rfl rfl rfl
    | body =>
      simp only [execWake, Parked.wake] at h
      split at h <;> rename_i hp <;> split at hp <;> cases hp <;> cases h
      · exact .early ‹_› rfl rfl rfl rfl rfl
      · exact .wake ‹_› rfl rfl rfl rfl rfl
    | count j =>
      cases h
      exact .count rfl rfl rfl rfl rfl
    | unlock j =>
      cases j <;> cases h
      · exact .unlock rfl rfl rfl (plain_siteResume k).1 (plain_siteResume k).2
      · exact .unlock rfl rfl rfl rfl rfl
  | @stopTheWorld k pc r h =>
    cases pc <;> simp only [execStop] at h <;> (repeat' split at h) <;> cases h <;>
      first | exact aside rfl rfl ⟨rfl, rfl⟩ ⟨rfl, rfl⟩ | exact aside rfl rfl ⟨rfl, rfl⟩ (plain_siteResume k)
  | @requestSafepoint k pc r h =>
    cases pc <;> simp only [execRequestSafepoint] at h <;> split at h <;> cases h <;>
      first | exact aside rfl rfl ⟨rfl, rfl⟩ ⟨rfl, rfl⟩ | exact aside rfl rfl ⟨rfl, rfl⟩ (plain_siteResume k)
  | @worldIsStopped k => exact aside rfl rfl ⟨rfl, rfl⟩ (plain_siteResume k)
  | @shutdown k pc r h =>
    unfold execShutdown at h
    (repeat' split at h) <;> cases h <;>
      first | exact aside rfl rfl ⟨rfl, rfl⟩ ⟨rfl, rfl⟩ | exact aside rfl rfl ⟨rfl, rfl⟩ (plain_siteResume k)
  | @poll k =>
    split
    · exact aside rfl rfl ⟨rfl, rfl⟩ ⟨rfl, rfl⟩
    · exact aside rfl rfl ⟨rfl, rfl⟩ (plain_siteResume k)
  | spurious h =>
    unfold spuriousWake at h
    split at h <;> cases h
    · exact aside rfl rfl (plain_enter _ _) (plain_enter _ _)
    · exact aside rfl rfl (plain_release _ _) (plain_release _ _)
    · exact aside rfl rfl ⟨rfl, rfl⟩ ⟨rfl, rfl⟩

end

section
variable {s s' : State cfg} {a : Act cfg}

/-! ### The lock -/

/-- What the lock of `Parked` keeps: one thread inside, the mirror of the map's size, and no identity in
    both maps. -/
structure Guarded (s : State cfg) : Prop where
  lock : Mutex s.mem.parked.locked fun t => (s.ctl t).critical ≠ none
  count : (∀ t, (s.ctl t).critical ≠ some .count) → s.mem.parked.count = s.mem.parked.tasks.entries.length
  disjoint : ∀ id ∈ s.mem.parked.tasks, id ∉ s.mem.parked.earlyWakes

theorem Guarded.step (h : Guarded s) (hstep : (cluster cfg).step s a = some s') : Guarded s' := by
  obtain ⟨m, c, w, he, rfl, hctl⟩ := step_inv hstep
  have self : (s'.ctl a.1).critical = c.critical := Program.view_self (v := fun _ c => c.critical) awaken_critical hctl
  have other : ∀ t, t ≠ a.1 → (s'.ctl t).critical = (s.ctl t).critical :=
    fun t ht => Program.view_other (v := fun _ c => c.critical) awaken_critical hctl ht
  have others : ∀ t, t ≠ a.1 → (s'.ctl t).critical ≠ none → (s.ctl t).critical ≠ none :=
    fun t ht => by rw [other t ht]; exact id
  -- The acting thread does not get in.
  have stay : (c.critical ≠ none → (s.ctl a.1).critical ≠ none) →
      Mutex s.mem.parked.locked fun t => (s'.ctl t).critical ≠ none := by
    refine fun hself => h.lock.stay fun t => ?_
    obtain rfl | ht := eq_or_ne t a.1
    · rw [self]
      exact hself
    · exact others t ht
  -- The acting thread is not about to store the size.
  have counted : (s.ctl a.1).critical ≠ some .count → (∀ t, (s'.ctl t).critical ≠ some .count) →
      s.mem.parked.count = s.mem.parked.tasks.entries.length := by
    refine fun hself hall => h.count fun t => ?_
    obtain rfl | ht := eq_or_ne t a.1
    · exact hself
    · rw [← other t ht]
      exact hall t
  have uncounted : c.critical = some .count → ¬∀ t, (s'.ctl t).critical ≠ some .count :=
    fun hc hall => hall a.1 (self.trans hc)
  cases he.waking with
  | aside hp _ hc hc' =>
    rw [← hp] at stay counted
    exact ⟨stay (by simp [hc']), counted (by simp [hc]), by rw [hp]; exact h.disjoint⟩
  | begin hp _ hc hc' =>
    rw [← hp] at stay counted
    exact ⟨stay (by simp [hc']), counted (by simp [hc]), by rw [hp]; exact h.disjoint⟩
  | lock hl hp _ hc hc' =>
    have hlock := h.lock
    rw [hl] at hlock
    refine ⟨?_, ?_, ?_⟩ <;> rw [hp]
    · exact hlock.acquire others
    · exact counted (by simp [hc])
    · exact h.disjoint
  | @park j _ hj hp _ hc hc' =>
    refine ⟨?_, fun hall => absurd hall (uncounted hc'), ?_⟩ <;> rw [hp]
    · exact stay (by simp [hc])
    · intro id hid
      rcases AList.mem_insert _ |>.mp hid with rfl | hid
      · exact hj
      · exact h.disjoint id hid
  | race _ hp _ hc =>
    refine ⟨?_, ?_, ?_⟩ <;> rw [hp]
    · exact stay (by simp [hc])
    · exact counted (by simp [hc])
    · exact fun id hid hmem => h.disjoint id hid (Finset.mem_of_mem_erase hmem)
  | @early id hl hp _ hc =>
    refine ⟨?_, ?_, ?_⟩ <;> rw [hp]
    · exact stay (by simp [hc])
    · exact counted (by simp [hc])
    · intro id' hid hmem
      rcases Finset.mem_insert.mp hmem with rfl | hmem
      · exact AList.lookup_eq_none.mp hl hid
      · exact h.disjoint id' hid hmem
  | @wake id j _ hp _ hc hc' =>
    refine ⟨?_, fun hall => absurd hall (uncounted hc'), ?_⟩ <;> rw [hp]
    · exact stay (by simp [hc])
    · exact fun id' hid => h.disjoint id' (AList.mem_erase.mp hid).2
  | count hp _ hc =>
    refine ⟨?_, ?_, ?_⟩ <;> rw [hp]
    · exact stay (by simp [hc])
    · exact fun _ => rfl
    · exact h.disjoint
  | unlock hp _ hc hc' =>
    refine ⟨?_, ?_, ?_⟩ <;> rw [hp]
    · exact h.lock.release (i := a.1) (by simp [hc]) (by simp [self, hc']) others
    · exact counted (by simp [hc])
    · exact h.disjoint

theorem guarded_of_run {ok : State cfg → Act cfg → Prop} (h : Reachable ok s) : Guarded s :=
  h.keeps (P := Guarded) (fun _ _ _ hs _ hstep => hs.step hstep)
    ⟨⟨fun _ _ h => h rfl, fun _ _ h => absurd rfl h⟩, fun _ => rfl, fun _ h => absurd h (AList.notMem_empty _)⟩

/-! ### The wakes -/

/-- A waiting task has not been woken since its step began; one that has, and is still to be parked, finds
    the wake among the early ones. -/
structure Heard (s : State cfg) : Prop where
  waiting : ∀ j ∈ s.mem.parked.waiting, woken j s.mem.log = false
  coming : ∀ t, ∀ j ∈ (s.ctl t).begun, woken j s.mem.log = true → j.id ∈ s.mem.parked.earlyWakes

theorem hands_of_begun {t : Tid cfg} {j : Job} (hj : j ∈ (s.ctl t).begun) : j ∈ s.hands t := by
  have hjobs := begun_subset _ hj
  cases t with
  | agent i => exact List.mem_append_right _ hjobs
  | ext x => exact hjobs

/-- Identities tell apart the tasks that two threads are in the step of, or about to park. -/
theorem Sound.begun_unique (hs : Sound s) {t t' : Tid cfg} {j j' : Job} (hj : j ∈ (s.ctl t).begun)
    (hj' : j' ∈ (s.ctl t').begun) (hid : j.id = j'.id) : t = t' := by
  have hout := (hs.custody.out_iff j).mpr ⟨.hands t, hands_of_begun hj⟩
  have hout' := (hs.custody.out_iff j').mpr ⟨.hands t', hands_of_begun hj'⟩
  obtain rfl := hs.eq_of_id hout.1 hout'.1 hid
  exact Place.hands.inj (hs.custody.unique j _ _ (hands_of_begun hj) (hands_of_begun hj'))

theorem Sound.id_of_waiting (hs : Sound s) {j : Job} (hj : j ∈ s.mem.parked.waiting) : j.id ∈ s.mem.parked.tasks := by
  obtain ⟨e, he, rfl⟩ := List.mem_map.mp hj
  rw [hs.ledger.keyed e he]
  exact AList.mem_keys.mpr (List.mem_map_of_mem he)

theorem Heard.step (h : Heard s) (hs : Sound s) (hstep : (cluster cfg).step s a = some s') : Heard s' := by
  obtain ⟨m, c, w, he, rfl, hctl⟩ := step_inv hstep
  have self : (s'.ctl a.1).begun = c.begun := Program.view_self (v := fun _ c => c.begun) awaken_begun hctl
  have other : ∀ t, t ≠ a.1 → (s'.ctl t).begun = (s.ctl t).begun :=
    fun t ht => Program.view_other (v := fun _ c => c.begun) awaken_begun hctl ht
  have before : c.begun ⊆ (s.ctl a.1).begun → ∀ t, ∀ j ∈ (s'.ctl t).begun, j ∈ (s.ctl t).begun := by
    intro hsub t j hj
    obtain rfl | ht := eq_or_ne t a.1
    · exact hsub (self ▸ hj)
    · rwa [← other t ht]
  -- Neither the maps nor the wakes change.
  have same : s'.mem.parked.tasks = s.mem.parked.tasks → s'.mem.parked.earlyWakes = s.mem.parked.earlyWakes →
      (∀ j, woken j s'.mem.log = woken j s.mem.log) → c.begun ⊆ (s.ctl a.1).begun → Heard s' := by
    intro ht hw hl hsub
    refine ⟨fun j hj => ?_, fun t j hj hj' => ?_⟩
    · rw [hl]
      exact h.waiting j (by rwa [Parked.waiting, ← ht])
    · rw [hw]
      exact h.coming t j (before hsub t j hj) (by rwa [← hl])
  cases he.waking with
  | aside hp hl _ _ hsub => exact same (by rw [hp]) (by rw [hp]) hl hsub
  | lock _ hp hl _ _ hb => exact same (by rw [hp]) (by rw [hp]) (fun _ => by rw [hl]) (by rw [hb]; exact List.Subset.refl _)
  | count hp hl _ _ hb =>
    exact same (by rw [hp]; rfl) (by rw [hp]; rfl) (fun _ => by rw [hl]) (by rw [hb]; exact List.Subset.refl _)
  | unlock hp hl _ _ hb =>
    exact same (by rw [hp]; rfl) (by rw [hp]; rfl) (fun _ => by rw [hl]) (by rw [hb]; exact List.Subset.refl _)
  | @begin j hp hl _ _ hb =>
    refine ⟨fun j' hj' => ?_, fun t j' hj' hw => ?_⟩
    · rw [hl]
      split
      · rfl
      · exact h.waiting j' (by rwa [← hp])
    · rw [hl] at hw
      split at hw
      · cases hw
      · rename_i hne
        rw [hp]
        obtain rfl | ht := eq_or_ne t a.1
        · rw [self, hb, List.mem_singleton] at hj'
          exact absurd hj'.symm hne
        · exact h.coming t j' (by rwa [← other t ht]) hw
  | @park j hj hfree hp hl _ _ hb =>
    have hmine : j ∈ (s.ctl a.1).begun := by simp [hj]
    refine ⟨fun j' hj' => ?_, fun t j' hj' hw => ?_⟩
    · rw [Parked.waiting_insert (by rw [hp]) (hs.id_not_parked (hands_of_begun hmine))] at hj'
      rw [hl]
      rcases List.mem_cons.mp hj' with rfl | hj'
      · exact Bool.eq_false_iff.mpr fun hw => hfree (h.coming a.1 j' hmine hw)
      · exact h.waiting j' hj'
    · rw [hp]
      exact h.coming t j' (before (by simp [hb]) t j' hj') (by rwa [← hl])
  | @race j hj hp hl _ _ hb =>
    have hmine : j ∈ (s.ctl a.1).begun := by simp [hj]
    refine ⟨fun j' hj' => ?_, fun t j' hj' hw => ?_⟩
    · rw [hl]
      exact h.waiting j' (by rwa [Parked.waiting, hp] at hj')
    · have hj₀ := before (by simp [hb]) t j' hj'
      rw [hp]
      refine Finset.mem_erase.mpr ⟨fun hid => ?_, h.coming t j' hj₀ (by rwa [← hl])⟩
      obtain rfl := hs.begun_unique hj₀ hmine hid
      rw [self, hb] at hj'
      cases hj'
  | @early id hid hp hl _ _ hb =>
    refine ⟨fun j hj => ?_, fun t j hj hw => ?_⟩
    · have hj₀ : j ∈ s.mem.parked.waiting := by rwa [Parked.waiting, hp] at hj
      have hne : id ≠ j.id := by
        rintro rfl
        exact AList.lookup_eq_none.mp hid (hs.id_of_waiting hj₀)
      rw [hl, woken, if_neg hne]
      exact h.waiting j hj₀
    · rw [hp]
      rw [hl, woken] at hw
      split at hw
      · rename_i heq
        exact Finset.mem_insert.mpr (Or.inl heq.symm)
      · exact Finset.mem_insert_of_mem (h.coming t j (before (by rw [hb]; exact List.Subset.refl _) t j hj) hw)
  | @wake id j hid hp hl _ _ hb =>
    have hin : id ∈ s.mem.parked.tasks := AList.lookup_isSome.mp (by simp [hid])
    have hperm := Parked.waiting_erase (q := s'.mem.parked) hid (by rw [hp])
    refine ⟨fun j' hj' => ?_, fun t j' hj' hw => ?_⟩
    · have hj : j ∈ s.mem.parked.waiting := hperm.mem_iff.mpr (by simp)
      have hj₀ : j' ∈ s.mem.parked.waiting := hperm.mem_iff.mpr (List.mem_cons_of_mem _ hj')
      have hkey : j.id = id := hs.ledger.keyed ⟨id, j⟩ (AList.mem_lookup_iff.mp hid)
      have hne : id ≠ j'.id := by
        intro heq
        have hout := (hs.custody.out_iff j).mpr ⟨.parked, hj⟩
        have hout' := (hs.custody.out_iff j').mpr ⟨.parked, hj₀⟩
        obtain rfl := hs.eq_of_id hout.1 hout'.1 (hkey.trans heq)
        exact (List.nodup_cons.mp (hperm.nodup_iff.mp (hs.custody.nodup .parked))).1 hj'
      rw [hl, woken, if_neg hne]
      exact h.waiting j' hj₀
    · have hj₀ := before (by rw [hb]; exact List.Subset.refl _) t j' hj'
      have hne : id ≠ j'.id := by
        rintro rfl
        exact hs.id_not_parked (hands_of_begun hj₀) hin
      rw [hl, woken, if_neg hne] at hw
      rw [hp]
      exact h.coming t j' hj₀ hw

theorem heard_of_run (h : Reachable Sane s) : Heard s := by
  refine h.keeps_with (Q := Sound) (P := Heard) (fun _ h => sound_of_run h) (fun _ _ _ hs h _ hstep => h.step hs hstep) ?_
  exact ⟨by rintro j ⟨⟩, fun t j hj => by cases t <;> cases hj⟩

/-- No wake is lost: a task in the map has not been woken since the last time its step began. An identity is
    never in both maps, and `count` is the size of the map whenever the lock is free. The first part is about `Sane`
    runs: `spawn_on` comes from the thread that drives the agent, no call of `steal` overlaps a full turn of the indices,
    and there are fewer than `2 ^ 64` spawns. -/
theorem no_wake_lost :
    (∀ s : State cfg, Reachable Sane s → ∀ id j, s.mem.parked.tasks.lookup id = some j →
      j.id = id ∧ woken j s.mem.log = false) ∧
    ∀ s : State cfg, Reachable (fun _ _ => True) s → (∀ id ∈ s.mem.parked.tasks, id ∉ s.mem.parked.earlyWakes) ∧
      (s.mem.parked.locked = false → s.mem.parked.count = s.mem.parked.tasks.entries.length) := by
  refine ⟨fun s hs id j hj => ?_, fun s hs => ?_⟩
  · have he : (⟨id, j⟩ : Sigma fun _ : TaskId => Job) ∈ s.mem.parked.tasks.entries := AList.mem_lookup_iff.mp hj
    exact ⟨(sound_of_run hs).ledger.keyed _ he, (heard_of_run hs).waiting j (List.mem_map_of_mem he)⟩
  · have hg := guarded_of_run hs
    refine ⟨hg.disjoint, fun hl => hg.count fun t ht => ?_⟩
    exact hg.lock.free hl t (by simp [ht])

/-- A wake before the first step: the first park hands the task back, and after the second step it waits. -/
theorem no_wake_lost_one :
    ∃ s : State (.new 1 (by decide) (by decide)), Reachable Sane s ∧ .woke 1 ∈ s.mem.log ∧
      s.mem.parked.tasks.lookup 1 = some ⟨1, 0⟩ ∧ woken ⟨1, 0⟩ s.mem.log = false := by
  obtain ⟨s, hs, hq⟩ := reachable_of_actions Sane
    ([Tid.calls (.ext 0) .spawn] ++ Tid.go (.ext 0) 4 ++ [Tid.calls (.ext 0) (.wake 1)] ++ Tid.go (.ext 0) 3 ++
      [Tid.calls (.agent 0) (.driveOnce .worker)] ++ Tid.go (.agent 0) 7 ++ [(.agent 0, .ret .pending)] ++
      Tid.go (.agent 0) 17 ++ [(.agent 0, .ret .pending)] ++ Tid.go (.agent 0) 2)
    (fun s : State (.new 1 (by decide) (by decide)) =>
      .woke 1 ∈ s.mem.log ∧ s.mem.parked.tasks.lookup 1 = some ⟨1, 0⟩) (by decide +kernel)
  obtain ⟨hw, hj⟩ : .woke 1 ∈ s.mem.log ∧ s.mem.parked.tasks.lookup 1 = some ⟨1, 0⟩ := by simpa using hq
  exact ⟨s, hs, hw, hj, (no_wake_lost.1 s hs 1 ⟨1, 0⟩ hj).2⟩

end

end Krio.Parallel
