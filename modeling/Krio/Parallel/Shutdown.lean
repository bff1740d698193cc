import Krio.Parallel.StopTheWorld
import Krio.Parallel.Work

/-! `shutdown` releases whatever stop is pending, also one whose closure executes. What that lets the
waiting agents do depends on where they called `enter` from: `run` and host code see `stopping` before
another task is stepped, but a poll in a task's step returns into the step, and the loop of `drive_once`
goes on to the next job. -/

namespace Krio.Parallel
open Lib Safepoint

variable {cfg : Config}

/-- Operations that tasks and hosts call while a stop may be shut down. -/
def WithShutdown (_ : State cfg) (a : Act cfg) : Prop := ∀ o, a.2 = .call o → o = .shutdown ∨ o.foreign = false

instance (s : State cfg) (a : Act cfg) : Decidable (WithShutdown s a) :=
  match h : a.2 with
  | .call o => decidable_of_iff (o = .shutdown ∨ o.foreign = false) (by simp [WithShutdown, h])
  | .go | .ret _ | .clock _ | .spurious => isTrue (by simp [WithShutdown, h])

def Site.inPass : Site → Bool
  | .host => false
  | .task _ _ => true

/-- In a pass of `drive_once` past its first check of `stopping`, the steps of its tasks included. -/
def Ctl.inPass : Ctl cfg → Bool
  | .host | .run _ | .drive _ .start | .hasWork .run _ | .enter .run _ | .ub => false
  | .task _ _ | .drive _ _ | .pop _ _ | .steal _ _ _ _ | .park _ _ _ | .push (.deposit _ _) _ _
  | .inject (.spill (.deposit _ _)) _ | .notify (.surplus _) _ | .enter (.pass _) _ => true
  | .push (.spawnOn k _) _ _ | .inject (.spill (.spawnOn k _)) _ | .inject (.site k) _ | .notify (.site k) _
  | .hasWork (.site k) _ | .enter (.site k) _ | .release (.stopTheWorld k) _ | .release (.resumeWorld k) _
  | .release (.shutdown k) _ | .wake k _ _ | .spawn k | .spawnOn k _ | .stopTheWorld k _ | .requestSafepoint k _
  | .worldIsStopped k | .shutdown k _ | .poll k => k.inPass

/-- When `shutdown` moves the word while agent `i` executes its closure, no other agent waits in an `enter`
    that a task's step called, or the loop of `drive_once`. -/
def ReleasesOutside (i : Fin cfg.agentCount) (s : State cfg) (a : Act cfg) : Prop :=
  ∀ k st hp, s.ctl a.1 = .release (.shutdown k) (.cas st hp) → s.mem.safepoint.state = st →
    ∀ j, j ≠ i → (s.ctl (.agent j)).inPass = false

/-! ### A stop that `shutdown` breaks -/

section Two
/-- The second agent steps a task that polls; the first stops the world. -/
private def polled : List (Act Config.two) :=
  [Tid.calls (.agent 1) .spawn] ++ Tid.go (.agent 1) 5 ++ [Tid.calls (.agent 1) (.driveOnce .worker)] ++
  Tid.go (.agent 1) 7 ++ [Tid.calls (.agent 0) .stopTheWorld] ++ Tid.go (.agent 0) 5 ++
  [Tid.calls (.agent 1) .poll] ++ Tid.go (.agent 1) 3 ++ Tid.go (.agent 0) 1

/-- The second agent has stepped the first of two jobs; the first stops the world. -/
private def betweenSteps : List (Act Config.two) :=
  [Tid.calls (.agent 1) .spawn] ++ Tid.go (.agent 1) 5 ++ [Tid.calls (.agent 1) .spawn] ++ Tid.go (.agent 1) 5 ++
  [Tid.calls (.agent 1) (.driveOnce .worker)] ++ Tid.go (.agent 1) 7 ++
  [Tid.calls (.agent 0) .stopTheWorld] ++ Tid.go (.agent 0) 5 ++
  [(.agent 1, .ret .completed)] ++ Tid.go (.agent 1) 5 ++ Tid.go (.agent 0) 1

private def shutDown (n : ℕ) : List (Act Config.two) :=
  [Tid.calls (.ext 0) .shutdown] ++ Tid.go (.ext 0) 3 ++ Tid.go (.agent 1) n

private abbrev during (s : State Config.two) (a : Act Config.two) : Prop := a.1 ≠ .agent 0 ∧ WithShutdown s a

/-- While the first agent's closure executes and an external thread shuts the cluster down, the second agent
    returns from a poll into its task's step, and begins the step of another task. -/
theorem shutdown_breaks_stop :
    (∃ s₀ s : State (.new 2 (by decide) (by decide)), Reachable StopsOnly s₀ ∧
      s₀.ctl (.agent 0) = .stopTheWorld .host .inF ∧
      (∃ p pc, s₀.ctl (.agent 1) = .enter (.site (.task p ⟨1, 0⟩)) pc) ∧
      Run (fun s a => a.1 ≠ .agent 0 ∧ WithShutdown s a) s₀ s ∧ ∃ p, s.ctl (.agent 1) = .task p ⟨1, 0⟩) ∧
    ∃ s₀ s : State (.new 2 (by decide) (by decide)), Reachable StopsOnly s₀ ∧
      s₀.ctl (.agent 0) = .stopTheWorld .host .inF ∧ .stepBegin ⟨2, 1⟩ 1 ∉ s₀.mem.log ∧
      Run (fun s a => a.1 ≠ .agent 0 ∧ WithShutdown s a) s₀ s ∧ ∃ p, s.ctl (.agent 1) = .task p ⟨2, 1⟩ := by
  constructor
  · obtain ⟨s₀, s, h₀, ⟨hi, hq₀⟩, hs, hq⟩ := run_of_actions StopsOnly during polled (shutDown 4)
      (fun s₀ => s₀.ctl (.agent 0) = .stopTheWorld .host .inF ∧
        s₀.ctl (.agent 1) = .enter (.site (.task ⟨.worker, false, 0⟩ ⟨1, 0⟩)) (.announce 1))
      (fun s => s.ctl (.agent 1) = .task ⟨.worker, false, 0⟩ ⟨1, 0⟩) (by decide +kernel)
    exact ⟨s₀, s, h₀, hi, ⟨_, _, hq₀⟩, hs, _, hq⟩
  · obtain ⟨s₀, s, h₀, ⟨hi, hq₀⟩, hs, hq⟩ := run_of_actions StopsOnly during betweenSteps (shutDown 12)
      (fun s₀ => s₀.ctl (.agent 0) = .stopTheWorld .host .inF ∧ .stepBegin ⟨2, 1⟩ 1 ∉ s₀.mem.log)
      (fun s => s.ctl (.agent 1) = .task ⟨.worker, false, 1⟩ ⟨2, 1⟩) (by decide +kernel)
    exact ⟨s₀, s, h₀, hi, hq₀, hs, _, hq⟩

end Two

/-! ### Outside a pass -/

section
variable {t : Tid cfg} {m m' : Mem cfg} {c c' : Ctl cfg} {ch : Choice cfg} {w : Option (Addr cfg)}

theorem inPass_siteResume (k : Site) : (k.resume : Ctl cfg).inPass = k.inPass := by cases k <;> rfl

theorem awaken_inPass (t : Tid cfg) (a : Addr cfg) (c : Ctl cfg) : (awaken t a c).inPass = c.inPass := by
  unfold awaken
  split <;> (try split) <;> (try rfl)
  all_goals
    rename_i k _ _
    cases k <;> rfl

/-- After shutdown no thread gets into a pass. -/
theorem ExecCase.outside (h : ExecCase t m c ch (m', c', w)) (hm : m.stopping = true) (hc : c.inPass = false) :
    c'.inPass = false := by
  have site : ∀ {k : Site}, k.inPass = false → (k.resume : Ctl cfg).inPass = false :=
    fun h => (inPass_siteResume _).trans h
  cases h with
  | @callHost o r h =>
    obtain ⟨-, -, rfl, -⟩ := execCall_inv h
    cases o <;> rfl
  | run _ h =>
    unfold execRun at h
    (repeat' split at h) <;> cases h <;> rfl
  | @drive i p pc o r _ h =>
    cases pc with
    | start =>
      cases ch <;> simp only [execDrive, reduceCtorEq, hm, ↓reduceIte] at h
      cases h
      rfl
    | _ => cases hc
  | @push a k j pc r _ _ h =>
    unfold execPush at h
    rcases k with _ | ⟨k, a'⟩
    · cases hc
    · split at h <;> cases h <;> exact hc
  | @inject k j => rcases k with (_ | ⟨k, a⟩) | k <;> first | exact hc | cases hc
  | @notify k pc r h =>
    unfold execNotify at h
    rcases k with _ | k
    · cases hc
    · (repeat' split at h) <;> cases h <;> first | exact hc | exact site hc
  | @hasWork k pc r h =>
    unfold execHasWork at h
    rcases k with _ | k
    · (repeat' split at h) <;> cases h <;> rfl
    · (repeat' split at h) <;> cases h <;> first | exact hc | exact site hc
  | @enter k pc r h =>
    unfold execEnter at h
    rcases k with _ | _ | k
    · split at h <;> cases h <;> rfl
    · cases hc
    · split at h <;> cases h <;> first | exact hc | exact site hc
  | @release k pc r h =>
    unfold execRelease at h
    rcases k with k | k | k <;> split at h <;> cases h <;> first | exact hc | exact site hc
  | spawn | spawnOn => exact hc
  | wake h =>
    simp only [execWake] at h
    split at h <;> cases h <;> first | exact hc | exact site hc
  | @stopTheWorld k pc r h =>
    cases pc <;> simp only [execStop] at h <;> (repeat' split at h) <;> cases h <;> first | exact hc | exact site hc
  | @requestSafepoint k pc r h =>
    cases pc <;> simp only [execRequestSafepoint] at h <;> split at h <;> cases h <;> first | exact hc | exact site hc
  | worldIsStopped => exact site hc
  | shutdown h =>
    unfold execShutdown at h
    (repeat' split at h) <;> cases h <;> first | exact hc | exact site hc
  | poll =>
    split
    · exact hc
    · exact site hc
  | spurious h =>
    unfold spuriousWake at h
    split at h <;> cases h
    · rename_i k _
      cases k <;> exact hc
    · rename_i k _
      cases k <;> exact hc
    · exact hc
  | _ => cases hc

/-- With nobody in `request_safepoint` or `resume_world`, only the compare-exchange of `shutdown`'s release moves
    the word on a thread that is not in `stop_the_world`. -/
theorem ExecCase.shutdown_releases (h : ExecCase t m c ch (m', c', w)) (hf : c.foreign = true)
    (hr : c.stopOp ≠ some .requestSafepoint) (hw : c.stopOp ≠ some .resumeWorld)
    (hne : m'.safepoint.state ≠ m.safepoint.state) : ∃ k hp, c = .release (.shutdown k) (.cas m.safepoint.state hp) := by
  cases c with
  | requestSafepoint => exact absurd rfl hr
  | shutdown k pc =>
    cases h with
    | shutdown h => exact absurd (congrArg Safepoint.state (execShutdown_role h).1) hne
    | spurious h => cases h
  | release k pc =>
    rcases k with k | k | k
    · cases hf
    · exact absurd rfl hw
    · cases h with
      | release h =>
        unfold execRelease at h
        split at h <;> cases h <;> obtain ⟨hp, rfl⟩ := release_cas ‹_› hne <;> exact ⟨k, hp, rfl⟩
      | spurious h => exact absurd rfl hne
  | _ => cases hf

theorem not_releasing_of_external (h : c.external = true) : c.role ≠ .releasing := by
  intro hr
  unfold Ctl.role at hr
  split at hr <;> first | (cases hr; done) | cases h

end

/-! ### Runs in which `shutdown` releases nobody into a pass -/

section
variable {s₀ s s' : State cfg} {a : Act cfg} {i : Fin cfg.agentCount}

/-- While agent `i` executes its closure: the others wait for its round, or shutdown has begun and they are
    outside passes. -/
inductive Held (i : Fin cfg.agentCount) (s : State cfg) : Prop
  | frozen : pending s.mem.safepoint.state = true → Barrier.Stopped s.mem.safepoint s.roles i → Held i s
  | cleared : s.mem.stopping = true → (∀ j, j ≠ i → (s.ctl (.agent j)).inPass = false) → Held i s

theorem Held.step (h : Held i s) (hext : ∀ x, (s.ctl (.ext x)).external = true) 
    (hreq : (s.ctl a.1).stopOp ≠ some .requestSafepoint) (hres : (s.ctl a.1).stopOp ≠ some .resumeWorld)
    (hshut : ∀ t, (s.ctl t).shutting = true → s.mem.stopping = true) (ha : a.1 ≠ .agent i) (hr : ReleasesOutside i s a)
    (hstep : (cluster cfg).step s a = some s') : Held i s' := by
  obtain ⟨m, c, w, he, rfl, hctl⟩ := step_inv hstep
  have others : ∀ j, .agent j ≠ a.1 → (s'.ctl (.agent j)).inPass = (s.ctl (.agent j)).inPass :=
    fun j hj => Program.view_other (v := fun _ c => c.inPass) awaken_inPass hctl hj
  cases h with
  | cleared hstop hout =>
    refine .cleared (he.shutting.1 hstop) fun j hj => ?_
    by_cases hja : .agent j = a.1
    · rw [hja, Program.view_self (v := fun _ c => c.inPass) awaken_inPass hctl]
      exact he.outside hstop (hja ▸ hout j hj)
    · rw [others j hja]
      exact hout j hj
  | frozen hp hwait =>
    obtain ⟨hself, hother⟩ := barrier_inv hstep
    cases ht : a.1 with
    | agent j =>
      -- The agent stays where it waits.
      have hji : j ≠ i := fun hji => ha (by rw [ht, hji])
      obtain ⟨k, hk⟩ := hwait j hji
      rw [State.roles, ← ht] at hk
      rw [hk] at hself
      obtain ⟨hsp, hrole⟩ : s'.mem.safepoint = s.mem.safepoint ∧ (s'.ctl a.1).role = .waiting k s.mem.safepoint.state := by
        generalize s'.mem.safepoint = sp', (s'.ctl a.1).role = r' at hself
        cases hself with
        | idle => exact ⟨rfl, rfl⟩
        | see _ _ hne => exact absurd rfl hne
      rw [ht] at hrole
      refine .frozen (hsp ▸ hp) fun l hl => ?_
      rw [hsp]
      obtain rfl | hlj := eq_or_ne l j
      · exact ⟨k, hrole⟩
      · obtain ⟨k', hk'⟩ := hwait l hl
        exact ⟨k', (hother (.agent l) (by rw [ht]; simpa using hlj)).trans hk'⟩
    | ext x =>
      have hroles : ∀ l, s'.roles l = s.roles l := fun l => hother (.agent l) (by rw [ht]; simp)
      by_cases hst : s'.mem.safepoint.state = s.mem.safepoint.state
      · refine .frozen (by rwa [hst]) fun l hl => ?_
        rw [hst, hroles l]
        exact hwait l hl
      · -- Only `shutdown` moves the word of a pending stop.
        have hf : (s.ctl a.1).foreign = true := by
          have hx := not_releasing_of_external (ht ▸ hext x)
          generalize (s.ctl a.1).role = r, s'.mem.safepoint = sp', (s'.ctl a.1).role = r' at hself hst hx
          cases hself <;> first | exact absurd rfl hst | exact absurd rfl hx | assumption | simp_all
        obtain ⟨k, hcas, hc⟩ := he.shutdown_releases hf hreq hres hst
        refine .cleared (he.shutting.1 (hshut a.1 (by rw [hc]; rfl))) fun j hj => ?_
        rw [others j (by rw [ht]; simp)]
        exact hr k _ hcas hc rfl j hj

/-- A run from a state in which agent `i` executes its closure, and does not finish it. -/
theorem held_of_run {k : Site} (h₀ : Reachable StopsOnly s₀) (hi : s₀.ctl (.agent i) = .stopTheWorld k .inF)
    (h : Run (fun s a => a.1 ≠ .agent i ∧ WithShutdown s a ∧ ReleasesOutside i s a) s₀ s) : Held i s := by
  have reached : ∀ s, Run (fun s a => a.1 ≠ .agent i ∧ WithShutdown s a ∧ ReleasesOutside i s a) s₀ s →
      Reachable (fun _ _ => True) s :=
    fun s h => (h₀.mono fun _ _ _ => trivial).trans (h.mono fun _ _ _ => trivial)
  have hrole : s₀.roles i = .inF := by
    rw [State.roles, hi]
    rfl
  have hinv := barrierInv_of_run h₀
  have avoided : ∀ t op, op ≠ .stopTheWorld → (s₀.ctl t).stopOp ≠ some op :=
    fun t op hne hop => absurd (foreign_iff.mpr ⟨op, hop, hne⟩) (by simp [(domestic h₀).1 t])
  refine (h.keeps_with (Q := fun s => Reachable (fun _ _ => True) s)
    (P := fun s => (∀ t, (s.ctl t).stopOp ≠ some .requestSafepoint) ∧ (∀ t, (s.ctl t).stopOp ≠ some .resumeWorld) ∧ Held i s)
    reached ?_ ?_).2.2
  · rintro s a s' hs ⟨hreq, hres, hheld⟩ ⟨ha, hcalls, hrel⟩ hstep
    have calls : ∀ op, op ≠ .stopTheWorld → op ≠ .shutdown → ∀ o, a.2 = .call o → o.stopOp ≠ some op := by
      intro op h₁ h₂ o ho hop
      rcases hcalls o ho with rfl | hf
      · exact h₂ (Option.some.inj hop).symm
      · exact absurd (Call.foreign_iff.mpr ⟨op, hop, h₁⟩) (by simp [hf])
    exact ⟨avoided_of_step hreq (calls _ (by simp) (by simp)) hstep, avoided_of_step hres (calls _ (by simp) (by simp)) hstep,
      hheld.step (external_of_run hs) (hreq a.1) (hres a.1) (attended_of_run hs).shutdown ha hrel hstep⟩
  · exact ⟨fun t => avoided t _ (by simp), fun t => avoided t _ (by simp),
      .frozen (hinv.pending_of_holds (by rw [hrole]; rfl)) (hinv.stopped i (by rw [hrole]; rfl))⟩

/-- A shutdown that releases nobody into a pass does not break the stop: as long as the closure executes, no
    other thread is in a task's step. -/
theorem shutdown_keeps_stop {k : Site} (h₀ : Reachable StopsOnly s₀) (hi : s₀.ctl (.agent i) = .stopTheWorld k .inF)
    (h : Run (fun s a => a.1 ≠ .agent i ∧ WithShutdown s a ∧ ReleasesOutside i s a) s₀ s) :
    ∀ t, t ≠ .agent i → ∀ p j, s.ctl t ≠ .task p j := by
  intro t ht p j hc
  cases t with
  | agent l =>
    have hl : l ≠ i := by simpa using ht
    cases held_of_run h₀ hi h with
    | frozen _ hwait =>
      obtain ⟨k', hk'⟩ := hwait l hl
      rw [State.roles, hc] at hk'
      cases hk'
    | cleared _ hout =>
      have := hout l hl
      rw [hc] at this
      cases this
  | ext x =>
    have := external_of_run ((h₀.mono fun _ _ _ => trivial).trans (h.mono fun _ _ _ => trivial) :
      Reachable (fun _ _ => True) s) x
    rw [hc] at this
    cases this

/-- The second agent waits in `run`; shutdown lets it go. -/
theorem shutdown_keeps_stop_two :
    ∃ s₀ s : State (.new 2 (by decide) (by decide)), Reachable StopsOnly s₀ ∧
      s₀.ctl (.agent 0) = .stopTheWorld .host .inF ∧
      Run (fun s a => a.1 ≠ .agent 0 ∧ WithShutdown s a ∧ ReleasesOutside 0 s a) s₀ s ∧
      s.ctl (.agent 1) = .host ∧ ∀ t, t ≠ .agent 0 → ∀ p j, s.ctl t ≠ .task p j := by
  obtain ⟨s₀, s, h₀, hi, hs, hq⟩ := run_of_actions StopsOnly
    (fun s a => a.1 ≠ .agent 0 ∧ WithShutdown s a ∧ ∀ j, j ≠ 0 → (s.ctl (.agent j)).inPass = false)
    ([Tid.calls (.agent 0) .stopTheWorld] ++ Tid.go (.agent 0) 2 ++ [Tid.calls (.agent 1) .run] ++
      Tid.go (.agent 1) 4 ++ Tid.go (.agent 0) 4)
    ([Tid.calls (.ext 0) .shutdown] ++ Tid.go (.ext 0) 3 ++ Tid.go (.agent 1) 5)
    (fun s₀ : State (.new 2 (by decide) (by decide)) => s₀.ctl (.agent 0) = .stopTheWorld .host .inF)
    (fun s => s.ctl (.agent 1) = .host) (by decide +kernel)
  have hs' : Run (fun s a => a.1 ≠ .agent 0 ∧ WithShutdown s a ∧ ReleasesOutside 0 s a) s₀ s :=
    hs.mono fun _ _ h => ⟨h.1, h.2.1, fun _ _ _ _ _ => h.2.2⟩
  exact ⟨s₀, s, h₀, hi, hs', hq, shutdown_keeps_stop h₀ hi hs'⟩

end

end Krio.Parallel
