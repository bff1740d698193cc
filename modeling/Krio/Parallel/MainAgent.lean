import Krio.Parallel.Inversion

/-! The main agent must not block. The operations it is told to use park in one place: the drain loop of the
`release` that `resume_world` calls, as long as an agent has not left the barrier. `shutdown` calls the same
`release`, but after setting `stopping`, and the loop gives up then. -/

namespace Krio.Parallel
open Lib

/-- The operations that the agent `i` is told to use when it is the main agent. -/
def Call.forMain {cfg : Config} (i : Fin cfg.agentCount) : Call cfg → Bool
  | .driveOnce role => role = .main
  | .spawnOn a => a = i
  | .spawn | .wake _ | .hasWork | .requestSafepoint | .worldIsStopped | .resumeWorld | .shutdown => true
  | .run | .stopTheWorld | .poll => false

/-- Inside a call of `Park::park`. -/
def Ctl.parks {cfg : Config} : Ctl cfg → Bool
  | .run .park | .run .asleep | .enter _ (.park _) | .enter _ (.asleep _) | .release _ (.park _) | .release _ (.asleep _)
  | .stopTheWorld _ (.awaitAll (.park _)) | .stopTheWorld _ (.awaitAll (.asleep _)) => true
  | _ => false

/-- Agent `i`, the main agent, calls nothing else, from its host or from a task that it steps. -/
def KeepsToMain {cfg : Config} (i : Fin cfg.agentCount) (_ : State cfg) (a : Act cfg) : Prop :=
  ∀ o, a = (.agent i, .call o) → o.forMain i = true

/-- The drain loop of `resume_world` has read a count other than zero, and looks at `stopping`. -/
def Ctl.drains {cfg : Config} : Ctl cfg → Bool
  | .release (.resumeWorld _) (.stopping _) => true
  | _ => false

/-- Whenever the drain loop of agent `i`'s `resume_world` has read a count other than zero, `stopping` is set. -/
def DrainsAtOnce {cfg : Config} (i : Fin cfg.agentCount) (s : State cfg) (a : Act cfg) : Prop :=
  a.1 = .agent i → (s.ctl (.agent i)).drains = true → s.mem.stopping = true

instance {cfg : Config} (i : Fin cfg.agentCount) (s : State cfg) (a : Act cfg) : Decidable (KeepsToMain i s a) :=
  match h : a with
  | (t, .call o) => decidable_of_iff (t = .agent i → o.forMain i = true) (by simp [KeepsToMain])
  | (_, .go) | (_, .ret _) | (_, .clock _) | (_, .spurious) => isTrue (by simp [KeepsToMain])

instance {cfg : Config} (i : Fin cfg.agentCount) (s : State cfg) (a : Act cfg) : Decidable (DrainsAtOnce i s a) :=
  inferInstanceAs (Decidable (_ → _))

/-! ### A main agent that parks -/

/-- The worker arrives at the barrier, and the main agent resumes the world before the worker has left it. -/
private def resumedEarly : List (Act Config.two) :=
  [Tid.calls (.agent 1) .run, Tid.calls (.agent 0) .requestSafepoint] ++ Tid.go (.agent 0) 5 ++
  Tid.go (.agent 1) 4 ++ [Tid.calls (.agent 0) .worldIsStopped] ++ Tid.go (.agent 0) 1 ++
  [Tid.calls (.agent 0) .resumeWorld] ++ Tid.go (.agent 0) 6

/-- Two agents: the main agent's `resume_world` parks until the worker has left the barrier. -/
theorem resume_world_parks :
    ∃ s : State (.new 2 (by decide) (by decide)), Reachable (KeepsToMain 0) s ∧ (s.ctl (.agent 0)).parks = true := by
  obtain ⟨s, hs, hq⟩ := reachable_of_actions (KeepsToMain (0 : Fin Config.two.agentCount)) resumedEarly
    (fun s : State Config.two => (s.ctl (.agent 0)).parks) (by decide +kernel)
  exact ⟨s, hs, hq⟩

/-! ### Where a main agent can be -/

/-- A pass of a main agent. -/
def Pass.isMain (p : Pass) : Prop := p.role = .main ∧ p.inRun = false

def Site.isMain : Site → Prop
  | .host => True
  | .task p _ => p.isMain

/-- Not past the look at `stopping` in the drain loop. -/
def Safepoint.ReleasePc.free : Safepoint.ReleasePc → Prop
  | .nudge _ | .park _ | .asleep _ => False
  | _ => True

/-- The control states of a main agent, when the memory is `m`. -/
def Ctl.isMain {cfg : Config} (m : Mem cfg) : Ctl cfg → Prop
  | .host | .ub => True
  | .task p _ | .pop p _ | .steal p _ _ _ | .park p _ _ => p.isMain
  | .drive p pc => p.isMain ∧ pc ≠ .inPass
  | .push (.deposit p _) _ _ | .inject (.spill (.deposit p _)) _ | .notify (.surplus p) _ => p.isMain
  | .push (.spawnOn k _) _ _ | .inject (.spill (.spawnOn k _)) _ | .inject (.site k) _ | .notify (.site k) _
  | .hasWork (.site k) _ | .spawn k | .spawnOn k _ | .wake k _ _ | .requestSafepoint k _ | .worldIsStopped k
  | .shutdown k _ => k.isMain
  | .release (.resumeWorld k) pc => k.isMain ∧ pc.free
  | .release (.shutdown k) pc => k.isMain ∧ pc.free ∧ m.stopping = true
  | .run _ | .enter _ _ | .stopTheWorld _ _ | .poll _ | .hasWork .run _ | .release (.stopTheWorld _) _ => False

section
variable {cfg : Config} {i : Fin cfg.agentCount} {t : Tid cfg} {m m' : Mem cfg} {c c' : Ctl cfg} {ch : Choice cfg}
  {w : Option (Addr cfg)}

theorem Ctl.isMain.not_parks (h : c.isMain m) : c.parks = false := by
  unfold Ctl.parks
  split <;> first | rfl | exact h.elim | skip
  all_goals
    rename_i k _
    cases k <;> first | exact h.elim | exact h.2.elim | exact h.2.1.elim

@[simp] theorem isMain_siteResume {k : Site} (h : k.isMain) : (k.resume : Ctl cfg).isMain m := by cases k <;> exact h

theorem isMain_finish {p : Pass} (h : p.isMain) : (p.finish : Ctl cfg).isMain m := by
  unfold Pass.finish
  rw [h.2]
  trivial

/-- The drain loop gets past its look at `stopping` only when the flag is not set. -/
theorem release_free {sp sp' : Safepoint} {stopping : Bool} {pc : Safepoint.ReleasePc} (hpc : pc.free)
    (hstop : ∀ n, pc = .stopping n → stopping = true) {o : Out Safepoint.ReleasePc Unit} {x : Option Safepoint.Word}
    (h : sp.release stopping pc = some (sp', o, x)) : ∀ pc', o = .next pc' → pc'.free := by
  rintro pc' rfl
  cases pc with
  | load | cas =>
    simp only [Safepoint.release, Safepoint.releaseSeen] at h
    (repeat' split at h) <;> cases h <;> trivial
  | drain =>
    simp only [Safepoint.release] at h
    split at h <;> cases h
    trivial
  | stopping n =>
    rw [Safepoint.release, hstop n rfl] at h
    cases h
  | wakeAll =>
    cases h
    trivial
  | nudge | park | asleep => exact hpc.elim

/-- The flag is never cleared. -/
theorem ExecCase.stopping (h : ExecCase t m c ch (m', c', w)) (hm : m.stopping = true) : m'.stopping = true := by
  rcases h.stopOp.2 with heq | hop
  · rw [heq, hm]
  · cases h with
    | @shutdown k pc r h =>
      unfold execShutdown at h
      (repeat' split at h) <;> cases h <;> first | rfl | exact hm
    | @release k pc r h =>
      unfold execRelease at h
      split at h <;> cases h <;> exact hm
    | spurious h => exact hm
    | _ => cases hop

/-- A thread asleep in a `park` is no main agent. -/
theorem Ctl.isMain.awaken {a : Addr cfg} (h : c.isMain m) : (awaken t a c).isMain m := by
  have hnot := h.not_parks
  unfold Parallel.awaken
  split <;> first | cases hnot | exact h

/-- A main agent that keeps to its operations stays where a main agent can be. -/
theorem ExecCase.isMain (h : ExecCase (.agent i) m c ch (m', c', w)) (hc : c.isMain m)
    (hcall : ∀ o, ch = .call o → o.forMain i = true) (hdrain : c.drains = true → m.stopping = true) : c'.isMain m' := by
  cases h with
  | @callHost o r h =>
    obtain ⟨-, rfl, rfl, -⟩ := execCall_inv h
    have ho := hcall o rfl
    cases o with
    | driveOnce role => exact ⟨⟨by simpa [Call.forMain] using ho, rfl⟩, by simp⟩
    | resumeWorld => exact ⟨trivial, trivial⟩
    | run | stopTheWorld | poll => cases ho
    | _ => trivial
  | @callTask p j o r h =>
    obtain ⟨ha, rfl, rfl, -⟩ := execCall_inv h
    have ho := hcall o rfl
    cases o with
    | driveOnce role => cases ha
    | resumeWorld => exact ⟨hc, trivial⟩
    | run | stopTheWorld | poll => cases ho
    | _ => exact hc
  | @suspend i p j s r _ h =>
    unfold Parallel.suspend at h
    split at h <;> cases h <;> first | exact hc | exact ⟨hc, by simp⟩
  | run _ h => exact hc.elim
  | @drive i p pc o r _ h =>
    obtain ⟨hp, hpc⟩ := hc
    unfold execDrive at h
    (repeat' split at h) <;> cases h <;>
      first | exact hp | exact isMain_finish hp | trivial | exact absurd rfl hpc
            | (rename_i hrole; rw [hp.1] at hrole; cases hrole) | exact ⟨hp, by simp⟩
  | @pop i p pc r _ h =>
    unfold execPop at h
    split at h <;> cases h <;> first | exact hc | exact ⟨hc, by simp⟩ | trivial
  | @steal i p start k pc r _ h =>
    unfold execSteal at h
    split at h <;> cases h <;> first | exact hc | exact ⟨hc, by simp⟩ | trivial
  | @push a k j pc r _ _ h =>
    unfold execPush at h
    rcases k with ⟨p, _ | _⟩ | ⟨k, x⟩ <;> split at h <;> cases h <;> first | exact hc | exact ⟨hc, by simp⟩
  | @park i p j pc r _ h =>
    unfold execPark at h
    split at h <;> cases h <;> first | exact hc | exact ⟨hc, by simp⟩
  | @inject k j => rcases k with (⟨p, _ | _⟩ | _) | _ <;> first | exact hc | exact ⟨hc, by simp⟩
  | @notify k pc r h =>
    unfold execNotify at h
    rcases k with p | k <;> (repeat' split at h) <;> cases h <;>
      first | exact hc | exact ⟨hc, by simp⟩ | exact isMain_siteResume hc
  | @hasWork k pc r h =>
    unfold execHasWork at h
    rcases k with _ | k
    · exact hc.elim
    · (repeat' split at h) <;> cases h <;> first | exact hc | exact isMain_siteResume hc
  | enter h => exact hc.elim
  | @release k pc r h =>
    unfold execRelease at h
    rcases k with k | k | k
    · exact hc.elim
    · have hstop : ∀ n, pc = .stopping n → m.stopping = true := fun n hn => hdrain (by rw [hn]; rfl)
      split at h <;> rename_i hr <;> cases h
      · exact ⟨hc.1, release_free hc.2 hstop hr _ rfl⟩
      · exact isMain_siteResume hc.1
    · split at h <;> rename_i hr <;> cases h
      · exact ⟨hc.1, release_free hc.2.1 (fun _ _ => hc.2.2) hr _ rfl, hc.2.2⟩
      · exact hc.1
  | spawn => exact hc
  | spawnOn => exact hc
  | @wake k id pc r h =>
    simp only [execWake] at h
    split at h <;> cases h <;> first | exact hc | exact isMain_siteResume hc
  | stopTheWorld h => exact hc.elim
  | @requestSafepoint k pc r h =>
    cases pc <;> simp only [execRequestSafepoint] at h <;> split at h <;> cases h <;>
      first | exact hc | exact isMain_siteResume hc
  | @worldIsStopped k => exact isMain_siteResume hc
  | @shutdown k pc r h =>
    unfold execShutdown at h
    (repeat' split at h) <;> cases h <;> first | exact hc | exact isMain_siteResume hc | exact ⟨hc, trivial, rfl⟩
  | poll => exact hc.elim
  | spurious h =>
    have hnot := hc.not_parks
    unfold spuriousWake at h
    split at h <;> cases h <;> cases hnot

/-- The flag is the only thing of the memory that matters to where a main agent can be. -/
theorem Ctl.isMain.mono (h : c.isMain m) (hm : m.stopping = true → m'.stopping = true) : c.isMain m' := by
  cases c with
  | release k pc =>
    rcases k with k | k | k
    · exact h
    · exact h
    · exact ⟨h.1, h.2.1, hm h.2.2⟩
  | push k _ _ | notify k _ | hasWork k _ => cases k <;> exact h
  | inject k _ => rcases k with (_ | _) | _ <;> exact h
  | _ => exact h

/-- A main agent that keeps to the operations it is told to use never parks, as long as every agent has left the
    barrier when its `resume_world` looks, or the cluster is shutting down. -/
theorem main_never_parks {i : Fin cfg.agentCount} {s : State cfg}
    (h : Reachable (fun s a => KeepsToMain i s a ∧ DrainsAtOnce i s a) s) : (s.ctl (.agent i)).parks = false := by
  refine Ctl.isMain.not_parks (m := s.mem) (h.keeps (P := fun s => (s.ctl (.agent i)).isMain s.mem) ?_ trivial)
  rintro s ⟨t, ch⟩ s' hs ⟨hkeep, hdrain⟩ hstep
  obtain ⟨m, c, w, he, rfl, hctl⟩ := step_inv hstep
  refine Program.forall_ctl (P := fun t c => t = .agent i → c.isMain s'.mem) (fun t r c hc ht => (hc ht).awaken) hctl ?_ ?_
    (.agent i) rfl
  · rintro rfl
    exact he.isMain hs (fun o ho => hkeep o (congrArg (Prod.mk _) ho)) (hdrain rfl)
  · rintro _ - rfl
    exact hs.mono fun hm => he.stopping hm

end

/-- Two agents: the main agent resumes the world when the worker has left the barrier. -/
theorem main_never_parks_two :
    ∃ s : State (.new 2 (by decide) (by decide)), Reachable (fun s a => KeepsToMain 0 s a ∧ DrainsAtOnce 0 s a) s ∧
      (∃ k n, s.ctl (.agent 0) = .release (.resumeWorld k) n) ∧ (s.ctl (.agent 0)).parks = false := by
  obtain ⟨s, hs, hq⟩ := reachable_of_actions (fun s a => KeepsToMain (0 : Fin Config.two.agentCount) s a ∧ DrainsAtOnce 0 s a)
    ([Tid.calls (.agent 1) .run, Tid.calls (.agent 0) .requestSafepoint] ++ Tid.go (.agent 0) 5 ++
      Tid.go (.agent 1) 4 ++ [Tid.calls (.agent 0) .resumeWorld] ++ Tid.go (.agent 0) 3 ++ Tid.go (.agent 1) 4)
    (fun s : State Config.two => s.ctl (.agent 0) = .release (.resumeWorld .host) .drain ∧ s.mem.safepoint.stopped = 0) (by decide +kernel)
  have hq' := of_decide_eq_true hq
  exact ⟨s, hs, ⟨_, _, hq'.1⟩, main_never_parks hs⟩

end Krio.Parallel
